import Tailfin.Proxy.Tee
import Tailfin.Proxy.WsMeter
import Tailfin.Wire.Reports
import Tailfin.Wire.SseChunks
import Tailfin.Wire.SseFormat

/-!
# The record of a stream

From the frames that an upstream says to the usage that `finish_locked` gets: the body is cut into
chunks, the tee clones them into the channel, the task decodes and meters them. Once the body has
been dropped, the task is done after as many turns as the channel has places, and one more.
-/

namespace Tailfin

open Text

/-- The decoder's reading of an event stream. -/
theorem SseDecoder.decodeText_eventStream {frames : List SseFrame} {lines : List StreamLine}
    (stream : EventStream frames lines) : decodeText (lines.flatMap StreamLine.text) = frames := by
  have text : lines.flatMap StreamLine.text = (lines.map StreamLine.raw).flatMap ended := by
    rw [List.flatMap_map]
    rfl
  have whole : ∀ r ∈ lines.map StreamLine.raw, '\n' ∉ r := by
    intro r mem
    obtain ⟨l, hl, rfl⟩ := List.mem_map.mp mem
    exact StreamLine.newline_notMem_raw (stream.plain l hl)
  have pushed := pushText_lines whole List.not_mem_nil
  rw [List.append_nil, ← text, readLines_encodes stream.encodes stream.plain rfl] at pushed
  rw [decodeText, pushed]
  exact List.append_nil frames

/-- Cut between characters, or with nothing but ASCII in the frames. -/
def CutWell (text : List Char) (chunks : List (List UInt8)) : Prop :=
  (∀ u ∈ chunks, ∃ x, u = Utf8.encode x) ∨ ∀ c ∈ liveText text, ¬ Utf8.Wide c

theorem SseDecoder.decode_eventStream {frames : List SseFrame} {lines : List StreamLine}
    (stream : EventStream frames lines) {chunks : List (List UInt8)}
    (text : chunks.flatten = Utf8.encode (lines.flatMap StreamLine.text))
    (cuts : CutWell (lines.flatMap StreamLine.text) chunks) : decode chunks = frames := by
  rw [← decodeText_eventStream stream]
  rcases cuts with between | narrow
  · rw [decode_of_encoded_chunks between, text, decode_eq]
    simp [Utf8.lossy_encode]
  · rw [decode_eq, decodeText_garbled (Utf8.garbled_of_chunks text) narrow]

namespace TeedResponse

/-! ## The task comes to its end -/

/-- While nothing kills the task: the channel holds no more than it may, it is closed once the
body has been dropped, and the task listens until it has made its record. -/
structure Listening (s : TeedResponse) : Prop where
  short : s.chan.queue.length ≤ teeCapacity
  closing : s.live = false → s.chan.sender = false
  waiting : s.chan.receiver = s.record.isNone

theorem Listening.tee {s : TeedResponse} (h : Listening s) (chunk : List UInt8)
    (inner relayed : List BodyFrame) : Listening { s with
      chan := (TeeBody.tee s.chan chunk).2
      inner := inner
      relayed := relayed } := by
  rcases TeeBody.tee_cases s.chan chunk with ⟨-, teed⟩ | ⟨-, -, teed⟩ | ⟨-, -, teed⟩ |
    ⟨-, -, room, teed⟩ <;> rw [teed]
  · exact ⟨h.short, h.closing, h.waiting⟩
  · exact ⟨h.short, fun _ => rfl, h.waiting⟩
  · exact ⟨h.short, h.closing, h.waiting⟩
  · refine ⟨?_, h.closing, h.waiting⟩
    simp only [List.length_append, List.length_singleton]
    omega

section Task

variable [JsonParser]

theorem Listening.recv {s : TeedResponse} (h : Listening s) : Listening s.recv := by
  unfold TeedResponse.recv
  cases front : s.chan.queue with
  | cons bytes queue =>
    simp only [Channel.recv_item front]
    refine ⟨?_, h.closing, h.waiting⟩
    have short := h.short
    rw [front, List.length_cons] at short
    exact Nat.le_of_succ_le short
  | nil =>
    cases sender : s.chan.sender with
    | true =>
      simp only [Channel.recv_pending front sender]
      exact h
    | false =>
      simp only [Channel.recv_ended front sender]
      exact ⟨Nat.zero_le _, fun _ => sender, rfl⟩

theorem Listening.step {s : TeedResponse} (h : Listening s) {e : TeeEvent} (alive : e ≠ .kill) :
    Listening (s.step e).1 := by
  cases e with
  | pollFrame =>
    simp only [TeedResponse.step]
    split
    · cases next : s.inner with
      | nil =>
        rw [pollFrame_of_nil next]
        exact h
      | cons frame inner =>
        cases frame with
        | data chunk =>
          rw [pollFrame_of_data next]
          exact h.tee chunk inner _
        | trailers =>
          rw [pollFrame_of_trailers next]
          exact ⟨h.short, h.closing, h.waiting⟩
    · exact h
  | drop => exact ⟨h.short, fun _ => rfl, h.waiting⟩
  | recv =>
    simp only [TeedResponse.step]
    split
    · exact h.recv
    · exact h
  | kill => exact absurd rfl alive

theorem final_recv_of_gone {s : TeedResponse} (gone : s.chan.receiver = false) (n : Nat) :
    Runs.final TeedResponse.step s (List.replicate n .recv) = s := by
  have still : (s.step .recv).1 = s := by simp [TeedResponse.step, gone]
  induction n with
  | zero => rfl
  | succ n ih => rw [List.replicate_succ, Runs.final_cons, still, ih]

/-- A closed channel is received empty, and then the task records. -/
theorem isSome_record_of_recv {s : TeedResponse} (h : Listening s) (closed : s.chan.sender = false)
    {n : Nat} (enough : s.chan.queue.length < n) :
    (Runs.final TeedResponse.step s (List.replicate n .recv)).record.isSome = true := by
  induction n generalizing s with
  | zero => exact absurd enough (Nat.not_lt_zero _)
  | succ n ih =>
    cases receiver : s.chan.receiver with
    | false =>
      rw [final_recv_of_gone receiver, ← Option.not_isNone, ← h.waiting, receiver]
      rfl
    | true =>
      rw [List.replicate_succ, Runs.final_cons]
      have next := h.recv
      have turn : (s.step .recv).1 = s.recv := by simp [TeedResponse.step, receiver]
      rw [turn]
      cases front : s.chan.queue with
      | nil =>
        have done : s.recv.chan.receiver = false ∧ s.recv.record.isSome = true := by
          simp [TeedResponse.recv, Channel.recv_ended front closed, Channel.dropReceiver]
        rw [final_recv_of_gone done.1]
        exact done.2
      | cons bytes queue =>
        have rest : s.recv.chan = { s.chan with queue := queue } := by
          simp only [TeedResponse.recv, Channel.recv_item front]
        apply ih next
        · rw [rest]
          exact closed
        · rw [rest]
          rw [front, List.length_cons] at enough
          exact Nat.lt_of_succ_lt_succ enough

/-! ## What it records -/

/-- What the frames of a stream are to leave in the record. -/
def framesRecord (d : Dialect) (frames : List SseFrame) : Usage × Bool :=
  (Usage.ofReports d (Meter.reports d frames), frames.any (Meter.ends d))

/-- A streamed answer is recorded as its frames. Whatever order the client and the task take their
turns in, if no clone meets a full channel and the body has been relayed to its end, then the turns
that the task still has to take end in the record of every frame. -/
theorem stream_record (d : Dialect) {frames : List SseFrame} {lines : List StreamLine}
    (stream : EventStream frames lines) {body : List BodyFrame}
    (text : (chunksOf body).flatten = Utf8.encode (lines.flatMap StreamLine.text))
    (cuts : CutWell (lines.flatMap StreamLine.text) (chunksOf body)) {es : List TeeEvent}
    (heard : Runs.Steps step (fun s e => ¬ s.Overruns e) (start (some d) body) es)
    (alive : .kill ∉ es) (relayed : (Runs.final step (start (some d) body) es).relayed = body) :
    (Runs.final step (start (some d) body)
      (es ++ .drop :: List.replicate (teeCapacity + 1) .recv)).record =
        some (framesRecord d frames) := by
  have listening : Listening (Runs.final step (start (some d) body) es) := by
    apply Runs.final_invariant (P := fun _ e => e ≠ .kill) (I := Listening)
      (fun s e h allowed => h.step allowed)
      ⟨Nat.zero_le _, (fun live => by cases live), rfl⟩
    intro x hx
    obtain ⟨pre, e, post, rfl, rfl⟩ := Runs.exists_of_mem_trace hx
    rintro rfl
    exact alive (by simp)
  have exact_ : Exact (some d) (Runs.final step (start (some d) body) es) :=
    Runs.final_invariant (fun s e h heard => exact_step h heard) (exact_start (some d) body) heard
  rw [Runs.final_append, Runs.final_cons]
  generalize Runs.final step (start (some d) body) es = s at *
  have dropped : Listening (s.step .drop).1 := listening.step nofun
  have recorded := isSome_record_of_recv dropped rfl (Nat.lt_succ_of_le dropped.short)
  have turns : Runs.Steps step (fun _ e => e = .recv) (s.step .drop).1
      (List.replicate (teeCapacity + 1) .recv) := by
    intro x hx
    obtain ⟨pre, e, post, split, rfl⟩ := Runs.exists_of_mem_trace hx
    have there : e ∈ List.replicate (teeCapacity + 1) TeeEvent.recv := by simp [split]
    exact List.eq_of_mem_replicate there
  have first : Exact (some d) (s.step .drop).1 ∧ (s.step .drop).1.relayed = body :=
    ⟨exact_step exact_ (fun overrun => nomatch overrun.1), relayed⟩
  have last := Runs.final_invariant
    (I := fun s : TeedResponse => Exact (some d) s ∧ s.relayed = body) (by
      rintro s e ⟨h, same⟩ rfl
      refine ⟨exact_step h (fun overrun => nomatch overrun.1), ?_⟩
      simp only [step]
      split
      · rw [(recv_inner s).2]
        exact same
      · exact same) first turns
  generalize Runs.final step (s.step .drop).1 (List.replicate (teeCapacity + 1) .recv) = s' at *
  obtain ⟨r, hr⟩ := Option.isSome_iff_exists.mp recorded
  rw [hr, (last.1.recorded r hr).2.2, last.2, metered_eq,
    SseDecoder.decode_eventStream stream text cuts, Meter.observeAll_new]
  rfl

end Task

section Cases

attribute [local instance] responseTexts

/-- One event, cut in its data line. -/
def responseBody : List BodyFrame :=
  [.data (Utf8.encode ("data: ".toList ++ responseText.take 9)), .trailers,
    .data (Utf8.encode (responseText.drop 9 ++ "\n\n".toList))]

theorem stream_record_response :
    (Runs.final step (start (some .openAiResponses) responseBody)
      ([.pollFrame, .recv, .pollFrame, .pollFrame] ++
        .drop :: List.replicate (teeCapacity + 1) .recv)).record =
      some (framesRecord .openAiResponses [⟨none, responseText⟩]) := by
  have plain : ∀ f ∈ [(⟨none, responseText⟩ : SseFrame)], f.Plain := by
    intro f hf
    obtain rfl := List.mem_singleton.mp hf
    exact ⟨nofun, by decide⟩
  apply stream_record .openAiResponses (eventStream_streamLinesOf plain false) (by decide +kernel)
    (.inl ?_) (by decide +kernel) (by decide) (by decide +kernel)
  intro u hu
  simp only [responseBody, chunksOf, BodyFrame.dataRef, List.filterMap_cons, List.filterMap_nil,
    List.mem_cons, List.not_mem_nil, or_false] at hu
  rcases hu with rfl | rfl
  · exact ⟨_, rfl⟩
  · exact ⟨_, rfl⟩

end Cases

end TeedResponse

end Tailfin
