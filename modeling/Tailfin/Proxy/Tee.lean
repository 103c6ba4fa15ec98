import Tailfin.Library.Channel
import Tailfin.Library.Runs
import Tailfin.Wire.Meter

/-!
# Teed responses

`TeeBody` of `tailfin-proxy` with the task that `spawn_meter` starts: the body streams to the
client, each data frame is cloned into a bounded channel, and the task meters what it receives.
The two sides take their steps in any order. The client gets the body unchanged whatever the
meter does; what the meter records is exact as long as no clone meets a full channel.
-/

namespace Tailfin

/-- A frame of a body: data, or trailers. -/
inductive BodyFrame where
  | data (chunk : List UInt8)
  | trailers
  deriving DecidableEq, Repr

/-- `Frame::data_ref`. -/
def BodyFrame.dataRef : BodyFrame → Option (List UInt8)
  | .data chunk => some chunk
  | .trailers => none

def teeCapacity : Nat := 64

/-! ## The metering task -/

/-- The local state of the metering task. -/
structure MeterTask where
  decoder : SseDecoder
  meter : Option Meter
  deriving DecidableEq, Repr

namespace MeterTask

def new (dialect : Option Dialect) : MeterTask := ⟨.new, dialect.map Meter.new⟩

variable [JsonParser]

/-- One round of the loop: decode a chunk, observe its frames. -/
def chunk (t : MeterTask) (bytes : List UInt8) : MeterTask :=
  match t.meter with
  | some m => ⟨(t.decoder.push bytes).2, some (m.observeAll (t.decoder.push bytes).1)⟩
  | none => t

/-- What the task records once the channel has ended. -/
def result (t : MeterTask) : Usage × Bool :=
  match t.meter.map fun m => m.observeAll t.decoder.finish.1 with
  | some m => (m.usage, m.isComplete)
  | none => (default, false)

def chunks (t : MeterTask) (all : List (List UInt8)) : MeterTask := all.foldl chunk t

theorem chunks_append (t : MeterTask) (first rest : List (List UInt8)) :
    t.chunks (first ++ rest) = (t.chunks first).chunks rest :=
  List.foldl_append

theorem chunks_of_meter (d : SseDecoder) (m : Meter) (all : List (List UInt8)) :
    (⟨d, some m⟩ : MeterTask).chunks all =
      ⟨(d.pushAll all).2, some (m.observeAll (d.pushAll all).1)⟩ := by
  induction all generalizing d m with
  | nil => rfl
  | cons bytes all ih =>
    rw [SseDecoder.pushAll, Meter.observeAll_append]
    exact ih (d.push bytes).2 (m.observeAll (d.push bytes).1)

end MeterTask

/-- The usage of a body that is metered with nothing dropped, and whether it is complete. -/
def metered [JsonParser] (dialect : Option Dialect) (all : List (List UInt8)) : Usage × Bool :=
  ((MeterTask.new dialect).chunks all).result

/-- Metering is observing the frames that the stream decodes to. -/
theorem metered_eq [JsonParser] (dialect : Dialect) (all : List (List UInt8)) :
    metered (some dialect) all =
      (((Meter.new dialect).observeAll (SseDecoder.decode all)).usage,
        ((Meter.new dialect).observeAll (SseDecoder.decode all)).isComplete) := by
  rw [metered, MeterTask.new, Option.map_some, MeterTask.chunks_of_meter, SseDecoder.decode,
    Meter.observeAll_append]
  rfl

/-- Cut between characters, a body is metered as in one piece. -/
theorem metered_of_encoded_chunks [JsonParser] (dialect : Option Dialect)
    {all : List (List UInt8)} (cuts : ∀ u ∈ all, ∃ x, u = Utf8.encode x) :
    metered dialect all = metered dialect [all.flatten] := by
  cases dialect with
  | none =>
    have skip : ∀ all, ((MeterTask.new none).chunks all) = MeterTask.new none := by
      intro all
      induction all with
      | nil => rfl
      | cons bytes all ih => exact ih
    rw [metered, metered, skip, skip]
  | some dialect => rw [metered_eq, metered_eq, SseDecoder.decode_of_encoded_chunks cuts]

/-! ## The tee -/

/-- What `poll_frame` returns, with the trailers and the errors of the inner body. -/
inductive FramePoll (τ ε : Type*) where
  | pending
  | data (chunk : List UInt8)
  | trailers (fields : τ)
  | failed (error : ε)
  | ended
  deriving DecidableEq, Repr

/-- `TeeBody` without its inner body, and its channel, whose sender is `tx`. -/
structure TeeBody where
  /-- The body has not been dropped yet. -/
  live : Bool
  chan : Channel (List UInt8)

/-- What is seen of a turn. -/
inductive TeeSight (τ ε : Type*) where
  /-- The answer to the client, and how the channel took its chunk if it was tried. -/
  | polled (answer : FramePoll τ ε) (attempt : Option Channel.Sent)
  | received (chunk : List UInt8)
  | nothing
  deriving DecidableEq, Repr

namespace TeeBody

variable {τ ε : Type*}

def new : TeeBody := ⟨true, .new⟩

/-- Clone a chunk to the channel unless teeing is disabled, which a closed channel does. -/
def tee (chan : Channel (List UInt8)) (chunk : List UInt8) :
    Option Channel.Sent × Channel (List UInt8) :=
  if chan.sender then
    match chan.trySend teeCapacity chunk with
    | (.closed, chan) => (some .closed, chan.dropSender)
    | (sent, chan) => (some sent, chan)
  else (none, chan)

def pollFrame (s : TeeBody) (inner : FramePoll τ ε) : TeeBody × TeeSight τ ε :=
  match inner with
  | .data chunk => ({ s with chan := (tee s.chan chunk).2 }, .polled inner (tee s.chan chunk).1)
  | _ => (s, .polled inner none)

theorem pollFrame_live (s : TeeBody) (inner : FramePoll τ ε) :
    (s.pollFrame inner).1.live = s.live := by
  cases inner <;> rfl

/-- The ways a chunk can pass. -/
theorem tee_cases (chan : Channel (List UInt8)) (chunk : List UInt8) :
    (chan.sender = false ∧ tee chan chunk = (none, chan)) ∨
    (chan.sender = true ∧ chan.receiver = false ∧
      tee chan chunk = (some .closed, chan.dropSender)) ∨
    (chan.sender = true ∧ chan.Full teeCapacity ∧ tee chan chunk = (some .full, chan)) ∨
    (chan.sender = true ∧ chan.receiver = true ∧ chan.queue.length < teeCapacity ∧
      tee chan chunk = (some .ok, { chan with queue := chan.queue ++ [chunk] })) := by
  by_cases sender : chan.sender = true
  · by_cases receiver : chan.receiver = true
    · by_cases full : chan.Full teeCapacity
      · have long : teeCapacity ≤ chan.queue.length := full.2
        refine .inr (.inr (.inl ⟨sender, full, ?_⟩))
        simp [tee, sender, Channel.trySend, receiver, long]
      · have room := Nat.not_le.mp fun long => full ⟨receiver, long⟩
        refine .inr (.inr (.inr ⟨sender, receiver, room, ?_⟩))
        rw [tee, if_pos sender, Channel.trySend_ok receiver full]
    · have gone := Bool.eq_false_of_not_eq_true receiver
      refine .inr (.inl ⟨sender, gone, ?_⟩)
      rw [tee, if_pos sender, Channel.trySend_closed gone]
  · exact .inl ⟨Bool.eq_false_of_not_eq_true sender, if_neg sender⟩

end TeeBody

/-! ## The tee and the task -/

/-- What the inner body answers with a frame. -/
def BodyFrame.poll : BodyFrame → FramePoll Unit Empty
  | .data chunk => .data chunk
  | .trailers => .trailers ()

/-- A response on its way through the tee. -/
structure TeedResponse extends TeeBody where
  /-- What the upstream still has to deliver. -/
  inner : List BodyFrame
  /-- What the client has got. -/
  relayed : List BodyFrame
  task : MeterTask
  /-- What `finish_locked` got from the task. -/
  record : Option (Usage × Bool)

inductive TeeEvent where
  /-- The client side polls the body for a frame. -/
  | pollFrame
  /-- The body is dropped: it has ended or failed, or the client is gone. -/
  | drop
  /-- The task's `rx.recv().await` returns. -/
  | recv
  /-- The task dies without a record. -/
  | kill
  deriving DecidableEq, Repr

namespace TeedResponse

def start (dialect : Option Dialect) (body : List BodyFrame) : TeedResponse :=
  ⟨.new, body, [], .new dialect, none⟩

/-- `TeeBody::poll_frame`, where the inner body is ready. -/
def pollFrame (s : TeedResponse) : TeedResponse :=
  match s.inner with
  | frame :: inner =>
    { s with
      toTeeBody := (s.toTeeBody.pollFrame frame.poll).1
      inner := inner
      relayed := s.relayed ++ [frame] }
  | [] => s

/-- One turn of the metering task. -/
def recv [JsonParser] (s : TeedResponse) : TeedResponse :=
  match s.chan.recv with
  | (.item bytes, chan) => { s with chan := chan, task := s.task.chunk bytes }
  | (.ended, chan) => { s with chan := chan.dropReceiver, record := some s.task.result }
  | (.pending, _) => s

def step [JsonParser] (s : TeedResponse) (e : TeeEvent) : TeedResponse × Unit :=
  match e with
  | .pollFrame => (if s.live then s.pollFrame else s, ())
  | .drop => ({ s with live := false, chan := s.chan.dropSender }, ())
  | .recv => (if s.chan.receiver then s.recv else s, ())
  | .kill => ({ s with chan := s.chan.dropReceiver }, ())

/-- A data frame is polled while the channel is full. -/
def Overruns (s : TeedResponse) (e : TeeEvent) : Prop :=
  e = .pollFrame ∧ s.live = true ∧ (s.inner.head?.bind BodyFrame.dataRef).isSome = true ∧
    s.chan.sender = true ∧ s.chan.Full teeCapacity

instance (s : TeedResponse) (e : TeeEvent) : Decidable (s.Overruns e) :=
  inferInstanceAs (Decidable (_ ∧ _))

/-- The body is dropped before the client has polled it to its end. -/
def Abandons (s : TeedResponse) (e : TeeEvent) : Prop :=
  e = .drop ∧ s.live = true ∧ s.inner ≠ []

instance (s : TeedResponse) (e : TeeEvent) : Decidable (s.Abandons e) :=
  inferInstanceAs (Decidable (_ ∧ _))

/-- The chunks of a body. -/
def chunksOf (body : List BodyFrame) : List (List UInt8) := body.filterMap BodyFrame.dataRef

theorem chunksOf_append (first rest : List BodyFrame) :
    chunksOf (first ++ rest) = chunksOf first ++ chunksOf rest :=
  List.filterMap_append

/-! ## What the client gets -/

theorem pollFrame_of_nil {s : TeedResponse} (h : s.inner = []) : s.pollFrame = s := by
  rw [pollFrame, h]

theorem pollFrame_of_data {s : TeedResponse} {chunk : List UInt8} {inner : List BodyFrame}
    (h : s.inner = .data chunk :: inner) : s.pollFrame = { s with
      chan := (TeeBody.tee s.chan chunk).2
      inner := inner
      relayed := s.relayed ++ [.data chunk] } := by
  rw [pollFrame, h]
  rfl

theorem pollFrame_of_trailers {s : TeedResponse} {inner : List BodyFrame}
    (h : s.inner = .trailers :: inner) :
    s.pollFrame = { s with inner := inner, relayed := s.relayed ++ [.trailers] } := by
  rw [pollFrame, h]
  rfl

theorem pollFrame_cons {s : TeedResponse} {frame : BodyFrame} {inner : List BodyFrame}
    (h : s.inner = frame :: inner) :
    s.pollFrame.inner = inner ∧ s.pollFrame.relayed = s.relayed ++ [frame] := by
  rw [pollFrame, h]
  exact ⟨rfl, rfl⟩

section Metering

variable [JsonParser]

theorem recv_inner (s : TeedResponse) : s.recv.inner = s.inner ∧ s.recv.relayed = s.relayed := by
  unfold recv
  split <;> exact ⟨rfl, rfl⟩

/-- Whatever the meter does, the client gets the body, frame by frame. -/
theorem relayed_append_inner (dialect : Option Dialect) (body : List BodyFrame)
    (es : List TeeEvent) :
    (Runs.final step (start dialect body) es).relayed ++
      (Runs.final step (start dialect body) es).inner = body := by
  refine Runs.final_invariant (P := fun _ _ => True)
    (I := fun s : TeedResponse => s.relayed ++ s.inner = body) (fun s e h _ => ?_) rfl
    (Runs.steps_of_forall (fun _ _ => trivial) _ _)
  cases e with
  | pollFrame =>
    simp only [step]
    split
    · cases next : s.inner with
      | nil =>
        rw [pollFrame_of_nil next]
        exact h
      | cons frame inner =>
        obtain ⟨inner', relayed'⟩ := pollFrame_cons next
        rw [inner', relayed', List.append_assoc, List.singleton_append, ← next]
        exact h
    · exact h
  | drop => exact h
  | recv =>
    simp only [step]
    split
    · rw [(recv_inner s).1, (recv_inner s).2]
      exact h
    · exact h
  | kill => exact h

/-- Unless it is abandoned, the body is dropped at its end. -/
theorem inner_of_dropped {dialect : Option Dialect} {body : List BodyFrame} {es : List TeeEvent}
    (stays : Runs.Steps step (fun s e => ¬ s.Abandons e) (start dialect body) es)
    (dropped : (Runs.final step (start dialect body) es).live = false) :
    (Runs.final step (start dialect body) es).inner = [] := by
  refine Runs.final_invariant (I := fun s : TeedResponse => s.live = false → s.inner = [])
    (fun s e h stays => ?_) (fun live => by cases live) stays dropped
  cases e with
  | pollFrame =>
    simp only [step]
    split
    · next live =>
      intro gone
      have kept : s.pollFrame.live = s.live := by
        unfold pollFrame
        split
        · exact TeeBody.pollFrame_live _ _
        · rfl
      rw [kept, live] at gone
      cases gone
    · exact h
  | drop =>
    intro _
    by_contra more
    refine stays ⟨rfl, ?_, more⟩
    rw [← Bool.not_eq_false]
    exact fun gone => more (h gone)
  | recv =>
    simp only [step]
    split
    · intro gone
      rw [(recv_inner s).1]
      apply h
      rw [← gone, recv]
      split <;> rfl
    · exact h
  | kill => exact h

/-! ## What the task records -/

/-- The task has metered, or is still to receive, the chunks that the client has got; its record
is made of all of them. -/
structure Exact (dialect : Option Dialect) (s : TeedResponse) : Prop where
  teeing : s.live = true → s.chan.receiver = true → s.chan.sender = true
  carried : s.chan.receiver = true →
    ∃ got, s.task = (MeterTask.new dialect).chunks got ∧ s.chan.Carries (chunksOf s.relayed) got
  recorded : ∀ r, s.record = some r →
    s.live = false ∧ s.chan.receiver = false ∧ r = metered dialect (chunksOf s.relayed)

theorem exact_start (dialect : Option Dialect) (body : List BodyFrame) :
    Exact dialect (start dialect body) where
  teeing := fun _ _ => rfl
  carried := fun _ => ⟨[], rfl, Channel.carries_new⟩
  recorded := fun r h => by cases h

theorem Exact.unrecorded {dialect : Option Dialect} {s : TeedResponse} (h : Exact dialect s)
    (busy : s.live = true ∨ s.chan.receiver = true) : s.record = none := by
  cases found : s.record with
  | none => rfl
  | some r =>
    obtain ⟨dropped, gone, -⟩ := h.recorded r found
    rw [dropped, gone] at busy
    rcases busy with busy | busy <;> cases busy

/-- Teeing a chunk that the client gets, where the channel is not full. -/
theorem Exact.tee {dialect : Option Dialect} {s : TeedResponse} (h : Exact dialect s)
    (live : s.live = true) {chunk : List UInt8} (inner : List BodyFrame)
    (room : s.chan.sender = true → ¬ s.chan.Full teeCapacity) :
    Exact dialect { s with
      chan := (TeeBody.tee s.chan chunk).2
      inner := inner
      relayed := s.relayed ++ [.data chunk] } := by
  have fresh := h.unrecorded (.inl live)
  rcases TeeBody.tee_cases s.chan chunk with ⟨off, teed⟩ | ⟨-, gone, teed⟩ | ⟨sender, full, -⟩ |
    ⟨sender, there, -, teed⟩
  · -- Nobody listens, and nothing will be recorded any more.
    have gone : s.chan.receiver = false := by
      rw [← Bool.not_eq_true]
      intro there
      rw [h.teeing live there] at off
      cases off
    exact ⟨fun _ there => by simp [teed, gone] at there, fun there => by simp [teed, gone] at there,
      fun r hr => by simp [fresh] at hr⟩
  · exact ⟨fun _ there => by simp [teed, Channel.dropSender, gone] at there,
      fun there => by simp [teed, Channel.dropSender, gone] at there,
      fun r hr => by simp [fresh] at hr⟩
  · exact absurd full (room sender)
  · rw [teed]
    refine ⟨fun _ _ => sender, fun _ => ?_, fun r hr => by simp [fresh] at hr⟩
    obtain ⟨got, task, carries⟩ := h.carried there
    refine ⟨got, task, ?_⟩
    rw [chunksOf_append]
    exact carries.send chunk

theorem Exact.pollFrame {dialect : Option Dialect} {s : TeedResponse} (h : Exact dialect s)
    (live : s.live = true) (heard : ¬ s.Overruns .pollFrame) : Exact dialect s.pollFrame := by
  cases next : s.inner with
  | nil =>
    rw [pollFrame_of_nil next]
    exact h
  | cons frame inner =>
    cases frame with
    | trailers =>
      rw [pollFrame_of_trailers next]
      refine ⟨h.teeing, fun there => ?_, fun r hr => ?_⟩
      · obtain ⟨got, task, carries⟩ := h.carried there
        refine ⟨got, task, ?_⟩
        rw [chunksOf_append]
        exact (List.append_nil _).symm ▸ carries
      · rw [h.unrecorded (.inl live)] at hr
        cases hr
    | data chunk =>
      rw [pollFrame_of_data next]
      refine h.tee live inner fun sender full => ?_
      exact heard ⟨rfl, live, by simp [next, BodyFrame.dataRef], sender, full⟩

theorem Exact.recv {dialect : Option Dialect} {s : TeedResponse} (h : Exact dialect s)
    (there : s.chan.receiver = true) : Exact dialect s.recv := by
  obtain ⟨got, task, carries⟩ := h.carried there
  have fresh := h.unrecorded (.inr there)
  unfold TeedResponse.recv
  cases front : s.chan.queue with
  | cons bytes queue =>
    simp only [Channel.recv_item front]
    refine ⟨h.teeing, fun _ => ⟨got ++ [bytes], ?_, carries.recv front⟩,
      fun r hr => by simp [fresh] at hr⟩
    rw [MeterTask.chunks_append, ← task]
    rfl
  | nil =>
    cases sender : s.chan.sender with
    | true =>
      simp only [Channel.recv_pending front sender]
      exact h
    | false =>
      simp only [Channel.recv_ended front sender]
      -- The sender is gone, and so is the body: the record is made of all of it.
      have dropped : s.live = false := by
        cases live : s.live with
        | false => rfl
        | true =>
          rw [h.teeing live there] at sender
          cases sender
      refine ⟨fun live => ?_, fun there => by simp [Channel.dropReceiver] at there,
        fun r hr => ⟨dropped, rfl, ?_⟩⟩
      · rw [show s.live = true from live] at dropped
        cases dropped
      · obtain rfl := Option.some_inj.mp hr
        rw [task, metered, carries.all front]

theorem exact_step {dialect : Option Dialect} {s : TeedResponse} {e : TeeEvent}
    (h : Exact dialect s) (heard : ¬ s.Overruns e) : Exact dialect (s.step e).1 := by
  cases e with
  | pollFrame =>
    simp only [step]
    split
    · next live => exact h.pollFrame live heard
    · exact h
  | drop =>
    refine ⟨(fun live => by cases live), h.carried, fun r hr => ?_⟩
    obtain ⟨-, gone, same⟩ := h.recorded r hr
    exact ⟨rfl, gone, same⟩
  | recv =>
    simp only [step]
    split
    · next there => exact h.recv there
    · exact h
  | kill =>
    refine ⟨fun _ there => by simp [step, Channel.dropReceiver] at there,
      fun there => by simp [step, Channel.dropReceiver] at there, fun r hr => ?_⟩
    obtain ⟨dropped, -, same⟩ := h.recorded r hr
    exact ⟨dropped, rfl, same⟩

/-- A record marked complete holds the usage of what the client got of the body. -/
def RecordIsExact (dialect : Option Dialect) (s : TeedResponse) : Prop :=
  ∀ u, s.record = some (u, true) → u = (metered dialect (chunksOf s.relayed)).1

/-- It holds the usage of the whole body, which may be metered in one piece if no character was
cut. -/
def RecordIsWhole (dialect : Option Dialect) (body : List BodyFrame) (s : TeedResponse) : Prop :=
  ∀ u, s.record = some (u, true) →
    u = (metered dialect (chunksOf body)).1 ∧
    ((∀ b ∈ chunksOf body, ∃ x, b = Utf8.encode x) →
      u = (metered dialect [(chunksOf body).flatten]).1)

/-- As long as no clone meets a full channel, the record of every run is exact: it is the metering
of what the client got. That is the whole body where the client has come to its end, and in every
state of a run that drops the body only there. -/
theorem recordIsExact_of_heard (dialect : Option Dialect) (body : List BodyFrame)
    (es : List TeeEvent)
    (heard : Runs.Steps step (fun s e => ¬ s.Overruns e) (start dialect body) es) :
    let s := Runs.final step (start dialect body) es
    RecordIsExact dialect s ∧ (s.inner = [] → RecordIsWhole dialect body s) ∧
      (Runs.Steps step (fun s e => ¬ s.Abandons e) (start dialect body) es →
        RecordIsWhole dialect body s) := by
  have exact_ : Exact dialect (Runs.final step (start dialect body) es) :=
    Runs.final_invariant (fun s e h heard => exact_step h heard) (exact_start dialect body) heard
  have first : RecordIsExact dialect (Runs.final step (start dialect body) es) := by
    intro u hu
    rw [← (exact_.recorded _ hu).2.2]
  have atEnd : (Runs.final step (start dialect body) es).inner = [] →
      RecordIsWhole dialect body (Runs.final step (start dialect body) es) := by
    intro ended u hu
    have passed := relayed_append_inner dialect body es
    rw [ended, List.append_nil] at passed
    have whole := first u hu
    rw [passed] at whole
    refine ⟨whole, fun cuts => ?_⟩
    rw [whole, metered_of_encoded_chunks dialect cuts]
  refine ⟨first, atEnd, fun stays u hu => ?_⟩
  exact atEnd (inner_of_dropped stays (exact_.recorded _ hu).1) u hu

end Metering

section Cases

def startText : List Char :=
  ("\x7b\"type\":\"message_start\",\"message\":" ++
    "\x7b\"usage\":\x7b\"input_tokens\":10\x7d\x7d\x7d").toList

def deltaText : List Char :=
  "\x7b\"type\":\"message_delta\",\"usage\":\x7b\"output_tokens\":5\x7d\x7d".toList

def laterText : List Char :=
  "\x7b\"type\":\"message_delta\",\"usage\":\x7b\"output_tokens\":9\x7d\x7d".toList

/-- What these texts are as JSON. -/
local instance : JsonParser where
  fromStr text :=
    let tokens (key : String) (n : UInt64) : Json := .object [(key.toList, .number (.posInt n))]
    if text = startText then
      some (.object [("type".toList, .string "message_start".toList),
        ("message".toList, .object [("usage".toList, tokens "input_tokens" 10)])])
    else if text = deltaText then
      some (.object [("type".toList, .string "message_delta".toList),
        ("usage".toList, tokens "output_tokens" 5)])
    else if text = laterText then
      some (.object [("type".toList, .string "message_delta".toList),
        ("usage".toList, tokens "output_tokens" 9)])
    else none

def eventChunk (text : List Char) : BodyFrame :=
  .data (Utf8.encode ("data: ".toList ++ text ++ "\n\n".toList))

/-- Ten tokens in, five out. -/
def shortBody : List BodyFrame := [eventChunk startText, eventChunk deltaText]

/-- The task keeps up with the client. -/
def promptly : List TeeEvent := [.pollFrame, .recv, .pollFrame, .drop, .recv, .recv]

theorem recordIsExact_shortBody :
    let s := Runs.final step (start (some .anthropicMessages) shortBody) promptly
    s.inner = [] ∧ s.record = some (⟨10, 5, 0, 0, 0, 0⟩, true) ∧
    RecordIsExact (some .anthropicMessages) s ∧
      (s.inner = [] → RecordIsWhole (some .anthropicMessages) shortBody s) ∧
      (Runs.Steps step (fun s e => ¬ s.Abandons e) (start (some .anthropicMessages) shortBody)
          promptly → RecordIsWhole (some .anthropicMessages) shortBody s) :=
  ⟨by decide +kernel, by decide +kernel,
    recordIsExact_of_heard (some .anthropicMessages) shortBody promptly (by decide +kernel)⟩

/-- A client that leaves behind the first of two deltas: the record is complete, and not that of
the whole body. -/
example :
    let s := start (some .anthropicMessages) (shortBody ++ [eventChunk laterText])
    (Runs.final step s promptly).record = some (⟨10, 5, 0, 0, 0, 0⟩, true) ∧
      metered (some .anthropicMessages) (chunksOf s.inner) = (⟨10, 9, 0, 0, 0, 0⟩, true) ∧
      ¬ Runs.Steps step (fun s e => ¬ s.Abandons e) s promptly := by
  decide +kernel

/-- The same behind a queue of comments. -/
def longBody : List BodyFrame :=
  List.replicate 64 (.data (Utf8.encode ":\n".toList)) ++ shortBody

/-- The task receives nothing until the comments and the start have been relayed. -/
def late : List TeeEvent :=
  List.replicate 65 .pollFrame ++ List.replicate 64 .recv ++ [.pollFrame, .drop, .recv, .recv]

/-- The whole body is relayed, and recorded as complete without the tokens of the prompt. -/
theorem not_recordIsExact_longBody :
    (Runs.final step (start (some .anthropicMessages) longBody) late).inner = [] ∧
      ¬ RecordIsExact (some .anthropicMessages)
        (Runs.final step (start (some .anthropicMessages) longBody) late) := by
  refine ⟨by decide +kernel, fun exact_ => ?_⟩
  have same := exact_ (.out 5) (by decide +kernel)
  revert same
  decide +kernel

end Cases

end TeedResponse

end Tailfin
