import Tailfin.Proxy.Fuse
import Tailfin.Proxy.Headers

/-!
# Stops

`stop_response` of `tailfin-proxy`, and how the denied requests of a task are answered. The first
one to take its stop ends the turn of the agent, and every later one is refused for good, in the
terms that its client understands.
-/

namespace Tailfin

/-! ## What a stop looks like -/

/-- A response with a body that is known when it is built. -/
structure FullResponse where
  status : Nat
  headers : List (String × String)
  body : String
  deriving DecidableEq, Repr

def syntheticMark : String :=
  "[tailfin] task ceiling reached; this turn was ended by the flight recorder."

/-- `serde_json::to_string` has nothing to escape in the mark. -/
def syntheticBody : String :=
  let text := "\"" ++ syntheticMark ++ "\""
  "event: message_start\ndata: \x7b\"type\":\"message_start\",\"message\":\x7b\"id\":" ++
    "\"tailfin_stop\",\"type\":\"message\",\"role\":\"assistant\",\"content\":[]," ++
    "\"model\":\"tailfin\"\x7d\x7d\n\n" ++
  "event: content_block_start\ndata: \x7b\"type\":\"content_block_start\",\"index\":0," ++
    "\"content_block\":\x7b\"type\":\"text\",\"text\":\"\"\x7d\x7d\n\n" ++
  "event: content_block_delta\ndata: \x7b\"type\":\"content_block_delta\",\"index\":0," ++
    "\"delta\":\x7b\"type\":\"text_delta\",\"text\":" ++ text ++ "\x7d\x7d\n\n" ++
  "event: content_block_stop\ndata: \x7b\"type\":\"content_block_stop\",\"index\":0\x7d\n\n" ++
  "event: message_delta\ndata: \x7b\"type\":\"message_delta\",\"delta\":" ++
    "\x7b\"stop_reason\":\"end_turn\"\x7d,\"usage\":\x7b\"output_tokens\":0\x7d\x7d\n\n" ++
  "event: message_stop\ndata: \x7b\"type\":\"message_stop\"\x7d\n\n"

/-- `headers.get("x-claude-code-session-id").is_some()`. -/
def isClaude (headers : HeaderMap) : Bool :=
  (headers.getAll "x-claude-code-session-id".toList).head?.isSome

def stopResponse (style : StopStyle) (headers : HeaderMap) : FullResponse :=
  match style with
  | .syntheticEndTurn =>
    ⟨200, [("content-type", "text/event-stream"), ("x-tailfin-stop", "synthetic-end-turn")],
      syntheticBody⟩
  | .retryableFalse429 | .paymentRequired402 =>
    let claude := isClaude headers
    let (status, kind) :=
      if claude || style = .retryableFalse429 then (429, "429-retry-false") else (402, "402")
    ⟨status, (if status = 429 then [("x-should-retry", "false")] else []) ++
      [("x-tailfin-stop", kind)], "\x7b\"error\":\"tailfin ceiling\"\x7d\n"⟩

/-- The table of stops, for the first stop of a task and for the later ones. -/
def StopTable (first : Bool) (headers : HeaderMap) (resp : FullResponse) : Prop :=
  if first then resp.status = 200 ∧ resp.body = syntheticBody
  else if isClaude headers then resp.status = 429 ∧ ("x-should-retry", "false") ∈ resp.headers
  else resp.status = 402

/-- The style that `take_stop` answers. -/
def StopStyle.taken (first : Bool) : StopStyle :=
  if first then .syntheticEndTurn else .retryableFalse429

/-- The later stops of clients other than Claude Code are not as the table has them. -/
theorem stopTable_iff (first : Bool) (headers : HeaderMap) :
    StopTable first headers (stopResponse (.taken first) headers) ↔
      (first = false → isClaude headers = true) := by
  cases first with
  | true => simp [StopTable, stopResponse, StopStyle.taken]
  | false =>
    cases claude : isClaude headers <;>
      simp [StopTable, stopResponse, StopStyle.taken, claude]

/-- What a stop is made of: its task, its call and its style. -/
structure Stop where
  root : String
  call : Nat
  style : StopStyle
  deriving DecidableEq, Repr

namespace Phase

def stopStyle : Phase → Option StopStyle
  | stopping _ style => some style
  | _ => none

/-- The client may have its answer. -/
def answered : Phase → Bool
  | metering _ _ | abandoned _ | ended => true
  | _ => false

theorem halted_of_stopStyle {phase : Phase} {style : StopStyle}
    (h : phase = .ended ∨ phase.stopStyle = some style) : phase.halted = true := by
  rcases h with rfl | stops
  · rfl
  · cases phase <;> first | rfl | cases stops

end Phase

/-! ## Who has sent the synthetic turn -/

section Sent

variable (t : Task) (ref : NodeRef)

@[simp] theorem Task.modifyNode_syntheticSent (k : String) (f : Node → Node)
    (keep : ∀ n, (f n).id = n.id) :
    (t.modifyNode k f keep).syntheticSent = t.syntheticSent := by
  unfold modifyNode
  split <;> rfl

@[simp] theorem Task.ensure_syntheticSent (node : String) (parent label : Option String) :
    (t.ensure node parent label).syntheticSent = t.syntheticSent :=
  t.ensure_keeps node parent label (fun _ => t.modifyNode_syntheticSent _ _ _) fun _ _ => rfl

theorem Task.begin_syntheticSent [FloatProduct] (label : Option String) :
    (t.begin ref label).syntheticSent = t.syntheticSent := by
  have minted : ∀ u : Task, (u.mintVoucher ref).syntheticSent = u.syntheticSent :=
    fun u => u.mintVoucher_keeps ref fun _ => u.modifyNode_syntheticSent _ _ _
  exact (minted _).trans (t.ensure_syntheticSent ref.node ref.parent label)

theorem Task.finish_syntheticSent (usage : Usage) (complete : Bool) :
    (t.finish ref usage complete).syntheticSent = t.syntheticSent := by
  simp [finish]

theorem Task.admitAt_syntheticSent (rates : RateCard) :
    (t.admitAt ref rates).2.syntheticSent = t.syntheticSent :=
  t.admitAt_keeps ref rates rfl fun u => u.modifyNode_syntheticSent _ _ _

theorem Task.takeStop_eq : t.takeStop.1 = .taken (!t.syntheticSent) ∧
    t.takeStop.2.syntheticSent = true := by
  unfold takeStop
  split
  · next sent => exact ⟨by simp [StopStyle.taken, sent], sent⟩
  · next unsent => exact ⟨by simp [StopStyle.taken, unsent], rfl⟩

@[simp] theorem Arena.newTask_syntheticSent (a : Arena) (root : String) :
    (a.newTask root).syntheticSent = false := by
  unfold newTask
  cases a.defaultCeiling <;> cases a.voucherShare <;>
    simp [Task.withVoucherShare, Task.withCeilingMicros, Task.new]

end Sent

namespace Proxy

/-! ## The stops of a run -/

theorem phaseAfter_eq_refused {ref ref' : NodeRef} {captureId : Option String}
    {admission : Option Admission} : phaseAfter ref captureId admission = .refused ref' ↔
      ref = ref' ∧ ∃ spent cap, admission = some (.deny spent cap) := by
  unfold phaseAfter
  split <;> simp_all

theorem phaseAt_arrive [FloatProduct] [HttpLibrary] (p : Proxy) (req : Request) (j : Nat) :
    (p.step (.arrive req)).1.phaseAt j =
      if j = p.calls.length then some (if req.isHello then .ended else .received)
      else p.phaseAt j := by
  simp only [step, phaseAt, List.getElem?_append]
  by_cases last : j = p.calls.length
  · simp [last]
  · by_cases before : j < p.calls.length
    · simp [last, before]
    · simp [last, before]
      omega

theorem phaseAt_arrive_of_some [FloatProduct] [HttpLibrary] {p : Proxy} (req : Request) {j : Nat}
    {phase : Phase} (found : p.phaseAt j = some phase) :
    (p.step (.arrive req)).1.phaseAt j = some phase := by
  rw [phaseAt_arrive, if_neg, found]
  rintro rfl
  simp [phaseAt] at found

/-- The synthetic turn of the task is sent. -/
def sentIn (p : Proxy) (root : String) : Bool := (p.arena.taskMut root).syntheticSent

theorem sentIn_put (p : Proxy) (root : String) (t : Task) (r : String) :
    ((p.arena.put root t).taskMut r).syntheticSent =
      if r = root then t.syntheticSent else p.sentIn r := by
  rw [Arena.taskMut_put]
  split <;> rfl

/-- The stop that an event takes. -/
def stopBy (p : Proxy) : RelayEvent → Option Stop
  | .turn i (.go _) => (p.calls[i]?).bind fun c =>
    match c.phase with
    | .refused ref => some ⟨ref.root, i, (p.arena.taskMut ref.root).takeStop.1⟩
    | _ => none
  | _ => none

/-- The stops taken so far, in order. Each task is sent one synthetic turn, first of all; the calls
that are denied, and no others, take one stop each, and are answered with it. -/
structure StopLog (p : Proxy) (log : List Stop) (fx : List Effect) : Prop where
  sent : ∀ root, p.sentIn root = log.any fun s => s.root = root
  once : (log.map Stop.call).Nodup
  styles : ∀ pre s post, log = pre ++ s :: post →
    s.style = .taken (!pre.any fun t => t.root = s.root)
  phases : ∀ s ∈ log, ∃ phase, p.phaseAt s.call = some phase ∧
    (phase = .ended ∨ phase.stopStyle = some s.style)
  closed : ∀ s ∈ log, p.phaseAt s.call = some .ended → .answered s.call (.stop s.style) ∈ fx
  answers : ∀ s ∈ log, ∀ a, .answered s.call a ∈ fx → a = .stop s.style
  answered : ∀ i a, .answered i a ∈ fx → At Phase.answered p i
  denied : ∀ i ref spent cap, .begun i ref (some (.deny spent cap)) ∈ fx →
    p.phaseAt i = some (.refused ref) ∨ ∃ s ∈ log, s.call = i ∧ s.root = ref.root
  refusals : ∀ i ref, p.phaseAt i = some (.refused ref) →
    ∃ spent cap, .begun i ref (some (.deny spent cap)) ∈ fx
  stops : ∀ s ∈ log, ∃ ref spent cap, ref.root = s.root ∧
    .begun s.call ref (some (.deny spent cap)) ∈ fx

section Log

variable {p p' : Proxy} {log : List Stop} {fx gx : List Effect} {i : Nat} {c : Call}

/-- A step that takes no stop and moves no denied call, but to its end. -/
theorem StopLog.keep (h : StopLog p log fx) (sent : ∀ root, p'.sentIn root = p.sentIn root)
    (phases : ∀ j phase, p.phaseAt j = some phase → phase.halted = true →
      p'.phaseAt j = some phase ∨ ∃ style, phase.stopStyle = some style ∧
        p'.phaseAt j = some .ended ∧ .answered j (.stop style) ∈ gx)
    (late : ∀ j, At Phase.answered p j → At Phase.answered p' j)
    (said : ∀ j a, .answered j a ∈ gx → At Phase.answered p' j ∧
      ∀ s ∈ log, s.call = j → a = .stop s.style)
    (refused : ∀ j ref spent cap, .begun j ref (some (.deny spent cap)) ∈ gx →
      p'.phaseAt j = some (.refused ref))
    (denies : ∀ j ref, p'.phaseAt j = some (.refused ref) → p.phaseAt j = some (.refused ref) ∨
      ∃ spent cap, .begun j ref (some (.deny spent cap)) ∈ gx) :
    StopLog p' log (fx ++ gx) := by
  refine ⟨fun root => (sent root).trans (h.sent root), h.once, h.styles, fun s hs => ?_,
    fun s hs done => ?_, fun s hs a ha => ?_, fun j a ha => ?_, fun j ref spent cap begun => ?_,
    fun j ref waits => ?_, fun s hs => ?_⟩
  · obtain ⟨phase, here, holds⟩ := h.phases s hs
    rcases phases s.call phase here (Phase.halted_of_stopStyle holds) with same | ⟨_, -, done, -⟩
    · exact ⟨phase, same, holds⟩
    · exact ⟨.ended, done, .inl rfl⟩
  · obtain ⟨phase, here, holds⟩ := h.phases s hs
    rcases phases s.call phase here (Phase.halted_of_stopStyle holds) with
      same | ⟨style, stops, -, answer⟩
    · obtain rfl := Option.some_inj.mp (same.symm.trans done)
      exact List.mem_append_left _ (h.closed s hs here)
    · rcases holds with rfl | held
      · cases stops
      · obtain rfl := Option.some_inj.mp (held.symm.trans stops)
        exact List.mem_append_right _ answer
  · rcases List.mem_append.mp ha with ha | ha
    · exact h.answers s hs a ha
    · exact (said _ _ ha).2 s hs rfl
  · rcases List.mem_append.mp ha with ha | ha
    · exact late j (h.answered j a ha)
    · exact (said _ _ ha).1
  · rcases List.mem_append.mp begun with begun | begun
    · rcases h.denied j ref spent cap begun with waits | stopped
      · rcases phases j _ waits rfl with same | ⟨_, stops, -⟩
        · exact .inl same
        · cases stops
      · exact .inr stopped
    · exact .inl (refused j ref spent cap begun)
  · rcases denies j ref waits with before | ⟨spent, cap, begun⟩
    · obtain ⟨spent, cap, begun⟩ := h.refusals j ref before
      exact ⟨spent, cap, List.mem_append_left _ begun⟩
    · exact ⟨spent, cap, List.mem_append_right _ begun⟩
  · obtain ⟨ref, spent, cap, root, begun⟩ := h.stops s hs
    exact ⟨ref, spent, cap, root, List.mem_append_left _ begun⟩

/-- A turn of call `i`, which is not denied or is stopped and comes to its end. -/
theorem StopLog.move (h : StopLog p log fx) (here : p.calls[i]? = some c)
    (sent : ∀ root, p'.sentIn root = p.sentIn root) {phase : Phase}
    (moved : p'.phaseAt = (p.setPhase i phase).phaseAt)
    (goes : c.phase.halted = false ∨ ∃ style, c.phase.stopStyle = some style ∧ phase = .ended ∧
      .answered i (.stop style) ∈ gx)
    (late : c.phase.answered = true → phase.answered = true)
    (said : ∀ j a, .answered j a ∈ gx → j = i ∧ phase.answered = true ∧
      ∀ style, c.phase.stopStyle = some style → a = .stop style)
    (refused : ∀ j ref spent cap, .begun j ref (some (.deny spent cap)) ∈ gx →
      j = i ∧ phase = .refused ref)
    (denies : ∀ ref, phase = .refused ref →
      ∃ spent cap, .begun i ref (some (.deny spent cap)) ∈ gx) :
    StopLog p' log (fx ++ gx) := by
  have at_i : p.phaseAt i = some c.phase := by rw [phaseAt, here, Option.map_some]
  have alive : c.phase ≠ .ended := by
    intro ended
    rw [ended] at goes
    rcases goes with halted | ⟨_, stops, -⟩ <;> cases ‹_›
  refine h.keep sent (fun j old old_at stopped => ?_) (fun j hj => ?_) (fun j a ha => ?_)
    (fun j ref spent cap begun => ?_) fun j ref waits => ?_
  · rw [moved, phaseAt_setPhase here]
    split
    · next same =>
      subst same
      obtain rfl := Option.some_inj.mp (at_i.symm.trans old_at)
      rcases goes with free | ⟨style, stops, rfl, answer⟩
      · rw [free] at stopped
        cases stopped
      · exact .inr ⟨style, stops, rfl, answer⟩
    · exact .inl old_at
  · rw [At, moved]
    exact at_setPhase here late hj
  · obtain ⟨rfl, shows, answer⟩ := said j a ha
    refine ⟨?_, fun s hs call => ?_⟩
    · rw [At, moved, phaseAt_setPhase here, if_pos rfl]
      exact shows
    · obtain ⟨old, old_at, holds⟩ := h.phases s hs
      rw [call, at_i] at old_at
      obtain rfl := Option.some_inj.mp old_at
      exact answer s.style (holds.resolve_left alive)
  · obtain ⟨rfl, rfl⟩ := refused j ref spent cap begun
    rw [moved, phaseAt_setPhase here, if_pos rfl]
  · rw [moved, phaseAt_setPhase here] at waits
    split at waits
    · next same =>
      subst same
      exact .inr (denies ref (Option.some_inj.mp waits))
    · exact .inl waits

/-- A call that is to be stopped has not taken a stop yet. -/
theorem StopLog.fresh (h : StopLog p log fx) {ref : NodeRef}
    (at_i : p.phaseAt i = some (.refused ref)) : ∀ s ∈ log, s.call ≠ i := by
  intro s hs same
  obtain ⟨old, old_at, holds⟩ := h.phases s hs
  rw [same, at_i] at old_at
  obtain rfl := Option.some_inj.mp old_at
  rcases holds with ended | stopped <;> cases ‹_›

/-- It has not been answered either. -/
theorem StopLog.unanswered (h : StopLog p log fx) {ref : NodeRef} (here : p.calls[i]? = some c)
    (refused : c.phase = .refused ref) (a : Answer) : .answered i a ∉ fx := by
  intro ha
  have shown := (At.of_getElem? here).mp (h.answered i a ha)
  rw [refused] at shown
  cases shown

/-- The call takes a stop. -/
theorem StopLog.take (h : StopLog p log fx) {ref : NodeRef} (here : p.calls[i]? = some c)
    (refused : c.phase = .refused ref) :
    StopLog (p.takeStop i ref).1 (log ++ [⟨ref.root, i, (p.arena.taskMut ref.root).takeStop.1⟩])
      fx := by
  have at_i : p.phaseAt i = some (.refused ref) := by rw [phaseAt, here, Option.map_some, refused]
  obtain ⟨style, set⟩ := (p.arena.taskMut ref.root).takeStop_eq
  have new := h.fresh at_i
  have unanswered := h.unanswered here refused
  have phases : ∀ j, (p.takeStop i ref).1.phaseAt j =
      if j = i then some (.stopping ref (p.arena.taskMut ref.root).takeStop.1)
      else p.phaseAt j := fun j => phaseAt_setPhase here _ j
  refine ⟨fun root => ?_, ?_, fun pre s post split => ?_, fun s hs => ?_, fun s hs done => ?_,
    fun s hs a ha => ?_, fun j a ha => ?_, fun j ref' spent cap begun => ?_, fun j ref' waits => ?_,
    fun s hs => ?_⟩
  · show ((p.arena.put ref.root _).taskMut root).syntheticSent = _
    rw [sentIn_put, List.any_append, ← h.sent root]
    split
    · next same => simp [set, same]
    · next other => simp [Ne.symm other]
  · rw [List.map_append]
    refine List.nodup_append.mpr ⟨h.once, List.nodup_singleton i, fun a ha b hb => ?_⟩
    obtain ⟨s, hs, rfl⟩ := List.mem_map.mp ha
    rw [List.mem_singleton.mp hb]
    exact new s hs
  · rcases post.eq_nil_or_concat' with rfl | ⟨front, last, rfl⟩
    · obtain ⟨rfl, same⟩ := List.append_inj' split rfl
      obtain rfl := (List.cons.inj same).1
      rw [style, ← h.sent ref.root]
      rfl
    · rw [← List.cons_append, ← List.append_assoc] at split
      obtain ⟨rfl, -⟩ := List.append_inj' split rfl
      exact h.styles pre s front rfl
  · rcases List.mem_append.mp hs with hs | hs
    · obtain ⟨old, old_at, holds⟩ := h.phases s hs
      exact ⟨old, by rw [phases, if_neg (new s hs), old_at], holds⟩
    · obtain rfl := List.mem_singleton.mp hs
      exact ⟨_, by rw [phases, if_pos rfl], .inr rfl⟩
  · rw [phases] at done
    split at done
    · cases done
    · next other =>
      rcases List.mem_append.mp hs with hs | hs
      · exact h.closed s hs done
      · obtain rfl := List.mem_singleton.mp hs
        exact absurd rfl other
  · rcases List.mem_append.mp hs with hs | hs
    · exact h.answers s hs a ha
    · obtain rfl := List.mem_singleton.mp hs
      exact absurd ha (unanswered a)
  · have other : j ≠ i := by
      rintro rfl
      exact unanswered a ha
    rw [At, phases, if_neg other]
    exact h.answered j a ha
  · rcases h.denied j ref' spent cap begun with waits | ⟨s, hs, call⟩
    · by_cases same : j = i
      · subst same
        obtain rfl := Phase.refused.inj (Option.some_inj.mp (at_i.symm.trans waits))
        exact .inr ⟨_, List.mem_append_right log (List.mem_singleton_self _), rfl, rfl⟩
      · exact .inl (by rw [phases, if_neg same, waits])
    · exact .inr ⟨s, List.mem_append_left _ hs, call⟩
  · rw [phases] at waits
    split at waits
    · cases waits
    · exact h.refusals j ref' waits
  · rcases List.mem_append.mp hs with hs | hs
    · exact h.stops s hs
    · obtain rfl := List.mem_singleton.mp hs
      obtain ⟨spent, cap, begun⟩ := h.refusals i ref at_i
      exact ⟨ref, spent, cap, rfl, begun⟩

end Log

section Turns

variable {p : Proxy} {log : List Stop} {fx : List Effect} {i : Nat} {c : Call}

theorem answered_of_close {ref : NodeRef} {usage : Usage} {complete : Bool}
    {captureId : Option String} {now : Nat} {answer : Option Answer} {j : Nat} {a : Answer}
    (ha : .answered j a ∈ (p.close i ref usage complete captureId now answer).2) :
    j = i ∧ answer = some a := by
  simpa [close, eq_comm, and_comm] using ha

theorem sentIn_beginCall [FloatProduct] (req : Request) (ref : NodeRef) (captureId : Option String)
    (root : String) : (p.beginCall i req ref captureId).1.sentIn root = p.sentIn root := by
  have asked : ∀ t : Task, (p.admission req ref t).2.syntheticSent = t.syntheticSent := by
    intro t
    unfold admission
    repeat' split
    · rfl
    · exact t.admitAt_syntheticSent ref _
    · rfl
  show ((p.arena.put ref.root _).taskMut root).syntheticSent = _
  rw [sentIn_put, asked, Task.begin_syntheticSent]
  split
  · next same => rw [same]; rfl
  · rfl

theorem sentIn_close (ref : NodeRef) (usage : Usage) (complete : Bool)
    (captureId : Option String) (now : Nat) (answer : Option Answer) (root : String) :
    (p.close i ref usage complete captureId now answer).1.sentIn root = p.sentIn root := by
  show ((p.arena.put ref.root _).taskMut root).syntheticSent = _
  rw [sentIn_put, Task.finish_syntheticSent]
  split
  · next same => rw [same]; rfl
  · rfl

/-- A turn of a call that is not denied. -/
theorem StopLog.free (h : StopLog p log fx) (here : p.calls[i]? = some c)
    (free : c.phase.halted = false) {p' : Proxy} {phase : Phase} {gx : List Effect}
    (sent : ∀ root, p'.sentIn root = p.sentIn root)
    (moved : p'.phaseAt = (p.setPhase i phase).phaseAt)
    (late : c.phase.answered = true → phase.answered = true)
    (said : ∀ j a, .answered j a ∈ gx → j = i ∧ phase.answered = true)
    (refused : ∀ j ref spent cap, .begun j ref (some (.deny spent cap)) ∈ gx →
      j = i ∧ phase = .refused ref)
    (denies : ∀ ref, phase = .refused ref →
      ∃ spent cap, .begun i ref (some (.deny spent cap)) ∈ gx) :
    StopLog p' log (fx ++ gx) := by
  refine h.move here sent moved (.inl free) late (fun j a ha => ?_) refused denies
  obtain ⟨same, shows⟩ := said j a ha
  refine ⟨same, shows, fun style stops => ?_⟩
  rw [Phase.halted_of_stopStyle (.inr stops)] at free
  cases free

/-- The last turn of a call. -/
theorem StopLog.close (h : StopLog p log fx) (here : p.calls[i]? = some c)
    {answer : Option Answer} (goes : c.phase.halted = false ∨
      ∃ style, c.phase.stopStyle = some style ∧ answer = some (.stop style)) (ref : NodeRef)
    (usage : Usage) (complete : Bool) (captureId : Option String) (now : Nat) :
    StopLog (p.close i ref usage complete captureId now answer).1 log
      (fx ++ (p.close i ref usage complete captureId now answer).2) := by
  have last : c.phase.halted = false ∨ ∃ style, c.phase.stopStyle = some style ∧
      Phase.ended = .ended ∧
      .answered i (.stop style) ∈ (p.close i ref usage complete captureId now answer).2 := by
    refine goes.imp_right ?_
    rintro ⟨style, stops, rfl⟩
    exact ⟨style, stops, rfl, by simp [Proxy.close]⟩
  refine h.move here (sentIn_close ref usage complete captureId now answer) rfl last
    (fun _ => rfl) (fun j a ha => ?_) (fun j ref' spent cap begun => ?_) fun _ h => by cases h
  · obtain ⟨rfl, isSome⟩ := answered_of_close ha
    refine ⟨rfl, rfl, fun style held => ?_⟩
    rcases goes with free | ⟨style', stops, rfl⟩
    · rw [Phase.halted_of_stopStyle (.inr held)] at free
      cases free
    · obtain rfl := Option.some_inj.mp (stops.symm.trans held)
      exact (Option.some_inj.mp isSome).symm
  · exact absurd rfl ((calm_close p i ref usage complete captureId now answer _ begun).1 _ _ _)

theorem StopLog.close_free (h : StopLog p log fx) (here : p.calls[i]? = some c)
    (free : c.phase.halted = false) (ref : NodeRef) (usage : Usage) (complete : Bool)
    (captureId : Option String) (now : Nat) (answer : Option Answer) :
    StopLog (p.close i ref usage complete captureId now answer).1 log
      (fx ++ (p.close i ref usage complete captureId now answer).2) :=
  h.close here (.inl free) ref usage complete captureId now

/-- Only a denied call whose turn it is to go on takes a stop. -/
theorem stopBy_eq_none (here : p.calls[i]? = some c) {t : Turn}
    (goes_on : ¬ ((∃ ref, c.phase = .refused ref) ∧ ∃ now, t = .go now)) :
    p.stopBy (.turn i t) = none := by
  cases t with
  | go now =>
    simp only [stopBy, here, Option.bind_some]
    split
    · next ref refused => exact absurd ⟨⟨ref, refused⟩, now, rfl⟩ goes_on
    · rfl
  | _ => rfl

variable [FloatProduct] [HttpLibrary]

theorem stopLog_takeStop (h : StopLog p log fx) (here : p.calls[i]? = some c) {ref : NodeRef}
    (refused : c.phase = .refused ref) (now : Nat) :
    StopLog (p.turn i c (.go now)).1 (log ++ (p.stopBy (.turn i (.go now))).toList)
      (fx ++ (p.turn i c (.go now)).2) := by
  have taken : p.stopBy (.turn i (.go now)) =
      some ⟨ref.root, i, (p.arena.taskMut ref.root).takeStop.1⟩ := by
    simp only [stopBy, here, Option.bind_some, refused]
  have out : p.turn i c (.go now) = p.takeStop i ref := by
    simp only [turn, refused]
  rw [taken, out]
  simpa [takeStop] using h.take here refused

theorem stopLog_goes_on (h : StopLog p log fx) (here : p.calls[i]? = some c) {t : Turn}
    (goes_on : ¬ ((∃ ref, c.phase = .refused ref) ∧ ∃ now, t = .go now)) :
    StopLog (p.turn i c t).1 log (fx ++ (p.turn i c t).2) := by
  have out := p.turn_outcome i c t
  generalize p.turn i c t = result at out
  obtain ⟨req, phase⟩ := c
  cases out with
  | idle t _ =>
    exact h.keep (fun _ => rfl) (fun j phase same _ => .inl same) (fun _ hj => hj)
      (by simp) (by simp) fun _ _ => .inl
  | identified now at_ =>
    cases at_
    exact h.free here rfl (fun _ => rfl) rfl Bool.noConfusion
      (by simp [identify]) (by simp [identify]) fun _ h => by cases h
  | unreadable at_ =>
    cases at_
    exact h.free here rfl (fun _ => rfl) rfl Bool.noConfusion (by simp [Phase.answered]) (by simp)
      fun _ h => by cases h
  | unheard at_ =>
    cases at_
    exact h.free here rfl (fun _ => rfl) rfl Bool.noConfusion (by simp) (by simp)
      fun _ h => by cases h
  | begun ref captureId now at_ =>
    cases at_
    refine h.free here rfl (sentIn_beginCall req ref captureId) rfl Bool.noConfusion
      (by simp [beginCall]) (fun j ref' spent cap begun => ?_) fun ref' refused => ?_
    · obtain ⟨rfl, rfl, asked⟩ := Effect.begun.inj (List.mem_singleton.mp begun)
      rw [← asked]
      exact ⟨rfl, rfl⟩
    · obtain ⟨rfl, spent, cap, asked⟩ := phaseAfter_eq_refused.mp refused
      exact ⟨spent, cap, by rw [beginCall, asked]; simp⟩
  | stopping ref now at_ => exact absurd ⟨⟨ref, at_⟩, now, rfl⟩ goes_on
  | stopped ref style now at_ =>
    cases at_
    exact h.close here (.inr ⟨style, rfl, rfl⟩) _ _ _ _ _
  | sent ref captureId now at_ =>
    cases at_
    unfold Proxy.send
    split
    · exact h.free here rfl (fun _ => rfl) rfl Bool.noConfusion (by simp) (by simp)
        fun _ h => by cases h
    · exact h.free here rfl (fun _ => rfl) rfl Bool.noConfusion
        (by simp [Phase.answered]) (by simp) fun _ h => by cases h
  | answered ref captureId code now at_ =>
    cases at_
    unfold upstreamAnswered
    split
    · exact h.close_free here rfl _ _ _ _ _ _
    · exact h.free here rfl (fun _ => rfl) rfl Bool.noConfusion
        (by simp [Phase.answered]) (by simp) fun _ h => by cases h
  | failed ref captureId now at_ =>
    cases at_
    unfold upstreamFailed
    split
    · exact h.free here rfl (fun _ => rfl) rfl Bool.noConfusion
        (by simp [Phase.answered]) (by simp) fun _ h => by cases h
    · exact h.close_free here rfl _ _ _ _ _ _
  | cancelled ref captureId at_ =>
    cases at_
    exact h.free here rfl (fun _ => rfl) rfl Bool.noConfusion (by simp) (by simp)
      fun _ h => by cases h
  | metered ref captureId usage complete now at_ =>
    cases at_
    exact h.close_free here rfl _ _ _ _ _ _
  | downgraded ref captureId now at_ =>
    cases at_
    exact h.close_free here rfl _ _ _ _ _ _

theorem stopLog_turn (h : StopLog p log fx) (here : p.calls[i]? = some c) (t : Turn) :
    StopLog (p.turn i c t).1 (log ++ (p.stopBy (.turn i t)).toList)
      (fx ++ (p.turn i c t).2) := by
  by_cases stops : (∃ ref, c.phase = .refused ref) ∧ ∃ now, t = .go now
  · obtain ⟨⟨ref, refused⟩, now, rfl⟩ := stops
    exact stopLog_takeStop h here refused now
  · rw [stopBy_eq_none here stops, Option.toList_none, List.append_nil]
    exact stopLog_goes_on h here stops

theorem stopLog_step (h : StopLog p log fx) (e : RelayEvent) :
    StopLog (p.step e).1 (log ++ (p.stopBy e).toList) (fx ++ (p.step e).2) := by
  cases e with
  | arrive req =>
    rw [show p.stopBy (.arrive req) = none from rfl, Option.toList_none, List.append_nil]
    refine h.keep (fun _ => rfl) (fun j phase found _ => .inl (phaseAt_arrive_of_some req found))
      (fun j hj => at_arrive hj _) (fun j a ha => ?_) (fun j ref spent cap begun => ?_)
      fun j ref waits => .inl ?_
    · obtain ⟨hello, rfl, rfl⟩ : req.isHello = true ∧ j = p.calls.length ∧ a = .hello := by
        cases hello : req.isHello <;> simp [step, hello] at ha
        exact ⟨rfl, ha⟩
      refine ⟨by simp [At, phaseAt, step, hello, Phase.answered], fun s hs call => ?_⟩
      obtain ⟨phase, found, -⟩ := h.phases s hs
      simp [phaseAt, call] at found
    · cases hello : req.isHello <;> simp [step, hello] at begun
    · rw [phaseAt_arrive] at waits
      split at waits
      · cases hello : req.isHello <;> simp [hello] at waits
      · exact waits
  | turn i t =>
    simp only [step]
    cases here : p.calls[i]? with
    | none =>
      have none_ : p.stopBy (.turn i t) = none := by
        cases t with
        | go now => rw [stopBy, here, Option.bind_none]
        | _ => rfl
      rw [none_, Option.toList_none, List.append_nil, List.append_nil]
      exact h
    | some c => exact stopLog_turn h here t

/-- The stops of a run, in the order in which they are taken. -/
def stopsIn (cfg : Config) (es : List RelayEvent) : List Stop :=
  (Runs.trace step cfg.start es).filterMap fun x => x.before.stopBy x.event

theorem stopLog_run (cfg : Config) (es : List RelayEvent) :
    StopLog (Runs.final step cfg.start es) (stopsIn cfg es) (effects cfg es) := by
  refine Runs.history_invariant (P := fun _ _ => True)
    (J := fun p xs => StopLog p (xs.filterMap fun x => x.before.stopBy x.event)
      (xs.flatMap Runs.Entry.output)) (fun p xs e h _ => ?_) ?_
    (Runs.steps_of_forall (fun _ _ => trivial) _ _)
  · rw [List.filterMap_append, List.flatMap_append, List.flatMap_singleton]
    have next := stopLog_step h e
    rw [List.filterMap_cons, Runs.entry_before, Runs.entry_event]
    cases taken : p.stopBy e <;> rw [taken] at next <;> exact next
  · refine ⟨fun root => ?_, List.nodup_nil, fun pre s post split => ?_, List.forall_mem_nil _,
      List.forall_mem_nil _, List.forall_mem_nil _, by simp, by simp, fun i ref waits => ?_,
      List.forall_mem_nil _⟩
    · have empty : cfg.start.arena.get root = none := by
        unfold Config.start
        rcases cfg.budget with _ | ⟨ceiling, rates, _ | share⟩ <;> cases cfg.ledger <;>
          cases cfg.capture <;> exact AList.lookup_empty root
      rw [sentIn, Arena.taskMut, empty, Option.getD_none, Arena.newTask_syntheticSent]
      rfl
    · cases pre <;> cases split
    · have none_ : cfg.start.calls = [] := by
        unfold Config.start
        cases cfg.budget <;> cases cfg.ledger <;> cases cfg.capture <;> rfl
      rw [phaseAt, none_] at waits
      cases waits

/-- A denied request waits for its stop, or has taken it. -/
theorem stop_of_denied (cfg : Config) (es : List RelayEvent) {i : Nat} {ref : NodeRef}
    {spent cap : UInt64} (denied : .begun i ref (some (.deny spent cap)) ∈ effects cfg es) :
    (Runs.final step cfg.start es).phaseAt i = some (.refused ref) ∨
      ∃ s ∈ stopsIn cfg es, s.call = i ∧ s.root = ref.root :=
  (stopLog_run cfg es).denied i ref spent cap denied

/-! ## How a denied call comes to its end -/

/-- The handler of call `i` goes on. -/
def goesOn (i : Nat) : RelayEvent → Bool
  | .turn j (.go _) => j = i
  | _ => false

/-- The turns of its handler that a denied call still needs. -/
def turnsLeft : Phase → Nat
  | .refused _ => 2
  | .stopping _ _ => 1
  | _ => 0

theorem phaseAt_turn_of_ne (here : p.calls[i]? = some c) (t : Turn) {j : Nat} (other : j ≠ i) :
    (p.turn i c t).1.phaseAt j = p.phaseAt j := by
  have elsewhere : ∀ phase, (p.setPhase i phase).phaseAt j = p.phaseAt j := fun phase => by
    rw [phaseAt_setPhase here, if_neg other]
  have out := p.turn_outcome i c t
  generalize p.turn i c t = result at out
  cases out with
  | idle => rfl
  | unreadable | unheard | cancelled => exact elsewhere _
  | identified | begun | stopping | stopped | metered | downgraded => exact elsewhere _
  | sent =>
    unfold Proxy.send
    split <;> exact elsewhere _
  | answered =>
    unfold upstreamAnswered
    split <;> exact elsewhere _
  | failed =>
    unfold upstreamFailed
    split <;> exact elsewhere _

/-- A turn of its handler brings a denied call nearer to its end, and nothing else moves it. -/
theorem turnsLeft_step {phase : Phase} (at_i : p.phaseAt i = some phase)
    (halted : phase.halted = true) (e : RelayEvent) :
    ∃ next, (p.step e).1.phaseAt i = some next ∧ next.halted = true ∧
      turnsLeft next = turnsLeft phase - if goesOn i e then 1 else 0 := by
  obtain ⟨c, here, rfl⟩ := Option.map_eq_some_iff.mp at_i
  have stays : ∀ {p' : Proxy}, p'.phaseAt i = p.phaseAt i → goesOn i e = false →
      ∃ next, p'.phaseAt i = some next ∧ next.halted = true ∧
        turnsLeft next = turnsLeft c.phase - if goesOn i e then 1 else 0 := by
    intro p' same waits
    exact ⟨c.phase, same.trans at_i, halted, by simp [waits]⟩
  cases e with
  | arrive req => exact stays ((phaseAt_arrive_of_some req at_i).trans at_i.symm) rfl
  | turn j t =>
    by_cases same : j = i
    · subst same
      have moved : ∀ next, (p.setPhase j next).phaseAt j = some next := fun next => by
        rw [phaseAt_setPhase here, if_pos rfl]
      simp only [step, here]
      obtain ⟨req, phase⟩ := c
      cases phase with
      | refused ref =>
        cases t with
        | go now => exact ⟨_, moved _, rfl, by simp [turnsLeft, goesOn]⟩
        | _ => exact stays rfl rfl
      | stopping ref style =>
        cases t with
        | go now => exact ⟨_, moved _, rfl, by simp [turnsLeft, goesOn]⟩
        | _ => exact stays rfl rfl
      | ended => exact ⟨_, at_i, rfl, by simp [turnsLeft]⟩
      | received | identified | admitted | sending | metering | abandoned => cases halted
    · have waits : goesOn i (.turn j t) = false := by cases t <;> simp [goesOn, same]
      simp only [step]
      cases there : p.calls[j]? with
      | none => exact stays rfl waits
      | some d => exact stays (phaseAt_turn_of_ne there t (Ne.symm same)) waits

/-- A denied call ends once its handler has had its turns, whatever comes between them. -/
theorem ended_of_goesOn {phase : Phase} (at_i : p.phaseAt i = some phase)
    (halted : phase.halted = true) {es : List RelayEvent}
    (enough : turnsLeft phase ≤ es.countP (goesOn i)) :
    (Runs.final step p es).phaseAt i = some .ended := by
  induction es generalizing p phase with
  | nil =>
    cases phase with
    | ended => exact at_i
    | refused | stopping => cases enough
    | received | identified | admitted | sending | metering | abandoned => cases halted
  | cons e es ih =>
    obtain ⟨next, at_next, halted', left⟩ := turnsLeft_step at_i halted e
    rw [Runs.final_cons]
    refine ih at_next halted' ?_
    rw [List.countP_cons] at enough
    omega

/-- How the denied calls of a run are answered. `maps` are the headers of the calls. -/
structure StopsDocumented (cfg : Config) (maps : Nat → HeaderMap) (es : List RelayEvent) :
    Prop where
  /-- A denied call has taken a stop of its task, or is about to. -/
  taken : ∀ i ref spent cap, .begun i ref (some (.deny spent cap)) ∈ effects cfg es →
    (Runs.final step cfg.start es).phaseAt i = some (.refused ref) ∨
      ∃ s ∈ stopsIn cfg es, s.call = i ∧ s.root = ref.root
  /-- No other call takes one. -/
  denied : ∀ s ∈ stopsIn cfg es, ∃ ref spent cap, ref.root = s.root ∧
    .begun s.call ref (some (.deny spent cap)) ∈ effects cfg es
  once : ((stopsIn cfg es).map Stop.call).Nodup
  /-- Two turns of its handler end a denied call. -/
  ends : ∀ i ref spent cap, .begun i ref (some (.deny spent cap)) ∈ effects cfg es →
    ∀ more, 2 ≤ more.countP (goesOn i) →
      (Runs.final step cfg.start (es ++ more)).phaseAt i = some .ended
  /-- Then it is answered with its stop. -/
  answered : ∀ s ∈ stopsIn cfg es, (Runs.final step cfg.start es).phaseAt s.call = some .ended →
    .answered s.call (.stop s.style) ∈ effects cfg es
  /-- It is answered with nothing else. -/
  only : ∀ s ∈ stopsIn cfg es, ∀ a, .answered s.call a ∈ effects cfg es → a = .stop s.style
  /-- The first stop of a task and the later ones are as the table has them. -/
  table : ∀ pre s post, stopsIn cfg es = pre ++ s :: post →
    StopTable (!pre.any fun t => t.root = s.root) (maps s.call) (stopResponse s.style (maps s.call))

theorem ended_of_denied (cfg : Config) (es : List RelayEvent) {ref : NodeRef} {spent cap : UInt64}
    (denied : .begun i ref (some (.deny spent cap)) ∈ effects cfg es) {more : List RelayEvent}
    (turns : 2 ≤ more.countP (goesOn i)) :
    (Runs.final step cfg.start (es ++ more)).phaseAt i = some .ended := by
  have halted : ∃ phase, (Runs.final step cfg.start es).phaseAt i = some phase ∧
      phase.halted = true := by
    rcases stop_of_denied cfg es denied with waits | ⟨s, hs, rfl, -⟩
    · exact ⟨_, waits, rfl⟩
    · obtain ⟨phase, at_s, holds⟩ := (stopLog_run cfg es).phases s hs
      exact ⟨phase, at_s, Phase.halted_of_stopStyle holds⟩
  obtain ⟨phase, at_i, halted⟩ := halted
  have few : turnsLeft phase ≤ 2 := by cases phase <;> simp [turnsLeft]
  rw [Runs.final_append]
  exact ended_of_goesOn at_i halted (few.trans turns)

/-- In a run the denied requests are answered as the table has it if and only if each one that is
stopped after another one of its task comes from Claude Code. -/
theorem stopsDocumented_iff (cfg : Config) (maps : Nat → HeaderMap) (es : List RelayEvent) :
    StopsDocumented cfg maps es ↔ ∀ pre s post, stopsIn cfg es = pre ++ s :: post →
      (∃ t ∈ pre, t.root = s.root) → isClaude (maps s.call) = true := by
  have log := stopLog_run cfg es
  have table : ∀ pre s post, stopsIn cfg es = pre ++ s :: post →
      (StopTable (!pre.any fun t => t.root = s.root) (maps s.call)
          (stopResponse s.style (maps s.call)) ↔
        ((∃ t ∈ pre, t.root = s.root) → isClaude (maps s.call) = true)) := by
    intro pre s post split
    rw [log.styles pre s post split, stopTable_iff]
    simp
  constructor
  · intro documented pre s post split
    exact (table pre s post split).mp (documented.table pre s post split)
  · intro claude
    exact {
      taken := fun i ref spent cap denied => stop_of_denied cfg es denied
      denied := log.stops
      once := log.once
      ends := fun i ref spent cap denied more => ended_of_denied cfg es denied
      answered := log.closed
      only := log.answers
      table := fun pre s post split => (table pre s post split).mpr (claude pre s post split) }

end Turns

section Cases

attribute [local instance] exactProduct acceptingParsers

/-- The session that a Codex client declares. -/
def codexMetadata : String := "\x7b\"session_id\":\"s\"\x7d"

def codexHeaders : HeaderMap :=
  [("x-codex-turn-metadata".toList, codexMetadata.toList.map fun c => UInt8.ofNat c.toNat)]

def codexRequest : Request :=
  { sampleRequest none false with
    headers name := if name = "x-codex-turn-metadata" then some codexMetadata else none }

/-- Nothing may be spent, and the client sends on: the first request is the last one, the others
are stopped. -/
def codexAfterStop : List RelayEvent :=
  [.arrive codexRequest, .turn 0 (.go 0), .turn 0 (.go 0), .turn 0 (.go 0),
    .arrive codexRequest, .turn 1 (.go 0), .turn 1 (.go 0), .turn 1 (.go 0), .turn 1 (.go 0),
    .arrive codexRequest, .turn 2 (.go 0), .turn 2 (.go 0), .turn 2 (.go 0), .turn 2 (.go 0)]

/-- Its second stop is a 429. -/
theorem not_stopsDocumented_codex :
    ¬ StopsDocumented ⟨sampleUpstream, some (0, .perToken, none), false, false⟩
      (fun _ => codexHeaders) codexAfterStop := by
  intro documented
  have stops : stopsIn ⟨sampleUpstream, some (0, .perToken, none), false, false⟩ codexAfterStop =
      [⟨"s", 1, .syntheticEndTurn⟩, ⟨"s", 2, .retryableFalse429⟩] := by
    decide +kernel
  have second : StopTable false codexHeaders (stopResponse .retryableFalse429 codexHeaders) :=
    documented.table [_] _ [] stops
  exact absurd ((stopTable_iff false codexHeaders).mp second rfl) (by decide)

end Cases

end Proxy

end Tailfin
