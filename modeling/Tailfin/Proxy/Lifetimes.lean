import Tailfin.Ident.Numbering
import Tailfin.Proxy.Agreement

/-!
# One ledger over several lifetimes

A proxy that is started again goes on appending to its ledger, with a new session index. What
tells the undeclared sessions apart in the records is the name that the index of their own
lifetime has given them.
-/

namespace Tailfin

/-! ## What the index is asked -/

/-- What the session index is asked for a request: `relay_ws` brings no digest. -/
def Request.asked (req : Request) : ResolveCall where
  headers := req.headers
  messages := if req.websocket then none else req.messages

theorem Request.asked_digest (req : Request) :
    req.asked.digest = if req.websocket then none else req.digest := by
  unfold ResolveCall.digest asked
  split <;> rfl

/-- The identity that a request goes on with. -/
def Phase.ref : Phase → Option NodeRef
  | .received | .ended => none
  | .identified ref _ | .refused ref | .stopping ref _ | .admitted ref _ | .sending ref _
  | .metering ref _ | .abandoned ref => some ref

theorem ref_phaseAfter (ref : NodeRef) (captureId : Option String)
    (admission : Option Admission) : (Proxy.phaseAfter ref captureId admission).ref = some ref := by
  unfold Proxy.phaseAfter
  split <;> rfl

/-- The call goes on with the identity that it has, or ends. -/
def Phase.GoesTo (old new : Phase) : Prop :=
  new = .ended ∨ ∃ ref, old.ref = some ref ∧ new.ref = some ref

theorem Phase.GoesTo.ne_received {old new : Phase} (h : old.GoesTo new) : new ≠ .received := by
  rintro rfl
  rcases h with ended | ⟨ref, -, bare⟩
  · cases ended
  · cases bare

theorem Phase.GoesTo.ref_eq {old new : Phase} (h : old.GoesTo new) {ref : NodeRef}
    (holds : new.ref = some ref) : old.ref = some ref := by
  rcases h with rfl | ⟨ref', held, same⟩
  · cases holds
  · obtain rfl := Option.some_inj.mp (same.symm.trans holds)
    exact held

namespace Proxy

/-- The call that an event has resolved, and what the index is asked for it. -/
def resolves (p : Proxy) : RelayEvent → Option (Nat × ResolveCall)
  | .turn i (.go _) =>
    (p.calls[i]?).bind fun c => if c.phase = .received then some (i, c.req.asked) else none
  | _ => none

/-- What a step does to the index and to the calls. -/
inductive Passage (p p' : Proxy) (fx : List Effect) : Option (Nat × ResolveCall) → Prop
  | still : p' = p → fx = [] → Passage p p' fx none
  | arrived (c : Call) : p'.ident = p.ident → p'.calls = p.calls ++ [c] → c.phase.ref = none →
      Silent fx → Passage p p' fx none
  | resolved (i : Nat) (c : Call) (captureId : Option String) : p.calls[i]? = some c →
      c.phase = .received → p'.ident = (p.ident.step c.req.asked).1 →
      p'.calls = p.calls.set i
        ⟨c.req, .identified (p.ident.step c.req.asked).2 captureId⟩ → fx = [] →
      Passage p p' fx (some (i, c.req.asked))
  | moved (i : Nat) (c : Call) (phase : Phase) : p.calls[i]? = some c → p'.ident = p.ident →
      p'.calls = p.calls.set i ⟨c.req, phase⟩ → c.phase.GoesTo phase →
      (∀ j r, .finished j r ∈ fx → j = i ∧ ∃ ref, c.phase.ref = some ref ∧ r.taskId = ref.root) →
      Passage p p' fx none

theorem calls_setPhase {p : Proxy} {i : Nat} {c : Call} (here : p.calls[i]? = some c)
    (phase : Phase) : (p.setPhase i phase).calls = p.calls.set i ⟨c.req, phase⟩ := by
  have : Inhabited Call := ⟨c⟩
  simp only [setPhase, List.modify_eq_set, here, Option.getD_some]

theorem not_finished_of_silent {fx : List Effect} (silent : Silent fx) (j : Nat) (r : Record) :
    .finished j r ∉ fx := by
  intro written
  have none_ := (silent _ written).2
  cases none_

section Turns

variable {p : Proxy} {i : Nat} {c : Call} (here : p.calls[i]? = some c)
include here

/-- A turn that sets the phase and finishes nothing. -/
theorem passage_setPhase {q : Proxy} (same : q.ident = p.ident ∧ q.calls = p.calls)
    {fx : List Effect} (silent : Silent fx) {phase : Phase} (goes : c.phase.GoesTo phase) :
    Passage p (q.setPhase i phase) fx none := by
  have calls : (q.setPhase i phase).calls = p.calls.set i ⟨c.req, phase⟩ := by
    rw [← same.2] at here ⊢
    exact calls_setPhase here phase
  refine .moved i c phase here same.1 calls goes ?_
  exact fun j r written => absurd written (not_finished_of_silent silent j r)

theorem passage_close {ref : NodeRef} (holds : c.phase.ref = some ref) (usage : Usage)
    (complete : Bool) (captureId : Option String) (now : Nat) (answer : Option Answer) :
    Passage p (p.close i ref usage complete captureId now answer).1
      (p.close i ref usage complete captureId now answer).2 none := by
  have calls : (p.close i ref usage complete captureId now answer).1.calls =
      p.calls.set i ⟨c.req, .ended⟩ :=
    calls_setPhase (p := (p.finishLocked ref usage complete captureId now).1) here .ended
  refine .moved i c .ended here rfl calls (.inl rfl) fun j r written => ?_
  rcases List.mem_cons.mp written with last | rest
  · obtain ⟨rfl, rfl⟩ := Effect.finished.inj last
    exact ⟨rfl, ref, holds, (p.finishLocked_record ref usage complete captureId now).1⟩
  · exact absurd rest (not_finished_of_silent (silent_answered i answer) j r)

theorem passage_identify (fresh : c.phase = .received) (now : Nat) :
    Passage p (p.identify i c.req now).1 (p.identify i c.req now).2 (some (i, c.req.asked)) := by
  have asked : p.ident.resolve c.req.headers (if c.req.websocket then none else c.req.digest) =
      ((p.ident.step c.req.asked).2, (p.ident.step c.req.asked).1) := by
    rw [← c.req.asked_digest]
    rfl
  unfold identify
  rw [asked]
  exact .resolved i c _ here fresh rfl
    (calls_setPhase (p := { p with ident := (p.ident.step c.req.asked).1 }) here _) rfl

theorem passage_beginCall [FloatProduct] {ref : NodeRef} (holds : c.phase.ref = some ref)
    (captureId : Option String) :
    Passage p (p.beginCall i c.req ref captureId).1 (p.beginCall i c.req ref captureId).2
      none := by
  refine .moved i c _ here rfl (calls_setPhase (p := { p with arena := _ }) here _)
    (.inr ⟨ref, holds, ref_phaseAfter ref captureId _⟩) fun j r written => ?_
  cases List.mem_singleton.mp written

theorem passage_takeStop {ref : NodeRef} (holds : c.phase.ref = some ref) :
    Passage p (p.takeStop i ref).1 (p.takeStop i ref).2 none := by
  simp only [takeStop]
  apply passage_setPhase here ?_ silent_nil (.inr ⟨ref, holds, ?_⟩)
  · exact ⟨rfl, rfl⟩
  · rfl

variable [FloatProduct] [HttpLibrary]

theorem passage_turn (t : Turn) :
    Passage p (p.turn i c t).1 (p.turn i c t).2 (p.resolves (.turn i t)) := by
  by_cases fresh : c.phase = .received ∧ ∃ now, t = .go now
  · obtain ⟨received, now, rfl⟩ := fresh
    have asked : p.resolves (.turn i (.go now)) = some (i, c.req.asked) := by
      rw [resolves, here, Option.bind_some, if_pos received]
    have out : p.turn i c (.go now) = p.identify i c.req now := by
      simp only [turn, received]
    rw [asked, out]
    exact passage_identify here received now
  · have none_ : p.resolves (.turn i t) = none := by
      cases t with
      | go now =>
        rw [resolves, here, Option.bind_some, if_neg fun received => fresh ⟨received, now, rfl⟩]
      | _ => rfl
    rw [none_]
    have out := p.turn_outcome i c t
    generalize p.turn i c t = result at out
    obtain ⟨req, phase⟩ := c
    cases out with
    | idle t calm => exact .still rfl rfl
    | identified now at_ => exact absurd ⟨at_, now, rfl⟩ fresh
    | unreadable at_ =>
      cases at_
      exact passage_setPhase here ⟨rfl, rfl⟩ (silent_answered i (some _)) (.inl rfl)
    | unheard at_ =>
      cases at_
      exact passage_setPhase here ⟨rfl, rfl⟩ silent_nil (.inl rfl)
    | begun ref captureId now at_ =>
      cases at_
      exact passage_beginCall here rfl captureId
    | stopping ref now at_ =>
      cases at_
      exact passage_takeStop here rfl
    | stopped ref style now at_ =>
      cases at_
      exact passage_close here rfl _ _ _ _ _
    | sent ref captureId now at_ =>
      cases at_
      unfold send
      split
      · exact passage_setPhase here ⟨rfl, rfl⟩ (silent_sent i) (.inr ⟨ref, rfl, rfl⟩)
      · exact passage_setPhase here ⟨rfl, rfl⟩ (silent_answered i (some _)) (.inr ⟨ref, rfl, rfl⟩)
    | answered ref captureId code now at_ =>
      cases at_
      unfold upstreamAnswered
      split
      · exact passage_close here rfl _ _ _ _ _
      · exact passage_setPhase here ⟨rfl, rfl⟩ (silent_answered i (some _)) (.inr ⟨ref, rfl, rfl⟩)
    | failed ref captureId now at_ =>
      cases at_
      unfold upstreamFailed
      split
      · exact passage_setPhase here ⟨rfl, rfl⟩ (silent_answered i (some _)) (.inr ⟨ref, rfl, rfl⟩)
      · exact passage_close here rfl _ _ _ _ _
    | cancelled ref captureId at_ =>
      cases at_
      exact passage_setPhase here ⟨rfl, rfl⟩ silent_nil (.inr ⟨ref, rfl, rfl⟩)
    | metered ref captureId usage complete now at_ =>
      cases at_
      exact passage_close here rfl _ _ _ _ _
    | downgraded ref captureId now at_ =>
      cases at_
      exact passage_close here rfl _ _ _ _ _

end Turns

theorem passage_step [FloatProduct] [HttpLibrary] (p : Proxy) (e : RelayEvent) :
    Passage p (p.step e).1 (p.step e).2 (p.resolves e) := by
  cases e with
  | arrive req =>
    refine .arrived _ rfl rfl ?_ ?_
    · split <;> rfl
    · simp only [step]
      split
      · exact silent_answered _ (some _)
      · exact silent_nil
  | turn i t =>
    simp only [step]
    cases here : p.calls[i]? with
    | none =>
      have none_ : p.resolves (.turn i t) = none := by
        cases t with
        | go now => rw [resolves, here, Option.bind_none]
        | _ => rfl
      rw [none_]
      exact .still rfl rfl
    | some c => exact passage_turn here t

/-! ## Whom a record is from -/

theorem fst_of_getElem? {asked : List (Nat × ResolveCall)} {i j : Nat} {c : ResolveCall}
    (here : asked[j]? = some (i, c)) : (asked.map Prod.fst)[j]? = some i := by
  rw [List.getElem?_map, here, Option.map_some]

theorem snd_of_getElem? {asked : List (Nat × ResolveCall)} {i j : Nat} {c : ResolveCall}
    (here : asked[j]? = some (i, c)) : (asked.map Prod.snd)[j]? = some c := by
  rw [List.getElem?_map, here, Option.map_some]

/-- Call `i` is one of those asked for, and got this root. -/
def Named (asked : List (Nat × ResolveCall)) (i : Nat) (root : String) : Prop :=
  ∃ j c, asked[j]? = some (i, c) ∧ SessionIndex.rootAt (asked.map Prod.snd) j = some root

theorem Named.append {asked : List (Nat × ResolveCall)} {i : Nat} {root : String}
    (h : Named asked i root) (more : List (Nat × ResolveCall)) :
    Named (asked ++ more) i root := by
  obtain ⟨j, c, here, got⟩ := h
  obtain ⟨bound, -⟩ := List.getElem?_eq_some_iff.mp here
  refine ⟨j, c, ?_, ?_⟩
  · rw [List.getElem?_append_left bound, here]
  · rw [List.map_append, SessionIndex.rootAt_append (by rwa [List.length_map]), got]

/-- The index is behind all that it was asked, one time for each call, and what it answered is
what the calls hold and what their records say. -/
structure Attributed (p : Proxy) (asked : List (Nat × ResolveCall)) (fx : List Effect) : Prop where
  ident : p.ident = SessionIndex.behind (asked.map Prod.snd)
  once : (asked.map Prod.fst).Nodup
  calls : ∀ i c, (i, c) ∈ asked →
    ∃ call, p.calls[i]? = some call ∧ call.req.asked = c ∧ call.phase ≠ .received
  held : ∀ (i : Nat) call ref, p.calls[i]? = some call → call.phase.ref = some ref →
    Named asked i ref.root
  written : ∀ i r, .finished i r ∈ fx → Named asked i r.taskId

section Kept

variable {p p' : Proxy} {asked : List (Nat × ResolveCall)} {fx gx : List Effect}
  (h : Attributed p asked fx)
include h

theorem Attributed.arrived {c : Call} (ident : p'.ident = p.ident)
    (calls : p'.calls = p.calls ++ [c]) (bare : c.phase.ref = none) (silent : Silent gx) :
    Attributed p' asked (fx ++ gx) := by
  refine ⟨ident.trans h.ident, h.once, fun i c' hc' => ?_, fun i call ref hcall holds => ?_,
    fun i r written => ?_⟩
  · obtain ⟨call, hcall, rest⟩ := h.calls i c' hc'
    obtain ⟨bound, -⟩ := List.getElem?_eq_some_iff.mp hcall
    exact ⟨call, by rw [calls, List.getElem?_append_left bound, hcall], rest⟩
  · rw [calls] at hcall
    rcases SessionIndex.getElem?_append_singleton hcall with hcall | ⟨-, rfl⟩
    · exact h.held i call ref hcall holds
    · rw [bare] at holds
      cases holds
  · rcases List.mem_append.mp written with written | written
    · exact h.written i r written
    · exact absurd written (not_finished_of_silent silent i r)

theorem Attributed.resolved {i : Nat} {c : Call} {captureId : Option String}
    (here : p.calls[i]? = some c) (fresh : c.phase = .received)
    (ident : p'.ident = (p.ident.step c.req.asked).1)
    (calls : p'.calls = p.calls.set i
      ⟨c.req, .identified (p.ident.step c.req.asked).2 captureId⟩) :
    Attributed p' (asked ++ [(i, c.req.asked)]) fx := by
  obtain ⟨bound, -⟩ := List.getElem?_eq_some_iff.mp here
  have new : ∀ c', (i, c') ∉ asked := by
    intro c' known
    obtain ⟨call, hcall, -, past⟩ := h.calls i c' known
    obtain rfl := Option.some_inj.mp (here.symm.trans hcall)
    exact past fresh
  have named : Named (asked ++ [(i, c.req.asked)]) i (p.ident.step c.req.asked).2.root := by
    refine ⟨asked.length, c.req.asked, List.getElem?_concat_length, ?_⟩
    have last := SessionIndex.rootAt_last (asked.map Prod.snd) c.req.asked
    rw [List.length_map, ← h.ident] at last
    rw [List.map_append]
    exact last
  refine ⟨?_, ?_, fun j c' hc' => ?_, fun j call ref hcall holds => ?_,
    fun j r written => (h.written j r written).append _⟩
  · rw [ident, h.ident, List.map_append]
    exact (SessionIndex.behind_append _ _).symm
  · rw [List.map_append, List.nodup_append]
    refine ⟨h.once, List.nodup_singleton _, fun j hj k hk same => ?_⟩
    obtain rfl := List.mem_singleton.mp hk
    obtain ⟨⟨j, c'⟩, known, rfl⟩ := List.mem_map.mp hj
    subst same
    exact new c' known
  · rw [calls]
    rcases List.mem_append.mp hc' with known | last
    · obtain ⟨call, hcall, rest⟩ := h.calls j c' known
      have other : i ≠ j := by
        rintro rfl
        exact new c' known
      exact ⟨call, by rw [List.getElem?_set_ne other, hcall], rest⟩
    · obtain ⟨rfl, rfl⟩ := Prod.mk.inj (List.mem_singleton.mp last)
      exact ⟨_, List.getElem?_set_self bound, rfl, Phase.noConfusion⟩
  · rw [calls, List.getElem?_set] at hcall
    split at hcall
    · next ours =>
      subst ours
      obtain rfl := Option.some_inj.mp hcall
      obtain rfl := Option.some_inj.mp holds
      exact named
    · exact (h.held j call ref hcall holds).append _

theorem Attributed.moved {i : Nat} {c : Call} {phase : Phase} (here : p.calls[i]? = some c)
    (ident : p'.ident = p.ident) (calls : p'.calls = p.calls.set i ⟨c.req, phase⟩)
    (goes : c.phase.GoesTo phase)
    (finishes : ∀ j r, .finished j r ∈ gx →
      j = i ∧ ∃ ref, c.phase.ref = some ref ∧ r.taskId = ref.root) :
    Attributed p' asked (fx ++ gx) := by
  obtain ⟨bound, -⟩ := List.getElem?_eq_some_iff.mp here
  refine ⟨ident.trans h.ident, h.once, fun j c' hc' => ?_, fun j call ref hcall holds => ?_,
    fun j r written => ?_⟩
  · obtain ⟨call, hcall, asks, received⟩ := h.calls j c' hc'
    rw [calls]
    by_cases ours : i = j
    · subst ours
      obtain rfl := Option.some_inj.mp (here.symm.trans hcall)
      exact ⟨_, List.getElem?_set_self bound, asks, goes.ne_received⟩
    · exact ⟨call, by rw [List.getElem?_set_ne ours, hcall], asks, received⟩
  · rw [calls, List.getElem?_set] at hcall
    split at hcall
    · next ours =>
      subst ours
      obtain rfl := Option.some_inj.mp hcall
      exact h.held i c ref here (goes.ref_eq holds)
    · exact h.held j call ref hcall holds
  · rcases List.mem_append.mp written with written | written
    · exact h.written j r written
    · obtain ⟨rfl, ref, holds, named⟩ := finishes j r written
      rw [named]
      exact h.held j c ref here holds

theorem attributed_passage {more : Option (Nat × ResolveCall)} (passage : Passage p p' gx more) :
    Attributed p' (asked ++ more.toList) (fx ++ gx) := by
  cases passage with
  | still same calm =>
    subst same calm
    simpa using h
  | arrived c ident calls bare silent =>
    rw [Option.toList_none, List.append_nil]
    exact h.arrived ident calls bare silent
  | resolved i c captureId here fresh ident calls calm =>
    subst calm
    rw [Option.toList_some, List.append_nil]
    exact h.resolved here fresh ident calls
  | moved i c phase here ident calls goes finishes =>
    rw [Option.toList_none, List.append_nil]
    exact h.moved here ident calls goes finishes

end Kept

section Run

variable [FloatProduct] [HttpLibrary]

/-- What the index is asked in a run, with the calls that it is asked for. -/
def askedIn (cfg : Config) (es : List RelayEvent) : List (Nat × ResolveCall) :=
  (Runs.trace step cfg.start es).filterMap fun x => x.before.resolves x.event

omit [FloatProduct] [HttpLibrary] in
theorem start_ident (cfg : Config) : cfg.start.ident = .new ∧ cfg.start.calls = [] := by
  unfold Config.start
  cases cfg.budget <;> cases cfg.ledger <;> cases cfg.capture <;> exact ⟨rfl, rfl⟩

theorem attributed_run (cfg : Config) (es : List RelayEvent) :
    Attributed (Runs.final step cfg.start es) (askedIn cfg es) (effects cfg es) := by
  refine Runs.history_invariant (P := fun _ _ => True)
    (J := fun p xs => Attributed p (xs.filterMap fun x => x.before.resolves x.event)
      (xs.flatMap Runs.Entry.output)) (fun p xs e h _ => ?_) ?_
    (Runs.steps_of_forall (fun _ _ => trivial) _ _)
  · rw [List.filterMap_append, List.flatMap_append, List.flatMap_singleton]
    have next := attributed_passage h (p.passage_step e)
    rw [List.filterMap_cons, Runs.entry_before, Runs.entry_event]
    cases asked : p.resolves e <;> rw [asked] at next <;> exact next
  · obtain ⟨ident, calls⟩ := start_ident cfg
    refine ⟨ident, List.nodup_nil, fun i c none_ => absurd none_ List.not_mem_nil,
      fun i call ref hcall => ?_, fun i r none_ => absurd none_ List.not_mem_nil⟩
    rw [calls] at hcall
    cases hcall

/-- A ledger that is written to goes on being written to. -/
theorem ledger_isSome (cfg : Config) (writes : cfg.ledger = true) (es : List RelayEvent) :
    (Runs.final step cfg.start es).ledger.isSome = true := by
  refine Runs.final_invariant (P := fun _ _ => True)
    (I := fun p : Proxy => p.ledger.isSome = true) (fun p e open_ _ => ?_) ?_
    (Runs.steps_of_forall (fun _ _ => trivial) _ _)
  · have change := p.change_step e
    generalize p.leaks e = leak at change
    cases change with
    | still keeps _ | arrived _ keeps _ _ | dismissed _ keeps _ _ | lost _ _ keeps _ _ =>
      rw [keeps.ledger]
      exact open_
    | begun _ _ _ ledger _ _ _ _ =>
      rw [ledger]
      exact open_
    | finished _ _ _ _ ledger _ _ _ _ _ =>
      rw [ledger, Option.isSome_map]
      exact open_
  · unfold Config.start
    rw [writes]
    cases cfg.budget <;> cases cfg.capture <;> rfl

end Run

end Proxy

/-! ## Lifetimes -/

/-- From a start of the proxy to its end, with a ledger. -/
structure Lifetime where
  cfg : Proxy.Config
  appends : cfg.ledger = true
  events : List RelayEvent

section Lifetimes

variable [FloatProduct] [HttpLibrary]

namespace Lifetime

def final (l : Lifetime) : Proxy := Runs.final Proxy.step l.cfg.start l.events

/-- What it appends to the ledger. -/
def records (l : Lifetime) : List Record := l.final.ledger.getD []

/-- It appends the record `r` for its call `i`, which asks the index for `c`. -/
def Writes (l : Lifetime) (i : Nat) (c : ResolveCall) (r : Record) : Prop :=
  .finished i r ∈ Proxy.effects l.cfg l.events ∧
    ∃ call, l.final.calls[i]? = some call ∧ call.req.asked = c

/-- Its call `i` is one of the `n`-th session of its index. -/
def OfSession (l : Lifetime) (n i : Nat) : Prop :=
  ∃ j c, (Proxy.askedIn l.cfg l.events)[j]? = some (i, c) ∧
    ResolveCall.OfSession ((Proxy.askedIn l.cfg l.events).map Prod.snd) n j

theorem records_eq (l : Lifetime) : l.records = recordsIn (Proxy.effects l.cfg l.events) := by
  obtain ⟨records, written⟩ :=
    Option.isSome_iff_exists.mp (Proxy.ledger_isSome l.cfg l.appends l.events)
  rw [Lifetime.records, final, written, Option.getD_some]
  exact (Proxy.accounts_run l.cfg l.events).ledger records written

theorem Writes.mem_records {l : Lifetime} {i : Nat} {c : ResolveCall} {r : Record}
    (h : l.Writes i c r) : r ∈ l.records := by
  have account := Proxy.accounts_run l.cfg l.events
  obtain ⟨records, written⟩ :=
    Option.isSome_iff_exists.mp (Proxy.ledger_isSome l.cfg l.appends l.events)
  have same : l.records = (Proxy.effects l.cfg l.events).filterMap Effect.record := by
    rw [Lifetime.records, final, written, Option.getD_some, account.ledger records written]
  rw [same]
  exact List.mem_filterMap.mpr ⟨_, h.1, rfl⟩

/-- The one time that the index was asked for a call with a record. -/
theorem Writes.asked {l : Lifetime} {i : Nat} {c : ResolveCall} {r : Record}
    (h : l.Writes i c r) : ∃ j, (Proxy.askedIn l.cfg l.events)[j]? = some (i, c) ∧
      SessionIndex.rootAt ((Proxy.askedIn l.cfg l.events).map Prod.snd) j = some r.taskId ∧
      ∀ j' c', (Proxy.askedIn l.cfg l.events)[j']? = some (i, c') → j' = j := by
  have run := Proxy.attributed_run l.cfg l.events
  obtain ⟨finished, call, hcall, asks⟩ := h
  obtain ⟨j, c', here, got⟩ := run.written i r finished
  obtain ⟨call', hcall', asks', -⟩ := run.calls i c' (List.mem_of_getElem? here)
  obtain rfl := Option.some_inj.mp (hcall.symm.trans hcall')
  obtain rfl : c' = c := asks'.symm.trans asks
  refine ⟨j, here, got, fun j' c'' again => ?_⟩
  have second := Proxy.fst_of_getElem? again
  obtain ⟨bound, -⟩ := List.getElem?_eq_some_iff.mp second
  exact (List.getElem?_inj bound run.once).mp (second.trans (Proxy.fst_of_getElem? here).symm)

/-- A record of an undeclared request carries the name of its session. -/
theorem Writes.taskId {l : Lifetime} {i n : Nat} {c : ResolveCall} {r : Record}
    (h : l.Writes i c r) (session : l.OfSession n i) : r.taskId = c.sessionName n := by
  obtain ⟨j, here, got, only⟩ := h.asked
  obtain ⟨j', c', here', ofSession⟩ := session
  obtain rfl := only j' c' here'
  rw [SessionIndex.rootAt_of_ofSession ofSession (Proxy.snd_of_getElem? here)] at got
  exact (Option.some_inj.mp got).symm

theorem Writes.exists_ofSession {l : Lifetime} {i : Nat} {c : ResolveCall} {r : Record}
    (h : l.Writes i c r) (free : c.Undeclared) : ∃ n, l.OfSession n i := by
  obtain ⟨j, here, -⟩ := h.asked
  obtain ⟨n, session⟩ := ResolveCall.exists_ofSession (Proxy.snd_of_getElem? here) free
  exact ⟨n, j, c, here, session⟩

/-- Within one lifetime the requests of a session are partners. -/
theorem eq_or_partners {l : Lifetime} {n i j : Nat} {c d : ResolveCall} {r s : Record}
    (first : l.Writes i c r) (second : l.Writes j d s) (hi : l.OfSession n i)
    (hj : l.OfSession n j) : i = j ∨ ResolveCall.Partners 1 c d := by
  obtain ⟨a, here, -, only⟩ := first.asked
  obtain ⟨b, here', -, only'⟩ := second.asked
  obtain ⟨a', c', asked, session⟩ := hi
  obtain ⟨b', d', asked', session'⟩ := hj
  obtain rfl := only a' c' asked
  obtain rfl := only' b' d' asked'
  rcases ResolveCall.eq_or_partners_of_ofSession session session' (Proxy.snd_of_getElem? here)
    (Proxy.snd_of_getElem? here') with rfl | partners
  · left
    exact (Prod.mk.inj (Option.some_inj.mp (here.symm.trans here'))).1
  · exact .inr partners

end Lifetime

/-- The ledger file that the lifetimes append to, one after the other. -/
def ledgerOf (ls : List Lifetime) : List Record := ls.flatMap Lifetime.records

/-- The `a`-th lifetime appends `r` for its undeclared request `c`, which is its call `i`. -/
def Filed (ls : List Lifetime) (a i : Nat) (c : ResolveCall) (r : Record) : Prop :=
  ∃ l, ls[a]? = some l ∧ l.Writes i c r ∧ c.Undeclared

/-- The report has each of the two records in a task, and not in the same one. -/
def SeparateTasks (records : List Record) (r s : Record) : Prop :=
  ∃ t ∈ tasksFromRecords records, ∃ u ∈ tasksFromRecords records,
    t.root = r.taskId ∧ u.root = s.taskId ∧ t ≠ u

/-- Two undeclared requests that no prefix match has joined, in one lifetime or in two, have
records of different tasks. -/
def NeverShared (ls : List Lifetime) : Prop :=
  ∀ a i c r b j d s, Filed ls a i c r → Filed ls b j d s → (a, i) ≠ (b, j) →
    ¬ (a = b ∧ ResolveCall.Partners 1 c d) →
      r.taskId ≠ s.taskId ∧ SeparateTasks (ledgerOf ls) r s

/-- No two lifetimes record requests of their `n`-th sessions that both bring a digest, or that
both bring none. -/
def NumberedApart (ls : List Lifetime) : Prop :=
  ∀ a i c r b j d s, Filed ls a i c r → Filed ls b j d s → a ≠ b →
    ∀ l ∈ ls[a]?, ∀ m ∈ ls[b]?, ∀ n, l.OfSession n i → m.OfSession n j →
      c.digest.isSome ≠ d.digest.isSome

theorem Filed.mem_ledgerOf {ls : List Lifetime} {a i : Nat} {c : ResolveCall} {r : Record}
    (h : Filed ls a i c r) : r ∈ ledgerOf ls := by
  obtain ⟨l, hl, written, -⟩ := h
  exact List.mem_flatMap.mpr ⟨l, List.mem_of_getElem? hl, written.mem_records⟩

omit [HttpLibrary] in
theorem separateTasks_of_ne {records : List Record} {r s : Record} (hr : r ∈ records)
    (hs : s ∈ records) (different : r.taskId ≠ s.taskId) : SeparateTasks records r s := by
  refine ⟨taskFrom records r.taskId, mem_tasksFromRecords.mpr ⟨r, hr, rfl⟩,
    taskFrom records s.taskId, mem_tasksFromRecords.mpr ⟨s, hs, rfl⟩,
    taskFrom_root records r.taskId, taskFrom_root records s.taskId, fun same => ?_⟩
  have roots := congrArg Task.root same
  rw [taskFrom_root, taskFrom_root] at roots
  exact different roots

/-- Undeclared requests share no task in the ledger exactly when no two lifetimes record their
`n`-th sessions, both with digests or both without. -/
theorem neverShared_iff (ls : List Lifetime) : NeverShared ls ↔ NumberedApart ls := by
  constructor
  · intro never a i c r b j d s first second apart l hl m hm n session session' kind
    have other : (a, i) ≠ (b, j) := fun same => apart (Prod.mk.inj same).1
    refine (never a i c r b j d s first second other fun joined => apart joined.1).1 ?_
    obtain ⟨l', hl', written, -⟩ := first
    obtain ⟨m', hm', written', -⟩ := second
    obtain rfl : l = l' := Option.some_inj.mp (hl.symm.trans hl')
    obtain rfl : m = m' := Option.some_inj.mp (hm.symm.trans hm')
    rw [written.taskId session, written'.taskId session']
    exact ResolveCall.sessionName_inj.mpr ⟨kind, rfl⟩
  · intro numbered a i c r b j d s first second other unjoined
    have different : r.taskId ≠ s.taskId := by
      intro same
      obtain ⟨l, hl, written, free⟩ := id first
      obtain ⟨m, hm, written', free'⟩ := id second
      obtain ⟨n, session⟩ := written.exists_ofSession free
      obtain ⟨n', session'⟩ := written'.exists_ofSession free'
      rw [written.taskId session, written'.taskId session'] at same
      obtain ⟨kind, rfl⟩ := ResolveCall.sessionName_inj.mp same
      by_cases apart : a = b
      · -- One lifetime gives a name to one session only.
        subst apart
        obtain rfl : l = m := Option.some_inj.mp (hl.symm.trans hm)
        rcases Lifetime.eq_or_partners written written' session session' with rfl | partners
        · exact other rfl
        · exact unjoined ⟨rfl, partners⟩
      · exact numbered a i c r b j d s first second apart l hl m hm n session session' kind
    exact ⟨different, separateTasks_of_ne first.mem_ledgerOf second.mem_ledgerOf different⟩

end Lifetimes

section Cases

attribute [local instance] exactProduct acceptingParsers

/-- A lifetime that relays one request, which declares nothing. -/
def oneConversation (messages : List (List UInt8)) : Lifetime where
  cfg := ⟨sampleUpstream, none, true, false⟩
  appends := rfl
  events := [
    .arrive { sampleRequest none false with headers := fun _ => none, messages := messages },
    .turn 0 (.go 1), .turn 0 (.go 1), .turn 0 (.go 1), .turn 0 (.upstream 200 2),
    .turn 0 (.metered (.out 5) true 3)]

/-- A proxy that is started again gives an unrelated conversation the name of the first one. -/
theorem not_neverShared_restarted :
    ¬ NeverShared [oneConversation [[1], [2]], oneConversation [[3], [4]]] := by
  intro never
  let r := Record.fromFinish (.undeclared "inferred-000001" (.inferred 0)) (.out 5) false 1 3
  have first : Filed [oneConversation [[1], [2]], oneConversation [[3], [4]]] 0 0
      ⟨fun _ => none, some [[1], [2]]⟩ r :=
    ⟨_, rfl, ⟨by decide +kernel, _, rfl, rfl⟩, rfl⟩
  have second : Filed [oneConversation [[1], [2]], oneConversation [[3], [4]]] 1 0
      ⟨fun _ => none, some [[3], [4]]⟩ r :=
    ⟨_, rfl, ⟨by decide +kernel, _, rfl, rfl⟩, rfl⟩
  have apart := never 0 0 _ r 1 0 _ r first second (by decide) fun joined =>
    absurd joined.1 (by decide)
  exact apart.1 rfl

end Cases

end Tailfin
