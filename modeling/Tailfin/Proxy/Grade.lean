import Tailfin.Ledger.Stamp
import Tailfin.Proxy.Observe

/-!
# Which ledgers get a stamp

A record says how its request's identity was found. Over all that proxies append to a ledger, a
stamp is given exactly where every request that was finished had declared its session.
-/

namespace Tailfin

theorem IdentitySource.one_le_confidence_iff (s : IdentitySource) :
    1 ≤ s.confidence ↔ s.isDeclared = true := by
  cases s with
  | declared => exact iff_of_true (le_refl _) rfl
  | inferred depth =>
    refine iff_of_false (not_le.mpr ?_) Bool.noConfusion
    exact max_lt (by norm_num) (min_lt_of_left_lt (by norm_num))
  | anonymous => exact iff_of_false (by decide) Bool.noConfusion

namespace Proxy

variable {p : Proxy} {i j : Nat} {c : Call} {r : Record}

theorem finishLocked_confidence (p : Proxy) (ref : NodeRef) (usage : Usage) (complete : Bool)
    (captureId : Option String) (now : Nat) :
    (p.finishLocked ref usage complete captureId now).2.confidence = ref.source.confidence := by
  cases captureId <;> rfl

/-- The record of a call has the confidence of the identity that the call goes on with. -/
theorem confidence_close {ref : NodeRef} {usage : Usage} {complete : Bool}
    {captureId : Option String} {now : Nat} {answer : Option Answer}
    (h : .finished j r ∈ (p.close i ref usage complete captureId now answer).2) :
    j = i ∧ r.confidence = ref.source.confidence := by
  rcases List.mem_cons.mp h with same | last
  · obtain ⟨rfl, rfl⟩ := Effect.finished.inj same
    exact ⟨rfl, p.finishLocked_confidence ref usage complete captureId now⟩
  · obtain ⟨a, -, other⟩ := Option.map_eq_some_iff.mp (Option.mem_toList.mp last)
    cases other

theorem confidence_turn [FloatProduct] [HttpLibrary] {t : Turn}
    (h : .finished j r ∈ (p.turn i c t).2) :
    j = i ∧ ∃ ref, c.phase.ref = some ref ∧ r.confidence = ref.source.confidence := by
  have out := p.turn_outcome i c t
  generalize p.turn i c t = result at out h
  obtain ⟨req, phase⟩ := c
  have closed {ref usage complete captureId now answer} (holds : phase.ref = some ref)
      (h : .finished j r ∈ (p.close i ref usage complete captureId now answer).2) :
      j = i ∧ ∃ ref, phase.ref = some ref ∧ r.confidence = ref.source.confidence := by
    obtain ⟨same, confidence⟩ := confidence_close h
    exact ⟨same, ref, holds, confidence⟩
  cases out with
  | idle | identified | unheard | stopping | cancelled => cases h
  | unreadable | begun => cases List.mem_singleton.mp h
  | sent =>
    unfold Proxy.send at h
    split at h <;> cases List.mem_singleton.mp h
  | answered ref captureId status now at_ =>
    cases at_
    unfold upstreamAnswered at h
    split at h
    · exact closed rfl h
    · cases List.mem_singleton.mp h
  | failed ref captureId now at_ =>
    cases at_
    unfold upstreamFailed at h
    split at h
    · cases List.mem_singleton.mp h
    · exact closed rfl h
  | stopped ref style now at_ =>
    cases at_
    exact closed rfl h
  | metered ref captureId usage complete now at_ =>
    cases at_
    exact closed rfl h
  | downgraded ref captureId now at_ =>
    cases at_
    exact closed rfl h

variable [FloatProduct] [HttpLibrary]

/-- What is written down of a call says whether its request declared itself. -/
structure Grades (p : Proxy) (fx : List Effect) : Prop where
  knows : p.KnowsDeclared
  written : ∀ i r, .finished i r ∈ fx → ∃ c, p.calls[i]? = some c ∧
    (1 ≤ r.confidence ↔ (fromHeaders c.req.headers).isSome = true)

omit [FloatProduct] [HttpLibrary] in
/-- A call keeps its request. -/
theorem Passage.keeps_req {p' : Proxy} {fx : List Effect} {more : Option (Nat × ResolveCall)}
    (passage : Passage p p' fx more) (here : p.calls[i]? = some c) :
    ∃ c', p'.calls[i]? = some c' ∧ c'.req = c.req := by
  have set {k : Nat} {d : Call} {phase : Phase} (there : p.calls[k]? = some d)
      (calls : p'.calls = p.calls.set k ⟨d.req, phase⟩) :
      ∃ c', p'.calls[i]? = some c' ∧ c'.req = c.req := by
    by_cases same : k = i
    · subst same
      obtain rfl := Option.some.inj (there.symm.trans here)
      obtain ⟨bound, -⟩ := List.getElem?_eq_some_iff.mp here
      exact ⟨⟨d.req, phase⟩, by rw [calls, List.getElem?_set_self bound], rfl⟩
    · exact ⟨c, by rw [calls, List.getElem?_set_ne same, here], rfl⟩
  cases passage with
  | still same => exact ⟨c, by rw [same, here], rfl⟩
  | arrived _ _ calls =>
    obtain ⟨bound, -⟩ := List.getElem?_eq_some_iff.mp here
    exact ⟨c, by rw [calls, List.getElem?_append_left bound, here], rfl⟩
  | resolved k d captureId there _ _ calls => exact set there calls
  | moved k d phase there _ calls => exact set there calls

theorem Grades.step {fx : List Effect} (h : p.Grades fx) (e : RelayEvent) :
    (p.step e).1.Grades (fx ++ (p.step e).2) := by
  refine ⟨h.knows.passage (p.passage_step e), fun k r written => ?_⟩
  have graded : ∃ c, p.calls[k]? = some c ∧
      (1 ≤ r.confidence ↔ (fromHeaders c.req.headers).isSome = true) := by
    rcases List.mem_append.mp written with old | new
    · exact h.written k r old
    · cases e with
      | arrive req =>
        simp only [Proxy.step] at new
        split at new
        · cases List.mem_singleton.mp new
        · cases new
      | turn i t =>
        simp only [Proxy.step] at new
        cases here : p.calls[i]? with
        | none =>
          rw [here] at new
          cases new
        | some c =>
          rw [here] at new
          obtain ⟨rfl, ref, holds, confidence⟩ := confidence_turn new
          refine ⟨c, here, ?_⟩
          rw [confidence, ref.source.one_le_confidence_iff, h.knows k c ref here holds]
  obtain ⟨c, here, declared⟩ := graded
  obtain ⟨c', there, same⟩ := (p.passage_step e).keeps_req here
  exact ⟨c', there, same ▸ declared⟩

theorem grades_run (cfg : Config) (es : List RelayEvent) :
    (Runs.final Proxy.step cfg.start es).Grades (effects cfg es) := by
  apply effects_invariant cfg
  · exact fun p fx e h => h.step e
  · obtain ⟨-, calls⟩ := start_ident cfg
    refine ⟨fun i c ref found _ => ?_, fun i r none_ => absurd none_ List.not_mem_nil⟩
    rw [calls] at found
    cases found

end Proxy

section Lifetimes

variable [FloatProduct] [HttpLibrary]

theorem Lifetime.mem_records {l : Lifetime} {r : Record} :
    r ∈ l.records ↔ ∃ i c, l.Writes i c r := by
  constructor
  · intro h
    rw [l.records_eq] at h
    obtain ⟨e, he, made⟩ := List.mem_filterMap.mp h
    cases e with
    | finished i r' =>
      obtain rfl := Option.some.inj made
      obtain ⟨c, here, -⟩ := (Proxy.grades_run l.cfg l.events).written i r' he
      exact ⟨i, c.req.asked, he, c, here, rfl⟩
    | begun | sent | answered => cases made
  · rintro ⟨i, c, h⟩
    exact h.mem_records

/-- The record of a request that declared its session is of that session. -/
def OfDeclared (c : ResolveCall) (r : Record) : Prop :=
  ∃ session node parent, fromHeaders c.headers = some (.declared session node parent) ∧
    r.taskId = session

theorem Lifetime.Writes.graded_iff {l : Lifetime} {i : Nat} {c : ResolveCall} {r : Record}
    (h : l.Writes i c r) : 1 ≤ r.confidence ↔ OfDeclared c r := by
  obtain ⟨finished, call, here, rfl⟩ := id h
  obtain ⟨call', here', graded⟩ := (Proxy.grades_run l.cfg l.events).written i r finished
  obtain rfl := Option.some.inj (here.symm.trans here')
  obtain ⟨j, asked, got, -⟩ := h.asked
  rw [graded]
  constructor
  · intro declared
    rcases SessionIndex.fromHeaders_cases call.req.headers with free | ⟨session, node, parent, own⟩
    · rw [free] at declared
      cases declared
    · rw [SessionIndex.rootAt_of_declared (Proxy.snd_of_getElem? asked) own] at got
      exact ⟨session, node, parent, own, (Option.some.inj got).symm⟩
  · rintro ⟨session, node, parent, own, -⟩
    exact Option.isSome_iff_exists.mpr ⟨_, own⟩

/-- A stamp is given exactly where something was recorded and every recorded request had declared
its session. The tasks that it counts are then these sessions. -/
theorem stamped_iff (ls : List Lifetime) (rates : Option RateCard) :
    (∃ line, formatStamp (ledgerOf ls) rates = .ok line) ↔
      ledgerOf ls ≠ [] ∧ ∀ l ∈ ls, ∀ i c r, l.Writes i c r → OfDeclared c r := by
  have given : (∃ line, formatStamp (ledgerOf ls) rates = .ok line) ↔ Graded (ledgerOf ls) := by
    by_cases graded : Graded (ledgerOf ls)
    · exact iff_of_true ⟨_, formatStamp_graded graded rates⟩ graded
    · rw [formatStamp_refused graded]
      exact iff_of_false (fun ⟨_, made⟩ => nomatch made) graded
  rw [given]
  apply and_congr_right'
  constructor
  · intro all l hl i c r written
    apply written.graded_iff.mp
    exact all r (List.mem_flatMap.mpr ⟨l, hl, written.mem_records⟩)
  · intro all r hr
    obtain ⟨l, hl, made⟩ := List.mem_flatMap.mp hr
    obtain ⟨i, c, written⟩ := Lifetime.mem_records.mp made
    exact written.graded_iff.mpr (all l hl i c r written)

end Lifetimes

end Tailfin
