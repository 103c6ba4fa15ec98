import Mathlib.Data.List.Nodup
import Tailfin.Tree.Spend
import Tailfin.Tree.Seals

/-!
# Overshoot

A request begins, asks to be admitted, is relayed if it may pass and finishes with whatever it
cost, or is denied and finishes with nothing; many requests interleave, at most one relayed at a
node at a time. What the task has spent beyond its ceiling is then at most the dearest request
of each node, as long as no node that already went past the ceiling is given the last request.
-/

namespace Tailfin

/-- The requests of one task. `overshot` lists the nodes at which a relayed request finished with
the ceiling reached, `finished` every finish with its node and usage. -/
structure InFlight where
  task : Task
  /-- Begun, not yet admitted. -/
  asking : List NodeRef
  /-- Admitted, its response still to come. -/
  relayed : List NodeRef
  denied : List NodeRef
  finished : List (String × Usage)
  overshot : List String

inductive FuseEvent where
  | begin (ref : NodeRef) (label : Option String)
  | admitAt (ref : NodeRef)
  | finish (ref : NodeRef) (usage : Usage) (complete : Bool)
  /-- A denied request finishes without having used anything. -/
  | dismiss (ref : NodeRef) (complete : Bool)
  deriving DecidableEq, Repr

/-- The call a request makes on its task. -/
def FuseEvent.call : FuseEvent → TaskEvent
  | .begin ref label => .begin ref label
  | .admitAt ref => .admitAt ref
  | .finish ref usage complete => .finish ref usage complete
  | .dismiss ref complete => .finish ref default complete

namespace InFlight

def start (root : String) (ceiling : UInt64) (share : Option ℚ) : InFlight :=
  ⟨.budgeted root ceiling share, [], [], [], [], []⟩

/-- The cost of the dearest request finished at a node, rounded up to a micro-dollar. -/
def worstAt (rates : RateCard) (s : InFlight) (k : String) : Nat :=
  s.finished.foldr (fun f worst => if f.1 = k then max (f.2.ceilMicros rates) worst else worst) 0

/-- The documented bound: the ceiling and, for each node of the task, its dearest request. -/
def WithinOvershoot (rates : RateCard) (ceiling : UInt64) (s : InFlight) : Prop :=
  (s.task.spentMicros rates).toNat ≤
    ceiling.toNat + (s.task.order.map (s.worstAt rates)).sum

instance (rates : RateCard) (ceiling : UInt64) (s : InFlight) :
    Decidable (s.WithinOvershoot rates ceiling) :=
  inferInstanceAs (Decidable (_ ≤ _))

/-- The order of one request's calls, and at most one relayed request at a node. -/
def Enabled (rates : RateCard) (s : InFlight) : FuseEvent → Prop
  | .begin _ _ => True
  | .admitAt ref => ref ∈ s.asking ∧
      ((s.task.admitAt ref rates).1.passes = true → ∀ r ∈ s.relayed, r.node ≠ ref.node)
  | .finish ref _ _ => ref ∈ s.relayed
  | .dismiss ref _ => ref ∈ s.denied

instance (rates : RateCard) (s : InFlight) (e : FuseEvent) : Decidable (s.Enabled rates e) := by
  cases e <;> simp only [Enabled] <;> infer_instance

/-- The admission finds the ceiling reached and the task not sealed, so it answers `last`, and a
relayed request of the same node has already finished with the ceiling reached. -/
def SecondOvershoot (rates : RateCard) (ceiling : UInt64) (s : InFlight) (e : FuseEvent) : Prop :=
  ∃ k ∈ e.call.admitted, k ∈ s.overshot ∧ s.task.sealed = false ∧
    ceiling ≤ s.task.spentMicros rates

instance (rates : RateCard) (ceiling : UInt64) (s : InFlight) (e : FuseEvent) :
    Decidable (s.SecondOvershoot rates ceiling e) :=
  inferInstanceAs (Decidable (∃ k ∈ e.call.admitted, _))

section Steps

variable [FloatProduct]

def step (rates : RateCard) (s : InFlight) (e : FuseEvent) : InFlight × Option Admission :=
  let task := (s.task.step rates e.call).1
  let answer := (s.task.step rates e.call).2
  match e with
  | .begin ref _ => ({ s with task := task, asking := ref :: s.asking }, answer)
  | .admitAt ref =>
    ({ s with
        task := task
        asking := s.asking.erase ref
        relayed := if answer.any Admission.passes then ref :: s.relayed else s.relayed
        denied := if answer.any Admission.passes then s.denied else ref :: s.denied }, answer)
  | .finish ref usage _ =>
    ({ s with
        task := task
        relayed := s.relayed.erase ref
        finished := (ref.node, usage) :: s.finished
        overshot :=
          if task.ceilingMicros.any (· ≤ task.spentMicros rates) then ref.node :: s.overshot
          else s.overshot }, answer)
  | .dismiss ref _ =>
    ({ s with
        task := task
        denied := s.denied.erase ref
        finished := (ref.node, default) :: s.finished }, answer)

/-- An orderly step in which no `u64` sum overflows. -/
structure Orderly (rates : RateCard) (s : InFlight) (e : FuseEvent) : Prop where
  enabled : s.Enabled rates e
  fits : s.task.NoOverflow rates e.call

instance (rates : RateCard) (s : InFlight) (e : FuseEvent) : Decidable (s.Orderly rates e) :=
  decidable_of_iff (s.Enabled rates e ∧ s.task.NoOverflow rates e.call)
    ⟨fun ⟨enabled, fits⟩ => ⟨enabled, fits⟩, fun ⟨enabled, fits⟩ => ⟨enabled, fits⟩⟩

end Steps

/-! ## The invariant -/

/-- What every reachable state keeps. The overshoot is paid for by the nodes in `overshot`, and
none of these has a request under way. -/
structure Bounded (rates : RateCard) (ceiling : UInt64) (s : InFlight) : Prop where
  ceil : s.task.ceilingMicros = some ceiling
  fits : s.task.Fits rates
  distinct : (s.relayed.map NodeRef.node).Nodup
  away : ∀ r ∈ s.relayed, r.node ∉ s.overshot
  once : s.overshot.Nodup
  stored : ∀ k ∈ s.overshot, k ∈ s.task.order
  under : s.task.exactSpent rates < ceiling.toNat → s.overshot = []
  bound : s.task.exactSpent rates ≤
    ceiling.toNat + (s.overshot.map (s.worstAt rates)).sum

theorem bounded_start (root : String) (ceiling : UInt64) (share : Option ℚ) (rates : RateCard) :
    Bounded rates ceiling (start root ceiling share) where
  ceil := Task.budgeted_ceilingMicros root ceiling share
  fits := Task.fits_budgeted root ceiling share rates
  distinct := List.nodup_nil
  away := by simp [start]
  once := List.nodup_nil
  stored := by simp [start]
  under := fun _ => rfl
  bound := by
    have nothing := Task.exactSpent_eq_zero (Task.usageAt_budgeted root ceiling share) rates
    simp [start, nothing]

theorem worstAt_cons_le (rates : RateCard) (s s' : InFlight) (f : String × Usage)
    (h : s'.finished = f :: s.finished) (k : String) : s.worstAt rates k ≤ s'.worstAt rates k := by
  rw [worstAt, worstAt, h, List.foldr_cons]
  split
  · exact Nat.le_max_right _ _
  · exact Nat.le_refl _

theorem le_worstAt_cons (rates : RateCard) (s s' : InFlight) (f : String × Usage)
    (h : s'.finished = f :: s.finished) : f.2.ceilMicros rates ≤ s'.worstAt rates f.1 := by
  rw [worstAt, h, List.foldr_cons, if_pos rfl]
  exact Nat.le_max_left _ _

theorem sum_worstAt_le {rates : RateCard} {s s' : InFlight}
    (h : ∀ k, s.worstAt rates k ≤ s'.worstAt rates k) (ks : List String) :
    (ks.map (s.worstAt rates)).sum ≤ (ks.map (s'.worstAt rates)).sum := by
  induction ks with
  | nil => exact Nat.le_refl _
  | cons k ks ih =>
    simp only [List.map_cons, List.sum_cons]
    have here := h k
    omega

section Run

variable [FloatProduct] {rates : RateCard} {ceiling : UInt64} {s s' : InFlight}

omit [FloatProduct] in
/-- A call that records no usage keeps the bound, whatever it does to the open requests. -/
theorem Bounded.of_quiet (inv : Bounded rates ceiling s) (grow : s.task.Extends s'.task)
    (same : ∀ k, s'.task.usageAt k = s.task.usageAt k) (finished : s'.finished = s.finished)
    (overshot : s'.overshot = s.overshot) (distinct : (s'.relayed.map NodeRef.node).Nodup)
    (away : ∀ r ∈ s'.relayed, r.node ∉ s.overshot) : Bounded rates ceiling s' := by
  have spent := Task.exactSpent_congr rates same
  have worst : s'.worstAt rates = s.worstAt rates := by
    funext k
    rw [worstAt, worstAt, finished]
  refine ⟨grow.ceilingMicros.trans inv.ceil, Task.fits_of_usageAt same inv.fits, distinct,
    overshot ▸ away, overshot ▸ inv.once, ?_, ?_, ?_⟩
  · rw [overshot]
    exact fun k hk => grow.mem_order (inv.stored k hk)
  · rw [spent, overshot]
    exact inv.under
  · rw [spent, overshot, worst]
    exact inv.bound

theorem bounded_begin (inv : Bounded rates ceiling s) (ref : NodeRef) (label : Option String) :
    Bounded rates ceiling (s.step rates (.begin ref label)).1 :=
  inv.of_quiet (s.task.extends_begin ref label) (Task.usageAt_begin _ _ _) rfl rfl inv.distinct
    inv.away

omit [FloatProduct] in
/-- An admission that passes at a node past the ceiling finds the ceiling reached. -/
theorem notMem_overshot_of_passes (inv : Bounded rates ceiling s) {ref : NodeRef}
    (passes : (s.task.admitAt ref rates).1.passes = true)
    (calm : ¬ s.SecondOvershoot rates ceiling (.admitAt ref)) : ref.node ∉ s.overshot := by
  have below : s.task.spentMicros rates < ceiling → ref.node ∉ s.overshot := by
    intro under
    rw [UInt64.lt_iff_toNat_lt, Task.spentMicros_toNat inv.fits] at under
    rw [inv.under under]
    exact List.not_mem_nil
  have outcome := Task.admitAt_outcome ref rates inv.ceil
  generalize s.task.admitAt ref rates = result at outcome passes
  cases outcome with
  | taskSealed => cases passes
  | taskLast unsealed reached => exact fun past => calm ⟨ref.node, rfl, past, unsealed, reached⟩
  | nodeSealed => cases passes
  | nodeLast _ under => exact below under
  | allowed _ under => exact below under

theorem bounded_admit (inv : Bounded rates ceiling s) {ref : NodeRef}
    (enabled : s.Enabled rates (.admitAt ref))
    (calm : ¬ s.SecondOvershoot rates ceiling (.admitAt ref)) :
    Bounded rates ceiling (s.step rates (.admitAt ref)).1 := by
  have grow : s.task.Extends (s.step rates (.admitAt ref)).1.task :=
    Task.extends_admitAt ref rates inv.ceil
  have same : ∀ k, (s.step rates (.admitAt ref)).1.task.usageAt k = s.task.usageAt k :=
    Task.usageAt_admitAt _ ref rates
  by_cases passes : (s.task.admitAt ref rates).1.passes = true
  · have relayed : (s.step rates (.admitAt ref)).1.relayed = ref :: s.relayed := if_pos passes
    refine inv.of_quiet grow same rfl rfl ?_ ?_ <;> rw [relayed]
    · refine List.nodup_cons.mpr ⟨?_, inv.distinct⟩
      intro open_
      obtain ⟨r, hr, same⟩ := List.mem_map.mp open_
      exact enabled.2 passes r hr same
    · intro r hr
      rcases List.mem_cons.mp hr with rfl | hr
      · exact notMem_overshot_of_passes inv passes calm
      · exact inv.away r hr
  · have relayed : (s.step rates (.admitAt ref)).1.relayed = s.relayed := if_neg passes
    refine inv.of_quiet grow same rfl rfl ?_ ?_ <;> rw [relayed]
    · exact inv.distinct
    · exact inv.away

/-- What a finish does to the spend of the task. -/
theorem exactSpent_step_finish {ref : NodeRef} {usage : Usage} {complete : Bool}
    (fits : s.task.NoOverflow rates (.finish ref usage complete)) :
    s.task.exactSpent rates ≤ (s.task.finish ref usage complete).exactSpent rates ∧
      (s.task.finish ref usage complete).exactSpent rates ≤
        s.task.exactSpent rates + usage.ceilMicros rates :=
  ⟨Task.exactSpent_le_step fits, Task.exactSpent_finish_le fits.1 rates complete⟩

theorem bounded_dismiss (inv : Bounded rates ceiling s) {ref : NodeRef} {complete : Bool}
    (fits : s.task.NoOverflow rates (.finish ref default complete)) :
    Bounded rates ceiling (s.step rates (.dismiss ref complete)).1 := by
  obtain ⟨more, less⟩ := exactSpent_step_finish fits
  have grow := s.task.extends_finish ref default complete
  have worst := sum_worstAt_le (worstAt_cons_le rates s (s.step rates (.dismiss ref complete)).1
    (ref.node, default) rfl) s.overshot
  have bound := inv.bound
  rw [Usage.ceilMicros_default] at less
  refine ⟨grow.ceilingMicros.trans inv.ceil, Task.fits_step fits inv.fits, inv.distinct,
    inv.away, inv.once, fun k hk => grow.mem_order (inv.stored k hk), ?_, ?_⟩
  · intro under
    exact inv.under (Nat.lt_of_le_of_lt more under)
  · show (s.task.finish ref default complete).exactSpent rates ≤
      ceiling.toNat + (s.overshot.map _).sum
    omega

omit [FloatProduct] in
/-- The node of a finishing request has no other request under way. -/
theorem node_ne_of_mem_erase (distinct : (s.relayed.map NodeRef.node).Nodup) {ref r : NodeRef}
    (enabled : ref ∈ s.relayed) (hr : r ∈ s.relayed.erase ref) : r.node ≠ ref.node := by
  have other := (List.Nodup.mem_erase_iff (List.Nodup.of_map _ distinct)).mp hr
  exact fun same => other.1 (List.inj_on_of_nodup_map distinct other.2 enabled same)

theorem overshot_finish (rates : RateCard) {ref : NodeRef} {usage : Usage} {complete : Bool}
    (ceil : (s.task.finish ref usage complete).ceilingMicros = some ceiling) :
    (s.step rates (.finish ref usage complete)).1.overshot =
      if ceiling ≤ (s.task.finish ref usage complete).spentMicros rates then
        ref.node :: s.overshot
      else s.overshot := by
  have said : (s.task.finish ref usage complete).ceilingMicros.any
      (· ≤ (s.task.finish ref usage complete).spentMicros rates) =
      decide (ceiling ≤ (s.task.finish ref usage complete).spentMicros rates) := by
    rw [ceil, Option.any_some]
  by_cases reached : ceiling ≤ (s.task.finish ref usage complete).spentMicros rates
  · rw [if_pos reached]
    exact if_pos (said.trans (decide_eq_true reached))
  · rw [if_neg reached]
    exact if_neg fun h => reached (of_decide_eq_true (said.symm.trans h))

theorem bounded_finish (inv : Bounded rates ceiling s) {ref : NodeRef} {usage : Usage}
    {complete : Bool} (enabled : ref ∈ s.relayed)
    (fits : s.task.NoOverflow rates (.finish ref usage complete)) :
    Bounded rates ceiling (s.step rates (.finish ref usage complete)).1 := by
  obtain ⟨more, less⟩ := exactSpent_step_finish fits
  have grow := s.task.extends_finish ref usage complete
  have fits' := Task.fits_step fits inv.fits
  have here := s.task.mem_order_finish ref usage complete
  have crossed := overshot_finish rates (grow.ceilingMicros.trans inv.ceil)
  have spent := Task.spentMicros_toNat fits'
  have relayed : (s.step rates (.finish ref usage complete)).1.relayed = s.relayed.erase ref := rfl
  have finished : (s.step rates (.finish ref usage complete)).1.finished =
    (ref.node, usage) :: s.finished := rfl
  have task : (s.step rates (.finish ref usage complete)).1.task =
    s.task.finish ref usage complete := rfl
  simp only [Task.step] at fits' spent
  generalize s.task.finish ref usage complete = t at *
  generalize (s.step rates (.finish ref usage complete)).1 = s' at *
  subst task
  have worst := sum_worstAt_le (worstAt_cons_le rates s s' _ finished) s.overshot
  have dear : usage.ceilMicros rates ≤ s'.worstAt rates ref.node :=
    le_worstAt_cons rates s s' (ref.node, usage) finished
  have bound := inv.bound
  have distinct : (s'.relayed.map NodeRef.node).Nodup := by
    rw [relayed]
    exact inv.distinct.sublist (List.Sublist.map _ (List.erase_sublist ..))
  simp only [UInt64.le_iff_toNat_le, spent] at crossed
  by_cases reached : ceiling.toNat ≤ s'.task.exactSpent rates
  · rw [if_pos reached] at crossed
    refine ⟨grow.ceilingMicros.trans inv.ceil, fits', distinct, ?_, ?_, ?_, ?_, ?_⟩
    · rw [crossed, relayed]
      intro r hr past
      rcases List.mem_cons.mp past with same | past
      · exact node_ne_of_mem_erase inv.distinct enabled hr same
      · exact inv.away r (List.mem_of_mem_erase hr) past
    · rw [crossed]
      exact List.nodup_cons.mpr ⟨inv.away ref enabled, inv.once⟩
    · rw [crossed]
      intro k hk
      rcases List.mem_cons.mp hk with rfl | hk
      · exact here
      · exact grow.mem_order (inv.stored k hk)
    · intro under
      exact absurd under (Nat.not_lt.mpr reached)
    · rw [crossed, List.map_cons, List.sum_cons]
      omega
  · -- Below the ceiling nothing has overshot yet.
    rw [if_neg reached, inv.under (Nat.lt_of_le_of_lt more (Nat.lt_of_not_le reached))] at crossed
    refine ⟨grow.ceilingMicros.trans inv.ceil, fits', distinct, ?_, ?_, ?_, fun _ => crossed, ?_⟩
    · simp [crossed]
    · simp [crossed]
    · simp [crossed]
    · rw [crossed]
      omega

theorem bounded_step (inv : Bounded rates ceiling s) {e : FuseEvent}
    (orderly : s.Orderly rates e) (calm : ¬ s.SecondOvershoot rates ceiling e) :
    Bounded rates ceiling (s.step rates e).1 := by
  cases e with
  | begin ref label => exact bounded_begin inv ref label
  | admitAt ref => exact bounded_admit inv orderly.enabled calm
  | finish ref usage complete => exact bounded_finish inv orderly.enabled orderly.fits
  | dismiss ref complete => exact bounded_dismiss inv orderly.fits

omit [FloatProduct] in
/-- A sum over distinct keys is at most the sum over all keys. -/
theorem sum_worstAt_le_order (inv : Bounded rates ceiling s) :
    (s.overshot.map (s.worstAt rates)).sum ≤ (s.task.order.map (s.worstAt rates)).sum := by
  rw [← List.sum_toFinset _ inv.once, ← List.sum_toFinset _ s.task.order_nodup]
  apply Finset.sum_le_sum_of_subset
  intro k hk
  exact List.mem_toFinset.mpr (inv.stored k (List.mem_toFinset.mp hk))

/-- While no node that went past the ceiling is given the last request, the task overshoots its
ceiling by at most the dearest request of each node. -/
theorem spentMicros_le_of_noSecondOvershoot (root : String) (ceiling : UInt64)
    (share : Option ℚ) (rates : RateCard) (es : List FuseEvent)
    (orderly : Runs.Steps (step rates) (Orderly rates) (start root ceiling share) es)
    (calm : Runs.Steps (step rates) (fun s e => ¬ s.SecondOvershoot rates ceiling e)
      (start root ceiling share) es) :
    (Runs.final (step rates) (start root ceiling share) es).WithinOvershoot rates ceiling := by
  have run : Runs.Steps (step rates)
      (fun s e => s.Orderly rates e ∧ ¬ s.SecondOvershoot rates ceiling e)
      (start root ceiling share) es := fun x hx => ⟨orderly x hx, calm x hx⟩
  set s := Runs.final (step rates) (start root ceiling share) es
  have inv : Bounded rates ceiling s :=
    Runs.final_invariant (I := Bounded rates ceiling)
      (fun _ _ inv step => bounded_step inv step.1 step.2)
      (bounded_start root ceiling share rates) run
  rw [WithinOvershoot, Task.spentMicros_toNat inv.fits]
  exact inv.bound.trans (Nat.add_le_add_left (sum_worstAt_le_order inv) _)

end Run

section Cases

attribute [local instance] exactProduct

/-- Two requests of one node go past the ceiling of 100, then a third is let through as the last
one, each costing about half the ceiling. -/
def threePastCeiling : List FuseEvent :=
  let main := .declared "s" none none
  [.begin main none, .admitAt main, .finish main (.out 50) true,
    .begin main none, .admitAt main, .finish main (.out 49) true,
    .begin main none, .admitAt main, .finish main (.out 50) true,
    .begin main none, .admitAt main, .finish main (.out 50) true]

theorem not_withinOvershoot_threePastCeiling :
    Runs.Steps (step .perToken) (Orderly .perToken) (start "s" 100 none) threePastCeiling ∧
      ¬ (Runs.final (step .perToken) (start "s" 100 none) threePastCeiling).WithinOvershoot
        .perToken 100 := by
  decide +kernel

/-- Two branches cross the ceiling together, and the main thread gets the last request. -/
def twoBranchesCross : List FuseEvent :=
  let main := .declared "s" none none
  let a := .declared "s" (some "a") none
  let b := .declared "s" (some "b") none
  [.begin a none, .begin b none, .admitAt a, .admitAt b, .finish a (.out 90) true,
    .finish b (.out 70) true, .begin main none, .admitAt main, .begin a none, .admitAt a,
    .finish main (.out 30) false, .dismiss a true]

theorem spentMicros_le_twoBranchesCross :
    (Runs.final (step .perToken) (start "s" 100 none) twoBranchesCross).WithinOvershoot
      .perToken 100 :=
  spentMicros_le_of_noSecondOvershoot "s" 100 none .perToken twoBranchesCross
    (by decide +kernel) (by decide +kernel)

end Cases

end InFlight

end Tailfin
