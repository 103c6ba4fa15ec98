import Tailfin.Tree.Spend

/-!
# The two seals

A task is sealed by its root ceiling, a node by its voucher. Once the spend of a task has
reached the ceiling, at most one more request gets through, and whatever is denied had reached
its cap. A node that was refused stays refused, except where the root ceiling is crossed while
the node is sealed and the task is not.
-/

namespace Tailfin

/-- The request is not stopped. -/
def Admission.passes : Admission → Bool
  | .deny _ _ => false
  | _ => true

/-- The request is the last one, or stopped. -/
def Admission.refuses : Admission → Bool
  | .allow => false
  | _ => true

namespace Task

section Runs

variable [FloatProduct] {rates : RateCard} {t : Task} {ceiling : UInt64}

/-! ## What a step does to the seals -/

/-- Only an admission over the root ceiling seals the task. -/
theorem sealed_step (ceil : t.ceilingMicros = some ceiling) {e : TaskEvent}
    (shut : (t.step rates e).1.sealed = true) :
    t.sealed = true ∨ ceiling ≤ t.spentMicros rates := by
  cases e with
  | begin ref label => exact .inl (by simpa [step] using shut)
  | finish ref usage complete => exact .inl (by simpa [step] using shut)
  | admitAt ref =>
    have outcome := admitAt_outcome ref rates ceil
    simp only [step] at shut
    generalize t.admitAt ref rates = result at outcome shut
    cases outcome with
    | taskSealed h => exact .inl h
    | taskLast _ reached => exact .inr reached
    | nodeSealed => exact .inl shut
    | nodeLast => exact .inl (by simpa using shut)
    | allowed => exact .inl shut

/-- Only an admission over the node's voucher, answered `last`, seals a node. -/
theorem nodeSealed_step (ceil : t.ceilingMicros = some ceiling) {e : TaskEvent} {k : String}
    (shut : (t.step rates e).1.nodeSealed k = true) :
    t.nodeSealed k = true ∨
      ∃ ref, e = .admitAt ref ∧ ref.node = k ∧ (t.step rates e).2 = some .last ∧
        t.spentMicros rates < ceiling ∧ (t.voucherOf k).isSome ∧
        t.allowanceOf k ≤ t.subtreeSpentMicros k rates := by
  cases e with
  | begin ref label =>
    have same : (t.begin ref label).nodeSealed k = t.nodeSealed k :=
      (readAt_mintVoucher _ ref k fun _ _ => rfl).trans
        (readAt_ensure t _ _ _ k (fun _ _ => rfl) fun _ => rfl)
    exact .inl (same.symm.trans shut)
  | finish ref usage complete =>
    have same : (t.finish ref usage complete).nodeSealed k = t.nodeSealed k :=
      (readAt_modifyNode _ ref.node (.record usage complete) _ (fun _ => rfl) k).trans
        (readAt_ensure t _ _ _ k (fun _ _ => rfl) fun _ => rfl)
    exact .inl (same.symm.trans shut)
  | admitAt ref =>
    have outcome := admitAt_outcome ref rates ceil
    simp only [step] at shut ⊢
    generalize t.admitAt ref rates = result at outcome shut
    cases outcome with
    | taskSealed => exact .inl shut
    | taskLast => exact .inl shut
    | nodeSealed => exact .inl shut
    | nodeLast _ under _ held reached =>
      by_cases here : k = ref.node
      · subst here
        exact .inr ⟨ref, rfl, rfl, rfl, under, held, reached⟩
      · simp only [nodeSealed] at shut
        rw [modifyNode_lookup, if_neg here] at shut
        exact .inl shut
    | allowed => exact .inl shut

theorem ceilingMicros_step (ceil : t.ceilingMicros = some ceiling) (e : TaskEvent) :
    (t.step rates e).1.ceilingMicros = some ceiling :=
  (extends_step rates ceil e).ceilingMicros.trans ceil

theorem ceilingMicros_final (rates : RateCard) (ceil : t.ceilingMicros = some ceiling)
    (es : List TaskEvent) :
    (Runs.final (step rates) t es).ceilingMicros = some ceiling := by
  induction es generalizing t with
  | nil => exact ceil
  | cons e es ih => exact ih (ceilingMicros_step ceil e)

/-! ## Denials are justified -/

/-- Whatever is sealed has reached its cap. -/
structure Justified (rates : RateCard) (ceiling : UInt64) (t : Task) : Prop where
  ceil : t.ceilingMicros = some ceiling
  fits : t.Fits rates
  task : t.sealed = true → ceiling.toNat ≤ t.exactSpent rates
  node : ∀ k, t.nodeSealed k = true →
    ∃ a, t.voucherOf k = some a ∧ a.toNat ≤ t.exactSubtreeSpent k rates

omit [FloatProduct] in
theorem allowanceOf_of_voucherOf {t : Task} {k : String} {a : UInt64}
    (h : t.voucherOf k = some a) : t.allowanceOf k = a := by
  simp [allowanceOf, h]

omit [FloatProduct] in
theorem nodeSealed_budgeted (root : String) (ceiling : UInt64) (share : Option ℚ) (k : String) :
    (budgeted root ceiling share).nodeSealed k = false := by
  rw [nodeSealed, budgeted_lookup]
  split <;> rfl

omit [FloatProduct] in
theorem justified_budgeted (root : String) (ceiling : UInt64) (share : Option ℚ)
    (rates : RateCard) : Justified rates ceiling (budgeted root ceiling share) := by
  refine ⟨budgeted_ceilingMicros _ _ _, fits_budgeted _ _ _ _, ?_, ?_⟩
  · intro shut
    simp at shut
  · intro k shut
    rw [nodeSealed_budgeted] at shut
    cases shut

theorem justified_step {e : TaskEvent} (inv : Justified rates ceiling t)
    (step : t.NoOverflow rates e) : Justified rates ceiling (t.step rates e).1 := by
  have grow := extends_step rates inv.ceil e
  refine ⟨ceilingMicros_step inv.ceil e, fits_step step inv.fits, ?_, ?_⟩
  · intro shut
    have before : ceiling.toNat ≤ t.exactSpent rates := by
      rcases sealed_step inv.ceil shut with h | h
      · exact inv.task h
      · rwa [UInt64.le_iff_toNat_le, spentMicros_toNat inv.fits] at h
    exact before.trans (exactSpent_le_step step)
  · intro k shut
    have before : ∃ a, t.voucherOf k = some a ∧ a.toNat ≤ t.exactSubtreeSpent k rates := by
      rcases nodeSealed_step inv.ceil shut with h | ⟨ref, -, -, -, -, held, reached⟩
      · exact inv.node k h
      · obtain ⟨a, ha⟩ := Option.isSome_iff_exists.mp held
        rw [allowanceOf_of_voucherOf ha, UInt64.le_iff_toNat_le,
          subtreeSpentMicros_toNat inv.fits] at reached
        exact ⟨a, ha, reached⟩
    obtain ⟨a, ha, reached⟩ := before
    -- The voucher stays, and the subtree below it only grows.
    exact ⟨a, grow.voucherOf ha,
      reached.trans (exactSubtreeSpent_le grow (exactMicros_le_step step) k)⟩

omit [FloatProduct] in
theorem le_of_deny (inv : Justified rates ceiling t) {ref : NodeRef} {spent cap : UInt64}
    (denied : (t.admitAt ref rates).1 = .deny spent cap) : cap ≤ spent := by
  have outcome := admitAt_outcome ref rates inv.ceil
  generalize t.admitAt ref rates = result at outcome denied
  cases outcome with
  | taskSealed shut =>
    cases denied
    rw [UInt64.le_iff_toNat_le, spentMicros_toNat inv.fits]
    exact inv.task shut
  | nodeSealed _ _ shut =>
    cases denied
    obtain ⟨a, ha, reached⟩ := inv.node _ shut
    rw [allowanceOf_of_voucherOf ha, UInt64.le_iff_toNat_le, subtreeSpentMicros_toNat inv.fits]
    exact reached
  | taskLast => cases denied
  | nodeLast => cases denied
  | allowed => cases denied

/-! ## The seal is absorbing -/

/-- What the admissions of a run returned, denials left out. -/
def passed (rates : RateCard) (t : Task) (es : List TaskEvent) : List Admission :=
  ((Runs.trace (step rates) t es).filterMap fun x => x.output).filter Admission.passes

theorem passed_cons (e : TaskEvent) (es : List TaskEvent) :
    t.passed rates (e :: es) =
      (t.step rates e).2.toList.filter Admission.passes ++ (t.step rates e).1.passed rates es := by
  simp only [passed, Runs.trace_cons, List.filterMap_cons, Runs.entry_output]
  cases (t.step rates e).2 <;> simp [List.filter_cons]
  split <;> simp

theorem passed_of_sealed (ceil : t.ceilingMicros = some ceiling) (shut : t.sealed = true)
    (es : List TaskEvent) : t.passed rates es = [] := by
  induction es generalizing t with
  | nil => rfl
  | cons e es ih =>
    have stopped : (t.step rates e).2.toList.filter Admission.passes = [] := by
      cases e with
      | begin => rfl
      | finish => rfl
      | admitAt ref =>
        have deny : t.admitAt ref rates = (.deny (t.spentMicros rates) ceiling, t) := by
          rw [admitAt, admit_of_sealed rates ceil shut]
        simp [step, deny, Admission.passes]
    rw [passed_cons, stopped, List.nil_append]
    exact ih (ceilingMicros_step ceil e) ((extends_step rates ceil e).sealed shut)

/-- Once the ceiling is reached, the first admission seals the task. -/
theorem passed_of_reached (ceil : t.ceilingMicros = some ceiling) (fits : t.Fits rates)
    (reached : ceiling.toNat ≤ t.exactSpent rates) {es : List TaskEvent}
    (steps : Runs.Steps (step rates) (NoOverflow rates) t es) :
    t.passed rates es = [] ∨ t.passed rates es = [.last] := by
  induction es generalizing t with
  | nil => exact .inl rfl
  | cons e es ih =>
    obtain ⟨first, rest⟩ := Runs.steps_cons.mp steps
    have on := ih (ceilingMicros_step ceil e) (fits_step first fits)
      (reached.trans (exactSpent_le_step first)) rest
    rw [passed_cons]
    cases shut : t.sealed with
    | true =>
      rw [← passed_cons]
      exact .inl (passed_of_sealed ceil shut _)
    | false =>
      cases e with
      | begin => exact on
      | finish => exact on
      | admitAt ref =>
        have spent : ceiling ≤ t.spentMicros rates := by
          rw [UInt64.le_iff_toNat_le, spentMicros_toNat fits]
          exact reached
        have last : t.admitAt ref rates = (.last, { t with sealed := true }) := by
          rw [admitAt, admit_of_reached rates ceil shut spent]
        have nothing : ({ t with sealed := true } : Task).passed rates es = [] :=
          passed_of_sealed (t := { t with sealed := true }) ceil rfl es
        right
        simp only [step, last, nothing]
        rfl

/-- From the first state in which the spend has reached the ceiling on, at most one admission is
not a denial, and that one is `last`; and every denial of the run carries a spend that reached
its cap. -/
theorem admission_after_ceiling (root : String) (ceiling : UInt64) (share : Option ℚ)
    (rates : RateCard) (es : List TaskEvent)
    (fits : Runs.Steps (step rates) (NoOverflow rates) (budgeted root ceiling share) es) :
    (∀ pre post, es = pre ++ post →
      ceiling ≤ (Runs.final (step rates) (budgeted root ceiling share) pre).spentMicros rates →
      passed rates (Runs.final (step rates) (budgeted root ceiling share) pre) post = [] ∨
        passed rates (Runs.final (step rates) (budgeted root ceiling share) pre) post =
          [.last]) ∧
    ∀ x ∈ Runs.trace (step rates) (budgeted root ceiling share) es, ∀ spent cap,
      x.output = some (.deny spent cap) → cap ≤ spent := by
  have start := justified_budgeted root ceiling share rates
  have keep : ∀ t e, Justified rates ceiling t → NoOverflow rates t e →
      Justified rates ceiling (step rates t e).1 := fun _ _ => justified_step
  refine ⟨?_, ?_⟩
  · rintro pre post rfl reached
    obtain ⟨before, after⟩ := Runs.steps_append.mp fits
    have inv := Runs.final_invariant keep start before
    rw [UInt64.le_iff_toNat_le, spentMicros_toNat inv.fits] at reached
    exact passed_of_reached inv.ceil inv.fits reached after
  · intro x hx spent cap denied
    obtain ⟨inv, -, made⟩ := Runs.trace_invariant keep start fits x hx
    rw [made] at denied
    cases event : x.event with
    | begin ref label => simp [event, step] at denied
    | finish ref usage complete => simp [event, step] at denied
    | admitAt ref =>
      rw [event] at denied
      exact le_of_deny inv (Option.some.inj denied)

/-! ## A refused node -/

/-- The node is sealed, the task is not, and the spend has reached the root ceiling: an admission
at the node answers `last` once more. -/
def Relapses (rates : RateCard) (ceiling : UInt64) (t : Task) (e : TaskEvent) : Prop :=
  ∃ k ∈ e.admitted, t.nodeSealed k = true ∧ t.sealed = false ∧ ceiling ≤ t.spentMicros rates

/-- If `x` refused a request at a node, an admission `y` at that node is a denial. -/
def StaysRefused (x y : Runs.Entry Task TaskEvent (Option Admission)) : Prop :=
  ∀ k ∈ x.event.admitted, k ∈ y.event.admitted → x.output.any Admission.refuses = true →
    y.output.any Admission.passes = false

omit [FloatProduct] in
instance : DecidableRel StaysRefused := fun x y =>
  inferInstanceAs (Decidable (∀ k ∈ x.event.admitted, k ∈ y.event.admitted →
    x.output.any Admission.refuses = true → y.output.any Admission.passes = false))

/-- A node is shut when it or its task is sealed. -/
def Shut (t : Task) (k : String) : Prop := t.sealed = true ∨ t.nodeSealed k = true

omit [FloatProduct] in
theorem Extends.shut {t t' : Task} (grow : t.Extends t') {k : String} (h : t.Shut k) :
    t'.Shut k :=
  h.imp grow.sealed grow.nodeSealed

omit [FloatProduct] in
/-- Whoever refuses leaves the node shut. -/
theorem shut_of_refuses (ceil : t.ceilingMicros = some ceiling) {ref : NodeRef}
    (h : (t.admitAt ref rates).1.refuses = true) : (t.admitAt ref rates).2.Shut ref.node := by
  have outcome := admitAt_outcome ref rates ceil
  generalize t.admitAt ref rates = result at outcome h
  cases outcome with
  | taskSealed shut => exact .inl shut
  | taskLast => exact .inl rfl
  | nodeSealed _ _ shut => exact .inr shut
  | nodeLast _ _ _ held =>
    right
    obtain ⟨a, ha⟩ := Option.isSome_iff_exists.mp held
    obtain ⟨n, stored, -⟩ := Option.bind_eq_some_iff.mp ha
    simp only [Task.nodeSealed]
    rw [modifyNode_lookup, if_pos rfl, stored]
    rfl
  | allowed => cases h

omit [FloatProduct] in
/-- At a shut node an admission is a denial, unless it relapses. -/
theorem deny_of_shut (ceil : t.ceilingMicros = some ceiling) {ref : NodeRef}
    (h : t.Shut ref.node) (calm : ¬ Relapses rates ceiling t (.admitAt ref)) :
    (t.admitAt ref rates).1.passes = false := by
  have outcome := admitAt_outcome ref rates ceil
  generalize t.admitAt ref rates = result at outcome
  cases outcome with
  | taskSealed => rfl
  | taskLast open_ reached =>
    rcases h with h | h
    · rw [open_] at h
      cases h
    · exact absurd ⟨ref.node, rfl, h, open_, reached⟩ calm
  | nodeSealed => rfl
  | nodeLast open_ _ nodeOpen => rcases h with h | h <;> simp_all
  | allowed open_ _ nodeOpen => rcases h with h | h <;> simp_all

/-- A node that is sealed at the end of a run was sealed at its start or by an admission. -/
theorem exists_last_of_nodeSealed (ceil : t.ceilingMicros = some ceiling) (es : List TaskEvent)
    {k : String} (shut : (Runs.final (step rates) t es).nodeSealed k = true) :
    t.nodeSealed k = true ∨ ∃ x ∈ Runs.trace (step rates) t es,
      ∃ ref, x.event = .admitAt ref ∧ ref.node = k ∧ x.output = some .last := by
  induction es generalizing t with
  | nil => exact .inl shut
  | cons e es ih =>
    rcases ih (ceilingMicros_step ceil e) shut with first | ⟨x, hx, found⟩
    · rcases nodeSealed_step ceil first with h | ⟨ref, he, hk, last, -⟩
      · exact .inl h
      · exact .inr ⟨_, List.mem_cons_self, ref, he, hk, last⟩
    · exact .inr ⟨x, List.mem_cons_of_mem _ hx, found⟩

/-- A refused node stays refused in a run if and only if no step of the run relapses. -/
theorem staysRefused_iff (root : String) (ceiling : UInt64) (share : Option ℚ)
    (rates : RateCard) (es : List TaskEvent) :
    (Runs.trace (step rates) (budgeted root ceiling share) es).Pairwise StaysRefused ↔
      Runs.Steps (step rates) (fun t e => ¬ Relapses rates ceiling t e)
        (budgeted root ceiling share) es := by
  have start := budgeted_ceilingMicros root ceiling share
  constructor
  · intro stays x hx relapse
    obtain ⟨pre, e, post, rfl, rfl⟩ := Runs.exists_of_mem_trace hx
    obtain ⟨k, hk, nodeShut, open_, reached⟩ := relapse
    rcases exists_last_of_nodeSealed start pre nodeShut with h | ⟨y, hy, ref, he, rfl, last⟩
    · rw [nodeSealed_budgeted] at h
      cases h
    · -- The admission that sealed the node comes before the one that relapses.
      rw [Runs.trace_append, List.pairwise_append] at stays
      have denied := stays.2.2 y hy _ List.mem_cons_self ref.node (by simp [he, TaskEvent.admitted])
        hk (by simp [last, Admission.refuses])
      cases e with
      | begin => cases hk
      | finish => cases hk
      | admitAt ref' =>
        have again := admit_of_reached rates (ceilingMicros_final rates start pre) open_ reached
        simp [step, admitAt, again, Admission.passes] at denied
  · intro calm
    refine Runs.trace_pairwise (P := fun t e => ¬ Relapses rates ceiling t e)
      (I := fun t => t.ceilingMicros = some ceiling)
      (Q := fun x t => ∀ k ∈ x.event.admitted, x.output.any Admission.refuses = true → t.Shut k)
      (fun _ e h _ => ceilingMicros_step h e) ?_ ?_ ?_ start calm
    · intro t e ceil _ k hk refused
      cases e with
      | begin => cases hk
      | finish => cases hk
      | admitAt ref =>
        obtain rfl := Option.some.inj hk
        exact shut_of_refuses ceil refused
    · intro x t e ceil _ shut k hk refused
      exact (extends_step rates ceil e).shut (shut k hk refused)
    · intro x t e ceil calm shut k hk hk' refused
      cases e with
      | begin => cases hk'
      | finish => cases hk'
      | admitAt ref =>
        obtain rfl := Option.some.inj hk'
        exact deny_of_shut ceil (shut _ hk refused) calm

end Runs

section Cases

attribute [local instance] exactProduct

/-- Two nodes of task `s` spend 50 and 40. -/
def spend90 : List TaskEvent :=
  let a := .declared "s" (some "a") none
  let b := .declared "s" (some "b") none
  [.begin a none, .admitAt a, .begin b none, .admitAt b, .finish a (.out 50) true,
    .finish b (.out 40) false]

/-- Both ask again. -/
def askAgain : List TaskEvent :=
  [.admitAt (.declared "s" (some "a") none), .admitAt (.declared "s" (some "b") none)]

theorem admission_after_ceiling_spend90 :
    (passed .perToken (Runs.final (step .perToken) (budgeted "s" 80 none) spend90) askAgain = [] ∨
      passed .perToken (Runs.final (step .perToken) (budgeted "s" 80 none) spend90) askAgain =
        [.last]) ∧
    ∀ x ∈ Runs.trace (step .perToken) (budgeted "s" 80 none) (spend90 ++ askAgain),
      ∀ spent cap, x.output = some (.deny spent cap) → cap ≤ spent :=
  have main := admission_after_ceiling "s" 80 none .perToken (spend90 ++ askAgain)
    (by decide +kernel)
  ⟨main.1 spend90 askAgain rfl (by decide +kernel), main.2⟩

/-- A child overruns its voucher and gets its last request; then the root ceiling is crossed, and
the child gets one more. -/
def lastTwice : List TaskEvent :=
  let a := .declared "s" (some "a") none
  let main := .declared "s" none none
  [.begin a none, .admitAt a, .finish a (.out 60) true, .begin a none, .admitAt a,
    .finish a (.out 10) true, .begin main none, .admitAt main, .finish main (.out 40) true,
    .begin a none, .admitAt a]

theorem not_staysRefused_lastTwice :
    ¬ (Runs.trace (step .perToken) (budgeted "s" 100 (some (1 / 2))) lastTwice).Pairwise
      StaysRefused := by
  decide +kernel

end Cases

end Task

end Tailfin
