import Tailfin.Tree.Voucher

/-!
# Tasks without vouchers, tasks without a ceiling

Without a voucher share the root is the only node with a voucher, and a request is admitted at its
node as it would be in the task. Without a ceiling every voucher that is minted is empty, and
nothing is refused.
-/

namespace Tailfin

namespace Task

theorem voucherOf_finish (t : Task) (ref : NodeRef) (usage : Usage) (complete : Bool)
    (k : String) : (t.finish ref usage complete).voucherOf k = t.voucherOf k := by
  rw [voucherOf_eq_readAt, voucherOf_eq_readAt, t.readAt_finish ref usage complete k id
    (fun _ => rfl) (fun _ _ => rfl) fun _ => rfl]
  split <;> rfl

theorem voucherOf_admitAt (t : Task) (ref : NodeRef) (rates : RateCard) (k : String) :
    (t.admitAt ref rates).2.voucherOf k = t.voucherOf k := by
  rw [voucherOf_eq_readAt, voucherOf_eq_readAt]
  exact t.readAt_admitAt ref rates k fun _ => rfl

section Runs

variable [FloatProduct] {rates : RateCard} {t : Task} {ceiling : UInt64}

/-- A begin mints nothing, or one voucher out of what the parent has left. -/
theorem voucherOf_begin (t : Task) (ref : NodeRef) (label : Option String) (k : String) :
    (t.begin ref label).voucherOf k = t.voucherOf k ∨
      ∃ share spare, t.voucherShare = some share ∧
        (t.begin ref label).voucherOf k = some (FloatProduct.floorMul
          (saturatingSub (t.allowanceOf (ref.parent.getD t.root)) spare) share) := by
  have grow := t.extends_ensure ref.node ref.parent label
  have voucher := t.voucherOf_ensure ref.node ref.parent label
  have allowance : ∀ p, (t.ensure ref.node ref.parent label).allowanceOf p = t.allowanceOf p := by
    intro p
    rw [allowanceOf, allowanceOf, voucher, grow.ceilingMicros]
  show ((t.ensure ref.node ref.parent label).mintVoucher ref).voucherOf k = _ ∨ _
  rcases (t.ensure ref.node ref.parent label).mintVoucher_cases ref with
    same | ⟨share, allot, isShare, -, -, minted, amount⟩
  · left
    rw [same, voucher]
  · rw [grow.root, allowance] at amount
    by_cases here : k = ref.node
    · right
      obtain ⟨n, stored⟩ := Option.isSome_iff_exists.mp
        (AList.lookup_isSome.mpr (t.mem_ensure ref.node ref.parent label))
      have held : ((t.ensure ref.node ref.parent label).mintVoucher ref).voucherOf k =
          some allot := by
        rw [minted, voucherOf, modifyNode_lookup, if_pos here, stored]
        rfl
      exact ⟨share, _, grow.voucherShare.symm.trans isShare, held.trans (congrArg some amount)⟩
    · left
      rw [minted, voucherOf, modifyNode_lookup, if_neg here]
      exact voucher k

/-! ## Without vouchers -/

/-- No node but the root holds a voucher, and no node is sealed. -/
structure Unshared (rates : RateCard) (ceiling : UInt64) (t : Task) : Prop where
  root : RootOpen rates ceiling t
  share : t.voucherShare = none
  alone : ∀ k, k ≠ t.root → t.voucherOf k = none
  nodes : ∀ k, t.nodeSealed k = false

omit [FloatProduct] in
theorem unshared_budgeted (root : String) (ceiling : UInt64) (rates : RateCard) :
    Unshared rates ceiling (budgeted root ceiling none) := by
  refine ⟨rootOpen_budgeted root ceiling none rates,
    by simp [budgeted, withCeilingMicros, new], fun k other => ?_,
    nodeSealed_budgeted root ceiling none⟩
  rw [budgeted_root] at other
  rw [voucherOf, budgeted_lookup, if_neg other]
  rfl

theorem unshared_step (inv : Unshared rates ceiling t) {e : TaskEvent}
    (fits : t.NoOverflow rates e) : Unshared rates ceiling (t.step rates e).1 := by
  have grow := extends_step rates inv.root.ceil e
  have open_ := rootOpen_step inv.root fits
  have voucher : ∀ k, (t.step rates e).1.voucherOf k = t.voucherOf k := by
    intro k
    cases e with
    | begin ref label =>
      rcases t.voucherOf_begin ref label k with same | ⟨share, -, shared, -⟩
      · exact same
      · rw [inv.share] at shared
        cases shared
    | admitAt ref => exact t.voucherOf_admitAt ref rates k
    | finish ref usage complete => exact t.voucherOf_finish ref usage complete k
  refine ⟨open_, grow.voucherShare.trans inv.share, fun k other => ?_, fun k => ?_⟩
  · rw [voucher]
    exact inv.alone k (grow.root ▸ other)
  · apply Bool.eq_false_iff.mpr
    intro shut
    rcases nodeSealed_step inv.root.ceil shut with before | ⟨-, -, -, -, -, held, -⟩
    · exact Bool.noConfusion ((inv.nodes k).symm.trans before)
    · -- Only the root holds a voucher, and the root is never sealed.
      by_cases top : k = t.root
      · rw [top, ← grow.root, open_.unsealed] at shut
        cases shut
      · rw [inv.alone k top] at held
        cases held

omit [FloatProduct] in
/-- The request is admitted as in its task. -/
theorem admitAt_of_unshared (inv : Unshared rates ceiling t) (ref : NodeRef) :
    t.admitAt ref rates = t.admitTask rates := by
  have outcome := admitAt_outcome ref rates inv.root.ceil
  generalize t.admitAt ref rates = result at outcome
  cases outcome with
  | taskSealed shut => exact (admit_of_sealed rates inv.root.ceil shut).symm
  | taskLast shut reached => exact (admit_of_reached rates inv.root.ceil shut reached).symm
  | allowed shut under => exact (admit_of_under rates inv.root.ceil shut under).symm
  | nodeSealed _ _ shut => exact absurd ((inv.nodes _).symm.trans shut) Bool.noConfusion
  | nodeLast _ under _ held reached =>
    by_cases top : ref.node = t.root
    · -- The voucher of the root is the ceiling, and the whole task is below it.
      have binds := binds_root inv.root under (by rw [inv.root.voucher]; rfl)
      rw [top] at reached
      exact absurd reached (UInt64.not_le.mpr binds.2)
    · rw [inv.alone _ top] at held
      cases held

/-- In every run of a task with a ceiling and without a voucher share, an admission at a node is the
admission of the task, and no node is ever sealed. -/
theorem admitAt_eq_admitTask (root : String) (ceiling : UInt64) (rates : RateCard)
    (es : List TaskEvent)
    (fits : Runs.Steps (step rates) (NoOverflow rates) (budgeted root ceiling none) es) :
    (∀ x ∈ Runs.trace (step rates) (budgeted root ceiling none) es, ∀ ref,
      x.event = .admitAt ref →
        x.output = some (x.before.admitTask rates).1 ∧
        (x.before.step rates x.event).1 = (x.before.admitTask rates).2) ∧
    ∀ pre, pre <+: es → ∀ k,
      (Runs.final (step rates) (budgeted root ceiling none) pre).nodeSealed k = false := by
  have start := unshared_budgeted root ceiling rates
  have keep : ∀ t e, Unshared rates ceiling t → NoOverflow rates t e →
      Unshared rates ceiling (step rates t e).1 := fun _ _ inv fits => unshared_step inv fits
  constructor
  · intro x hx ref event
    obtain ⟨inv, -, made⟩ := Runs.trace_invariant keep start fits x hx
    have same := admitAt_of_unshared inv ref
    rw [made, event]
    exact ⟨congrArg (fun r : Admission × Task => some r.1) same, congrArg Prod.snd same⟩
  · rintro pre ⟨post, rfl⟩ k
    exact (Runs.final_invariant keep start (Runs.steps_append.mp fits).1).nodes k

/-! ## Without a ceiling -/

/-- Every voucher is empty, and nothing is sealed. -/
structure Unbounded (t : Task) : Prop where
  ceil : t.ceilingMicros = none
  shut : t.sealed = false
  empty : ∀ k a, t.voucherOf k = some a → a = 0
  nodes : ∀ k, t.nodeSealed k = false

omit [FloatProduct] in
theorem Unbounded.allowanceOf (inv : Unbounded t) (k : String) : t.allowanceOf k = 0 := by
  rw [Task.allowanceOf, inv.ceil, Option.or_none]
  cases held : t.voucherOf k with
  | none => rfl
  | some a => exact inv.empty k a held

omit [FloatProduct] in
theorem admitAt_of_unbounded (inv : Unbounded t) (ref : NodeRef) (rates : RateCard) :
    t.admitAt ref rates = (.allow, t) := by
  have task : t.admitTask rates = (.allow, t) := by
    rw [admitTask, inv.ceil]
  rw [admitAt, task]
  simp only [inv.allowanceOf, inv.ceil]
  rfl

/-- A task that no ceiling is given. -/
def observed (root : String) (share : Option ℚ) : Task :=
  match share with
  | some s => (new root).withVoucherShare s
  | none => new root

omit [FloatProduct] in
theorem unbounded_observed (root : String) (share : Option ℚ) :
    Unbounded (observed root share) := by
  have nodes : ∀ k, (observed root share).nodes.lookup k = (new root).nodes.lookup k := by
    intro k
    cases share <;> rfl
  refine ⟨by cases share <;> rfl, by cases share <;> rfl, fun k a held => ?_, fun k => ?_⟩
  · rw [voucherOf, nodes, new_lookup] at held
    split at held <;> cases held
  · rw [nodeSealed, nodes, new_lookup]
    split <;> rfl

/-- A share of nothing is nothing. -/
theorem unbounded_step (zero : ∀ share, FloatProduct.floorMul 0 share = 0) (inv : Unbounded t)
    (e : TaskEvent) : Unbounded (t.step rates e).1 := by
  cases e with
  | admitAt ref =>
    rw [step, admitAt_of_unbounded inv]
    exact inv
  | begin ref label =>
    have grow := t.extends_begin ref label
    refine ⟨grow.ceilingMicros.trans inv.ceil, (t.begin_sealed label ref).trans inv.shut,
      fun k a held => ?_, fun k => ?_⟩
    · rcases t.voucherOf_begin ref label k with same | ⟨share, spare, -, minted⟩
      · exact inv.empty k a (same.symm.trans held)
      · have nothing : saturatingSub 0 spare = 0 := by
          unfold saturatingSub
          split <;> simp_all
        rw [inv.allowanceOf, nothing, zero] at minted
        exact Option.some.inj (held.symm.trans minted)
    · exact (t.readAt_begin ref label k (fun _ _ => rfl) (fun _ _ => rfl) fun _ => rfl).trans
        (inv.nodes k)
  | finish ref usage complete =>
    have grow := t.extends_finish ref usage complete
    refine ⟨grow.ceilingMicros.trans inv.ceil, (t.finish_sealed ref usage complete).trans inv.shut,
      fun k a held => ?_, fun k => ?_⟩
    · exact inv.empty k a ((t.voucherOf_finish ref usage complete k).symm.trans held)
    · have same := t.readAt_finish (g := Node.sealed) (d := false) ref usage complete k id
        (fun _ => rfl) (fun _ _ => rfl) fun _ => rfl
      exact (same.trans (ite_self _)).trans (inv.nodes k)

/-- In every run of a task without a ceiling every request is allowed, and neither the task nor a
node is ever sealed. -/
theorem allows_of_observed (zero : ∀ share, FloatProduct.floorMul 0 share = 0) (root : String)
    (share : Option ℚ) (rates : RateCard) (es : List TaskEvent) :
    (∀ x ∈ Runs.trace (step rates) (observed root share) es, ∀ ref, x.event = .admitAt ref →
      x.output = some .allow) ∧
    ∀ pre, pre <+: es → (Runs.final (step rates) (observed root share) pre).sealed = false ∧
      ∀ k, (Runs.final (step rates) (observed root share) pre).nodeSealed k = false := by
  have start := unbounded_observed root share
  have keep : ∀ t e, Unbounded t → True → Unbounded (step rates t e).1 :=
    fun _ e inv _ => unbounded_step zero inv e
  have steps : ∀ es, Runs.Steps (step rates) (fun _ _ => True) (observed root share) es :=
    Runs.steps_of_forall (fun _ _ => trivial) _
  constructor
  · intro x hx ref event
    obtain ⟨inv, -, made⟩ := Runs.trace_invariant keep start (steps es) x hx
    rw [made, event]
    exact congrArg (fun r => some r.1) (admitAt_of_unbounded inv ref rates)
  · intro pre _
    have inv := Runs.final_invariant keep start (steps pre)
    exact ⟨inv.shut, inv.nodes⟩

end Runs

section Cases

attribute [local instance] exactProduct

/-- An agent under a parent that is never seen, and one under itself. -/
def strayAgents : List TaskEvent :=
  let a := .declared "s" (some "a") (some "ghost")
  let b := .declared "s" (some "b") (some "b")
  [.begin a none, .begin b none, .admitAt a, .finish a (.out 60) true, .admitAt b,
    .finish b (.out 60) true, .admitAt b, .admitAt a]

theorem admitAt_eq_admitTask_strayAgents :
    (∀ x ∈ Runs.trace (step .perToken) (budgeted "s" 100 none) strayAgents, ∀ ref,
      x.event = .admitAt ref →
        x.output = some (x.before.admitTask .perToken).1 ∧
        (x.before.step .perToken x.event).1 = (x.before.admitTask .perToken).2) ∧
    ∀ pre, pre <+: strayAgents → ∀ k,
      (Runs.final (step .perToken) (budgeted "s" 100 none) pre).nodeSealed k = false :=
  admitAt_eq_admitTask "s" 100 .perToken strayAgents (by decide +kernel)

theorem allows_of_observed_strayAgents :
    (∀ x ∈ Runs.trace (step .perToken) (observed "s" (some (1 / 2))) strayAgents, ∀ ref,
      x.event = .admitAt ref → x.output = some .allow) ∧
    ∀ pre, pre <+: strayAgents →
      (Runs.final (step .perToken) (observed "s" (some (1 / 2))) pre).sealed = false ∧
      ∀ k, (Runs.final (step .perToken) (observed "s" (some (1 / 2))) pre).nodeSealed k = false :=
  allows_of_observed (fun share => by simp [FloatProduct.floorMul]) "s" (some (1 / 2)) .perToken
    strayAgents

end Cases

end Task

end Tailfin
