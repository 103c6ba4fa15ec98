import Mathlib.Algebra.Order.Floor.Semiring
import Mathlib.Tactic.GCongr
import Tailfin.Tree.Seals

/-!
# Vouchers

A child is minted a share of what its parent's allowance has left after the vouchers of the
parent's other children, so the children of a node never hold more than the node does, as long
as a node is minted before its children and under the parent it is recorded with. A voucher is
checked where it is held: an admission consults the task's ceiling and the node's own voucher,
not the vouchers of the nodes in between.
-/

namespace Tailfin

namespace Task

/-! ## Conservation -/

/-- The sum of the allowances minted to the nodes whose parent is `p`. -/
def mintedUnder (t : Task) (p : String) : Nat :=
  (((t.childrenOf p).filterMap t.voucherOf).map UInt64.toNat).sum

/-- No node's children hold more than the node. -/
def Conserved (t : Task) : Prop := ∀ p, t.mintedUnder p ≤ (t.allowanceOf p).toNat

/-- The begin mints a voucher for a node under which vouchers are held already, or under another
parent than the one the node is recorded with. -/
def MintsOutOfOrder (t : Task) (e : TaskEvent) : Prop :=
  match e with
  | .begin ref _ =>
    ref.isRoot = false ∧ t.voucherOf ref.node = none ∧
      (t.mintedUnder ref.node ≠ 0 ∨ (ref.node ∈ t.nodes ∧ t.parentOf ref.node ≠ ref.parent))
  | _ => False

instance (t : Task) (e : TaskEvent) : Decidable (t.MintsOutOfOrder e) := by
  cases e <;> simp only [MintsOutOfOrder] <;> infer_instance

/-- What a node adds to the vouchers held under `p`. -/
def heldUnder (p : String) (n : Node) : Nat :=
  if n.parent = some p then (n.allowanceMicros.map UInt64.toNat).getD 0 else 0

theorem valueAt_heldUnder (t : Task) (p k : String) :
    AssocSums.valueAt (heldUnder p) t.nodes k = t.readAt (heldUnder p) 0 k := by
  unfold AssocSums.valueAt readAt
  cases t.nodes.lookup k <;> rfl

/-- The sum over the children is a sum over all nodes. -/
theorem mintedUnder_eq (t : Task) (p : String) :
    t.mintedUnder p = (t.nodes.entries.map fun e => heldUnder p e.2).sum := by
  have each : ∀ l : List String,
      (((l.filter fun k => t.parentOf k = some p).filterMap t.voucherOf).map UInt64.toNat).sum =
        (l.map fun k => t.readAt (heldUnder p) 0 k).sum := by
    intro l
    induction l with
    | nil => rfl
    | cons k l ih =>
      have here : t.readAt (heldUnder p) 0 k =
          if t.parentOf k = some p then ((t.voucherOf k).map UInt64.toNat).getD 0 else 0 := by
        unfold readAt parentOf voucherOf heldUnder
        cases t.nodes.lookup k <;> simp
      rw [List.map_cons, List.sum_cons, ← ih, here, List.filter_cons]
      by_cases below : t.parentOf k = some p
      · simp only [below, decide_true, if_true]
        cases held : t.voucherOf k with
        | none => rw [List.filterMap_cons_none held]; simp
        | some a => rw [List.filterMap_cons_some held]; simp
      · simp [below]
  rw [mintedUnder, childrenOf_eq, each, AssocSums.sum_values_eq_of_subset (heldUnder p) t.nodes
    (s := t.order.toFinset) (fun k hk => List.mem_toFinset.mpr ((t.mem_order k).mpr hk)),
    List.sum_toFinset _ t.order_nodup]
  simp only [valueAt_heldUnder]

theorem mintedUnder_congr {t t' : Task} {p : String}
    (h : ∀ k, t'.readAt (heldUnder p) 0 k = t.readAt (heldUnder p) 0 k) :
    t'.mintedUnder p = t.mintedUnder p := by
  rw [mintedUnder_eq, mintedUnder_eq]
  apply Nat.le_antisymm <;> apply AssocSums.sum_values_le <;> intro k <;>
    rw [valueAt_heldUnder, valueAt_heldUnder, h]

/-- Minting for `k` adds at most its voucher to what is held under its parent. -/
theorem mintedUnder_mint_le (t : Task) (k : String) (allot : UInt64) (p : String) :
    (t.modifyNode k (.withAllowance allot) (Node.withAllowance_id allot)).mintedUnder p
      ≤ t.mintedUnder p + if t.parentOf k = some p then allot.toNat else 0 := by
  rw [mintedUnder_eq, mintedUnder_eq]
  apply AssocSums.sum_values_le_add k
  · intro j other
    rw [valueAt_heldUnder, valueAt_heldUnder, readAt, readAt, modifyNode_lookup, if_neg other]
  · rw [valueAt_heldUnder, valueAt_heldUnder]
    cases stored : t.nodes.lookup k with
    | none =>
      rw [readAt, modifyNode_lookup, if_pos rfl, stored]
      exact Nat.zero_le _
    | some n =>
      have parent : t.parentOf k = n.parent := by simp [parentOf, stored]
      rw [readAt, modifyNode_lookup, if_pos rfl, stored, parent]
      show heldUnder p (n.withAllowance allot) ≤ _
      exact Nat.le_add_left _ _

theorem voucherOf_eq_readAt (t : Task) (k : String) :
    t.voucherOf k = t.readAt Node.allowanceMicros none k := by
  unfold voucherOf readAt
  cases t.nodes.lookup k <;> rfl

/-- A step that changes no voucher and no parent keeps the vouchers conserved. -/
theorem Conserved.of_same {t t' : Task} (inv : t.Conserved)
    (ceil : t'.ceilingMicros = t.ceilingMicros) (voucher : ∀ k, t'.voucherOf k = t.voucherOf k)
    (held : ∀ p k, t'.readAt (heldUnder p) 0 k = t.readAt (heldUnder p) 0 k) : t'.Conserved := by
  intro p
  have allowance : t'.allowanceOf p = t.allowanceOf p := by
    rw [allowanceOf, allowanceOf, voucher, ceil]
  rw [mintedUnder_congr (held p), allowance]
  exact inv p

theorem voucherOf_ensure (t : Task) (node : String) (parent label : Option String) (k : String) :
    (t.ensure node parent label).voucherOf k = t.voucherOf k := by
  rw [voucherOf_eq_readAt, voucherOf_eq_readAt]
  exact t.readAt_ensure _ _ _ k (fun _ _ => rfl) fun _ => rfl

theorem heldUnder_ensure (t : Task) (node : String) (parent label : Option String)
    (p k : String) :
    (t.ensure node parent label).readAt (heldUnder p) 0 k = t.readAt (heldUnder p) 0 k :=
  t.readAt_ensure _ _ _ k (fun _ _ => rfl) fun _ => by
    unfold heldUnder Node.fresh
    split <;> rfl

theorem conserved_ensure {t : Task} (inv : t.Conserved) (node : String)
    (parent label : Option String) : (t.ensure node parent label).Conserved :=
  inv.of_same (t.extends_ensure node parent label).ceilingMicros
    (t.voucherOf_ensure node parent label) (t.heldUnder_ensure node parent label)

/-- What `mint_voucher` does: nothing, or a voucher for a node that had none, out of what its
parent has left. -/
theorem mintVoucher_cases [FloatProduct] (t : Task) (ref : NodeRef) :
    t.mintVoucher ref = t ∨
      ∃ share allot, t.voucherShare = some share ∧ ref.isRoot = false ∧
        t.voucherOf ref.node = none ∧
        t.mintVoucher ref =
          t.modifyNode ref.node (.withAllowance allot) (Node.withAllowance_id allot) ∧
        allot = FloatProduct.floorMul
          (saturatingSub (t.allowanceOf (ref.parent.getD t.root))
            (((t.childrenOf (ref.parent.getD t.root)).filter (· ≠ ref.node)).filterMap
              t.voucherOf).sum) share := by
  unfold mintVoucher
  split
  · exact .inl rfl
  · next share isShare =>
    cases root : ref.isRoot with
    | true => exact .inl rfl
    | false =>
      cases held : t.voucherOf ref.node with
      | some a => exact .inl rfl
      | none => exact .inr ⟨share, _, isShare, rfl, rfl, rfl, rfl⟩

section Mint

attribute [local instance] exactProduct

/-- A share of what remains is at most what remains. -/
theorem floorMul_le (remaining : UInt64) {share : ℚ} (le : share ≤ 1) :
    (FloatProduct.floorMul remaining share).toNat ≤ remaining.toNat := by
  have whole : ⌊(remaining.toNat : ℚ) * share⌋₊ ≤ remaining.toNat := by
    apply Nat.floor_le_of_le
    calc (remaining.toNat : ℚ) * share ≤ (remaining.toNat : ℚ) * 1 := by gcongr
      _ = remaining.toNat := mul_one _
  show (UInt64.ofNat ⌊(remaining.toNat : ℚ) * share⌋₊).toNat ≤ _
  rw [UInt64.toNat_ofNat_of_lt' (whole.trans_lt remaining.toNat_lt)]
  exact whole

/-- With the node's own voucher still to be minted, the parent's other children are all its
children that hold one. -/
theorem sum_otherChildren (t : Task) {k p : String} (unminted : t.voucherOf k = none) :
    ((((t.childrenOf p).filter (· ≠ k)).filterMap t.voucherOf).map UInt64.toNat).sum =
      t.mintedUnder p := by
  unfold mintedUnder
  congr 2
  induction t.childrenOf p with
  | nil => rfl
  | cons j js ih =>
    by_cases same : j = k
    · subst same
      rw [List.filter_cons_of_neg (by simp), List.filterMap_cons_none unminted, ih]
    · rw [List.filter_cons_of_pos (by simpa using same), List.filterMap_cons,
        List.filterMap_cons, ih]

/-- A mint gives at most what the parent has left. -/
theorem allot_le {t : Task} (inv : t.Conserved) {share : ℚ} (le : share ≤ 1) {k p : String}
    (unminted : t.voucherOf k = none) :
    (FloatProduct.floorMul
      (saturatingSub (t.allowanceOf p)
        (((t.childrenOf p).filter (· ≠ k)).filterMap t.voucherOf).sum) share).toNat +
      t.mintedUnder p ≤ (t.allowanceOf p).toNat := by
  have others := t.sum_otherChildren (p := p) unminted
  have fits := (inv p).trans_lt (t.allowanceOf p).toNat_lt
  have sum : (((t.childrenOf p).filter (· ≠ k)).filterMap t.voucherOf).sum.toNat =
      t.mintedUnder p := by
    rw [sum_toNat (by rw [others]; exact fits), others]
  have most := floorMul_le (saturatingSub (t.allowanceOf p)
    (((t.childrenOf p).filter (· ≠ k)).filterMap t.voucherOf).sum) le
  rw [saturatingSub_toNat, sum] at most
  have here := inv p
  omega

theorem conserved_mintVoucher {t : Task} (inv : t.Conserved) (ref : NodeRef)
    (share : ∀ s, t.voucherShare = some s → s ≤ 1)
    (bare : ref.isRoot = false → t.voucherOf ref.node = none → t.mintedUnder ref.node = 0)
    (parent : ref.isRoot = false → t.voucherOf ref.node = none →
      t.parentOf ref.node = ref.parent) :
    (t.mintVoucher ref).Conserved := by
  rcases t.mintVoucher_cases ref with same | ⟨s, allot, isShare, child, unminted, minted, amount⟩
  · rw [same]
    exact inv
  rw [minted]
  intro p
  have more := t.mintedUnder_mint_le ref.node allot p
  by_cases own : p = ref.node
  · -- The node's own allowance becomes its voucher, and it has no minted children yet.
    subst own
    rw [bare child unminted, Nat.zero_add] at more
    cases stored : t.nodes.lookup ref.node with
    | none =>
      rw [if_neg (by simp [parentOf, stored])] at more
      omega
    | some n =>
      have allowance : (t.modifyNode ref.node (.withAllowance allot)
          (Node.withAllowance_id allot)).allowanceOf ref.node = allot := by
        rw [allowanceOf, voucherOf, modifyNode_lookup, if_pos rfl, stored]
        rfl
      rw [allowance]
      refine more.trans ?_
      split
      · exact Nat.le_refl _
      · exact Nat.zero_le _
  · have allowance : (t.modifyNode ref.node (.withAllowance allot)
        (Node.withAllowance_id allot)).allowanceOf p = t.allowanceOf p := by
      rw [allowanceOf, allowanceOf, voucherOf, voucherOf, modifyNode_lookup, if_neg own,
        modifyNode_ceilingMicros]
    rw [allowance]
    by_cases below : t.parentOf ref.node = some p
    · rw [if_pos below] at more
      have named : ref.parent = some p := (parent child unminted).symm.trans below
      rw [named, Option.getD_some] at amount
      have left := allot_le inv (share s isShare) (p := p) unminted
      rw [← amount] at left
      omega
    · rw [if_neg below] at more
      exact more.trans (inv p)

/-- What every reachable task keeps: a share of at most one, and conservation. -/
structure Minted (t : Task) : Prop where
  share : ∀ s, t.voucherShare = some s → s ≤ 1
  conserved : t.Conserved

theorem minted_budgeted (root : String) (ceiling : UInt64) (share : ℚ) :
    (budgeted root ceiling (some share)).Minted := by
  refine ⟨?_, ?_⟩
  · intro s h
    cases h
    exact max_le (by norm_num) (min_le_left _ _)
  · intro p
    have nothing : ∀ k, (budgeted root ceiling (some share)).readAt (heldUnder p) 0 k = 0 := by
      intro k
      rw [readAt, budgeted_lookup]
      split <;> simp [heldUnder, Node.fresh]
    rw [mintedUnder_eq, List.sum_eq_zero]
    · exact Nat.zero_le _
    · intro x hx
      obtain ⟨e, he, rfl⟩ := List.mem_map.mp hx
      have here := nothing e.1
      rw [readAt_of_lookup (AssocSums.lookup_of_mem_entries he)] at here
      exact here

theorem conserved_begin {t : Task} (inv : t.Minted) {ref : NodeRef} {label : Option String}
    (inOrder : ¬ t.MintsOutOfOrder (.begin ref label)) : (t.begin ref label).Conserved := by
  have grow := t.extends_ensure ref.node ref.parent label
  have voucher := t.voucherOf_ensure ref.node ref.parent label
  have bare : ref.isRoot = false → t.voucherOf ref.node = none → t.mintedUnder ref.node = 0 :=
    fun child unminted => by
      by_contra some_
      exact inOrder ⟨child, unminted, .inl some_⟩
  have parent : ref.isRoot = false → t.voucherOf ref.node = none →
      (t.ensure ref.node ref.parent label).parentOf ref.node = ref.parent := by
    intro child unminted
    rw [parentOf_ensure]
    split
    · next stored =>
      by_contra other
      exact inOrder ⟨child, unminted, .inr ⟨stored, other⟩⟩
    · exact if_pos rfl
  refine (conserved_mintVoucher (conserved_ensure inv.conserved ref.node ref.parent label) ref
    (fun s h => inv.share s (grow.voucherShare.symm.trans h)) ?_ ?_).of_same rfl (fun _ => rfl)
    fun _ _ => rfl
  · rw [voucher, mintedUnder_congr (t.heldUnder_ensure ref.node ref.parent label ref.node)]
    exact bare
  · rw [voucher]
    exact parent

theorem conserved_finish {t : Task} (inv : t.Conserved) (ref : NodeRef) (usage : Usage)
    (complete : Bool) : (t.finish ref usage complete).Conserved := by
  refine (conserved_ensure inv ref.node ref.parent none).of_same
    (modifyNode_ceilingMicros ..) ?_ ?_
  · intro k
    rw [voucherOf_eq_readAt, voucherOf_eq_readAt]
    exact readAt_modifyNode _ ref.node (.record usage complete) _ (fun _ => rfl) k
  · intro p k
    exact readAt_modifyNode _ ref.node (.record usage complete) _ (fun _ => rfl) k

theorem conserved_admitAt {t : Task} {ceiling : UInt64} (ceil : t.ceilingMicros = some ceiling)
    (inv : t.Conserved) (ref : NodeRef) (rates : RateCard) :
    (t.admitAt ref rates).2.Conserved := by
  have outcome := admitAt_outcome ref rates ceil
  generalize t.admitAt ref rates = result at outcome
  cases outcome with
  | nodeLast =>
    refine inv.of_same (t.modifyNode_ceilingMicros _ _ Node.seal_id) ?_ ?_
    · intro k
      rw [voucherOf_eq_readAt, voucherOf_eq_readAt]
      exact t.readAt_modifyNode ref.node .seal Node.seal_id (fun _ => rfl) k
    · intro p k
      exact t.readAt_modifyNode ref.node .seal Node.seal_id (fun _ => rfl) k
  | taskLast => exact inv.of_same rfl (fun _ => rfl) fun _ _ => rfl
  | _ => exact inv

theorem minted_step {rates : RateCard} {t : Task} {ceiling : UInt64}
    (ceil : t.ceilingMicros = some ceiling) (inv : t.Minted) {e : TaskEvent}
    (inOrder : ¬ t.MintsOutOfOrder e) : (t.step rates e).1.Minted := by
  refine ⟨fun s h => inv.share s ((extends_step rates ceil e).voucherShare.symm.trans h), ?_⟩
  cases e with
  | begin ref label => exact conserved_begin inv inOrder
  | admitAt ref => exact conserved_admitAt ceil inv.conserved ref rates
  | finish ref usage complete => exact conserved_finish inv.conserved ref usage complete

/-- While every voucher is minted before those below it and under the recorded parent, the
children of a node never hold more than the node. -/
theorem conserved_of_inOrder (root : String) (ceiling : UInt64) (share : ℚ) (rates : RateCard)
    (es : List TaskEvent)
    (inOrder : Runs.Steps (step rates) (fun t e => ¬ t.MintsOutOfOrder e)
      (budgeted root ceiling (some share)) es) :
    (Runs.final (step rates) (budgeted root ceiling (some share)) es).Conserved := by
  have inv := Runs.final_invariant (I := fun t => t.ceilingMicros = some ceiling ∧ t.Minted)
    (fun t e inv step => ⟨ceilingMicros_step inv.1 e, minted_step inv.1 inv.2 step⟩)
    ⟨budgeted_ceilingMicros root ceiling (some share), minted_budgeted root ceiling share⟩
    inOrder
  exact inv.2.conserved

/-- Two children under a node that is yet to be seen, then the node itself. -/
def childrenFirst : List TaskEvent :=
  [.begin (.declared "s" (some "c1") (some "p")) none,
    .begin (.declared "s" (some "c2") (some "p")) none,
    .begin (.declared "s" (some "p") none) none]

theorem not_conserved_childrenFirst :
    ¬ (Runs.final (step .perToken) (budgeted "s" 100 (some (1 / 2))) childrenFirst).Conserved := by
  intro conserved
  have below := conserved "p"
  revert below
  decide +kernel

/-- The same nodes, parent first, and a finish in between. -/
def parentFirst : List TaskEvent :=
  [.begin (.declared "s" (some "p") none) none,
    .begin (.declared "s" (some "c1") (some "p")) none,
    .finish (.declared "s" (some "p") none) (.out 7) true,
    .begin (.declared "s" (some "c2") (some "p")) none]

theorem conserved_parentFirst :
    (Runs.final (step .perToken) (budgeted "s" 100 (some (1 / 2))) parentFirst).Conserved :=
  conserved_of_inOrder "s" 100 (1 / 2) .perToken parentFirst (by decide +kernel)

end Mint

/-! ## Where a voucher binds -/

/-- The voucher of `p`, if it holds one, has not run out, and `p` is not sealed. -/
def Binds (rates : RateCard) (t : Task) (p : String) : Prop :=
  (t.voucherOf p).isSome → t.nodeSealed p = false ∧
    t.subtreeSpentMicros p rates < t.allowanceOf p

section Binding

variable [FloatProduct] {rates : RateCard} {t : Task} {ceiling : UInt64}

omit [FloatProduct] in
/-- What `allow` says about the task and about the node it is given at. -/
theorem of_allow (ceil : t.ceilingMicros = some ceiling) {ref : NodeRef}
    (allowed : (t.admitAt ref rates).1 = .allow) :
    t.sealed = false ∧ t.spentMicros rates < ceiling ∧ t.nodeSealed ref.node = false ∧
      t.Binds rates ref.node := by
  have outcome := admitAt_outcome ref rates ceil
  generalize t.admitAt ref rates = result at outcome allowed
  cases outcome with
  | allowed shut under nodeShut within =>
    exact ⟨shut, under, nodeShut, fun h => ⟨nodeShut, within h⟩⟩
  | taskSealed => cases allowed
  | taskLast => cases allowed
  | nodeSealed => cases allowed
  | nodeLast => cases allowed

/-- The root holds the ceiling as its voucher, and only the seal of the task stops it. -/
structure RootOpen (rates : RateCard) (ceiling : UInt64) (t : Task) : Prop where
  ceil : t.ceilingMicros = some ceiling
  fits : t.Fits rates
  voucher : t.voucherOf t.root = some ceiling
  unsealed : t.nodeSealed t.root = false

omit [FloatProduct] in
theorem rootOpen_budgeted (root : String) (ceiling : UInt64) (share : Option ℚ)
    (rates : RateCard) : RootOpen rates ceiling (budgeted root ceiling share) := by
  refine ⟨budgeted_ceilingMicros _ _ _, fits_budgeted _ _ _ _, ?_, nodeSealed_budgeted _ _ _ _⟩
  rw [budgeted_root, voucherOf, budgeted_lookup, if_pos rfl]
  rfl

omit [FloatProduct] in
theorem subtreeSpentMicros_le_spentMicros (fits : t.Fits rates) (id : String) :
    t.subtreeSpentMicros id rates ≤ t.spentMicros rates := by
  rw [UInt64.le_iff_toNat_le, subtreeSpentMicros_toNat fits, spentMicros_toNat fits]
  exact t.exactSubtreeSpent_le_exactSpent id rates

theorem rootOpen_step (inv : RootOpen rates ceiling t) {e : TaskEvent}
    (fits : t.NoOverflow rates e) : RootOpen rates ceiling (t.step rates e).1 := by
  have grow := extends_step rates inv.ceil e
  refine ⟨ceilingMicros_step inv.ceil e, fits_step fits inv.fits, ?_, ?_⟩
  · rw [grow.root]
    exact grow.voucherOf inv.voucher
  · rw [grow.root, Bool.eq_false_iff]
    intro shut
    rcases nodeSealed_step inv.ceil shut with h | ⟨ref, -, -, -, under, -, reached⟩
    · rw [inv.unsealed] at h
      cases h
    · -- The whole task spent less than the ceiling, so the root's subtree did too.
      rw [allowanceOf_of_voucherOf inv.voucher] at reached
      have less := subtreeSpentMicros_le_spentMicros inv.fits t.root
      exact UInt64.not_le.mpr under (UInt64.le_trans reached less)

omit [FloatProduct] in
theorem binds_root (inv : RootOpen rates ceiling t) (under : t.spentMicros rates < ceiling) :
    t.Binds rates t.root := by
  intro _
  rw [allowanceOf_of_voucherOf inv.voucher]
  exact ⟨inv.unsealed,
    UInt64.lt_of_le_of_lt (subtreeSpentMicros_le_spentMicros inv.fits _) under⟩

/-- Whenever an admission at a node is allowed, the task is not sealed and below its ceiling, the
node is not sealed and its own voucher has not run out; and where no `u64` sum overflowed, the
root's voucher has not run out either. -/
theorem binds_of_allow (root : String) (ceiling : UInt64) (share : Option ℚ) (rates : RateCard)
    (es : List TaskEvent) :
    ∀ x ∈ Runs.trace (step rates) (budgeted root ceiling share) es, ∀ ref,
      x.event = .admitAt ref → x.output = some .allow →
        x.before.sealed = false ∧ x.before.spentMicros rates < ceiling ∧
        x.before.nodeSealed ref.node = false ∧ x.before.Binds rates ref.node ∧
        (Runs.Steps (step rates) (NoOverflow rates) (budgeted root ceiling share) es →
          x.before.Binds rates x.before.root) := by
  intro x hx ref event allowed
  obtain ⟨pre, e, post, rfl, rfl⟩ := Runs.exists_of_mem_trace hx
  obtain rfl : e = .admitAt ref := event
  have ceil := ceilingMicros_final rates (budgeted_ceilingMicros root ceiling share) pre
  obtain ⟨shut, under, nodeShut, own⟩ := of_allow ceil (Option.some.inj allowed)
  refine ⟨shut, under, nodeShut, own, ?_⟩
  intro fits
  have inv : RootOpen rates ceiling (Runs.final (step rates) (budgeted root ceiling share) pre) :=
    Runs.final_invariant (I := RootOpen rates ceiling) (fun _ _ inv step => rootOpen_step inv step)
      (rootOpen_budgeted root ceiling share rates) (Runs.steps_append.mp fits).1
  exact binds_root inv under

end Binding

section Cases

attribute [local instance] exactProduct

/-- A child spends all its voucher and more; its own child still may. -/
def exhaustedParent : List TaskEvent :=
  let a := .declared "s" (some "a") none
  let c := .declared "s" (some "c") (some "a")
  [.begin a none, .begin c none, .finish a (.out 600) true, .admitAt c]

/-- The grandchild is admitted under a parent whose voucher of 500 has run out. -/
theorem not_binds_exhaustedParent :
    ¬ ∀ x ∈ Runs.trace (step .perToken) (budgeted "s" 1000 (some (1 / 2))) exhaustedParent,
      ∀ n ∈ x.event.admitted, x.output = some .allow →
        ∀ p, ParentLinks.LeadsTo x.before.parentOf n p → x.before.Binds .perToken p := by
  intro binds
  have admitted : ∃ x ∈ Runs.trace (step .perToken) (budgeted "s" 1000 (some (1 / 2)))
      exhaustedParent, "c" ∈ x.event.admitted ∧ x.output = some .allow ∧
        x.before.parentOf "c" = some "a" ∧ (x.before.voucherOf "a").isSome ∧
        ¬ x.before.subtreeSpentMicros "a" .perToken < x.before.allowanceOf "a" := by
    decide +kernel
  obtain ⟨x, hx, node, allowed, link, held, reached⟩ := admitted
  exact reached (binds x hx "c" node allowed "a" (.head link (.refl "a")) held).2

theorem binds_of_allow_exhaustedParent :
    ∃ x ∈ Runs.trace (step .perToken) (budgeted "s" 1000 (some (1 / 2))) exhaustedParent,
      x.event = .admitAt (.declared "s" (some "c") (some "a")) ∧ x.output = some .allow ∧
      x.before.Binds .perToken "c" ∧ x.before.Binds .perToken x.before.root := by
  have admitted : ∃ x ∈ Runs.trace (step .perToken) (budgeted "s" 1000 (some (1 / 2)))
      exhaustedParent, x.event = .admitAt (.declared "s" (some "c") (some "a")) ∧
        x.output = some .allow := by
    decide +kernel
  obtain ⟨x, hx, event, allowed⟩ := admitted
  obtain ⟨-, -, -, own, atRoot⟩ := binds_of_allow "s" 1000 (some (1 / 2)) .perToken
    exhaustedParent x hx _ event allowed
  exact ⟨x, hx, event, allowed, own, atRoot (by decide +kernel)⟩

end Cases

end Task

end Tailfin
