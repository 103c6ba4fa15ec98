import Mathlib.Algebra.BigOperators.Group.Finset.Basic
import Mathlib.Algebra.Order.BigOperators.Group.Finset
import Tailfin.Library.AssocSums
import Tailfin.Library.Wrapping
import Tailfin.Tree.Steps

/-!
# What a task has spent

The spend of a task and of a subtree, against their exact values in unbounded numbers. The
`u64` sums of the source are exact as long as they do not overflow (`Task.Fits`), and then no
step lowers what is spent: not at a node, not in a subtree, not in the task.
-/

namespace Tailfin

namespace Task

/-- The usage recorded at a node; nothing where there is no such node. -/
def usageAt (t : Task) (k : String) : Usage := t.readAt Node.usage default k

/-- What the task has spent, each node rounded down, in unbounded numbers. -/
def exactSpent (t : Task) (rates : RateCard) : Nat :=
  (t.values.map fun n => n.usage.exactMicros rates).sum

/-- No sum that prices this task overflows a `u64`. -/
structure Fits (rates : RateCard) (t : Task) : Prop where
  nodes : ∀ k, (t.usageAt k).exactCost rates < 2 ^ 64
  total : t.exactSpent rates < 2 ^ 64

/-- The call overflows no `u64` sum: a finish merges without overflow, and what it leaves can be
priced. -/
def NoOverflow [FloatProduct] (rates : RateCard) (t : Task) (e : TaskEvent) : Prop :=
  match e with
  | .finish ref usage _ => (t.usageAt ref.node).MergeFits usage ∧ (t.step rates e).1.Fits rates
  | _ => True

/-! ## Usage after an operation -/

theorem usageAt_begin [FloatProduct] (t : Task) (ref : NodeRef) (label : Option String)
    (j : String) : (t.begin ref label).usageAt j = t.usageAt j :=
  t.readAt_begin ref label j (fun _ _ => rfl) (fun _ _ => rfl) fun _ => rfl

theorem usageAt_admitAt (t : Task) (ref : NodeRef) (rates : RateCard) (j : String) :
    (t.admitAt ref rates).2.usageAt j = t.usageAt j :=
  t.readAt_admitAt ref rates j fun _ => rfl

theorem usageAt_finish (t : Task) (ref : NodeRef) (usage : Usage) (complete : Bool) (j : String) :
    (t.finish ref usage complete).usageAt j =
      if j = ref.node then (t.usageAt j).merge usage else t.usageAt j :=
  t.readAt_finish (g := Node.usage) ref usage complete j (fun u => u.merge usage) (fun _ => rfl)
    (fun _ _ => rfl) fun _ => rfl

/-! ## Spend in unbounded numbers -/

theorem usageAt_of_mem_entries {t : Task} {e : Sigma fun _ : String => Node}
    (h : e ∈ t.nodes.entries) : t.usageAt e.1 = e.2.usage := by
  exact readAt_of_lookup (AssocSums.lookup_of_mem_entries h)

section PerUsage

variable {M : Type} [AddCommMonoid M] (f : Usage → M)

/-- What `f` says of the usage of a node, and of none where there is no such node. -/
theorem valueAt_usage (nothing : f default = 0) (t : Task) (k : String) :
    AssocSums.valueAt (fun n : Node => f n.usage) t.nodes k = f (t.usageAt k) := by
  unfold AssocSums.valueAt usageAt readAt
  cases t.nodes.lookup k with
  | none => exact nothing.symm
  | some n => rfl

theorem sum_values_usage (t : Task) :
    (t.values.map fun n => f n.usage).sum = (t.nodes.entries.map fun e => f e.2.usage).sum := by
  rw [values, List.map_map]
  rfl

/-- A call that records no usage leaves every sum over the usages as it is. -/
theorem sum_usage_congr (nothing : f default = 0) {t t' : Task}
    (h : ∀ k, t'.usageAt k = t.usageAt k) :
    (t'.values.map fun n => f n.usage).sum = (t.values.map fun n => f n.usage).sum := by
  rw [sum_values_usage, sum_values_usage]
  apply AssocSums.sum_values_congr (f := fun n : Node => f n.usage)
  intro k
  rw [valueAt_usage f nothing, valueAt_usage f nothing, h k]

end PerUsage

theorem valueAt_exactMicros (t : Task) (rates : RateCard) (k : String) :
    AssocSums.valueAt (fun n : Node => n.usage.exactMicros rates) t.nodes k =
      (t.usageAt k).exactMicros rates :=
  valueAt_usage (fun u => u.exactMicros rates) (Usage.exactMicros_default rates) t k

theorem exactSpent_eq (t : Task) (rates : RateCard) :
    t.exactSpent rates =
      (t.nodes.entries.map fun e => e.2.usage.exactMicros rates).sum :=
  t.sum_values_usage fun u => u.exactMicros rates

theorem exactSpent_le {t t' : Task} {rates : RateCard}
    (h : ∀ k, (t.usageAt k).exactMicros rates ≤ (t'.usageAt k).exactMicros rates) :
    t.exactSpent rates ≤ t'.exactSpent rates := by
  rw [exactSpent_eq, exactSpent_eq]
  apply AssocSums.sum_values_le (f := fun n : Node => n.usage.exactMicros rates)
  intro k
  rw [valueAt_exactMicros, valueAt_exactMicros]
  exact h k

theorem exactSpent_congr {t t' : Task} (rates : RateCard) (h : ∀ k, t'.usageAt k = t.usageAt k) :
    t'.exactSpent rates = t.exactSpent rates :=
  sum_usage_congr (fun u => u.exactMicros rates) (Usage.exactMicros_default rates) h

theorem spentMicros_congr {t t' : Task} (rates : RateCard)
    (h : ∀ k, t'.usageAt k = t.usageAt k) : t'.spentMicros rates = t.spentMicros rates :=
  sum_usage_congr (fun u => u.micros rates) (Usage.micros_default rates) h

/-- A finish adds at most the cost of its usage, rounded up. -/
theorem exactSpent_finish_le {t : Task} {ref : NodeRef} {usage : Usage}
    (merge : (t.usageAt ref.node).MergeFits usage) (rates : RateCard) (complete : Bool) :
    (t.finish ref usage complete).exactSpent rates ≤
      t.exactSpent rates + usage.ceilMicros rates := by
  rw [exactSpent_eq, exactSpent_eq]
  apply AssocSums.sum_values_le_add (f := fun n : Node => n.usage.exactMicros rates) ref.node
  · intro k other
    rw [valueAt_exactMicros, valueAt_exactMicros, usageAt_finish, if_neg other]
  · rw [valueAt_exactMicros, valueAt_exactMicros, usageAt_finish, if_pos rfl]
    exact Usage.exactMicros_merge_le merge rates

/-- No step lowers the cost of any node. -/
theorem exactMicros_le_step [FloatProduct] {rates : RateCard} {t : Task} {e : TaskEvent}
    (fits : t.NoOverflow rates e) (k : String) :
    (t.usageAt k).exactMicros rates ≤ ((t.step rates e).1.usageAt k).exactMicros rates := by
  cases e with
  | begin ref label => exact (congrArg (·.exactMicros rates) (usageAt_begin t ref label k)).ge
  | admitAt ref => exact (congrArg (·.exactMicros rates) (usageAt_admitAt t ref rates k)).ge
  | finish ref usage complete =>
    show _ ≤ ((t.finish ref usage complete).usageAt k).exactMicros rates
    rw [usageAt_finish]
    split
    · next same => exact Usage.exactMicros_le_merge (same ▸ fits.1) rates
    · exact Nat.le_refl _

theorem exactSpent_le_step [FloatProduct] {rates : RateCard} {t : Task} {e : TaskEvent}
    (fits : t.NoOverflow rates e) :
    t.exactSpent rates ≤ (t.step rates e).1.exactSpent rates :=
  exactSpent_le fun k => exactMicros_le_step fits k

/-! ## The `u64` sums -/

theorem fits_iff (rates : RateCard) (t : Task) :
    t.Fits rates ↔
      (∀ k ∈ t.order, (t.usageAt k).exactCost rates < 2 ^ 64) ∧ t.exactSpent rates < 2 ^ 64 := by
  constructor
  · exact fun ⟨nodes, total⟩ => ⟨fun k _ => nodes k, total⟩
  · rintro ⟨nodes, total⟩
    refine ⟨fun k => ?_, total⟩
    by_cases stored : k ∈ t.order
    · exact nodes k stored
    · have absent : t.nodes.lookup k = none :=
        AList.lookup_eq_none.mpr fun h => stored ((t.mem_order k).mpr h)
      rw [usageAt, readAt_of_absent absent, Usage.exactCost_default]
      norm_num

instance (rates : RateCard) (t : Task) : Decidable (t.Fits rates) :=
  decidable_of_iff _ (fits_iff rates t).symm

instance [FloatProduct] (rates : RateCard) (t : Task) (e : TaskEvent) :
    Decidable (t.NoOverflow rates e) :=
  match e with
  | .begin _ _ => isTrue trivial
  | .admitAt _ => isTrue trivial
  | .finish ref usage complete =>
    inferInstanceAs (Decidable
      ((t.usageAt ref.node).MergeFits usage ∧ (t.finish ref usage complete).Fits rates))

theorem fits_of_usageAt {t t' : Task} {rates : RateCard} (same : ∀ k, t'.usageAt k = t.usageAt k)
    (fits : t.Fits rates) : t'.Fits rates :=
  ⟨fun k => by rw [same k]; exact fits.nodes k,
    by rw [exactSpent_congr rates same]; exact fits.total⟩

theorem fits_step [FloatProduct] {rates : RateCard} {t : Task} {e : TaskEvent}
    (step : t.NoOverflow rates e) (fits : t.Fits rates) : (t.step rates e).1.Fits rates := by
  cases e with
  | begin ref label => exact fits_of_usageAt (usageAt_begin t ref label) fits
  | admitAt ref => exact fits_of_usageAt (usageAt_admitAt t ref rates) fits
  | finish ref usage complete => exact step.2

theorem usageAt_budgeted (root : String) (ceiling : UInt64) (share : Option ℚ) (k : String) :
    (budgeted root ceiling share).usageAt k = default := by
  rw [usageAt, readAt, budgeted_lookup]
  split <;> rfl

theorem exactSpent_eq_zero {t : Task} (h : ∀ k, t.usageAt k = default) (rates : RateCard) :
    t.exactSpent rates = 0 := by
  rw [exactSpent_eq]
  apply List.sum_eq_zero
  intro x hx
  obtain ⟨e, he, rfl⟩ := List.mem_map.mp hx
  rw [← usageAt_of_mem_entries he, h, Usage.exactMicros_default]

theorem fits_budgeted (root : String) (ceiling : UInt64) (share : Option ℚ) (rates : RateCard) :
    (budgeted root ceiling share).Fits rates := by
  refine ⟨fun k => ?_, ?_⟩
  · rw [usageAt_budgeted, Usage.exactCost_default]
    norm_num
  · rw [exactSpent_eq_zero (usageAt_budgeted root ceiling share)]
    norm_num

/-- A `u64` sum that fits is exact. -/
theorem sum_toNat {l : List UInt64} (fits : (l.map UInt64.toNat).sum < 2 ^ 64) :
    l.sum.toNat = (l.map UInt64.toNat).sum := by
  rw [Wrapping.toNat_sum, Nat.mod_eq_of_lt fits]

theorem spentMicros_toNat {t : Task} {rates : RateCard} (fits : t.Fits rates) :
    (t.spentMicros rates).toNat = t.exactSpent rates := by
  have each : (t.values.map fun n => n.usage.micros rates).map UInt64.toNat =
      t.values.map fun n => n.usage.exactMicros rates := by
    rw [List.map_map]
    apply List.map_congr_left
    intro n hn
    obtain ⟨e, he, rfl⟩ := List.mem_map.mp hn
    have bound := fits.nodes e.1
    rw [usageAt_of_mem_entries he] at bound
    exact Usage.micros_toNat bound
  rw [spentMicros, sum_toNat (by rw [each]; exact fits.total), each]
  rfl

/-! ## Subtrees -/

/-- The ids of the nodes that `subtree_spent_micros` adds up, in its order. -/
def subtree (t : Task) (id : String) : List String :=
  ParentLinks.order (fun cur => (t.childrenOf cur).reverse) (t.order.length + 1) [id] []

/-- What a subtree has spent, in unbounded numbers. -/
def exactSubtreeSpent (t : Task) (id : String) (rates : RateCard) : Nat :=
  ((t.subtree id).map fun k => (t.usageAt k).exactMicros rates).sum

theorem childrenOf_eq (t : Task) (id : String) :
    t.childrenOf id = t.order.filter fun k => t.parentOf k = some id := by
  have stored : ∀ k ∈ t.order, ∃ n, t.nodes.lookup k = some n ∧ n.id = k := by
    intro k hk
    obtain ⟨n, hn⟩ := Option.isSome_iff_exists.mp (AList.lookup_isSome.mpr ((t.mem_order k).mp hk))
    exact ⟨n, hn, t.id_eq k n hn⟩
  unfold childrenOf
  generalize t.order = l at stored ⊢
  induction l with
  | nil => rfl
  | cons k l ih =>
    obtain ⟨n, hn, same⟩ := stored k (by simp)
    have rest := ih fun j hj => stored j (List.mem_cons_of_mem _ hj)
    have parent : t.parentOf k = n.parent := by simp [parentOf, hn]
    have first : (k :: l).filterMap (fun a => t.nodes.lookup a) =
        n :: l.filterMap fun a => t.nodes.lookup a := List.filterMap_cons_some hn
    rw [first, List.filter_cons, List.filter_cons, parent]
    split
    · rw [List.map_cons, same, rest]
    · exact rest

theorem mem_of_parentOf {t : Task} {k p : String} (h : t.parentOf k = some p) : k ∈ t.order := by
  rw [t.mem_order, ← AList.lookup_isSome]
  cases stored : t.nodes.lookup k with
  | none => simp [parentOf, stored] at h
  | some n => rfl

/-- The subtree of a node is what leads to it by recorded parents. -/
theorem mem_subtree {t : Task} {id k : String} :
    k ∈ t.subtree id ↔ ParentLinks.LeadsTo t.parentOf k id := by
  have pushes : ∀ x, ((t.childrenOf x).reverse).Perm
      (t.order.filter fun y => t.parentOf y = some x) := by
    intro x
    rw [childrenOf_eq]
    exact List.reverse_perm _
  exact ParentLinks.mem_order_iff pushes (fun _ _ h => mem_of_parentOf h) (Nat.le_refl _) id k

theorem subtree_nodup (t : Task) (id : String) : (t.subtree id).Nodup :=
  (ParentLinks.order_nodup _ _ _ _).1

theorem exactSubtreeSpent_le_exactSpent (t : Task) (id : String) (rates : RateCard) :
    t.exactSubtreeSpent id rates ≤ t.exactSpent rates := by
  rw [exactSpent_eq, exactSubtreeSpent, ← List.sum_toFinset _ (t.subtree_nodup id),
    AssocSums.sum_values_eq_of_subset (fun n : Node => n.usage.exactMicros rates) t.nodes
      (s := (t.subtree id).toFinset ∪ t.nodes.keys.toFinset)
      (fun a ha => by simp [AList.mem_keys.mp ha])]
  simp only [valueAt_exactMicros]
  exact Finset.sum_le_sum_of_subset Finset.subset_union_left

/-- A subtree that only gained nodes, each at least as dear as it was, spent at least as much. -/
theorem exactSubtreeSpent_le {t t' : Task} (grow : t.Extends t') {rates : RateCard}
    (cost : ∀ k, (t.usageAt k).exactMicros rates ≤ (t'.usageAt k).exactMicros rates)
    (id : String) : t.exactSubtreeSpent id rates ≤ t'.exactSubtreeSpent id rates := by
  have sub : (t.subtree id).toFinset ⊆ (t'.subtree id).toFinset := by
    intro k hk
    rw [List.mem_toFinset, mem_subtree] at hk ⊢
    exact hk.mono fun _ _ => grow.parentOf
  rw [exactSubtreeSpent, exactSubtreeSpent, ← List.sum_toFinset _ (t.subtree_nodup id),
    ← List.sum_toFinset _ (t'.subtree_nodup id)]
  exact (Finset.sum_le_sum fun k _ => cost k).trans (Finset.sum_le_sum_of_subset sub)

/-- A sum that saturates is the sum in unbounded numbers, or the greatest `u64`. -/
theorem foldl_saturatingAdd_eq_min (f : String → UInt64) (l : List String) (acc : UInt64) :
    (l.foldl (fun total k => saturatingAdd total (f k)) acc).toNat =
      min (2 ^ 64 - 1) (acc.toNat + (l.map fun k => (f k).toNat).sum) := by
  induction l generalizing acc with
  | nil =>
    have bound := acc.toNat_lt
    simp only [List.foldl_nil, List.map_nil, List.sum_nil]
    omega
  | cons k l ih =>
    rw [List.foldl_cons, ih, saturatingAdd_eq_min, List.map_cons, List.sum_cons]
    omega

theorem subtreeSpentMicros_eq (t : Task) (id : String) (rates : RateCard) :
    t.subtreeSpentMicros id rates =
      (t.subtree id).foldl (fun total k => saturatingAdd total ((t.usageAt k).micros rates)) 0 := by
  rw [subtreeSpentMicros, ParentLinks.traverse_eq_foldl]
  unfold subtree
  congr 1
  funext total cur
  unfold usageAt readAt
  cases t.nodes.lookup cur with
  | none => simp [saturatingAdd, Usage.micros_default, total.toNat_lt]
  | some n => rfl

theorem subtreeSpentMicros_toNat {t : Task} {rates : RateCard} (fits : t.Fits rates)
    (id : String) : (t.subtreeSpentMicros id rates).toNat = t.exactSubtreeSpent id rates := by
  have each : ((t.subtree id).map fun k => ((t.usageAt k).micros rates).toNat).sum =
      t.exactSubtreeSpent id rates := by
    unfold exactSubtreeSpent
    congr 1
    exact List.map_congr_left fun k _ => Usage.micros_toNat (fits.nodes k)
  have bound := (t.exactSubtreeSpent_le_exactSpent id rates).trans_lt fits.total
  rw [subtreeSpentMicros_eq, foldl_saturatingAdd_eq_min, each]
  have zero : (0 : UInt64).toNat = 0 := rfl
  omega

end Task

end Tailfin
