import Tailfin.Tree.Spend

/-!
# What a subtree is charged

`subtree_spent_micros` of `tailfin-tree` over whatever parents the requests named. Its loop ends,
since every round takes a node off a stack that no node is put on twice for the same parent, and
it adds up the stored nodes from which recorded parents lead to the one it is asked for.
-/

namespace Tailfin

namespace Task

/-- The loop of `subtree_spent_micros`, if its stack is empty after so many rounds. -/
def subtreeSpentWithin (t : Task) (rounds : Nat) (id : String) (rates : RateCard) :
    Option UInt64 :=
  ParentLinks.traverseWithin (fun cur => (t.childrenOf cur).reverse)
    (fun total cur =>
      match t.nodes.lookup cur with
      | some n => saturatingAdd total (n.usage.micros rates)
      | none => total)
    rounds [id] [] 0

open Classical in
/-- The stored nodes from which following parent links leads to `id`, and `id` if it is stored. -/
noncomputable def below (t : Task) (id : String) : Finset String :=
  t.order.toFinset.filter fun k => ParentLinks.LeadsTo t.parentOf k id

theorem mem_below {t : Task} {id k : String} :
    k ∈ t.below id ↔ k ∈ t.nodes ∧ ParentLinks.LeadsTo t.parentOf k id := by
  classical
  rw [below, Finset.mem_filter, List.mem_toFinset, t.mem_order]

/-- One round more than there are nodes is enough. -/
theorem subtreeSpentWithin_eq (t : Task) (id : String) (rates : RateCard) (more : Nat) :
    t.subtreeSpentWithin (t.order.length + 1 + more) id rates =
      some (t.subtreeSpentMicros id rates) := by
  have pushes : ∀ x, ((t.childrenOf x).reverse).Perm
      (t.order.filter fun y => t.parentOf y = some x) := by
    intro x
    rw [childrenOf_eq]
    exact List.reverse_perm _
  exact ParentLinks.traverse_ends pushes _ id 0 (Nat.le_add_right _ more)

/-- An id that was never seen is charged nothing. -/
theorem micros_of_absent {t : Task} {k : String} (absent : k ∉ t.nodes) (rates : RateCard) :
    (t.usageAt k).micros rates = 0 := by
  rw [usageAt, readAt_of_absent (AList.lookup_eq_none.mpr absent), Usage.micros_default]

/-- The nodes that the loop adds up cost what the stored ones among them cost. -/
theorem sum_subtree (t : Task) (id : String) (rates : RateCard) :
    ((t.subtree id).map fun k => ((t.usageAt k).micros rates).toNat).sum =
      ∑ k ∈ t.below id, ((t.usageAt k).micros rates).toNat := by
  rw [← List.sum_toFinset _ (t.subtree_nodup id)]
  symm
  apply Finset.sum_subset
  · intro k hk
    rw [List.mem_toFinset, mem_subtree]
    exact (mem_below.mp hk).2
  · intro k listed other
    rw [List.mem_toFinset, mem_subtree] at listed
    have absent : k ∉ t.nodes := fun stored => other (mem_below.mpr ⟨stored, listed⟩)
    rw [micros_of_absent absent]
    rfl

/-- The loop ends, and every node below `id` is charged once, whatever the parents are. -/
theorem subtreeSpentMicros_charges (t : Task) (id : String) (rates : RateCard) :
    (∀ more, t.subtreeSpentWithin (t.order.length + 1 + more) id rates =
      some (t.subtreeSpentMicros id rates)) ∧
    (t.subtreeSpentMicros id rates).toNat =
      min (2 ^ 64 - 1) (∑ k ∈ t.below id, ((t.usageAt k).micros rates).toNat) := by
  refine ⟨t.subtreeSpentWithin_eq id rates, ?_⟩
  have added := foldl_saturatingAdd_eq_min (fun k => (t.usageAt k).micros rates) (t.subtree id) 0
  rw [subtreeSpentMicros_eq, added, t.sum_subtree]
  simp

end Task

end Tailfin
