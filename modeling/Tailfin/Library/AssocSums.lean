import Mathlib.Algebra.Order.Ring.Nat
import Mathlib.Data.List.AList
import Mathlib.Algebra.BigOperators.Group.Finset.Basic
import Mathlib.Algebra.Order.BigOperators.Group.Finset

/-!
# Sums over the values of a finite map

A finite map is an `AList` with one value type. The values come in no particular order, so a
sum over them is stated as a `Finset` sum over the keys, where Mathlib's lemmas apply.
-/

namespace AssocSums

variable {α β M : Type*} [DecidableEq α] [AddCommMonoid M]

/-- What `f` gives for the value stored under `a`, and `0` where there is none. -/
def valueAt (f : β → M) (m : AList (fun _ : α => β)) (a : α) : M := (m.lookup a).elim 0 f

theorem valueAt_of_notMem {f : β → M} {m : AList (fun _ : α => β)} {a : α} (h : a ∉ m) :
    valueAt f m a = 0 := by
  simp [valueAt, AList.lookup_eq_none.mpr h]

theorem lookup_of_mem_entries {m : AList (fun _ : α => β)} {e : Sigma fun _ : α => β}
    (h : e ∈ m.entries) : m.lookup e.1 = some e.2 :=
  AList.mem_lookup_iff.mpr h

/-- The sum of `f` over the values is the sum over the keys of what is stored there. -/
theorem sum_values_eq (f : β → M) (m : AList (fun _ : α => β)) :
    (m.entries.map fun e => f e.2).sum = ∑ a ∈ m.keys.toFinset, valueAt f m a := by
  rw [List.sum_toFinset _ m.keys_nodup, AList.keys, List.keys, List.map_map]
  congr 1
  apply List.map_congr_left
  intro e he
  simp [valueAt, lookup_of_mem_entries he]

/-- The sum may be taken over any finite set of keys that holds all keys of the map. -/
theorem sum_values_eq_of_subset (f : β → M) (m : AList (fun _ : α => β)) {s : Finset α}
    (h : ∀ a ∈ m, a ∈ s) :
    (m.entries.map fun e => f e.2).sum = ∑ a ∈ s, valueAt f m a := by
  rw [sum_values_eq]
  apply Finset.sum_subset
  · intro a ha
    exact h a (AList.mem_keys.mpr (List.mem_toFinset.mp ha))
  · intro a _ ha
    apply valueAt_of_notMem
    intro hm
    exact ha (List.mem_toFinset.mpr (AList.mem_keys.mp hm))

/-- Two maps may be summed over the same keys, with any more of them. -/
theorem exists_common_keys (f : β → M) (m m' : AList (fun _ : α => β)) (more : Finset α) :
    ∃ s : Finset α, more ⊆ s ∧
      (m.entries.map fun e => f e.2).sum = ∑ a ∈ s, valueAt f m a ∧
      (m'.entries.map fun e => f e.2).sum = ∑ a ∈ s, valueAt f m' a := by
  refine ⟨more ∪ (m.keys.toFinset ∪ m'.keys.toFinset), Finset.subset_union_left, ?_, ?_⟩
  · exact sum_values_eq_of_subset f m fun a ha => by simp [AList.mem_keys.mp ha]
  · exact sum_values_eq_of_subset f m' fun a ha => by simp [AList.mem_keys.mp ha]

theorem sum_values_congr {f : β → M} {m m' : AList (fun _ : α => β)}
    (h : ∀ a, valueAt f m a = valueAt f m' a) :
    (m.entries.map fun e => f e.2).sum = (m'.entries.map fun e => f e.2).sum := by
  obtain ⟨s, -, sum, sum'⟩ := exists_common_keys f m m' ∅
  rw [sum, sum']
  exact Finset.sum_congr rfl fun a _ => h a

/-- Where only the value at `k` changes, and by `c`, the sum changes by `c`. -/
theorem sum_values_add {f : β → M} {m m' : AList (fun _ : α => β)} (k : α) (c : M)
    (other : ∀ a, a ≠ k → valueAt f m' a = valueAt f m a)
    (here : valueAt f m' k = valueAt f m k + c) :
    (m'.entries.map fun e => f e.2).sum = (m.entries.map fun e => f e.2).sum + c := by
  obtain ⟨s, more, sum, sum'⟩ := exists_common_keys f m m' {k}
  have hk : k ∈ s := more (Finset.mem_singleton_self k)
  have rest : ∑ a ∈ s.erase k, valueAt f m' a = ∑ a ∈ s.erase k, valueAt f m a :=
    Finset.sum_congr rfl fun a ha => other a (Finset.ne_of_mem_erase ha)
  rw [sum, sum', ← Finset.add_sum_erase _ _ hk, ← Finset.add_sum_erase _ _ hk, here, rest,
    add_right_comm]

/-- A map whose values all grew has the larger sum. -/
theorem sum_values_le {f : β → Nat} {m m' : AList (fun _ : α => β)}
    (h : ∀ a, valueAt f m a ≤ valueAt f m' a) :
    (m.entries.map fun e => f e.2).sum ≤ (m'.entries.map fun e => f e.2).sum := by
  obtain ⟨s, -, sum, sum'⟩ := exists_common_keys f m m' ∅
  rw [sum, sum']
  exact Finset.sum_le_sum fun a _ => h a

/-- Where only the value at `k` changes, and by at most `c`, the sum grows by at most `c`. -/
theorem sum_values_le_add {f : β → Nat} {m m' : AList (fun _ : α => β)} (k : α) (c : Nat)
    (other : ∀ a, a ≠ k → valueAt f m' a ≤ valueAt f m a)
    (here : valueAt f m' k ≤ valueAt f m k + c) :
    (m'.entries.map fun e => f e.2).sum ≤ (m.entries.map fun e => f e.2).sum + c := by
  obtain ⟨s, more, sum, sum'⟩ := exists_common_keys f m m' {k}
  have hk : k ∈ s := more (Finset.mem_singleton_self k)
  rw [sum, sum', ← Finset.add_sum_erase _ _ hk, ← Finset.add_sum_erase _ _ hk]
  have rest := Finset.sum_le_sum (s := s.erase k) (f := valueAt f m') (g := valueAt f m)
    fun a ha => other a (Finset.ne_of_mem_erase ha)
  omega

end AssocSums
