import Mathlib.Algebra.BigOperators.Group.Finset.Basic
import Mathlib.Algebra.Order.BigOperators.Group.Finset
import Mathlib.Algebra.Order.Ring.Nat
import Mathlib.Data.UInt

/-!
# Sums that wrap

A sum in a fixed-width type is the exact sum, reduced. Where the parts of a sum are quotients of
numbers that were reduced too, the result is exact only if nothing was reduced at all: a quotient
that lost its high part is too small, and no later reduction makes up for it.
-/

namespace Wrapping

/-- A `u64` sum is the exact sum modulo `2 ^ 64`. -/
theorem toNat_sum (l : List UInt64) : l.sum.toNat = (l.map UInt64.toNat).sum % 2 ^ 64 := by
  induction l with
  | nil => rfl
  | cons a l ih =>
    rw [List.sum_cons, UInt64.toNat_add, ih, List.map_cons, List.sum_cons, Nat.add_mod_mod]

section Quotients

variable {m d : Nat}

theorem mod_div_le (c : Nat) : c % m / d ≤ c / d := Nat.div_le_div_right (Nat.mod_le c m)

/-- Reducing a number that does not fit lowers its quotient, if the divisor fits. -/
theorem mod_div_eq_iff (positive : 0 < d) (small : d ≤ m) {c : Nat} :
    c % m / d = c / d ↔ c < m := by
  constructor
  · intro same
    by_contra large
    have lost : c % m + d ≤ c := by
      have split_ := Nat.mod_add_div c m
      have high : m * 1 ≤ m * (c / m) :=
        Nat.mul_le_mul_left m (Nat.div_pos (Nat.le_of_not_lt large) (by omega))
      omega
    have fewer := Nat.div_le_div_right (c := d) lost
    rw [Nat.add_div_right _ positive] at fewer
    omega
  · intro fits
    rw [Nat.mod_eq_of_lt fits]

variable {ι : Type*} (s : Finset ι) (c : ι → Nat)

/-- A reduced sum of quotients of reduced numbers is exact if and only if every number and the sum
fit. -/
theorem sum_mod_div_eq_iff (positive : 0 < d) (small : d ≤ m) :
    (∑ k ∈ s, c k % m / d) % m = ∑ k ∈ s, c k / d ↔
      (∀ k ∈ s, c k < m) ∧ ∑ k ∈ s, c k / d < m := by
  have each : ∀ k ∈ s, c k % m / d ≤ c k / d := fun k _ => mod_div_le (c k)
  constructor
  · intro same
    have below : ∑ k ∈ s, c k / d < m := same ▸ Nat.mod_lt _ (by omega)
    have equal : ∑ k ∈ s, c k % m / d = ∑ k ∈ s, c k / d :=
      Nat.le_antisymm (Finset.sum_le_sum each) (same ▸ Nat.mod_le _ m)
    refine ⟨fun k hk => ?_, below⟩
    exact (mod_div_eq_iff positive small).mp ((Finset.sum_eq_sum_iff_of_le each).mp equal k hk)
  · rintro ⟨fits, below⟩
    have equal : ∑ k ∈ s, c k % m / d = ∑ k ∈ s, c k / d :=
      Finset.sum_congr rfl fun k hk => (mod_div_eq_iff positive small).mpr (fits k hk)
    rw [equal, Nat.mod_eq_of_lt below]

end Quotients

end Wrapping
