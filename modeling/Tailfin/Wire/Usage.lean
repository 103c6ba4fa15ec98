import Mathlib.Algebra.Order.Ring.Nat
import Mathlib.Tactic.Ring

/-!
# Token counts and their price

`Usage`, `RateCard` and their arithmetic from `tailfin-wire`. The source counts in `u64`, and a
release build wraps, so the model does too. `exactCost` is the price in unbounded numbers,
`exactMicros` that price rounded down to a micro-dollar and `ceilMicros` rounded up; the lemmas
say when the wrapping arithmetic agrees with them.
-/

namespace Tailfin

/-- `u64::saturating_add`. -/
def saturatingAdd (a b : UInt64) : UInt64 :=
  if a.toNat + b.toNat < 2 ^ 64 then a + b else UInt64.ofNat (2 ^ 64 - 1)

theorem saturatingAdd_eq_min (a b : UInt64) :
    (saturatingAdd a b).toNat = min (2 ^ 64 - 1) (a.toNat + b.toNat) := by
  unfold saturatingAdd
  split
  · next small =>
    rw [UInt64.toNat_add, Nat.mod_eq_of_lt small]
    omega
  · next large =>
    have top : (UInt64.ofNat (2 ^ 64 - 1)).toNat = 2 ^ 64 - 1 := rfl
    omega

/-- `u64::saturating_sub`. -/
def saturatingSub (a b : UInt64) : UInt64 := if b ≤ a then a - b else 0

theorem saturatingSub_toNat (a b : UInt64) : (saturatingSub a b).toNat = a.toNat - b.toNat := by
  unfold saturatingSub
  split
  · next le => exact UInt64.toNat_sub_of_le _ _ le
  · next lt =>
    rw [UInt64.le_iff_toNat_le] at lt
    show 0 = _
    omega

/-- Token counts, normalized across providers. -/
structure Usage where
  input : UInt64
  output : UInt64
  cacheWrite5m : UInt64
  cacheWrite1h : UInt64
  cacheRead : UInt64
  reasoning : UInt64
  deriving DecidableEq, Repr

instance : Inhabited Usage := ⟨⟨0, 0, 0, 0, 0, 0⟩⟩

/-- Micro-dollars per million tokens. -/
structure RateCard where
  input : UInt64
  output : UInt64
  cacheWrite5m : UInt64
  cacheWrite1h : UInt64
  cacheRead : UInt64
  deriving DecidableEq, Repr

/-- Derive the cache multipliers from a base input rate. -/
def RateCard.fromBase (input output : UInt64) : RateCard where
  input := input
  output := output
  cacheWrite5m := input * 5 / 4
  cacheWrite1h := input * 2
  cacheRead := input / 10

/-- A micro-dollar a token: the rates of the worked cases. -/
def RateCard.perToken : RateCard := ⟨1000000, 1000000, 1000000, 1000000, 1000000⟩

namespace Usage

/-- Cost in micro-dollars, given a rate card. -/
def micros (u : Usage) (r : RateCard) : UInt64 :=
  (u.input * r.input + u.output * r.output + u.cacheWrite5m * r.cacheWrite5m +
    u.cacheWrite1h * r.cacheWrite1h + u.cacheRead * r.cacheRead) / 1000000

def merge (u other : Usage) : Usage where
  input := u.input + other.input
  output := u.output + other.output
  cacheWrite5m := u.cacheWrite5m + other.cacheWrite5m
  cacheWrite1h := u.cacheWrite1h + other.cacheWrite1h
  cacheRead := u.cacheRead + other.cacheRead
  reasoning := u.reasoning + other.reasoning

/-- `n` output tokens, as the tests of `tailfin-tree` write them. -/
def out (n : UInt64) : Usage := { (default : Usage) with output := n }

/-- The cost in millionths of a micro-dollar, before the division and without a bound. -/
def exactCost (u : Usage) (r : RateCard) : Nat :=
  u.input.toNat * r.input.toNat + u.output.toNat * r.output.toNat +
    u.cacheWrite5m.toNat * r.cacheWrite5m.toNat + u.cacheWrite1h.toNat * r.cacheWrite1h.toNat +
    u.cacheRead.toNat * r.cacheRead.toNat

/-- The cost rounded down to a micro-dollar, in unbounded numbers. -/
def exactMicros (u : Usage) (r : RateCard) : Nat := u.exactCost r / 1000000

/-- The cost rounded up to a micro-dollar, in unbounded numbers. -/
def ceilMicros (u : Usage) (r : RateCard) : Nat := (u.exactCost r + 999999) / 1000000

/-- Merging `other` overflows no field of `u`. -/
structure MergeFits (u other : Usage) : Prop where
  input : u.input.toNat + other.input.toNat < 2 ^ 64
  output : u.output.toNat + other.output.toNat < 2 ^ 64
  cacheWrite5m : u.cacheWrite5m.toNat + other.cacheWrite5m.toNat < 2 ^ 64
  cacheWrite1h : u.cacheWrite1h.toNat + other.cacheWrite1h.toNat < 2 ^ 64
  cacheRead : u.cacheRead.toNat + other.cacheRead.toNat < 2 ^ 64
  reasoning : u.reasoning.toNat + other.reasoning.toNat < 2 ^ 64

theorem mergeFits_iff (u other : Usage) : u.MergeFits other ↔
    u.input.toNat + other.input.toNat < 2 ^ 64 ∧ u.output.toNat + other.output.toNat < 2 ^ 64 ∧
      u.cacheWrite5m.toNat + other.cacheWrite5m.toNat < 2 ^ 64 ∧
      u.cacheWrite1h.toNat + other.cacheWrite1h.toNat < 2 ^ 64 ∧
      u.cacheRead.toNat + other.cacheRead.toNat < 2 ^ 64 ∧
      u.reasoning.toNat + other.reasoning.toNat < 2 ^ 64 :=
  ⟨fun ⟨h₁, h₂, h₃, h₄, h₅, h₆⟩ => ⟨h₁, h₂, h₃, h₄, h₅, h₆⟩,
    fun ⟨h₁, h₂, h₃, h₄, h₅, h₆⟩ => ⟨h₁, h₂, h₃, h₄, h₅, h₆⟩⟩

instance (u other : Usage) : Decidable (u.MergeFits other) :=
  decidable_of_iff _ (mergeFits_iff u other).symm

@[simp] theorem exactCost_default (r : RateCard) : (default : Usage).exactCost r = 0 := by
  simp [exactCost, show (default : Usage) = ⟨0, 0, 0, 0, 0, 0⟩ from rfl]

@[simp] theorem micros_default (r : RateCard) : (default : Usage).micros r = 0 := by
  simp [micros, show (default : Usage) = ⟨0, 0, 0, 0, 0, 0⟩ from rfl]

@[simp] theorem exactMicros_default (r : RateCard) : (default : Usage).exactMicros r = 0 := by
  simp [exactMicros]

@[simp] theorem ceilMicros_default (r : RateCard) : (default : Usage).ceilMicros r = 0 := by
  simp [ceilMicros]

/-- Where the exact cost fits in a `u64`, the code's arithmetic is exact. -/
theorem micros_toNat {u : Usage} {r : RateCard} (fits : u.exactCost r < 2 ^ 64) :
    (u.micros r).toNat = u.exactMicros r := by
  simp only [exactCost] at fits
  simp only [micros, exactMicros, exactCost, UInt64.toNat_div, UInt64.toNat_add, UInt64.toNat_mul,
    Nat.mod_add_mod, Nat.add_mod_mod]
  rw [Nat.mod_eq_of_lt fits]
  rfl

theorem exactCost_merge {u other : Usage} (fits : u.MergeFits other) (r : RateCard) :
    (u.merge other).exactCost r = u.exactCost r + other.exactCost r := by
  simp only [exactCost, merge, UInt64.toNat_add, Nat.mod_eq_of_lt fits.input,
    Nat.mod_eq_of_lt fits.output, Nat.mod_eq_of_lt fits.cacheWrite5m,
    Nat.mod_eq_of_lt fits.cacheWrite1h, Nat.mod_eq_of_lt fits.cacheRead]
  ring

theorem exactMicros_le_merge {u other : Usage} (fits : u.MergeFits other) (r : RateCard) :
    u.exactMicros r ≤ (u.merge other).exactMicros r := by
  rw [exactMicros, exactMicros, exactCost_merge fits]
  omega

/-- Rounding costs nothing: a merge adds at most the merged cost rounded up. -/
theorem exactMicros_merge_le {u other : Usage} (fits : u.MergeFits other) (r : RateCard) :
    (u.merge other).exactMicros r ≤ u.exactMicros r + other.ceilMicros r := by
  rw [exactMicros, exactMicros, ceilMicros, exactCost_merge fits]
  omega

end Usage

end Tailfin
