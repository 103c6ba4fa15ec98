import Mathlib.Data.List.Basic
import Mathlib.Tactic.Common

/-!
# Prefix digests

`PrefixDigest` of `tailfin-ident`: cumulative FNV-1a hashes of a conversation at six depths, and
how two conversations are compared by them. A digest that is built from messages holds every
level up to its deepest one, so that two of them agree to a level exactly when `match_level`
reaches it.
-/

namespace Tailfin

/-- Prefix depths at which conversations are digested. -/
def levels : Vector Nat 6 := #v[1, 2, 4, 8, 16, 32]

theorem levels_mono : ∀ a b : Fin 6, a ≤ b → levels[a] ≤ levels[b] := by decide

structure PrefixDigest where
  levels : Vector (Option UInt64) 6
  deriving DecidableEq, Repr

def fnvOffset : UInt64 := 0xcbf29ce484222325

def fnvPrime : UInt64 := 0x00000100000001b3

def fnv1a (h : UInt64) (bytes : List UInt8) : UInt64 :=
  bytes.foldl (fun h b => (h ^^^ b.toUInt64) * fnvPrime) h

namespace PrefixDigest

/-- The loop of `from_messages`, at message `idx` with hash `rolling`. -/
def digestFrom : List (List UInt8) → Nat → UInt64 → Vector (Option UInt64) 6 →
    Vector (Option UInt64) 6
  | [], _, _, found => found
  | msg :: msgs, idx, rolling, found =>
    let rolling := fnv1a (fnv1a rolling msg) [0x1e]
    let depth := idx + 1
    let found := Vector.zipWith (fun lv old => if depth = lv then some rolling else old)
      Tailfin.levels found
    if depth ≥ 32 then found else digestFrom msgs depth rolling found

/-- Digest an ordered sequence of canonical message representations. -/
def fromMessages (msgs : List (List UInt8)) : PrefixDigest :=
  ⟨digestFrom msgs 0 fnvOffset (Vector.replicate 6 none)⟩

/-- `levels.get(idx).copied().flatten()`. -/
def level (d : PrefixDigest) (idx : Nat) : Option UInt64 := (d.levels[idx]?).join

/-- True when the conversation is long enough to identify at level `idx`. -/
def hasLevel (d : PrefixDigest) (idx : Nat) : Bool := (d.level idx).isSome

/-- The loop of `match_level` over the next `n` levels from `i` on. -/
def matchFrom (d other : PrefixDigest) : Nat → Nat → Option Nat → Option Nat
  | 0, _, best => best
  | n + 1, i, best =>
    match d.level i, other.level i with
    | some a, some b => if a = b then matchFrom d other n (i + 1) (some i) else best
    | _, _ => best

/-- Deepest level index at which two digests agree, if any. -/
def matchLevel (d other : PrefixDigest) : Option Nat := matchFrom d other 6 0 none

/-! ## Agreement -/

/-- Both digests have level `i`, with the same hash. -/
def SameAt (d other : PrefixDigest) (i : Nat) : Prop :=
  ∃ h, d.level i = some h ∧ other.level i = some h

/-- Both digests have every level up to `k`, with the same hashes. -/
def Agree (k : Nat) (d other : PrefixDigest) : Prop := ∀ i ≤ k, d.SameAt other i

theorem Agree.symm {k : Nat} {d other : PrefixDigest} (h : Agree k d other) : Agree k other d := by
  intro i hi
  obtain ⟨x, a, b⟩ := h i hi
  exact ⟨x, b, a⟩

theorem Agree.trans {k : Nat} {a b c : PrefixDigest} (h : Agree k a b) (h' : Agree k b c) :
    Agree k a c := by
  intro i hi
  obtain ⟨x, ha, hb⟩ := h i hi
  obtain ⟨y, hb', hc⟩ := h' i hi
  rw [hb, Option.some_inj] at hb'
  exact ⟨x, ha, hb' ▸ hc⟩

/-- The result of the loop is at least `k` when all levels up to `k` agree. -/
theorem matchFrom_iff {d other : PrefixDigest} {n i : Nat} {best : Option Nat}
    (before : ∀ j < i, d.SameAt other j) (start : ∀ k, (∃ lv, best = some lv ∧ k ≤ lv) ↔ k < i)
    (k : Nat) :
    (∃ lv, matchFrom d other n i best = some lv ∧ k ≤ lv) ↔
      k < i + n ∧ ∀ j ≤ k, d.SameAt other j := by
  induction n generalizing i best with
  | zero =>
    rw [matchFrom, start]
    exact ⟨fun h => ⟨h, fun j hj => before j (by omega)⟩, fun h => h.1⟩
  | succ n ih =>
    by_cases here : d.SameAt other i
    · obtain ⟨x, a, b⟩ := here
      rw [matchFrom, a, b]
      simp only [if_true]
      rw [ih, Nat.add_right_comm, Nat.add_assoc]
      · intro j hj
        rcases Nat.lt_succ_iff_lt_or_eq.mp hj with hj | rfl
        · exact before j hj
        · exact ⟨x, a, b⟩
      · intro k
        simp only [Option.some.injEq, exists_eq_left', Nat.lt_succ_iff]
    · -- The loop breaks here, and no level from here on counts.
      have broken : matchFrom d other (n + 1) i best = best := by
        rw [matchFrom]
        split
        · next x y hx hy =>
          rw [if_neg]
          rintro rfl
          exact here ⟨x, hx, hy⟩
        · rfl
      rw [broken, start]
      constructor
      · exact fun h => ⟨by omega, fun j hj => before j (by omega)⟩
      · rintro ⟨-, all⟩
        by_contra deep
        exact here (all i (by omega))

/-- The match reaches level `k` if and only if the digests agree up to it. -/
theorem matchLevel_iff {k : Nat} (hk : k < 6) (d other : PrefixDigest) :
    (∃ lv, d.matchLevel other = some lv ∧ k ≤ lv) ↔ Agree k d other := by
  rw [matchLevel, matchFrom_iff (by simp) (by simp)]
  exact ⟨fun h => h.2, fun h => ⟨by omega, h⟩⟩

/-! ## Digests of messages -/

theorem level_eq_some {d : PrefixDigest} {i : Nat} {h : UInt64} :
    d.level i = some h ↔ ∃ hi : i < 6, d.levels[i] = some h := by
  unfold level
  by_cases hi : i < 6
  · simp [hi]
  · simp [hi]

/-- The levels found are those of the messages read. -/
theorem digestFrom_isSome (msgs : List (List UInt8)) (idx : Nat) (rolling : UInt64)
    (found : Vector (Option UInt64) 6) (few : idx < 32)
    (start : ∀ i, ∀ hi : i < 6, (found[i]).isSome = true ↔ Tailfin.levels[i] ≤ idx)
    (i : Nat) (hi : i < 6) :
    ((digestFrom msgs idx rolling found)[i]).isSome = true ↔
      Tailfin.levels[i] ≤ idx + msgs.length := by
  induction msgs generalizing idx rolling found with
  | nil => exact start i hi
  | cons msg msgs ih =>
    have next : ∀ i, ∀ hi : i < 6,
        ((Vector.zipWith (fun lv old => if idx + 1 = lv then
          some (fnv1a (fnv1a rolling msg) [0x1e]) else old) Tailfin.levels found)[i]).isSome =
            true ↔ Tailfin.levels[i] ≤ idx + 1 := by
      intro i hi
      rw [Vector.getElem_zipWith]
      have before := start i hi
      split
      · next reached => simp [reached]
      · next other =>
        rw [before]
        omega
    have most : ∀ i, ∀ hi : i < 6, Tailfin.levels[i] ≤ 32 := by decide
    rw [digestFrom]
    split
    · rw [next i hi, List.length_cons]
      have := most i hi
      omega
    · rw [ih _ _ _ (by omega) next, List.length_cons]
      omega

/-- A digest of messages has the levels that the messages reach. -/
theorem hasLevel_fromMessages (msgs : List (List UInt8)) {i : Nat} (hi : i < 6) :
    (fromMessages msgs).hasLevel i = true ↔ Tailfin.levels[i] ≤ msgs.length := by
  have reached := digestFrom_isSome msgs 0 fnvOffset (Vector.replicate 6 none) (by omega)
    (by decide) i hi
  rw [Nat.zero_add] at reached
  rw [← reached, hasLevel, level, fromMessages, Vector.getElem?_eq_getElem hi]
  rfl

/-- With a level a digest of messages has every level before it. -/
theorem hasLevel_of_le {msgs : List (List UInt8)} {i j : Nat} (hj : i ≤ j)
    (h : (fromMessages msgs).hasLevel j = true) : (fromMessages msgs).hasLevel i = true := by
  have bound : j < 6 := by
    unfold hasLevel at h
    obtain ⟨x, hx⟩ := Option.isSome_iff_exists.mp h
    exact (level_eq_some.mp hx).1
  rw [hasLevel_fromMessages msgs (by omega)]
  exact Nat.le_trans (levels_mono ⟨i, by omega⟩ ⟨j, bound⟩ hj)
    ((hasLevel_fromMessages msgs bound).mp h)

/-- Two digests of messages agree up to `k` when both have level `k` and no level up to it
differs. -/
theorem agree_fromMessages_iff (k : Nat) (m m' : List (List UInt8)) :
    Agree k (fromMessages m) (fromMessages m') ↔
      (fromMessages m).hasLevel k = true ∧ (fromMessages m').hasLevel k = true ∧
        ∀ i ≤ k, (fromMessages m).level i = (fromMessages m').level i := by
  constructor
  · intro agree
    obtain ⟨x, a, b⟩ := agree k (Nat.le_refl k)
    refine ⟨by simp [hasLevel, a], by simp [hasLevel, b], fun i hi => ?_⟩
    obtain ⟨y, c, d⟩ := agree i hi
    rw [c, d]
  · rintro ⟨has, -, same⟩ i hi
    obtain ⟨x, hx⟩ := Option.isSome_iff_exists.mp (hasLevel_of_le hi has)
    exact ⟨x, hx, (same i hi).symm.trans hx⟩

end PrefixDigest

end Tailfin
