import Mathlib.Data.List.Infix
import Mathlib.Order.Bounds.Defs
import Tailfin.Ident.PrefixDigest
import Tailfin.Library.Utf8

/-!
# What a shared depth says

The rolling hash at a level is the hash of the messages so far, each followed by a separator byte.
As long as no two of the byte strings hashed collide, two digests agree at a level when these
texts do. A message may hold the separator itself, and then the text does not say where one
message ends and the next begins.
-/

namespace Tailfin

namespace PrefixDigest

/-- Number of leading messages known to be shared. -/
def sharedDepth (d other : PrefixDigest) : Nat :=
  ((d.matchLevel other).map fun i => (Tailfin.levels[i]?).getD 0).getD 0

/-- The bytes that are hashed for these messages. -/
def hashed (msgs : List (List UInt8)) : List UInt8 := msgs.flatMap (· ++ [0x1e])

/-- The hash of the first `n` messages. -/
def hashAt (msgs : List (List UInt8)) (n : Nat) : UInt64 := fnv1a fnvOffset (hashed (msgs.take n))

@[simp] theorem hashed_nil : hashed [] = [] := rfl

@[simp] theorem hashed_cons (msg : List UInt8) (msgs : List (List UInt8)) :
    hashed (msg :: msgs) = msg ++ 0x1e :: hashed msgs := by
  simp [hashed]

@[simp] theorem hashed_append (msgs msgs' : List (List UInt8)) :
    hashed (msgs ++ msgs') = hashed msgs ++ hashed msgs' :=
  List.flatMap_append

theorem levels_pos : ∀ i, ∀ hi : i < 6, 0 < Tailfin.levels[i] := by decide

theorem levels_reflect :
    ∀ i, ∀ hi : i < 6, ∀ j, ∀ hj : j < 6, Tailfin.levels[i] ≤ Tailfin.levels[j] → i ≤ j := by
  decide

theorem levels_first : Tailfin.levels[0] / 2 = 0 := by decide

/-- Half a level is the level before it. -/
theorem levels_half : ∀ i : Fin 5, Tailfin.levels[i.val + 1] / 2 = Tailfin.levels[i.val] := by
  decide

theorem fnv1a_append (h : UInt64) (s t : List UInt8) : fnv1a h (s ++ t) = fnv1a (fnv1a h s) t :=
  List.foldl_append

/-! ## The levels of a digest -/

/-- The loop finds the hashes of the levels that the messages reach, `pre` being those before. -/
theorem digestFrom_getElem (msgs pre : List (List UInt8))
    (found : Vector (Option UInt64) 6) (few : pre.length < 32)
    (start : ∀ i, ∀ hi : i < 6, found[i] =
      if Tailfin.levels[i] ≤ pre.length then some (hashAt pre Tailfin.levels[i]) else none)
    (i : Nat) (hi : i < 6) :
    (digestFrom msgs pre.length (fnv1a fnvOffset (hashed pre)) found)[i] =
      if Tailfin.levels[i] ≤ (pre ++ msgs).length then
        some (hashAt (pre ++ msgs) Tailfin.levels[i])
      else none := by
  induction msgs generalizing pre found with
  | nil =>
    rw [digestFrom, start i hi, List.append_nil]
  | cons msg msgs ih =>
    have rolling : fnv1a (fnv1a (fnv1a fnvOffset (hashed pre)) msg) [0x1e] =
        fnv1a fnvOffset (hashed (pre ++ [msg])) := by
      rw [hashed_append, hashed_cons, hashed_nil, ← fnv1a_append, ← fnv1a_append]
    have next : ∀ i, ∀ hi : i < 6,
        (Vector.zipWith (fun lv old => if pre.length + 1 = lv then
          some (fnv1a fnvOffset (hashed (pre ++ [msg]))) else old) Tailfin.levels found)[i] =
          if Tailfin.levels[i] ≤ (pre ++ [msg]).length then
            some (hashAt (pre ++ [msg]) Tailfin.levels[i])
          else none := by
      intro i hi
      rw [Vector.getElem_zipWith, start i hi, List.length_append, List.length_singleton]
      by_cases here : pre.length + 1 = Tailfin.levels[i]
      · rw [if_pos here, if_pos here.ge, hashAt, List.take_of_length_le (by simp [here])]
      · rw [if_neg here]
        by_cases reached : Tailfin.levels[i] ≤ pre.length
        · rw [if_pos reached, if_pos (by omega), hashAt, hashAt,
            List.take_append_of_le_length reached]
        · rw [if_neg reached, if_neg (by omega)]
    have most : ∀ i, ∀ hi : i < 6, Tailfin.levels[i] ≤ 32 := by decide
    have whole : pre ++ msg :: msgs = pre ++ [msg] ++ msgs := by simp
    rw [digestFrom, rolling, whole]
    split
    · next enough =>
      -- Behind the deepest level nothing is read.
      have reached : Tailfin.levels[i] ≤ (pre ++ [msg]).length := by
        have := most i hi
        simp only [List.length_append, List.length_singleton]
        omega
      rw [next i hi, if_pos reached, if_pos (by rw [List.length_append]; omega), hashAt, hashAt,
        List.take_append_of_le_length reached]
    · next fewer =>
      have longer : (pre ++ [msg]).length = pre.length + 1 := List.length_append
      have step := ih (pre ++ [msg]) _ (by omega) next
      rw [longer] at step
      exact step

/-- The hash at a level, where the messages reach it. -/
theorem level_fromMessages (msgs : List (List UInt8)) {i : Nat} (hi : i < 6) :
    (fromMessages msgs).level i =
      if Tailfin.levels[i] ≤ msgs.length then some (hashAt msgs Tailfin.levels[i]) else none := by
  have none_yet : ∀ i, ∀ hi : i < 6, (Vector.replicate 6 (none : Option UInt64))[i] =
      if Tailfin.levels[i] ≤ ([] : List (List UInt8)).length then
        some (hashAt [] Tailfin.levels[i])
      else none := by
    intro i hi
    rw [List.length_nil, if_neg (Nat.not_le.mpr (levels_pos i hi)), Vector.getElem_replicate]
  have found := digestFrom_getElem msgs [] (Vector.replicate 6 none) (by decide) none_yet i hi
  rw [List.nil_append] at found
  rw [level, fromMessages, Vector.getElem?_eq_getElem hi, Option.join_some]
  exact found

/-! ## Hashes without collisions -/

/-- FNV-1a tells the byte strings apart that are hashed on the way through these messages. -/
def CollisionFree (a b : List (List UInt8)) : Prop :=
  ∀ s ∈ (hashed a).inits, ∀ t ∈ (hashed b).inits,
    fnv1a fnvOffset s = fnv1a fnvOffset t → s = t

instance (a b : List (List UInt8)) : Decidable (CollisionFree a b) :=
  inferInstanceAs (Decidable (∀ s ∈ _, ∀ t ∈ _, _))

theorem hashed_take_mem_inits (msgs : List (List UInt8)) (n : Nat) :
    hashed (msgs.take n) ∈ (hashed msgs).inits := by
  rw [List.mem_inits]
  refine ⟨hashed (msgs.drop n), ?_⟩
  rw [← hashed_append, List.take_append_drop]

theorem sameAt_iff {a b : List (List UInt8)} (free : CollisionFree a b) {i : Nat} (hi : i < 6) :
    (fromMessages a).SameAt (fromMessages b) i ↔
      Tailfin.levels[i] ≤ a.length ∧ Tailfin.levels[i] ≤ b.length ∧
        hashed (a.take Tailfin.levels[i]) = hashed (b.take Tailfin.levels[i]) := by
  unfold SameAt
  rw [level_fromMessages a hi, level_fromMessages b hi]
  constructor
  · rintro ⟨x, ha, hb⟩
    obtain ⟨la, hashA⟩ := Option.ite_none_right_eq_some.mp ha
    obtain ⟨lb, hashB⟩ := Option.ite_none_right_eq_some.mp hb
    refine ⟨la, lb, ?_⟩
    exact free _ (hashed_take_mem_inits a _) _ (hashed_take_mem_inits b _)
      (Option.some.inj (hashA.trans hashB.symm))
  · rintro ⟨la, lb, same⟩
    refine ⟨hashAt a Tailfin.levels[i], if_pos la, ?_⟩
    rw [if_pos lb, hashAt, hashAt, same]

/-! ## The depth that is shared -/

/-- The first `n` messages of both are there, and are the same. -/
def Shares (a b : List (List UInt8)) (n : Nat) : Prop :=
  n ≤ a.length ∧ n ≤ b.length ∧ a.take n = b.take n

/-- The deepest level at which the messages are the same, and 0 if there is none. -/
def IsSharedDepth (a b : List (List UInt8)) (n : Nat) : Prop :=
  IsGreatest {k | k = 0 ∨ k ∈ Tailfin.levels ∧ Shares a b k} n

/-- The messages between level `n` and the level before it. -/
def block (msgs : List (List UInt8)) (n : Nat) : List (List UInt8) := (msgs.take n).drop (n / 2)

/-- Where both have level `n` and are the same up to the level before it, the bytes of the
messages in between tell where these end. -/
def UnambiguousAt (a b : List (List UInt8)) (n : Nat) : Prop :=
  n ≤ a.length → n ≤ b.length → a.take (n / 2) = b.take (n / 2) →
    hashed (block a n) = hashed (block b n) → block a n = block b n

def Unambiguous (a b : List (List UInt8)) : Prop := ∀ n ∈ Tailfin.levels, UnambiguousAt a b n

instance (a b : List (List UInt8)) (n : Nat) : Decidable (UnambiguousAt a b n) :=
  inferInstanceAs (Decidable (_ → _ → _ → _ → _))

instance (a b : List (List UInt8)) : Decidable (Unambiguous a b) :=
  inferInstanceAs (Decidable (∀ n ∈ Tailfin.levels, UnambiguousAt a b n))

theorem take_block (msgs : List (List UInt8)) (n : Nat) :
    msgs.take (n / 2) ++ block msgs n = msgs.take n := by
  have front : msgs.take (n / 2) = (msgs.take n).take (n / 2) := by
    rw [List.take_take, Nat.min_eq_left (Nat.div_le_self n 2)]
  rw [front, block, List.take_append_drop]

theorem matchLevel_lt {d other : PrefixDigest} {lv : Nat} (h : d.matchLevel other = some lv) :
    lv < 6 := by
  by_contra deep
  have found : ∃ v, matchFrom d other 6 0 none = some v ∧ 6 ≤ v := ⟨lv, h, by omega⟩
  obtain ⟨within, -⟩ := (matchFrom_iff (by simp) (by simp) 6).mp found
  omega

/-- The shared depth reaches a level if and only if the digests agree up to it. -/
theorem levels_le_sharedDepth_iff {k : Nat} (hk : k < 6) (d other : PrefixDigest) :
    Tailfin.levels[k] ≤ d.sharedDepth other ↔ Agree k d other := by
  rw [← matchLevel_iff hk, sharedDepth]
  cases found : d.matchLevel other with
  | none =>
    have := levels_pos k hk
    simp only [Option.map_none, Option.getD_none, reduceCtorEq, false_and, exists_false, iff_false]
    omega
  | some lv =>
    have bound := matchLevel_lt found
    have depth : (Tailfin.levels[lv]?).getD 0 = Tailfin.levels[lv] := by
      rw [Vector.getElem?_eq_getElem bound, Option.getD_some]
    simp only [Option.map_some, Option.getD_some, depth, Option.some.injEq, exists_eq_left']
    exact ⟨levels_reflect k hk lv bound, fun h => levels_mono ⟨k, hk⟩ ⟨lv, bound⟩ h⟩

theorem exists_level_of_mem {n : Nat} (h : n ∈ Tailfin.levels) :
    ∃ k, ∃ hk : k < 6, Tailfin.levels[k] = n := by
  obtain ⟨k, hk, same⟩ := Vector.mem_iff_getElem.mp h
  exact ⟨k, hk, same⟩

/-- The shared depth is 0 or a level. -/
theorem sharedDepth_cases (d other : PrefixDigest) :
    d.sharedDepth other = 0 ∨
      ∃ k, ∃ hk : k < 6, d.sharedDepth other = Tailfin.levels[k] ∧ Agree k d other := by
  cases found : d.matchLevel other with
  | none => exact .inl (by rw [sharedDepth, found]; rfl)
  | some lv =>
    have bound := matchLevel_lt found
    refine .inr ⟨lv, bound, ?_, (matchLevel_iff bound d other).mp ⟨lv, found, Nat.le_refl lv⟩⟩
    rw [sharedDepth, found, Option.map_some, Option.getD_some, Vector.getElem?_eq_getElem bound,
      Option.getD_some]

/-- With the front the same, a level is the same if its bytes are. -/
theorem take_of_block {a b : List (List UInt8)} (clear : Unambiguous a b) {k : Nat} (hk : k < 6)
    (la : Tailfin.levels[k] ≤ a.length) (lb : Tailfin.levels[k] ≤ b.length)
    (front : a.take (Tailfin.levels[k] / 2) = b.take (Tailfin.levels[k] / 2))
    (same : hashed (a.take Tailfin.levels[k]) = hashed (b.take Tailfin.levels[k])) :
    a.take Tailfin.levels[k] = b.take Tailfin.levels[k] := by
  rw [← take_block a, ← take_block b, hashed_append, hashed_append, front,
    List.append_cancel_left_eq] at same
  have blocks := clear _ (Vector.getElem_mem hk) la lb front same
  rw [← take_block a, ← take_block b, front, blocks]

section Exact

variable {a b : List (List UInt8)} (free : CollisionFree a b)

include free

/-- What is the same is hashed the same. -/
theorem agree_of_shares {k : Nat} (hk : k < 6) (h : Shares a b Tailfin.levels[k]) :
    Agree k (fromMessages a) (fromMessages b) := by
  intro i hi
  obtain ⟨la, lb, same⟩ := h
  have below : Tailfin.levels[i] ≤ Tailfin.levels[k] :=
    levels_mono ⟨i, by omega⟩ ⟨k, hk⟩ hi
  rw [sameAt_iff free (by omega)]
  refine ⟨Nat.le_trans below la, Nat.le_trans below lb, ?_⟩
  have front := congrArg (List.take Tailfin.levels[i]) same
  rw [List.take_take, List.take_take, Nat.min_eq_left below] at front
  rw [front]

/-- Digests that agree up to a level come from the same messages, level by level. -/
theorem shares_of_agree (clear : Unambiguous a b) {k : Nat} (hk : k < 6)
    (agree : Agree k (fromMessages a) (fromMessages b)) : Shares a b Tailfin.levels[k] := by
  obtain ⟨la, lb, same⟩ := (sameAt_iff free hk).mp (agree k (Nat.le_refl k))
  have front : a.take (Tailfin.levels[k] / 2) = b.take (Tailfin.levels[k] / 2) := by
    induction k with
    | zero => rw [levels_first, List.take_zero, List.take_zero]
    | succ k ih =>
      rw [levels_half ⟨k, by omega⟩]
      have before : Agree k (fromMessages a) (fromMessages b) := fun i hi => agree i (by omega)
      obtain ⟨la', lb', same'⟩ := (sameAt_iff free (by omega)).mp (before k (Nat.le_refl k))
      have front := ih (by omega) before la' lb' same'
      exact take_of_block clear (by omega) la' lb' front same'
  exact ⟨la, lb, take_of_block clear hk la lb front same⟩

/-- The shared depth is exact where the separators mark the same messages. -/
theorem isSharedDepth_iff :
    IsSharedDepth a b ((fromMessages a).sharedDepth (fromMessages b)) ↔ Unambiguous a b := by
  constructor
  · rintro ⟨member, -⟩ n mem la lb front same
    obtain ⟨k, hk, rfl⟩ := exists_level_of_mem mem
    have whole : hashed (a.take Tailfin.levels[k]) = hashed (b.take Tailfin.levels[k]) := by
      rw [← take_block a, ← take_block b, hashed_append, hashed_append, front, same]
    have agree : Agree k (fromMessages a) (fromMessages b) := by
      intro i hi
      rcases Nat.lt_or_eq_of_le hi with below | rfl
      · have half : Shares a b Tailfin.levels[k - 1] := by
          have step : Tailfin.levels[k] / 2 = Tailfin.levels[k - 1] := by
            obtain ⟨j, rfl⟩ : ∃ j, k = j + 1 := ⟨k - 1, by omega⟩
            exact levels_half ⟨j, by omega⟩
          rw [← step]
          exact ⟨by omega, by omega, front⟩
        exact agree_of_shares free (by omega) half i (by omega)
      · exact (sameAt_iff free hk).mpr ⟨la, lb, whole⟩
    have reached := (levels_le_sharedDepth_iff hk _ _).mpr agree
    rcases member with zero | ⟨-, -, -, shared⟩
    · have := levels_pos k hk
      omega
    · have level := congrArg (List.take Tailfin.levels[k]) shared
      rw [List.take_take, List.take_take, Nat.min_eq_left reached] at level
      rw [block, block, level]
  · intro clear
    refine ⟨?_, ?_⟩
    · rcases sharedDepth_cases (fromMessages a) (fromMessages b) with zero | ⟨k, hk, same, agree⟩
      · exact .inl zero
      · rw [same]
        exact .inr ⟨Vector.getElem_mem hk, shares_of_agree free clear hk agree⟩
    · rintro n (rfl | ⟨mem, shared⟩)
      · exact Nat.zero_le _
      · obtain ⟨k, hk, rfl⟩ := exists_level_of_mem mem
        exact (levels_le_sharedDepth_iff hk _ _).mpr (agree_of_shares free hk shared)

end Exact

/-! ## Where the text tells the messages apart -/

theorem nil_of_count {x : UInt8} {p s r t : List UInt8} (counts : p.count x = (p ++ s).count x)
    (rest : x :: t = s ++ r) : s = [] := by
  cases s with
  | nil => rfl
  | cons c s =>
    obtain rfl : x = c := (List.cons.inj rest).1
    rw [List.count_append, List.count_cons_self] at counts
    omega

/-- A text with as many separators in front of the next one ends there. -/
theorem eq_of_separated {x : UInt8} {m m' r r' : List UInt8} (counts : m.count x = m'.count x)
    (same : m ++ x :: r = m' ++ x :: r') : m = m' ∧ r = r' := by
  rcases List.append_eq_append_iff.mp same with ⟨s, rfl, rest⟩ | ⟨s, rfl, rest⟩
  · obtain rfl := nil_of_count counts rest
    exact ⟨(List.append_nil m).symm, (List.cons.inj rest).2⟩
  · obtain rfl := nil_of_count counts.symm rest
    exact ⟨List.append_nil m', (List.cons.inj rest).2.symm⟩

/-- Messages that hold the separator equally often can be told apart. -/
theorem hashed_injective {k : Nat} {m m' : List (List UInt8)}
    (each : ∀ msg ∈ m, msg.count 0x1e = k) (each' : ∀ msg ∈ m', msg.count 0x1e = k)
    (same : hashed m = hashed m') : m = m' := by
  induction m generalizing m' with
  | nil =>
    cases m' with
    | nil => rfl
    | cons msg' m' => simp at same
  | cons msg m ih =>
    cases m' with
    | nil => simp at same
    | cons msg' m' =>
      rw [hashed_cons, hashed_cons] at same
      have counts := (each msg (by simp)).trans (each' msg' (by simp)).symm
      obtain ⟨rfl, rest⟩ := eq_of_separated counts same
      rw [ih (fun x hx => each x (List.mem_cons_of_mem _ hx))
        (fun x hx => each' x (List.mem_cons_of_mem _ hx)) rest]

/-- So no level of such messages is ambiguous. -/
theorem unambiguous_of_count {k : Nat} {a b : List (List UInt8)}
    (each : ∀ msg ∈ a, msg.count 0x1e = k) (each' : ∀ msg ∈ b, msg.count 0x1e = k) :
    Unambiguous a b := by
  intro n _ _ _ _ same
  exact hashed_injective (fun msg h => each msg (List.mem_of_mem_take (List.mem_of_mem_drop h)))
    (fun msg h => each' msg (List.mem_of_mem_take (List.mem_of_mem_drop h))) same

section Cases

def canonical (texts : List String) : List (List UInt8) := texts.map fun s => Utf8.encode s.toList

/-- Four messages, as role, separator and content. The third one quotes a separator. -/
def quoting : List (List UInt8) :=
  canonical ["u\x1ea", "v\x1eb", "u\x1ec\x1eu\x1ed", "v\x1ee"]

/-- The same bytes, with the fourth message starting earlier. -/
def quoted : List (List UInt8) :=
  canonical ["u\x1ea", "v\x1eb", "u\x1ec", "u\x1ed\x1ev\x1ee"]

/-- Other bytes from the third message on. -/
def parted : List (List UInt8) := canonical ["u\x1ea", "v\x1eb", "u\x1ef", "v\x1ee"]

theorem isSharedDepth_parted : IsSharedDepth quoting parted
    ((fromMessages quoting).sharedDepth (fromMessages parted)) :=
  (isSharedDepth_iff (by decide +kernel)).mpr (by decide +kernel)

/-- Two conversations that part after two messages share a depth of four. -/
theorem sharedDepth_overstated : CollisionFree quoting quoted ∧
    (fromMessages quoting).sharedDepth (fromMessages quoted) = 4 ∧
    ¬ IsSharedDepth quoting quoted ((fromMessages quoting).sharedDepth (fromMessages quoted)) := by
  have depth : (fromMessages quoting).sharedDepth (fromMessages quoted) = 4 := by decide +kernel
  refine ⟨by decide +kernel, depth, ?_⟩
  rw [depth]
  rintro ⟨zero | ⟨-, -, -, same⟩, -⟩
  · cases zero
  · exact absurd same (by decide +kernel)

end Cases

end PrefixDigest

end Tailfin
