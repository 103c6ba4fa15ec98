import Tailfin.Ledger.Capture

/-!
# Retention

What `prune` of `tailfin-ledger` removes with a retention that `parse_retention` has read. Between
the text and the clock a count is multiplied twice, once for its unit and once for milliseconds,
and both products wrap.
-/

namespace Tailfin

open Text

/-! ## The text of a retention -/

/-- The seconds of a unit. -/
def unitSecs (unit : List Char) : Option UInt64 :=
  if unit = ['s'] then some 1
  else if unit = ['m'] then some 60
  else if unit = ['h'] then some 3600
  else if unit = ['d'] ∨ unit = [] then some 86400
  else none

/-- The text is a count and a unit, with white space around them. -/
def SpellsRetention (s : List Char) (n unit : UInt64) : Prop :=
  ∃ count u, trim s = count ++ u ∧ parseU64 count = some n ∧ unitSecs u = some unit

theorem isAlpha_of_isDigit {c : Char} (h : c.isDigit = true) : c.isAlpha = false := by
  have digit : (decide (c.val ≥ 48) && decide (c.val ≤ 57)) = true := h
  show (decide (c.val ≥ 65 ∧ c.val ≤ 90) ||
    decide (c.val ≥ 97) && decide (c.val ≤ 122)) = false
  simp only [Bool.and_eq_true, decide_eq_true_eq, Bool.or_eq_false_iff, Bool.and_eq_false_iff,
    decide_eq_false_iff_not, ge_iff_le, UInt32.le_iff_toNat_le] at digit ⊢
  simp only [UInt32.reduceToNat] at digit ⊢
  omega

theorem isDigit_of_parseDigits {t : List Char} {n : UInt64} (h : parseDigits t = some n) :
    ∀ c ∈ t, c.isDigit = true := by
  unfold parseDigits at h
  split at h
  · cases h
  · next plain =>
    simp only [Bool.or_eq_true, Bool.not_eq_true', not_or, Bool.not_eq_false] at plain
    exact List.all_eq_true.mp plain.2

/-- A count holds no letter. -/
theorem isAlpha_of_parseU64 {t : List Char} {n : UInt64} (h : parseU64 t = some n) :
    ∀ c ∈ t, c.isAlpha = false := by
  unfold parseU64 at h
  split at h
  · refine List.forall_mem_cons.mpr ⟨rfl, fun c hc => ?_⟩
    exact isAlpha_of_isDigit (isDigit_of_parseDigits h c hc)
  · exact fun c hc => isAlpha_of_isDigit (isDigit_of_parseDigits h c hc)

/-- A unit is a letter or nothing. -/
theorem unitSecs_shape {u : List Char} {unit : UInt64} (h : unitSecs u = some unit) :
    u = [] ∨ ∃ c, u = [c] ∧ c.isAlpha = true := by
  unfold unitSecs at h
  repeat' split at h
  · next same => exact .inr ⟨'s', same, rfl⟩
  · next same => exact .inr ⟨'m', same, rfl⟩
  · next same => exact .inr ⟨'h', same, rfl⟩
  · next same => exact same.elim (fun d => .inr ⟨'d', d, rfl⟩) .inl
  · cases h

/-- A text is split where its first letter stands. -/
theorem split_letter {count u : List Char} (plain : ∀ c ∈ count, c.isAlpha = false)
    (unit : u = [] ∨ ∃ c t, u = c :: t ∧ c.isAlpha = true) :
    (count ++ u).takeWhile (fun c => !c.isAlpha) = count ∧
      (count ++ u).dropWhile (fun c => !c.isAlpha) = u := by
  have passes : ∀ c ∈ count, (!c.isAlpha) = true := fun c hc => by rw [plain c hc]; rfl
  rw [List.takeWhile_append_of_pos passes, List.dropWhile_append_of_pos passes]
  rcases unit with rfl | ⟨c, t, rfl, letter⟩ <;> simp [*]

/-- What comes of a count and a unit. -/
theorem parseRetention_append {s count u : List Char} (text : trim s = count ++ u)
    (plain : ∀ c ∈ count, c.isAlpha = false)
    (unit : u = [] ∨ ∃ c t, u = c :: t ∧ c.isAlpha = true) :
    parseRetention s = match parseU64 count with
      | none => .error ("bad retention: " ++ String.ofList (trim s))
      | some n => match unitSecs u with
        | some secs => .ok (n * secs)
        | none => .error ("bad retention unit in " ++ String.ofList (trim s)) := by
  obtain ⟨front, back⟩ := split_letter plain unit
  unfold parseRetention
  simp only [text, front, back]
  cases parseU64 count with
  | none => rfl
  | some n =>
    unfold unitSecs
    simp only
    split_ifs <;> simp

theorem SpellsRetention.parts {s : List Char} {n unit : UInt64} (h : SpellsRetention s n unit) :
    parseU64 ((trim s).takeWhile fun c => !c.isAlpha) = some n ∧
      unitSecs ((trim s).dropWhile fun c => !c.isAlpha) = some unit := by
  obtain ⟨count, u, text, number, secs⟩ := h
  have shape : u = [] ∨ ∃ c t, u = c :: t ∧ c.isAlpha = true :=
    (unitSecs_shape secs).imp_right fun ⟨c, same, letter⟩ => ⟨c, [], same, letter⟩
  obtain ⟨front, back⟩ := split_letter (isAlpha_of_parseU64 number) shape
  rw [text, front, back]
  exact ⟨number, secs⟩

/-- There is one way to read a text as a count and a unit. -/
theorem SpellsRetention.unique {s : List Char} {n n' unit unit' : UInt64}
    (h : SpellsRetention s n unit) (h' : SpellsRetention s n' unit') : n = n' ∧ unit = unit' :=
  ⟨Option.some.inj (h.parts.1.symm.trans h'.parts.1),
    Option.some.inj (h.parts.2.symm.trans h'.parts.2)⟩

theorem parseRetention_of_spells {s : List Char} {n unit : UInt64} (h : SpellsRetention s n unit) :
    parseRetention s = .ok (n * unit) := by
  obtain ⟨count, u, text, number, secs⟩ := h
  have shape : u = [] ∨ ∃ c t, u = c :: t ∧ c.isAlpha = true :=
    (unitSecs_shape secs).imp_right fun ⟨c, same, letter⟩ => ⟨c, [], same, letter⟩
  rw [parseRetention_append text (isAlpha_of_parseU64 number) shape, number, secs]

/-- What is accepted is a count and a unit. -/
theorem spells_of_parseRetention {s : List Char} {d : UInt64} (h : parseRetention s = .ok d) :
    ∃ n unit, SpellsRetention s n unit := by
  let count := (trim s).takeWhile fun c => !c.isAlpha
  let u := (trim s).dropWhile fun c => !c.isAlpha
  have text : trim s = count ++ u := (List.takeWhile_append_dropWhile).symm
  have plain : ∀ c ∈ count, c.isAlpha = false := fun c hc => by
    simpa using List.mem_takeWhile_imp hc
  have shape : u = [] ∨ ∃ c t, u = c :: t ∧ c.isAlpha = true := by
    cases found : u with
    | nil => exact .inl rfl
    | cons c t =>
      refine .inr ⟨c, t, rfl, ?_⟩
      have first := List.head?_dropWhile_not (fun c => !c.isAlpha) (trim s)
      rw [show (trim s).dropWhile _ = c :: t from found] at first
      simpa using first
  rw [parseRetention_append text plain shape] at h
  cases number : parseU64 count with
  | none =>
    rw [number] at h
    cases h
  | some n =>
    cases secs : unitSecs u with
    | none =>
      rw [number, secs] at h
      cases h
    | some unit => exact ⟨n, unit, count, u, text, number, secs⟩

/-! ## What is removed -/

section Prune

variable [CaptureJson]

/-- A prune with the retention `d` removes records only that are older than `n` units. -/
def KeepsFor (n unit d : UInt64) : Prop :=
  ∀ (dir : CaptureDir) (now : UInt64), ∀ e ∈ dir.entries,
    e ∉ (CaptureStore.prune dir d now).1.entries →
      ∃ r, CaptureStore.readCapture e.2 = some r ∧
        n.toNat * unit.toNat * 1000 < now.toNat - r.tsUnixMs.toNat

/-- If the text is accepted it is a count and a unit, the retention is their product, and nothing
younger is removed. -/
def RetentionHolds (s : List Char) : Prop :=
  ∀ d, parseRetention s = .ok d → ∃ n unit, SpellsRetention s n unit ∧
    d.toNat = n.toNat * unit.toNat ∧ KeepsFor n unit d

omit [CaptureJson] in
theorem lt_cutoff_iff (ts now m : UInt64) :
    ts < saturatingSub now m ↔ m.toNat < now.toNat - ts.toNat := by
  rw [UInt64.lt_iff_toNat_lt, saturatingSub_toNat]
  omega

omit [CaptureJson] in
theorem asMillis_toNat (d : UInt64) :
    (CaptureStore.asMillis d).toNat = d.toNat * 1000 % 2 ^ 64 := rfl

theorem expired_iff {d now : UInt64} {bytes : List UInt8} :
    CaptureStore.expired d now bytes = true ↔ ∃ r, CaptureStore.readCapture bytes = some r ∧
      d.toNat * 1000 % 2 ^ 64 < now.toNat - r.tsUnixMs.toNat := by
  simp only [CaptureStore.expired, Option.any_eq_true, decide_eq_true_eq, lt_cutoff_iff,
    asMillis_toNat]

/-- Removed is what is older than the milliseconds that are left after they have wrapped. -/
theorem keepsFor_of_le {n unit d : UInt64}
    (long : n.toNat * unit.toNat * 1000 ≤ d.toNat * 1000 % 2 ^ 64) : KeepsFor n unit d := by
  intro dir now e stored gone
  obtain ⟨-, expired⟩ := (CaptureStore.removed_iff dir d now stored).mp gone
  obtain ⟨r, read, old⟩ := expired_iff.mp expired
  exact ⟨r, read, long.trans_lt old⟩

/-- And a record that is older by one is removed. -/
theorem le_of_keepsFor {r : CaptureRecord}
    (reads : ∀ ts, CaptureJson.Writes { r with tsUnixMs := ts }) {n unit d : UInt64}
    (keeps : KeepsFor n unit d) :
    n.toNat * unit.toNat * 1000 ≤ d.toNat * 1000 % 2 ^ 64 := by
  -- Thousands leave room for one more millisecond below 2^64.
  have room : d.toNat * 1000 % 2 ^ 64 + 1 < 2 ^ 64 := by omega
  let now : UInt64 := UInt64.ofNat (d.toNat * 1000 % 2 ^ 64 + 1)
  have clock : now.toNat = d.toNat * 1000 % 2 ^ 64 + 1 := by
    show (UInt64.ofNat _).toNat = _
    rw [UInt64.toNat_ofNat', Nat.mod_eq_of_lt room]
  let old : CaptureRecord := { r with tsUnixMs := 0 }
  let dir : CaptureDir := (∅ : CaptureDir).insert (['t'], "c.json".toList)
    (CaptureStore.captureLine old)
  have read := CaptureStore.readCapture_captureLine (reads 0)
  have stored : ⟨(['t'], "c.json".toList), CaptureStore.captureLine old⟩ ∈ dir.entries :=
    AList.mem_lookup_iff.mp (AList.lookup_insert _)
  have gone := (CaptureStore.removed_iff dir d now stored).mpr
    ⟨by simp, expired_iff.mpr ⟨old, read, by rw [clock]; simp [old]⟩⟩
  obtain ⟨r', read', younger⟩ := keeps dir now _ stored gone
  obtain rfl := Option.some.inj (read.symm.trans read')
  rw [clock] at younger
  simp only [UInt64.toNat_zero] at younger
  omega

/-- A retention holds if and only if its milliseconds fit in 64 bits. -/
theorem retentionHolds_iff {r : CaptureRecord}
    (reads : ∀ ts, CaptureJson.Writes { r with tsUnixMs := ts }) (s : List Char) :
    RetentionHolds s ↔
      ∀ n unit, SpellsRetention s n unit → n.toNat * unit.toNat * 1000 < 2 ^ 64 := by
  constructor
  · intro holds n unit spelled
    obtain ⟨n', unit', spelled', -, keeps⟩ := holds _ (parseRetention_of_spells spelled)
    obtain ⟨rfl, rfl⟩ := spelled.unique spelled'
    exact (le_of_keepsFor reads keeps).trans_lt (Nat.mod_lt _ (by decide))
  · intro fits d parsed
    obtain ⟨n, unit, spelled⟩ := spells_of_parseRetention parsed
    obtain rfl := Except.ok.inj ((parseRetention_of_spells spelled).symm.trans parsed)
    have small := fits n unit spelled
    have product : (n * unit).toNat = n.toNat * unit.toNat := by
      rw [UInt64.toNat_mul, Nat.mod_eq_of_lt (by omega)]
    refine ⟨n, unit, spelled, product, keepsFor_of_le ?_⟩
    rw [product, Nat.mod_eq_of_lt small]

end Prune

section Cases

def sampleFront : List Char := '{' :: captureFront (sampleCapture 0)

def sampleBack : List Char := captureBack (sampleCapture 0) ++ ['}']

/-- The number between two texts. -/
def numberBetween (front back t : List Char) : Option Nat :=
  (stripPrefix front t).bind fun rest =>
    if rest.dropWhile Char.isDigit = back then
      some (Nat.ofDigitChars 10 (rest.takeWhile Char.isDigit) 0)
    else none

theorem numberBetween_digits (front : List Char) {back : List Char}
    (stops : back.takeWhile Char.isDigit = [] ∧ back.dropWhile Char.isDigit = back) (n : Nat) :
    numberBetween front back (front ++ (Nat.toDigits 10 n ++ back)) = some n := by
  have digits : ∀ c ∈ Nat.toDigits 10 n, c.isDigit = true :=
    fun c hc => Nat.isDigit_of_mem_toDigits (by decide) (by decide) hc
  rw [numberBetween, stripPrefix, if_pos (by simp), List.drop_left, Option.bind_some,
    List.dropWhile_append_of_pos digits, List.takeWhile_append_of_pos digits, stops.1, stops.2,
    if_pos rfl, List.append_nil, Nat.ofDigitChars_ten_toDigits]

/-- `serde_json` at the sample captures. -/
@[reducible] def sampleJson : CaptureJson where
  toString := captureText
  fromStr t := (numberBetween sampleFront sampleBack t).map fun n => sampleCapture (UInt64.ofNat n)

attribute [local instance] sampleJson

theorem captureText_sample (ts : UInt64) :
    captureText (sampleCapture ts) = sampleFront ++ (Nat.toDigits 10 ts.toNat ++ sampleBack) := by
  show '{' :: (captureFront (sampleCapture 0) ++ _ ++ captureBack (sampleCapture 0) ++ ['}']) = _
  simp only [sampleFront, sampleBack, List.cons_append, List.append_assoc]
  rfl

theorem sampleJson_writes (ts : UInt64) : CaptureJson.Writes (sampleCapture ts) where
  readsBack := by
    have stops : sampleBack.takeWhile Char.isDigit = [] ∧
        sampleBack.dropWhile Char.isDigit = sampleBack := by
      decide +kernel
    have number := numberBetween_digits sampleFront stops ts.toNat
    rw [← captureText_sample] at number
    show (numberBetween sampleFront sampleBack (captureText (sampleCapture ts))).map _ = _
    rw [number, Option.map_some, UInt64.ofNat_toNat]
  braces := ⟨_, rfl⟩

/-- A week is kept. -/
theorem retentionHolds_week : RetentionHolds "7d".toList := by
  refine (retentionHolds_iff (r := sampleCapture 0) sampleJson_writes _).mpr
    fun n unit spelled => ?_
  obtain ⟨count, secs⟩ := spelled.parts
  obtain rfl : 7 = n := Option.some.inj count
  obtain rfl : 86400 = unit := Option.some.inj secs
  decide

/-- Half a billion years wrap to seventeen hours. -/
theorem not_retentionHolds_wrapped : ¬ RetentionHolds "213503982334602d".toList := by
  intro holds
  have spelled : SpellsRetention "213503982334602d".toList 213503982334602 86400 :=
    ⟨"213503982334602".toList, ['d'], by decide, by decide, rfl⟩
  obtain ⟨n, unit, spelled', product, -⟩ := holds _ (parseRetention_of_spells spelled)
  obtain ⟨rfl, rfl⟩ := spelled.unique spelled'
  exact absurd product (by decide)

end Cases

end Tailfin
