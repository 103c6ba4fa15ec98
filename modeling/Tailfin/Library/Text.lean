import Mathlib.Algebra.GroupWithZero.Nat
import Mathlib.Data.Bool.AllAny
import Mathlib.Data.List.Basic
import Mathlib.Data.List.TakeWhile

/-!
# Text as lists of characters

The string operations that text protocols are read with, over `List Char`: trimming, prefixes,
searching, and cutting a buffer into its complete lines.
-/

namespace Text

/-- The characters with the Unicode property `White_Space`. -/
def isWhitespace (c : Char) : Bool :=
  let n := c.toNat
  (0x09 ≤ n && n ≤ 0x0D) || n == 0x20 || n == 0x85 || n == 0xA0 || n == 0x1680 ||
    (0x2000 ≤ n && n ≤ 0x200A) || n == 0x2028 || n == 0x2029 || n == 0x202F || n == 0x205F ||
    n == 0x3000

/-- The text without its leading white space. -/
def trimStart (t : List Char) : List Char := t.dropWhile isWhitespace

/-- The text without the characters at its end that meet `p`. -/
def trimEndMatches (p : Char → Bool) (t : List Char) : List Char := (t.reverse.dropWhile p).reverse

/-- The text without leading and trailing white space. -/
def trim (t : List Char) : List Char := trimEndMatches isWhitespace (trimStart t)

/-- A space or a tab. -/
def isBlank (c : Char) : Bool := c == ' ' || c == '\t'

/-- The text without leading and trailing blanks. -/
def trimBlanks (t : List Char) : List Char := trimEndMatches isBlank (t.dropWhile isBlank)

/-- How many bytes of UTF-8 a text takes. -/
def byteLength (t : List Char) : Nat := (t.map Char.utf8Size).sum

/-- The first `n` bytes of a text, when a character ends with them. -/
def takeBytes : Nat → List Char → Option (List Char)
  | 0, _ => some []
  | _ + 1, [] => none
  | n + 1, c :: t =>
    if c.utf8Size ≤ n + 1 then (takeBytes (n + 1 - c.utf8Size) t).map (c :: ·) else none

/-- A character of the text starts at byte `n`, or the text ends there. -/
def IsCharBoundary (t : List Char) (n : Nat) : Prop :=
  ∃ front back, t = front ++ back ∧ byteLength front = n

/-- A cut succeeds at the boundaries of characters. -/
theorem takeBytes_isSome_iff (n : Nat) (t : List Char) :
    (takeBytes n t).isSome ↔ IsCharBoundary t n := by
  fun_induction takeBytes n t with
  | case1 t => exact iff_of_true rfl ⟨[], t, rfl, rfl⟩
  | case2 n =>
    refine iff_of_false (by simp) ?_
    rintro ⟨front, back, same, long⟩
    obtain ⟨rfl, -⟩ := List.append_eq_nil_iff.mp same.symm
    cases long
  | case3 n c t fits ih =>
    rw [Option.isSome_map, ih]
    constructor
    · rintro ⟨front, back, rfl, long⟩
      refine ⟨c :: front, back, rfl, ?_⟩
      simp only [byteLength, List.map_cons, List.sum_cons] at long ⊢
      omega
    · rintro ⟨front, back, same, long⟩
      cases front with
      | nil => cases long
      | cons d front =>
        obtain ⟨rfl, rest⟩ := List.cons.inj same
        refine ⟨front, back, rest, ?_⟩
        simp only [byteLength, List.map_cons, List.sum_cons] at long ⊢
        omega
  | case4 n c t wide =>
    refine iff_of_false (by simp) ?_
    rintro ⟨front, back, same, long⟩
    cases front with
    | nil => cases long
    | cons d front =>
      obtain ⟨rfl, -⟩ := List.cons.inj same
      simp only [byteLength, List.map_cons, List.sum_cons] at long
      omega

/-- What follows `pre`, when the text starts with it. -/
def stripPrefix (pre t : List Char) : Option (List Char) :=
  if pre.isPrefixOf t then some (t.drop pre.length) else none

/-- What follows the first occurrence of `pat`. -/
def afterFirst (pat : List Char) : List Char → Option (List Char)
  | [] => if pat.isEmpty then some [] else none
  | c :: t => if pat.isPrefixOf (c :: t) then some ((c :: t).drop pat.length) else afterFirst pat t

theorem afterFirst_skip {c : Char} {x : List Char} (none_ : c ∉ x) (pat y : List Char) :
    afterFirst (c :: pat) (x ++ y) = afterFirst (c :: pat) y := by
  induction x with
  | nil => rfl
  | cons d x ih =>
    have other : ¬ c = d := fun same => none_ (by simp [same])
    have missed : ¬ (c :: pat).isPrefixOf (d :: (x ++ y)) = true := by simp [other]
    rw [List.cons_append, afterFirst, if_neg missed,
      ih fun mem => none_ (List.mem_cons_of_mem _ mem)]

theorem afterFirst_of_notMem {c : Char} {x : List Char} (none_ : c ∉ x) (pat : List Char) :
    afterFirst (c :: pat) x = none := by
  have skipped := afterFirst_skip none_ pat []
  rw [List.append_nil] at skipped
  rw [skipped]
  rfl

theorem afterFirst_char {c : Char} {x : List Char} (none_ : c ∉ x) (y : List Char) :
    afterFirst [c] (x ++ c :: y) = some y := by
  rw [afterFirst_skip none_, afterFirst, if_pos (by simp)]
  rfl

/-- The text holds `pat`. -/
def contains (pat t : List Char) : Bool := (afterFirst pat t).isSome

theorem contains_iff {pat : List Char} (some_ : pat ≠ []) (t : List Char) :
    contains pat t = true ↔ pat <:+: t := by
  induction t with
  | nil => simp [contains, afterFirst, some_]
  | cons c t ih =>
    rw [List.infix_cons_iff, ← ih, contains, afterFirst]
    split
    · next here => simp [List.isPrefixOf_iff_prefix.mp here]
    · next other =>
      rw [← contains, or_iff_right fun front => other (List.isPrefixOf_iff_prefix.mpr front)]

def toAsciiLowercase (t : List Char) : List Char := t.map Char.toLower

theorem toAsciiLowercase_toAsciiLowercase (t : List Char) :
    toAsciiLowercase (toAsciiLowercase t) = toAsciiLowercase t := by
  have each : ∀ c : Char, c.toLower.toLower = c.toLower := by
    intro c
    by_cases upper : c.val ≥ 'A'.val ∧ c.val ≤ 'Z'.val
    · have letters : ∀ n ∈ List.range' 65 26,
          (Char.ofNat n).toLower.toLower = (Char.ofNat n).toLower := by decide
      have low : 65 ≤ c.toNat := UInt32.le_iff_toNat_le.mp upper.1
      have high : c.toNat ≤ 90 := UInt32.le_iff_toNat_le.mp upper.2
      have letter := letters c.toNat (List.mem_range'_1.mpr ⟨low, by omega⟩)
      rwa [Char.ofNat_toNat] at letter
    · have same : c.toLower = c := dif_neg upper
      rw [same, same]
  rw [toAsciiLowercase, toAsciiLowercase, List.map_map]
  exact List.map_congr_left fun c _ => each c

/-- `str::eq_ignore_ascii_case`. -/
def eqIgnoreAsciiCase (s t : List Char) : Bool := toAsciiLowercase s = toAsciiLowercase t

def toAsciiUppercase (t : List Char) : List Char := t.map Char.toUpper

/-- The complete lines at the front of a buffer, each without its newline, and what is left. -/
def drainLines : List Char → List (List Char) × List Char
  | [] => ([], [])
  | c :: t =>
    if c = '\n' then ([] :: (drainLines t).1, (drainLines t).2)
    else match drainLines t with
      | ([], rest) => ([], c :: rest)
      | (line :: lines, rest) => ((c :: line) :: lines, rest)

@[simp] theorem drainLines_nil : drainLines [] = ([], []) := rfl

@[simp] theorem drainLines_newline (t : List Char) :
    drainLines ('\n' :: t) = ([] :: (drainLines t).1, (drainLines t).2) := by
  simp [drainLines]

/-- What is left behind holds no newline. -/
theorem newline_notMem_rest (t : List Char) : '\n' ∉ (drainLines t).2 := by
  fun_induction drainLines t with
  | case1 => simp
  | case2 t ih => simpa using ih
  | case3 c t other rest none ih => simpa [none, Ne.symm other] using ih
  | case4 c t other line lines rest some ih => simpa [some] using ih

/-- A buffer without a newline has no complete line. -/
theorem drainLines_of_notMem {t : List Char} (h : '\n' ∉ t) : drainLines t = ([], t) := by
  induction t with
  | nil => rfl
  | cons c t ih =>
    have hc : c ≠ '\n' := fun e => h (by simp [e])
    rw [drainLines, if_neg hc, ih (fun m => h (List.mem_cons_of_mem _ m))]

/-- Text that arrives later only continues what was left. -/
theorem drainLines_append (s t : List Char) :
    drainLines (s ++ t) = ((drainLines s).1 ++ (drainLines ((drainLines s).2 ++ t)).1,
      (drainLines ((drainLines s).2 ++ t)).2) := by
  fun_induction drainLines s with
  | case1 => simp
  | case2 s ih =>
    simp only [List.cons_append, drainLines_newline, ih]
  | case3 c s other rest none ih =>
    rw [none] at ih
    simp only [List.nil_append] at ih
    simp only [List.cons_append, List.nil_append]
    rw [drainLines, if_neg other, ih, drainLines, if_neg other]
  | case4 c s other line lines rest some ih =>
    rw [some] at ih
    simp only [List.cons_append] at ih
    simp only [List.cons_append]
    rw [drainLines, if_neg other, ih]

/-! ## Rewriting single characters -/

/-- `t` is `s` with every character replaced by some text that `ρ` allows for it. -/
inductive Rewrites (ρ : Char → List Char → Prop) : List Char → List Char → Prop where
  | nil : Rewrites ρ [] []
  | cons {c : Char} {r s t : List Char} : ρ c r → Rewrites ρ s t → Rewrites ρ (c :: s) (r ++ t)

/-- `ρ` leaves the characters of `keep` alone and never writes one in place of another. -/
structure Respects (keep : Char → Prop) (ρ : Char → List Char → Prop) : Prop where
  kept : ∀ {c r}, keep c → ρ c r → r = [c]
  moved : ∀ {c r}, ¬ keep c → ρ c r → r ≠ [] ∧ ∀ x ∈ r, ¬ keep x

theorem Rewrites.append {ρ : Char → List Char → Prop} {s t u v : List Char}
    (h : Rewrites ρ s t) (h' : Rewrites ρ u v) : Rewrites ρ (s ++ u) (t ++ v) := by
  induction h with
  | nil => exact h'
  | cons here _ ih =>
    rw [List.cons_append, List.append_assoc]
    exact .cons here ih

theorem trimEndMatches_cons (p : Char → Bool) (c : Char) (t : List Char) :
    trimEndMatches p (c :: t) =
      if trimEndMatches p t = [] ∧ p c = true then [] else c :: trimEndMatches p t := by
  unfold trimEndMatches
  rw [List.reverse_cons, List.dropWhile_append]
  cases rest : t.reverse.dropWhile p with
  | nil =>
    cases here : p c <;> simp [here]
  | cons d ds => simp

/-- Trimming stops at a character that is not trimmed. -/
theorem trimEndMatches_append {p : Char → Bool} {r : List Char} (solid : ∀ x ∈ r, p x = false)
    (t : List Char) : trimEndMatches p (r ++ t) = r ++ trimEndMatches p t := by
  induction r with
  | nil => rfl
  | cons c r ih =>
    rw [List.cons_append, trimEndMatches_cons, ih fun x hx => solid x (List.mem_cons_of_mem _ hx),
      if_neg (by simp [solid c])]
    rfl

/-- Text without a newline goes in front of the first line, or of what is left. -/
theorem drainLines_prepend {r : List Char} (solid : '\n' ∉ r) (t : List Char) :
    drainLines (r ++ t) =
      match drainLines t with
      | ([], rest) => ([], r ++ rest)
      | (line :: lines, rest) => ((r ++ line) :: lines, rest) := by
  induction r with
  | nil => rcases h : drainLines t with ⟨_ | ⟨line, lines⟩, rest⟩ <;> simp [h]
  | cons c r ih =>
    have hc : c ≠ '\n' := fun e => solid (by simp [e])
    rw [List.cons_append, drainLines, if_neg hc, ih fun h => solid (List.mem_cons_of_mem _ h)]
    rcases drainLines t with ⟨_ | ⟨line, lines⟩, rest⟩ <;> rfl

section Respects

variable {keep : Char → Prop} {ρ : Char → List Char → Prop} (respects : Respects keep ρ)

include respects

namespace Rewrites

/-- Kept text is not rewritten. -/
theorem eq_of_kept {s t : List Char} (h : Rewrites ρ s t) (kept : ∀ c ∈ s, keep c) : t = s := by
  induction h with
  | nil => rfl
  | cons here _ ih =>
    rw [respects.kept (kept _ (by simp)) here, ih fun c hc => kept c (List.mem_cons_of_mem _ hc)]
    rfl

theorem eq_nil_iff {s t : List Char} (h : Rewrites ρ s t) : s = [] ↔ t = [] := by
  cases h with
  | nil => simp
  | @cons c r s t here _ =>
    have filled : r ≠ [] := by
      by_cases hc : keep c
      · simp [respects.kept hc here]
      · exact (respects.moved hc here).1
    simp [filled]

/-- A kept prefix is found in a text if and only if it is found in the rewritten text. -/
theorem stripPrefix {s t : List Char} (h : Rewrites ρ s t) (pre : List Char)
    (kept : ∀ c ∈ pre, keep c) :
    (Text.stripPrefix pre s = none ∧ Text.stripPrefix pre t = none) ∨
      ∃ v w, Text.stripPrefix pre s = some v ∧ Text.stripPrefix pre t = some w ∧
        Rewrites ρ v w := by
  induction pre generalizing s t with
  | nil => exact .inr ⟨s, t, rfl, rfl, h⟩
  | cons a pre ih =>
    cases h with
    | nil => exact .inl ⟨rfl, rfl⟩
    | @cons c r s t here rest =>
      have ha := kept a (by simp)
      have step : ∀ (b : Char) (l : List Char), Text.stripPrefix (a :: pre) (b :: l) =
          if a = b then Text.stripPrefix pre l else none := by
        intro b l
        unfold Text.stripPrefix
        by_cases same : a = b <;> simp [same]
      by_cases hc : keep c
      · rw [respects.kept hc here, step, List.singleton_append, step]
        by_cases same : a = c
        · rw [if_pos same, if_pos same]
          exact ih rest fun x hx => kept x (List.mem_cons_of_mem _ hx)
        · rw [if_neg same, if_neg same]
          exact .inl ⟨rfl, rfl⟩
      · obtain ⟨filled, moved⟩ := respects.moved hc here
        obtain ⟨b, r, rfl⟩ := List.exists_cons_of_ne_nil filled
        have notHere : a ≠ c := fun e => hc (e ▸ ha)
        have notThere : a ≠ b := fun e => moved b (by simp) (e ▸ ha)
        rw [step, if_neg notHere, List.cons_append, step, if_neg notThere]
        exact .inl ⟨rfl, rfl⟩

theorem trimEndMatches {p : Char → Bool} (kept : ∀ c, p c = true → keep c) {s t : List Char}
    (h : Rewrites ρ s t) : Rewrites ρ (Text.trimEndMatches p s) (Text.trimEndMatches p t) := by
  induction h with
  | nil => exact .nil
  | @cons c r s t here rest ih =>
    have empty := ih.eq_nil_iff respects
    by_cases hc : keep c
    · obtain rfl := respects.kept hc here
      rw [List.singleton_append, trimEndMatches_cons, trimEndMatches_cons]
      by_cases gone : Text.trimEndMatches p s = [] ∧ p c = true
      · rw [if_pos gone, if_pos ⟨empty.mp gone.1, gone.2⟩]
        exact .nil
      · rw [if_neg gone, if_neg fun h => gone ⟨empty.mpr h.1, h.2⟩]
        exact .cons here ih
    · have solid : p c = false := Bool.eq_false_iff.mpr fun h => hc (kept c h)
      rw [trimEndMatches_cons, if_neg (by simp [solid]), trimEndMatches_append]
      · exact .cons here ih
      · intro x hx
        exact Bool.eq_false_iff.mpr fun h => (respects.moved hc here).2 x hx (kept x h)

/-- Rewriting keeps the lines apart. -/
theorem drainLines (kept : keep '\n') {s t : List Char} (h : Rewrites ρ s t) :
    List.Forall₂ (Rewrites ρ) (Text.drainLines s).1 (Text.drainLines t).1 ∧
      Rewrites ρ (Text.drainLines s).2 (Text.drainLines t).2 := by
  induction h with
  | nil => exact ⟨.nil, .nil⟩
  | @cons c r s t here rest ih =>
    by_cases newline : c = '\n'
    · subst newline
      rw [respects.kept kept here, List.singleton_append, drainLines_newline, drainLines_newline]
      exact ⟨.cons .nil ih.1, ih.2⟩
    · have solid : '\n' ∉ r := by
        intro mem
        by_cases hc : keep c
        · rw [respects.kept hc here, List.mem_singleton] at mem
          exact newline mem.symm
        · exact (respects.moved hc here).2 _ mem kept
      have first := drainLines_prepend (r := [c]) (by simpa using Ne.symm newline) s
      rw [List.singleton_append] at first
      rw [first, drainLines_prepend solid]
      generalize Text.drainLines s = a at ih
      generalize Text.drainLines t = b at ih
      obtain ⟨ls, u⟩ := a
      obtain ⟨ls', u'⟩ := b
      obtain ⟨lines, left⟩ := ih
      cases lines with
      | nil => exact ⟨.nil, .cons here left⟩
      | cons line lines => exact ⟨.cons (.cons here line) lines, left⟩

end Rewrites

end Respects

/-! ## Lines -/

/-- Every text is a last line without a newline behind complete lines. -/
theorem line_induction {P : List Char → Prop} (last : ∀ t, '\n' ∉ t → P t)
    (line : ∀ l t, '\n' ∉ l → P t → P (l ++ '\n' :: t)) (t : List Char) : P t := by
  suffices h : ∀ n, ∀ u : List Char, u.length = n → P u from h _ t rfl
  intro n
  induction n using Nat.strong_induction_on with
  | _ n ih =>
    rintro u rfl
    by_cases broken : '\n' ∈ u
    · obtain ⟨l, rest, rfl, first⟩ := List.eq_append_cons_of_mem broken
      exact line l rest first (ih _ (by simp; omega) rest rfl)
    · exact last u broken

/-- The first complete line is drained first. -/
theorem drainLines_line {l : List Char} (unbroken : '\n' ∉ l) (t : List Char) :
    drainLines (l ++ '\n' :: t) = (l :: (drainLines t).1, (drainLines t).2) := by
  rw [drainLines_prepend unbroken, drainLines_newline]
  simp

/-- A line with its newline. -/
def ended (line : List Char) : List Char := line ++ ['\n']

theorem drainLines_ended {lines : List (List Char)} (unbroken : ∀ l ∈ lines, '\n' ∉ l)
    (t : List Char) : drainLines (lines.flatMap ended ++ t) =
      (lines ++ (drainLines t).1, (drainLines t).2) := by
  induction lines with
  | nil => rfl
  | cons line lines ih =>
    have shape : (line :: lines).flatMap ended ++ t =
        line ++ '\n' :: (lines.flatMap ended ++ t) := by simp [ended]
    rw [shape, drainLines_line (unbroken line (by simp)),
      ih fun l hl => unbroken l (List.mem_cons_of_mem _ hl)]
    rfl

/-- The lines that a text is split into have no newline and nothing that the text has not. -/
theorem mem_splitOn {t l : List Char} (hl : l ∈ t.splitOn '\n') : '\n' ∉ l ∧ l ⊆ t := by
  induction t using line_induction with
  | last t unbroken =>
    rw [List.splitOn_eq_singleton unbroken] at hl
    obtain rfl := List.mem_singleton.mp hl
    exact ⟨unbroken, fun _ => id⟩
  | line first t unbroken ih =>
    rw [List.splitOn_append_cons_self_of_not_mem unbroken] at hl
    rcases List.mem_cons.mp hl with rfl | hl
    · exact ⟨unbroken, List.subset_append_left _ _⟩
    · obtain ⟨whole, sub⟩ := ih hl
      exact ⟨whole, fun c hc => List.mem_append_right _ (List.mem_cons_of_mem _ (sub hc))⟩

theorem subset_of_mem_splitOn {c : Char} {t l : List Char} (hl : l ∈ t.splitOn c) : l ⊆ t := by
  induction t generalizing l with
  | nil =>
    rw [List.splitOn_nil, List.mem_singleton] at hl
    exact hl.symm ▸ List.nil_subset _
  | cons d t ih =>
    rw [List.splitOn_cons_eq_if_modifyHead] at hl
    split at hl
    · rcases List.mem_cons.mp hl with rfl | hl
      · exact List.nil_subset _
      · exact List.subset_cons_of_subset d (ih hl)
    · cases split_ : t.splitOn c with
      | nil => exact absurd split_ (List.splitOn_ne_nil c t)
      | cons w ws =>
        rw [split_, List.modifyHead_cons] at hl
        rcases List.mem_cons.mp hl with rfl | hl
        · exact List.cons_subset_cons d (ih (by rw [split_]; exact List.mem_cons_self))
        · exact List.subset_cons_of_subset d (ih (by rw [split_]; exact List.mem_cons_of_mem _ hl))

/-- What is left behind is the text after its last newline. -/
theorem exists_of_newline_mem {t : List Char} (h : '\n' ∈ t) :
    ∃ u, t = u ++ '\n' :: (drainLines t).2 := by
  induction t using line_induction with
  | last t unbroken => exact absurd h unbroken
  | line l t unbroken ih =>
    rw [drainLines_line unbroken]
    by_cases more : '\n' ∈ t
    · obtain ⟨u, hu⟩ := ih more
      refine ⟨l ++ '\n' :: u, ?_⟩
      rw [List.append_assoc, List.cons_append, ← hu]
    · exact ⟨l, by rw [drainLines_of_notMem more]⟩

theorem mem_of_mem_rest {t : List Char} {c : Char} (h : c ∈ (drainLines t).2) : c ∈ t := by
  by_cases broken : '\n' ∈ t
  · obtain ⟨u, split⟩ := exists_of_newline_mem broken
    rw [split]
    exact List.mem_append_right u (List.mem_cons_of_mem _ h)
  · rwa [drainLines_of_notMem broken] at h

/-- What stands before a newline does not reach what is left behind the last one. -/
theorem rest_append {s t : List Char} (h : '\n' ∈ t) :
    (drainLines (s ++ t)).2 = (drainLines t).2 := by
  induction s using line_induction with
  | last s unbroken =>
    rw [drainLines_prepend unbroken]
    cases lines : drainLines t with
    | mk ls rest =>
      cases ls with
      | nil =>
        have none_ : '\n' ∉ t := by
          intro mem
          obtain ⟨l, rest, rfl, first⟩ := List.eq_append_cons_of_mem mem
          rw [drainLines_line first] at lines
          cases lines
        exact absurd h none_
      | cons line ls => rfl
  | line l s unbroken ih =>
    rw [List.append_assoc, List.cons_append, drainLines_line unbroken]
    exact ih

theorem rest_append_of_notMem {s t : List Char} (h : '\n' ∉ t) :
    (drainLines (s ++ t)).2 = (drainLines s).2 ++ t := by
  have unbroken : '\n' ∉ (drainLines s).2 ++ t := by
    intro mem
    exact (List.mem_append.mp mem).elim (newline_notMem_rest s) h
  rw [drainLines_append, drainLines_of_notMem unbroken]

/-! ## Lines that end in two characters -/

/-- `split("\r\n")`. -/
def splitCrlf : List Char → List (List Char)
  | [] => [[]]
  | '\r' :: '\n' :: t => [] :: splitCrlf t
  | c :: t => match splitCrlf t with
    | [] => [[c]]
    | line :: lines => (c :: line) :: lines

theorem splitCrlf_cons {c : Char} (h : c ≠ '\r') (t : List Char) :
    splitCrlf (c :: t) = match splitCrlf t with
      | [] => [[c]]
      | line :: lines => (c :: line) :: lines := by
  rw [splitCrlf.eq_def]
  split
  · next eq => cases eq
  · next eq => exact absurd (List.cons.inj eq).1 h
  · next c' t' _ eq =>
    obtain ⟨rfl, rfl⟩ := List.cons.inj eq
    rfl

theorem splitCrlf_line {l : List Char} (plain : '\r' ∉ l) (t : List Char) :
    splitCrlf (l ++ '\r' :: '\n' :: t) = l :: splitCrlf t := by
  induction l with
  | nil => rfl
  | cons c l ih =>
    have first : c ≠ '\r' := fun same => plain (by simp [same])
    rw [List.cons_append, splitCrlf_cons first, ih fun mem => plain (List.mem_cons_of_mem _ mem)]

/-- A text of lines, with what stands behind the last one. -/
theorem splitCrlf_lines {lines : List (List Char)} (plain : ∀ l ∈ lines, '\r' ∉ l)
    (t : List Char) :
    splitCrlf (lines.flatMap (· ++ ['\r', '\n']) ++ t) = lines ++ splitCrlf t := by
  induction lines with
  | nil => rfl
  | cons line lines ih =>
    have shape : (line :: lines).flatMap (· ++ ['\r', '\n']) ++ t =
        line ++ '\r' :: '\n' :: (lines.flatMap (· ++ ['\r', '\n']) ++ t) := by simp
    rw [shape, splitCrlf_line (plain line (by simp)),
      ih fun l hl => plain l (List.mem_cons_of_mem _ hl)]
    rfl

/-- `split_once` at a character. -/
def splitOnce (c : Char) (t : List Char) : Option (List Char × List Char) :=
  if c ∈ t then some (t.takeWhile (· ≠ c), (t.dropWhile (· ≠ c)).drop 1) else none

theorem splitOnce_append {c : Char} {k : List Char} (h : c ∉ k) (v : List Char) :
    splitOnce c (k ++ c :: v) = some (k, v) := by
  have before : ∀ x ∈ k, decide (x ≠ c) = true := by
    intro x hx
    apply decide_eq_true
    rintro rfl
    exact h hx
  rw [splitOnce, if_pos (by simp), List.takeWhile_append_of_pos before,
    List.dropWhile_append_of_pos before]
  simp

/-- `split_whitespace`. -/
def splitWhitespace (t : List Char) : List (List Char) :=
  (t.splitOnP isWhitespace).filter fun w => !w.isEmpty

/-- A word in front of a space. -/
theorem splitWhitespace_word {w : List Char} (some_ : w ≠ []) (h : ∀ c ∈ w, isWhitespace c = false)
    (t : List Char) : splitWhitespace (w ++ ' ' :: t) = w :: splitWhitespace t := by
  rw [splitWhitespace, List.splitOnP_append_cons_of_forall_mem h _ (by decide),
    List.filter_cons_of_pos (by simpa using some_)]
  rfl

/-! ## Trimming -/

theorem exists_trimEndMatches (p : Char → Bool) (t : List Char) :
    ∃ w, (∀ c ∈ w, p c = true) ∧ t = trimEndMatches p t ++ w := by
  refine ⟨(t.reverse.takeWhile p).reverse, ?_, ?_⟩
  · intro c hc
    exact List.mem_takeWhile_imp (List.mem_reverse.mp hc)
  · rw [trimEndMatches, ← List.reverse_append, List.takeWhile_append_dropWhile,
      List.reverse_reverse]

theorem trimEndMatches_of_solid {p : Char → Bool} {t : List Char} (solid : ∀ c ∈ t, p c = false) :
    trimEndMatches p t = t := by
  have appended := trimEndMatches_append solid []
  rw [List.append_nil] at appended
  rw [appended]
  exact List.append_nil t

theorem trimEndMatches_drop {p : Char → Bool} {w : List Char} (h : ∀ c ∈ w, p c = true)
    (t : List Char) : trimEndMatches p (t ++ w) = trimEndMatches p t := by
  rw [trimEndMatches, List.reverse_append,
    List.dropWhile_append_of_pos fun c hc => h c (List.mem_reverse.mp hc)]
  rfl

theorem trimEndMatches_of_last {p : Char → Bool} {d : Char} (last : p d = false) (t : List Char) :
    trimEndMatches p (t ++ [d]) = t ++ [d] := by
  rw [trimEndMatches, List.reverse_append, List.reverse_singleton, List.singleton_append,
    List.dropWhile_cons_of_neg (by simp [last]), List.reverse_cons, List.reverse_reverse]

/-- Trimming takes white space off both ends. -/
theorem exists_trim (t : List Char) : ∃ w w', (∀ c ∈ w, isWhitespace c = true) ∧
    (∀ c ∈ w', isWhitespace c = true) ∧ t = w ++ (trim t ++ w') := by
  obtain ⟨w', hw', split⟩ := exists_trimEndMatches isWhitespace (trimStart t)
  refine ⟨t.takeWhile isWhitespace, w', fun c hc => List.mem_takeWhile_imp hc, hw', ?_⟩
  rw [trim, ← split, trimStart, List.takeWhile_append_dropWhile]

/-- Text that starts and ends with something else is trimmed to itself. -/
theorem trim_of_solid {w w' : List Char} (hw : ∀ c ∈ w, isWhitespace c = true)
    (hw' : ∀ c ∈ w', isWhitespace c = true) {c d : Char} (t : List Char)
    (first : isWhitespace c = false) (last : isWhitespace d = false) :
    trim (w ++ (c :: (t ++ [d]) ++ w')) = c :: (t ++ [d]) := by
  have start : trimStart (w ++ (c :: (t ++ [d]) ++ w')) = c :: (t ++ [d]) ++ w' := by
    unfold trimStart
    rw [List.dropWhile_append_of_pos hw, List.cons_append,
      List.dropWhile_cons_of_neg (by simp [first])]
  have finish : (c :: (t ++ [d]) ++ w').reverse.dropWhile isWhitespace =
      (c :: (t ++ [d])).reverse := by
    have rest : (c :: (t ++ [d])).reverse = d :: (c :: t).reverse := by simp
    rw [List.reverse_append,
      List.dropWhile_append_of_pos fun x hx => hw' x (List.mem_reverse.mp hx), rest,
      List.dropWhile_cons_of_neg (by simp [last])]
  rw [trim, start, trimEndMatches, finish, List.reverse_reverse]

theorem dropWhile_congr {p q : Char → Bool} {t : List Char} (same : ∀ c ∈ t, p c = q c) :
    t.dropWhile p = t.dropWhile q := by
  induction t with
  | nil => rfl
  | cons c t ih =>
    obtain ⟨here, rest⟩ := List.forall_mem_cons.mp same
    rw [List.dropWhile_cons, List.dropWhile_cons, here, ih rest]

/-- Where blanks are the only white space, they are all that is trimmed. -/
theorem trim_eq_trimBlanks {t : List Char} (same : ∀ c ∈ t, isWhitespace c = isBlank c) :
    trim t = trimBlanks t := by
  have start : trimStart t = t.dropWhile isBlank := dropWhile_congr same
  have rest : ∀ c ∈ (t.dropWhile isBlank).reverse, isWhitespace c = isBlank c :=
    fun c hc => same c (List.dropWhile_subset _ (List.mem_reverse.mp hc))
  rw [trim, trimBlanks, start, trimEndMatches, trimEndMatches, dropWhile_congr rest]

theorem trim_of_whitespace {t : List Char} (h : ∀ c ∈ t, isWhitespace c = true) : trim t = [] := by
  have start : trimStart t = [] := List.dropWhile_eq_nil_iff.mpr h
  rw [trim, start]
  rfl

theorem trim_ne_nil {t : List Char} {c : Char} (mem : c ∈ t) (solid : isWhitespace c = false) :
    trim t ≠ [] := by
  intro empty
  obtain ⟨w, w', hw, hw', split⟩ := exists_trim t
  rw [empty, List.nil_append] at split
  rw [split] at mem
  exact Bool.noConfusion (solid.symm.trans ((List.mem_append.mp mem).elim (hw c) (hw' c)))

/-- White space at the end makes no difference to trimming. -/
theorem trim_append {w : List Char} (h : ∀ c ∈ w, isWhitespace c = true) (t : List Char) :
    trim (t ++ w) = trim t := by
  by_cases blank : ∀ c ∈ t, isWhitespace c = true
  · have both : ∀ c ∈ t ++ w, isWhitespace c = true :=
      fun c hc => (List.mem_append.mp hc).elim (blank c) (h c)
    rw [trim_of_whitespace blank, trim_of_whitespace both]
  · have start : trimStart (t ++ w) = trimStart t ++ w := by
      have some_ : ¬ (t.dropWhile isWhitespace).isEmpty = true := by
        rw [List.isEmpty_iff, List.dropWhile_eq_nil_iff]
        exact blank
      rw [trimStart, List.dropWhile_append, if_neg some_]
      rfl
    rw [trim, start, trimEndMatches, List.reverse_append,
      List.dropWhile_append_of_pos fun c hc => h c (List.mem_reverse.mp hc)]
    rfl

theorem trim_trimEndMatches {p : Char → Bool} (white : ∀ c, p c = true → isWhitespace c = true)
    (t : List Char) : trim (trimEndMatches p t) = trim t := by
  obtain ⟨w, hw, split⟩ := exists_trimEndMatches p t
  conv_rhs => rw [split, trim_append fun c hc => white c (hw c hc)]

/-- White space at the start makes no difference to trimming. -/
theorem trim_prepend {w : List Char} (h : ∀ c ∈ w, isWhitespace c = true) (t : List Char) :
    trim (w ++ t) = trim t := by
  rw [trim, trimStart, List.dropWhile_append_of_pos h]
  rfl

theorem trim_cons {c : Char} (solid : isWhitespace c = false) (t : List Char) :
    trim (c :: t) = c :: trimEndMatches isWhitespace t := by
  have start : trimStart (c :: t) = c :: t := List.dropWhile_cons_of_neg (by simp [solid])
  rw [trim, start, trimEndMatches_cons, if_neg (by simp [solid])]

/-- Trimmed text does not end in a character that is trimmed. -/
theorem trimEndMatches_trim {p : Char → Bool} (white : ∀ c, p c = true → isWhitespace c = true)
    (t : List Char) : trimEndMatches p (trim t) = trim t := by
  have last := List.head?_dropWhile_not isWhitespace (trimStart t).reverse
  unfold trim trimEndMatches
  rw [List.reverse_reverse]
  cases kept : (trimStart t).reverse.dropWhile isWhitespace with
  | nil => rfl
  | cons c rest =>
    rw [kept] at last
    have solid : p c = false := by
      apply Bool.eq_false_iff.mpr
      intro trimmed
      have solid : isWhitespace c = false := last
      exact Bool.noConfusion (solid.symm.trans (white c trimmed))
    rw [List.dropWhile_cons_of_neg (by simp [solid])]

theorem trim_of_plain {t : List Char} (h : ∀ c ∈ t, isWhitespace c = false) : trim t = t := by
  have start : trimStart t = t := by
    cases t with
    | nil => rfl
    | cons c t => exact List.dropWhile_cons_of_neg (by simp [h c])
  rw [trim, start, trimEndMatches_of_solid h]

end Text
