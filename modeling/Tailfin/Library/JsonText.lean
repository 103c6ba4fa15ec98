import Mathlib.Data.List.Basic
import Mathlib.Tactic.Common
import Tailfin.Library.Text

/-!
# The texts of JSON

The grammar of RFC 8259 over lists of characters, and a scanner that keeps only an outline of a
text: whether it stands inside a string, and how many brackets are open. Every text of the
grammar passes the scanner and closes every bracket that it opens, so a text that leaves one open
is no text of the grammar, and outside of its strings a text has few characters to start a line
with.
-/

namespace JsonText

/-- Insignificant white space. -/
def isSpace (c : Char) : Bool := c = ' ' || c = '\t' || c = '\n' || c = '\r'

def Spaces (t : List Char) : Prop := ∀ c ∈ t, isSpace c = true

theorem notMem_spaces {c : Char} (other : isSpace c = false) {w : List Char} (spaces : Spaces w) :
    c ∉ w :=
  fun mem => Bool.noConfusion (other.symm.trans (spaces c mem))

theorem isWhitespace_of_isSpace {c : Char} (h : isSpace c = true) : Text.isWhitespace c = true := by
  simp only [isSpace, Bool.or_eq_true, decide_eq_true_eq] at h
  rcases h with ((rfl | rfl) | rfl) | rfl <;> decide

theorem isWhitespace_of_spaces {w : List Char} (h : Spaces w) :
    ∀ c ∈ w, Text.isWhitespace c = true :=
  fun c hc => isWhitespace_of_isSpace (h c hc)

/-! ## The grammar -/

def isHex (c : Char) : Bool := c.isDigit || ('a' ≤ c && c ≤ 'f') || ('A' ≤ c && c ≤ 'F')

/-- What stands between the quotes of a string. -/
inductive Chars : List Char → Prop
  | nil : Chars []
  | plain {c : Char} {t : List Char} : 0x20 ≤ c.toNat → c ≠ '"' → c ≠ '\\' → Chars t →
      Chars (c :: t)
  | escape {c : Char} {t : List Char} : c ∈ ['"', '\\', '/', 'b', 'f', 'n', 'r', 't'] → Chars t →
      Chars ('\\' :: c :: t)
  | unicode {h₁ h₂ h₃ h₄ : Char} {t : List Char} : isHex h₁ → isHex h₂ → isHex h₃ → isHex h₄ →
      Chars t → Chars ('\\' :: 'u' :: h₁ :: h₂ :: h₃ :: h₄ :: t)

def IsString (t : List Char) : Prop := ∃ s, Chars s ∧ t = '"' :: (s ++ ['"'])

def Digits (t : List Char) : Prop := t ≠ [] ∧ ∀ c ∈ t, c.isDigit = true

/-- Zero, or digits that start with another one. -/
def IsInt (t : List Char) : Prop := t = ['0'] ∨ Digits t ∧ t.head? ≠ some '0'

def IsFraction (t : List Char) : Prop := t = [] ∨ ∃ ds, Digits ds ∧ t = '.' :: ds

def IsExponent (t : List Char) : Prop :=
  t = [] ∨ ∃ e sign ds, (e = 'e' ∨ e = 'E') ∧ (sign = [] ∨ sign = ['+'] ∨ sign = ['-']) ∧
    Digits ds ∧ t = e :: (sign ++ ds)

def IsNumber (t : List Char) : Prop :=
  ∃ sign int fraction exponent, (sign = [] ∨ sign = ['-']) ∧ IsInt int ∧ IsFraction fraction ∧
    IsExponent exponent ∧ t = sign ++ (int ++ (fraction ++ exponent))

/-- The rules of the grammar. A value, alone or with white space around it, knows whether it is
an object. -/
inductive Rule where
  | value (object : Bool)
  | element (object : Bool)
  | elements
  | members
  deriving DecidableEq

inductive Grammar : Rule → List Char → Prop
  | literal {t : List Char} : t = "true".toList ∨ t = "false".toList ∨ t = "null".toList →
      Grammar (.value false) t
  | number {t : List Char} : IsNumber t → Grammar (.value false) t
  | string {t : List Char} : IsString t → Grammar (.value false) t
  | emptyArray {w : List Char} : Spaces w → Grammar (.value false) ('[' :: (w ++ [']']))
  | array {es : List Char} : Grammar .elements es → Grammar (.value false) ('[' :: (es ++ [']']))
  | emptyObject {w : List Char} : Spaces w → Grammar (.value true) ('{' :: (w ++ ['}']))
  | object {ms : List Char} : Grammar .members ms → Grammar (.value true) ('{' :: (ms ++ ['}']))
  | element {o : Bool} {a v b : List Char} : Spaces a → Grammar (.value o) v → Spaces b →
      Grammar (.element o) (a ++ (v ++ b))
  | last {o : Bool} {e : List Char} : Grammar (.element o) e → Grammar .elements e
  | next {o : Bool} {e es : List Char} : Grammar (.element o) e → Grammar .elements es →
      Grammar .elements (e ++ ',' :: es)
  | lastMember {o : Bool} {a s b e : List Char} : Spaces a → IsString s → Spaces b →
      Grammar (.element o) e → Grammar .members (a ++ (s ++ (b ++ ':' :: e)))
  | nextMember {o : Bool} {a s b e ms : List Char} : Spaces a → IsString s → Spaces b →
      Grammar (.element o) e → Grammar .members ms →
      Grammar .members (a ++ (s ++ (b ++ ':' :: (e ++ ',' :: ms))))

/-! ## The scanner -/

/-- Where the scanner stands. -/
inductive Mode where
  | between
  /-- In a number or a literal. -/
  | inAtom
  | inString
  /-- Behind a backslash. -/
  | inEscape
  deriving DecidableEq

/-- Outside of strings. -/
def Mode.Outside (m : Mode) : Prop := m = .between ∨ m = .inAtom

/-- The first characters of numbers and literals. -/
def startsAtom (c : Char) : Bool := c.isDigit || c = '-' || c = 't' || c = 'f' || c = 'n'

def isAtom (c : Char) : Bool := c.isAlphanum || c = '-' || c = '+' || c = '.'

/-- One character, with the number of open brackets. -/
def scan (s : Mode × Nat) (c : Char) : Option (Mode × Nat) :=
  match s.1 with
  | .inString =>
    if c = '"' then some (.between, s.2)
    else if c = '\\' then some (.inEscape, s.2)
    else if c.toNat < 0x20 then none
    else some (.inString, s.2)
  | .inEscape => if c.toNat < 0x20 then none else some (.inString, s.2)
  | m =>
    if isSpace c || c = ',' || c = ':' then some (.between, s.2)
    else if c = '{' || c = '[' then some (.between, s.2 + 1)
    else if c = '}' || c = ']' then if s.2 = 0 then none else some (.between, s.2 - 1)
    else if c = '"' then some (.inString, s.2)
    else if if m = .inAtom then isAtom c else startsAtom c then some (.inAtom, s.2)
    else none

def scanAll (s : Mode × Nat) (t : List Char) : Option (Mode × Nat) := t.foldlM scan s

@[simp] theorem scanAll_nil (s : Mode × Nat) : scanAll s [] = some s := rfl

theorem scanAll_cons (s : Mode × Nat) (c : Char) (t : List Char) :
    scanAll s (c :: t) = (scan s c).bind (scanAll · t) := rfl

theorem scanAll_append (s : Mode × Nat) (t u : List Char) :
    scanAll s (t ++ u) = (scanAll s t).bind (scanAll · u) := by
  unfold scanAll
  rw [List.foldlM_append]
  rfl

theorem scanAll_of_append {s s' : Mode × Nat} {t u : List Char}
    (h : scanAll s (t ++ u) = some s') : ∃ r, scanAll s t = some r ∧ scanAll r u = some s' := by
  rw [scanAll_append] at h
  exact Option.bind_eq_some_iff.mp h

/-- Brackets that were open before stay open. -/
theorem scan_shift {m m' : Mode} {d d' : Nat} {c : Char} (h : scan (m, d) c = some (m', d'))
    (k : Nat) : scan (m, d + k) c = some (m', d' + k) := by
  cases m with
  | inString =>
    simp only [scan] at h ⊢
    split_ifs at h ⊢ <;> simp_all
  | inEscape =>
    simp only [scan] at h ⊢
    split_ifs at h ⊢
    simp_all
  | between | inAtom =>
    simp only [scan] at h ⊢
    split_ifs at h ⊢ <;> simp_all <;> omega

theorem scanAll_shift {m m' : Mode} {d d' : Nat} {t : List Char}
    (h : scanAll (m, d) t = some (m', d')) (k : Nat) :
    scanAll (m, d + k) t = some (m', d' + k) := by
  induction t generalizing m d with
  | nil =>
    cases h
    rfl
  | cons c t ih =>
    rw [scanAll_cons] at h ⊢
    obtain ⟨⟨m₁, d₁⟩, first, rest⟩ := Option.bind_eq_some_iff.mp h
    rw [scan_shift first k, Option.bind_some]
    exact ih rest

/-! ## What passes the scanner -/

/-- The text is scanned to its end from between two tokens and closes what it opens. -/
def Passes (t : List Char) : Prop :=
  ∃ m : Mode, m.Outside ∧ ∀ d, scanAll (.between, d) t = some (m, d)

/-- The characters with a meaning of their own outside of strings. -/
def special : List Char := [' ', '\t', '\n', '\r', ',', ':', '{', '[', '}', ']', '"']

theorem notMem_special {c : Char} (h : isAtom c = true) : c ∉ special := by
  have plain : ∀ x ∈ special, isAtom x = false := List.all_iff_forall_prop.mp (by decide)
  exact fun mem => Bool.noConfusion (h.symm.trans (plain c mem))

theorem scan_atom {m : Mode} {d : Nat} {c : Char} (plain : c ∉ special)
    (outside : m.Outside) (h : (if m = .inAtom then isAtom c else startsAtom c) = true) :
    scan (m, d) c = some (.inAtom, d) := by
  simp only [special, List.mem_cons, List.not_mem_nil, or_false, not_or] at plain
  rcases outside with rfl | rfl <;> simp_all [scan, isSpace]

theorem isAtom_of_startsAtom {c : Char} (h : startsAtom c = true) : isAtom c = true := by
  unfold startsAtom at h
  simp only [Bool.or_eq_true, decide_eq_true_eq] at h
  rcases h with (((h | rfl) | rfl) | rfl) | rfl
  · simp [isAtom, Char.isAlphanum, h]
  all_goals decide

theorem scanAll_atoms {t : List Char} (h : ∀ c ∈ t, isAtom c = true) (d : Nat) :
    scanAll (.inAtom, d) t = some (.inAtom, d) := by
  induction t with
  | nil => rfl
  | cons c t ih =>
    have here := h c (by simp)
    rw [scanAll_cons, scan_atom (notMem_special here) (.inr rfl) here, Option.bind_some]
    exact ih fun x hx => h x (List.mem_cons_of_mem _ hx)

/-- Numbers and literals pass. -/
theorem passes_atoms {c : Char} {t : List Char} (first : startsAtom c = true)
    (h : ∀ x ∈ t, isAtom x = true) : Passes (c :: t) := by
  refine ⟨.inAtom, .inr rfl, fun d => ?_⟩
  have plain := notMem_special (isAtom_of_startsAtom first)
  rw [scanAll_cons, scan_atom plain (.inl rfl) first, Option.bind_some]
  exact scanAll_atoms h d

theorem isAtom_of_isDigit {c : Char} (h : c.isDigit = true) : isAtom c = true := by
  simp [isAtom, Char.isAlphanum, h]

theorem IsInt.digits {t : List Char} (h : IsInt t) : Digits t := by
  rcases h with rfl | ⟨digits, -⟩
  · exact ⟨by simp, List.all_iff_forall_prop.mp (by decide)⟩
  · exact digits

theorem passes_number {t : List Char} (h : IsNumber t) : Passes t := by
  obtain ⟨sign, int, fraction, exponent, hs, hi, hf, he, rfl⟩ := h
  obtain ⟨some_, digits⟩ := hi.digits
  have fractions : ∀ c ∈ fraction, isAtom c = true := by
    rcases hf with rfl | ⟨ds, ⟨-, hd⟩, rfl⟩
    · simp
    · intro c hc
      rcases List.mem_cons.mp hc with rfl | hc
      · decide
      · exact isAtom_of_isDigit (hd c hc)
  have exponents : ∀ c ∈ exponent, isAtom c = true := by
    rcases he with rfl | ⟨e, sign, ds, he, hs, ⟨-, hd⟩, rfl⟩
    · simp
    · intro c hc
      rcases List.mem_cons.mp hc with rfl | hc
      · rcases he with rfl | rfl <;> decide
      · rcases List.mem_append.mp hc with hc | hc
        · rcases hs with rfl | rfl | rfl
          · cases hc
          · obtain rfl := List.mem_singleton.mp hc
            decide
          · obtain rfl := List.mem_singleton.mp hc
            decide
        · exact isAtom_of_isDigit (hd c hc)
  obtain ⟨c, int, rfl⟩ := List.exists_cons_of_ne_nil some_
  have rest : ∀ x ∈ int ++ (fraction ++ exponent), isAtom x = true := by
    intro x hx
    rcases List.mem_append.mp hx with hx | hx
    · exact isAtom_of_isDigit (digits x (List.mem_cons_of_mem _ hx))
    · exact (List.mem_append.mp hx).elim (fractions x) (exponents x)
  have first := digits c (by simp)
  rcases hs with rfl | rfl
  · exact passes_atoms (by simp [startsAtom, first]) rest
  · refine passes_atoms (by decide) fun x hx => ?_
    rcases List.mem_cons.mp hx with rfl | hx
    · exact isAtom_of_isDigit first
    · exact rest x hx

theorem scan_plain {c : Char} {d : Nat} (high : 0x20 ≤ c.toNat) (quote : c ≠ '"')
    (slash : c ≠ '\\') : scan (.inString, d) c = some (.inString, d) := by
  simp [scan, quote, slash, Nat.not_lt.mpr high]

theorem high_of_isHex {c : Char} (h : isHex c = true) :
    0x20 ≤ c.toNat ∧ c ≠ '"' ∧ c ≠ '\\' := by
  have atom : ∀ x, isHex x = true → ('0' ≤ x) := by
    intro x hx
    simp only [isHex, Bool.or_eq_true, Bool.and_eq_true, decide_eq_true_eq, Char.isDigit] at hx
    rcases hx with (hx | hx) | hx
    · exact hx.1
    · exact Char.le_trans (show '0' ≤ 'a' by decide) hx.1
    · exact Char.le_trans (show '0' ≤ 'A' by decide) hx.1
  refine ⟨?_, ?_, ?_⟩
  · have low : '0'.toNat ≤ c.toNat := atom c h
    exact le_trans (by decide) low
  · rintro rfl
    exact absurd h (by decide)
  · rintro rfl
    exact absurd h (by decide)

/-- Inside a string the scanner stays there. -/
theorem scanAll_chars {s : List Char} (h : Chars s) (d : Nat) :
    scanAll (.inString, d) s = some (.inString, d) := by
  induction h with
  | nil => rfl
  | plain high quote slash _ ih =>
    rw [scanAll_cons, scan_plain high quote slash, Option.bind_some, ih]
  | @escape c t mem _ ih =>
    have high : ∀ x ∈ ['"', '\\', '/', 'b', 'f', 'n', 'r', 't'], ¬ x.toNat < 0x20 :=
      List.all_iff_forall_prop.mp (by decide)
    have slash : scan (.inString, d) '\\' = some (.inEscape, d) := by simp [scan]
    have here : scan (.inEscape, d) c = some (.inString, d) := by simp [scan, high c mem]
    rw [scanAll_cons, slash, Option.bind_some, scanAll_cons, here, Option.bind_some, ih]
  | unicode h₁ h₂ h₃ h₄ _ ih =>
    have slash : scan (.inString, d) '\\' = some (.inEscape, d) := by simp [scan]
    have here : scan (.inEscape, d) 'u' = some (.inString, d) := by simp [scan]
    have hex : ∀ {x : Char}, isHex x = true → scan (.inString, d) x = some (.inString, d) := by
      intro x hx
      obtain ⟨high, quote, slash⟩ := high_of_isHex hx
      exact scan_plain high quote slash
    rw [scanAll_cons, slash, Option.bind_some, scanAll_cons, here, Option.bind_some, scanAll_cons,
      hex h₁, Option.bind_some, scanAll_cons, hex h₂, Option.bind_some, scanAll_cons, hex h₃,
      Option.bind_some, scanAll_cons, hex h₄, Option.bind_some, ih]

theorem scanAll_string {t : List Char} (h : IsString t) (d : Nat) :
    scanAll (.between, d) t = some (.between, d) := by
  obtain ⟨s, hs, rfl⟩ := h
  have opening : scan (.between, d) '"' = some (.inString, d) := by simp [scan, isSpace]
  have closing : scan (.inString, d) '"' = some (.between, d) := by simp [scan]
  rw [scanAll_cons, opening, Option.bind_some, scanAll_append, scanAll_chars hs, Option.bind_some,
    scanAll_cons, closing]
  rfl

section Delimiters

variable {m : Mode} (outside : m.Outside) (d : Nat)

include outside

theorem scan_space {c : Char} (h : isSpace c = true) : scan (m, d) c = some (.between, d) := by
  rcases outside with rfl | rfl <;> simp [scan, h]

theorem scan_separator {c : Char} (h : c = ',' ∨ c = ':') :
    scan (m, d) c = some (.between, d) := by
  rcases outside with rfl | rfl <;> rcases h with rfl | rfl <;> simp [scan]

theorem scan_open {c : Char} (h : c = '{' ∨ c = '[') :
    scan (m, d) c = some (.between, d + 1) := by
  rcases outside with rfl | rfl <;> rcases h with rfl | rfl <;> simp [scan, isSpace]

theorem scan_close {c : Char} (h : c = '}' ∨ c = ']') :
    scan (m, d + 1) c = some (.between, d) := by
  rcases outside with rfl | rfl <;> rcases h with rfl | rfl <;> simp [scan, isSpace]

/-- White space changes neither where the scanner is nor what is open. -/
theorem scanAll_spaces {w : List Char} (h : Spaces w) :
    ∃ m' : Mode, m'.Outside ∧ (m = .between → m' = .between) ∧
      scanAll (m, d) w = some (m', d) := by
  induction w generalizing m with
  | nil => exact ⟨m, outside, id, rfl⟩
  | cons c w ih =>
    obtain ⟨m', outside', still, rest⟩ := ih (m := .between) (.inl rfl)
      fun x hx => h x (List.mem_cons_of_mem _ hx)
    refine ⟨m', outside', fun _ => still rfl, ?_⟩
    rw [scanAll_cons, scan_space outside d (h c (by simp)), Option.bind_some, rest]

end Delimiters

theorem scanAll_spaces_between {w : List Char} (h : Spaces w) (d : Nat) :
    scanAll (.between, d) w = some (.between, d) := by
  obtain ⟨m, -, still, scanned⟩ := scanAll_spaces (.inl rfl) d h
  rw [still rfl] at scanned
  exact scanned

theorem passes_spaces {w : List Char} (h : Spaces w) : Passes w :=
  ⟨.between, .inl rfl, scanAll_spaces_between h⟩

/-- What passes still does so between brackets. -/
theorem Passes.bracket {t : List Char} (h : Passes t) {l r : Char} (hl : l = '{' ∨ l = '[')
    (hr : r = '}' ∨ r = ']') : Passes (l :: (t ++ [r])) := by
  obtain ⟨m, outside, scanned⟩ := h
  refine ⟨.between, .inl rfl, fun d => ?_⟩
  rw [scanAll_cons, scan_open (.inl rfl) d hl, Option.bind_some, scanAll_append, scanned,
    Option.bind_some, scanAll_cons, scan_close outside d hr]
  rfl

/-- Two texts with a separator between them pass together. -/
theorem Passes.join {t u : List Char} (ht : Passes t) (hu : Passes u) {c : Char}
    (h : c = ',' ∨ c = ':') : Passes (t ++ c :: u) := by
  obtain ⟨m, outside, scanned⟩ := ht
  obtain ⟨m', outside', scanned'⟩ := hu
  refine ⟨m', outside', fun d => ?_⟩
  rw [scanAll_append, scanned, Option.bind_some, scanAll_cons, scan_separator outside d h,
    Option.bind_some, scanned']

theorem Passes.spaced {a t b : List Char} (ha : Spaces a) (ht : Passes t) (hb : Spaces b) :
    Passes (a ++ (t ++ b)) := by
  obtain ⟨m, outside, scanned⟩ := ht
  have after : ∀ d, ∃ m' : Mode, m'.Outside ∧ scanAll (m, d) b = some (m', d) := fun d => by
    obtain ⟨m', outside', -, rest⟩ := scanAll_spaces outside d hb
    exact ⟨m', outside', rest⟩
  obtain ⟨m', outside', rest⟩ := after 0
  refine ⟨m', outside', fun d => ?_⟩
  have moved := scanAll_shift rest d
  rw [Nat.zero_add] at moved
  rw [scanAll_append, scanAll_spaces_between ha, Option.bind_some, scanAll_append, scanned,
    Option.bind_some, moved]

/-- Every text of the grammar passes. -/
theorem Grammar.passes {rule : Rule} {t : List Char} (h : Grammar rule t) : Passes t := by
  have name : ∀ {a s b : List Char}, Spaces a → IsString s → Spaces b → Passes (a ++ (s ++ b)) :=
    fun ha hs hb => .spaced ha ⟨.between, .inl rfl, scanAll_string hs⟩ hb
  induction h with
  | literal h =>
    rcases h with rfl | rfl | rfl <;>
      exact passes_atoms (by decide) (List.all_iff_forall_prop.mp (by decide))
  | number h => exact passes_number h
  | string h => exact ⟨.between, .inl rfl, scanAll_string h⟩
  | emptyArray h => exact (passes_spaces h).bracket (.inr rfl) (.inr rfl)
  | array _ ih => exact ih.bracket (.inr rfl) (.inr rfl)
  | emptyObject h => exact (passes_spaces h).bracket (.inl rfl) (.inl rfl)
  | object _ ih => exact ih.bracket (.inl rfl) (.inl rfl)
  | element ha _ hb ih => exact .spaced ha ih hb
  | last _ ih => exact ih
  | next _ _ ih ih' => exact ih.join ih' (.inl rfl)
  | lastMember ha hs hb _ ih =>
    have joined := (name ha hs hb).join ih (.inr rfl)
    simpa only [List.append_assoc] using joined
  | nextMember ha hs hb _ _ ih ih' =>
    have joined := (name ha hs hb).join (ih.join ih' (.inl rfl)) (.inr rfl)
    simpa only [List.append_assoc] using joined

/-- An object, with white space around it, is a pair of braces around what passes. -/
theorem Grammar.exists_body {t : List Char} (h : Grammar (.element true) t) :
    ∃ a body b, Spaces a ∧ Spaces b ∧ Passes body ∧ t = a ++ '{' :: (body ++ '}' :: b) := by
  cases h with
  | @element o a v b ha hv hb =>
    cases hv with
    | @emptyObject w hw => exact ⟨a, w, b, ha, hb, passes_spaces hw, by simp⟩
    | @object ms hms => exact ⟨a, ms, b, ha, hb, hms.passes, by simp⟩

/-- Only an object starts with a brace. -/
theorem Grammar.brace_iff {o : Bool} {v : List Char} (h : Grammar (.value o) v) :
    ∃ c t, v = c :: t ∧ (c = '{' ↔ o = true) := by
  have other : ∀ {c : Char}, c ≠ '{' → (c = '{' ↔ false = true) := fun ne => by simp [ne]
  cases h with
  | literal h => rcases h with rfl | rfl | rfl <;> exact ⟨_, _, rfl, other (by decide)⟩
  | number h =>
    obtain ⟨sign, int, fraction, exponent, hs, hi, -, -, rfl⟩ := h
    obtain ⟨some_, digits⟩ := hi.digits
    obtain ⟨c, int, rfl⟩ := List.exists_cons_of_ne_nil some_
    rcases hs with rfl | rfl
    · refine ⟨c, _, rfl, other ?_⟩
      rintro rfl
      exact absurd (digits '{' (by simp)) (by decide)
    · exact ⟨'-', _, rfl, other (by decide)⟩
  | string h =>
    obtain ⟨s, -, rfl⟩ := h
    exact ⟨'"', _, rfl, other (by decide)⟩
  | emptyArray => exact ⟨'[', _, rfl, other (by decide)⟩
  | array => exact ⟨'[', _, rfl, other (by decide)⟩
  | emptyObject => exact ⟨'{', _, rfl, by simp⟩
  | object => exact ⟨'{', _, rfl, by simp⟩

/-- A text that starts with a brace is an object. -/
theorem Grammar.object_of_brace {o : Bool} {t : List Char} (h : Grammar (.element o) ('{' :: t)) :
    o = true := by
  generalize whole : '{' :: t = text at h
  cases h with
  | @element _ a v b ha hv _ =>
    obtain ⟨c, v, rfl, kind⟩ := hv.brace_iff
    cases a with
    | nil => exact kind.mp (List.cons.inj whole).1.symm
    | cons x a =>
      obtain rfl : '{' = x := (List.cons.inj whole).1
      exact Bool.noConfusion (ha '{' (by simp))

/-- A text of an object ends between two tokens. -/
theorem Grammar.closes {t : List Char} (h : Grammar (.element true) t) (d : Nat) :
    scanAll (.between, d) t = some (.between, d) := by
  obtain ⟨a, body, b, ha, hb, ⟨m, outside, passes⟩, rfl⟩ := h.exists_body
  rw [scanAll_append, scanAll_spaces_between ha, Option.bind_some, scanAll_cons,
    scan_open (.inl rfl) d (.inl rfl), Option.bind_some, scanAll_append, passes, Option.bind_some,
    scanAll_cons, scan_close outside d (.inl rfl), Option.bind_some, scanAll_spaces_between hb]

/-! ## What a front of a text leaves open -/

/-- A front of a text that passes is scanned too, and never closes what was open before it. -/
theorem Passes.front {t p r : List Char} (h : Passes t) (split : t = p ++ r) :
    ∃ m d, ∀ k, scanAll (.between, k) p = some (m, d + k) := by
  obtain ⟨m, -, closes⟩ := h
  have whole := closes 0
  rw [split] at whole
  obtain ⟨⟨m', d⟩, scanned, -⟩ := scanAll_of_append whole
  refine ⟨m', d, fun k => ?_⟩
  have moved := scanAll_shift scanned k
  rwa [Nat.zero_add] at moved

/-- Between the braces of an object one bracket at least is open. -/
theorem Passes.front_open {body p r : List Char} (h : Passes body)
    (braces : '{' :: (body ++ ['}']) = p ++ r) (some_ : p ≠ []) (proper : r ≠ []) :
    ∃ m d, scanAll (.between, 0) p = some (m, d + 1) := by
  obtain ⟨c, p, rfl⟩ := List.exists_cons_of_ne_nil some_
  obtain ⟨rfl, rest⟩ := List.cons.inj braces
  have inside : ∃ r', body = p ++ r' := by
    rcases List.append_eq_append_iff.mp rest with ⟨x, rfl, last⟩ | ⟨x, rfl, -⟩
    · have nothing : x = [] := by
        cases x with
        | nil => rfl
        | cons c x =>
          have lengths := congrArg List.length last
          have long := List.length_pos_iff.mpr proper
          simp only [List.length_append, List.length_cons, List.length_nil] at lengths
          omega
      exact ⟨[], by simp [nothing]⟩
    · exact ⟨x, rfl⟩
  obtain ⟨r', split⟩ := inside
  obtain ⟨m, d, scanned⟩ := h.front split
  refine ⟨m, d, ?_⟩
  rw [scanAll_cons, scan_open (.inl rfl) 0 (.inl rfl), Option.bind_some]
  exact scanned 1

/-- Behind an object that is closed there is white space only. -/
theorem Grammar.spaces_behind {p r : List Char} {m : Mode} (h : Grammar (.element true) (p ++ r))
    (closed : scanAll (.between, 0) p = some (m, 0)) (some_ : ¬ Spaces p) : Spaces r := by
  obtain ⟨a, body, b, ha, hb, passes, split⟩ := h.exists_body
  rcases List.append_eq_append_iff.mp split with ⟨x, rfl, -⟩ | ⟨x, rfl, rest⟩
  · exact absurd (fun c hc => ha c (List.mem_append_left _ hc)) some_
  rw [scanAll_append, scanAll_spaces_between ha, Option.bind_some] at closed
  have filled : x ≠ [] := by
    rintro rfl
    exact some_ (by simpa using ha)
  have braces : '{' :: (body ++ ['}']) ++ b = x ++ r := by
    rw [← rest]
    simp
  rcases List.append_eq_append_iff.mp braces with ⟨y, rfl, rfl⟩ | ⟨y, front, rfl⟩
  · exact fun c hc => hb c (List.mem_append_right _ hc)
  · by_cases proper : y = []
    · simpa [proper] using hb
    · obtain ⟨m', d, scanned⟩ := passes.front_open front filled proper
      rw [scanned] at closed
      cases closed

end JsonText
