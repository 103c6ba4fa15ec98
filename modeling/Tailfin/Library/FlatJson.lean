import Tailfin.Library.JsonText

/-!
# Flat objects of strings

JSON strings as they are written and what they say, and the objects whose values are strings or
null, with any white space. No quote inside a string stands without a backslash.
-/

namespace JsonText

/-! ## Strings -/

def hexValue (c : Char) : Nat :=
  if c.isDigit then c.toNat - 48 else if 'a' ≤ c then c.toNat - 87 else c.toNat - 55

/-- Four hexadecimal digits. -/
structure CodeUnit where
  h₁ : Char
  h₂ : Char
  h₃ : Char
  h₄ : Char
  deriving DecidableEq

namespace CodeUnit

def text (u : CodeUnit) : List Char := ['u', u.h₁, u.h₂, u.h₃, u.h₄]

def value (u : CodeUnit) : Nat :=
  ((hexValue u.h₁ * 16 + hexValue u.h₂) * 16 + hexValue u.h₃) * 16 + hexValue u.h₄

structure Valid (u : CodeUnit) : Prop where
  h₁ : isHex u.h₁ = true
  h₂ : isHex u.h₂ = true
  h₃ : isHex u.h₃ = true
  h₄ : isHex u.h₄ = true

end CodeUnit

/-- How one character of a string is written. -/
inductive Piece where
  | plain (c : Char)
  | escape (c : Char)
  | unicode (u : CodeUnit)
  /-- A surrogate pair. -/
  | pair (hi lo : CodeUnit)
  deriving DecidableEq

namespace Piece

def text : Piece → List Char
  | plain c => [c]
  | escape c => ['\\', c]
  | unicode u => '\\' :: u.text
  | pair hi lo => '\\' :: (hi.text ++ '\\' :: lo.text)

/-- The character it stands for. -/
def char : Piece → Char
  | plain c => c
  | escape 'b' => '\x08'
  | escape 'f' => '\x0c'
  | escape 'n' => '\n'
  | escape 'r' => '\r'
  | escape 't' => '\t'
  | escape c => c
  | unicode u => Char.ofNat u.value
  | pair hi lo => Char.ofNat (0x10000 + (hi.value - 0xD800) * 0x400 + (lo.value - 0xDC00))

def Valid : Piece → Prop
  | plain c => 0x20 ≤ c.toNat ∧ c ≠ '"' ∧ c ≠ '\\'
  | escape c => c ∈ ['"', '\\', '/', 'b', 'f', 'n', 'r', 't']
  | unicode u => u.Valid ∧ ¬ (0xD800 ≤ u.value ∧ u.value ≤ 0xDFFF)
  | pair hi lo => hi.Valid ∧ lo.Valid ∧ (0xD800 ≤ hi.value ∧ hi.value ≤ 0xDBFF) ∧
      0xDC00 ≤ lo.value ∧ lo.value ≤ 0xDFFF

end Piece

/-- A string as it is written. -/
abbrev Written := List Piece

namespace Written

/-- What stands between the quotes. -/
def text (w : Written) : List Char := w.flatMap Piece.text

/-- What it says. -/
def content (w : Written) : List Char := w.map Piece.char

def Valid (w : Written) : Prop := ∀ p ∈ w, p.Valid

def quoted (w : Written) : List Char := '"' :: (w.text ++ ['"'])

theorem chars_text {w : Written} (valid : w.Valid) : Chars w.text := by
  induction w with
  | nil => exact .nil
  | cons p w ih =>
    obtain ⟨here, rest⟩ := List.forall_mem_cons.mp valid
    have later := ih rest
    cases p with
    | plain c => exact .plain here.1 here.2.1 here.2.2 later
    | escape c => exact .escape here later
    | unicode u => exact .unicode here.1.h₁ here.1.h₂ here.1.h₃ here.1.h₄ later
    | pair hi lo =>
      exact .unicode here.1.h₁ here.1.h₂ here.1.h₃ here.1.h₄
        (.unicode here.2.1.h₁ here.2.1.h₂ here.2.1.h₃ here.2.1.h₄ later)

end Written

/-- A quote stands behind a backslash only. -/
def Guarded (s : List Char) : Prop := ∀ x y, s = x ++ '"' :: y → x.getLast? = some '\\'

theorem Guarded.cons {c : Char} {s : List Char} (other : c ≠ '"') (h : Guarded s) :
    Guarded (c :: s) := by
  intro x y split_
  cases x with
  | nil => exact absurd (List.cons.inj split_).1 other
  | cons d x =>
    have last := h x y (List.cons.inj split_).2
    rw [List.getLast?_cons, last]
    rfl

theorem Guarded.escape {s : List Char} (c : Char) (h : Guarded s) : Guarded ('\\' :: c :: s) := by
  intro x y split_
  match x with
  | [] => cases (List.cons.inj split_).1
  | [d] =>
    obtain ⟨rfl, -⟩ := List.cons.inj split_
    rfl
  | d :: e :: x =>
    have last := h x y (List.cons.inj (List.cons.inj split_).2).2
    rw [List.getLast?_cons, List.getLast?_cons, last]
    rfl

theorem Chars.guarded {s : List Char} (h : Chars s) : Guarded s := by
  induction h with
  | nil =>
    intro x y split_
    simp at split_
  | plain _ quote _ _ ih => exact ih.cons quote
  | escape _ _ ih => exact ih.escape _
  | unicode h₁ h₂ h₃ h₄ _ ih =>
    have quote : ∀ {x : Char}, isHex x = true → x ≠ '"' := fun hx => (high_of_isHex hx).2.1
    exact ((((ih.cons (quote h₄)).cons (quote h₃)).cons (quote h₂)).cons (quote h₁)).escape _

/-- Where nothing is escaped, a string is written as what it says. -/
theorem Written.content_of_plain {w : Written} (plain : '\\' ∉ w.text) : w.content = w.text := by
  induction w with
  | nil => rfl
  | cons p w ih =>
    have rest : '\\' ∉ Written.text w := fun mem => plain (List.mem_append_right _ mem)
    have here : '\\' ∉ p.text := fun mem => plain (List.mem_append_left _ mem)
    cases p with
    | plain c => exact congrArg (c :: ·) (ih rest)
    | escape c => exact absurd List.mem_cons_self here
    | unicode u => exact absurd List.mem_cons_self here
    | pair hi lo => exact absurd List.mem_cons_self here

/-! ## Objects -/

/-- A member as it is written. Its value is a string or null. -/
structure FlatMember where
  before : List Char
  key : Written
  behindKey : List Char
  beforeValue : List Char
  value : Option Written
  behind : List Char

namespace FlatMember

def valueText (value : Option Written) : List Char := value.elim "null".toList Written.quoted

def text (m : FlatMember) : List Char :=
  m.before ++ (m.key.quoted ++ (m.behindKey ++ ':' ::
    (m.beforeValue ++ (valueText m.value ++ m.behind))))

structure Valid (m : FlatMember) : Prop where
  before : Spaces m.before
  key : m.key.Valid
  behindKey : Spaces m.behindKey
  beforeValue : Spaces m.beforeValue
  value : ∀ w, m.value = some w → w.Valid
  behind : Spaces m.behind

end FlatMember

/-- An object as it is written. The blank is what stands between the braces of an empty one. -/
structure FlatObject where
  before : List Char
  members : List FlatMember
  blank : List Char
  after : List Char

namespace FlatObject

/-- Members behind another one. -/
def moreText (ms : List FlatMember) : List Char := ms.flatMap fun m => ',' :: m.text

def inside (o : FlatObject) : List Char :=
  match o.members with
  | [] => o.blank
  | m :: ms => m.text ++ moreText ms

def text (o : FlatObject) : List Char := o.before ++ ('{' :: (o.inside ++ ['}']) ++ o.after)

/-- The keys are distinct by what they say. -/
structure Valid (o : FlatObject) : Prop where
  before : Spaces o.before
  members : ∀ m ∈ o.members, m.Valid
  distinct : (o.members.map fun m => m.key.content).Nodup
  blank : Spaces o.blank
  after : Spaces o.after

/-- The string under a key, if there is one. -/
def valueOf (o : FlatObject) (k : List Char) : Option Written :=
  (o.members.find? fun m => m.key.content = k).bind FlatMember.value

/-- Under its key a member's value is found. -/
theorem valueOf_of_mem {o : FlatObject} (valid : o.Valid) {m : FlatMember}
    (mem : m ∈ o.members) : o.valueOf m.key.content = m.value := by
  have distinct := valid.distinct
  rw [valueOf]
  generalize o.members = ms at mem distinct
  induction ms with
  | nil => cases mem
  | cons n ms ih =>
    rw [List.map_cons, List.nodup_cons] at distinct
    by_cases here : n.key.content = m.key.content
    · have same : m = n := by
        rcases List.mem_cons.mp mem with same | later
        · exact same
        · exact absurd (List.mem_map.mpr ⟨m, later, here.symm⟩) distinct.1
      rw [same, List.find?_cons_of_pos (by simp)]
      rfl
    · have later : m ∈ ms := (List.mem_cons.mp mem).resolve_left fun same => here (by rw [same])
      rw [List.find?_cons_of_neg (by simpa using here)]
      exact ih later distinct.2

end FlatObject

/-! ## Where a name is written -/

/-- A name that no string escapes, between quotes. -/
def quotedName (k : List Char) : List Char := '"' :: k ++ ['"']

/-- The string, with its opening quote, ends in the name behind a quote. -/
def Ends (k : List Char) (w : Written) : Prop := '"' :: k <:+ '"' :: w.text

instance (k : List Char) (w : Written) : Decidable (Ends k w) :=
  inferInstanceAs (Decidable ('"' :: k <:+ '"' :: w.text))

/-- What a name is made of. -/
structure IsName (k : List Char) : Prop where
  some_ : k ≠ []
  letters : ∀ c ∈ k, c.isAlpha = true ∨ c = '_'

section Names

open Text

variable {k : List Char} (name : IsName k)

include name

theorem IsName.notMem {c : Char} (other : (c.isAlpha || c == '_') = false) : c ∉ k := by
  intro mem
  obtain ⟨alpha, score⟩ := Bool.or_eq_false_iff.mp other
  rcases name.letters c mem with letter | rfl
  · exact Bool.noConfusion (letter.symm.trans alpha)
  · cases score

/-- The quoted name is no prefix where a string holds another text in front of its closing quote:
a quote inside it would need a backslash in the name. -/
theorem not_isPrefixOf_closed {c : Char} {b rest : List Char}
    (guarded : ∀ x y, c :: b = x ++ '"' :: y → x = [] ∨ x.getLast? = some '\\')
    (other : ¬ (c = '"' ∧ b = k)) :
    ¬ (quotedName k).isPrefixOf (c :: (b ++ '"' :: rest)) = true := by
  rw [List.isPrefixOf_iff_prefix, show quotedName k = '"' :: (k ++ ['"']) from rfl,
    List.cons_prefix_cons]
  rintro ⟨rfl, r, split_⟩
  rw [List.append_assoc, List.singleton_append] at split_
  rcases List.append_eq_append_iff.mp split_ with ⟨x, rfl, tail⟩ | ⟨x, rfl, tail⟩
  · cases x with
    | nil => exact other ⟨rfl, List.append_nil _⟩
    | cons d x =>
      obtain ⟨rfl, -⟩ := List.cons.inj tail
      rcases guarded ('"' :: k) x rfl with empty | last
      · cases empty
      · rcases List.mem_cons.mp (List.mem_of_getLast? last) with same | mem
        · cases same
        · exact name.notMem rfl mem
  · cases x with
    | nil => exact other ⟨rfl, (List.append_nil _).symm⟩
    | cons d x =>
      obtain ⟨rfl, -⟩ := List.cons.inj tail
      have quote : '"' ∉ b ++ '"' :: x := name.notMem rfl
      exact quote (by simp)

/-- Up to the quote that closes a string, its name is written at the end or nowhere. -/
theorem afterFirst_closed {b rest : List Char}
    (guarded : ∀ x y, b = x ++ '"' :: y → x = [] ∨ x.getLast? = some '\\')
    (next : ∀ c ∈ rest.head?, c ∉ k) :
    afterFirst (quotedName k) (b ++ '"' :: rest) =
      if '"' :: k <:+ b then some rest else afterFirst (quotedName k) rest := by
  induction b with
  | nil =>
    have missed : ¬ (quotedName k).isPrefixOf ('"' :: rest) = true := by
      rw [List.isPrefixOf_iff_prefix, show quotedName k = '"' :: (k ++ ['"']) from rfl,
        List.cons_prefix_cons]
      rintro ⟨-, r, split_⟩
      obtain ⟨c, k, rfl⟩ := List.exists_cons_of_ne_nil name.some_
      rw [← split_] at next
      exact next c rfl (by simp)
    rw [List.nil_append, afterFirst, if_neg missed, if_neg (by simp)]
  | cons c b ih =>
    have guarded' : ∀ x y, b = x ++ '"' :: y → x = [] ∨ x.getLast? = some '\\' := by
      intro x y split_
      rcases guarded (c :: x) y (by rw [split_]; rfl) with empty | last
      · cases empty
      · cases x with
        | nil => exact .inl rfl
        | cons d x => exact .inr (by simpa [List.getLast?_cons] using last)
    by_cases here : c = '"' ∧ b = k
    · obtain ⟨rfl, rfl⟩ := here
      have found : (quotedName b).isPrefixOf ('"' :: (b ++ '"' :: rest)) = true := by
        rw [List.isPrefixOf_iff_prefix]
        exact ⟨rest, by simp [quotedName]⟩
      rw [List.cons_append, afterFirst, if_pos found, if_pos (List.suffix_refl _)]
      simp [quotedName]
    · have ends : '"' :: k <:+ c :: b ↔ '"' :: k <:+ b := by
        rw [List.suffix_cons_iff]
        refine or_iff_right fun whole => ?_
        obtain ⟨rfl, rfl⟩ := List.cons.inj whole
        exact here ⟨rfl, rfl⟩
      rw [List.cons_append, afterFirst, if_neg (not_isPrefixOf_closed name guarded here),
        ih guarded']
      simp only [ends]

/-- A string holds the quoted name where it ends in it. -/
theorem afterFirst_written {w : Written} (valid : w.Valid) {rest : List Char}
    (next : ∀ c ∈ rest.head?, c ∉ k) :
    afterFirst (quotedName k) (w.quoted ++ rest) =
      if Ends k w then some rest else afterFirst (quotedName k) rest := by
  have guarded : ∀ x y, '"' :: w.text = x ++ '"' :: y → x = [] ∨ x.getLast? = some '\\' := by
    intro x y split_
    cases x with
    | nil => exact .inl rfl
    | cons c x =>
      have last := (Written.chars_text valid).guarded x y (List.cons.inj split_).2
      exact .inr (by rw [List.getLast?_cons, last]; rfl)
  have text : w.quoted ++ rest = '"' :: w.text ++ '"' :: rest := by simp [Written.quoted]
  rw [text, afterFirst_closed name guarded next]
  rfl

theorem IsName.head_append {w t : List Char} (spaces : Spaces w)
    (next : ∀ c ∈ t.head?, c ∉ k) : ∀ c ∈ (w ++ t).head?, c ∉ k := by
  cases w with
  | nil => exact next
  | cons d w =>
    intro c first
    obtain rfl : d = c := Option.some.inj first
    have space := spaces d (by simp)
    simp only [isSpace, Bool.or_eq_true, decide_eq_true_eq] at space
    rcases space with ((rfl | rfl) | rfl) | rfl <;> exact name.notMem rfl

omit name in
theorem afterFirst_quotedName {w : List Char} (none_ : '"' ∉ w) (y : List Char) :
    afterFirst (quotedName k) (w ++ y) = afterFirst (quotedName k) y :=
  afterFirst_skip none_ (k ++ ['"']) y

/-- In a member the quoted name is looked for in its key, then in its value. -/
theorem afterFirst_member {m : FlatMember} (valid : m.Valid) {t : List Char}
    (next : ∀ c ∈ t.head?, c ∉ k) :
    afterFirst (quotedName k) (m.text ++ t) =
      if Ends k m.key then some (m.behindKey ++ ':' ::
        (m.beforeValue ++ (FlatMember.valueText m.value ++ (m.behind ++ t))))
      else if m.value.any (Ends k ·) then some (m.behind ++ t)
      else afterFirst (quotedName k) t := by
  have behind := name.head_append valid.behind next
  have colon : ∀ c ∈ (m.behindKey ++ ':' :: (m.beforeValue ++ (FlatMember.valueText m.value ++
      (m.behind ++ t)))).head?, c ∉ k := by
    refine name.head_append valid.behindKey fun c first => ?_
    obtain rfl : ':' = c := Option.some.inj first
    exact name.notMem rfl
  have shape : m.text ++ t = m.before ++ (m.key.quoted ++ (m.behindKey ++ ':' ::
      (m.beforeValue ++ (FlatMember.valueText m.value ++ (m.behind ++ t))))) := by
    simp [FlatMember.text]
  have value : afterFirst (quotedName k) (m.behindKey ++ ':' :: (m.beforeValue ++
      (FlatMember.valueText m.value ++ (m.behind ++ t)))) =
        if m.value.any (Ends k ·) then some (m.behind ++ t)
        else afterFirst (quotedName k) t := by
    have front : '"' ∉ m.behindKey ++ ':' :: m.beforeValue := by
      simp only [List.mem_append, List.mem_cons, not_or]
      exact ⟨notMem_spaces rfl valid.behindKey, by decide, notMem_spaces rfl valid.beforeValue⟩
    have moved := afterFirst_quotedName (k := k) front
      (FlatMember.valueText m.value ++ (m.behind ++ t))
    rw [List.append_assoc, List.cons_append] at moved
    rw [moved]
    cases written : m.value with
    | none =>
      have null : '"' ∉ "null".toList := by decide
      show afterFirst (quotedName k) ("null".toList ++ _) = _
      rw [afterFirst_quotedName null, afterFirst_quotedName (notMem_spaces rfl valid.behind)]
      rfl
    | some w =>
      show afterFirst (quotedName k) (w.quoted ++ _) = _
      rw [afterFirst_written name (valid.value w written) behind,
        afterFirst_quotedName (notMem_spaces rfl valid.behind)]
      simp only [Option.any_some, decide_eq_true_eq]
  rw [shape, afterFirst_quotedName (notMem_spaces rfl valid.before),
    afterFirst_written name valid.key colon, value]

theorem IsName.head_moreText {t : List Char} (next : ∀ c ∈ t.head?, c ∉ k)
    (ms : List FlatMember) : ∀ c ∈ (FlatObject.moreText ms ++ t).head?, c ∉ k := by
  cases ms with
  | nil => exact next
  | cons m ms =>
    intro c first
    obtain rfl : ',' = c := Option.some.inj first
    exact name.notMem rfl

/-- In members it is looked for in the first one, then in the others. -/
theorem afterFirst_moreText {m : FlatMember} (valid : m.Valid) (ms : List FlatMember)
    {t : List Char} (next : ∀ c ∈ t.head?, c ∉ k) :
    afterFirst (quotedName k) (FlatObject.moreText (m :: ms) ++ t) =
      if Ends k m.key then some (m.behindKey ++ ':' :: (m.beforeValue ++
        (FlatMember.valueText m.value ++ (m.behind ++ (FlatObject.moreText ms ++ t)))))
      else if m.value.any (Ends k ·) then some (m.behind ++ (FlatObject.moreText ms ++ t))
      else afterFirst (quotedName k) (FlatObject.moreText ms ++ t) := by
  have comma : '"' ∉ [','] := by decide
  have shape : FlatObject.moreText (m :: ms) ++ t =
      [','] ++ (m.text ++ (FlatObject.moreText ms ++ t)) := by
    simp [FlatObject.moreText]
  rw [shape, afterFirst_quotedName comma]
  exact afterFirst_member name valid (name.head_moreText next ms)

omit name in
/-- In an object it is looked for in the members. -/
theorem afterFirst_text {o : FlatObject} (valid : o.Valid) :
    afterFirst (quotedName k) o.text =
      afterFirst (quotedName k) (FlatObject.moreText o.members ++ '}' :: o.after) := by
  cases members : o.members with
  | nil =>
    have shape : o.text = o.before ++ '{' :: o.blank ++ ('}' :: o.after) := by
      simp [FlatObject.text, FlatObject.inside, members]
    have none_ : '"' ∉ o.before ++ '{' :: o.blank := by
      simp only [List.mem_append, List.mem_cons, not_or]
      exact ⟨notMem_spaces rfl valid.before, by decide, notMem_spaces rfl valid.blank⟩
    rw [shape, afterFirst_quotedName none_]
    rfl
  | cons m ms =>
    have shape : o.text = (o.before ++ ['{']) ++
        (m.text ++ (FlatObject.moreText ms ++ '}' :: o.after)) := by
      simp [FlatObject.text, FlatObject.inside, members]
    have none_ : '"' ∉ o.before ++ ['{'] := by
      simp only [List.mem_append, List.mem_singleton, not_or]
      exact ⟨notMem_spaces rfl valid.before, by decide⟩
    have comma : '"' ∉ [','] := by decide
    have shape' : FlatObject.moreText (m :: ms) ++ '}' :: o.after =
        [','] ++ (m.text ++ (FlatObject.moreText ms ++ '}' :: o.after)) := by
      simp [FlatObject.moreText]
    rw [shape, afterFirst_quotedName none_, shape', afterFirst_quotedName comma]

end Names

end JsonText
