import Tailfin.Ident.SessionIndex
import Tailfin.Library.FlatJson

/-!
# Codex's turn metadata

`scrape_json_string` on flat JSON objects. It looks for the first place where a name is written
between quotes, takes the first colon behind it, and drops the backslashes of the string behind
that. This is the value under the name if the place is the key of its member, or a value right
before it, and if the string has no other escapes than of quotes, backslashes and slashes.
-/

namespace Tailfin

open Text JsonText

/-! ## What is asked of the metadata -/

/-- The identity that the decoded object declares. -/
def identityOf (o : FlatObject) : Option IdentitySource := do
  let string (k : String) := (o.valueOf k.toList).map fun w => String.ofList w.content
  let root ← (string "root_turn_id").or (string "session_id")
  return .declared root (string "turn_id") (string "parent_turn_id")

/-- The names whose values the identity is made of. The session is no matter where there is a root,
and the turns are no matter where there is neither. -/
def asked (o : FlatObject) : List String :=
  if (o.valueOf "root_turn_id".toList).isSome then ["root_turn_id", "turn_id", "parent_turn_id"]
  else if (o.valueOf "session_id".toList).isSome then
    ["root_turn_id", "session_id", "turn_id", "parent_turn_id"]
  else ["root_turn_id", "session_id"]

/-- A piece without its backslashes. -/
def dropped : Piece → List Char
  | .plain c => [c]
  | .escape c => [c]
  | .unicode u => u.text
  | .pair hi lo => hi.text ++ lo.text

/-- The value is read with its backslashes dropped. -/
def readText (w : Written) : List Char := w.flatMap dropped

/-- Without its backslash it is the character it stands for. -/
def Droppable : Piece → Prop
  | .plain _ => True
  | .escape c => c ∈ ['"', '\\', '/']
  | _ => False

/-- What is read of a member whose key stands behind a value: the string under the name, or none
where there is none. Nothing is said of a key with a colon in it. -/
def ReadsNext (k : List Char) (value : Option Written) : Option FlatMember → Prop
  | none => value = none
  | some m => m.key.text = k ∨ ':' ∉ m.key.text ∧ m.value = none ∧ value = none

instance (k : List Char) (value : Option Written) : ∀ m, Decidable (ReadsNext k value m)
  | none => inferInstanceAs (Decidable (value = none))
  | some m => inferInstanceAs
      (Decidable (m.key.text = k ∨ ':' ∉ m.key.text ∧ m.value = none ∧ value = none))

/-- The first string that ends in the quoted name is the key of the member under it, or a value
right before it. Or else what is read instead is no string, and neither is what is asked for. -/
def Placed (k : List Char) (value : Option Written) : List FlatMember → Prop
  | [] => value = none
  | m :: ms =>
    if Ends k m.key then m.key.text = k ∨ m.value = none ∧ value = none
    else if m.value.any (Ends k ·) then ReadsNext k value ms.head?
    else Placed k value ms

instance decidablePlaced (k : List Char) (value : Option Written) :
    ∀ ms, Decidable (Placed k value ms)
  | [] => inferInstanceAs (Decidable (value = none))
  | m :: ms =>
    have := decidablePlaced k value ms
    inferInstanceAs (Decidable (if Ends k m.key then m.key.text = k ∨ m.value = none ∧ value = none
      else if m.value.any (Ends k ·) then ReadsNext k value ms.head? else Placed k value ms))

/-! ## Reading a string -/

/-- The string that starts behind white space. -/
def literal (t : List Char) : Option (List Char) :=
  match trimStart t with
  | '"' :: chars => readString chars false []
  | _ => none

theorem scrapeJsonString_eq (hay : List Char) (key : String) : scrapeJsonString hay key =
    (afterFirst (quotedName key.toList) hay).bind fun rest =>
      (afterFirst [':'] rest).bind literal := rfl

theorem readString_escape (c : Char) (rest out : List Char) :
    readString ('\\' :: c :: rest) false out = readString rest false (out ++ [c]) := by
  simp [readString]

theorem readString_plain {s : List Char} (plain : ∀ c ∈ s, c ≠ '"' ∧ c ≠ '\\')
    (rest out : List Char) :
    readString (s ++ rest) false out = readString rest false (out ++ s) := by
  induction s generalizing out with
  | nil => rw [List.nil_append, List.append_nil]
  | cons c s ih =>
    obtain ⟨quote, slash⟩ := plain c (by simp)
    rw [List.cons_append, readString, if_neg Bool.false_ne_true, if_neg slash, if_neg quote,
      ih fun d hd => plain d (List.mem_cons_of_mem _ hd), List.append_assoc]
    rfl

theorem readString_codeUnit {u : CodeUnit} (valid : u.Valid) (rest out : List Char) :
    readString ('\\' :: (u.text ++ rest)) false out = readString rest false (out ++ u.text) := by
  have hex : ∀ c ∈ [u.h₁, u.h₂, u.h₃, u.h₄], c ≠ '"' ∧ c ≠ '\\' := by
    simp only [List.forall_mem_cons]
    exact ⟨(high_of_isHex valid.h₁).2, (high_of_isHex valid.h₂).2, (high_of_isHex valid.h₃).2,
      (high_of_isHex valid.h₄).2, List.forall_mem_nil _⟩
  have shape : u.text ++ rest = 'u' :: ([u.h₁, u.h₂, u.h₃, u.h₄] ++ rest) := rfl
  rw [shape, readString_escape, readString_plain hex, List.append_assoc]
  rfl

/-- The string is read up to its closing quote. -/
theorem readString_text {w : Written} (valid : w.Valid) (rest out : List Char) :
    readString (w.text ++ '"' :: rest) false out = some (out ++ readText w) := by
  induction w generalizing out with
  | nil =>
    show readString ('"' :: rest) false out = some (out ++ [])
    simp [readString]
  | cons p w ih =>
    obtain ⟨here, later⟩ := List.forall_mem_cons.mp valid
    have step : readString (Written.text (p :: w) ++ '"' :: rest) false out =
        readString (Written.text w ++ '"' :: rest) false (out ++ dropped p) := by
      rw [Written.text, List.flatMap_cons, List.append_assoc]
      cases p with
      | plain c =>
        have plain : ∀ d ∈ [c], d ≠ '"' ∧ d ≠ '\\' := List.forall_mem_singleton.mpr here.2
        exact readString_plain plain _ out
      | escape c => exact readString_escape c _ out
      | unicode u => exact readString_codeUnit here.1 _ out
      | pair hi lo =>
        show readString ('\\' :: (hi.text ++ '\\' :: lo.text) ++ _) false out = _
        rw [List.cons_append, List.append_assoc, readString_codeUnit here.1, List.cons_append,
          readString_codeUnit here.2.1, List.append_assoc]
        rfl
    rw [step, ih later, List.append_assoc]
    rfl

theorem dropped_eq_iff {p : Piece} (valid : p.Valid) : dropped p = [p.char] ↔ Droppable p := by
  cases p with
  | plain c => exact iff_of_true rfl trivial
  | escape c =>
    have valid : c ∈ ['"', '\\', '/', 'b', 'f', 'n', 'r', 't'] := valid
    simp only [List.mem_cons, List.not_mem_nil, or_false] at valid
    rcases valid with rfl | rfl | rfl | rfl | rfl | rfl | rfl | rfl <;>
      simp [dropped, Piece.char, Droppable]
  | unicode u =>
    refine iff_of_false (fun same => ?_) id
    have lengths := congrArg List.length same
    simp [dropped, CodeUnit.text] at lengths
  | pair hi lo =>
    refine iff_of_false (fun same => ?_) id
    have lengths := congrArg List.length same
    simp [dropped, CodeUnit.text] at lengths

theorem exists_dropped (p : Piece) : ∃ c cs, dropped p = c :: cs := by
  cases p with
  | plain | escape | unicode | pair => exact ⟨_, _, rfl⟩

theorem length_le_readText (w : Written) : w.length ≤ (readText w).length := by
  induction w with
  | nil => exact le_rfl
  | cons p w ih =>
    obtain ⟨c, cs, first⟩ := exists_dropped p
    have shape : readText (p :: w) = dropped p ++ readText w := rfl
    rw [shape, first, List.cons_append, List.length_cons, List.length_cons, List.length_append]
    omega

/-- A string is read as what it says if only its backslashes have to be dropped. -/
theorem readText_eq_iff {w : Written} (valid : w.Valid) :
    readText w = w.content ↔ ∀ p ∈ w, Droppable p := by
  induction w with
  | nil => exact iff_of_true rfl (List.forall_mem_nil _)
  | cons p w ih =>
    obtain ⟨here, later⟩ := List.forall_mem_cons.mp valid
    have read : readText (p :: w) = dropped p ++ readText w := rfl
    have meant : Written.content (p :: w) = p.char :: Written.content w := rfl
    rw [read, meant, List.forall_mem_cons, ← dropped_eq_iff here, ← ih later]
    obtain ⟨c, cs, first⟩ := exists_dropped p
    rw [first, List.cons_append, List.cons_eq_cons, List.cons_eq_cons]
    constructor
    · rintro ⟨rfl, rest⟩
      have nothing : cs = [] := by
        have lengths := congrArg List.length rest
        have short := length_le_readText w
        rw [List.length_append, Written.content, List.length_map] at lengths
        exact List.length_eq_zero_iff.mp (by omega)
      subst nothing
      exact ⟨⟨rfl, rfl⟩, rest⟩
    · rintro ⟨⟨rfl, rfl⟩, rest⟩
      exact ⟨rfl, rest⟩

/-- A string is read, and null is not. -/
theorem literal_valueText {space : List Char} (spaces : Spaces space) {value : Option Written}
    (valid : ∀ w, value = some w → w.Valid) (rest : List Char) :
    literal (space ++ (FlatMember.valueText value ++ rest)) = value.map readText := by
  have start : trimStart (space ++ (FlatMember.valueText value ++ rest)) =
      FlatMember.valueText value ++ rest := by
    rw [trimStart, List.dropWhile_append_of_pos (isWhitespace_of_spaces spaces)]
    cases value with
    | none => exact List.dropWhile_cons_of_neg (by decide)
    | some w => exact List.dropWhile_cons_of_neg (by decide)
  rw [literal, start]
  cases value with
  | none => rfl
  | some w =>
    show readString ((w.text ++ ['"']) ++ rest) false [] = _
    rw [List.append_assoc]
    exact readString_text (valid w rfl) rest []

/-! ## Looking for a name -/

/-- Behind the first colon the value of a member is read. -/
theorem read_value {m : FlatMember} (valid : m.Valid) {front : List Char} (none_ : ':' ∉ front)
    (rest : List Char) : (afterFirst [':'] (front ++ ':' ::
      (m.beforeValue ++ (FlatMember.valueText m.value ++ rest)))).bind literal =
        m.value.map readText := by
  rw [afterFirst_char none_, Option.bind_some,
    literal_valueText valid.beforeValue valid.value rest]

section Names

variable {k : List Char} (name : IsName k)

include name

/-- Behind a value the next member is read, if there is one. -/
theorem read_next {value : Option Written} {ms : List FlatMember} (valid : ∀ m ∈ ms, m.Valid)
    (next : ReadsNext k value ms.head?) (under : ∀ m ∈ ms, m.key.text = k → m.value = value)
    {behind t : List Char} (spaces : Spaces behind) (colon : ':' ∉ t) :
    (afterFirst [':'] (behind ++ (FlatObject.moreText ms ++ t))).bind literal =
      value.map readText := by
  cases ms with
  | nil =>
    obtain rfl : value = none := next
    have rest : ':' ∉ behind ++ t := by
      rw [List.mem_append, not_or]
      exact ⟨notMem_spaces rfl spaces, colon⟩
    rw [FlatObject.moreText, List.flatMap_nil, List.nil_append, afterFirst_of_notMem rest]
    rfl
  | cons m ms =>
    have valid := valid m (by simp)
    have key : ':' ∉ m.key.text ∧ m.value.map readText = value.map readText := by
      rcases next with own | ⟨none_, null, nothing⟩
      · rw [own, under m (by simp) own]
        exact ⟨name.notMem rfl, rfl⟩
      · rw [null, nothing]
        exact ⟨none_, rfl⟩
    have front : ':' ∉ behind ++ (',' :: (m.before ++ (m.key.quoted ++ m.behindKey))) := by
      simp only [Written.quoted, List.mem_append, List.mem_cons, List.not_mem_nil, or_false,
        not_or]
      exact ⟨notMem_spaces rfl spaces, by decide, notMem_spaces rfl valid.before,
        ⟨by decide, key.1, by decide⟩, notMem_spaces rfl valid.behindKey⟩
    have shape : behind ++ (FlatObject.moreText (m :: ms) ++ t) =
        behind ++ (',' :: (m.before ++ (m.key.quoted ++ m.behindKey))) ++ ':' ::
          (m.beforeValue ++ (FlatMember.valueText m.value ++
            (m.behind ++ (FlatObject.moreText ms ++ t)))) := by
      simp [FlatObject.moreText, FlatMember.text]
    rw [shape, read_value valid front, key.2]

/-- What is read of the members under a name. -/
theorem read_members {value : Option Written} {ms : List FlatMember}
    (valid : ∀ m ∈ ms, m.Valid) (placed : Placed k value ms)
    (under : ∀ m ∈ ms, m.key.text = k → m.value = value) {t : List Char} (quote : '"' ∉ t)
    (colon : ':' ∉ t) (next : ∀ c ∈ t.head?, c ∉ k) :
    ((afterFirst (quotedName k) (FlatObject.moreText ms ++ t)).bind fun rest =>
      (afterFirst [':'] rest).bind literal) = value.map readText := by
  induction ms with
  | nil =>
    obtain rfl : value = none := placed
    rw [FlatObject.moreText, List.flatMap_nil, List.nil_append, quotedName, List.cons_append,
      afterFirst_of_notMem quote]
    rfl
  | cons m ms ih =>
    obtain ⟨here, later⟩ := List.forall_mem_cons.mp valid
    obtain ⟨under, underLater⟩ := List.forall_mem_cons.mp under
    rw [afterFirst_moreText name here ms next]
    rw [Placed] at placed
    by_cases inKey : Ends k m.key
    · rw [if_pos inKey] at placed ⊢
      rw [Option.bind_some, read_value here (notMem_spaces rfl here.behindKey)]
      rcases placed with own | ⟨null, nothing⟩
      · rw [under own]
      · rw [null, nothing]
    rw [if_neg inKey] at placed ⊢
    by_cases inValue : m.value.any (Ends k ·) = true
    · rw [if_pos inValue] at placed ⊢
      exact read_next name later placed underLater here.behind colon
    · rw [if_neg inValue] at placed ⊢
      exact ih later placed underLater

end Names

/-- A name that is well placed is read as the string under it. -/
theorem scrapeJsonString_placed {o : FlatObject} (valid : o.Valid) {k : String}
    (name : IsName k.toList) (placed : Placed k.toList (o.valueOf k.toList) o.members) :
    scrapeJsonString o.text k = (o.valueOf k.toList).map readText := by
  have under : ∀ m ∈ o.members, m.key.text = k.toList → m.value = o.valueOf k.toList := by
    intro m mem own
    have slash : '\\' ∉ m.key.text := by
      rw [own]
      exact name.notMem rfl
    rw [← own, ← Written.content_of_plain slash, FlatObject.valueOf_of_mem valid mem]
  have quote : '"' ∉ '}' :: o.after := by
    rw [List.mem_cons, not_or]
    exact ⟨by decide, notMem_spaces rfl valid.after⟩
  have colon : ':' ∉ '}' :: o.after := by
    rw [List.mem_cons, not_or]
    exact ⟨by decide, notMem_spaces rfl valid.after⟩
  have next : ∀ c ∈ ('}' :: o.after).head?, c ∉ k.toList := by
    intro c first
    obtain rfl : '}' = c := Option.some.inj first
    exact name.notMem rfl
  rw [scrapeJsonString_eq, afterFirst_text valid]
  exact read_members name valid.members placed under quote colon next

/-! ## The identity -/

/-- Every name is well placed. -/
def AllPlaced (o : FlatObject) : Prop :=
  ∀ k ∈ asked o, Placed k.toList (o.valueOf k.toList) o.members

theorem isName_of_asked {o : FlatObject} {k : String} (mem : k ∈ asked o) : IsName k.toList := by
  have names : k ∈ ["root_turn_id", "session_id", "turn_id", "parent_turn_id"] := by
    unfold asked at mem
    split at mem
    · simp only [List.mem_cons, List.not_mem_nil, or_false] at mem ⊢
      tauto
    split at mem
    · exact mem
    · simp only [List.mem_cons, List.not_mem_nil, or_false] at mem ⊢
      tauto
  have letters : ∀ {t : List Char}, t.all (fun c => c.isAlpha || c == '_') = true →
      ∀ c ∈ t, c.isAlpha = true ∨ c = '_' := fun h => by simpa using h
  simp only [List.mem_cons, List.not_mem_nil, or_false] at names
  rcases names with rfl | rfl | rfl | rfl <;> exact ⟨by decide, letters (by decide)⟩

theorem valid_of_valueOf {o : FlatObject} (valid : o.Valid) {k : List Char} {w : Written}
    (h : o.valueOf k = some w) : w.Valid := by
  obtain ⟨m, found, value⟩ := Option.bind_eq_some_iff.mp h
  exact (valid.members m (List.mem_of_find?_eq_some found)).value w value

/-- A value is read as what it says, or there is none. -/
theorem read_eq_iff {o : FlatObject} (valid : o.Valid) (k : List Char) :
    ((o.valueOf k).map fun w => String.ofList (readText w)) =
        ((o.valueOf k).map fun w => String.ofList w.content) ↔
      ∀ w, o.valueOf k = some w → ∀ p ∈ w, Droppable p := by
  cases value : o.valueOf k with
  | none => simp
  | some w =>
    have agree := readText_eq_iff (valid_of_valueOf valid value)
    simp only [Option.map_some, Option.some_inj, String.ofList_inj, agree, forall_eq']

theorem declared_iff {x x' : String} {t t' p p' : Option String} :
    some (IdentitySource.declared x t p) = some (.declared x' t' p') ↔
      some x = some x' ∧ t = t' ∧ p = p' := by
  simp only [Option.some_inj, IdentitySource.declared.injEq]

section Identity

variable {o : FlatObject} (valid : o.Valid) (placed : AllPlaced o)

include valid placed

theorem scrape_asked {k : String} (mem : k ∈ asked o) :
    (scrapeJsonString o.text k).map String.ofList =
      (o.valueOf k.toList).map fun w => String.ofList (readText w) := by
  rw [scrapeJsonString_placed valid (isName_of_asked mem) (placed k mem), Option.map_map]
  rfl

/-- Where each name is well placed, the metadata is read as JSON if and only if the strings it is
made of have no escapes but of quotes, backslashes and slashes. -/
theorem parseCodexMetadata_iff : parseCodexMetadata (String.ofList o.text) = identityOf o ↔
    ∀ k ∈ asked o, ∀ w, o.valueOf k.toList = some w → ∀ p ∈ w, Droppable p := by
  have scraped : ∀ k ∈ asked o, (scrapeJsonString o.text k).map String.ofList =
      (o.valueOf k.toList).map fun w => String.ofList (readText w) :=
    fun k mem => scrape_asked valid placed mem
  have agree := fun k : String => read_eq_iff valid k.toList
  simp only [parseCodexMetadata, identityOf, String.toList_ofList]
  cases root : o.valueOf "root_turn_id".toList with
  | some w =>
    have names : asked o = ["root_turn_id", "turn_id", "parent_turn_id"] := by
      rw [asked, root]
      rfl
    rw [names] at scraped ⊢
    simp only [List.forall_mem_cons] at scraped ⊢
    obtain ⟨first, turn, parent, -⟩ := scraped
    rw [← agree "root_turn_id", ← agree "turn_id", ← agree "parent_turn_id", first, turn, parent,
      root]
    refine declared_iff.trans ⟨?_, ?_⟩
    · rintro ⟨session, node, above⟩
      exact ⟨session, node, above, List.forall_mem_nil _⟩
    · rintro ⟨session, node, above, -⟩
      exact ⟨session, node, above⟩
  | none =>
    cases session : o.valueOf "session_id".toList with
    | some w =>
      have names : asked o = ["root_turn_id", "session_id", "turn_id", "parent_turn_id"] := by
        rw [asked, root, session]
        rfl
      rw [names] at scraped ⊢
      simp only [List.forall_mem_cons] at scraped ⊢
      obtain ⟨first, second, turn, parent, -⟩ := scraped
      rw [← agree "root_turn_id", ← agree "session_id", ← agree "turn_id",
        ← agree "parent_turn_id", first, second, turn, parent, root, session]
      refine declared_iff.trans ⟨?_, ?_⟩
      · rintro ⟨session, node, above⟩
        exact ⟨rfl, session, node, above, List.forall_mem_nil _⟩
      · rintro ⟨-, session, node, above, -⟩
        exact ⟨session, node, above⟩
    | none =>
      have names : asked o = ["root_turn_id", "session_id"] := by
        rw [asked, root, session]
        rfl
      rw [names] at scraped ⊢
      simp only [List.forall_mem_cons] at scraped ⊢
      obtain ⟨first, second, -⟩ := scraped
      rw [first, second, root, session]
      refine iff_of_true rfl ⟨?_, ?_, List.forall_mem_nil _⟩
      · rintro w ⟨⟩
      · rintro w ⟨⟩

/-- The headers declare what the decoded object does. -/
theorem fromHeaders_eq_identityOf_iff {h : Headers} (free : h "x-claude-code-session-id" = none)
    (sent : h "x-codex-turn-metadata" = some (String.ofList o.text)) :
    fromHeaders h = identityOf o ↔
      ∀ k ∈ asked o, ∀ w, o.valueOf k.toList = some w → ∀ p ∈ w, Droppable p := by
  rw [fromHeaders, free, sent]
  exact parseCodexMetadata_iff valid placed

end Identity

section Cases

def letters (t : String) : Written := t.toList.map .plain

/-- A member without white space. -/
def flatMember (key : String) (value : Written) : FlatMember :=
  ⟨[], letters key, [], [], some value, []⟩

def flatObject (members : List FlatMember) : FlatObject := ⟨[], members, [], []⟩

/-- A request with this metadata. -/
def metadataHeaders (o : FlatObject) : Headers := fun name =>
  if name = "x-codex-turn-metadata" then some (String.ofList o.text) else none

theorem letters_valid {t : String}
    (h : t.toList.all (fun c => decide (0x20 ≤ c.toNat) && c != '"' && c != '\\') = true) :
    Written.Valid (letters t) := by
  intro p mem
  obtain ⟨c, hc, rfl⟩ := List.mem_map.mp mem
  simpa [Piece.Valid, and_assoc] using List.all_eq_true.mp h c hc

theorem flatObject_valid {members : List FlatMember} (valid : ∀ m ∈ members, m.Valid)
    (distinct : (members.map fun m => m.key.content).Nodup) : (flatObject members).Valid :=
  ⟨List.forall_mem_nil _, valid, distinct, List.forall_mem_nil _, List.forall_mem_nil _⟩

theorem flatMember_valid {key : String} {value : Written} (valid : Written.Valid (letters key))
    (valid' : value.Valid) : (flatMember key value).Valid :=
  ⟨List.forall_mem_nil _, valid, List.forall_mem_nil _, List.forall_mem_nil _,
    fun _ same => Option.some.inj same ▸ valid', List.forall_mem_nil _⟩

/-- A turn below the root of its task. -/
def turnMetadata : FlatObject := flatObject
  [flatMember "session_id" (letters "s-1"), flatMember "turn_id" (letters "t-9"),
    flatMember "root_turn_id" (letters "t-1"), flatMember "parent_turn_id" (letters "t-4")]

theorem fromHeaders_turnMetadata :
    fromHeaders (metadataHeaders turnMetadata) = identityOf turnMetadata := by
  have plain : ∀ {key value : String}, key.toList.all
      (fun c => decide (0x20 ≤ c.toNat) && c != '"' && c != '\\') = true → value.toList.all
      (fun c => decide (0x20 ≤ c.toNat) && c != '"' && c != '\\') = true →
        (flatMember key (letters value)).Valid :=
    fun h h' => flatMember_valid (letters_valid h) (letters_valid h')
  have valid : turnMetadata.Valid := by
    refine flatObject_valid ?_ (by decide)
    simp only [List.forall_mem_cons]
    exact ⟨plain (by decide) (by decide), plain (by decide) (by decide),
      plain (by decide) (by decide), plain (by decide) (by decide), List.forall_mem_nil _⟩
  have names : asked turnMetadata = ["root_turn_id", "turn_id", "parent_turn_id"] := by decide
  have placed : AllPlaced turnMetadata := by
    rw [AllPlaced, names]
    simp only [List.forall_mem_cons]
    exact ⟨by decide, by decide, by decide, List.forall_mem_nil _⟩
  refine (fromHeaders_eq_identityOf_iff valid placed rfl rfl).mpr ?_
  have droppable : ∀ {t : String} {value : Option Written}, value = some (letters t) →
      ∀ w, value = some w → ∀ p ∈ w, Droppable p := by
    rintro t value rfl w ⟨⟩ p mem
    obtain ⟨c, -, rfl⟩ := List.mem_map.mp mem
    trivial
  have root : turnMetadata.valueOf "root_turn_id".toList = some (letters "t-1") := by decide
  have node : turnMetadata.valueOf "turn_id".toList = some (letters "t-9") := by decide
  have above : turnMetadata.valueOf "parent_turn_id".toList = some (letters "t-4") := by decide
  rw [names]
  simp only [List.forall_mem_cons]
  exact ⟨droppable root, droppable node, droppable above, List.forall_mem_nil _⟩

/-- A session that spells a line break. -/
def brokenSession : FlatObject :=
  flatObject [flatMember "session_id" [.plain 'a', .escape 'n', .plain 'b']]

/-- No session, but a turn that is named like one. -/
def misnamedTurn : FlatObject :=
  flatObject [flatMember "turn_id" (letters "session_id"), flatMember "note" (letters "x")]

/-- The first has another session than the headers declare, and the second has none. -/
theorem not_fromHeaders_identityOf :
    (brokenSession.Valid ∧
      fromHeaders (metadataHeaders brokenSession) ≠ identityOf brokenSession) ∧
    (misnamedTurn.Valid ∧
      fromHeaders (metadataHeaders misnamedTurn) ≠ identityOf misnamedTurn) := by
  have session : (flatMember "session_id" [.plain 'a', .escape 'n', .plain 'b']).Valid := by
    refine flatMember_valid (letters_valid (by decide)) ?_
    simp [Written.Valid, Piece.Valid]
  have turn : (flatMember "turn_id" (letters "session_id")).Valid :=
    flatMember_valid (letters_valid (by decide)) (letters_valid (by decide))
  have note : (flatMember "note" (letters "x")).Valid :=
    flatMember_valid (letters_valid (by decide)) (letters_valid (by decide))
  refine ⟨⟨flatObject_valid ?_ (by decide), by decide +kernel⟩,
    ⟨flatObject_valid ?_ (by decide), by decide +kernel⟩⟩
  · exact List.forall_mem_singleton.mpr session
  · simp only [List.forall_mem_cons]
    exact ⟨turn, note, List.forall_mem_nil _⟩

end Cases

end Tailfin
