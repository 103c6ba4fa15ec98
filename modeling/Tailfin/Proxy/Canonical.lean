import Tailfin.Library.Utf8
import Tailfin.Wire.Json

/-!
# Canonical messages

`messages_from_body` and `canonical_message` of `tailfin-proxy`: what a prefix digest is taken of. A
message becomes its role, a separator and its content, where a text is copied as it is and anything
else is written as JSON. Whether two messages can be told apart again depends on both.
-/

namespace Tailfin

/-- `serde_json::to_vec`. -/
class JsonWriter where
  toVec : Json → Option (List UInt8)

def Json.asArray : Json → Option (List Json)
  | .array items => some items
  | _ => none

/-- `serde_json::from_slice`: a body that is not UTF-8 is no JSON. -/
def fromSlice [JsonParser] (body : List UInt8) : Option Json :=
  (Utf8.fromUtf8 body).bind JsonParser.fromStr

/-- The `messages` array of a body. -/
def messagesIn [JsonParser] (body : List UInt8) : Option (List Json) := do
  let v ← fromSlice body
  (← v.get "messages").asArray

section Canonical

variable [JsonWriter]

/-- The separator, U+001E. -/
def recordSeparator : UInt8 := 0x1e

/-- What of a message's content goes into its canonical form. -/
def contentBytes (content : Option Json) : List UInt8 :=
  match content with
  | some (.string s) => Utf8.encode s
  | some other => (JsonWriter.toVec other).getD []
  | none => []

def canonicalMessage (m : Json) : List UInt8 :=
  let role := ((m.get "role").bind Json.asStr).getD []
  Utf8.encode role ++ recordSeparator :: contentBytes (m.get "content")

/-- `none` if the body has no `messages`. -/
def messagesFromBody [JsonParser] (body : List UInt8) : Option (List (List UInt8)) := do
  let msgs ← messagesIn body
  if msgs.isEmpty then none else some (msgs.map canonicalMessage)

/-! ## Messages that meet -/

/-- A message with a role and a content. -/
structure IsMessage (m : Json) (role : List Char) (content : Json) : Prop where
  role : m.get "role" = some (.string role)
  content : m.get "content" = some content

theorem IsMessage.canonical {m : Json} {role : List Char} {content : Json}
    (h : IsMessage m role content) :
    canonicalMessage m = Utf8.encode role ++ recordSeparator :: contentBytes (some content) := by
  rw [canonicalMessage, h.role, h.content]
  rfl

/-- What is relied on of `serde_json::to_vec`: it does not fail on these values, and writes no two
of them the same. -/
structure JsonWriter.Writes (values : List Json) : Prop where
  isSome : ∀ v ∈ values, (JsonWriter.toVec v).isSome
  injective : ∀ v ∈ values, ∀ w ∈ values, JsonWriter.toVec v = JsonWriter.toVec w → v = w

def Json.isText : Json → Bool
  | .string _ => true
  | _ => false

/-- One content is a text that spells out the other, which is none. -/
def Spells (content content' : Json) : Prop :=
  ∃ s, content = .string s ∧ content'.isText = false ∧
    contentBytes (some content') = Utf8.encode s

/-- The second role is the first one, a separator and more, and the first content starts with that
more. -/
def Swallows (role role' : List Char) (content content' : Json) : Prop :=
  ∃ more, Utf8.encode role' = Utf8.encode role ++ recordSeparator :: more ∧
    contentBytes (some content) = more ++ recordSeparator :: contentBytes (some content')

/-- Two ways in which different messages meet. -/
def Meet (role role' : List Char) (content content' : Json) : Prop :=
  role = role' ∧ (Spells content content' ∨ Spells content' content) ∨
    Swallows role role' content content' ∨ Swallows role' role content' content

omit [JsonWriter] in
theorem encode_injective {s t : List Char} (h : Utf8.encode s = Utf8.encode t) : s = t := by
  have read := Utf8.fromUtf8_encode s
  rw [h, Utf8.fromUtf8_encode] at read
  exact (Option.some.inj read).symm

omit [JsonWriter] in
/-- Where two texts with a separator are the same, the one in front is longer or they agree. -/
theorem separated_eq_iff {a b c d : List UInt8} {sep : UInt8} :
    a ++ sep :: c = b ++ sep :: d ↔ a = b ∧ c = d ∨
      (∃ more, b = a ++ sep :: more ∧ c = more ++ sep :: d) ∨
      ∃ more, a = b ++ sep :: more ∧ d = more ++ sep :: c := by
  rw [List.append_eq_append_iff]
  constructor
  · rintro (⟨x, rfl, rest⟩ | ⟨x, rfl, rest⟩)
    · cases x with
      | nil => exact .inl ⟨(List.append_nil a).symm, (List.cons.inj rest).2⟩
      | cons y x =>
        obtain ⟨rfl, rfl⟩ := List.cons.inj rest
        exact .inr (.inl ⟨x, rfl, rfl⟩)
    · cases x with
      | nil => exact .inl ⟨List.append_nil b, (List.cons.inj rest).2.symm⟩
      | cons y x =>
        obtain ⟨rfl, rfl⟩ := List.cons.inj rest
        exact .inr (.inr ⟨x, rfl, rfl⟩)
  · rintro (⟨rfl, rfl⟩ | ⟨x, rfl, rfl⟩ | ⟨x, rfl, rfl⟩)
    · exact .inl ⟨[], (List.append_nil a).symm, rfl⟩
    · exact .inl ⟨sep :: x, rfl, rfl⟩
    · exact .inr ⟨sep :: x, rfl, rfl⟩

theorem contentBytes_of_not_text {v : Json} (other : v.isText = false) :
    contentBytes (some v) = (JsonWriter.toVec v).getD [] := by
  cases v with
  | string s => cases other
  | _ => rfl

/-- Contents go in as the same bytes where they are the same, or one spells out the other. -/
theorem contentBytes_eq_iff {content content' : Json} {values : List Json}
    (writes : JsonWriter.Writes values) (mem : content ∈ values) (mem' : content' ∈ values) :
    contentBytes (some content) = contentBytes (some content') ↔
      content = content' ∨ Spells content content' ∨ Spells content' content := by
  constructor
  · intro same
    cases text : content.isText with
    | true =>
      obtain ⟨s, rfl⟩ : ∃ s, content = .string s := by
        cases content with
        | string s => exact ⟨s, rfl⟩
        | _ => cases text
      cases text' : content'.isText with
      | true =>
        cases content' with
        | string t => exact .inl (congrArg Json.string (encode_injective same))
        | _ => cases text'
      | false => exact .inr (.inl ⟨s, rfl, text', same.symm⟩)
    | false =>
      cases text' : content'.isText with
      | true =>
        cases content' with
        | string t => exact .inr (.inr ⟨t, rfl, text, same⟩)
        | _ => cases text'
      | false =>
        rw [contentBytes_of_not_text text, contentBytes_of_not_text text'] at same
        obtain ⟨bytes, out⟩ := Option.isSome_iff_exists.mp (writes.isSome content mem)
        obtain ⟨bytes', out'⟩ := Option.isSome_iff_exists.mp (writes.isSome content' mem')
        rw [out, out', Option.getD_some, Option.getD_some] at same
        exact .inl (writes.injective _ mem _ mem' (by rw [out, out', same]))
  · rintro (rfl | ⟨s, rfl, -, same⟩ | ⟨s, rfl, -, same⟩)
    · rfl
    · exact same.symm
    · exact same

/-- Two messages are the same to a digest where they are the same, or meet. -/
theorem canonicalMessage_eq_iff {m m' : Json} {role role' : List Char} {content content' : Json}
    (h : IsMessage m role content) (h' : IsMessage m' role' content') {values : List Json}
    (writes : JsonWriter.Writes values) (mem : content ∈ values) (mem' : content' ∈ values) :
    canonicalMessage m = canonicalMessage m' ↔
      role = role' ∧ content = content' ∨ Meet role role' content content' := by
  rw [h.canonical, h'.canonical, separated_eq_iff, contentBytes_eq_iff writes mem mem']
  have roles : Utf8.encode role = Utf8.encode role' ↔ role = role' :=
    ⟨encode_injective, fun same => by rw [same]⟩
  rw [roles, and_or_left, or_assoc]
  rfl

theorem Swallows.role_ne {role role' : List Char} {content content' : Json}
    (h : Swallows role role' content content') : role ≠ role' := by
  obtain ⟨more, shape, -⟩ := h
  rintro rfl
  have := congrArg List.length shape
  rw [List.length_append, List.length_cons] at this
  omega

/-- Messages that meet are different. -/
theorem Meet.differs {role role' : List Char} {content content' : Json}
    (h : Meet role role' content content') : ¬ (role = role' ∧ content = content') := by
  have text : ∀ {c d : Json}, Spells c d → c ≠ d := by
    rintro c d ⟨s, rfl, other, -⟩ rfl
    cases other
  rintro ⟨sameRole, sameContent⟩
  rcases h with ⟨-, spells | spells⟩ | swallows | swallows
  · exact text spells sameContent
  · exact text spells sameContent.symm
  · exact swallows.role_ne sameRole
  · exact swallows.role_ne sameRole.symm

/-! ## Bodies -/

variable [JsonParser]

/-- A canonical message of both bodies is one of messages with the same role and content. -/
def Identifies (body body' : List UInt8) : Prop :=
  ∀ (i j : Nat) bytes, (messagesFromBody body).bind (·[i]?) = some bytes →
    (messagesFromBody body').bind (·[j]?) = some bytes →
    ∃ m m' role content, (messagesIn body).bind (·[i]?) = some m ∧
      (messagesIn body').bind (·[j]?) = some m' ∧
      IsMessage m role content ∧ IsMessage m' role content

theorem messagesFromBody_getElem? {body : List UInt8} {msgs : List Json}
    (read : messagesIn body = some msgs) (i : Nat) :
    (messagesFromBody body).bind (·[i]?) = msgs[i]?.map canonicalMessage := by
  rw [messagesFromBody, read]
  cases msgs with
  | nil => rfl
  | cons m msgs => exact List.getElem?_map

def contentsOf (msgs : List Json) : List Json := msgs.filterMap fun m => m.get "content"

/-- Two bodies of messages with roles and contents have their messages told apart if and only if
none of the one meets one of the other. -/
theorem identifies_iff {body body' : List UInt8} {msgs msgs' : List Json}
    (read : messagesIn body = some msgs) (read' : messagesIn body' = some msgs')
    (full : ∀ m ∈ msgs, ∃ role content, IsMessage m role content)
    (full' : ∀ m ∈ msgs', ∃ role content, IsMessage m role content)
    (writes : JsonWriter.Writes (contentsOf msgs ++ contentsOf msgs')) :
    Identifies body body' ↔ ∀ m ∈ msgs, ∀ m' ∈ msgs', ∀ role role' content content',
      IsMessage m role content → IsMessage m' role' content' →
        ¬ Meet role role' content content' := by
  have held : ∀ {m role content}, m ∈ msgs → IsMessage m role content →
      content ∈ contentsOf msgs ++ contentsOf msgs' := fun hm h =>
    List.mem_append_left _ (List.mem_filterMap.mpr ⟨_, hm, h.content⟩)
  have held' : ∀ {m role content}, m ∈ msgs' → IsMessage m role content →
      content ∈ contentsOf msgs ++ contentsOf msgs' := fun hm h =>
    List.mem_append_right _ (List.mem_filterMap.mpr ⟨_, hm, h.content⟩)
  constructor
  · intro identifies m hm m' hm' role role' content content' h h' meet
    obtain ⟨i, hi⟩ := List.mem_iff_getElem?.mp hm
    obtain ⟨j, hj⟩ := List.mem_iff_getElem?.mp hm'
    have same := (canonicalMessage_eq_iff h h' writes (held hm h) (held' hm' h')).mpr (.inr meet)
    obtain ⟨n, n', role₀, content₀, at_i, at_j, hn, hn'⟩ := identifies i j (canonicalMessage m)
      (by rw [messagesFromBody_getElem? read, hi, Option.map_some])
      (by rw [messagesFromBody_getElem? read', hj, Option.map_some, same])
    rw [read, Option.bind_some, hi] at at_i
    rw [read', Option.bind_some, hj] at at_j
    obtain rfl := Option.some.inj at_i
    obtain rfl := Option.some.inj at_j
    refine meet.differs ⟨?_, Option.some.inj (h.content.symm.trans ?_)⟩
    · exact Json.string.inj (Option.some.inj (h.role.symm.trans (hn.role.trans
        (hn'.role.symm.trans h'.role))))
    · exact hn.content.trans (hn'.content.symm.trans h'.content)
  · intro apart i j bytes at_i at_j
    rw [messagesFromBody_getElem? read] at at_i
    rw [messagesFromBody_getElem? read'] at at_j
    obtain ⟨m, hi, rfl⟩ := Option.map_eq_some_iff.mp at_i
    obtain ⟨m', hj, same⟩ := Option.map_eq_some_iff.mp at_j
    have hm : m ∈ msgs := List.mem_of_getElem? hi
    have hm' : m' ∈ msgs' := List.mem_of_getElem? hj
    obtain ⟨role, content, h⟩ := full m hm
    obtain ⟨role', content', h'⟩ := full' m' hm'
    have cases_ := (canonicalMessage_eq_iff h h' writes (held hm h) (held' hm' h')).mp same.symm
    rcases cases_ with ⟨rfl, rfl⟩ | meet
    · exact ⟨m, m', role, content, by rw [read, Option.bind_some, hi],
        by rw [read', Option.bind_some, hj], h, h'⟩
    · exact absurd meet (apart m hm m' hm' role role' content content' h h')

end Canonical

section Cases

/-- The body of one message of the user. -/
def userBody (content : String) : List Char :=
  "\x7b\"messages\":[\x7b\"role\":\"user\",\"content\":".toList ++ content.toList
    ++ "\x7d]\x7d".toList

def userMessage (content : Json) : Json :=
  .object [("content".toList, content), ("role".toList, .string "user".toList)]

/-- `serde_json::from_str` at three bodies. -/
@[reducible] def userParser : JsonParser where
  fromStr t :=
    let body (content : Json) := some (.object [("messages".toList, .array [userMessage content])])
    if t = userBody "\"hi\"" then body (.string "hi".toList)
    else if t = userBody "\"[]\"" then body (.string "[]".toList)
    else if t = userBody "[]" then body (.array [])
    else none

/-- `serde_json::to_vec` at their contents. -/
@[reducible] def userWriter : JsonWriter where
  toVec
    | .string s => some (Utf8.encode ('"' :: (s ++ ['"'])))
    | .array [] => some (Utf8.encode "[]".toList)
    | _ => none

attribute [local instance] userParser userWriter

theorem isMessage_userMessage (content : Json) :
    IsMessage (userMessage content) "user".toList content := ⟨rfl, rfl⟩

theorem isMessage_userMessage_iff {content content' : Json} {role : List Char}
    (h : IsMessage (userMessage content) role content') :
    role = "user".toList ∧ content' = content :=
  ⟨(Json.string.inj (Option.some.inj h.role)).symm, (Option.some.inj h.content).symm⟩

theorem messagesIn_userBody (body : String) (content : Json)
    (parsed : JsonParser.fromStr (userBody body) =
      some (.object [("messages".toList, .array [userMessage content])])) :
    messagesIn (Utf8.encode (userBody body)) = some [userMessage content] := by
  rw [messagesIn, fromSlice, Utf8.fromUtf8_encode, Option.bind_some, parsed]
  rfl

theorem userWriter_writes : JsonWriter.Writes [.string "hi".toList, .array []] where
  isSome := by
    intro v hv
    rcases List.mem_pair.mp hv with rfl | rfl <;> rfl
  injective := by
    intro v hv w hw same
    have apart : JsonWriter.toVec (.string "hi".toList) ≠ JsonWriter.toVec (.array []) := by decide
    rcases List.mem_pair.mp hv with rfl | rfl <;> rcases List.mem_pair.mp hw with rfl | rfl
    · rfl
    · exact absurd same apart
    · exact absurd same.symm apart
    · rfl

/-- A text and a list that it does not spell out. -/
theorem identifies_hi : Identifies (Utf8.encode (userBody "\"hi\""))
    (Utf8.encode (userBody "[]")) := by
  have full : ∀ content, ∀ m ∈ [userMessage content], ∃ role content, IsMessage m role content :=
    fun content => List.forall_mem_singleton.mpr ⟨_, _, isMessage_userMessage content⟩
  refine (identifies_iff (messagesIn_userBody _ _ rfl) (messagesIn_userBody _ _ rfl) (full _)
    (full _) userWriter_writes).mpr ?_
  refine List.forall_mem_singleton.mpr (List.forall_mem_singleton.mpr ?_)
  intro role role' content content' h h' meet
  obtain ⟨rfl, rfl⟩ := isMessage_userMessage_iff h
  obtain ⟨rfl, rfl⟩ := isMessage_userMessage_iff h'
  rcases meet with ⟨-, ⟨s, hi, -, same⟩ | ⟨s, none_, -⟩⟩ | swallows | swallows
  · obtain rfl := Json.string.inj hi
    exact absurd same (by decide)
  · cases none_
  · exact swallows.role_ne rfl
  · exact swallows.role_ne rfl

/-- The text and the list that it spells out. -/
theorem not_identifies_brackets : ¬ Identifies (Utf8.encode (userBody "\"[]\""))
    (Utf8.encode (userBody "[]")) := by
  intro identifies
  have read := messagesIn_userBody "\"[]\"" (.string "[]".toList) rfl
  have read' := messagesIn_userBody "[]" (.array []) rfl
  obtain ⟨m, m', role, content, at_0, at_0', h, h'⟩ := identifies 0 0
    (Utf8.encode "user".toList ++ recordSeparator :: Utf8.encode "[]".toList)
    (by rw [messagesFromBody_getElem? read]; rfl) (by rw [messagesFromBody_getElem? read']; rfl)
  rw [read] at at_0
  rw [read'] at at_0'
  obtain rfl := Option.some.inj at_0
  obtain rfl := Option.some.inj at_0'
  have text := (isMessage_userMessage_iff h).2.symm.trans (isMessage_userMessage_iff h').2
  cases text

end Cases

end Tailfin
