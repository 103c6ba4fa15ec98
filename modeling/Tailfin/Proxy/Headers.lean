import Tailfin.Library.Text
import Tailfin.Library.Utf8

/-!
# Headers of one hop

`strip_hop_by_hop` of `tailfin-proxy`. A `HeaderMap` is the list of its entries: which values a
name has, and in which order, is all that matters here. The checks of the `http` crate are
parameters. What a `Connection` header names is a matter of its bytes; the proxy reads them as
text and passes over a value that is none.
-/

namespace Tailfin

open Text

/-- In lower case. -/
abbrev HeaderName := List Char

abbrev HeaderValue := List UInt8

/-- The `http` crate. -/
class HeaderLibrary where
  /-- `HeaderName::from_bytes`. -/
  nameFromBytes : List UInt8 → Option HeaderName
  /-- `HeaderValue::from_str`. -/
  valueFromStr : List Char → Option HeaderValue
  /-- `HeaderValue::to_str`. -/
  valueToStr : HeaderValue → Option (List Char)

abbrev HeaderMap := List (HeaderName × HeaderValue)

namespace HeaderMap

def getAll (h : HeaderMap) (name : HeaderName) : List HeaderValue :=
  h.filterMap fun e => if e.1 = name then some e.2 else none

/-- The first value of a name. -/
def get (h : HeaderMap) (name : HeaderName) : Option HeaderValue := (h.getAll name).head?

/-- Remove every value of a name. -/
def remove (h : HeaderMap) (name : HeaderName) : HeaderMap := h.filter fun e => e.1 ≠ name

/-- Put one value in the place of all values of a name. -/
def insert (h : HeaderMap) (name : HeaderName) (value : HeaderValue) : HeaderMap :=
  h.remove name ++ [(name, value)]

theorem getAll_remove (h : HeaderMap) (name n : HeaderName) :
    (h.remove name).getAll n = if n = name then [] else h.getAll n := by
  unfold remove getAll
  rw [List.filterMap_filter]
  split
  · next same =>
    refine List.filterMap_eq_nil_iff.mpr fun e _ => ?_
    by_cases other : e.1 = name <;> simp [other, same]
  · next different =>
    refine List.filterMap_congr fun e _ => ?_
    by_cases here : e.1 = n
    · simp [here, different]
    · simp [here]

theorem getAll_insert (h : HeaderMap) (name : HeaderName) (value : HeaderValue) (n : HeaderName) :
    (h.insert name value).getAll n = if n = name then [value] else h.getAll n := by
  have parts : (h.insert name value).getAll n =
      (h.remove name).getAll n ++ getAll [(name, value)] n := List.filterMap_append
  rw [parts, getAll_remove]
  by_cases same : n = name
  · simp [same, getAll]
  · simp [same, Ne.symm same, getAll]

theorem getAll_foldl_remove (names : List HeaderName) (h : HeaderMap) (n : HeaderName) :
    (names.foldl remove h).getAll n = if n ∈ names then [] else h.getAll n := by
  induction names generalizing h with
  | nil => simp
  | cons name names ih =>
    rw [List.foldl_cons, ih, getAll_remove]
    by_cases here : n = name <;> by_cases later : n ∈ names <;> simp [here, later]

end HeaderMap

def connection : HeaderName := "connection".toList

def contentLength : HeaderName := "content-length".toList

/-- `HOP_BY_HOP`. -/
def hopByHop : List HeaderName :=
  ["connection", "keep-alive", "proxy-authenticate", "proxy-authorization", "proxy-connection",
    "te", "trailer", "transfer-encoding", "upgrade"].map String.toList

section Strip

variable [HeaderLibrary]

/-- A token of a `Connection` value, as a header name. -/
def connectionToken (token : List Char) : Option HeaderName :=
  if (trim token).isEmpty then none
  else HeaderLibrary.nameFromBytes (Utf8.encode (trim token))

/-- The names in a `Connection` value that is text. -/
def connectionTokens (value : HeaderValue) : List HeaderName :=
  match HeaderLibrary.valueToStr value with
  | some s => (s.splitOn ',').filterMap connectionToken
  | none => []

/-- Remove hop-by-hop headers. -/
def stripHopByHop (headers : HeaderMap) : HeaderMap :=
  let extra := (headers.getAll connection).flatMap connectionTokens
  hopByHop.foldl HeaderMap.remove (extra.foldl HeaderMap.remove headers)

end Strip

/-! ## What a hop takes away -/

/-- Printable ASCII, or a tab. -/
def VisibleAscii (value : HeaderValue) : Prop :=
  ∀ b ∈ value, (0x20 ≤ b.toNat ∧ b.toNat < 0x7F) ∨ b.toNat = 0x09

instance (value : HeaderValue) : Decidable (VisibleAscii value) :=
  inferInstanceAs (Decidable (∀ b ∈ value, (0x20 ≤ b.toNat ∧ b.toNat < 0x7F) ∨ b.toNat = 0x09))

/-- A token of the value is this name, in whatever case and with any blanks around it. -/
def ListsName (value : HeaderValue) (name : HeaderName) : Prop :=
  ∃ token ∈ (Utf8.ascii value).splitOn ',', toAsciiLowercase (trimBlanks token) = name

instance (value : HeaderValue) (name : HeaderName) : Decidable (ListsName value name) :=
  inferInstanceAs (Decidable (∃ token ∈ (Utf8.ascii value).splitOn ',',
    toAsciiLowercase (trimBlanks token) = name))

theorem isWhitespace_of_visibleAscii {value : HeaderValue} (visible : VisibleAscii value)
    {c : Char} (mem : c ∈ Utf8.ascii value) : isWhitespace c = isBlank c := by
  obtain ⟨b, hb, rfl⟩ := List.mem_map.mp mem
  have printable := visible b hb
  have table : ∀ n < 0x7F, 0x20 ≤ n ∨ n = 0x09 →
      isWhitespace (Char.ofNat n) = isBlank (Char.ofNat n) := by decide
  exact table b.toNat (by omega) (by omega)

/-- In visible ASCII a token is trimmed of blanks only. -/
theorem listsName_iff_trim {value : HeaderValue} (visible : VisibleAscii value)
    {name : HeaderName} : ListsName value name ↔
      ∃ token ∈ (Utf8.ascii value).splitOn ',', toAsciiLowercase (trim token) = name := by
  refine exists_congr fun token => and_congr_right fun there => ?_
  rw [trim_eq_trimBlanks fun c hc =>
    isWhitespace_of_visibleAscii visible (subset_of_mem_splitOn there hc)]

/-- A token of some `Connection` value is this name, in whatever case. -/
def ListedInConnection (headers : HeaderMap) (name : HeaderName) : Prop :=
  ∃ value ∈ headers.getAll connection, ListsName value name

instance (headers : HeaderMap) (name : HeaderName) :
    Decidable (ListedInConnection headers name) :=
  inferInstanceAs (Decidable (∃ value ∈ headers.getAll connection, ListsName value name))

/-- A token of a `Connection` value of visible ASCII is this name. -/
def ListedInText (headers : HeaderMap) (name : HeaderName) : Prop :=
  ∃ value ∈ headers.getAll connection, VisibleAscii value ∧ ListsName value name

instance (headers : HeaderMap) (name : HeaderName) : Decidable (ListedInText headers name) :=
  inferInstanceAs (Decidable (∃ value ∈ headers.getAll connection,
    VisibleAscii value ∧ ListsName value name))

/-- The headers that a message is to lose on its way through the proxy. -/
def Consumed (headers : HeaderMap) (name : HeaderName) : Prop :=
  name ∈ hopByHop ∨ ListedInConnection headers name ∨ name = contentLength

instance (headers : HeaderMap) (name : HeaderName) : Decidable (Consumed headers name) :=
  inferInstanceAs (Decidable (_ ∨ _))

/-- The headers that it loses: a `Connection` value that is no text names nothing. -/
def TakenAway (headers : HeaderMap) (name : HeaderName) : Prop :=
  name ∈ hopByHop ∨ ListedInText headers name ∨ name = contentLength

instance (headers : HeaderMap) (name : HeaderName) : Decidable (TakenAway headers name) :=
  inferInstanceAs (Decidable (_ ∨ _))

theorem consumed_of_takenAway {headers : HeaderMap} {name : HeaderName}
    (h : TakenAway headers name) : Consumed headers name :=
  h.imp_right fun h => h.imp_left fun ⟨value, there, _, lists⟩ => ⟨value, there, lists⟩

/-! ## What the code reads -/

variable [HeaderLibrary]

/-- A token of a `Connection` value that is text makes this name. -/
def TokenInConnection (headers : HeaderMap) (name : HeaderName) : Prop :=
  ∃ value ∈ headers.getAll connection, ∃ s, HeaderLibrary.valueToStr value = some s ∧
    ∃ token ∈ s.splitOn ',', trim token ≠ [] ∧
      HeaderLibrary.nameFromBytes (Utf8.encode (trim token)) = some name

theorem mem_connectionTokens {headers : HeaderMap} {name : HeaderName} :
    name ∈ (headers.getAll connection).flatMap connectionTokens ↔
      TokenInConnection headers name := by
  rw [List.mem_flatMap, TokenInConnection]
  refine exists_congr fun value => and_congr_right fun _ => ?_
  rw [connectionTokens]
  cases HeaderLibrary.valueToStr value with
  | none => simp
  | some s => simp [List.mem_filterMap, connectionToken]

instance (headers : HeaderMap) (name : HeaderName) : Decidable (TokenInConnection headers name) :=
  decidable_of_iff _ mem_connectionTokens

/-- Stripping takes away the headers of the hop, and nothing else. -/
theorem getAll_stripped (headers : HeaderMap) (name : HeaderName) :
    (stripHopByHop headers).getAll name =
      if name ∈ hopByHop ∨ TokenInConnection headers name then [] else headers.getAll name := by
  rw [stripHopByHop, HeaderMap.getAll_foldl_remove, HeaderMap.getAll_foldl_remove]
  simp only [mem_connectionTokens]
  by_cases hop : name ∈ hopByHop <;> by_cases named : TokenInConnection headers name <;>
    simp [hop, named]

/-- What the `http` crate documents: a name is not empty and is kept in lower case, whatever its
spelling, and a value of visible ASCII is text. -/
structure HeaderLibrary.Documented : Prop where
  some_ : HeaderLibrary.nameFromBytes [] = none
  lower : ∀ t name, HeaderLibrary.nameFromBytes (Utf8.encode t) = some name →
    toAsciiLowercase t = name
  caseless : ∀ s t, toAsciiLowercase s = toAsciiLowercase t →
    HeaderLibrary.nameFromBytes (Utf8.encode s) = HeaderLibrary.nameFromBytes (Utf8.encode t)
  text : ∀ v, VisibleAscii v → HeaderLibrary.valueToStr v = some (Utf8.ascii v)

/-- And no other value is text. -/
structure HeaderLibrary.VisibleText : Prop extends HeaderLibrary.Documented where
  visible : ∀ v s, HeaderLibrary.valueToStr v = some s → VisibleAscii v

/-- A name as the `http` crate keeps it. -/
def IsHeaderName (name : HeaderName) : Prop :=
  HeaderLibrary.nameFromBytes (Utf8.encode name) = some name

instance (name : HeaderName) : Decidable (IsHeaderName name) :=
  inferInstanceAs (Decidable (HeaderLibrary.nameFromBytes (Utf8.encode name) = some name))

/-- The tokens that make a name are those that are the name but for its case. -/
theorem nameFromBytes_token_iff (documented : HeaderLibrary.Documented) {name : HeaderName}
    (isName : IsHeaderName name) (t : List Char) :
    trim t ≠ [] ∧ HeaderLibrary.nameFromBytes (Utf8.encode (trim t)) = some name ↔
      toAsciiLowercase (trim t) = name := by
  have lower : toAsciiLowercase name = name := documented.lower name name isName
  constructor
  · exact fun h => documented.lower _ _ h.2
  · intro same
    have spelled := documented.caseless (trim t) name (same.trans lower.symm)
    rw [isName] at spelled
    refine ⟨fun empty => ?_, spelled⟩
    have none_ : HeaderLibrary.nameFromBytes (Utf8.encode (trim t)) = none := by
      rw [empty]
      exact documented.some_
    rw [spelled] at none_
    cases none_

/-- In visible ASCII the code reads what the bytes name. -/
theorem tokenInConnection_iff (documented : HeaderLibrary.Documented) {headers : HeaderMap}
    (visible : ∀ value ∈ headers.getAll connection, VisibleAscii value) {name : HeaderName}
    (isName : IsHeaderName name) :
    TokenInConnection headers name ↔ ListedInConnection headers name := by
  refine exists_congr fun value => and_congr_right fun there => ?_
  simp only [documented.text value (visible value there), Option.some_inj, exists_eq_left',
    nameFromBytes_token_iff documented isName, listsName_iff_trim (visible value there)]

/-- The code reads the values of visible ASCII, and passes over the others. -/
theorem tokenInConnection_iff_listedInText (texts : HeaderLibrary.VisibleText)
    {headers : HeaderMap} {name : HeaderName} (isName : IsHeaderName name) :
    TokenInConnection headers name ↔ ListedInText headers name := by
  refine exists_congr fun value => and_congr_right fun _ => ?_
  by_cases visible : VisibleAscii value
  · simp only [texts.text value visible, Option.some_inj, exists_eq_left',
      nameFromBytes_token_iff texts.toDocumented isName, listsName_iff_trim visible, visible,
      true_and]
  · refine iff_of_false ?_ fun h => visible h.1
    rintro ⟨s, text, -⟩
    exact visible (texts.visible value s text)

theorem getAll_eq_nil {headers : HeaderMap} (names : ∀ e ∈ headers, IsHeaderName e.1)
    {name : HeaderName} (other : ¬ IsHeaderName name) : headers.getAll name = [] := by
  refine List.filterMap_eq_nil_iff.mpr fun e he => if_neg ?_
  rintro rfl
  exact other (names e he)

theorem getAll_stripHopByHop (texts : HeaderLibrary.VisibleText) {headers : HeaderMap}
    (names : ∀ e ∈ headers, IsHeaderName e.1) (name : HeaderName) :
    (stripHopByHop headers).getAll name =
      if name ∈ hopByHop ∨ ListedInText headers name then [] else headers.getAll name := by
  rw [getAll_stripped]
  by_cases isName : IsHeaderName name
  · simp only [tokenInConnection_iff_listedInText texts isName]
  · simp [getAll_eq_nil names isName]

theorem getAll_endToEnd (texts : HeaderLibrary.VisibleText) {headers : HeaderMap}
    (names : ∀ e ∈ headers, IsHeaderName e.1) (name : HeaderName) :
    ((stripHopByHop headers).remove contentLength).getAll name =
      if TakenAway headers name then [] else headers.getAll name := by
  rw [HeaderMap.getAll_remove, getAll_stripHopByHop texts names]
  by_cases length : name = contentLength <;>
    by_cases hop : name ∈ hopByHop ∨ ListedInText headers name <;>
    simp [TakenAway, length, hop]

/-- A byte outside of ASCII in a `Connection` value keeps every header that it names. -/
example :
    let headers : HeaderMap := [(connection, Utf8.encode "x-hop, caf".toList ++ [0xE9]),
      ("x-hop".toList, [0x31])]
    Consumed headers "x-hop".toList ∧ ¬ TakenAway headers "x-hop".toList := by decide +kernel

end Tailfin
