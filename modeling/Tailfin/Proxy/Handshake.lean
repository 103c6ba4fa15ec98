import Tailfin.Proxy.Forward

/-!
# The text of a handshake

What an upstream reads of the request that `http_handshake` writes: the request line and one header
line for each header, whatever the client has put into them. A value that is no text is left out.
-/

namespace Tailfin

open Text

/-! ## Bytes -/

theorem narrow_of_visibleAscii {v : HeaderValue} (h : VisibleAscii v) : ∀ b ∈ v, b.toNat < 0x80 := by
  intro b hb
  rcases h b hb with range | tab <;> omega

theorem unbroken_of_visibleAscii {v : HeaderValue} (h : VisibleAscii v) : Unbroken v := by
  intro b hb
  have range := h b hb
  constructor <;> rintro rfl <;> revert range <;> decide

/-- Visible characters are their own bytes. -/
theorem ascii_encode {t : List Char} (visible : Visible (Utf8.encode t)) :
    Utf8.ascii (Utf8.encode t) = t := by
  have decoded := Utf8.lossy_ascii (narrow_of_visible visible) []
  rw [List.append_nil, Utf8.lossy_encode, Utf8.lossy_nil, List.append_nil] at decoded
  exact decoded.symm

section Text

variable [HeaderLibrary]

/-- `HeaderValue::to_str` succeeds. -/
def isText (v : HeaderValue) : Bool := (HeaderLibrary.valueToStr v).isSome

/-- The headers that the text says. -/
def handshakeFields (hostHdr : List Char) (headers : HeaderMap) : HeaderMap :=
  (host, Utf8.encode hostHdr) :: (headers.filter (fun e =>
      decide (e.1 ≠ host ∧ e.1 ≠ contentLength) && isText e.2) ++
    (if (headers.get connection).isNone then [(connection, upgradeValue)] else []) ++
    (if (headers.get upgrade).isNone then [(upgrade, Utf8.encode "websocket".toList)] else []))

/-- Headers as `hyper` reads them: their names are in lower case, and no text of theirs has white
space around it. -/
structure HeaderMap.Parsed (headers : HeaderMap) : Prop where
  names : ∀ e ∈ headers, IsHeaderName e.1
  trimmed : ∀ e ∈ headers, ∀ s, HeaderLibrary.valueToStr e.2 = some s → trim s = s

/-! ## One line -/

theorem parseField_text (checked : HeaderLibrary.Checked) {spelling : List Char}
    {name : HeaderName} {v : HeaderValue}
    (named : HeaderLibrary.nameFromBytes (Utf8.encode spelling) = some name)
    (visible : VisibleAscii v) (trimmed : trim (Utf8.ascii v) = Utf8.ascii v) :
    parseField (spelling ++ ": ".toList ++ Utf8.ascii v) = some (name, v) := by
  obtain ⟨-, letters, colon⟩ := checked.token _ _ named
  have own := ascii_encode letters
  have colonless : ':' ∉ spelling := by
    intro mem
    apply colon
    have there : Utf8.encode [':'] ⊆ Utf8.encode spelling := by
      obtain ⟨s, t, rfl⟩ := List.append_of_mem mem
      rw [Utf8.encode_append, Utf8.encode_cons]
      intro b hb
      simp only [Utf8.encode_nil, List.append_nil] at hb
      simp [hb]
    exact there (by decide)
  have solid : ∀ c ∈ spelling, isWhitespace c = false := by
    rw [← own]
    exact isWhitespace_ascii letters
  have value : trim (' ' :: Utf8.ascii v) = Utf8.ascii v := by
    have space : ∀ c ∈ [' '], isWhitespace c = true := by
      rintro c (_ | ⟨_, ⟨⟩⟩)
      rfl
    have blank := trim_prepend space (Utf8.ascii v)
    exact blank.trans trimmed
  have shape : spelling ++ ": ".toList ++ Utf8.ascii v = spelling ++ ':' :: ' ' :: Utf8.ascii v := by
    rw [List.append_assoc]
    rfl
  rw [parseField, shape, splitOnce_append colonless]
  simp only [Option.bind_eq_bind, Option.bind_some, trim_of_plain solid, named, value,
    checked.value v visible]
  rfl

/-- The bytes of a header line are a line. -/
theorem plain_headerLine (checked : HeaderLibrary.Checked) {spelling : List Char}
    {name : HeaderName} {v : HeaderValue}
    (named : HeaderLibrary.nameFromBytes (Utf8.encode spelling) = some name)
    (visible : VisibleAscii v) :
    let bytes := Utf8.encode (spelling ++ ": ".toList ++ Utf8.ascii v)
    bytes ≠ [] ∧ Unbroken bytes := by
  obtain ⟨some_, letters, -⟩ := checked.token _ _ named
  have bytes : Utf8.encode (spelling ++ ": ".toList ++ Utf8.ascii v) =
      Utf8.encode spelling ++ 0x3A :: 0x20 :: v := by
    rw [Utf8.encode_append, Utf8.encode_append, Utf8.encode_ascii (narrow_of_visibleAscii visible),
      List.append_assoc]
    rfl
  intro line
  rw [show line = _ from bytes]
  refine ⟨by simp, fun b hb => ?_⟩
  rcases List.mem_append.mp hb with hb | hb
  · exact unbroken_of_visible letters b hb
  · simp only [List.mem_cons] at hb
    rcases hb with rfl | rfl | hb
    · decide
    · decide
    · exact unbroken_of_visibleAscii visible b hb

/-! ## The whole text -/

/-- A header line and what is to be read of it. -/
structure SaysField (line : List Char) (field : HeaderName × HeaderValue) : Prop where
  plain : Utf8.encode line ≠ [] ∧ Unbroken (Utf8.encode line)
  parsed : parseField line = some field

theorem saysField (checked : HeaderLibrary.Checked) {spelling : List Char} {name : HeaderName}
    {v : HeaderValue} (named : HeaderLibrary.nameFromBytes (Utf8.encode spelling) = some name)
    (visible : VisibleAscii v) (trimmed : trim (Utf8.ascii v) = Utf8.ascii v) :
    SaysField (spelling ++ ": ".toList ++ Utf8.ascii v) (name, v) where
  plain := plain_headerLine checked named visible
  parsed := parseField_text checked named visible trimmed

theorem plain_of_saysField {lines : List (List Char)} {fields : HeaderMap}
    (h : List.Forall₂ SaysField lines fields) :
    ∀ l ∈ lines, Utf8.encode l ≠ [] ∧ Unbroken (Utf8.encode l) := by
  induction h with
  | nil => exact List.forall_mem_nil _
  | cons line _ ih => exact List.forall_mem_cons.mpr ⟨line.plain, ih⟩

theorem filterMap_parseField {lines : List (List Char)} {fields : HeaderMap}
    (h : List.Forall₂ SaysField lines fields) : lines.filterMap parseField = fields := by
  induction h with
  | nil => rfl
  | cons line _ ih => rw [List.filterMap_cons_some line.parsed, ih]

/-- The header lines of the headers that are sent, in order. -/
theorem saysField_headerLine (checked : HeaderLibrary.Checked) {headers : HeaderMap}
    (parsed : headers.Parsed) : List.Forall₂ SaysField (headers.filterMap headerLine)
      (headers.filter fun e => decide (e.1 ≠ host ∧ e.1 ≠ contentLength) && isText e.2) := by
  induction headers with
  | nil => exact .nil
  | cons e headers ih =>
    have later := ih ⟨fun x hx => parsed.names x (List.mem_cons_of_mem _ hx),
      fun x hx => parsed.trimmed x (List.mem_cons_of_mem _ hx)⟩
    have named := parsed.names e List.mem_cons_self
    have lower : toAsciiLowercase e.1 = e.1 := checked.lower e.1 e.1 named
    have same : ∀ name : HeaderName, toAsciiLowercase name = name →
        eqIgnoreAsciiCase e.1 name = decide (e.1 = name) := by
      intro name low
      rw [eqIgnoreAsciiCase, lower, low]
    rw [List.filterMap_cons, headerLine, same host (by decide), same contentLength (by decide)]
    by_cases kept : e.1 ≠ host ∧ e.1 ≠ contentLength
    · obtain ⟨kept₁, kept₂⟩ := kept
      cases text : HeaderLibrary.valueToStr e.2 with
      | none => simpa [kept₁, kept₂, isText, text] using later
      | some s =>
        have visible := checked.visible e.2 s text
        have read := checked.text e.2 visible
        rw [text, Option.some_inj] at read
        subst read
        have line := saysField checked named visible (parsed.trimmed e List.mem_cons_self _ text)
        simpa [kept₁, kept₂, isText, text] using List.Forall₂.cons line later
    · rw [List.filter_cons_of_neg (by simpa using fun a b => absurd ⟨a, b⟩ kept)]
      rcases Decidable.not_and_iff_or_not.mp kept with other | other
      · simpa [Decidable.not_not.mp other] using later
      · simpa [Decidable.not_not.mp other] using later

theorem saysField_lines (checked : HeaderLibrary.Checked) {headers : HeaderMap}
    (parsed : headers.Parsed) {hostHdr : List Char} (visible : Visible (Utf8.encode hostHdr))
    (path : List Char) : List.Forall₂ SaysField (handshakeLines hostHdr path headers).tail
      (handshakeFields hostHdr headers) := by
  obtain ⟨hostName, connectionName, upgradeName⟩ := checked.standard
  have spelled : ∀ {t : List Char} {name : HeaderName}, IsHeaderName name →
      toAsciiLowercase t = name → HeaderLibrary.nameFromBytes (Utf8.encode t) = some name := by
    intro t name isName low
    have own : toAsciiLowercase name = name := checked.lower name name isName
    rw [checked.caseless t name (low.trans own.symm), isName]
  have own := ascii_encode visible
  have hostLine : SaysField ("Host: ".toList ++ hostHdr) (host, Utf8.encode hostHdr) := by
    have letters : VisibleAscii (Utf8.encode hostHdr) := by
      intro b hb
      obtain ⟨low, high⟩ := visible b hb
      left
      omega
    have plain : ∀ c ∈ hostHdr, isWhitespace c = false := by
      rw [← own]
      exact isWhitespace_ascii visible
    have line := saysField checked (spelled hostName (t := "Host".toList) (by decide)) letters
      (by rw [own, trim_of_plain plain])
    rw [own] at line
    exact line
  have connectionLine : SaysField "Connection: Upgrade".toList (connection, upgradeValue) :=
    saysField checked (spelled connectionName (t := "Connection".toList) (by decide))
      (v := upgradeValue) (by decide +kernel) (by decide +kernel)
  have upgradeLine :
      SaysField "Upgrade: websocket".toList (upgrade, Utf8.encode "websocket".toList) :=
    saysField checked (spelled upgradeName (t := "Upgrade".toList) (by decide))
      (v := Utf8.encode "websocket".toList) (by decide +kernel) (by decide +kernel)
  rw [handshakeLines, List.tail_cons, handshakeFields]
  refine .cons hostLine (List.rel_append (List.rel_append (saysField_headerLine checked parsed) ?_) ?_)
  · split
    · exact .cons connectionLine .nil
    · exact .nil
  · split
    · exact .cons upgradeLine .nil
    · exact .nil

theorem handshakeText_eq (hostHdr path : List Char) (headers : HeaderMap) :
    handshakeText hostHdr path headers =
      ((handshakeLines hostHdr path headers).map Utf8.encode).flatMap (· ++ crlf) ++ crlf := by
  have ends : Utf8.encode ['\r', '\n'] = crlf := rfl
  rw [handshakeText, Utf8.encode_append, ends]
  congr 1
  induction handshakeLines hostHdr path headers with
  | nil => rfl
  | cons line lines ih =>
    rw [List.flatMap_cons, Utf8.encode_append, ih, Utf8.encode_append, ends, List.map_cons,
      List.flatMap_cons]

omit [HeaderLibrary] in
theorem plain_requestLine {path : List Char} (unbroken : Unbroken (Utf8.encode path)) :
    Utf8.encode (requestLine path) ≠ [] ∧ Unbroken (Utf8.encode (requestLine path)) := by
  have bytes : Utf8.encode (requestLine path) =
      Utf8.encode "GET ".toList ++ Utf8.encode path ++ Utf8.encode " HTTP/1.1".toList := by
    rw [requestLine, Utf8.encode_append, Utf8.encode_append]
  rw [bytes]
  refine ⟨by simp, fun b hb => ?_⟩
  have around : ∀ b ∈ Utf8.encode "GET ".toList ++ Utf8.encode " HTTP/1.1".toList,
      b ≠ 13 ∧ b ≠ 10 := by decide +kernel
  simp only [List.mem_append] at hb around
  rcases hb with (hb | hb) | hb
  · exact around b (.inl hb)
  · exact unbroken b hb
  · exact around b (.inr hb)

/-- An upstream reads the request line and one field for each header that is text. No value makes a
line of its own. -/
theorem readRequest_handshakeText (checked : HeaderLibrary.Checked) {headers : HeaderMap}
    (parsed : headers.Parsed) {hostHdr path : List Char} (visible : Visible (Utf8.encode hostHdr))
    (unbroken : Unbroken (Utf8.encode path)) (rest : List UInt8) :
    readRequest (handshakeText hostHdr path headers ++ rest) =
      if (handshakeText hostHdr path headers).length ≤ headLimit + 1 then
        some (requestLine path, handshakeFields hostHdr headers)
      else none := by
  have fields := saysField_lines checked parsed visible path
  have first : handshakeLines hostHdr path headers =
      requestLine path :: (handshakeLines hostHdr path headers).tail := rfl
  generalize (handshakeLines hostHdr path headers).tail = tail at fields first
  generalize handshakeFields hostHdr headers = read at fields
  have plain : ∀ l ∈ (requestLine path :: tail).map Utf8.encode, l ≠ [] ∧ Unbroken l := by
    intro l hl
    obtain ⟨line, hline, rfl⟩ := List.mem_map.mp hl
    rcases List.mem_cons.mp hline with rfl | hline
    · exact plain_requestLine unbroken
    · exact plain_of_saysField fields line hline
  have decoded : ((requestLine path :: tail).map Utf8.encode).map Utf8.lossy =
      requestLine path :: tail := by
    rw [List.map_map]
    exact (List.map_congr_left fun l _ => Utf8.lossy_encode l).trans (List.map_id _)
  rw [readRequest, handshakeText_eq, first, readHead_lines plain (by simp)]
  split
  · rw [Option.bind_eq_bind, Option.bind_some, splitCrlf_head plain, decoded]
    have filled : (tail ++ [[], []]).filter (fun line => !line.isEmpty) = tail := by
      have some_ : ∀ line ∈ tail, (!line.isEmpty) = true := by
        intro line hline
        have bytes := (plain (Utf8.encode line) (List.mem_map_of_mem (List.mem_cons_of_mem _ hline))).1
        cases line with
        | nil => exact absurd rfl bytes
        | cons c line => rfl
      rw [List.filter_append, List.filter_eq_self.mpr some_]
      exact List.append_nil _
    simp only [List.cons_append, List.headD_cons, List.tail_cons, filled,
      filterMap_parseField fields]
    rfl
  · rfl

end Text

/-! ## What the upstream receives -/

theorem visible_digits {t : List Char} (digits : ∀ c ∈ t, c.isDigit = true) :
    Visible (Utf8.encode t) := by
  intro b hb
  obtain ⟨c, hc, hb⟩ := List.mem_flatMap.mp hb
  have digit := digits c hc
  simp only [Char.isDigit, Bool.and_eq_true, decide_eq_true_eq] at digit
  have low : 48 ≤ c.toNat := UInt32.le_iff_toNat_le.mp digit.1
  have high : c.toNat ≤ 57 := UInt32.le_iff_toNat_le.mp digit.2
  have narrow : ¬ Utf8.Wide c := by
    rw [Utf8.Wide]
    omega
  rw [Utf8.encodeChar_of_narrow narrow] at hb
  obtain rfl := List.mem_singleton.mp hb
  rw [UInt8.toNat_ofNat']
  omega

theorem visible_hostHeader {name : List Char} (visible : Visible (Utf8.encode name))
    (port : UInt16) : Visible (Utf8.encode (hostHeader name port)) := by
  rw [hostHeader]
  split
  · exact visible
  · rw [Utf8.encode_append]
    intro b hb
    rcases List.mem_append.mp hb with hb | hb
    · exact visible b hb
    · have digits : ∀ c ∈ (toString port.toNat).toList, c.isDigit = true := by
        intro c hc
        rw [Nat.toString_eq_repr, Nat.toList_repr] at hc
        exact Nat.isDigit_of_mem_toDigits (by omega) (by omega) hc
      rw [Utf8.encode_cons] at hb
      rcases List.mem_append.mp hb with colon | hb
      · have range : ∀ b ∈ String.utf8EncodeChar ':', 0x21 ≤ b.toNat ∧ b.toNat ≤ 0x7E := by
          decide +kernel
        exact range b colon
      · exact visible_digits digits b hb

namespace HeaderMap

theorem mem_foldl_remove {names : List HeaderName} {h : HeaderMap}
    {e : HeaderName × HeaderValue} (there : e ∈ names.foldl remove h) : e ∈ h := by
  induction names generalizing h with
  | nil => exact there
  | cons name names ih => exact List.mem_of_mem_filter (ih there)

theorem getAll_cons (e : HeaderName × HeaderValue) (h : HeaderMap) (name : HeaderName) :
    getAll (e :: h) name = (if e.1 = name then [e.2] else []) ++ h.getAll name := by
  unfold getAll
  by_cases here : e.1 = name <;> simp [here]

/-- Filtering by name and by value. -/
theorem getAll_filter (names : HeaderName → Bool) (values : HeaderValue → Bool) (h : HeaderMap)
    (name : HeaderName) : getAll (h.filter fun e => names e.1 && values e.2) name =
      if names name then (h.getAll name).filter values else [] := by
  induction h with
  | nil => simp [getAll]
  | cons e h ih =>
    rw [List.filter_cons, getAll_cons e h]
    by_cases here : e.1 = name
    · subst here
      cases kept : names e.1 <;> cases value : values e.2 <;>
        simp [getAll_cons, ih, kept, value]
    · cases names e.1 <;> cases values e.2 <;> simp [getAll_cons, ih, here]

end HeaderMap

section Received

variable [HeaderLibrary]

/-- An upgrade brings a first value of `Upgrade`, which is text. -/
theorem exists_of_isWebsocketUpgrade {method : String} {headers : HeaderMap}
    (recognised : isWebsocketUpgrade method headers = true) :
    method = "GET" ∧ ∃ v vs, headers.getAll upgrade = v :: vs ∧ isText v = true := by
  unfold isWebsocketUpgrade at recognised
  split at recognised
  · cases recognised
  · next get =>
    refine ⟨Decidable.not_not.mp get, ?_⟩
    simp only [Bool.and_eq_true, HeaderMap.get] at recognised
    obtain ⟨first, -⟩ := recognised
    cases values : headers.getAll upgrade with
    | nil => simp [values] at first
    | cons v vs =>
      refine ⟨v, vs, rfl, ?_⟩
      cases text : HeaderLibrary.valueToStr v with
      | none => simp [values, text] at first
      | some s => simp [isText, text]

theorem parsed_stripped (checked : HeaderLibrary.Checked) {headers : HeaderMap}
    (parsed : headers.Parsed) :
    ((stripHopKeepingUpgrade headers).remove contentLength).Parsed := by
  have mem : ∀ e ∈ (stripHopKeepingUpgrade headers).remove contentLength,
      e ∈ headers ∨ e = (connection, upgradeValue) := by
    intro e he
    have he := List.mem_of_mem_filter he
    rcases List.mem_append.mp he with he | he
    · have he := List.mem_of_mem_filter he
      exact .inl (HeaderMap.mem_foldl_remove (HeaderMap.mem_foldl_remove he))
    · exact .inr (List.mem_singleton.mp he)
  constructor
  · intro e he
    rcases mem e he with he | rfl
    · exact parsed.names e he
    · exact checked.standard.2.1
  · intro e he s text
    rcases mem e he with he | rfl
    · exact parsed.trimmed e he s text
    · have read := checked.text upgradeValue (by decide +kernel)
      rw [text, Option.some_inj] at read
      rw [read]
      decide +kernel

theorem getAll_handshakeFields (hostHdr : List Char) {headers : HeaderMap}
    (asked : headers.getAll connection ≠ []) (offered : headers.getAll upgrade ≠ [])
    (name : HeaderName) : (handshakeFields hostHdr headers).getAll name =
      if name = host then [Utf8.encode hostHdr]
      else if name = contentLength then [] else (headers.getAll name).filter isText := by
  have present : ∀ n, headers.getAll n ≠ [] → (headers.get n).isNone = false := by
    intro n some_
    obtain ⟨v, vs, split⟩ := List.exists_cons_of_ne_nil some_
    rw [HeaderMap.get, split]
    rfl
  rw [handshakeFields, present connection asked, present upgrade offered]
  simp only [Bool.false_eq_true, if_false, List.append_nil]
  rw [HeaderMap.getAll_cons, HeaderMap.getAll_filter (fun n => decide (n ≠ host ∧ n ≠ contentLength))]
  by_cases isHost : name = host
  · simp [isHost]
  · by_cases length : name = contentLength
    · subst length
      simp [isHost, Ne.symm isHost]
    · simp [isHost, length, Ne.symm isHost]

/-- The upstream reads an upgrade, with its own host, and of the client's headers those that belong
to no hop and are text. -/
structure ReadsUpgrade (hostHdr : List Char) (req : HttpRequest) (received : HeaderMap) : Prop where
  upgrade : isWebsocketUpgrade req.method received = true
  fields : ∀ n, received.getAll n =
    if n = host then [Utf8.encode hostHdr]
    else if n = connection then [upgradeValue]
    else if n ≠ Tailfin.upgrade ∧ TakenAway req.headers n then []
    else (req.headers.getAll n).filter isText

variable [HttpLibrary]

/-- An upgrade that `relay_ws` sends over a socket is still an upgrade where it arrives, whatever
the client has put into its headers, and asks for a path below the upstream's. -/
theorem handshake_received (documented : HttpLibrary.Documented) (checked : HeaderLibrary.Checked)
    {upstream : Uri} (base : upstream.Parsed) {name : List Char}
    (visible : Visible (Utf8.encode name)) (port : UInt16) {req : HttpRequest}
    (asked : req.uri.Parsed) (parsed : req.headers.Parsed)
    (recognised : isWebsocketUpgrade req.method req.headers = true) (rest : List UInt8) :
    let path := handshakePath upstream req.uri
    let text := handshakeText (hostHeader name port) path
      ((stripHopKeepingUpgrade req.headers).remove contentLength)
    (∀ uri, rewriteUri upstream req.uri = some uri →
      path = trimEndMatches (· = '/') upstream.path ++ req.uri.pathAndQuery.getD ['/']) ∧
    (text.length ≤ headLimit + 1 → ∃ received,
      readRequest (text ++ rest) = some (requestLine path, received) ∧
      ReadsUpgrade (hostHeader name port) req received) := by
  intro path text
  obtain ⟨joined, unbroken⟩ := handshakePath_of_rewriteUri documented base asked
  refine ⟨joined, fun short => ?_⟩
  have read := readRequest_handshakeText checked (parsed_stripped checked parsed)
    (visible_hostHeader visible port) unbroken rest
  rw [if_pos short] at read
  refine ⟨_, read, ?_⟩
  obtain ⟨-, v, vs, values, isText_⟩ := exists_of_isWebsocketUpgrade recognised
  have kept := getAll_stripHopKeepingUpgrade checked.toDocumented req.headers
  have apart : connection ≠ contentLength ∧ upgrade ≠ contentLength ∧ connection ≠ host ∧
      upgrade ≠ host ∧ upgrade ≠ connection := by decide
  obtain ⟨apart₁, apart₂, apart₃, apart₄, apart₅⟩ := apart
  have sent : ∀ n, ((stripHopKeepingUpgrade req.headers).remove contentLength).getAll n =
      if n = contentLength then [] else (stripHopKeepingUpgrade req.headers).getAll n :=
    HeaderMap.getAll_remove _ _
  have connects : ((stripHopKeepingUpgrade req.headers).remove contentLength).getAll connection ≠ [] := by
    rw [sent, if_neg apart₁, kept, if_pos rfl]
    simp
  have upgrades : ((stripHopKeepingUpgrade req.headers).remove contentLength).getAll upgrade ≠ [] := by
    rw [sent, if_neg apart₂, kept, if_neg apart₅, if_pos rfl, values]
    simp
  have fields := getAll_handshakeFields (hostHeader name port) connects upgrades
  have upgradeText : isText upgradeValue = true := by
    rw [isText, checked.text upgradeValue (by decide +kernel)]
    rfl
  constructor
  · have same : isWebsocketUpgrade req.method (stripHopKeepingUpgrade req.headers) = true :=
      isWebsocketUpgrade_kept checked.toDocumented recognised
    rw [← same]
    apply isWebsocketUpgrade_congr
    · rw [HeaderMap.get, HeaderMap.get, fields, if_neg apart₄, if_neg apart₂, sent, if_neg apart₂,
        kept, if_neg apart₅, if_pos rfl, values, List.filter_cons_of_pos isText_]
      rfl
    · rw [fields, if_neg apart₃, if_neg apart₁, sent, if_neg apart₁, kept, if_pos rfl]
      simp [upgradeText]
  · intro n
    rw [fields, sent, kept]
    by_cases isHost : n = host
    · simp [isHost]
    by_cases isConnection : n = connection
    · simp [isConnection, apart₁, apart₃, upgradeText]
    by_cases isUpgrade : n = upgrade
    · simp [isUpgrade, apart₂, apart₄, apart₅]
    simp only [if_neg isHost, if_neg isConnection, if_neg isUpgrade,
      getAll_stripHopByHop checked.toVisibleText parsed.names]
    by_cases length : n = contentLength <;>
      by_cases hop : n ∈ hopByHop ∨ ListedInText req.headers n <;>
      simp [isUpgrade, length, hop, apart₂.symm, TakenAway]

end Received

section Cases

attribute [local instance] acceptingParsers tokenHttp

theorem visible_of_isTokenChar {c : Char} (h : isTokenChar c = true) :
    0x21 ≤ c.toNat ∧ c.toNat ≤ 0x7E ∧ c ≠ ':' := by
  have within : ∀ {low high : UInt32}, low ≤ c.val → c.val ≤ high →
      low.toNat ≤ c.toNat ∧ c.toNat ≤ high.toNat := fun above below =>
    ⟨UInt32.le_iff_toNat_le.mp above, UInt32.le_iff_toNat_le.mp below⟩
  have letter : ∀ {low high : UInt32}, low ≤ c.val → c.val ≤ high → 0x3A < low.toNat →
      high.toNat ≤ 0x7E → 0x21 ≤ c.toNat ∧ c.toNat ≤ 0x7E ∧ c ≠ ':' := by
    intro low high above below colon last
    have range := within above below
    refine ⟨by omega, by omega, ?_⟩
    rintro rfl
    exact absurd range.1 (Nat.not_le.mpr colon)
  rw [isTokenChar, Bool.or_eq_true] at h
  rcases h with alphanum | sign
  · rcases Bool.or_eq_true_iff.mp alphanum with alpha | digit
    · rcases Bool.or_eq_true_iff.mp alpha with upper | lower
      · have range := of_decide_eq_true upper
        exact letter range.1 range.2 (by decide) (by decide)
      · have range := Bool.and_eq_true_iff.mp lower
        exact letter (of_decide_eq_true range.1) (of_decide_eq_true range.2) (by decide) (by decide)
    · have both := Bool.and_eq_true_iff.mp digit
      have range := within (of_decide_eq_true both.1) (of_decide_eq_true both.2)
      have low : 0x30 ≤ c.toNat := range.1
      have high : c.toNat ≤ 0x39 := range.2
      refine ⟨by omega, by omega, ?_⟩
      rintro rfl
      exact absurd high (by decide)
  · have signs : ("!#$%&'*+-.^_`|~".toList.all
        fun c => 0x21 ≤ c.toNat && c.toNat ≤ 0x7E && c != ':') = true := by
      decide +kernel
    have visible := List.all_eq_true.mp signs c (List.contains_iff_mem.mp sign)
    simpa [and_assoc] using visible

/-- The bytes of a token are its characters. -/
theorem exists_isTokenChar {t : List Char} (letters : t.all isTokenChar = true) {b : UInt8}
    (hb : b ∈ Utf8.encode t) : ∃ c, isTokenChar c = true ∧ b = UInt8.ofNat c.toNat := by
  obtain ⟨c, hc, hb⟩ := List.mem_flatMap.mp hb
  have letter := List.all_eq_true.mp letters c hc
  have narrow : ¬ Utf8.Wide c := by
    have range := visible_of_isTokenChar letter
    rw [Utf8.Wide]
    omega
  rw [Utf8.encodeChar_of_narrow narrow] at hb
  exact ⟨c, letter, List.mem_singleton.mp hb⟩

theorem tokenHttp_checked : HeaderLibrary.Checked where
  toVisibleText := tokenHttp_visibleText
  standard := ⟨by decide +kernel, by decide +kernel, by decide +kernel⟩
  token := by
    intro bs name named
    obtain ⟨t, read, named⟩ := Option.bind_eq_some_iff.mp named
    obtain ⟨⟨some_, letters⟩, -⟩ := Option.ite_none_right_eq_some.mp named
    obtain rfl := Utf8.encode_of_fromUtf8 read
    refine ⟨?_, ?_, ?_⟩
    · intro nothing
      apply some_
      have decoded := Utf8.fromUtf8_encode t
      rw [nothing] at decoded
      exact (Option.some_inj.mp decoded).symm
    · intro b hb
      obtain ⟨c, letter, rfl⟩ := exists_isTokenChar letters hb
      have range := visible_of_isTokenChar letter
      rw [UInt8.toNat_ofNat']
      omega
    · intro hb
      obtain ⟨c, letter, colon⟩ := exists_isTokenChar letters hb
      obtain ⟨low, high, other⟩ := visible_of_isTokenChar letter
      apply other
      apply Char.toNat_inj.mp
      have code := congrArg UInt8.toNat colon
      rw [UInt8.toNat_ofNat'] at code
      have value : (0x3A : UInt8).toNat = 58 := rfl
      have char : ':'.toNat = 58 := rfl
      omega
  value := by
    intro v visible
    have made : HeaderLibrary.valueFromStr (Utf8.ascii v) =
        if (Utf8.encode (Utf8.ascii v)).all fun b => (0x20 ≤ b && b < 0x7F) || b = 0x09 then
          some (Utf8.encode (Utf8.ascii v)) else none := rfl
    rw [Utf8.encode_ascii (narrow_of_visibleAscii visible)] at made
    rw [made]
    refine if_pos (List.all_eq_true.mpr fun b hb => ?_)
    simpa [UInt8.le_iff_toNat_le, UInt8.lt_iff_toNat_lt, ← UInt8.toNat_inj] using visible b hb

theorem askUpgrade_headers : askUpgrade.headers.Parsed where
  names := by decide +kernel
  trimmed := by
    have all : ∀ e ∈ askUpgrade.headers,
        (HeaderLibrary.valueToStr e.2).all (fun s => decide (trim s = s)) = true := by
      decide +kernel
    intro e he s text
    have trimmed := all e he
    rw [text] at trimmed
    exact of_decide_eq_true trimmed

theorem handshake_received_askUpgrade :
    let path := handshakePath prefixedUpstream askUpgrade.uri
    let text := handshakeText (hostHeader "127.0.0.1".toList 9) path
      ((stripHopKeepingUpgrade askUpgrade.headers).remove contentLength)
    (∀ uri, rewriteUri prefixedUpstream askUpgrade.uri = some uri →
      path = trimEndMatches (· = '/') prefixedUpstream.path ++
        askUpgrade.uri.pathAndQuery.getD ['/']) ∧
    (text.length ≤ headLimit + 1 → ∃ received,
      readRequest (text ++ []) = some (requestLine path, received) ∧
      ReadsUpgrade (hostHeader "127.0.0.1".toList 9) askUpgrade received) :=
  handshake_received acceptingParsers_documented tokenHttp_checked prefixedUpstream_parsed
    (by unfold Visible; decide +kernel) 9 askUpgrade_parsed askUpgrade_headers (by decide +kernel) []

end Cases

end Tailfin
