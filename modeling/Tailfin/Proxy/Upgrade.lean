import Tailfin.Proxy.Headers

/-!
# Headers of a WebSocket handshake

`is_websocket_upgrade` and `strip_hop_keeping_upgrade` of `tailfin-proxy`, which strips the
headers of the hop once more and leaves the handshake in. What the `http` crate documents of
names and values is all that the two strips need to agree.
-/

namespace Tailfin

open Text

def upgrade : HeaderName := "upgrade".toList

/-- `HeaderValue::from_static("Upgrade")`. -/
def upgradeValue : HeaderValue := Utf8.encode "Upgrade".toList

section Strip

variable [HeaderLibrary]

/-- GET, `Upgrade: websocket` and `Connection: upgrade`. -/
def isWebsocketUpgrade (method : String) (headers : HeaderMap) : Bool :=
  if method ≠ "GET" then false
  else
    let websocket := ((headers.get upgrade).bind HeaderLibrary.valueToStr).any fun s =>
      eqIgnoreAsciiCase s "websocket".toList
    let asked := (headers.getAll connection).any fun v =>
      ((HeaderLibrary.valueToStr v).map fun s =>
        (s.splitOn ',').any fun t => eqIgnoreAsciiCase (trim t) upgrade).getD false
    websocket && asked

/-- A token of a `Connection` value other than `Upgrade`, as a header name. -/
def tokenButUpgrade (token : List Char) : Option HeaderName :=
  if (trim token).isEmpty || eqIgnoreAsciiCase (trim token) upgrade then none
  else HeaderLibrary.nameFromBytes (Utf8.encode (trim token))

def tokensButUpgrade (value : HeaderValue) : List HeaderName :=
  match HeaderLibrary.valueToStr value with
  | some s => (s.splitOn ',').filterMap tokenButUpgrade
  | none => []

/-- Remove hop-by-hop headers, but keep those of the WebSocket handshake. -/
def stripHopKeepingUpgrade (headers : HeaderMap) : HeaderMap :=
  let extra := (headers.getAll connection).flatMap tokensButUpgrade
  let hop := hopByHop.filter fun name => ¬ (name = connection ∨ name = upgrade)
  (hop.foldl HeaderMap.remove (extra.foldl HeaderMap.remove headers)).insert connection upgradeValue

end Strip

/-! ## What the two strips leave -/

section Documented

variable [HeaderLibrary]

/-- What the two strips are to do with these headers. -/
structure StripsExactly (headers : HeaderMap) : Prop where
  stripped : ∀ name, (stripHopByHop headers).getAll name =
    if name ∈ hopByHop ∨ ListedInConnection headers name then [] else headers.getAll name
  agree : ∀ name, name ≠ connection → name ≠ upgrade →
    (stripHopKeepingUpgrade headers).getAll name = (stripHopByHop headers).getAll name
  keepsUpgrade : (stripHopKeepingUpgrade headers).getAll upgrade = headers.getAll upgrade
  setsConnection : (stripHopKeepingUpgrade headers).getAll connection = [upgradeValue]
  recognised : ∀ method, isWebsocketUpgrade method headers = true →
    isWebsocketUpgrade method (stripHopKeepingUpgrade headers) = true

/-- The tokens that the two strips take out differ in `Upgrade` only. -/
theorem mem_tokensButUpgrade (documented : HeaderLibrary.Documented) {headers : HeaderMap}
    {name : HeaderName} :
    name ∈ (headers.getAll connection).flatMap tokensButUpgrade ↔
      TokenInConnection headers name ∧ name ≠ upgrade := by
  have token : ∀ t, tokenButUpgrade t = some name ↔
      (trim t ≠ [] ∧ HeaderLibrary.nameFromBytes (Utf8.encode (trim t)) = some name) ∧
        name ≠ upgrade := by
    intro t
    have other : HeaderLibrary.nameFromBytes (Utf8.encode (trim t)) = some name →
        (eqIgnoreAsciiCase (trim t) upgrade = true ↔ name = upgrade) := by
      intro named
      rw [eqIgnoreAsciiCase, decide_eq_true_eq, documented.lower _ _ named]
      rfl
    unfold tokenButUpgrade
    by_cases empty : trim t = []
    · simp [empty]
    · by_cases same : eqIgnoreAsciiCase (trim t) upgrade = true
      · rw [if_pos (by simp [same])]
        refine iff_of_false (by simp) ?_
        exact fun ⟨⟨_, named⟩, different⟩ => different ((other named).mp same)
      · rw [if_neg (by simp [empty, same])]
        exact ⟨fun named => ⟨⟨empty, named⟩, fun e => same ((other named).mpr e)⟩,
          fun h => h.1.2⟩
  have tokens : ∀ value, name ∈ tokensButUpgrade value ↔
      (∃ s, HeaderLibrary.valueToStr value = some s ∧ ∃ t ∈ s.splitOn ',', trim t ≠ [] ∧
        HeaderLibrary.nameFromBytes (Utf8.encode (trim t)) = some name) ∧ name ≠ upgrade := by
    intro value
    unfold tokensButUpgrade
    cases HeaderLibrary.valueToStr value with
    | none => simp
    | some s =>
      simp only [List.mem_filterMap, token, Option.some_inj, exists_eq_left']
      tauto
  simp only [List.mem_flatMap, tokens, TokenInConnection]
  tauto

theorem getAll_stripHopKeepingUpgrade (documented : HeaderLibrary.Documented)
    (headers : HeaderMap) (name : HeaderName) :
    (stripHopKeepingUpgrade headers).getAll name =
      if name = connection then [upgradeValue]
      else if name = upgrade then headers.getAll upgrade
      else (stripHopByHop headers).getAll name := by
  have hop : name ∈ hopByHop.filter (fun n => ¬ (n = connection ∨ n = upgrade)) ↔
      name ∈ hopByHop ∧ name ≠ connection ∧ name ≠ upgrade := by
    simp
  rw [stripHopKeepingUpgrade, HeaderMap.getAll_insert]
  by_cases end_ : name = connection
  · rw [if_pos end_, if_pos end_]
  rw [if_neg end_, if_neg end_, HeaderMap.getAll_foldl_remove, HeaderMap.getAll_foldl_remove]
  by_cases kept : name = upgrade
  · subst kept
    rw [if_pos rfl, if_neg fun h => (hop.mp h).2.2 rfl,
      if_neg fun h => ((mem_tokensButUpgrade documented).mp h).2 rfl]
  · rw [if_neg kept, getAll_stripped]
    simp only [hop, mem_tokensButUpgrade documented]
    by_cases listed : name ∈ hopByHop <;> by_cases named : TokenInConnection headers name <;>
      simp [listed, named, kept, end_]

theorem isWebsocketUpgrade_kept (documented : HeaderLibrary.Documented) {headers : HeaderMap}
    {method : String} (recognised : isWebsocketUpgrade method headers = true) :
    isWebsocketUpgrade method (stripHopKeepingUpgrade headers) = true := by
  have kept : (stripHopKeepingUpgrade headers).get upgrade = headers.get upgrade := by
    rw [HeaderMap.get, getAll_stripHopKeepingUpgrade documented, if_neg (by decide), if_pos rfl]
    rfl
  have sent : (stripHopKeepingUpgrade headers).getAll connection = [upgradeValue] := by
    rw [getAll_stripHopKeepingUpgrade documented, if_pos rfl]
  have read : HeaderLibrary.valueToStr upgradeValue = some "Upgrade".toList := by
    rw [documented.text upgradeValue (by decide +kernel)]
    decide
  unfold isWebsocketUpgrade at recognised ⊢
  split
  · next other => simp [other] at recognised
  · next get =>
    rw [if_neg get] at recognised
    simp only [Bool.and_eq_true] at recognised
    simp only [kept, sent, List.any_cons, List.any_nil, read, Bool.and_eq_true]
    exact ⟨recognised.1, by decide⟩

/-- Both strips take away what belongs to the hop and nothing else, and the handshake stays
recognisable. -/
theorem stripsExactly_of_documented (documented : HeaderLibrary.Documented) {headers : HeaderMap}
    (names : ∀ e ∈ headers, IsHeaderName e.1)
    (visible : ∀ value ∈ headers.getAll connection, VisibleAscii value) :
    StripsExactly headers := by
  refine ⟨fun name => ?_, fun name end_ other => ?_, ?_, ?_,
    fun _ => isWebsocketUpgrade_kept documented⟩
  · rw [getAll_stripped]
    by_cases isName : IsHeaderName name
    · simp only [tokenInConnection_iff documented visible isName]
    · simp [getAll_eq_nil names isName]
  · rw [getAll_stripHopKeepingUpgrade documented, if_neg end_, if_neg other]
  · rw [getAll_stripHopKeepingUpgrade documented, if_neg (by decide), if_pos rfl]
  · rw [getAll_stripHopKeepingUpgrade documented, if_pos rfl]

end Documented

section Cases

/-- The characters of a token. -/
def isTokenChar (c : Char) : Bool := c.isAlphanum || "!#$%&'*+-.^_`|~".toList.contains c

theorem isTokenChar_toLower (c : Char) : isTokenChar c.toLower = isTokenChar c := by
  by_cases upper : c.val ≥ 'A'.val ∧ c.val ≤ 'Z'.val
  · have letters : ∀ n ∈ List.range' 65 26,
        isTokenChar (Char.ofNat n).toLower = isTokenChar (Char.ofNat n) := by decide
    have low : 65 ≤ c.toNat := UInt32.le_iff_toNat_le.mp upper.1
    have high : c.toNat ≤ 90 := UInt32.le_iff_toNat_le.mp upper.2
    have letter := letters c.toNat (List.mem_range'_1.mpr ⟨low, by omega⟩)
    rwa [Char.ofNat_toNat] at letter
  · have same : c.toLower = c := dif_neg upper
    rw [same]

/-- Names are tokens, and text is visible ASCII. -/
@[reducible] def tokenHttp : HeaderLibrary where
  nameFromBytes bs := (Utf8.fromUtf8 bs).bind fun t =>
    if t ≠ [] ∧ t.all isTokenChar = true then some (toAsciiLowercase t) else none
  valueFromStr t :=
    if (Utf8.encode t).all fun b => (0x20 ≤ b && b < 0x7F) || b = 0x09 then some (Utf8.encode t)
    else none
  valueToStr v :=
    if v.all fun b => (0x20 ≤ b && b < 0x7F) || b = 0x09 then some (Utf8.ascii v) else none

attribute [local instance] tokenHttp

theorem nameFromBytes_encode (t : List Char) :
    HeaderLibrary.nameFromBytes (Utf8.encode t) =
      if toAsciiLowercase t ≠ [] ∧ (toAsciiLowercase t).all isTokenChar = true then
        some (toAsciiLowercase t)
      else none := by
  have chars : (toAsciiLowercase t).all isTokenChar = t.all isTokenChar := by
    rw [toAsciiLowercase, List.all_map]
    exact congrArg t.all (funext isTokenChar_toLower)
  have empty : toAsciiLowercase t = [] ↔ t = [] := List.map_eq_nil_iff
  show ((Utf8.fromUtf8 (Utf8.encode t)).bind fun t => _) = _
  rw [Utf8.fromUtf8_encode, Option.bind_some, chars]
  simp only [ne_eq, empty]

theorem tokenHttp_documented : HeaderLibrary.Documented where
  some_ := rfl
  lower t name named := by
    rw [nameFromBytes_encode] at named
    exact (Option.some.inj (Option.ite_none_right_eq_some.mp named).2)
  caseless s t same := by rw [nameFromBytes_encode, nameFromBytes_encode, same]
  text v visible := by
    refine if_pos (List.all_eq_true.mpr fun b hb => ?_)
    have range := visible b hb
    simp only [Bool.or_eq_true, Bool.and_eq_true, decide_eq_true_eq, UInt8.le_iff_toNat_le,
      UInt8.lt_iff_toNat_lt, ← UInt8.toNat_inj]
    exact range

theorem tokenHttp_visibleText : HeaderLibrary.VisibleText where
  toDocumented := tokenHttp_documented
  visible := by
    intro v s text b hb
    obtain ⟨letters, -⟩ := Option.ite_none_right_eq_some.mp text
    have letter := List.all_eq_true.mp letters b hb
    simpa [UInt8.le_iff_toNat_le, UInt8.lt_iff_toNat_lt, ← UInt8.toNat_inj] using letter

/-- A handshake whose client names headers of its own, over two `Connection` lines. -/
def handshake : HeaderMap :=
  [("connection", "keep-alive, X-Secret"), ("connection", " ,Upgrade"), ("upgrade", "websocket"),
    ("keep-alive", "timeout=5"), ("x-secret", "1"), ("x-real", "2"), ("x-real", "3")].map fun e =>
    (e.1.toList, Utf8.encode e.2.toList)

theorem stripsExactly_handshake : StripsExactly handshake :=
  stripsExactly_of_documented tokenHttp_documented (by decide +kernel) (by decide +kernel)

end Cases

end Tailfin
