import Tailfin.Proxy.HandBack
import Tailfin.Proxy.Upgrade

/-!
# Sending a request on

What `relay_inner` and `relay_ws` make of a request before it goes to the upstream, and the text
that `http_handshake` writes to a socket. The client's body and its end-to-end headers go on as
they are; the host and the place to connect to are the upstream's, whatever the request says.
-/

namespace Tailfin

open Text

/-- A request as it is received, or as the client of `hyper` is given it. -/
structure HttpRequest where
  method : String
  uri : Uri
  headers : HeaderMap
  body : List UInt8
  deriving DecidableEq, Repr

def host : HeaderName := "host".toList

def acceptEncoding : HeaderName := "accept-encoding".toList

section Forward

variable [HttpLibrary] [HeaderLibrary]

/-- Name the authority of the new URI as the host. -/
def setHost (uri : Uri) (headers : HeaderMap) : Option HeaderMap :=
  match uri.authority with
  | some auth => (HttpLibrary.headerValue auth).map fun v => headers.insert host (Utf8.encode v)
  | none => some headers

/-- The upstream request of `relay_inner`. -/
def forwardPlain (upstream : Uri) (req : HttpRequest) : Option HttpRequest := do
  let uri ← rewriteUri upstream req.uri
  let headers := (stripHopByHop req.headers).remove acceptEncoding
  let headers ← setHost uri headers
  return { method := req.method, uri, headers := headers.remove contentLength, body := req.body }

/-- The upstream request of `relay_ws` where the upstream is not tunneled to. -/
def forwardUpgrade (upstream : Uri) (req : HttpRequest) : Option HttpRequest := do
  let headers := (stripHopKeepingUpgrade req.headers).remove contentLength
  let uri ← rewriteUri upstream req.uri
  let headers ← setHost uri headers
  return { method := req.method, uri, headers, body := [] }

/-! ## The text of a handshake -/

/-- The path that `relay_ws` hands to `http_handshake`. -/
def handshakePath (upstream reqUri : Uri) : List Char :=
  let reqPq := reqUri.pathAndQuery.getD ['/']
  match rewriteUri upstream reqUri with
  | some u => u.pathAndQuery.getD reqPq
  | none => reqPq

/-- `{host}:{port}`, or the host alone for port 80. -/
def hostHeader (name : List Char) (port : UInt16) : List Char :=
  if port = 80 then name else name ++ ':' :: (toString port.toNat).toList

/-- The line of a header, if its value is text. -/
def headerLine (e : HeaderName × HeaderValue) : Option (List Char) :=
  if eqIgnoreAsciiCase e.1 host || eqIgnoreAsciiCase e.1 contentLength then none
  else (HeaderLibrary.valueToStr e.2).map fun v => e.1 ++ ": ".toList ++ v

def requestLine (path : List Char) : List Char := "GET ".toList ++ path ++ " HTTP/1.1".toList

/-- The lines that `http_handshake` writes, without their ends. -/
def handshakeLines (hostHdr path : List Char) (headers : HeaderMap) : List (List Char) :=
  requestLine path :: ("Host: ".toList ++ hostHdr) :: (headers.filterMap headerLine ++
    (if (headers.get connection).isNone then ["Connection: Upgrade".toList] else []) ++
    (if (headers.get upgrade).isNone then ["Upgrade: websocket".toList] else []))

/-- What `http_handshake` writes to the socket. -/
def handshakeText (hostHdr path : List Char) (headers : HeaderMap) : List UInt8 :=
  Utf8.encode ((handshakeLines hostHdr path headers).flatMap (· ++ ['\r', '\n']) ++ ['\r', '\n'])

/-- A request line and headers off a socket, read as `http_handshake` reads an answer. -/
def readRequest (socket : List UInt8) : Option (List Char × HeaderMap) := do
  let head ← readHead [] socket
  let lines := splitCrlf (Utf8.lossy head)
  return (lines.headD [], (lines.tail.filter fun line => !line.isEmpty).filterMap parseField)

end Forward

/-! ## What the crates document -/

/-- A parsed path is the text without a fragment, and the parts of a URI are what it was made
from. -/
structure HttpLibrary.Documented [HttpLibrary] : Prop where
  path : ∀ t pq, HttpLibrary.parsePathAndQuery t = some pq → t ≠ [] → '#' ∉ t → pq = t
  parts : ∀ u v, HttpLibrary.fromParts u = some v →
    v.scheme = u.scheme ∧ v.authority = u.authority ∧ v.pathAndQuery = u.pathAndQuery
  value : ∀ t v, HttpLibrary.headerValue t = some v → v = t

/-- Names are tokens, the standard ones among them, and what is text can be made a value again. -/
structure HeaderLibrary.Checked [HeaderLibrary] : Prop extends HeaderLibrary.VisibleText where
  standard : IsHeaderName host ∧ IsHeaderName connection ∧ IsHeaderName upgrade
  token : ∀ bs name, HeaderLibrary.nameFromBytes bs = some name →
    bs ≠ [] ∧ Visible bs ∧ 0x3A ∉ bs
  value : ∀ v, VisibleAscii v → HeaderLibrary.valueFromStr (Utf8.ascii v) = some v

/-- What the accessors of a parsed URI answer. -/
structure Uri.Parsed (u : Uri) : Prop where
  path : '#' ∉ u.path ∧ Unbroken (Utf8.encode u.path)
  some_ : ∀ pq, u.pathAndQuery = some pq → pq ≠ [] ∧ '#' ∉ pq ∧ Unbroken (Utf8.encode pq)

/-! ## Where a request is sent -/

/-- The request goes to the upstream, to the path below its own. -/
structure SentTo (upstream : Uri) (req r : HttpRequest) : Prop where
  method : r.method = req.method
  scheme : r.uri.scheme = upstream.scheme
  authority : r.uri.authority = upstream.authority
  path : r.uri.pathAndQuery =
    some (trimEndMatches (· = '/') upstream.path ++ req.uri.pathAndQuery.getD ['/'])

section Uris

variable [HttpLibrary]

omit [HttpLibrary] in
theorem Uri.Parsed.getD {u : Uri} (h : u.Parsed) : u.pathAndQuery.getD ['/'] ≠ [] ∧
    '#' ∉ u.pathAndQuery.getD ['/'] ∧ Unbroken (Utf8.encode (u.pathAndQuery.getD ['/'])) := by
  cases given : u.pathAndQuery with
  | none => exact ⟨by simp, by simp, by unfold Unbroken; decide +kernel⟩
  | some pq => exact h.some_ pq given

omit [HttpLibrary] in
theorem Uri.Parsed.trimmed {u : Uri} (h : u.Parsed) :
    '#' ∉ trimEndMatches (· = '/') u.path ∧
      Unbroken (Utf8.encode (trimEndMatches (· = '/') u.path)) := by
  obtain ⟨w, split⟩ : ∃ w, trimEndMatches (· = '/') u.path ++ w = u.path := by
    refine ⟨(u.path.reverse.takeWhile (· = '/')).reverse, ?_⟩
    rw [trimEndMatches, ← List.reverse_append, List.takeWhile_append_dropWhile, List.reverse_reverse]
  obtain ⟨plain, unbroken⟩ := h.path
  rw [← split] at plain unbroken
  rw [Utf8.encode_append] at unbroken
  exact ⟨fun mem => plain (List.mem_append_left _ mem),
    fun b hb => unbroken b (List.mem_append_left _ hb)⟩

theorem rewriteUri_eq_some (documented : HttpLibrary.Documented) {upstream reqUri uri : Uri}
    (base : upstream.Parsed) (asked : reqUri.Parsed) (h : rewriteUri upstream reqUri = some uri) :
    uri.scheme = upstream.scheme ∧ uri.authority = upstream.authority ∧
      uri.pathAndQuery =
        some (trimEndMatches (· = '/') upstream.path ++ reqUri.pathAndQuery.getD ['/']) := by
  obtain ⟨given, plain, -⟩ := asked.getD
  have trimmed := base.trimmed.1
  have joined : ∀ path, path ≠ [] → '#' ∉ path → ((HttpLibrary.parsePathAndQuery path).bind
      fun pq => HttpLibrary.fromParts { upstream with pathAndQuery := some pq }) = some uri →
      uri.scheme = upstream.scheme ∧ uri.authority = upstream.authority ∧
        uri.pathAndQuery = some path := by
    intro path some_ plain parses
    obtain ⟨pq, parsed, made⟩ := Option.bind_eq_some_iff.mp parses
    rw [documented.path path pq parsed some_ plain] at made
    exact documented.parts _ uri made
  rw [rewriteUri] at h
  split at h
  · next root =>
    have nothing : trimEndMatches (· = '/') upstream.path = [] := by
      rcases (Bool.or_eq_true _ _).mp root with empty | slash
      · rw [List.isEmpty_iff.mp empty]
        rfl
      · rw [of_decide_eq_true slash]
        rfl
    rw [nothing, List.nil_append]
    exact joined _ given plain h
  · split at h
    · exact joined _ (by simp [given]) (by simp [trimmed, plain]) h
    · cases h

/-- The path that is asked for over a socket is the one of the rewritten URI. -/
theorem handshakePath_of_rewriteUri (documented : HttpLibrary.Documented) {upstream reqUri : Uri}
    (base : upstream.Parsed) (asked : reqUri.Parsed) : (∀ uri, rewriteUri upstream reqUri = some uri →
      handshakePath upstream reqUri =
        trimEndMatches (· = '/') upstream.path ++ reqUri.pathAndQuery.getD ['/']) ∧
    Unbroken (Utf8.encode (handshakePath upstream reqUri)) := by
  rw [handshakePath]
  cases moved : rewriteUri upstream reqUri with
  | none => exact ⟨nofun, asked.getD.2.2⟩
  | some uri =>
    have path : uri.pathAndQuery.getD (reqUri.pathAndQuery.getD ['/']) =
        trimEndMatches (· = '/') upstream.path ++ reqUri.pathAndQuery.getD ['/'] := by
      rw [(rewriteUri_eq_some documented base asked moved).2.2, Option.getD_some]
    refine ⟨fun _ _ => path, fun b hb => ?_⟩
    simp only [path, Utf8.encode_append, List.mem_append] at hb
    rcases hb with hb | hb
    · exact base.trimmed.2 b hb
    · exact asked.getD.2.2 b hb

theorem setHost_eq_some (documented : HttpLibrary.Documented) {uri : Uri} {auth : List Char}
    {headers headers' : HeaderMap} (named : uri.authority = some auth)
    (h : setHost uri headers = some headers') (name : HeaderName) :
    headers'.getAll name = if name = host then [Utf8.encode auth] else headers.getAll name := by
  rw [setHost, named] at h
  obtain ⟨v, value, rfl⟩ := Option.map_eq_some_iff.mp h
  obtain rfl := documented.value auth v value
  exact HeaderMap.getAll_insert headers host _ name

variable [HeaderLibrary]

theorem forwardPlain_spec (documented : HttpLibrary.Documented) (texts : HeaderLibrary.VisibleText)
    {upstream : Uri} {auth : List Char} (named : upstream.authority = some auth)
    (base : upstream.Parsed) {req r : HttpRequest} (asked : req.uri.Parsed)
    (names : ∀ e ∈ req.headers, IsHeaderName e.1) (sent : forwardPlain upstream req = some r) :
    SentTo upstream req r ∧ r.body = req.body ∧ ∀ name, r.headers.getAll name =
      if name = host then [Utf8.encode auth]
      else if name = acceptEncoding ∨ TakenAway req.headers name then []
      else req.headers.getAll name := by
  simp only [forwardPlain, Option.bind_eq_bind, Option.bind_eq_some_iff] at sent
  obtain ⟨uri, moved, headers, hosted, made⟩ := sent
  obtain rfl := Option.some_inj.mp made
  obtain ⟨scheme, authority, path⟩ := rewriteUri_eq_some documented base asked moved
  refine ⟨⟨rfl, scheme, authority, path⟩, rfl, fun name => ?_⟩
  have there := setHost_eq_some documented (authority.trans named) hosted
  rw [HeaderMap.getAll_remove, there, HeaderMap.getAll_remove, getAll_stripHopByHop texts names]
  by_cases isHost : name = host
  · subst isHost
    rw [if_neg (by decide), if_pos rfl, if_pos rfl]
  · rw [if_neg isHost, if_neg isHost]
    by_cases length : name = contentLength <;> by_cases encoding : name = acceptEncoding <;>
      by_cases hop : name ∈ hopByHop ∨ ListedInText req.headers name <;>
      simp [length, encoding, hop, TakenAway]

theorem forwardUpgrade_spec (documented : HttpLibrary.Documented)
    (texts : HeaderLibrary.VisibleText) {upstream : Uri} {auth : List Char}
    (named : upstream.authority = some auth) (base : upstream.Parsed) {req r : HttpRequest}
    (asked : req.uri.Parsed) (names : ∀ e ∈ req.headers, IsHeaderName e.1)
    (sent : forwardUpgrade upstream req = some r) :
    SentTo upstream req r ∧ r.body = [] ∧ ∀ name, r.headers.getAll name =
      if name = host then [Utf8.encode auth]
      else if name = connection then [upgradeValue]
      else if name = upgrade then req.headers.getAll upgrade
      else if TakenAway req.headers name then []
      else req.headers.getAll name := by
  simp only [forwardUpgrade, Option.bind_eq_bind, Option.bind_eq_some_iff] at sent
  obtain ⟨uri, moved, headers, hosted, made⟩ := sent
  obtain rfl := Option.some_inj.mp made
  obtain ⟨scheme, authority, path⟩ := rewriteUri_eq_some documented base asked moved
  refine ⟨⟨rfl, scheme, authority, path⟩, rfl, fun name => ?_⟩
  have there := setHost_eq_some documented (authority.trans named) hosted
  rw [there, HeaderMap.getAll_remove, getAll_stripHopKeepingUpgrade texts.toDocumented]
  have length₁ : connection ≠ contentLength := by decide
  have length₂ : upgrade ≠ contentLength := by decide
  by_cases isHost : name = host
  · rw [if_pos isHost, if_pos isHost]
  rw [if_neg isHost, if_neg isHost]
  by_cases isConnection : name = connection
  · simp [isConnection, length₁]
  by_cases isUpgrade : name = upgrade
  · simp [isUpgrade, length₂]
  rw [if_neg isConnection, if_neg isUpgrade, if_neg isConnection, if_neg isUpgrade,
    getAll_stripHopByHop texts names]
  by_cases length : name = contentLength <;>
    by_cases hop : name ∈ hopByHop ∨ ListedInText req.headers name <;>
    simp [length, hop, TakenAway]

omit [HttpLibrary] in
theorem isWebsocketUpgrade_congr {h h' : HeaderMap}
    (websocket : (h.get upgrade).bind HeaderLibrary.valueToStr =
      (h'.get upgrade).bind HeaderLibrary.valueToStr)
    (asked : h.getAll connection = h'.getAll connection) (method : String) :
    isWebsocketUpgrade method h = isWebsocketUpgrade method h' := by
  simp only [isWebsocketUpgrade, websocket, asked]

/-- A call is sent if its upstream request can be built, whatever headers it has. -/
theorem prepares_eq (p : Proxy) (req : Request) (r : HttpRequest) (same : r.uri = req.uri) :
    p.prepares req =
      if req.websocket then
        if p.tunnels then p.upstream.host.isSome else (forwardUpgrade p.upstream r).isSome
      else (forwardPlain p.upstream r).isSome := by
  have hosts : ∀ (uri : Uri) (headers : HeaderMap), (setHost uri headers).isSome =
      uri.authority.all fun auth => (HttpLibrary.headerValue auth).isSome := by
    intro uri headers
    rw [setHost]
    cases uri.authority <;> simp
  have plain : (forwardPlain p.upstream r).isSome = (rewriteUri p.upstream req.uri).any fun uri =>
      uri.authority.all fun auth => (HttpLibrary.headerValue auth).isSome := by
    rw [forwardPlain, same]
    cases rewriteUri p.upstream req.uri with
    | none => rfl
    | some uri =>
      rw [Option.any_some, ← hosts uri ((stripHopByHop r.headers).remove acceptEncoding)]
      simp only [Option.bind_eq_bind, Option.bind_some]
      generalize setHost uri ((stripHopByHop r.headers).remove acceptEncoding) = headers
      cases headers <;> rfl
  have upgraded : (forwardUpgrade p.upstream r).isSome =
      (rewriteUri p.upstream req.uri).any fun uri =>
        uri.authority.all fun auth => (HttpLibrary.headerValue auth).isSome := by
    rw [forwardUpgrade, same]
    cases rewriteUri p.upstream req.uri with
    | none => rfl
    | some uri =>
      rw [Option.any_some, ← hosts uri ((stripHopKeepingUpgrade r.headers).remove contentLength)]
      simp only [Option.bind_eq_bind, Option.bind_some]
      generalize setHost uri ((stripHopKeepingUpgrade r.headers).remove contentLength) = headers
      cases headers <;> rfl
  rw [Proxy.prepares, plain, upgraded]
  cases req.websocket <;> cases p.tunnels <;> rfl

/-- Through the client of `hyper` the request goes to the upstream and nowhere else, with its own
method and path, the body of a plain request, and every header that is not taken away. An upgrade
is still an upgrade. -/
structure ForwardsExactly (upstream : Uri) (auth : List Char) (req : HttpRequest) : Prop where
  plain : ∀ r, forwardPlain upstream req = some r →
    SentTo upstream req r ∧ r.body = req.body ∧ ∀ name, r.headers.getAll name =
      if name = host then [Utf8.encode auth]
      else if name = acceptEncoding ∨ TakenAway req.headers name then []
      else req.headers.getAll name
  upgrade : ∀ r, forwardUpgrade upstream req = some r →
    SentTo upstream req r ∧ (isWebsocketUpgrade req.method req.headers = true →
      isWebsocketUpgrade r.method r.headers = true) ∧ ∀ name, r.headers.getAll name =
      if name = host then [Utf8.encode auth]
      else if name = connection then [upgradeValue]
      else if name = Tailfin.upgrade then req.headers.getAll Tailfin.upgrade
      else if TakenAway req.headers name then []
      else req.headers.getAll name
  /-- A call is sent where its upstream request can be built. -/
  sends : ∀ (p : Proxy) (call : Request), p.upstream = upstream → req.uri = call.uri →
    p.prepares call =
      if call.websocket then
        if p.tunnels then upstream.host.isSome else (forwardUpgrade upstream req).isSome
      else (forwardPlain upstream req).isSome

theorem forwards_exactly (documented : HttpLibrary.Documented)
    (texts : HeaderLibrary.VisibleText) {upstream : Uri} {auth : List Char}
    (named : upstream.authority = some auth) (base : upstream.Parsed) {req : HttpRequest}
    (asked : req.uri.Parsed) (names : ∀ e ∈ req.headers, IsHeaderName e.1) :
    ForwardsExactly upstream auth req := by
  constructor
  · intro r sent
    exact forwardPlain_spec documented texts named base asked names sent
  · intro r sent
    obtain ⟨goes, -, headers⟩ := forwardUpgrade_spec documented texts named base asked names sent
    refine ⟨goes, fun recognised => ?_, headers⟩
    have kept := isWebsocketUpgrade_kept texts.toDocumented recognised
    rw [← kept, goes.method]
    have strip := getAll_stripHopKeepingUpgrade texts.toDocumented req.headers
    apply isWebsocketUpgrade_congr
    · rw [HeaderMap.get, HeaderMap.get, headers, strip, if_neg (by decide), if_neg (by decide),
        if_pos rfl, if_neg (by decide), if_pos rfl]
    · rw [headers, strip, if_neg (by decide), if_pos rfl, if_pos rfl]
  · rintro p call rfl same
    exact prepares_eq p call req same

end Uris

section Cases

attribute [local instance] acceptingParsers tokenHttp

theorem acceptingParsers_documented : HttpLibrary.Documented where
  path := by
    intro t pq same _ _
    exact (Option.some_inj.mp same).symm
  parts := by
    intro u v same
    obtain rfl := Option.some_inj.mp same
    exact ⟨rfl, rfl, rfl⟩
  value := by
    intro t v same
    exact (Option.some_inj.mp same).symm

/-- An upstream below a path of its own. -/
def prefixedUpstream : Uri :=
  ⟨some "http", some "127.0.0.1:9".toList, some "127.0.0.1".toList, "/api/".toList,
    some "/api/".toList⟩

def askUpgrade : HttpRequest where
  method := "GET"
  uri := ⟨none, none, none, "/v1/responses".toList, some "/v1/responses?a=1".toList⟩
  headers := [("connection", "keep-alive, X-Secret, Upgrade"), ("upgrade", "websocket"),
    ("x-secret", "1"), ("x-real", "2"), ("host", "localhost:7171"), ("content-length", "0")].map
      fun e => (e.1.toList, Utf8.encode e.2.toList)
  body := []

theorem prefixedUpstream_parsed : prefixedUpstream.Parsed where
  path := ⟨by decide, by unfold Unbroken; decide +kernel⟩
  some_ := by
    intro pq same
    obtain rfl := Option.some_inj.mp same
    exact ⟨by decide, by decide, by unfold Unbroken; decide +kernel⟩

theorem askUpgrade_parsed : askUpgrade.uri.Parsed where
  path := ⟨by decide, by unfold Unbroken; decide +kernel⟩
  some_ := by
    intro pq same
    obtain rfl := Option.some_inj.mp same
    exact ⟨by decide, by decide, by unfold Unbroken; decide +kernel⟩

theorem forwards_exactly_askUpgrade :
    ForwardsExactly prefixedUpstream "127.0.0.1:9".toList askUpgrade :=
  forwards_exactly acceptingParsers_documented tokenHttp_visibleText rfl prefixedUpstream_parsed
    askUpgrade_parsed (by decide +kernel)

end Cases

end Tailfin
