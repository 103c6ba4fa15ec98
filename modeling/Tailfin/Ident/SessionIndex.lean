import Tailfin.Ident.NodeRef
import Tailfin.Ident.PrefixDigest
import Tailfin.Library.Text

/-!
# Resolving requests

`from_headers` and `SessionIndex` of `tailfin-ident`. A request that declares its identity keeps
it; another one joins the live session whose digest matches its own best, or opens a session; one
without a digest gets a root of its own. The session counter, a `u64` in the source, is a `Nat`:
no index reaches `2 ^ 64` sessions.
-/

namespace Tailfin

open Text

/-- Minimal view of request headers. -/
abbrev Headers := String → Option String

/-- The string literal that starts behind a quote, `escaped` telling whether a backslash came
just before. -/
def readString : List Char → Bool → List Char → Option (List Char)
  | [], _, _ => none
  | c :: cs, escaped, out =>
    if escaped then readString cs false (out ++ [c])
    else if c = '\\' then readString cs true out
    else if c = '"' then some out
    else readString cs false (out ++ [c])

/-- Pull `"key":"value"` out of flat JSON. -/
def scrapeJsonString (hay : List Char) (key : String) : Option (List Char) := do
  let rest ← afterFirst ('"' :: key.toList ++ ['"']) hay
  let after ← afterFirst [':'] rest
  match trimStart after with
  | '"' :: chars => readString chars false []
  | _ => none

/-- Extract the three fields of Codex's turn-metadata blob. -/
def parseCodexMetadata (raw : String) : Option IdentitySource := do
  let scrape key := (scrapeJsonString raw.toList key).map String.ofList
  let root ← (scrape "root_turn_id").or (scrape "session_id")
  return .declared root (scrape "turn_id") (scrape "parent_turn_id")

/-- Read declared identity from headers. -/
def fromHeaders (h : Headers) : Option IdentitySource :=
  match h "x-claude-code-session-id" with
  | some session =>
    some (.declared session (h "x-claude-code-agent-id") (h "x-claude-code-parent-agent-id"))
  | none => (h "x-codex-turn-metadata").bind parseCodexMetadata

/-- A live conversation. -/
structure Live where
  root : String
  digest : PrefixDigest
  /-- Deepest digest seen for this session. -/
  depthSeen : Nat
  deriving DecidableEq, Repr

/-- Tracks live conversations so undeclared requests can be attached to one. -/
structure SessionIndex where
  live : List Live
  minLevelIdx : Nat
  /-- The sessions so far, fewer than `2 ^ 64`. -/
  next : Nat
  deriving DecidableEq, Repr

/-- `format!("{:06}", n)`. -/
def sixDigits (n : Nat) : List Char :=
  List.replicate (6 - (Nat.toDigits 10 n).length) '0' ++ Nat.toDigits 10 n

def inferredRoot (n : Nat) : String := String.ofList ("inferred-".toList ++ sixDigits n)

def anonRoot (n : Nat) : String := String.ofList ("anon-".toList ++ sixDigits n)

namespace SessionIndex

def new : SessionIndex := ⟨[], 1, 0⟩

/-- Require a deeper shared prefix before joining. -/
def withMinLevel (s : SessionIndex) (idx : Nat) : SessionIndex :=
  { s with minLevelIdx := min idx 5 }

/-- The loop that looks for the best match: a live index and a level index. -/
def findBest (d : PrefixDigest) (minLevelIdx : Nat) :
    List Live → Nat → Option (Nat × Nat) → Option (Nat × Nat)
  | [], _, best => best
  | live :: rest, i, best =>
    match live.digest.matchLevel d with
    | some lv =>
      if lv ≥ minLevelIdx ∧ best.all (fun b => lv > b.2) then
        findBest d minLevelIdx rest (i + 1) (some (i, lv))
      else findBest d minLevelIdx rest (i + 1) best
    | none => findBest d minLevelIdx rest (i + 1) best

def anonymous (s : SessionIndex) : NodeRef × SessionIndex :=
  (.undeclared (anonRoot (s.next + 1)) .anonymous, { s with next := s.next + 1 })

/-- A request joins the live session at `i`, whose digest it replaces if it is the first one to
share that much. -/
def join (s : SessionIndex) (i lv : Nat) (d : PrefixDigest) : NodeRef × SessionIndex :=
  let shared := (levels[lv]?).getD 0
  let root := ((s.live[i]?).map Live.root).getD ""
  (.undeclared root (.inferred shared),
    { s with
      live := s.live.modify i fun l =>
        if shared > l.depthSeen then { l with depthSeen := shared, digest := d } else l })

/-- A request opens a session of its own. -/
def openSession (s : SessionIndex) (d : PrefixDigest) : NodeRef × SessionIndex :=
  (.undeclared (inferredRoot (s.next + 1)) (.inferred 0),
    { s with live := s.live ++ [⟨inferredRoot (s.next + 1), d, 0⟩], next := s.next + 1 })

/-- Resolve a request to a node, declared identity taking precedence. -/
def resolve (s : SessionIndex) (headers : Headers) (digest : Option PrefixDigest) :
    NodeRef × SessionIndex :=
  match fromHeaders headers with
  | some (.declared session node parent) => (.declared session node parent, s)
  | _ =>
    match digest with
    | none => s.anonymous
    | some d =>
      match findBest d s.minLevelIdx s.live 0 none with
      | some (i, lv) => s.join i lv d
      | none => s.openSession d

end SessionIndex

/-- A request as it reaches the index, with the messages its digest is built from. -/
structure ResolveCall where
  headers : Headers
  messages : Option (List (List UInt8))

/-- The digest is built from the messages. -/
def ResolveCall.digest (c : ResolveCall) : Option PrefixDigest :=
  c.messages.map PrefixDigest.fromMessages

/-- One request, resolved with its own digest. -/
def SessionIndex.step (s : SessionIndex) (c : ResolveCall) : SessionIndex × NodeRef :=
  ((s.resolve c.headers c.digest).2, (s.resolve c.headers c.digest).1)

end Tailfin
