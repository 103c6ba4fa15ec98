import Tailfin.Ident.SessionIndex
import Tailfin.Ledger.Record
import Tailfin.Library.Runs
import Tailfin.Tree.Arena

/-!
# Relaying requests

`relay_inner`, `relay_ws` and `finish_locked` of `tailfin-proxy`. A request is a call in a phase,
and one turn takes it from one point where others may run to the next: a lock that it takes, or
an answer that it awaits. Calls share the session index, the arena and the ledger, and take their
turns in any order. What the client, the upstream and the metering task do is part of a turn.
Appends to the ledger succeed, and the shadow index and the captures are left out: nothing here
reads them.
-/

namespace Tailfin

open Text

/-! ## Where a request goes -/

/-- `hyper::Uri`, by what its accessors answer. -/
structure Uri where
  scheme : Option String
  authority : Option (List Char)
  host : Option (List Char)
  path : List Char
  pathAndQuery : Option (List Char)
  deriving DecidableEq, Repr

/-- The parsers of `hyper`. -/
class HttpLibrary where
  /-- `str::parse::<PathAndQuery>`. -/
  parsePathAndQuery : List Char → Option (List Char)
  /-- `Uri::from_parts`. -/
  fromParts : Uri → Option Uri
  /-- `HeaderValue::from_str`. -/
  headerValue : List Char → Option (List Char)

/-- Join the request's path to the upstream's. -/
def rewriteUri [HttpLibrary] (upstream reqUri : Uri) : Option Uri := do
  let reqPq := reqUri.pathAndQuery.getD ['/']
  let base := upstream.path
  let path ←
    if base.isEmpty || base = ['/'] then some reqPq
    else if reqPq.head? = some '/' then some (trimEndMatches (· = '/') base ++ reqPq)
    else none
  let pq ← HttpLibrary.parsePathAndQuery path
  HttpLibrary.fromParts { upstream with pathAndQuery := some pq }

/-! ## Calls -/

structure Request extends ResolveCall where
  uri : Uri
  /-- What `is_websocket_upgrade` answers. -/
  websocket : Bool

/-- Claude Code's probe of the base URL. -/
def Request.isHello (req : Request) : Bool := req.uri.path = "/api/hello".toList

inductive Phase where
  /-- The body of a plain request is collected. -/
  | received
  | identified (ref : NodeRef) (captureId : Option String)
  /-- Begun, and denied. -/
  | refused (ref : NodeRef)
  | stopping (ref : NodeRef) (style : StopStyle)
  /-- Begun, and not denied. -/
  | admitted (ref : NodeRef) (captureId : Option String)
  /-- The upstream is asked. -/
  | sending (ref : NodeRef) (captureId : Option String)
  /-- Answered, with a spawned task that meters the rest. -/
  | metering (ref : NodeRef) (captureId : Option String)
  /-- The handler is gone, and nothing will call `finish_locked`. -/
  | abandoned (ref : NodeRef)
  | ended
  deriving DecidableEq, Repr

structure Call where
  req : Request
  phase : Phase

/-- What happens to a call between two points where others may run. -/
inductive Turn where
  /-- The handler runs on, at the time `now`. -/
  | go (now : Nat)
  /-- The body of the request cannot be read. -/
  | bodyError
  | upstream (status now : Nat)
  /-- The upstream cannot be reached, or breaks the handshake. -/
  | upstreamError (now : Nat)
  /-- The metering task ends with what it has read. -/
  | metered (usage : Usage) (complete : Bool) (now : Nat)
  /-- The client does not complete the upgrade. -/
  | upgradeFailed (now : Nat)
  /-- The client goes away while the handler awaits, and the handler is dropped. -/
  | cancel

inductive RelayEvent where
  | arrive (req : Request)
  | turn (i : Nat) (t : Turn)

/-- What the client is answered. -/
inductive Answer where
  | hello
  | stop (style : StopStyle)
  | upstream (status : Nat)
  | badGateway
  deriving DecidableEq, Repr

/-- What a turn of call `i` does that others can see. -/
inductive Effect where
  /-- `Task::begin`, with the admission if one was asked for. -/
  | begun (i : Nat) (ref : NodeRef) (admission : Option Admission)
  /-- The upstream is asked. -/
  | sent (i : Nat)
  /-- `finish_locked`, with the record it makes. -/
  | finished (i : Nat) (record : Record)
  | answered (i : Nat) (answer : Answer)
  deriving DecidableEq, Repr

structure Proxy where
  upstream : Uri
  ident : SessionIndex
  arena : Arena
  ledger : Option (List Record)
  capture : Bool
  rates : Option RateCard
  calls : List Call

/-- `{millis}-{the first twelve letters and digits of the node}`. -/
def captureIdOf (millis : Nat) (node : String) : String :=
  toString millis ++ "-" ++ String.ofList ((node.toList.filter Char.isAlphanum).take 12)

def switchingProtocols : Nat := 101

namespace Proxy

/-- A proxy for an upstream that has a host. -/
def new (upstream : Uri) : Proxy where
  upstream := upstream
  ident := .new
  arena := .new
  ledger := none
  capture := false
  rates := none
  calls := []

def withBudget (p : Proxy) (ceilingMicros : UInt64) (rates : RateCard) (voucherShare : Option ℚ) :
    Proxy :=
  { p with arena := .budgeted ceilingMicros voucherShare, rates := some rates }

/-- Write to an empty ledger. -/
def withLedger (p : Proxy) : Proxy := { p with ledger := some [] }

def withCapture (p : Proxy) : Proxy := { p with capture := true }

/-- What `run` is given: a budget, whether to write a ledger, whether to capture. -/
structure Config where
  upstream : Uri
  budget : Option (UInt64 × RateCard × Option ℚ)
  ledger : Bool
  capture : Bool

/-- The proxy before its first request. -/
def Config.start (cfg : Config) : Proxy :=
  let p := new cfg.upstream
  let p := if cfg.ledger then p.withLedger else p
  let p := match cfg.budget with
    | some (ceilingMicros, rates, share) => p.withBudget ceilingMicros rates share
    | none => p
  if cfg.capture then p.withCapture else p

/-- The upstream's sockets are spliced on raw TCP. -/
def tunnels (p : Proxy) : Bool := p.upstream.scheme = some "http"

def setPhase (p : Proxy) (i : Nat) (phase : Phase) : Proxy :=
  { p with calls := p.calls.modify i fun c => { c with phase := phase } }

/-! ## Turns -/

def identify (p : Proxy) (i : Nat) (req : Request) (now : Nat) : Proxy × List Effect :=
  let resolved := p.ident.resolve req.headers (if req.websocket then none else req.digest)
  let captureId :=
    if req.websocket || !p.capture then none else some (captureIdOf now resolved.1.node)
  ({ p with ident := resolved.2 }.setPhase i (.identified resolved.1 captureId), [])

/-- `admit_at` for a plain request, where rates are configured. `relay_ws` does not ask. -/
def admission (p : Proxy) (req : Request) (ref : NodeRef) (t : Task) : Option Admission × Task :=
  if req.websocket then (none, t)
  else match p.rates with
    | some rates => ((t.admitAt ref rates).1, (t.admitAt ref rates).2)
    | none => (some .allow, t)

/-- A denied call is stopped, any other one is sent. -/
def phaseAfter (ref : NodeRef) (captureId : Option String) : Option Admission → Phase
  | some (.deny _ _) => .refused ref
  | _ => .admitted ref captureId

/-- `begin`, and the admission under the same lock. -/
def beginCall [FloatProduct] (p : Proxy) (i : Nat) (req : Request) (ref : NodeRef)
    (captureId : Option String) : Proxy × List Effect :=
  let asked := p.admission req ref ((p.arena.taskMut ref.root).begin ref none)
  ({ p with arena := p.arena.put ref.root asked.2 }.setPhase i (phaseAfter ref captureId asked.1),
    [.begun i ref asked.1])

def takeStop (p : Proxy) (i : Nat) (ref : NodeRef) : Proxy × List Effect :=
  let stopped := (p.arena.taskMut ref.root).takeStop
  ({ p with arena := p.arena.put ref.root stopped.2 }.setPhase i (.stopping ref stopped.1), [])

/-- `finish_locked`: the arena and the ledger. -/
def finishLocked (p : Proxy) (ref : NodeRef) (usage : Usage) (complete : Bool)
    (captureId : Option String) (now : Nat) : Proxy × Record :=
  let arena := p.arena.put ref.root ((p.arena.taskMut ref.root).finish ref usage complete)
  let peak := ((arena.get ref.root).map Task.peakConcurrency).getD 0
  let record := Record.fromFinish ref usage (!complete) peak now
  let record := match captureId with
    | some id => record.withCaptureId id
    | none => record
  ({ p with arena := arena, ledger := p.ledger.map (· ++ [record]) }, record)

/-- The last turn of a call: `finish_locked`, and an answer if none was given before. -/
def close (p : Proxy) (i : Nat) (ref : NodeRef) (usage : Usage) (complete : Bool)
    (captureId : Option String) (now : Nat) (answer : Option Answer) : Proxy × List Effect :=
  let done := p.finishLocked ref usage complete captureId now
  (done.1.setPhase i .ended, .finished i done.2 :: (answer.map (.answered i)).toList)

section Sending

variable [HttpLibrary]

/-- Nothing fails between the admission and the upstream: the upstream has a host to tunnel to,
or the request's URI can be rewritten and its authority is a header value. -/
def prepares (p : Proxy) (req : Request) : Bool :=
  if req.websocket && p.tunnels then p.upstream.host.isSome
  else (rewriteUri p.upstream req.uri).any fun uri =>
    uri.authority.all fun auth => (HttpLibrary.headerValue auth).isSome

/-- Prepare the upstream request and send it. The errors on the way are returned with `?`. -/
def send (p : Proxy) (i : Nat) (req : Request) (ref : NodeRef) (captureId : Option String) :
    Proxy × List Effect :=
  if p.prepares req then (p.setPhase i (.sending ref captureId), [.sent i])
  else (p.setPhase i (.abandoned ref), [.answered i .badGateway])

end Sending

def upstreamAnswered (p : Proxy) (i : Nat) (req : Request) (ref : NodeRef)
    (captureId : Option String) (status now : Nat) : Proxy × List Effect :=
  if req.websocket && p.tunnels && status ≠ switchingProtocols then
    p.close i ref default false none now (some (.upstream status))
  else (p.setPhase i (.metering ref captureId), [.answered i (.upstream status)])

/-- A failed handshake is returned with `?`, a failed request is finished first. -/
def upstreamFailed (p : Proxy) (i : Nat) (req : Request) (ref : NodeRef)
    (captureId : Option String) (now : Nat) : Proxy × List Effect :=
  if req.websocket && p.tunnels then
    (p.setPhase i (.abandoned ref), [.answered i .badGateway])
  else p.close i ref default false captureId now (some .badGateway)

variable [FloatProduct] [HttpLibrary]

/-- The turn `t` of call `i`. A turn that the call's phase does not allow does nothing. -/
def turn (p : Proxy) (i : Nat) (c : Call) (t : Turn) : Proxy × List Effect :=
  match c.phase, t with
  | .received, .go now => p.identify i c.req now
  | .received, .bodyError =>
    if c.req.websocket then (p, []) else (p.setPhase i .ended, [.answered i .badGateway])
  | .received, .cancel => if c.req.websocket then (p, []) else (p.setPhase i .ended, [])
  | .identified ref captureId, .go _ => p.beginCall i c.req ref captureId
  | .refused ref, .go _ => p.takeStop i ref
  | .stopping ref style, .go now => p.close i ref default true none now (some (.stop style))
  | .admitted ref captureId, .go _ => p.send i c.req ref captureId
  | .sending ref captureId, .upstream status now =>
    p.upstreamAnswered i c.req ref captureId status now
  | .sending ref captureId, .upstreamError now => p.upstreamFailed i c.req ref captureId now
  | .sending ref _, .cancel => (p.setPhase i (.abandoned ref), [])
  | .metering ref captureId, .metered usage complete now =>
    p.close i ref usage complete captureId now none
  | .metering ref _, .upgradeFailed now =>
    if c.req.websocket then p.close i ref default false none now none else (p, [])
  | _, _ => (p, [])

/-- One event of a run. -/
def step (p : Proxy) : RelayEvent → Proxy × List Effect
  | .arrive req =>
    ({ p with calls := p.calls ++ [⟨req, if req.isHello then .ended else .received⟩] },
      if req.isHello then [.answered p.calls.length .hello] else [])
  | .turn i t =>
    match p.calls[i]? with
    | some c => p.turn i c t
    | none => (p, [])

/-- The turn lets a handler leave without a finish: it returns an error after `begin`, or it is
dropped. -/
def turnLeaks (p : Proxy) (c : Call) (t : Turn) : Bool :=
  match c.phase, t with
  | .admitted _ _, .go _ => !p.prepares c.req
  | .sending _ _, .upstreamError _ => c.req.websocket && p.tunnels
  | .sending _ _, .cancel => true
  | _, _ => false

/-- What the turns of call `i` do, by its phase. -/
inductive TurnOutcome (p : Proxy) (i : Nat) (c : Call) : Turn → Proxy × List Effect → Prop
  | idle (t : Turn) : p.turnLeaks c t = false → TurnOutcome p i c t (p, [])
  | identified (now : Nat) : c.phase = .received →
      TurnOutcome p i c (.go now) (p.identify i c.req now)
  | unreadable : c.phase = .received →
      TurnOutcome p i c .bodyError (p.setPhase i .ended, [.answered i .badGateway])
  | unheard : c.phase = .received → TurnOutcome p i c .cancel (p.setPhase i .ended, [])
  | begun (ref : NodeRef) (captureId : Option String) (now : Nat) :
      c.phase = .identified ref captureId →
      TurnOutcome p i c (.go now) (p.beginCall i c.req ref captureId)
  | stopping (ref : NodeRef) (now : Nat) : c.phase = .refused ref →
      TurnOutcome p i c (.go now) (p.takeStop i ref)
  | stopped (ref : NodeRef) (style : StopStyle) (now : Nat) : c.phase = .stopping ref style →
      TurnOutcome p i c (.go now) (p.close i ref default true none now (some (.stop style)))
  | sent (ref : NodeRef) (captureId : Option String) (now : Nat) :
      c.phase = .admitted ref captureId →
      TurnOutcome p i c (.go now) (p.send i c.req ref captureId)
  | answered (ref : NodeRef) (captureId : Option String) (status now : Nat) :
      c.phase = .sending ref captureId →
      TurnOutcome p i c (.upstream status now)
        (p.upstreamAnswered i c.req ref captureId status now)
  | failed (ref : NodeRef) (captureId : Option String) (now : Nat) :
      c.phase = .sending ref captureId →
      TurnOutcome p i c (.upstreamError now) (p.upstreamFailed i c.req ref captureId now)
  | cancelled (ref : NodeRef) (captureId : Option String) : c.phase = .sending ref captureId →
      TurnOutcome p i c .cancel (p.setPhase i (.abandoned ref), [])
  | metered (ref : NodeRef) (captureId : Option String) (usage : Usage) (complete : Bool)
      (now : Nat) : c.phase = .metering ref captureId →
      TurnOutcome p i c (.metered usage complete now)
        (p.close i ref usage complete captureId now none)
  | downgraded (ref : NodeRef) (captureId : Option String) (now : Nat) :
      c.phase = .metering ref captureId →
      TurnOutcome p i c (.upgradeFailed now) (p.close i ref default false none now none)

theorem turn_outcome (p : Proxy) (i : Nat) (c : Call) (t : Turn) :
    TurnOutcome p i c t (p.turn i c t) := by
  obtain ⟨req, phase⟩ := c
  simp only [turn]
  cases phase with
  | received =>
    cases t with
    | go now => exact .identified now rfl
    | bodyError =>
      simp only
      split
      · exact .idle _ rfl
      · exact .unreadable rfl
    | cancel =>
      simp only
      split
      · exact .idle _ rfl
      · exact .unheard rfl
    | upstream | upstreamError | metered | upgradeFailed => exact .idle _ rfl
  | identified ref captureId =>
    cases t with
    | go now => exact .begun ref captureId now rfl
    | bodyError | cancel | upstream | upstreamError | metered | upgradeFailed =>
      exact .idle _ rfl
  | refused ref =>
    cases t with
    | go now => exact .stopping ref now rfl
    | bodyError | cancel | upstream | upstreamError | metered | upgradeFailed =>
      exact .idle _ rfl
  | stopping ref style =>
    cases t with
    | go now => exact .stopped ref style now rfl
    | bodyError | cancel | upstream | upstreamError | metered | upgradeFailed =>
      exact .idle _ rfl
  | admitted ref captureId =>
    cases t with
    | go now => exact .sent ref captureId now rfl
    | bodyError | cancel | upstream | upstreamError | metered | upgradeFailed =>
      exact .idle _ rfl
  | sending ref captureId =>
    cases t with
    | upstream status now => exact .answered ref captureId status now rfl
    | upstreamError now => exact .failed ref captureId now rfl
    | cancel => exact .cancelled ref captureId rfl
    | go | bodyError | metered | upgradeFailed => exact .idle _ rfl
  | metering ref captureId =>
    cases t with
    | metered usage complete now => exact .metered ref captureId usage complete now rfl
    | upgradeFailed now =>
      simp only
      split
      · exact .downgraded ref captureId now rfl
      · exact .idle _ rfl
    | go | bodyError | cancel | upstream | upstreamError => exact .idle _ rfl
  | abandoned ref | ended => exact .idle _ rfl

/-- What a run does, in order. -/
def effects (cfg : Config) (es : List RelayEvent) : List Effect :=
  (Runs.trace step cfg.start es).flatMap Runs.Entry.output

/-- What every step keeps of the proxy and of all that has been done so far. -/
theorem effects_invariant {J : Proxy → List Effect → Prop} (cfg : Config)
    (keep : ∀ p fx e, J p fx → J (p.step e).1 (fx ++ (p.step e).2)) (start : J cfg.start [])
    (es : List RelayEvent) : J (Runs.final step cfg.start es) (effects cfg es) := by
  refine Runs.history_invariant (P := fun _ _ => True)
    (J := fun p xs => J p (xs.flatMap Runs.Entry.output)) (fun p xs e h _ => ?_) start
    (Runs.steps_of_forall (fun _ _ => trivial) _ _)
  rw [List.flatMap_append, List.flatMap_singleton]
  exact keep p _ e h

end Proxy

/-! ## Samples -/

/-- Parsers that accept everything. -/
@[reducible] def acceptingParsers : HttpLibrary := ⟨some, some, some⟩

/-- A plain-text upstream. -/
def sampleUpstream : Uri :=
  ⟨some "http", some "127.0.0.1:9".toList, some "127.0.0.1".toList, ['/'], some ['/']⟩

/-- A request of session `s`, from its main thread or from an agent. -/
def sampleRequest (agent : Option String) (websocket : Bool) : Request where
  headers name :=
    if name = "x-claude-code-session-id" then some "s"
    else if name = "x-claude-code-agent-id" then agent
    else none
  messages := none
  uri := ⟨none, none, none, "/v1/messages".toList, some "/v1/messages".toList⟩
  websocket := websocket

end Tailfin
