import Tailfin.Library.Runs
import Tailfin.Proxy.HandBack
import Tailfin.Proxy.WsMeter

/-!
# The tunnel

`splice_tcp` and `splice` of `tailfin-proxy`: the same loop on two types of upstream socket. Each
round takes the branch of one peer, hands on what it reads, and shows it to a closure first where
it comes from upstream. The peers send when they like, and the rounds are taken in any order.
-/

namespace Tailfin

inductive Peer where
  | client
  | upstream
  deriving DecidableEq, Repr

/-- One way through the tunnel. -/
structure Way where
  /-- All that the peer has sent. -/
  sent : List UInt8
  /-- What of it is still in the socket. -/
  unread : List UInt8
  /-- The peer sends no more. -/
  shut : Bool
  /-- What has been written to the other peer. -/
  written : List UInt8
  deriving DecidableEq, Repr

namespace Way

/-- A socket with some bytes in it. -/
def new (early : List UInt8) : Way := ⟨early, early, false, []⟩

def send (w : Way) (bytes : List UInt8) : Way :=
  if w.shut then w else { w with sent := w.sent ++ bytes, unread := w.unread ++ bytes }

/-- The length of a buffer. -/
def bufLen : Nat := 16 * 1024

/-- What a read yields. -/
def chunk (w : Way) (n : Nat) : List UInt8 := w.unread.take (min (n + 1) bufLen)

/-- A read takes bytes from the socket. -/
def read (w : Way) (n : Nat) : Way := { w with unread := w.unread.drop (min (n + 1) bufLen) }

def write (w : Way) (bytes : List UInt8) : Way := { w with written := w.written ++ bytes }

end Way

inductive SplicePhase (ε : Type) where
  | spliced
  | ended
  /-- The closure panicked. -/
  | panicked (fault : ε)
  deriving DecidableEq, Repr

structure Tunnel (μ ε : Type) where
  fromClient : Way
  fromUpstream : Way
  /-- The state of the closure. -/
  heard : μ
  phase : SplicePhase ε
  deriving DecidableEq, Repr

inductive SpliceEvent where
  | sends (p : Peer) (bytes : List UInt8)
  | shuts (p : Peer)
  /-- The branch of the peer is taken and its read fails. -/
  | fails (p : Peer)
  /-- The branch of the peer is taken and its read yields at most `n + 1` bytes. Where their write
  fails, some have been written. -/
  | relays (p : Peer) (n : Nat) (failed : Option Nat)
  deriving DecidableEq, Repr

/-- No read and no write fails. -/
def SpliceEvent.Calm : SpliceEvent → Prop
  | .fails _ | .relays _ _ (some _) => False
  | _ => True

namespace Tunnel

variable {μ ε : Type}

/-- A tunnel to an upstream that may have sent something already. -/
def new (m : μ) (early : List UInt8) : Tunnel μ ε := ⟨.new [], .new early, m, .spliced⟩

def way (t : Tunnel μ ε) : Peer → Way
  | .client => t.fromClient
  | .upstream => t.fromUpstream

def setWay (t : Tunnel μ ε) : Peer → Way → Tunnel μ ε
  | .client, w => { t with fromClient := w }
  | .upstream, w => { t with fromUpstream := w }

variable (onUpstream : μ → List UInt8 → Except ε μ)

/-- The closure hears what comes from upstream. -/
def hears (m : μ) (bytes : List UInt8) : Peer → Except ε μ
  | .client => .ok m
  | .upstream => onUpstream m bytes

/-- A round of the loop. With nothing to read the branch of a peer is not ready until the peer has
shut its side. -/
def relay (t : Tunnel μ ε) (p : Peer) (n : Nat) (failed : Option Nat) : Tunnel μ ε :=
  let w := t.way p
  if w.unread = [] then (if w.shut then { t with phase := .ended } else t)
  else
    match hears onUpstream t.heard (w.chunk n) p with
    | .error fault => { t.setWay p (w.read n) with phase := .panicked fault }
    | .ok heard =>
      match failed with
      | none => { t.setWay p ((w.read n).write (w.chunk n)) with heard := heard }
      | some k =>
        { t.setWay p ((w.read n).write ((w.chunk n).take k)) with heard := heard, phase := .ended }

def next (t : Tunnel μ ε) : SpliceEvent → Tunnel μ ε
  | .sends p bytes => t.setWay p ((t.way p).send bytes)
  | .shuts p => t.setWay p { t.way p with shut := true }
  | .fails _ =>
    match t.phase with
    | .spliced => { t with phase := .ended }
    | _ => t
  | .relays p n failed =>
    match t.phase with
    | .spliced => t.relay onUpstream p n failed
    | _ => t

def step (t : Tunnel μ ε) (e : SpliceEvent) : Tunnel μ ε × Unit := (t.next onUpstream e, ())

/-! ## Small facts -/

@[simp] theorem way_setWay (t : Tunnel μ ε) (p q : Peer) (w : Way) :
    (t.setWay p w).way q = if q = p then w else t.way q := by
  cases p <;> cases q <;> rfl

@[simp] theorem heard_setWay (t : Tunnel μ ε) (p : Peer) (w : Way) :
    (t.setWay p w).heard = t.heard := by
  cases p <;> rfl

@[simp] theorem phase_setWay (t : Tunnel μ ε) (p : Peer) (w : Way) :
    (t.setWay p w).phase = t.phase := by
  cases p <;> rfl

@[simp] theorem way_mk (t : Tunnel μ ε) (m : μ) (phase : SplicePhase ε) (p : Peer) :
    (Tunnel.mk t.fromClient t.fromUpstream m phase).way p = t.way p := by
  cases p <;> rfl

/-- What a round does: `out` is written to the other peer, and `gap` is read with it and lost. -/
inductive Relayed (t : Tunnel μ ε) (p : Peer) (failed : Option Nat) : Tunnel μ ε → Prop
  | waits : Relayed t p failed t
  | shut : (t.way p).unread = [] → (t.way p).shut = true →
      Relayed t p failed { t with phase := .ended }
  | panics {chunk rest : List UInt8} {fault : ε} : (t.way p).unread = chunk ++ rest →
      chunk.length ≤ Way.bufLen → hears onUpstream t.heard chunk p = .error fault →
      Relayed t p failed
        { t.setWay p { t.way p with unread := rest } with phase := .panicked fault }
  | hands {chunk rest : List UInt8} {heard : μ} : (t.way p).unread = chunk ++ rest →
      failed = none → hears onUpstream t.heard chunk p = .ok heard →
      Relayed t p failed { t.setWay p { t.way p with
        unread := rest, written := (t.way p).written ++ chunk } with heard := heard }
  | breaks {out gap rest : List UInt8} {heard : μ} : (t.way p).unread = out ++ gap ++ rest →
      failed ≠ none → gap.length ≤ Way.bufLen →
      hears onUpstream t.heard (out ++ gap) p = .ok heard →
      Relayed t p failed { t.setWay p { t.way p with
        unread := rest, written := (t.way p).written ++ out } with
          heard := heard, phase := .ended }

theorem relay_cases (t : Tunnel μ ε) (p : Peer) (n : Nat) (failed : Option Nat) :
    Relayed onUpstream t p failed (t.relay onUpstream p n failed) := by
  have split : (t.way p).unread = (t.way p).chunk n ++ ((t.way p).read n).unread :=
    (List.take_append_drop _ _).symm
  have short : ((t.way p).chunk n).length ≤ Way.bufLen := by
    rw [Way.chunk, List.length_take]
    omega
  rw [relay]
  by_cases empty : (t.way p).unread = []
  · cases shut : (t.way p).shut with
    | true => simpa [empty, shut] using Relayed.shut empty shut
    | false => simpa [empty, shut] using Relayed.waits
  · simp only [empty, if_false]
    cases hear : hears onUpstream t.heard ((t.way p).chunk n) p with
    | error fault => exact .panics split short hear
    | ok heard =>
      cases failed with
      | none => exact .hands split rfl hear
      | some k =>
        have parts := List.take_append_drop k ((t.way p).chunk n)
        have lost : (((t.way p).chunk n).drop k).length ≤ Way.bufLen := by
          rw [List.length_drop]
          omega
        rw [← parts] at split hear
        exact .breaks split (by simp) lost hear

/-! ## What arrives -/

/-- What the closure has come to. -/
def outcome (t : Tunnel μ ε) : Except ε μ :=
  match t.phase with
  | .panicked fault => .error fault
  | _ => .ok t.heard

/-- What the peer has sent is what has been written, then a gap that a failure has left, then what
is still to be read. -/
def InOrder (t : Tunnel μ ε) (p : Peer) : Prop :=
  ∃ gap, (t.way p).sent = (t.way p).written ++ gap ++ (t.way p).unread ∧
    gap.length ≤ Way.bufLen ∧ (t.phase = .spliced → gap = [])

/-- The closure has heard, in some cuts, all that has been read from upstream. -/
def Heard (m : μ) (t : Tunnel μ ε) : Prop :=
  ∃ cuts : List (List UInt8), cuts.foldlM onUpstream m = t.outcome ∧
    t.fromUpstream.sent = cuts.flatten ++ t.fromUpstream.unread

theorem send_cases (w : Way) (bytes : List UInt8) : w.send bytes = w ∨
    w.send bytes = { w with sent := w.sent ++ bytes, unread := w.unread ++ bytes } := by
  unfold Way.send
  split
  · exact .inl rfl
  · exact .inr rfl

variable {onUpstream}

theorem InOrder.tight {t : Tunnel μ ε} {p : Peer} (h : InOrder t p)
    (spliced : t.phase = .spliced) : (t.way p).sent = (t.way p).written ++ (t.way p).unread := by
  obtain ⟨gap, split, -, none_⟩ := h
  rw [none_ spliced, List.append_nil] at split
  exact split

theorem inOrder_of_tight {t : Tunnel μ ε} {p : Peer}
    (h : (t.way p).sent = (t.way p).written ++ (t.way p).unread) : InOrder t p :=
  ⟨[], by simpa using h, Nat.zero_le _, fun _ => rfl⟩

theorem InOrder.relayed {t t' : Tunnel μ ε} {p : Peer} {failed : Option Nat}
    (h : ∀ q, InOrder t q) (spliced : t.phase = .spliced)
    (round : Relayed onUpstream t p failed t') (q : Peer) : InOrder t' q := by
  have before := (h q).tight spliced
  cases round with
  | waits => exact h q
  | shut _ _ =>
    apply inOrder_of_tight
    simpa using before
  | @panics chunk rest _ split short _ =>
    by_cases same : q = p
    · subst same
      rw [split] at before
      exact ⟨chunk, by simpa using before, short, by simp⟩
    · apply inOrder_of_tight
      simpa [same] using before
  | hands split _ _ =>
    apply inOrder_of_tight
    by_cases same : q = p
    · subst same
      rw [split] at before
      simpa using before
    · simpa [same] using before
  | @breaks out gap rest _ split _ short _ =>
    by_cases same : q = p
    · subst same
      rw [split] at before
      exact ⟨gap, by simpa using before, short, by simp⟩
    · apply inOrder_of_tight
      simpa [same] using before

theorem InOrder.next {t : Tunnel μ ε} (h : ∀ q, InOrder t q) (e : SpliceEvent) (q : Peer) :
    InOrder (t.next onUpstream e) q := by
  cases e with
  | sends p bytes =>
    obtain ⟨gap, split, short, none_⟩ := h q
    refine ⟨gap, ?_, short, by simpa [Tunnel.next] using none_⟩
    by_cases same : q = p
    · subst same
      rcases send_cases (t.way q) bytes with kept | more
      · simpa [Tunnel.next, kept] using split
      · simp [Tunnel.next, more, split]
    · simpa [Tunnel.next, same] using split
  | shuts p =>
    obtain ⟨gap, split, short, none_⟩ := h q
    refine ⟨gap, ?_, short, by simpa [Tunnel.next] using none_⟩
    by_cases same : q = p
    · subst same
      simpa [Tunnel.next] using split
    · simpa [Tunnel.next, same] using split
  | fails p =>
    cases phase : t.phase with
    | spliced =>
      apply inOrder_of_tight
      simpa [Tunnel.next, phase] using (h q).tight phase
    | ended | panicked _ => simpa [Tunnel.next, phase] using h q
  | relays p n failed =>
    cases phase : t.phase with
    | spliced =>
      simp only [Tunnel.next, phase]
      exact InOrder.relayed h phase (relay_cases onUpstream t p n failed) q
    | ended | panicked _ => simpa [Tunnel.next, phase] using h q

/-! ## What is heard -/

theorem outcome_of_not_panicked {t : Tunnel μ ε} (calm : ∀ fault, t.phase ≠ .panicked fault) :
    t.outcome = .ok t.heard := by
  unfold outcome
  split
  · next fault phase => exact absurd phase (calm fault)
  · rfl

theorem foldlM_concat {m m' : μ} {cuts : List (List UInt8)}
    (come : cuts.foldlM onUpstream m = .ok m') (chunk : List UInt8) :
    (cuts ++ [chunk]).foldlM onUpstream m = onUpstream m' chunk := by
  rw [List.foldlM_append, come]
  exact bind_pure (onUpstream m' chunk)

theorem Heard.relayed {m : μ} {t t' : Tunnel μ ε} {p : Peer} {failed : Option Nat}
    (h : Heard onUpstream m t) (spliced : t.phase = .spliced)
    (round : Relayed onUpstream t p failed t') : Heard onUpstream m t' := by
  obtain ⟨cuts, come, split⟩ := h
  have open_ : t.outcome = .ok t.heard := outcome_of_not_panicked (by simp [spliced])
  rw [open_] at come
  cases round with
  | waits => exact ⟨cuts, by rw [come, open_], split⟩
  | shut _ _ => exact ⟨cuts, come, split⟩
  | @panics chunk rest fault front _ hear =>
    cases p with
    | client => cases hear
    | upstream =>
      refine ⟨cuts ++ [chunk], (foldlM_concat come chunk).trans hear, ?_⟩
      simp only [way] at front
      simp [setWay, way, split, front]
  | @hands chunk rest heard front _ hear =>
    have calm : outcome { t with heard := heard } = .ok heard :=
      outcome_of_not_panicked (by simp [spliced])
    cases p with
    | client =>
      cases hear
      exact ⟨cuts, come.trans open_.symm, split⟩
    | upstream =>
      refine ⟨cuts ++ [chunk], ((foldlM_concat come chunk).trans hear).trans calm.symm, ?_⟩
      simp only [way] at front
      simp [setWay, way, split, front]
  | @breaks out gap rest heard front _ _ hear =>
    cases p with
    | client =>
      cases hear
      exact ⟨cuts, come, split⟩
    | upstream =>
      refine ⟨cuts ++ [out ++ gap], (foldlM_concat come _).trans hear, ?_⟩
      simp only [way] at front
      simp [setWay, way, split, front]

theorem Heard.next {m : μ} {t : Tunnel μ ε} (h : Heard onUpstream m t) (e : SpliceEvent) :
    Heard onUpstream m (t.next onUpstream e) := by
  cases e with
  | sends p bytes =>
    obtain ⟨cuts, come, split⟩ := h
    cases p with
    | client => exact ⟨cuts, come, split⟩
    | upstream =>
      refine ⟨cuts, come, ?_⟩
      rcases send_cases t.fromUpstream bytes with kept | more
      · simpa [Tunnel.next, way, setWay, kept] using split
      · simp [Tunnel.next, way, setWay, more, split]
  | shuts p =>
    obtain ⟨cuts, come, split⟩ := h
    cases p with
    | client | upstream => exact ⟨cuts, come, split⟩
  | fails p =>
    cases phase : t.phase with
    | spliced =>
      obtain ⟨cuts, come, split⟩ := h
      rw [outcome_of_not_panicked (by simp [phase])] at come
      simp only [Tunnel.next, phase]
      exact ⟨cuts, come, split⟩
    | ended | panicked _ => simpa [Tunnel.next, phase] using h
  | relays p n failed =>
    cases phase : t.phase with
    | spliced =>
      simp only [Tunnel.next, phase]
      exact h.relayed phase (relay_cases onUpstream t p n failed)
    | ended | panicked _ => simpa [Tunnel.next, phase] using h

theorem inOrder_final (m : μ) (early : List UInt8) (es : List SpliceEvent) :
    ∀ p, (Runs.final (step onUpstream) (new m early) es).InOrder p := by
  apply Runs.final_invariant (P := fun _ _ => True) (I := fun t : Tunnel μ ε => ∀ p, t.InOrder p)
    (fun t e h _ => InOrder.next h e) ?_ (Runs.steps_of_forall (fun _ _ => trivial) _ _)
  intro p
  apply inOrder_of_tight
  cases p <;> rfl

theorem heard_final (m : μ) (early : List UInt8) (es : List SpliceEvent) :
    (Runs.final (step onUpstream) (new m early) es).Heard onUpstream m := by
  apply Runs.final_invariant (P := fun _ _ => True) (I := Heard onUpstream m)
    (fun t e h _ => Heard.next h e) ?_ (Runs.steps_of_forall (fun _ _ => trivial) _ _)
  exact ⟨[], rfl, rfl⟩

/-- The bytes of both peers arrive in order, with nothing inserted, doubled or left out: while the
tunnel is open, all that has been read from one peer has been written to the other, and a failure
can cost no more than the buffer that was on its way. The closure has heard all that has been read
from upstream, and no byte of the client; it panicked only if these bytes make it. -/
theorem relays_in_order (m : μ) (early : List UInt8) (es : List SpliceEvent) :
    let t := Runs.final (step onUpstream) (new m early) es
    (∀ p, t.InOrder p) ∧ t.Heard onUpstream m :=
  ⟨inOrder_final m early es, heard_final m early es⟩

/-! ## Where nothing fails -/

/-- Nothing is on its way, and the tunnel ends only behind all that one of the peers has sent. -/
structure Clean (t : Tunnel μ ε) : Prop where
  tight : (∀ fault, t.phase ≠ .panicked fault) →
    ∀ p, (t.way p).sent = (t.way p).written ++ (t.way p).unread
  last : t.phase = .ended → ∃ p, (t.way p).shut = true ∧ (t.way p).unread = []

theorem Clean.relayed {t t' : Tunnel μ ε} {p : Peer} (h : Clean t) (spliced : t.phase = .spliced)
    (round : Relayed onUpstream t p none t') : Clean t' := by
  have before := h.tight (by simp [spliced])
  cases round with
  | waits => exact h
  | shut empty shut => exact ⟨fun _ q => by simpa using before q, fun _ => ⟨p, by simp [shut, empty]⟩⟩
  | @panics _ _ fault _ _ _ => exact ⟨fun calm => absurd rfl (calm fault), nofun⟩
  | @hands chunk rest _ front _ _ =>
    constructor
    · intro _ q
      by_cases same : q = p
      · subst same
        simp [before, front]
      · simpa [same] using before q
    · intro ended
      simp [spliced] at ended
  | breaks _ some_ _ _ => exact absurd rfl some_

theorem Clean.next {t : Tunnel μ ε} (h : Clean t) {e : SpliceEvent} (calm : e.Calm) :
    Clean (t.next onUpstream e) := by
  cases e with
  | sends p bytes =>
    constructor
    · intro open_ q
      have before := h.tight (by simpa [Tunnel.next] using open_) q
      by_cases same : q = p
      · subst same
        rcases send_cases (t.way q) bytes with kept | more
        · simpa [Tunnel.next, kept] using before
        · simp [Tunnel.next, more, before]
      · simpa [Tunnel.next, same] using before
    · intro ended
      obtain ⟨q, shut, empty⟩ := h.last (by simpa [Tunnel.next] using ended)
      refine ⟨q, ?_⟩
      by_cases same : q = p
      · subst same
        simp [Tunnel.next, Way.send, shut, empty]
      · simp [Tunnel.next, same, shut, empty]
  | shuts p =>
    constructor
    · intro open_ q
      have before := h.tight (by simpa [Tunnel.next] using open_) q
      by_cases same : q = p
      · subst same
        simpa [Tunnel.next] using before
      · simpa [Tunnel.next, same] using before
    · intro ended
      obtain ⟨q, shut, empty⟩ := h.last (by simpa [Tunnel.next] using ended)
      refine ⟨q, ?_⟩
      by_cases same : q = p
      · subst same
        simp [Tunnel.next, empty]
      · simp [Tunnel.next, same, shut, empty]
  | fails p => exact calm.elim
  | relays p n failed =>
    cases failed with
    | some k => exact calm.elim
    | none =>
      cases phase : t.phase with
      | spliced =>
        simp only [Tunnel.next, phase]
        exact h.relayed phase (relay_cases onUpstream t p n none)
      | ended | panicked _ => simpa [Tunnel.next, phase] using h

theorem clean_new (m : μ) (early : List UInt8) : Clean (new m early : Tunnel μ ε) where
  tight := by
    intro _ p
    cases p <;> rfl
  last := nofun

/-- Only an event of its own shuts a side. -/
theorem shut_next (t : Tunnel μ ε) {p : Peer} {e : SpliceEvent} (other : e ≠ .shuts p) :
    ((t.next onUpstream e).way p).shut = (t.way p).shut := by
  cases e with
  | sends q bytes =>
    by_cases same : p = q
    · subst same
      rcases send_cases (t.way p) bytes with kept | more
      · simp [Tunnel.next, kept]
      · simp [Tunnel.next, more]
    · simp [Tunnel.next, same]
  | shuts q =>
    have apart : p ≠ q := by
      rintro rfl
      exact other rfl
    simp [Tunnel.next, apart]
  | fails q => cases phase : t.phase <;> simp [Tunnel.next, phase]
  | relays q n failed =>
    cases phase : t.phase with
    | spliced =>
      simp only [Tunnel.next, phase]
      have round := relay_cases onUpstream t q n failed
      generalize t.relay onUpstream q n failed = t' at round
      by_cases same : p = q
      · subst same
        cases round <;> simp
      · cases round <;> simp [same]
    | ended | panicked _ => simp [Tunnel.next, phase]

/-- Where nothing fails and the client does not shut its side, it is so behind the run. -/
theorem clean_final (m : μ) (early : List UInt8) {es : List SpliceEvent} (calm : ∀ e ∈ es, e.Calm)
    (stays : .shuts .client ∉ es) :
    let t : Tunnel μ ε := Runs.final (step onUpstream) (new m early) es
    Clean t ∧ (t.way .client).shut = false := by
  have admitted : Runs.Steps (step onUpstream) (fun _ e => e.Calm ∧ e ≠ .shuts .client)
      (new m early) es := by
    intro x hx
    obtain ⟨pre, e, post, rfl, rfl⟩ := Runs.exists_of_mem_trace hx
    have here : e ∈ pre ++ e :: post := by simp
    refine ⟨calm e here, ?_⟩
    rintro rfl
    exact stays here
  apply Runs.final_invariant (I := fun t : Tunnel μ ε => Clean t ∧ (t.way .client).shut = false)
    ?_ ⟨clean_new m early, rfl⟩ admitted
  intro t e h allowed
  refine ⟨h.1.next allowed.1, ?_⟩
  rw [step, shut_next t allowed.2]
  exact h.2

end Tunnel

/-! ## The record of a connection -/

section Opening

variable [HeaderLibrary]

/-- The tunnel of `relay_ws` to an upstream over `http`. It begins behind the head of the
handshake. -/
def openTunnel (dialect : Option Dialect) (socket : List UInt8) :
    Option (Tunnel WsMeterTask WsFault) := do
  let (status, _) ← httpHandshake socket
  let head ← readHead [] socket
  if status = switchingProtocols then some (.new (.new dialect) (socket.drop head.length)) else none

theorem openTunnel_head {u : UpstreamResponse} (switching : u.status = switchingProtocols)
    (short : u.head.length ≤ headLimit + 1) (dialect : Option Dialect) (early : List UInt8) :
    openTunnel dialect (u.head ++ early) = some (.new (.new dialect) early) := by
  rw [openTunnel, u.httpHandshake_head early, u.readHead_head early, if_pos short, if_pos short]
  simp [switching]

end Opening

section Record

variable [JsonParser]

theorem WsMeterTask.chunks_eq_foldlM (t : WsMeterTask) (all : List (List UInt8)) :
    t.chunks all = all.foldlM WsMeterTask.chunk t := by
  induction all generalizing t with
  | nil => rfl
  | cons bytes all ih =>
    rw [chunks, List.foldlM_cons]
    exact congrArg _ (funext ih)

/-- What a connection that brings these frames is to leave in its record. -/
def framesMetered (dialect : Option Dialect) (frames : List SentFrame) : Usage × Bool :=
  match dialect with
  | some d => payloadsMetered d (frames.filterMap SentFrame.message)
  | none => (default, false)

theorem wsMetered_encode (dialect : Option Dialect) {frames : List SentFrame}
    (fits : ∀ f ∈ frames, f.encode.length < 2 ^ 64)
    (open_ : ∀ f ∈ frames.dropLast, f.opcode ≠ .close) {chunks : List (List UInt8)}
    (text : chunks.flatten = frames.flatMap SentFrame.encode) :
    wsMetered dialect chunks = .ok (framesMetered dialect frames) := by
  cases dialect with
  | none => exact wsMetered_none chunks
  | some d =>
    rw [wsMetered_some, WsTextDecoder.pushAll_closed fits open_ text]
    rfl

/-- The meter has no fault on the way through these frames, and at their end it has their record. -/
theorem chunks_encode (dialect : Option Dialect) {frames : List SentFrame}
    (fits : ∀ f ∈ frames, f.encode.length < 2 ^ 64)
    (open_ : ∀ f ∈ frames.dropLast, f.opcode ≠ .close) {cuts : List (List UInt8)}
    {rest : List UInt8} (text : frames.flatMap SentFrame.encode = cuts.flatten ++ rest) :
    ∃ t, cuts.foldlM WsMeterTask.chunk (.new dialect) = .ok t ∧
      (rest = [] → t.result = framesMetered dialect frames) := by
  have joined : (cuts ++ [rest]).flatten = frames.flatMap SentFrame.encode := by simp [text]
  have whole := wsMetered_encode dialect fits open_ joined
  rw [wsMetered, WsMeterTask.chunks_eq_foldlM, List.foldlM_append] at whole
  cases come : cuts.foldlM WsMeterTask.chunk (.new dialect) with
  | error fault =>
    rw [come] at whole
    cases whole
  | ok t =>
    refine ⟨t, rfl, ?_⟩
    rintro rfl
    have joined : cuts.flatten = frames.flatMap SentFrame.encode := by simp [text]
    have all := wsMetered_encode dialect fits open_ joined
    rw [wsMetered, WsMeterTask.chunks_eq_foldlM, come] at all
    exact Except.ok.inj all

variable [HeaderLibrary]

open Tunnel

/-- An upstream switches protocols and sends frames, the first of them perhaps together with its
head; then it shuts its side. Wherever its reads cut them, and whatever goes the other way, the
client gets every byte behind the head, the meter has no fault, and what it records are the
payloads of the frames. -/
theorem tunnel_records {u : UpstreamResponse} (switching : u.status = switchingProtocols)
    (short : u.head.length ≤ headLimit + 1) (dialect : Option Dialect) (early : List UInt8)
    {frames : List SentFrame} (fits : ∀ f ∈ frames, f.encode.length < 2 ^ 64)
    (open_ : ∀ f ∈ frames.dropLast, f.opcode ≠ .close) {es : List SpliceEvent}
    (calm : ∀ e ∈ es, e.Calm) (stays : .shuts .client ∉ es) :
    ∃ start, openTunnel dialect (u.head ++ early) = some start ∧
      let t := Runs.final (step WsMeterTask.chunk) start es
      t.fromUpstream.sent = frames.flatMap SentFrame.encode →
        (∀ fault, t.phase ≠ .panicked fault) ∧
        (t.phase = .ended → t.fromUpstream.written = frames.flatMap SentFrame.encode ∧
          t.heard.result = framesMetered dialect frames) := by
  refine ⟨_, openTunnel_head switching short dialect early, ?_⟩
  intro t text
  have heard : t.Heard WsMeterTask.chunk (.new dialect) :=
    heard_final (WsMeterTask.new dialect) early es
  obtain ⟨clean, waiting⟩ : Clean t ∧ (t.way .client).shut = false :=
    clean_final (WsMeterTask.new dialect) early calm stays
  clear_value t
  obtain ⟨cuts, come, split⟩ := heard
  obtain ⟨m, whole, record⟩ := chunks_encode dialect fits open_ (text.symm.trans split)
  rw [whole] at come
  have sound : ∀ fault, t.phase ≠ .panicked fault := by
    intro fault phase
    simp [outcome, phase] at come
  refine ⟨sound, fun ended => ?_⟩
  rw [outcome_of_not_panicked sound] at come
  obtain rfl := Except.ok.inj come
  obtain ⟨p, shut, empty⟩ := clean.last ended
  have upstream : p = .upstream := by
    cases p with
    | client =>
      rw [waiting] at shut
      cases shut
    | upstream => rfl
  subst upstream
  have arrived := clean.tight sound .upstream
  rw [empty, List.append_nil] at arrived
  exact ⟨arrived.symm.trans text, record empty⟩

end Record

section Cases

attribute [local instance] tokenHttp responseTexts

/-- `HTTP/1.1 101 Switching Protocols`. -/
def switched : UpstreamResponse :=
  { upgradeRequired [] with
    status := switchingProtocols
    reason := Utf8.encode "Switching Protocols".toList
    valid := by decide
    unbroken := List.all_iff_forall_prop.mp (by decide) }

/-- A response in one frame, cut behind its first bytes, and a close frame. -/
def responseAndClose : List SentFrame :=
  [⟨true, .text, none, Utf8.encode responseText⟩, ⟨true, .close, none, []⟩]

def cutAtSeven : List SpliceEvent :=
  [.relays .upstream 6 none, .sends .client [1, 2], .relays .upstream 999 none, .shuts .upstream,
    .relays .client 0 none, .relays .upstream 0 none]

theorem tunnel_records_response :
    ∃ start, openTunnel (some .openAiResponses) (switched.head ++
        responseAndClose.flatMap SentFrame.encode) = some start ∧
      let t := Runs.final (Tunnel.step WsMeterTask.chunk) start cutAtSeven
      t.fromUpstream.sent = responseAndClose.flatMap SentFrame.encode →
        (∀ fault, t.phase ≠ .panicked fault) ∧
        (t.phase = .ended →
          t.fromUpstream.written = responseAndClose.flatMap SentFrame.encode ∧
          t.heard.result = framesMetered (some .openAiResponses) responseAndClose) :=
  tunnel_records rfl (by decide +kernel) (some .openAiResponses) _ (by decide +kernel)
    (by decide) (by simp [cutAtSeven, SpliceEvent.Calm]) (by decide)

end Cases

end Tailfin
