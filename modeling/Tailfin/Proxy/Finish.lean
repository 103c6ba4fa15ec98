import Tailfin.Proxy.Relay

/-!
# Begun requests are finished

Every call of `Task::begin` is followed by at most one `finish_locked`, and by exactly one unless
the handler returns through one of its `?` after `begin`, or is dropped while it awaits the
upstream. What is begun and not finished is what the live counts count, and the ledger holds what
is finished.
-/

namespace Tailfin

/-! ## The account of a call -/

/-- How far a call is between `begin` and `finish_locked`. -/
inductive Status where
  | waiting
  | running (ref : NodeRef)
  /-- Begun, and left without a finish. -/
  | lost (ref : NodeRef)
  | done
  deriving DecidableEq, Repr

def Phase.status : Phase → Status
  | .received | .identified _ _ => .waiting
  | .refused ref | .stopping ref _ | .admitted ref _ | .sending ref _ | .metering ref _ =>
    .running ref
  | .abandoned ref => .lost ref
  | .ended => .done

namespace Status

/-- Begun and not finished. -/
def held : Status → Option NodeRef
  | running ref | lost ref => some ref
  | waiting | done => none

def isHeld (st : Status) : Bool := st.held.isSome

def isRunning : Status → Bool
  | running _ => true
  | _ => false

def isLost : Status → Bool
  | lost _ => true
  | _ => false

def heldAt (root : String) (st : Status) : Bool := st.held.any fun ref => ref.root = root

@[simp] theorem heldAt_waiting (root : String) : heldAt root waiting = false := rfl
@[simp] theorem heldAt_done (root : String) : heldAt root done = false := rfl
@[simp] theorem heldAt_running (root : String) (ref : NodeRef) :
    heldAt root (running ref) = decide (root = ref.root) := by simp [heldAt, held, eq_comm]

/-- The calls of `begin` and of `finish_locked` that a request in this status has made. -/
def Balanced : Option Status → Nat → Nat → Prop
  | none, b, f | some waiting, b, f => b = 0 ∧ f = 0
  | some (running _), b, f | some (lost _), b, f => b = 1 ∧ f = 0
  | some done, b, f => b = f ∧ b ≤ 1

theorem Balanced.once {st : Option Status} {b f : Nat} (h : Balanced st b f) :
    f ≤ b ∧ b ≤ 1 := by
  cases st with
  | none =>
    obtain ⟨rfl, rfl⟩ := h
    omega
  | some st =>
    cases st <;>
      · obtain ⟨begun, finished⟩ := h
        omega

end Status

namespace Effect

def begins : Effect → Option Nat
  | begun i _ _ => some i
  | _ => none

def finishes : Effect → Option Nat
  | finished i _ => some i
  | _ => none

def isBegun (e : Effect) : Bool := e.begins.isSome

def record : Effect → Option Record
  | finished _ r => some r
  | _ => none

end Effect

/-- How often call `i` has been begun. -/
def beginCount (i : Nat) (fx : List Effect) : Nat := fx.countP fun e => e.begins = some i

/-- How often it has been finished. -/
def finishCount (i : Nat) (fx : List Effect) : Nat := fx.countP fun e => e.finishes = some i

/-- Neither begins nor finishes. -/
def Silent (fx : List Effect) : Prop := ∀ e ∈ fx, e.begins = none ∧ e.finishes = none

theorem silent_nil : Silent [] := by simp [Silent]

theorem silent_sent (i : Nat) : Silent [.sent i] := by simp [Silent, Effect.begins, Effect.finishes]

theorem silent_answered (i : Nat) (a : Option Answer) :
    Silent (a.map (.answered i)).toList := by
  cases a <;> simp [Silent, Effect.begins, Effect.finishes]

theorem beginCount_append (i : Nat) (fx gx : List Effect) :
    beginCount i (fx ++ gx) = beginCount i fx + beginCount i gx :=
  List.countP_append

theorem finishCount_append (i : Nat) (fx gx : List Effect) :
    finishCount i (fx ++ gx) = finishCount i fx + finishCount i gx :=
  List.countP_append

@[simp] theorem beginCount_begun (i j : Nat) (ref : NodeRef) (admission : Option Admission) :
    beginCount i [.begun j ref admission] = if j = i then 1 else 0 := by
  simp [beginCount, Effect.begins, List.countP_cons]

@[simp] theorem finishCount_begun (i j : Nat) (ref : NodeRef) (admission : Option Admission) :
    finishCount i [.begun j ref admission] = 0 := by
  simp [finishCount, Effect.finishes]

@[simp] theorem beginCount_finished (i j : Nat) (r : Record) :
    beginCount i [.finished j r] = 0 := by
  simp [beginCount, Effect.begins]

@[simp] theorem finishCount_finished (i j : Nat) (r : Record) :
    finishCount i [.finished j r] = if j = i then 1 else 0 := by
  simp [finishCount, Effect.finishes, List.countP_cons]

section Silent

variable {fx : List Effect} (silent : Silent fx)
include silent

theorem Silent.beginCount (i : Nat) : Tailfin.beginCount i fx = 0 := by
  rw [Tailfin.beginCount, List.countP_eq_zero]
  intro e he
  simp [(silent e he).1]

theorem Silent.finishCount (i : Nat) : Tailfin.finishCount i fx = 0 := by
  rw [Tailfin.finishCount, List.countP_eq_zero]
  intro e he
  simp [(silent e he).2]

theorem Silent.begun : fx.countP Effect.isBegun = 0 := by
  rw [List.countP_eq_zero]
  intro e he
  simp [Effect.isBegun, (silent e he).1]

theorem Silent.records : fx.filterMap Effect.record = [] := by
  rw [List.filterMap_eq_nil_iff]
  intro e he
  have none_ := (silent e he).2
  cases e with
  | finished i r => cases none_
  | begun i ref admission | sent i | answered i a => rfl

end Silent

/-- Replacing an entry moves a count by what the two entries count. -/
theorem countP_set_add {α : Type} {q : α → Bool} {l : List α} {i : Nat} {a b : α}
    (h : l[i]? = some a) :
    (l.set i b).countP q + (if q a then 1 else 0) = l.countP q + (if q b then 1 else 0) := by
  obtain ⟨bound, rfl⟩ := List.getElem?_eq_some_iff.mp h
  have counted := List.boole_getElem_le_countP (p := q) bound
  rw [List.countP_set bound]
  omega

/-! ## What a turn does to the account -/

namespace Proxy

def statuses (p : Proxy) : List Status := p.calls.map fun c => c.phase.status

/-- The live count of a task. -/
def live (p : Proxy) (root : String) : Nat := (p.arena.taskMut root).live

@[simp] theorem statuses_setPhase (p : Proxy) (i : Nat) (phase : Phase) :
    (p.setPhase i phase).statuses = p.statuses.set i phase.status := by
  refine List.ext_getElem? fun j => ?_
  simp only [statuses, setPhase, List.getElem?_map, List.getElem?_modify, List.getElem?_set]
  by_cases same : i = j
  · subst same
    cases found : p.calls[i]? with
    | none => simpa using found
    | some c =>
      obtain ⟨bound, -⟩ := List.getElem?_eq_some_iff.mp found
      simp [bound]
  · simp [same]

/-- The turn neither begins nor finishes. -/
structure Keeps (p p' : Proxy) (fx : List Effect) : Prop where
  silent : Silent fx
  ledger : p'.ledger = p.ledger
  live : ∀ root, p'.live root = p.live root

/-- What one step does to the account; `leak` tells whether it loses a call. -/
inductive Change (p p' : Proxy) (fx : List Effect) : Bool → Prop
  | still : Keeps p p' fx → p'.statuses = p.statuses → Change p p' fx false
  | arrived (st : Status) : Keeps p p' fx → st = .waiting ∨ st = .done →
      p'.statuses = p.statuses ++ [st] → Change p p' fx false
  | dismissed (i : Nat) : Keeps p p' fx → p.statuses[i]? = some .waiting →
      p'.statuses = p.statuses.set i .done → Change p p' fx false
  | lost (i : Nat) (ref : NodeRef) : Keeps p p' fx → p.statuses[i]? = some (.running ref) →
      p'.statuses = p.statuses.set i (.lost ref) → Change p p' fx true
  | begun (i : Nat) (ref : NodeRef) (admission : Option Admission) :
      p'.ledger = p.ledger →
      (∀ root, p'.live root = p.live root + if root = ref.root then 1 else 0) →
      fx = [.begun i ref admission] → p.statuses[i]? = some .waiting →
      p'.statuses = p.statuses.set i (.running ref) → Change p p' fx false
  | finished (i : Nat) (ref : NodeRef) (record : Record) (rest : List Effect) :
      p'.ledger = p.ledger.map (· ++ [record]) →
      (∀ root, p'.live root = p.live root - if root = ref.root then 1 else 0) →
      fx = .finished i record :: rest → Silent rest → p.statuses[i]? = some (.running ref) →
      p'.statuses = p.statuses.set i .done → Change p p' fx false

/-- A step that lets a handler leave without a finish. -/
def leaks [HttpLibrary] (p : Proxy) : RelayEvent → Bool
  | .arrive _ => false
  | .turn i t => p.calls[i]?.any fun c => p.turnLeaks c t

/-! ### Each turn -/

theorem live_put (p : Proxy) (root : String) (t : Task) (r : String) :
    ({ p with arena := p.arena.put root t } : Proxy).live r =
      if r = root then t.live else p.live r := by
  simp only [live, Arena.taskMut_put]
  split <;> rfl

theorem status_of_getElem? {p : Proxy} {i : Nat} {c : Call} (h : p.calls[i]? = some c) :
    p.statuses[i]? = some c.phase.status := by
  simp [statuses, h]

theorem set_of_getElem? {l : List Status} {i : Nat} {st : Status} (h : l[i]? = some st) :
    l.set i st = l := by
  obtain ⟨bound, rfl⟩ := List.getElem?_eq_some_iff.mp h
  exact List.set_getElem_self bound

theorem keeps_setPhase {p : Proxy} {fx : List Effect} (silent : Silent fx) (i : Nat)
    (phase : Phase) : Keeps p (p.setPhase i phase) fx :=
  ⟨silent, rfl, fun _ => rfl⟩

/-- A call moves on with its status unchanged. -/
theorem change_of_same {p : Proxy} {i : Nat} {st : Status} {phase : Phase} {fx : List Effect}
    (here : p.statuses[i]? = some st) (same : phase.status = st) (silent : Silent fx) :
    Change p (p.setPhase i phase) fx false := by
  refine .still (keeps_setPhase silent i phase) ?_
  rw [statuses_setPhase, same, set_of_getElem? here]

theorem change_identify {p : Proxy} {i : Nat} (here : p.statuses[i]? = some .waiting)
    (req : Request) (now : Nat) :
    Change p (p.identify i req now).1 (p.identify i req now).2 false := by
  refine .still ⟨silent_nil, rfl, fun _ => rfl⟩ ?_
  exact (statuses_setPhase _ i _).trans (set_of_getElem? here)

theorem admission_live (p : Proxy) (req : Request) (ref : NodeRef) (t : Task) :
    (p.admission req ref t).2.live = t.live := by
  unfold admission
  split
  · rfl
  · cases p.rates with
    | none => rfl
    | some rates => exact t.admitAt_live ref rates

theorem status_phaseAfter (ref : NodeRef) (captureId : Option String)
    (admission : Option Admission) :
    (phaseAfter ref captureId admission).status = .running ref := by
  unfold phaseAfter
  split <;> rfl

section Turns

variable {p : Proxy} {i : Nat} {ref : NodeRef}

theorem change_beginCall [FloatProduct] (here : p.statuses[i]? = some .waiting) (req : Request)
    (captureId : Option String) :
    Change p (p.beginCall i req ref captureId).1 (p.beginCall i req ref captureId).2 false := by
  refine .begun i ref _ rfl (fun root => ?_) rfl here ?_
  · have counted := p.live_put ref.root
      (p.admission req ref ((p.arena.taskMut ref.root).begin ref none)).2 root
    refine Eq.trans counted ?_
    rw [admission_live, Task.begin_live]
    split
    · next same =>
      subst same
      rfl
    · rfl
  · refine (statuses_setPhase _ i _).trans ?_
    rw [status_phaseAfter]
    rfl

theorem change_takeStop (here : p.statuses[i]? = some (.running ref)) :
    Change p (p.takeStop i ref).1 (p.takeStop i ref).2 false := by
  refine .still ⟨silent_nil, rfl, fun root => ?_⟩ ?_
  · have counted := p.live_put ref.root (p.arena.taskMut ref.root).takeStop.2 root
    refine Eq.trans counted ?_
    rw [Task.takeStop_live]
    split
    · next same =>
      subst same
      rfl
    · rfl
  · exact (statuses_setPhase _ i _).trans (set_of_getElem? here)

theorem change_close (here : p.statuses[i]? = some (.running ref)) (usage : Usage)
    (complete : Bool) (captureId : Option String) (now : Nat) (answer : Option Answer) :
    Change p (p.close i ref usage complete captureId now answer).1
      (p.close i ref usage complete captureId now answer).2 false := by
  refine .finished i ref (p.finishLocked ref usage complete captureId now).2 _ rfl
    (fun root => ?_) rfl (silent_answered i answer) here (statuses_setPhase _ i _)
  have counted := p.live_put ref.root
    ((p.arena.taskMut ref.root).finish ref usage complete) root
  refine Eq.trans counted ?_
  rw [Task.finish_live]
  split
  · next same =>
    subst same
    rfl
  · rfl

theorem change_send [HttpLibrary] (here : p.statuses[i]? = some (.running ref)) (req : Request)
    (captureId : Option String) :
    Change p (p.send i req ref captureId).1 (p.send i req ref captureId).2 (!p.prepares req) := by
  unfold send
  cases p.prepares req with
  | true => exact change_of_same here rfl (silent_sent i)
  | false =>
    exact .lost i ref (keeps_setPhase (silent_answered i (some _)) i _) here
      (statuses_setPhase p i _)

theorem change_upstreamAnswered (here : p.statuses[i]? = some (.running ref)) (req : Request)
    (captureId : Option String) (status now : Nat) :
    Change p (p.upstreamAnswered i req ref captureId status now).1
      (p.upstreamAnswered i req ref captureId status now).2 false := by
  unfold upstreamAnswered
  split
  · exact change_close here _ _ _ _ _
  · exact change_of_same here rfl (silent_answered i (some _))

theorem change_upstreamFailed (here : p.statuses[i]? = some (.running ref)) (req : Request)
    (captureId : Option String) (now : Nat) :
    Change p (p.upstreamFailed i req ref captureId now).1
      (p.upstreamFailed i req ref captureId now).2 (req.websocket && p.tunnels) := by
  unfold upstreamFailed
  cases req.websocket && p.tunnels with
  | true =>
    exact .lost i ref (keeps_setPhase (silent_answered i (some _)) i _) here
      (statuses_setPhase p i _)
  | false => exact change_close here _ _ _ _ _

end Turns

theorem change_idle (p : Proxy) : Change p p [] false :=
  .still ⟨silent_nil, rfl, fun _ => rfl⟩ rfl

section Steps

variable [FloatProduct] [HttpLibrary]

theorem change_turn {p : Proxy} {i : Nat} {c : Call} (here : p.calls[i]? = some c) (t : Turn) :
    Change p (p.turn i c t).1 (p.turn i c t).2 (p.turnLeaks c t) := by
  have status := status_of_getElem? here
  have out := p.turn_outcome i c t
  generalize p.turn i c t = result at out
  obtain ⟨req, phase⟩ := c
  cases out with
  | idle t calm =>
    rw [calm]
    exact change_idle p
  | identified now at_ =>
    cases at_
    exact change_identify status req now
  | unreadable at_ =>
    cases at_
    exact .dismissed i (keeps_setPhase (silent_answered i (some _)) i _) status
      (statuses_setPhase p i _)
  | unheard at_ =>
    cases at_
    exact .dismissed i (keeps_setPhase silent_nil i _) status (statuses_setPhase p i _)
  | begun ref captureId now at_ =>
    cases at_
    exact change_beginCall status req captureId
  | stopping ref now at_ =>
    cases at_
    exact change_takeStop status
  | stopped ref style now at_ =>
    cases at_
    exact change_close status _ _ _ _ _
  | sent ref captureId now at_ =>
    cases at_
    exact change_send status req captureId
  | answered ref captureId code now at_ =>
    cases at_
    exact change_upstreamAnswered status req captureId code now
  | failed ref captureId now at_ =>
    cases at_
    exact change_upstreamFailed status req captureId now
  | cancelled ref captureId at_ =>
    cases at_
    exact .lost i ref (keeps_setPhase silent_nil i _) status (statuses_setPhase p i _)
  | metered ref captureId usage complete now at_ =>
    cases at_
    exact change_close status _ _ _ _ _
  | downgraded ref captureId now at_ =>
    cases at_
    exact change_close status _ _ _ _ _

/-- What a step does, and when it loses a call. -/
theorem change_step (p : Proxy) (e : RelayEvent) :
    Change p (p.step e).1 (p.step e).2 (p.leaks e) := by
  cases e with
  | arrive req =>
    refine .arrived (if req.isHello then .done else .waiting) ⟨?_, rfl, fun _ => rfl⟩ ?_ ?_
    · simp only [step]
      split
      · exact silent_answered _ (some _)
      · exact silent_nil
    · split
      · exact .inr rfl
      · exact .inl rfl
    · simp only [step, statuses, List.map_append, List.map_singleton]
      split <;> rfl
  | turn i t =>
    simp only [step, leaks]
    cases here : p.calls[i]? with
    | none => exact change_idle p
    | some c => exact change_turn here t

/-! ## The account of a run -/

/-- Every call is begun and finished as its status says, the live counts count what is begun and
not finished, and the ledger holds what is finished. -/
structure Accounts (p : Proxy) (fx : List Effect) : Prop where
  calls : ∀ i, Status.Balanced p.statuses[i]? (beginCount i fx) (finishCount i fx)
  live : ∀ root, p.live root = p.statuses.countP (Status.heldAt root)
  ledger : ∀ records, p.ledger = some records → records = fx.filterMap Effect.record
  total : fx.countP Effect.isBegun =
    (fx.filterMap Effect.record).length + p.statuses.countP Status.isHeld

omit [FloatProduct] [HttpLibrary] in
/-- A step that neither begins nor finishes keeps the account if no held call comes or goes. -/
theorem Accounts.keeps {p p' : Proxy} {fx gx : List Effect} (h : Accounts p fx)
    (k : Keeps p p' gx)
    (calls : ∀ (i : Nat) (b f : Nat), Status.Balanced p.statuses[i]? b f →
      Status.Balanced p'.statuses[i]? b f)
    (held : ∀ q : Status → Bool, q .waiting = false → q .done = false →
      (∀ ref, q (.lost ref) = q (.running ref)) →
      p'.statuses.countP q = p.statuses.countP q) :
    Accounts p' (fx ++ gx) where
  calls := by
    intro i
    rw [beginCount_append, finishCount_append, k.silent.beginCount, k.silent.finishCount]
    exact calls i _ _ (h.calls i)
  live := by
    intro root
    rw [k.live, h.live, held _ rfl rfl fun _ => rfl]
  ledger := by
    intro records hr
    rw [k.ledger] at hr
    rw [List.filterMap_append, k.silent.records, List.append_nil]
    exact h.ledger records hr
  total := by
    rw [List.countP_append, List.filterMap_append, k.silent.records, k.silent.begun,
      List.append_nil, held _ rfl rfl fun _ => rfl]
    exact h.total

omit [FloatProduct] [HttpLibrary] in
theorem balanced_set {l : List Status} {i : Nat} {st st' : Status} (here : l[i]? = some st)
    (b f : Nat) (same : Status.Balanced (some st) b f → Status.Balanced (some st') b f) {j : Nat}
    (before : Status.Balanced l[j]? b f) : Status.Balanced (l.set i st')[j]? b f := by
  rw [List.getElem?_set]
  split
  · next same_ =>
    subst same_
    obtain ⟨bound, -⟩ := List.getElem?_eq_some_iff.mp here
    rw [here] at before
    simpa [bound] using same before
  · exact before

omit [FloatProduct] [HttpLibrary] in
theorem Accounts.begun {p p' : Proxy} {fx : List Effect} (h : Accounts p fx) {i : Nat}
    {ref : NodeRef} {admission : Option Admission} (ledger : p'.ledger = p.ledger)
    (live : ∀ root, p'.live root = p.live root + if root = ref.root then 1 else 0)
    (here : p.statuses[i]? = some .waiting)
    (same : p'.statuses = p.statuses.set i (.running ref)) :
    Accounts p' (fx ++ [.begun i ref admission]) := by
  refine ⟨fun j => ?_, fun root => ?_, fun records hr => ?_, ?_⟩
  · have before := h.calls j
    rw [beginCount_append, finishCount_append, same, List.getElem?_set]
    by_cases this : i = j
    · subst this
      obtain ⟨bound, -⟩ := List.getElem?_eq_some_iff.mp here
      rw [here] at before
      obtain ⟨hb, hf⟩ := before
      simp [bound, hb, hf, Status.Balanced]
    · simpa [this] using before
  · have moved := countP_set_add (q := Status.heldAt root) (b := Status.running ref) here
    rw [live, h.live, same]
    simp only [Status.heldAt_waiting, Status.heldAt_running, Bool.false_eq_true, if_false,
      Nat.add_zero, decide_eq_true_eq] at moved
    exact moved.symm
  · rw [ledger] at hr
    rw [h.ledger records hr, List.filterMap_append]
    exact (List.append_nil _).symm
  · have moved := countP_set_add (q := Status.isHeld) (b := Status.running ref) here
    have before := h.total
    have one : [Effect.begun i ref admission].countP Effect.isBegun = 1 := rfl
    have none_ : [Effect.begun i ref admission].filterMap Effect.record = [] := rfl
    have counted : Status.waiting.isHeld = false ∧ (Status.running ref).isHeld = true :=
      ⟨rfl, rfl⟩
    rw [List.countP_append, List.filterMap_append, same, one, none_, List.append_nil]
    simp only [counted, if_true, Bool.false_eq_true, if_false, Nat.add_zero] at moved
    omega

omit [FloatProduct] [HttpLibrary] in
theorem Accounts.finished {p p' : Proxy} {fx : List Effect} (h : Accounts p fx) {i : Nat}
    {ref : NodeRef} {record : Record} {rest : List Effect}
    (ledger : p'.ledger = p.ledger.map (· ++ [record]))
    (live : ∀ root, p'.live root = p.live root - if root = ref.root then 1 else 0)
    (silent : Silent rest) (here : p.statuses[i]? = some (.running ref))
    (same : p'.statuses = p.statuses.set i .done) :
    Accounts p' (fx ++ .finished i record :: rest) := by
  have shape : fx ++ .finished i record :: rest = (fx ++ [.finished i record]) ++ rest := by simp
  have records : (fx ++ .finished i record :: rest).filterMap Effect.record =
      fx.filterMap Effect.record ++ [record] := by
    rw [shape, List.filterMap_append, silent.records, List.append_nil, List.filterMap_append]
    rfl
  refine ⟨fun j => ?_, fun root => ?_, fun all hr => ?_, ?_⟩
  · have before := h.calls j
    rw [shape, beginCount_append, finishCount_append, silent.beginCount, silent.finishCount,
      beginCount_append, finishCount_append, same, List.getElem?_set]
    by_cases this : i = j
    · subst this
      obtain ⟨bound, -⟩ := List.getElem?_eq_some_iff.mp here
      rw [here] at before
      obtain ⟨hb, hf⟩ := before
      simp [bound, hb, hf, Status.Balanced]
    · simpa [this] using before
  · have moved := countP_set_add (q := Status.heldAt root) (b := Status.done) here
    rw [live, h.live, same]
    simp only [Status.heldAt_done, Status.heldAt_running, Bool.false_eq_true, if_false,
      Nat.add_zero, decide_eq_true_eq] at moved
    omega
  · rw [records]
    cases before : p.ledger with
    | none =>
      rw [ledger, before] at hr
      cases hr
    | some old =>
      rw [ledger, before, Option.map_some, Option.some_inj] at hr
      rw [← hr, h.ledger old before]
  · have moved := countP_set_add (q := Status.isHeld) (b := Status.done) here
    have before := h.total
    have none_ : [Effect.finished i record].countP Effect.isBegun = 0 := rfl
    have counted : Status.done.isHeld = false ∧ (Status.running ref).isHeld = true := ⟨rfl, rfl⟩
    rw [records, shape, List.countP_append, silent.begun, List.countP_append, none_, same,
      List.length_append, List.length_singleton]
    simp only [counted, if_true, Bool.false_eq_true, if_false, Nat.add_zero] at moved
    omega

omit [FloatProduct] [HttpLibrary] in
theorem accounts_change {p p' : Proxy} {fx gx : List Effect} {leak : Bool} (h : Accounts p fx)
    (change : Change p p' gx leak) : Accounts p' (fx ++ gx) := by
  cases change with
  | still k same =>
    refine h.keeps k (fun i b f => ?_) fun q _ _ _ => ?_
    · rw [same]
      exact id
    · rw [same]
  | arrived st k idle same =>
    refine h.keeps k (fun i b f before => ?_) fun q waiting done _ => ?_
    · rw [same, List.getElem?_append]
      split
      · exact before
      · next beyond =>
        rw [List.getElem?_eq_none (by omega)] at before
        obtain ⟨rfl, rfl⟩ := before
        cases i - p.statuses.length with
        | zero => rcases idle with rfl | rfl <;> simp [Status.Balanced]
        | succ n => simp [Status.Balanced]
    · rw [same, List.countP_append]
      rcases idle with rfl | rfl <;> simp [waiting, done]
  | dismissed i k here same =>
    refine h.keeps k (fun j b f before => ?_) fun q waiting done _ => ?_
    · rw [same]
      refine balanced_set here b f ?_ before
      rintro ⟨hb, hf⟩
      exact ⟨hb.trans hf.symm, by omega⟩
    · have moved := countP_set_add (q := q) (b := Status.done) here
      rw [same]
      simpa [waiting, done] using moved
  | lost i ref k here same =>
    refine h.keeps k (fun j b f before => ?_) fun q _ _ alike => ?_
    · rw [same]
      refine balanced_set here b f ?_ before
      exact id
    · have moved := countP_set_add (q := q) (b := Status.lost ref) here
      rw [same]
      rw [alike] at moved
      exact Nat.add_right_cancel moved
  | begun i ref admission ledger live fx_ here same =>
    subst fx_
    exact h.begun ledger live here same
  | finished i ref record rest ledger live fx_ silent here same =>
    subst fx_
    exact h.finished ledger live silent here same

/-! ## Lost calls -/

def lostCount (p : Proxy) : Nat := p.statuses.countP Status.isLost

omit [FloatProduct] [HttpLibrary] in
theorem lostCount_change {p p' : Proxy} {fx : List Effect} {leak : Bool}
    (change : Change p p' fx leak) : p'.lostCount = p.lostCount + if leak then 1 else 0 := by
  have moves : ∀ {i : Nat} {st st' : Status}, p.statuses[i]? = some st →
      p'.statuses = p.statuses.set i st' →
      p'.lostCount + (if st.isLost then 1 else 0) =
        p.lostCount + if st'.isLost then 1 else 0 := by
    intro i st st' here same
    rw [lostCount, same]
    exact countP_set_add here
  cases change with
  | still _ same => simp [lostCount, same]
  | arrived st _ idle same =>
    rw [lostCount, same, List.countP_append]
    rcases idle with rfl | rfl <;> rfl
  | dismissed i _ here same => exact moves here same
  | lost i ref _ here same => exact moves here same
  | begun i ref admission _ _ _ here same => exact moves here same
  | finished i ref record rest _ _ _ _ here same => exact moves here same

/-- A lost call stays lost, and only a leak loses one. -/
theorem lostCount_final (p : Proxy) (es : List RelayEvent) :
    (Runs.final step p es).lostCount = 0 ↔
      p.lostCount = 0 ∧ Runs.Steps step (fun p e => p.leaks e = false) p es := by
  induction es generalizing p with
  | nil => simp
  | cons e es ih =>
    have counted := lostCount_change (p.change_step e)
    rw [Runs.final_cons, ih, Runs.steps_cons, counted]
    cases p.leaks e <;> simp

/-- The handler or the metering task of call `i` is still to run on. -/
def Open (p : Proxy) (i : Nat) : Prop := p.statuses[i]?.any Status.isRunning = true

instance (p : Proxy) (i : Nat) : Decidable (p.Open i) :=
  inferInstanceAs (Decidable (_ = true))

/-- Every begun request that no longer runs has been finished exactly once. -/
def FinishedOnce (p : Proxy) (fx : List Effect) : Prop :=
  ∀ i, 0 < beginCount i fx → ¬ p.Open i → finishCount i fx = 1

omit [FloatProduct] [HttpLibrary] in
theorem Accounts.once_iff_unlost {p : Proxy} {fx : List Effect} (h : Accounts p fx) :
    FinishedOnce p fx ↔ p.lostCount = 0 := by
  constructor
  · intro once
    rw [lostCount, List.countP_eq_zero]
    intro st hst lost
    obtain ⟨i, here⟩ := List.mem_iff_getElem?.mp hst
    have balanced := h.calls i
    rw [here] at balanced
    cases st with
    | lost ref =>
      obtain ⟨begun, unfinished⟩ := balanced
      have finished := once i (by omega) (by simp [Open, here, Status.isRunning])
      omega
    | waiting | running | done => cases lost
  · intro none_ i begun idle
    have balanced := h.calls i
    cases here : p.statuses[i]? with
    | none =>
      rw [here] at balanced
      obtain ⟨unbegun, -⟩ := balanced
      omega
    | some st =>
      rw [here] at balanced
      cases st with
      | waiting =>
        obtain ⟨unbegun, -⟩ := balanced
        omega
      | running ref => exact absurd (by simp [Open, here, Status.isRunning]) idle
      | lost ref =>
        rw [lostCount, List.countP_eq_zero] at none_
        exact absurd rfl (none_ _ (List.mem_of_getElem? here))
      | done =>
        obtain ⟨same, once⟩ := balanced
        omega

omit [FloatProduct] [HttpLibrary] in
/-- Where nothing is lost and nothing runs, nothing is held. -/
theorem countP_held_eq_zero {p : Proxy} (unlost : p.lostCount = 0) (quiet : ∀ i, ¬ p.Open i)
    {q : Status → Bool} (waiting : q .waiting = false) (done : q .done = false) :
    p.statuses.countP q = 0 := by
  rw [List.countP_eq_zero]
  intro st hst
  obtain ⟨i, here⟩ := List.mem_iff_getElem?.mp hst
  cases st with
  | waiting => simp [waiting]
  | done => simp [done]
  | running ref => exact absurd (by simp [Open, here, Status.isRunning]) (quiet i)
  | lost ref =>
    rw [lostCount, List.countP_eq_zero] at unlost
    exact absurd rfl (unlost _ hst)

theorem accounts_run (cfg : Config) (es : List RelayEvent) :
    Accounts (Runs.final step cfg.start es) (effects cfg es) := by
  apply effects_invariant cfg
  · exact fun p fx e h => accounts_change h (p.change_step e)
  · have calls : cfg.start.statuses = [] := by
      unfold Config.start
      cases cfg.budget <;> cases cfg.ledger <;> cases cfg.capture <;> rfl
    refine ⟨fun i => ?_, fun root => ?_, fun records hr => ?_, ?_⟩
    · rw [calls]
      exact ⟨rfl, rfl⟩
    · rw [calls, live, Arena.taskMut]
      have empty : cfg.start.arena.get root = none := by
        unfold Config.start
        rcases cfg.budget with _ | ⟨ceiling, rates, _ | share⟩ <;> cases cfg.ledger <;>
          cases cfg.capture <;> exact AList.lookup_empty root
      rw [empty, Option.getD_none, Arena.newTask_live]
      rfl
    · have before : cfg.start.ledger = none ∨ cfg.start.ledger = some [] := by
        unfold Config.start
        cases cfg.budget <;> cases cfg.ledger <;> cases cfg.capture <;>
          simp [withLedger, withCapture, withBudget, new]
      rw [hr] at before
      simpa using before
    · rw [calls]
      rfl

/-- Every run begins and finishes a request at most once. What it has begun and no longer runs is
finished exactly once if and only if no step of the run leaks a call. Where none does, no task is
live once nothing runs, and the ledger holds one record for each begun request. -/
theorem finishedOnce_iff (cfg : Config) (es : List RelayEvent) :
    (∀ i, finishCount i (effects cfg es) ≤ beginCount i (effects cfg es) ∧
      beginCount i (effects cfg es) ≤ 1) ∧
    (FinishedOnce (Runs.final step cfg.start es) (effects cfg es) ↔
      Runs.Steps step (fun p e => p.leaks e = false) cfg.start es) ∧
    (Runs.Steps step (fun p e => p.leaks e = false) cfg.start es →
      (∀ i, ¬ (Runs.final step cfg.start es).Open i) →
      (∀ root t, (Runs.final step cfg.start es).arena.get root = some t → t.live = 0) ∧
      ∀ records, (Runs.final step cfg.start es).ledger = some records →
        records = (effects cfg es).filterMap Effect.record ∧
        records.length = (effects cfg es).countP Effect.isBegun) := by
  have account := accounts_run cfg es
  have unlost : cfg.start.lostCount = 0 := by
    unfold Config.start
    cases cfg.budget <;> cases cfg.ledger <;> cases cfg.capture <;> rfl
  have leaks := lostCount_final cfg.start es
  refine ⟨fun i => (account.calls i).once, ?_,
    fun calm quiet => ⟨fun root t stored => ?_, fun records hr => ?_⟩⟩
  · rw [account.once_iff_unlost, leaks]
    simp [unlost]
  · have none_ := countP_held_eq_zero (leaks.mpr ⟨unlost, calm⟩) quiet
      (q := Status.heldAt root) rfl rfl
    have counted := account.live root
    rw [none_, live, Arena.taskMut, stored] at counted
    exact counted
  · have none_ := countP_held_eq_zero (leaks.mpr ⟨unlost, calm⟩) quiet
      (q := Status.isHeld) rfl rfl
    have same := account.ledger records hr
    have total := account.total
    rw [none_, ← same] at total
    exact ⟨same, total.symm⟩

end Steps

section Cases

attribute [local instance] exactProduct acceptingParsers

/-- A WebSocket upgrade whose upstream refuses the connection. -/
def unreachable : List RelayEvent :=
  [.arrive (sampleRequest none true), .turn 0 (.go 0), .turn 0 (.go 0), .turn 0 (.go 0),
    .turn 0 (.upstreamError 0)]

/-- It is begun and answered, and stays live without a finish. -/
theorem not_finishedOnce_unreachable :
    ¬ FinishedOnce (Runs.final step (Config.start ⟨sampleUpstream, none, true, false⟩) unreachable)
      (effects ⟨sampleUpstream, none, true, false⟩ unreachable) := by
  intro once
  have finished := once 0 (by decide +kernel) (by decide +kernel)
  revert finished
  decide +kernel

end Cases

end Proxy

end Tailfin
