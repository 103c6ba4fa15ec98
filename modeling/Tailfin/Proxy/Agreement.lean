import Tailfin.Ledger.Replay
import Tailfin.Tree.Rollup
import Tailfin.Proxy.Finish

/-!
# The report agrees with the arena

The arena is driven by begins and finishes as requests interleave, the ledger is replayed record
by record. What is begun is what is recorded and what is still held, so once nothing is held the
two hold the same tasks, nodes and counts, and the recorded peaks are the live ones.
-/

namespace Tailfin

/-! ## Where requests are begun and recorded -/

/-- A task and one of its nodes. -/
abbrev Place := String × String

def NodeRef.place (ref : NodeRef) : Place := (ref.root, ref.node)

def Record.place (r : Record) : Place := (r.taskId, r.node)

namespace Effect

def begunPlace : Effect → Option Place
  | begun _ ref _ => some ref.place
  | _ => none

def beginsAt (root : String) : Effect → Bool
  | begun _ ref _ => ref.root = root
  | _ => false

def finishesAt (root : String) : Effect → Bool
  | finished _ r => r.taskId = root
  | _ => false

end Effect

/-- How many requests of a task are begun and not finished. -/
def openCount (root : String) (fx : List Effect) : Nat :=
  fx.countP (Effect.beginsAt root) - fx.countP (Effect.finishesAt root)

/-- Every begun request is finished. -/
def AllFinished (fx : List Effect) : Prop :=
  ∀ i ∈ fx.filterMap Effect.begins, i ∈ fx.filterMap Effect.finishes

instance (fx : List Effect) : Decidable (AllFinished fx) :=
  inferInstanceAs (Decidable (∀ i ∈ _, _))

def begunPlaces (fx : List Effect) : List Place := fx.filterMap Effect.begunPlace

def recordsIn (fx : List Effect) : List Record := fx.filterMap Effect.record

theorem Silent.begunPlaces {fx : List Effect} (silent : Silent fx) : begunPlaces fx = [] := by
  rw [Tailfin.begunPlaces, List.filterMap_eq_nil_iff]
  intro e he
  have none_ := (silent e he).1
  cases e with
  | begun i ref admission => cases none_
  | finished i r | sent i | answered i a => rfl

/-- Replacing an entry replaces what the entry stands for. -/
theorem filterMap_set_perm {α β : Type} (f : α → Option β) {l : List α} {i : Nat} {a : α}
    (here : l[i]? = some a) (b : α) :
    ((l.set i b).filterMap f ++ (f a).toList).Perm (l.filterMap f ++ (f b).toList) := by
  induction l generalizing i with
  | nil => simp at here
  | cons c l ih =>
    cases i with
    | zero =>
      obtain rfl : c = a := by simpa using here
      have front : ∀ x, (x :: l).filterMap f = (f x).toList ++ l.filterMap f := by
        intro x
        rw [List.filterMap_cons]
        cases f x <;> rfl
      rw [List.set_cons_zero, front, front]
      apply List.perm_append_comm.trans
      rw [List.append_assoc]
      exact List.perm_append_comm.append_left _
    | succ i =>
      rw [List.set_cons_succ, List.filterMap_cons, List.filterMap_cons]
      have rest := ih (by simpa using here)
      cases f c with
      | none => exact rest
      | some x => exact rest.cons x

namespace Proxy

/-- Where the begun and unfinished requests are. -/
def heldPlaces (p : Proxy) : List Place :=
  p.statuses.filterMap fun st => st.held.map NodeRef.place

/-- What is begun is what is recorded and what is held. -/
def Placed (p : Proxy) (fx : List Effect) : Prop :=
  (begunPlaces fx).Perm ((recordsIn fx).map Record.place ++ p.heldPlaces)

theorem heldPlaces_set {p p' : Proxy} {i : Nat} {st st' : Status}
    (here : p.statuses[i]? = some st) (same : p'.statuses = p.statuses.set i st') :
    (p'.heldPlaces ++ (st.held.map NodeRef.place).toList).Perm
      (p.heldPlaces ++ (st'.held.map NodeRef.place).toList) := by
  rw [heldPlaces, same]
  exact filterMap_set_perm (fun st : Status => st.held.map NodeRef.place) here st'

/-! ## What a turn does to the arena -/

/-- A task that shows the same, whatever was sealed or stopped in it. -/
structure SameAccount (t t' : Task) : Prop where
  nodes : ∀ k, k ∈ t'.nodes ↔ k ∈ t.nodes
  tally : ∀ {M : Type} [AddCommMonoid M] (y : Tally M) k, y.readAt t' k = y.readAt t k
  counters : t'.counters = t.counters

/-- A turn begins a call, finishes one, stops one, or leaves the arena as it is. -/
inductive Deed [FloatProduct] (p p' : Proxy) (fx : List Effect) : Prop
  | still : Silent fx → p'.arena = p.arena → p'.heldPlaces.Perm p.heldPlaces → Deed p p' fx
  | stopped (ref : NodeRef) (t : Task) : Silent fx → ref.place ∈ p.heldPlaces →
      SameAccount (p.arena.taskMut ref.root) t → p'.arena = p.arena.put ref.root t →
      p'.heldPlaces.Perm p.heldPlaces → Deed p p' fx
  | begun (i : Nat) (ref : NodeRef) (admission : Option Admission) (t : Task) :
      fx = [.begun i ref admission] → SameAccount ((p.arena.taskMut ref.root).begin ref none) t →
      p'.arena = p.arena.put ref.root t → p'.heldPlaces.Perm (p.heldPlaces ++ [ref.place]) →
      Deed p p' fx
  | finished (i : Nat) (ref : NodeRef) (usage : Usage) (complete : Bool)
      (captureId : Option String) (now : Nat) (rest : List Effect) :
      fx = .finished i (p.finishLocked ref usage complete captureId now).2 :: rest →
      Silent rest → p'.arena = (p.finishLocked ref usage complete captureId now).1.arena →
      (p'.heldPlaces ++ [ref.place]).Perm p.heldPlaces → Deed p p' fx

theorem sameAccount_refl (t : Task) : SameAccount t t := ⟨fun _ => .rfl, fun _ _ => rfl, rfl⟩

theorem sameAccount_admission (p : Proxy) (req : Request) (ref : NodeRef) (t : Task) :
    SameAccount t (p.admission req ref t).2 := by
  unfold admission
  split
  · exact sameAccount_refl t
  · cases p.rates with
    | none => exact sameAccount_refl t
    | some rates =>
      exact ⟨t.mem_admitAt ref rates, fun y k => t.readAt_admitAt ref rates k y.seals,
        t.admitAt_counters ref rates⟩

theorem sameAccount_takeStop (t : Task) : SameAccount t t.takeStop.2 := by
  unfold Task.takeStop
  split
  · exact sameAccount_refl t
  · exact ⟨fun _ => .rfl, fun _ _ => rfl, rfl⟩

theorem mem_heldPlaces {p : Proxy} {i : Nat} {st : Status} {ref : NodeRef}
    (here : p.statuses[i]? = some st) (held : st.held = some ref) : ref.place ∈ p.heldPlaces := by
  apply List.mem_filterMap.mpr
  exact ⟨st, List.mem_of_getElem? here, by rw [held, Option.map_some]⟩

/-- A call that holds the same as before leaves the held places as they are. -/
theorem heldPlaces_setPhase {p : Proxy} {i : Nat} {st : Status}
    (here : p.statuses[i]? = some st) {phase : Phase} (same : phase.status.held = st.held) :
    (p.setPhase i phase).heldPlaces.Perm p.heldPlaces := by
  have moved := heldPlaces_set here (statuses_setPhase p i phase)
  rw [same] at moved
  exact (List.perm_append_right_iff _).mp moved

section Turns

variable [FloatProduct] {p : Proxy} {i : Nat} {ref : NodeRef}

theorem deed_setPhase {st : Status} (here : p.statuses[i]? = some st) {fx : List Effect}
    (silent : Silent fx) {phase : Phase} (same : phase.status.held = st.held) :
    Deed p (p.setPhase i phase) fx :=
  .still silent rfl (heldPlaces_setPhase here same)

theorem deed_close (here : p.statuses[i]? = some (.running ref)) (usage : Usage)
    (complete : Bool) (captureId : Option String) (now : Nat) (answer : Option Answer) :
    Deed p (p.close i ref usage complete captureId now answer).1
      (p.close i ref usage complete captureId now answer).2 := by
  refine .finished i ref usage complete captureId now _ rfl (silent_answered i answer) rfl ?_
  have moved := heldPlaces_set here
    (statuses_setPhase (p.finishLocked ref usage complete captureId now).1 i .ended)
  exact moved.trans (.of_eq (List.append_nil _))

theorem deed_beginCall (here : p.statuses[i]? = some .waiting) (req : Request)
    (captureId : Option String) :
    Deed p (p.beginCall i req ref captureId).1 (p.beginCall i req ref captureId).2 := by
  refine .begun i ref _ _ rfl (sameAccount_admission p req ref _) rfl ?_
  have statuses : (p.beginCall i req ref captureId).1.statuses =
      p.statuses.set i (.running ref) := by
    refine (statuses_setPhase _ i _).trans ?_
    rw [status_phaseAfter]
    rfl
  have moved := heldPlaces_set here statuses
  exact (List.Perm.of_eq (List.append_nil _).symm).trans moved

theorem deed_turn [HttpLibrary] {c : Call} (found : p.calls[i]? = some c) (t : Turn) :
    Deed p (p.turn i c t).1 (p.turn i c t).2 := by
  have status := status_of_getElem? found
  have out := p.turn_outcome i c t
  generalize p.turn i c t = result at out
  obtain ⟨req, phase⟩ := c
  cases out with
  | idle t calm => exact .still silent_nil rfl (.refl _)
  | identified now at_ =>
    cases at_
    exact .still silent_nil rfl
      (heldPlaces_setPhase (p := { p with ident := _ }) status rfl)
  | unreadable at_ =>
    cases at_
    exact deed_setPhase status (silent_answered i (some _)) rfl
  | unheard at_ =>
    cases at_
    exact deed_setPhase status silent_nil rfl
  | begun ref captureId now at_ =>
    cases at_
    exact deed_beginCall status req captureId
  | stopping ref now at_ =>
    cases at_
    exact .stopped ref _ silent_nil (mem_heldPlaces status rfl) (sameAccount_takeStop _) rfl
      (heldPlaces_setPhase (p := { p with arena := _ }) status rfl)
  | stopped ref style now at_ =>
    cases at_
    exact deed_close status _ _ _ _ _
  | sent ref captureId now at_ =>
    cases at_
    unfold send
    split
    · exact deed_setPhase status (silent_sent i) rfl
    · exact deed_setPhase status (silent_answered i (some _)) rfl
  | answered ref captureId code now at_ =>
    cases at_
    unfold upstreamAnswered
    split
    · exact deed_close status _ _ _ _ _
    · exact deed_setPhase status (silent_answered i (some _)) rfl
  | failed ref captureId now at_ =>
    cases at_
    unfold upstreamFailed
    split
    · exact deed_setPhase status (silent_answered i (some _)) rfl
    · exact deed_close status _ _ _ _ _
  | cancelled ref captureId at_ =>
    cases at_
    exact deed_setPhase status silent_nil rfl
  | metered ref captureId usage complete now at_ =>
    cases at_
    exact deed_close status _ _ _ _ _
  | downgraded ref captureId now at_ =>
    cases at_
    exact deed_close status _ _ _ _ _

/-- What a step does to the arena and to what is held. -/
theorem deed_step [HttpLibrary] (p : Proxy) (e : RelayEvent) :
    Deed p (p.step e).1 (p.step e).2 := by
  cases e with
  | arrive req =>
    refine .still ?_ rfl (.of_eq ?_)
    · simp only [step]
      split
      · exact silent_answered _ (some _)
      · exact silent_nil
    · simp only [step, heldPlaces, statuses, List.map_append, List.filterMap_append]
      split <;> simp [Phase.status, Status.held]
  | turn i t =>
    simp only [step]
    cases here : p.calls[i]? with
    | none => exact .still silent_nil rfl (.refl _)
    | some c => exact deed_turn here t

end Turns

/-! ## The arena mirrors the effects -/

/-- The arena holds what is begun, its readings are what is recorded, its live counts are what is
held, and a recorded peak is behind the live one only while a request is open. -/
structure Mirrors [FloatProduct] (p : Proxy) (fx : List Effect) : Prop where
  placed : Placed p fx
  tasks : ∀ root, root ∈ p.arena.tasks ↔ ∃ k, (root, k) ∈ begunPlaces fx
  nodes : ∀ root k, k ∈ (p.arena.taskMut root).nodes ↔ k = root ∨ (root, k) ∈ begunPlaces fx
  tally : ∀ {M : Type} [AddCommMonoid M] (y : Tally M) root k,
    y.readAt (p.arena.taskMut root) k = ((recordsOf (recordsIn fx) root).map (y.recorded k)).sum
  live : ∀ root, (p.arena.taskMut root).live =
    p.heldPlaces.countP fun place => place.1 = root
  peak : ∀ root, peakForTask (recordsIn fx) root ≤ (p.arena.taskMut root).peakConcurrency ∧
    (peakForTask (recordsIn fx) root = (p.arena.taskMut root).peakConcurrency ∨
      0 < (p.arena.taskMut root).live)

theorem sameAccount_put {a : Arena} {root : String} {t : Task}
    (same : SameAccount (a.taskMut root) t) (r : String) :
    SameAccount (a.taskMut r) ((a.put root t).taskMut r) := by
  rw [Arena.taskMut_put]
  split
  · next here => exact here ▸ same
  · exact sameAccount_refl _

section Mirror

variable [FloatProduct] {p p' : Proxy} {fx gx : List Effect}

/-- What one task shows of the effects. -/
structure Shows (fx : List Effect) (held : List Place) (root : String) (t : Task) : Prop where
  nodes : ∀ k, k ∈ t.nodes ↔ k = root ∨ (root, k) ∈ begunPlaces fx
  tally : ∀ {M : Type} [AddCommMonoid M] (y : Tally M) k,
    y.readAt t k = ((recordsOf (recordsIn fx) root).map (y.recorded k)).sum
  live : t.live = held.countP fun place => place.1 = root
  peak : peakForTask (recordsIn fx) root ≤ t.peakConcurrency ∧
    (peakForTask (recordsIn fx) root = t.peakConcurrency ∨ 0 < t.live)

theorem Mirrors.shows (h : Mirrors p fx) (root : String) :
    Shows fx p.heldPlaces root (p.arena.taskMut root) :=
  ⟨h.nodes root, fun y k => h.tally y root k, h.live root, h.peak root⟩

theorem mirrors_of_shows (placed : Placed p fx)
    (tasks : ∀ root, root ∈ p.arena.tasks ↔ ∃ k, (root, k) ∈ begunPlaces fx)
    (shows : ∀ root, Shows fx p.heldPlaces root (p.arena.taskMut root)) : Mirrors p fx :=
  ⟨placed, tasks, fun root => (shows root).nodes, fun y root => (shows root).tally y,
    fun root => (shows root).live, fun root => (shows root).peak⟩

omit [FloatProduct] in
/-- A task without a begin, a record or a change of what it holds shows what it showed. -/
theorem Shows.frame {held held' : List Place} {root : String} {t t' : Task}
    (shows : Shows fx held root t) (same : SameAccount t t')
    (begun : ∀ k, (root, k) ∈ begunPlaces gx ↔ (root, k) ∈ begunPlaces fx)
    (records : recordsOf (recordsIn gx) root = recordsOf (recordsIn fx) root)
    (count : (held'.countP fun place => place.1 = root) =
      held.countP fun place => place.1 = root) : Shows gx held' root t' := by
  obtain ⟨live, peak⟩ := Prod.mk.inj same.counters
  have top : peakForTask (recordsIn gx) root = peakForTask (recordsIn fx) root :=
    congrArg (fun l => (l.map Record.peakConcurrency).max?.getD 0) records
  refine ⟨fun k => ?_, fun y k => ?_, ?_, ?_⟩
  · rw [same.nodes, shows.nodes, begun]
  · rw [same.tally, shows.tally, records]
  · rw [live, shows.live, count]
  · rw [top, live, peak]
    exact shows.peak

/-- A begin shows in its task. -/
theorem Shows.begin {held held' : List Place} {ref : NodeRef} {t t' : Task}
    (shows : Shows fx held ref.root t) (same : SameAccount (t.begin ref none) t')
    (begun : ∀ k, (ref.root, k) ∈ begunPlaces gx ↔ (ref.root, k) ∈ begunPlaces fx ∨ k = ref.node)
    (records : recordsIn gx = recordsIn fx)
    (count : (held'.countP fun place => place.1 = ref.root) =
      (held.countP fun place => place.1 = ref.root) + 1) : Shows gx held' ref.root t' := by
  obtain ⟨live, peak⟩ := Prod.mk.inj (same.counters.trans (t.begin_counters none ref))
  refine ⟨fun k => ?_, fun y k => ?_, ?_, ?_⟩
  · rw [begun, same.nodes, Task.mem_begin, shows.nodes]
    tauto
  · have reading : y.readAt (t.begin ref none) k = y.readAt t k :=
      Task.readAt_begin _ ref none k y.labels y.allowances fun _ => y.fresh _ _ _ _
    rw [records, same.tally, reading, shows.tally]
  · rw [live, count, shows.live]
  · rw [records, live, peak]
    exact ⟨shows.peak.1.trans (le_max_left _ _), .inr (Nat.succ_pos _)⟩

omit [FloatProduct] in
/-- A finish shows in its task, with its record. -/
theorem Shows.finish {held held' : List Place} {ref : NodeRef} {t : Task} {usage : Usage}
    {complete : Bool} {record : Record} (shows : Shows fx held ref.root t)
    (made : record.taskId = ref.root ∧ record.node = ref.node ∧ record.usage = usage ∧
      (!record.incomplete) = complete ∧ record.peakConcurrency = t.peakConcurrency)
    (known : ref.place ∈ begunPlaces fx) (begun : begunPlaces gx = begunPlaces fx)
    (records : recordsIn gx = recordsIn fx ++ [record])
    (count : (held'.countP fun place => place.1 = ref.root) + 1 =
      held.countP fun place => place.1 = ref.root) :
    Shows gx held' ref.root (t.finish ref usage complete) := by
  obtain ⟨taskId, node, used, completed, top⟩ := made
  obtain ⟨live, peak⟩ := Prod.mk.inj (t.finish_counters ref usage complete)
  refine ⟨fun k => ?_, fun y k => ?_, ?_, ?_⟩
  · rw [begun, Task.mem_finish, shows.nodes]
    constructor
    · rintro (rfl | more)
      · exact .inr known
      · exact more
    · exact .inr
  · rw [records, recordsOf_append, if_pos taskId, y.readAt_finish, shows.tally, List.map_append,
      List.sum_append, List.map_singleton, List.sum_singleton, Tally.recorded, node, used,
      completed]
    split
    · rfl
    · exact (add_zero _).symm
  · rw [live, shows.live, ← count, Nat.add_sub_cancel]
  · rw [records, peakForTask_append, if_pos taskId, top, live, peak, max_eq_right shows.peak.1]
    exact ⟨le_refl _, .inl rfl⟩

omit [FloatProduct] in
theorem begunPlaces_append (fx gx : List Effect) :
    begunPlaces (fx ++ gx) = begunPlaces fx ++ begunPlaces gx := List.filterMap_append

omit [FloatProduct] in
theorem recordsIn_append (fx gx : List Effect) :
    recordsIn (fx ++ gx) = recordsIn fx ++ recordsIn gx := List.filterMap_append

omit [FloatProduct] in
theorem countP_place (ref : NodeRef) (root : String) :
    ([ref.place].countP fun place => place.1 = root) = if ref.root = root then 1 else 0 := by
  by_cases here : ref.root = root <;> simp [NodeRef.place, here]

theorem Mirrors.quiet (h : Mirrors p fx) (silent : Silent gx)
    (held : p'.heldPlaces.Perm p.heldPlaces)
    (same : ∀ root, SameAccount (p.arena.taskMut root) (p'.arena.taskMut root))
    (tasks : ∀ root, root ∈ p'.arena.tasks ↔ root ∈ p.arena.tasks) :
    Mirrors p' (fx ++ gx) := by
  have begun : begunPlaces (fx ++ gx) = begunPlaces fx := by
    rw [begunPlaces_append, silent.begunPlaces, List.append_nil]
  have records : recordsIn (fx ++ gx) = recordsIn fx := by
    rw [recordsIn_append, recordsIn, recordsIn, silent.records, List.append_nil]
  refine mirrors_of_shows ?_ (fun root => ?_) fun root => ?_
  · rw [Placed, begun, records]
    exact h.placed.trans (held.symm.append_left _)
  · rw [begun, tasks, h.tasks]
  · exact (h.shows root).frame (same root) (fun k => by rw [begun]) (by rw [records])
      (held.countP_eq _)

theorem Mirrors.begun (h : Mirrors p fx) {i : Nat} {ref : NodeRef} {admission : Option Admission}
    {t : Task} (same : SameAccount ((p.arena.taskMut ref.root).begin ref none) t)
    (arena : p'.arena = p.arena.put ref.root t)
    (held : p'.heldPlaces.Perm (p.heldPlaces ++ [ref.place])) :
    Mirrors p' (fx ++ [.begun i ref admission]) := by
  have begun : begunPlaces (fx ++ [.begun i ref admission]) = begunPlaces fx ++ [ref.place] :=
    begunPlaces_append _ _
  have records : recordsIn (fx ++ [.begun i ref admission]) = recordsIn fx :=
    (recordsIn_append _ _).trans (List.append_nil _)
  have here : ∀ root k, ((root, k) : Place) ∈ begunPlaces fx ++ [ref.place] ↔
      (root, k) ∈ begunPlaces fx ∨ root = ref.root ∧ k = ref.node := by
    intro root k
    simp [NodeRef.place]
  have count : ∀ root, (p'.heldPlaces.countP fun place => place.1 = root) =
      (p.heldPlaces.countP fun place => place.1 = root) + if ref.root = root then 1 else 0 := by
    intro root
    rw [held.countP_eq, List.countP_append, countP_place]
  have own : Shows (fx ++ [.begun i ref admission]) p'.heldPlaces ref.root t := by
    apply (h.shows ref.root).begin same
    · intro k
      rw [begun, here]
      simp
    · rw [records]
    · rw [count, if_pos rfl]
  refine mirrors_of_shows ?_ (fun root => ?_) fun root => ?_
  · rw [Placed, begun, records]
    refine (h.placed.append_right _).trans ?_
    rw [List.append_assoc]
    exact held.symm.append_left _
  · rw [begun, arena, Arena.put, AList.mem_insert, h.tasks]
    simp only [here]
    constructor
    · rintro (rfl | ⟨k, hk⟩)
      · exact ⟨ref.node, .inr ⟨rfl, rfl⟩⟩
      · exact ⟨k, .inl hk⟩
    · rintro ⟨k, hk | ⟨rfl, -⟩⟩
      · exact .inr ⟨k, hk⟩
      · exact .inl rfl
  · rw [arena, Arena.taskMut_put]
    by_cases ours : root = ref.root
    · rw [if_pos ours, ours]
      exact own
    · rw [if_neg ours]
      apply (h.shows root).frame (sameAccount_refl _)
      · intro k
        rw [begun, here]
        simp [ours]
      · rw [records]
      · rw [count, if_neg (Ne.symm ours), Nat.add_zero]

omit [FloatProduct] in
/-- The record of a finish says where and what was finished, and the peak so far. -/
theorem finishLocked_record (p : Proxy) (ref : NodeRef) (usage : Usage) (complete : Bool)
    (captureId : Option String) (now : Nat) :
    let record := (p.finishLocked ref usage complete captureId now).2
    record.taskId = ref.root ∧ record.node = ref.node ∧ record.usage = usage ∧
      (!record.incomplete) = complete ∧
      record.peakConcurrency = (p.arena.taskMut ref.root).peakConcurrency := by
  have peak : ((p.arena.put ref.root ((p.arena.taskMut ref.root).finish ref usage complete)).get
      ref.root).map Task.peakConcurrency = some (p.arena.taskMut ref.root).peakConcurrency := by
    have counters := (p.arena.taskMut ref.root).finish_counters ref usage complete
    rw [Arena.get_put, if_pos rfl, Option.map_some]
    exact congrArg some (Prod.mk.inj counters).2
  intro record
  have shape : record.taskId = ref.root ∧ record.node = ref.node ∧ record.usage = usage ∧
      record.incomplete = (!complete) ∧ record.peakConcurrency =
        (((p.arena.put ref.root ((p.arena.taskMut ref.root).finish ref usage complete)).get
          ref.root).map Task.peakConcurrency).getD 0 := by
    cases captureId <;> exact ⟨rfl, rfl, rfl, rfl, rfl⟩
  rw [peak] at shape
  obtain ⟨taskId, node, used, incomplete, top⟩ := shape
  exact ⟨taskId, node, used, by rw [incomplete, Bool.not_not], top⟩

theorem Mirrors.finished (h : Mirrors p fx) {i : Nat} {ref : NodeRef} {usage : Usage}
    {complete : Bool} {captureId : Option String} {now : Nat} {rest : List Effect}
    (silent : Silent rest)
    (arena : p'.arena = (p.finishLocked ref usage complete captureId now).1.arena)
    (held : (p'.heldPlaces ++ [ref.place]).Perm p.heldPlaces) :
    Mirrors p' (fx ++ .finished i (p.finishLocked ref usage complete captureId now).2 :: rest) := by
  have shown := p.finishLocked_record ref usage complete captureId now
  generalize recorded : (p.finishLocked ref usage complete captureId now).2 = record at shown ⊢
  have taskId := shown.1
  have begun : begunPlaces (fx ++ .finished i record :: rest) = begunPlaces fx := by
    rw [begunPlaces_append]
    exact (congrArg (_ ++ ·) silent.begunPlaces).trans (List.append_nil _)
  have records : recordsIn (fx ++ .finished i record :: rest) = recordsIn fx ++ [record] := by
    rw [recordsIn_append]
    exact congrArg (fun l => _ ++ record :: l) silent.records
  have known : ref.place ∈ begunPlaces fx := by
    rw [h.placed.mem_iff]
    exact List.mem_append_right _ (held.mem_iff.mp (by simp))
  have place : record.place = ref.place := Prod.ext taskId shown.2.1
  have count : ∀ root, (p'.heldPlaces.countP fun place => place.1 = root) +
      (if ref.root = root then 1 else 0) = p.heldPlaces.countP fun place => place.1 = root := by
    intro root
    rw [← held.countP_eq, List.countP_append, countP_place]
  have own : Shows (fx ++ .finished i record :: rest) p'.heldPlaces ref.root
      ((p.arena.taskMut ref.root).finish ref usage complete) := by
    apply (h.shows ref.root).finish shown known
    · rw [begun]
    · exact records
    · rw [← count, if_pos rfl]
  refine mirrors_of_shows ?_ (fun root => ?_) fun root => ?_
  · rw [Placed, begun, records, List.map_append, List.append_assoc]
    refine h.placed.trans (List.Perm.append_left _ ?_)
    rw [List.map_singleton, place]
    exact held.symm.trans List.perm_append_comm
  · have stored : root ∈ p'.arena.tasks ↔ root = ref.root ∨ root ∈ p.arena.tasks := by
      rw [arena]
      exact AList.mem_insert _
    rw [begun, stored, h.tasks]
    constructor
    · rintro (rfl | more)
      · exact ⟨ref.node, known⟩
      · exact more
    · exact .inr
  · have task : p'.arena.taskMut root =
        if root = ref.root then (p.arena.taskMut ref.root).finish ref usage complete
        else p.arena.taskMut root := by
      rw [arena]
      exact Arena.taskMut_put _ _ _ root
    rw [task]
    by_cases ours : root = ref.root
    · rw [if_pos ours, ours]
      exact own
    · rw [if_neg ours]
      apply (h.shows root).frame (sameAccount_refl _)
      · intro k
        rw [begun]
      · rw [records, recordsOf_append, if_neg fun e => ours (e.symm.trans taskId),
          List.append_nil]
      · rw [← count, if_neg (Ne.symm ours), Nat.add_zero]

theorem mirrors_deed (h : Mirrors p fx) (deed : Deed p p' gx) : Mirrors p' (fx ++ gx) := by
  cases deed with
  | still silent arena held =>
    refine h.quiet silent held (fun root => ?_) fun root => ?_
    · rw [arena]
      exact sameAccount_refl _
    · rw [arena]
  | stopped ref t silent here same arena held =>
    refine h.quiet silent held (fun root => ?_) fun root => ?_
    · rw [arena]
      exact sameAccount_put same root
    · have stored : ref.root ∈ p.arena.tasks := by
        rw [h.tasks]
        exact ⟨ref.node, h.placed.mem_iff.mpr (List.mem_append_right _ here)⟩
      rw [arena, Arena.put, AList.mem_insert]
      exact ⟨fun e => e.elim (fun same => same ▸ stored) id, .inr⟩
  | begun i ref admission t shape same arena held =>
    subst shape
    exact h.begun same arena held
  | finished i ref usage complete captureId now rest shape silent arena held =>
    subst shape
    exact h.finished silent arena held

end Mirror

section Run

variable [FloatProduct] [HttpLibrary]

omit [FloatProduct] [HttpLibrary] in
theorem start_heldPlaces (cfg : Config) : cfg.start.heldPlaces = [] := by
  unfold Config.start
  cases cfg.budget <;> cases cfg.ledger <;> cases cfg.capture <;> rfl

omit [FloatProduct] [HttpLibrary] in
theorem start_tasks (cfg : Config) : cfg.start.arena.tasks = ∅ := by
  unfold Config.start
  rcases cfg.budget with _ | ⟨ceiling, rates, _ | share⟩ <;> cases cfg.ledger <;>
    cases cfg.capture <;> rfl

omit [FloatProduct] [HttpLibrary] in
theorem start_taskMut (cfg : Config) (root : String) :
    cfg.start.arena.taskMut root = cfg.start.arena.newTask root := by
  rw [Arena.taskMut, Arena.get, start_tasks, AList.lookup_empty, Option.getD_none]

omit [FloatProduct] [HttpLibrary] in
theorem start_counters (cfg : Config) (root : String) :
    (cfg.start.arena.taskMut root).counters = (0, 0) :=
  (congrArg Task.counters (start_taskMut cfg root)).trans (Arena.newTask_counters _ root)

theorem mirrors_run (cfg : Config) (es : List RelayEvent) :
    Mirrors (Runs.final step cfg.start es) (effects cfg es) := by
  apply effects_invariant cfg
  · exact fun p fx e h => mirrors_deed h (p.deed_step e)
  · refine ⟨?_, fun root => ?_, fun root k => ?_, fun y root k => ?_, fun root => ?_,
      fun root => ?_⟩
    · rw [Placed, start_heldPlaces]
      exact .refl _
    · rw [start_tasks]
      simp [begunPlaces]
    · rw [start_taskMut, Arena.mem_newTask]
      simp [begunPlaces]
    · rw [start_taskMut, y.readAt_newTask]
      rfl
    · rw [start_heldPlaces]
      exact congrArg Prod.fst (start_counters cfg root)
    · obtain ⟨-, peak⟩ := Prod.mk.inj (start_counters cfg root)
      rw [peak]
      exact ⟨le_refl _, .inl rfl⟩

omit [HttpLibrary] in
/-- A step opens one request of a task, closes one, or does neither. -/
theorem counters_deed {p p' : Proxy} {fx : List Effect} (deed : Deed p p' fx) (root : String) :
    (p'.arena.taskMut root).counters = (p.arena.taskMut root).counters ∨
    (p'.arena.taskMut root).counters = ((p.arena.taskMut root).live + 1,
      max (p.arena.taskMut root).peakConcurrency ((p.arena.taskMut root).live + 1)) ∨
    (p'.arena.taskMut root).counters =
      ((p.arena.taskMut root).live - 1, (p.arena.taskMut root).peakConcurrency) := by
  cases deed with
  | still silent arena held => exact .inl (by rw [arena])
  | stopped ref t silent here same arena held =>
    exact .inl (by rw [arena]; exact (sameAccount_put same root).counters)
  | begun i ref admission t shape same arena held =>
    rw [arena, Arena.taskMut_put]
    split
    · next ours =>
      subst ours
      exact .inr (.inl (same.counters.trans (Task.begin_counters _ none ref)))
    · exact .inl rfl
  | finished i ref usage complete captureId now rest shape silent arena held =>
    have task := Arena.taskMut_put p.arena ref.root
      ((p.arena.taskMut ref.root).finish ref usage complete) root
    rw [arena]
    show (((p.arena.put ref.root _).taskMut root).counters = _) ∨
      (((p.arena.put ref.root _).taskMut root).counters = _) ∨
      (((p.arena.put ref.root _).taskMut root).counters = _)
    rw [task]
    split
    · next ours =>
      subst ours
      exact .inr (.inr (Task.finish_counters _ ref usage complete))
    · exact .inl rfl

/-- No task has more requests open than it ever had at most. -/
theorem live_le_peak (cfg : Config) (es : List RelayEvent) (root : String) :
    ((Runs.final step cfg.start es).arena.taskMut root).live ≤
      ((Runs.final step cfg.start es).arena.taskMut root).peakConcurrency := by
  refine Runs.final_invariant (P := fun _ _ => True)
    (I := fun p : Proxy => (p.arena.taskMut root).live ≤ (p.arena.taskMut root).peakConcurrency)
    (fun p e bound _ => ?_) ?_ (Runs.steps_of_forall (fun _ _ => trivial) _ _)
  · rcases counters_deed (p.deed_step e) root with same | same | same <;>
      obtain ⟨live, peak⟩ := Prod.mk.inj same
    · rw [live, peak]
      exact bound
    · rw [live, peak]
      exact le_max_right _ _
    · rw [live, peak]
      exact (Nat.sub_le _ _).trans bound
  · obtain ⟨live, peak⟩ := Prod.mk.inj (start_counters cfg root)
    rw [live, peak]

/-- The live peak is the most requests of the task that were open at once. -/
theorem peak_isGreatest (cfg : Config) (es : List RelayEvent) (root : String) :
    IsGreatest {n | ∃ pre, pre <+: es ∧
        ((Runs.final step cfg.start pre).arena.taskMut root).live = n}
      ((Runs.final step cfg.start es).arena.taskMut root).peakConcurrency := by
  apply Runs.final_isGreatest (fun p : Proxy => (p.arena.taskMut root).peakConcurrency)
    fun p : Proxy => (p.arena.taskMut root).live
  · intro pre e _
    have bound := live_le_peak cfg pre root
    have last : Runs.final step cfg.start (pre ++ [e]) =
        ((Runs.final step cfg.start pre).step e).1 := Runs.final_append step _ pre [e]
    rw [last]
    rcases counters_deed ((Runs.final step cfg.start pre).deed_step e) root with
      same | same | same <;> obtain ⟨live, peak⟩ := Prod.mk.inj same
    · rw [live, peak, max_eq_left bound]
    · rw [live, peak]
    · rw [live, peak, max_eq_left ((Nat.sub_le _ _).trans bound)]
  · obtain ⟨live, peak⟩ := Prod.mk.inj (start_counters cfg root)
    rw [live, peak]

/-! ## The report of a finished run -/

omit [FloatProduct] [HttpLibrary] in
theorem countP_beginsAt (root : String) (fx : List Effect) :
    fx.countP (Effect.beginsAt root) = (begunPlaces fx).countP fun place => place.1 = root := by
  induction fx with
  | nil => rfl
  | cons e fx ih =>
    rw [begunPlaces] at ih ⊢
    rw [List.countP_cons, ih]
    cases e with
    | begun i ref admission =>
      rw [List.filterMap_cons_some (f := Effect.begunPlace) rfl, List.countP_cons]
      rfl
    | _ => rfl

omit [FloatProduct] [HttpLibrary] in
theorem countP_finishesAt (root : String) (fx : List Effect) :
    fx.countP (Effect.finishesAt root) =
      ((recordsIn fx).map Record.place).countP fun place => place.1 = root := by
  induction fx with
  | nil => rfl
  | cons e fx ih =>
    rw [recordsIn] at ih ⊢
    rw [List.countP_cons, ih]
    cases e with
    | finished i r =>
      rw [List.filterMap_cons_some (f := Effect.record) rfl, List.map_cons, List.countP_cons]
      rfl
    | _ => rfl

omit [HttpLibrary] in
/-- The live count is what is begun and not finished. -/
theorem Mirrors.openCount {p : Proxy} {fx : List Effect} (h : Mirrors p fx) (root : String) :
    openCount root fx = (p.arena.taskMut root).live := by
  have count := h.placed.countP_eq fun place => decide (place.1 = root)
  rw [List.countP_append] at count
  rw [Tailfin.openCount, countP_beginsAt, countP_finishesAt, h.live, count]
  exact Nat.add_sub_cancel_left _ _

/-- Once every begun request is finished, nothing is held. -/
theorem heldPlaces_of_allFinished (cfg : Config) (es : List RelayEvent)
    (closed : AllFinished (effects cfg es)) :
    (Runs.final step cfg.start es).heldPlaces = [] := by
  have account := accounts_run cfg es
  apply List.filterMap_eq_nil_iff.mpr
  intro st hst
  obtain ⟨i, here⟩ := List.mem_iff_getElem?.mp hst
  have balanced := account.calls i
  rw [here] at balanced
  have unbalanced : ¬ (beginCount i (effects cfg es) = 1 ∧ finishCount i (effects cfg es) = 0) := by
    rintro ⟨once, never⟩
    obtain ⟨e, he, begins⟩ := List.countP_pos_iff.mp (once.symm ▸ Nat.one_pos)
    have finished := closed i (List.mem_filterMap.mpr ⟨e, he, of_decide_eq_true begins⟩)
    obtain ⟨e', he', finishes⟩ := List.mem_filterMap.mp finished
    exact List.countP_eq_zero.mp never e' he' (decide_eq_true finishes)
  cases st with
  | waiting | done => rfl
  | running ref | lost ref => exact absurd balanced unbalanced

end Run

end Proxy

/-! ## Agreement -/

/-- A task of a report shows what the live task shows. -/
structure SameReport (t live : Task) : Prop where
  nodes : ∀ k, k ∈ t.nodes ↔ k ∈ live.nodes
  usage : ∀ k, t.usageAt k = live.usageAt k
  requests : ∀ k, Tally.requests.readAt t k = Tally.requests.readAt live k
  incomplete : ∀ k, Tally.incomplete.readAt t k = Tally.incomplete.readAt live k
  spent : ∀ rates, t.spentMicros rates = live.spentMicros rates

/-- The report over records has the tasks of the arena. -/
structure ReportsArena [FloatProduct] (records : List Record) (a : Arena) : Prop where
  once : ((tasksFromRecords records).map Task.root).Nodup
  roots : ∀ root, root ∈ (tasksFromRecords records).map Task.root ↔ (a.get root).isSome
  tasks : ∀ t ∈ tasksFromRecords records, ∀ live, a.get t.root = some live → SameReport t live
  peaks : ∀ root live, a.get root = some live → peakForTask records root = live.peakConcurrency

namespace Proxy

section Report

variable [FloatProduct]

theorem roots_tasksFromRecords (records : List Record) :
    (tasksFromRecords records).map Task.root = rootsOf records := by
  rw [tasksFromRecords_eq, List.map_map]
  exact List.map_id'' (taskFrom_root records) _

theorem Mirrors.reportsArena {p : Proxy} {fx : List Effect} (h : Mirrors p fx)
    (quiet : p.heldPlaces = []) : ReportsArena (recordsIn fx) p.arena := by
  have places : (begunPlaces fx).Perm ((recordsIn fx).map Record.place) := by
    have placed := h.placed
    rwa [Placed, quiet, List.append_nil] at placed
  have recorded : ∀ root k, ((root, k) : Place) ∈ begunPlaces fx ↔
      ∃ r ∈ recordsIn fx, r.taskId = root ∧ r.node = k := by
    intro root k
    rw [places.mem_iff, List.mem_map]
    simp [Record.place]
  have stored : ∀ root, root ∈ p.arena.tasks ↔ root ∈ rootsOf (recordsIn fx) := by
    intro root
    rw [h.tasks, mem_rootsOf]
    simp only [recorded]
    constructor
    · rintro ⟨k, r, hr, same, -⟩
      exact ⟨r, hr, same⟩
    · rintro ⟨r, hr, same⟩
      exact ⟨r.node, r, hr, same, rfl⟩
  refine ⟨?_, fun root => ?_, ?_, ?_⟩
  · rw [roots_tasksFromRecords]
    exact (List.mergeSort_perm _ _).nodup_iff.mpr (List.nodup_dedup _)
  · rw [roots_tasksFromRecords, ← stored, Arena.get, AList.lookup_isSome]
  · intro t ht live hlive
    obtain ⟨r, hr, rfl⟩ := mem_tasksFromRecords.mp ht
    rw [taskFrom_root] at hlive
    have task : p.arena.taskMut r.taskId = live := by
      rw [Arena.taskMut, hlive, Option.getD_some]
    have tally : ∀ {M : Type} [AddCommMonoid M] (y : Tally M) k,
        y.readAt (taskFrom (recordsIn fx) r.taskId) k = y.readAt live k := by
      intro M _ y k
      rw [readAt_taskFrom, ← task, h.tally]
    have usage : ∀ k, (taskFrom (recordsIn fx) r.taskId).usageAt k = live.usageAt k :=
      tally Tally.usage
    refine ⟨fun k => ?_, usage, tally Tally.requests, tally Tally.incomplete,
      fun rates => Task.spentMicros_congr rates usage⟩
    rw [← Task.mem_order, mem_taskFrom, ← task, h.nodes, recorded]
  · intro root live hlive
    have task : p.arena.taskMut root = live := by
      rw [Arena.taskMut, hlive, Option.getD_some]
    have idle : (p.arena.taskMut root).live = 0 := by
      rw [h.live, quiet]
      rfl
    rcases (h.peak root).2 with same | running
    · rw [same, task]
    · omega

variable [HttpLibrary]

/-- Once a run has finished all that it began, the report over its ledger has the tasks, nodes
and counts of the arena, and the peaks are the most requests that were open at once. -/
theorem report_agrees (cfg : Config) (es : List RelayEvent) {records : List Record}
    (written : (Runs.final step cfg.start es).ledger = some records)
    (closed : AllFinished (effects cfg es)) :
    ReportsArena records (Runs.final step cfg.start es).arena ∧
      ∀ root live, (Runs.final step cfg.start es).arena.get root = some live →
        IsGreatest {n | ∃ pre, pre <+: es ∧ openCount root (effects cfg pre) = n}
          live.peakConcurrency := by
  have same := (accounts_run cfg es).ledger records written
  have quiet := heldPlaces_of_allFinished cfg es closed
  refine ⟨?_, fun root live hlive => ?_⟩
  · rw [same]
    exact (mirrors_run cfg es).reportsArena quiet
  · have task : (Runs.final step cfg.start es).arena.taskMut root = live := by
      rw [Arena.taskMut, hlive, Option.getD_some]
    have opened : ∀ pre, openCount root (effects cfg pre) =
        ((Runs.final step cfg.start pre).arena.taskMut root).live :=
      fun pre => (mirrors_run cfg pre).openCount root
    have greatest := peak_isGreatest cfg es root
    rw [task] at greatest
    simp only [opened]
    exact greatest

end Report

section Cases

attribute [local instance] exactProduct acceptingParsers

/-- The main thread and an agent of a session, one inside the other. -/
def twoAgents : List RelayEvent :=
  [.arrive (sampleRequest none false), .arrive (sampleRequest (some "a") false),
    .turn 0 (.go 1), .turn 1 (.go 1), .turn 0 (.go 1), .turn 1 (.go 1), .turn 0 (.go 1),
    .turn 1 (.go 1), .turn 1 (.upstream 200 2), .turn 1 (.metered (.out 9) true 3),
    .turn 0 (.upstream 200 4), .turn 0 (.metered (.out 5) false 5)]

theorem report_agrees_twoAgents :
    ReportsArena (recordsIn (effects ⟨sampleUpstream, none, true, false⟩ twoAgents))
        (Runs.final step (Config.start ⟨sampleUpstream, none, true, false⟩) twoAgents).arena ∧
      ∀ root live,
        (Runs.final step (Config.start ⟨sampleUpstream, none, true, false⟩) twoAgents).arena.get
          root = some live →
        IsGreatest {n | ∃ pre, pre <+: twoAgents ∧
          openCount root (effects ⟨sampleUpstream, none, true, false⟩ pre) = n}
          live.peakConcurrency :=
  report_agrees ⟨sampleUpstream, none, true, false⟩ twoAgents (by decide +kernel)
    (by decide +kernel)

end Cases

end Proxy

end Tailfin
