import Tailfin.Ledger.Replay
import Tailfin.Library.Simulation
import Tailfin.Proxy.Stops

/-!
# The arena runs its tasks

Whatever the requests of a proxy do, and in whatever order, each task of the arena only goes
through `begin`, `admit_at` and `finish` calls of its own requests. The effects of a run say which
ones, so that what holds of every run of a task holds of every task of a proxy.
-/

namespace Tailfin

/-! ## What the effects say of a task -/

namespace Effect

/-- The calls on the task `root` that the effect stands for. -/
def taskEvents (root : String) : Effect → List TaskEvent
  | .begun _ ref admission =>
    if ref.root = root then
      .begin ref none :: if admission.isSome then [.admitAt ref] else []
    else []
  | .finished _ r => if r.taskId = root then [.finish r.ref r.usage (!r.incomplete)] else []
  | _ => []

/-- The admission that the task `root` returned. -/
def admission (root : String) : Effect → Option Admission
  | .begun _ ref a => if ref.root = root then a else none
  | _ => none

/-- The plain call of the task `root` that the effect begins, where `fx` sends it. -/
def sentPlain (root : String) (fx : List Effect) : Effect → Option Nat
  | .begun i ref (some _) => if ref.root = root ∧ .sent i ∈ fx then some i else none
  | _ => none

theorem sentPlain_eq_some {root : String} {fx : List Effect} {e : Effect} {i : Nat}
    (h : e.sentPlain root fx = some i) :
    ∃ ref a, e = .begun i ref (some a) ∧ ref.root = root ∧ .sent i ∈ fx := by
  cases e with
  | begun j ref admission =>
    cases admission with
    | none => cases h
    | some a =>
      rw [sentPlain] at h
      split at h
      · next both =>
        obtain rfl := Option.some.inj h
        exact ⟨ref, a, rfl, both⟩
      · cases h
  | sent | finished | answered => cases h

end Effect

def taskEvents (root : String) (fx : List Effect) : List TaskEvent :=
  fx.flatMap (Effect.taskEvents root)

/-- The admissions of the task's requests, in order. -/
def admissionsIn (root : String) (fx : List Effect) : List Admission :=
  fx.filterMap (Effect.admission root)

/-- The plain calls of the task that `gx` begins and `fx` sends. -/
def sentPlain (root : String) (fx gx : List Effect) : List Nat :=
  gx.filterMap (Effect.sentPlain root fx)

@[simp] theorem taskEvents_nil (root : String) : taskEvents root [] = [] := rfl

@[simp] theorem taskEvents_answered (root : String) (i : Nat) (a : Answer) (fx : List Effect) :
    taskEvents root (.answered i a :: fx) = taskEvents root fx := rfl

@[simp] theorem taskEvents_sent (root : String) (i : Nat) (fx : List Effect) :
    taskEvents root (.sent i :: fx) = taskEvents root fx := rfl

theorem taskEvents_append (root : String) (fx gx : List Effect) :
    taskEvents root (fx ++ gx) = taskEvents root fx ++ taskEvents root gx := by
  rw [taskEvents, List.flatMap_append]
  rfl

/-! ## The stop flag apart -/

attribute [ext] Task

namespace Task

/-- The task, but for whether its synthetic stop was taken. -/
def withStop (t : Task) (sent : Bool) : Task := { t with syntheticSent := sent }

theorem withStop_self (t : Task) : t.withStop t.syntheticSent = t := rfl

theorem withStop_takeStop (t : Task) (b : Bool) : t.takeStop.2.withStop b = t.withStop b := by
  unfold takeStop
  split <;> rfl

theorem modifyNode_nodes (t : Task) (k : String) (f : Node → Node)
    (keep : ∀ n, (f n).id = n.id) :
    (t.modifyNode k f keep).nodes =
      (t.nodes.lookup k).elim t.nodes fun n => t.nodes.insert k (f n) := by
  rcases t.modifyNode_cases k f keep with ⟨absent, same⟩ | ⟨n, stored, nodes⟩
  · rw [absent, same]
    rfl
  · rw [stored, nodes]
    rfl

theorem withStop_modifyNode (t : Task) (b : Bool) (k : String) (f : Node → Node)
    (keep : ∀ n, (f n).id = n.id) :
    (t.withStop b).modifyNode k f keep = (t.modifyNode k f keep).withStop b := by
  have counters := ((t.withStop b).modifyNode_counters k f keep).trans
    (t.modifyNode_counters k f keep).symm
  apply Task.ext
  · exact ((t.withStop b).modifyNode_root k f keep).trans (t.modifyNode_root k f keep).symm
  · exact ((t.withStop b).modifyNode_nodes k f keep).trans (t.modifyNode_nodes k f keep).symm
  · exact ((t.withStop b).modifyNode_order k f keep).trans (t.modifyNode_order k f keep).symm
  · exact ((t.withStop b).modifyNode_ceilingMicros k f keep).trans
      (t.modifyNode_ceilingMicros k f keep).symm
  · exact ((t.withStop b).modifyNode_sealed k f keep).trans (t.modifyNode_sealed k f keep).symm
  · exact congrArg Prod.snd counters
  · exact congrArg Prod.fst counters
  · exact ((t.withStop b).modifyNode_voucherShare k f keep).trans
      (t.modifyNode_voucherShare k f keep).symm
  · exact (t.withStop b).modifyNode_syntheticSent k f keep

theorem withStop_ensure (t : Task) (b : Bool) (node : String) (parent label : Option String) :
    (t.withStop b).ensure node parent label = (t.ensure node parent label).withStop b := by
  unfold ensure
  by_cases stored : node ∈ t.nodes
  · have stored' : node ∈ (t.withStop b).nodes := stored
    rw [dif_pos stored', dif_pos stored]
    cases label with
    | none => rfl
    | some l => exact t.withStop_modifyNode b _ _ _
  · have absent : node ∉ (t.withStop b).nodes := stored
    rw [dif_neg absent, dif_neg stored]
    rfl

theorem withStop_mintVoucher [FloatProduct] (t : Task) (b : Bool) (ref : NodeRef) :
    (t.withStop b).mintVoucher ref = (t.mintVoucher ref).withStop b := by
  cases share : t.voucherShare with
  | none =>
    have share' : (t.withStop b).voucherShare = none := share
    simp only [mintVoucher, share, share']
  | some s =>
    have share' : (t.withStop b).voucherShare = some s := share
    simp only [mintVoucher, share, share']
    show (if ref.isRoot then _ else if (t.voucherOf ref.node).isSome then _ else _) = _
    split
    · rfl
    split
    · rfl
    exact t.withStop_modifyNode b _ _ _

theorem withStop_begin [FloatProduct] (t : Task) (b : Bool) (ref : NodeRef)
    (label : Option String) :
    (t.withStop b).begin ref label = (t.begin ref label).withStop b := by
  unfold begin
  rw [withStop_ensure, withStop_mintVoucher]
  rfl

theorem withStop_finish (t : Task) (b : Bool) (ref : NodeRef) (usage : Usage) (complete : Bool) :
    (t.withStop b).finish ref usage complete = (t.finish ref usage complete).withStop b := by
  unfold finish
  rw [withStop_ensure, withStop_modifyNode]
  rfl

theorem withStop_admitTask (t : Task) (b : Bool) (rates : RateCard) :
    (t.withStop b).admitTask rates = ((t.admitTask rates).1, (t.admitTask rates).2.withStop b) := by
  cases ceil : t.ceilingMicros with
  | none =>
    have ceil' : (t.withStop b).ceilingMicros = none := ceil
    simp only [admitTask, ceil, ceil']
  | some ceiling =>
    have ceil' : (t.withStop b).ceilingMicros = some ceiling := ceil
    cases shut : t.sealed with
    | true =>
      rw [admit_of_sealed rates ceil shut, admit_of_sealed rates ceil' shut]
      rfl
    | false =>
      by_cases reached : ceiling ≤ t.spentMicros rates
      · rw [admit_of_reached rates ceil shut reached, admit_of_reached rates ceil' shut reached]
        rfl
      · have under := UInt64.not_le.mp reached
        rw [admit_of_under rates ceil shut under, admit_of_under rates ceil' shut under]

theorem withStop_admitAt (t : Task) (b : Bool) (ref : NodeRef) (rates : RateCard) :
    (t.withStop b).admitAt ref rates =
      ((t.admitAt ref rates).1, (t.admitAt ref rates).2.withStop b) := by
  unfold admitAt
  rw [withStop_admitTask]
  rcases t.admitTask rates with ⟨_ | _ | _, u⟩
  · show (if u.allowanceOf ref.node = 0 ∧ u.ceilingMicros.isNone then _ else
      if u.nodeSealed ref.node then _ else
        if u.subtreeSpentMicros ref.node rates ≥ u.allowanceOf ref.node ∧ (u.voucherOf ref.node).isSome then _ else _) = _
    simp only
    split
    · rfl
    split
    · rfl
    split
    · rw [withStop_modifyNode]
    · rfl
  · rfl
  · rfl

/-- Every denial of a run carries a spend that reached its cap. -/
theorem le_of_deny_mem [FloatProduct] {rates : RateCard} {ceiling : UInt64} {t : Task}
    (start : Justified rates ceiling t) {es : List TaskEvent}
    (fits : Runs.Steps (step rates) (NoOverflow rates) t es) {spent cap : UInt64}
    (denied : .deny spent cap ∈ (Runs.trace (step rates) t es).filterMap Runs.Entry.output) :
    cap ≤ spent := by
  obtain ⟨x, hx, denies⟩ := List.mem_filterMap.mp denied
  obtain ⟨inv, -, made⟩ :=
    Runs.trace_invariant (fun _ _ => justified_step) start fits x hx
  rw [made] at denies
  cases event : x.event with
  | begin ref label => simp [event, step] at denies
  | finish ref usage complete => simp [event, step] at denies
  | admitAt ref =>
    rw [event] at denies
    exact le_of_deny inv (Option.some.inj denies)

end Task

namespace Proxy

/-! ## A turn is a run of one task -/

section Turns

variable [FloatProduct] {p p' : Proxy} {i : Nat} {ref : NodeRef} {rates : RateCard}
  {root : String} {fx : List Effect}

/-- What the effects say of the task is what happened to it, and what it returned. -/
structure TaskRun (rates : RateCard) (root : String) (p p' : Proxy) (fx : List Effect) : Prop where
  state : (p'.arena.taskMut root).withStop false =
    Runs.final (Task.step rates) ((p.arena.taskMut root).withStop false) (taskEvents root fx)
  output : admissionsIn root fx =
    (Runs.trace (Task.step rates) ((p.arena.taskMut root).withStop false)
      (taskEvents root fx)).flatMap fun x => x.output.toList

/-- Nothing happens to the task but perhaps a stop. -/
theorem TaskRun.still (calm : taskEvents root fx = []) (quiet : admissionsIn root fx = [])
    (same : (p'.arena.taskMut root).withStop false = (p.arena.taskMut root).withStop false) :
    TaskRun rates root p p' fx := by
  refine ⟨?_, ?_⟩
  · rw [calm, same]
    rfl
  · rw [calm, quiet]
    rfl

omit [FloatProduct] in
theorem taskMut_takeStop (p : Proxy) (i : Nat) (ref : NodeRef) (root : String) :
    ((p.takeStop i ref).1.arena.taskMut root).withStop false =
      (p.arena.taskMut root).withStop false := by
  have put : (p.takeStop i ref).1.arena =
      p.arena.put ref.root (p.arena.taskMut ref.root).takeStop.2 := rfl
  rw [put, Arena.taskMut_put]
  split
  · next same => rw [Task.withStop_takeStop, same]
  · rfl

theorem taskRun_beginCall (priced : p.rates = some rates) (req : Request)
    (captureId : Option String) :
    TaskRun rates root p (p.beginCall i req ref captureId).1
      (p.beginCall i req ref captureId).2 := by
  have put : (p.beginCall i req ref captureId).1.arena = p.arena.put ref.root
      (p.admission req ref ((p.arena.taskMut ref.root).begin ref none)).2 := rfl
  by_cases here : ref.root = root
  · subst here
    cases socket : req.websocket with
    | true =>
      have asked : ∀ t, p.admission req ref t = (none, t) := fun t => by simp [admission, socket]
      have events : taskEvents ref.root (p.beginCall i req ref captureId).2 =
          [.begin ref none] := by
        simp [beginCall, asked, taskEvents, Effect.taskEvents]
      refine ⟨?_, ?_⟩
      · rw [events, put, Arena.taskMut_put, if_pos rfl, asked, ← Task.withStop_begin]
        rfl
      · rw [events]
        simp [beginCall, asked, admissionsIn, Effect.admission, Task.step]
    | false =>
      have asked : ∀ t, p.admission req ref t =
          (some (t.admitAt ref rates).1, (t.admitAt ref rates).2) := fun t => by
        simp [admission, socket, priced]
      have events : taskEvents ref.root (p.beginCall i req ref captureId).2 =
          [.begin ref none, .admitAt ref] := by
        simp [beginCall, asked, taskEvents, Effect.taskEvents]
      refine ⟨?_, ?_⟩
      · rw [events, put, Arena.taskMut_put, if_pos rfl, asked]
        simp [Task.step, Task.withStop_begin, Task.withStop_admitAt]
      · rw [events]
        simp [beginCall, asked, admissionsIn, Effect.admission, Task.step, Task.withStop_begin,
          Task.withStop_admitAt]
  · apply TaskRun.still
    · simp [beginCall, taskEvents, Effect.taskEvents, here]
    · simp [beginCall, admissionsIn, Effect.admission, here]
    · rw [put, Arena.taskMut_put, if_neg (Ne.symm here)]

theorem taskRun_close (usage : Usage) (complete : Bool) (captureId : Option String) (now : Nat)
    (answer : Option Answer) :
    TaskRun rates root p (p.close i ref usage complete captureId now answer).1
      (p.close i ref usage complete captureId now answer).2 := by
  have put : (p.close i ref usage complete captureId now answer).1.arena = p.arena.put ref.root
      ((p.arena.taskMut ref.root).finish ref usage complete) := rfl
  let record := (p.finishLocked ref usage complete captureId now).2
  have effects : (p.close i ref usage complete captureId now answer).2 =
      .finished i record :: (answer.map (.answered i)).toList := rfl
  have quiet : admissionsIn root (.finished i record :: (answer.map (.answered i)).toList) = [] := by
    cases answer <;> rfl
  have events : taskEvents root (.finished i record :: (answer.map (.answered i)).toList) =
      Effect.taskEvents root (.finished i record) := by
    cases answer <;> simp [taskEvents, Effect.taskEvents]
  have taskId : record.taskId = ref.root := by cases captureId <;> rfl
  by_cases here : ref.root = root
  · subst here
    have finish : ∀ t : Task, t.finish record.ref record.usage (!record.incomplete) =
        t.finish ref usage complete := by
      intro t
      have incomplete : (!record.incomplete) = complete := by
        cases captureId <;> exact Bool.not_not complete
      rw [incomplete]
      cases captureId <;> rfl
    have event : Effect.taskEvents ref.root (.finished i record) =
        [.finish record.ref record.usage (!record.incomplete)] := by
      rw [Effect.taskEvents, if_pos taskId]
    refine ⟨?_, ?_⟩
    · rw [effects, events, event, put, Arena.taskMut_put, if_pos rfl, ← Task.withStop_finish,
        ← finish]
      rfl
    · rw [effects, events, event, quiet]
      rfl
  · apply TaskRun.still
    · rw [effects, events, Effect.taskEvents, if_neg (taskId ▸ here)]
    · rw [effects, quiet]
    · rw [put, Arena.taskMut_put, if_neg (Ne.symm here)]

variable [HttpLibrary]

theorem taskRun_turn (priced : p.rates = some rates) (c : Call) (t : Turn) :
    TaskRun rates root p (p.turn i c t).1 (p.turn i c t).2 := by
  have out := p.turn_outcome i c t
  generalize p.turn i c t = result at out
  cases out with
  | idle | identified | unreadable | unheard | cancelled => exact .still rfl rfl rfl
  | begun => exact taskRun_beginCall priced _ _
  | stopping => exact .still rfl rfl (p.taskMut_takeStop i _ root)
  | sent =>
    unfold Proxy.send
    split <;> exact .still rfl rfl rfl
  | answered =>
    unfold upstreamAnswered
    split
    · exact taskRun_close _ _ _ _ _
    · exact .still rfl rfl rfl
  | failed =>
    unfold upstreamFailed
    split
    · exact .still rfl rfl rfl
    · exact taskRun_close _ _ _ _ _
  | stopped | metered | downgraded => exact taskRun_close _ _ _ _ _

theorem taskRun_step (priced : p.rates = some rates) (e : RelayEvent) :
    TaskRun rates root p (p.step e).1 (p.step e).2 := by
  cases e with
  | arrive req =>
    refine .still ?_ ?_ rfl <;>
    · simp only [step]
      split <;> rfl
  | turn i t =>
    simp only [step]
    cases p.calls[i]? with
    | none => exact .still rfl rfl rfl
    | some c => exact taskRun_turn priced c t

/-! ## A run of the proxy is a run of each task -/

/-- Every proxy with a budget simulates each of its tasks. -/
theorem simulates_task (ceiling : UInt64) (rates : RateCard) (root : String) :
    Runs.Simulation step (Task.step rates) (fun p => p.Budgeted ceiling rates)
      (fun p => (p.arena.taskMut root).withStop false) (fun x => taskEvents root x.output)
      (fun x => admissionsIn root x.output) fun x => x.output.toList where
  keep _ e h := (budgeted_step h e).1
  state _ e h := (taskRun_step h.priced e).state
  output _ e h := (taskRun_step h.priced e).output

omit [FloatProduct] [HttpLibrary] in
/-- Before the first request a task is a new one. -/
theorem taskMut_start (upstream : Uri) (ceiling : UInt64) (rates : RateCard) (share : Option ℚ)
    (ledger capture : Bool) (root : String) :
    ((Config.start ⟨upstream, some (ceiling, rates, share), ledger, capture⟩).arena.taskMut
      root).withStop false = Task.budgeted root ceiling share := by
  have arena : (Config.start ⟨upstream, some (ceiling, rates, share), ledger, capture⟩).arena =
      .budgeted ceiling share := by
    cases ledger <;> cases capture <;> rfl
  have absent : (Arena.budgeted ceiling share).get root = none := by
    cases share <;> exact AList.lookup_empty root
  have unsent := (Arena.budgeted ceiling share).newTask_syntheticSent root
  rw [arena, Arena.taskMut, absent, Option.getD_none, ← unsent, Task.withStop_self,
    Arena.newTask_budgeted]

/-- The effects from `es` on, where `pre` came before. -/
def effectsFrom (cfg : Config) (pre es : List RelayEvent) : List Effect :=
  (Runs.trace step (Runs.final step cfg.start pre) es).flatMap Runs.Entry.output

theorem effects_append (cfg : Config) (pre es : List RelayEvent) :
    effects cfg (pre ++ es) = effects cfg pre ++ effectsFrom cfg pre es := by
  rw [effects, Runs.trace_append, List.flatMap_append]
  rfl

section Budget

variable (upstream : Uri) (ceiling : UInt64) (rates : RateCard) (share : Option ℚ)
  (ledger capture : Bool)

/-- From any point of a run on, the task goes through the calls that the effects tell of, and
returns the admissions that they tell of. -/
theorem task_run_from (pre es : List RelayEvent) (root : String) :
    let cfg : Config := ⟨upstream, some (ceiling, rates, share), ledger, capture⟩
    let t := Runs.final (Task.step rates) (Task.budgeted root ceiling share)
      (taskEvents root (effects cfg pre))
    ((Runs.final step cfg.start pre).arena.taskMut root).withStop false = t ∧
      admissionsIn root (effectsFrom cfg pre es) =
        (Runs.trace (Task.step rates) t (taskEvents root (effectsFrom cfg pre es))).filterMap
          Runs.Entry.output := by
  intro cfg t
  have sim := simulates_task ceiling rates root
  have start := budgeted_start upstream ceiling rates share ledger capture
  have told : ∀ xs : List (Runs.Entry Proxy RelayEvent (List Effect)),
      xs.flatMap (fun x => taskEvents root x.output) =
        taskEvents root (xs.flatMap Runs.Entry.output) := fun xs => by
    simp only [taskEvents, List.flatMap_assoc]
  have reached : ((Runs.final step cfg.start pre).arena.taskMut root).withStop false = t := by
    have run := sim.final_eq start pre
    rwa [told, taskMut_start] at run
  have here : (Runs.final step cfg.start pre).Budgeted ceiling rates :=
    Runs.final_invariant (P := fun _ _ => True) (fun p e h _ => sim.keep p e h) start
      (Runs.steps_of_forall (fun _ _ => trivial) _ _)
  refine ⟨reached, ?_⟩
  have seen := sim.seen_eq here es
  rw [told, reached, ← List.filterMap_eq_flatMap_toList] at seen
  rw [effectsFrom, ← seen, admissionsIn, List.filterMap_flatMap]
  rfl

/-- In every run of the proxy the task has gone through the calls that the effects tell of, and
every admission of its requests is the one that the task returned there. -/
theorem task_run (es : List RelayEvent) (root : String) :
    let cfg : Config := ⟨upstream, some (ceiling, rates, share), ledger, capture⟩
    let calls := taskEvents root (effects cfg es)
    ((Runs.final step cfg.start es).arena.taskMut root).withStop false =
        Runs.final (Task.step rates) (Task.budgeted root ceiling share) calls ∧
      admissionsIn root (effects cfg es) =
        (Runs.trace (Task.step rates) (Task.budgeted root ceiling share) calls).filterMap
          Runs.Entry.output :=
  ⟨(task_run_from upstream ceiling rates share ledger capture es [] root).1,
    (task_run_from upstream ceiling rates share ledger capture [] es root).2⟩

/-! ## After the ceiling -/

omit [FloatProduct] [HttpLibrary] in
/-- Whoever was sent was admitted. -/
theorem length_sentPlain_le {fx gx : List Effect}
    (apart : ∀ j ref spent cap, .begun j ref (some (.deny spent cap)) ∈ gx → .sent j ∉ fx) :
    (sentPlain root fx gx).length ≤ ((admissionsIn root gx).filter Admission.passes).length := by
  induction gx with
  | nil => exact le_rfl
  | cons e gx ih =>
    have rest := ih fun j ref spent cap h => apart j ref spent cap (List.mem_cons_of_mem _ h)
    have grows : ((admissionsIn root gx).filter Admission.passes).length ≤
        ((admissionsIn root (e :: gx)).filter Admission.passes).length := by
      refine List.Sublist.length_le (List.Sublist.filter _ ?_)
      exact List.Sublist.filterMap _ (List.sublist_cons_self e gx)
    rw [sentPlain, List.filterMap_cons]
    split
    · exact rest.trans grows
    · next i here =>
      obtain ⟨ref, a, rfl, same, sent⟩ := Effect.sentPlain_eq_some here
      have passes : a.passes = true := by
        cases a with
        | deny spent cap => exact absurd sent (apart i ref spent cap List.mem_cons_self)
        | allow | last => rfl
      have front : admissionsIn root (.begun i ref (some a) :: gx) = a :: admissionsIn root gx := by
        rw [admissionsIn, List.filterMap_cons, Effect.admission, if_pos same]
        rfl
      rw [front, List.filter_cons_of_pos passes, List.length_cons, List.length_cons]
      exact Nat.succ_le_succ rest

/-- Of the plain requests of a task that begin once its spend has reached the ceiling, at most one
is sent to the upstream, however the requests interleave; and every denial of the run carries a
spend that reached its cap. -/
theorem sentPlain_after_ceiling (pre post : List RelayEvent) (root : String)
    (fits : Runs.Steps (Task.step rates) (Task.NoOverflow rates) (Task.budgeted root ceiling share)
      (taskEvents root (effects ⟨upstream, some (ceiling, rates, share), ledger, capture⟩
        (pre ++ post))))
    (reached : ceiling ≤ ((Runs.final step
      (Config.start ⟨upstream, some (ceiling, rates, share), ledger, capture⟩) pre).arena.taskMut
        root).spentMicros rates) :
    let cfg : Config := ⟨upstream, some (ceiling, rates, share), ledger, capture⟩
    (sentPlain root (effects cfg (pre ++ post)) (effectsFrom cfg pre post)).length ≤ 1 ∧
      ∀ i ref spent cap, .begun i ref (some (.deny spent cap)) ∈ effects cfg (pre ++ post) →
        ref.root = root → cap ≤ spent := by
  intro cfg
  let t := Runs.final (Task.step rates) (Task.budgeted root ceiling share)
    (taskEvents root (effects cfg pre))
  have keep : ∀ t e, Task.Justified rates ceiling t → Task.NoOverflow rates t e →
      Task.Justified rates ceiling (Task.step rates t e).1 := fun _ _ => Task.justified_step
  have start := Task.justified_budgeted root ceiling share rates
  have apart := (marks_run cfg (pre ++ post)).apart
  constructor
  · obtain ⟨now, admitted⟩ :=
      task_run_from upstream ceiling rates share ledger capture pre post root
    rw [effects_append, taskEvents_append] at fits
    obtain ⟨before, after⟩ := Runs.steps_append.mp fits
    have inv : Task.Justified rates ceiling t := Runs.final_invariant keep start before
    have full : ceiling.toNat ≤ t.exactSpent rates := by
      have same := congrArg (Task.spentMicros · rates) now
      have spent : ceiling ≤ t.spentMicros rates := le_of_le_of_eq reached same
      rwa [UInt64.le_iff_toNat_le, Task.spentMicros_toNat inv.fits] at spent
    -- What is sent was not denied, and the task lets at most its last request pass.
    refine (length_sentPlain_le fun j ref spent cap denied => ?_).trans ?_
    · exact apart j ref spent cap (effects_append cfg pre post ▸ List.mem_append_right _ denied)
    · rw [admitted]
      rcases Task.passed_of_reached inv.ceil inv.fits full after with none_ | last
      · rw [← Task.passed, none_]
        exact Nat.zero_le 1
      · rw [← Task.passed, last]
        exact le_rfl
  · intro i ref spent cap denied same
    have returned : .deny spent cap ∈ admissionsIn root (effects cfg (pre ++ post)) :=
      List.mem_filterMap.mpr ⟨_, denied, if_pos same⟩
    rw [(task_run upstream ceiling rates share ledger capture (pre ++ post) root).2] at returned
    exact Task.le_of_deny_mem start fits returned

end Budget

end Turns

section Cases

attribute [local instance] exactProduct acceptingParsers

/-- A request of the main thread spends 60. -/
def spend60 : List RelayEvent :=
  [.arrive (sampleRequest none false), .turn 0 (.go 0), .turn 0 (.go 0), .turn 0 (.go 0),
    .turn 0 (.upstream 200 0), .turn 0 (.metered (.out 60) true 0)]

/-- An agent asks, and the main thread once more while the agent's request is open. -/
def askTwice : List RelayEvent :=
  [.arrive (sampleRequest (some "a") false), .turn 1 (.go 0), .turn 1 (.go 0), .turn 1 (.go 0),
    .arrive (sampleRequest none false), .turn 2 (.go 0), .turn 2 (.go 0), .turn 2 (.go 0)]

theorem sentPlain_after_ceiling_askTwice :
    let cfg : Config := ⟨sampleUpstream, some (50, .perToken, none), false, false⟩
    (sentPlain "s" (effects cfg (spend60 ++ askTwice)) (effectsFrom cfg spend60 askTwice)).length ≤
        1 ∧
      ∀ i ref spent cap, .begun i ref (some (.deny spent cap)) ∈
        effects cfg (spend60 ++ askTwice) → ref.root = "s" → cap ≤ spent :=
  sentPlain_after_ceiling sampleUpstream 50 .perToken none false false spend60 askTwice "s"
    (by decide +kernel) (by decide +kernel)

end Cases

end Proxy

end Tailfin
