import Tailfin.Proxy.Exchange

/-!
# Tasks are isolated

Requests of all tasks share one proxy: its arena, its session index, its ledger. What a declared
task does there is decided by its own requests alone, whatever the requests of other tasks are,
however many there are, and however they are interleaved.
-/

namespace Tailfin

/-! ## The requests of one task -/

/-- The request declares the session `root`. -/
def Request.names (root : String) (req : Request) : Bool :=
  match fromHeaders req.headers with
  | some (.declared session _ _) => session = root
  | _ => false

/-- A probe of the base URL, which the proxy answers by itself. -/
def probe : Request where
  headers _ := none
  messages := none
  uri := ⟨none, none, none, "/api/hello".toList, some "/api/hello".toList⟩
  websocket := false

/-- The requests that have arrived, by whether they are the task's own. -/
def ownCalls (root : String) (es : List RelayEvent) : List Bool :=
  es.filterMap fun
    | .arrive req => some (req.names root)
    | .turn _ _ => none

/-- The run without the other tasks: a probe in the place of each of their requests, and none of
their turns. -/
def onlyTask (root : String) : List Bool → List RelayEvent → List RelayEvent
  | _, [] => []
  | own, .arrive req :: es =>
    .arrive (if req.names root then req else probe) :: onlyTask root (own ++ [req.names root]) es
  | own, .turn i t :: es =>
    if own.getD i false then .turn i t :: onlyTask root own es else onlyTask root own es

/-- No undeclared session is named like this. -/
def Nameable (root : String) : Prop := ∀ n, root ≠ inferredRoot n ∧ root ≠ anonRoot n

theorem probe_names (root : String) : probe.names root = false := rfl

theorem ownCalls_onlyTask (root : String) (own : List Bool) (es : List RelayEvent) :
    ownCalls root (onlyTask root own es) = ownCalls root es := by
  induction es generalizing own with
  | nil => rfl
  | cons e es ih =>
    cases e with
    | arrive req =>
      have named : (if req.names root then req else probe).names root = req.names root := by
        split
        · rfl
        · next other => rw [probe_names, Bool.eq_false_of_not_eq_true other]
      have rest := ih (own ++ [req.names root])
      simp only [onlyTask, ownCalls, List.filterMap_cons, named] at rest ⊢
      rw [rest]
    | turn i t =>
      rw [onlyTask]
      split
      · exact ih own
      · exact ih own

/-! ## Where the others are resolved -/

namespace SessionIndex

variable {s : SessionIndex} {root : String}

/-- No live session has the name. -/
def Free (s : SessionIndex) (root : String) : Prop := ∀ l ∈ s.live, l.root ≠ root

theorem free_join (free : s.Free root) (i lv : Nat) (d : PrefixDigest) (here : i < s.live.length) :
    (s.join i lv d).1.root ≠ root ∧ (s.join i lv d).2.Free root := by
  constructor
  · have found := List.getElem?_eq_getElem here
    simp only [join, NodeRef.undeclared, found, Option.map_some, Option.getD_some]
    exact free _ (List.getElem_mem here)
  · intro l hl
    obtain ⟨j, hj, rfl⟩ := List.mem_iff_getElem.mp hl
    have bound : j < s.live.length := by simpa [join] using hj
    have before := free _ (List.getElem_mem bound)
    simp only [join, List.getElem_modify]
    split
    · split <;> exact before
    · exact before

theorem free_resolve (nameable : Nameable root) (free : s.Free root) {headers : Headers}
    (others : ∀ session node parent,
      fromHeaders headers = some (.declared session node parent) → session ≠ root)
    (digest : Option PrefixDigest) :
    (s.resolve headers digest).1.root ≠ root ∧ (s.resolve headers digest).2.Free root := by
  unfold resolve
  rcases fromHeaders_cases headers with undeclared | ⟨session, node, parent, declared⟩
  · rw [undeclared]
    cases digest with
    | none => exact ⟨(nameable (s.next + 1)).2.symm, free⟩
    | some d =>
      simp only
      cases found : findBest d s.minLevelIdx s.live 0 none with
      | none =>
        refine ⟨(nameable (s.next + 1)).1.symm, fun l hl => ?_⟩
        rcases List.mem_append.mp hl with old | new
        · exact free l old
        · rw [List.mem_singleton.mp new]
          exact (nameable (s.next + 1)).1.symm
      | some best =>
        obtain ⟨i, lv⟩ := best
        rcases findBest_eq_some found with none_ | ⟨n, rfl, l, hl, -⟩
        · cases none_
        · rw [Nat.zero_add]
          exact free_join free n lv d (List.getElem?_eq_some_iff.mp hl).1
  · rw [declared]
    exact ⟨others session node parent declared, free⟩

theorem resolve_of_names {headers : Headers} {session : String} {node parent : Option String}
    (declared : fromHeaders headers = some (.declared session node parent))
    (s : SessionIndex) (digest : Option PrefixDigest) :
    s.resolve headers digest = (.declared session node parent, s) := by
  simp only [resolve, declared]

end SessionIndex

theorem Request.names_iff {root : String} {req : Request} : req.names root = true ↔
    ∃ node parent, fromHeaders req.headers = some (.declared root node parent) := by
  unfold names
  rcases SessionIndex.fromHeaders_cases req.headers with undeclared | ⟨session, node, parent, declared⟩
  · simp [undeclared]
  · simp only [declared, decide_eq_true_eq]
    constructor
    · rintro rfl
      exact ⟨node, parent, rfl⟩
    · rintro ⟨node', parent', same⟩
      cases same
      rfl

/-! ## Two runs of one task -/

/-- A call of the task is the same in both; a call of another task is somewhere else in one, and
has ended in the other. -/
def Call.Related (root : String) (c c' : Call) : Prop :=
  c'.req.names root = c.req.names root ∧
    if c.req.names root then c' = c ∧ ∀ ref ∈ c.phase.ref, ref.root = root
    else c'.phase = .ended ∧ ∀ ref ∈ c.phase.ref, ref.root ≠ root

namespace Proxy

/-- To the task `root`, the second proxy is the first one without the other tasks. -/
structure SameTo (root : String) (p p' : Proxy) : Prop where
  upstream : p'.upstream = p.upstream
  rates : p'.rates = p.rates
  capture : p'.capture = p.capture
  task : p'.arena.taskMut root = p.arena.taskMut root
  records : p'.ledger.map (recordsOf · root) = p.ledger.map (recordsOf · root)
  free : p.ident.Free root
  size : p'.calls.length = p.calls.length
  calls : ∀ (i : Nat) (c : Call), p.calls[i]? = some c → ∃ c', p'.calls[i]? = some c' ∧ c.Related root c'

section SameTo

variable {root : String} {p p' : Proxy} {i : Nat} {c : Call}

theorem SameTo.own (h : SameTo root p p') (here : p.calls[i]? = some c)
    (own : c.req.names root = true) :
    p'.calls[i]? = some c ∧ ∀ ref ∈ c.phase.ref, ref.root = root := by
  obtain ⟨c', here', -, related⟩ := h.calls i c here
  rw [if_pos own] at related
  exact ⟨related.1 ▸ here', related.2⟩

theorem SameTo.other (h : SameTo root p p') (here : p.calls[i]? = some c)
    (other : c.req.names root = false) :
    (∃ c', p'.calls[i]? = some c' ∧ c'.phase = .ended) ∧ ∀ ref ∈ c.phase.ref, ref.root ≠ root := by
  obtain ⟨c', here', -, related⟩ := h.calls i c here
  rw [if_neg (by simp [other])] at related
  exact ⟨⟨c', here', related.1⟩, related.2⟩

theorem getElem?_setPhase (here : p.calls[i]? = some c) (phase : Phase) (j : Nat) :
    (p.setPhase i phase).calls[j]? = if j = i then some ⟨c.req, phase⟩ else p.calls[j]? := by
  simp only [setPhase, List.getElem?_modify]
  by_cases same : j = i
  · subst same
    simp [here]
  · simp [same, Ne.symm same]

/-- Both move the call of the task to the same phase. -/
theorem SameTo.setOwn (h : SameTo root p p') (here : p.calls[i]? = some c)
    (own : c.req.names root = true) {phase : Phase} (ref : ∀ ref ∈ phase.ref, ref.root = root) :
    SameTo root (p.setPhase i phase) (p'.setPhase i phase) := by
  have here' := (h.own here own).1
  refine { h with size := ?_, calls := fun j d found => ?_ }
  · simpa [setPhase] using h.size
  · rw [getElem?_setPhase here] at found
    rw [getElem?_setPhase here']
    split at found
    · next same =>
      obtain rfl := Option.some.inj found
      exact ⟨_, if_pos same, rfl, by rw [if_pos own]; exact ⟨rfl, ref⟩⟩
    · next apart =>
      rw [if_neg apart]
      exact h.calls j d found

/-- The first one moves a call of another task. -/
theorem SameTo.setOther (h : SameTo root p p') (here : p.calls[i]? = some c)
    (other : c.req.names root = false) {phase : Phase} (ref : ∀ ref ∈ phase.ref, ref.root ≠ root) :
    SameTo root (p.setPhase i phase) p' := by
  obtain ⟨c', here', names, related⟩ := h.calls i c here
  rw [if_neg (by simp [other])] at related
  refine { h with size := ?_, calls := fun j d found => ?_ }
  · simpa [setPhase] using h.size
  · rw [getElem?_setPhase here] at found
    split at found
    · next same =>
      obtain rfl := Option.some.inj found
      exact ⟨c', same ▸ here', names, by rw [if_neg (by simp [other])]; exact ⟨related.1, ref⟩⟩
    · exact h.calls j d found

/-- Both put the same task back. -/
theorem SameTo.putOwn (h : SameTo root p p') (t : Task) :
    SameTo root { p with arena := p.arena.put root t }
      { p' with arena := p'.arena.put root t } := by
  refine { h with task := ?_ }
  rw [Arena.taskMut_put, Arena.taskMut_put, if_pos rfl, if_pos rfl]

/-- The first one puts another task back. -/
theorem SameTo.putOther (h : SameTo root p p') {r : String} (other : r ≠ root) (t : Task) :
    SameTo root { p with arena := p.arena.put r t } p' := by
  refine { h with task := ?_ }
  rw [Arena.taskMut_put, if_neg (Ne.symm other)]
  exact h.task

/-- Both append the same record. -/
theorem SameTo.appendOwn (h : SameTo root p p') (r : Record) :
    SameTo root { p with ledger := p.ledger.map (· ++ [r]) }
      { p' with ledger := p'.ledger.map (· ++ [r]) } := by
  refine { h with records := ?_ }
  have grown : ∀ rs, recordsOf (rs ++ [r]) root = recordsOf rs root ++ recordsOf [r] root :=
    fun rs => List.filter_append ..
  have records := congrArg (Option.map (· ++ recordsOf [r] root)) h.records
  simpa only [Option.map_map, Function.comp_def, grown] using records

/-- The first one appends a record of another task. -/
theorem SameTo.appendOther (h : SameTo root p p') {r : Record} (other : r.taskId ≠ root) :
    SameTo root { p with ledger := p.ledger.map (· ++ [r]) } p' := by
  refine { h with records := ?_ }
  have same : ∀ rs, recordsOf (rs ++ [r]) root = recordsOf rs root := fun rs => by
    simp [recordsOf, List.filter_append, other]
  simpa only [Option.map_map, Function.comp_def, same] using h.records

/-! ## A turn of the task's own -/

section Own

variable [FloatProduct] {ref : NodeRef} (h : SameTo root p p') (here : p.calls[i]? = some c)
  (own : c.req.names root = true)

include h here own

omit [FloatProduct] in
theorem SameTo.identifyOwn (now : Nat) :
    SameTo root (p.identify i c.req now).1 (p'.identify i c.req now).1 ∧
      (p'.identify i c.req now).2 = (p.identify i c.req now).2 := by
  obtain ⟨node, parent, declared⟩ := Request.names_iff.mp own
  have identified (q : Proxy) : q.identify i c.req now =
      (q.setPhase i (.identified (.declared root node parent)
        (if c.req.websocket || !q.capture then none
          else some (captureIdOf now (NodeRef.declared root node parent).node))), []) := by
    simp only [identify, SessionIndex.resolve_of_names declared]
  rw [identified p, identified p', h.capture]
  refine ⟨h.setOwn here own ?_, rfl⟩
  rintro ref ⟨⟩
  rfl

theorem SameTo.beginOwn (same : ref.root = root) (captureId : Option String) :
    SameTo root (p.beginCall i c.req ref captureId).1 (p'.beginCall i c.req ref captureId).1 ∧
      (p'.beginCall i c.req ref captureId).2 = (p.beginCall i c.req ref captureId).2 := by
  subst same
  have asked : p'.admission c.req ref ((p'.arena.taskMut ref.root).begin ref none) =
      p.admission c.req ref ((p.arena.taskMut ref.root).begin ref none) := by
    simp only [admission, h.task, h.rates]
  simp only [beginCall, asked]
  refine ⟨SameTo.setOwn (h.putOwn _) here own fun ref' held => ?_, trivial⟩
  rw [ref_phaseAfter] at held
  rw [← Option.some.inj held]

omit [FloatProduct] in
theorem SameTo.takeStopOwn (same : ref.root = root) :
    SameTo root (p.takeStop i ref).1 (p'.takeStop i ref).1 ∧
      (p'.takeStop i ref).2 = (p.takeStop i ref).2 := by
  subst same
  simp only [takeStop, h.task]
  refine ⟨SameTo.setOwn (h.putOwn _) here own ?_, trivial⟩
  rintro ref' ⟨⟩
  rfl

omit [FloatProduct] in
theorem SameTo.closeOwn (same : ref.root = root) (usage : Usage) (complete : Bool)
    (captureId : Option String) (now : Nat) (answer : Option Answer) :
    SameTo root (p.close i ref usage complete captureId now answer).1
        (p'.close i ref usage complete captureId now answer).1 ∧
      (p'.close i ref usage complete captureId now answer).2 =
        (p.close i ref usage complete captureId now answer).2 := by
  subst same
  have record : (p'.finishLocked ref usage complete captureId now).2 =
      (p.finishLocked ref usage complete captureId now).2 := by
    simp only [finishLocked, Arena.get_put, if_pos, h.task]
  let t := (p.arena.taskMut ref.root).finish ref usage complete
  have shape : (p'.finishLocked ref usage complete captureId now).1 =
      { p' with
        arena := p'.arena.put ref.root t
        ledger := p'.ledger.map (· ++ [(p.finishLocked ref usage complete captureId now).2]) } := by
    rw [← record]
    simp only [finishLocked, h.task, t]
  constructor
  · simp only [close, shape]
    refine SameTo.setOwn ((h.putOwn t).appendOwn _) here own ?_
    rintro ref' ⟨⟩
  · simp only [close, record]

variable [HttpLibrary]

omit [FloatProduct] in
theorem SameTo.sendOwn (same : ref.root = root) (captureId : Option String) :
    SameTo root (p.send i c.req ref captureId).1 (p'.send i c.req ref captureId).1 ∧
      (p'.send i c.req ref captureId).2 = (p.send i c.req ref captureId).2 := by
  have tunnel : p'.tunnels = p.tunnels := by simp only [tunnels, h.upstream]
  have ready : p'.prepares c.req = p.prepares c.req := by
    unfold prepares
    rw [tunnel, h.upstream]
  unfold Proxy.send
  rw [ready]
  split
  · exact ⟨h.setOwn here own (by rintro _ ⟨⟩; exact same), rfl⟩
  · exact ⟨h.setOwn here own (by rintro _ ⟨⟩; exact same), rfl⟩

omit [HttpLibrary] [FloatProduct] in
theorem SameTo.answeredOwn (same : ref.root = root) (captureId : Option String)
    (status now : Nat) :
    SameTo root (p.upstreamAnswered i c.req ref captureId status now).1
        (p'.upstreamAnswered i c.req ref captureId status now).1 ∧
      (p'.upstreamAnswered i c.req ref captureId status now).2 =
        (p.upstreamAnswered i c.req ref captureId status now).2 := by
  have tunnel : p'.tunnels = p.tunnels := by simp only [tunnels, h.upstream]
  unfold upstreamAnswered
  rw [tunnel]
  split
  · exact h.closeOwn here own same _ _ _ _ _
  · exact ⟨h.setOwn here own (by rintro _ ⟨⟩; exact same), rfl⟩

omit [HttpLibrary] [FloatProduct] in
theorem SameTo.failedOwn (same : ref.root = root) (captureId : Option String) (now : Nat) :
    SameTo root (p.upstreamFailed i c.req ref captureId now).1
        (p'.upstreamFailed i c.req ref captureId now).1 ∧
      (p'.upstreamFailed i c.req ref captureId now).2 =
        (p.upstreamFailed i c.req ref captureId now).2 := by
  have tunnel : p'.tunnels = p.tunnels := by simp only [tunnels, h.upstream]
  unfold upstreamFailed
  rw [tunnel]
  split
  · exact ⟨h.setOwn here own (by rintro _ ⟨⟩; exact same), rfl⟩
  · exact h.closeOwn here own same _ _ _ _ _

/-- A turn of the task's own does the same in both. -/
theorem SameTo.turnOwn (t : Turn) :
    SameTo root (p.turn i c t).1 (p'.turn i c t).1 ∧ (p'.turn i c t).2 = (p.turn i c t).2 := by
  have held := (h.own here own).2
  have idle : SameTo root p p' ∧ ([] : List Effect) = [] := ⟨h, rfl⟩
  obtain ⟨req, phase⟩ := c
  cases phase with
  | received =>
    have ended : SameTo root (p.setPhase i .ended) (p'.setPhase i .ended) :=
      h.setOwn here own (by rintro _ ⟨⟩)
    cases t with
    | go now => exact h.identifyOwn here own now
    | bodyError | cancel =>
      simp only [turn]
      split
      · exact idle
      · exact ⟨ended, rfl⟩
    | upstream | upstreamError | metered | upgradeFailed => exact idle
  | identified ref captureId =>
    cases t with
    | go now => exact h.beginOwn here own (held ref rfl) captureId
    | bodyError | cancel | upstream | upstreamError | metered | upgradeFailed => exact idle
  | refused ref =>
    cases t with
    | go now => exact h.takeStopOwn here own (held ref rfl)
    | bodyError | cancel | upstream | upstreamError | metered | upgradeFailed => exact idle
  | stopping ref style =>
    cases t with
    | go now => exact h.closeOwn here own (held ref rfl) _ _ _ _ _
    | bodyError | cancel | upstream | upstreamError | metered | upgradeFailed => exact idle
  | admitted ref captureId =>
    cases t with
    | go now => exact h.sendOwn here own (held ref rfl) captureId
    | bodyError | cancel | upstream | upstreamError | metered | upgradeFailed => exact idle
  | sending ref captureId =>
    cases t with
    | upstream status now => exact h.answeredOwn here own (held ref rfl) captureId status now
    | upstreamError now => exact h.failedOwn here own (held ref rfl) captureId now
    | cancel => exact ⟨h.setOwn here own held, rfl⟩
    | go | bodyError | metered | upgradeFailed => exact idle
  | metering ref captureId =>
    cases t with
    | metered usage complete now => exact h.closeOwn here own (held ref rfl) _ _ _ _ _
    | upgradeFailed now =>
      simp only [turn]
      split
      · exact h.closeOwn here own (held ref rfl) _ _ _ _ _
      · exact idle
    | go | bodyError | cancel | upstream | upstreamError => exact idle
  | abandoned | ended => exact idle

end Own

/-! ## A turn of another task -/

section Other

variable [FloatProduct] {ref : NodeRef} (h : SameTo root p p') (here : p.calls[i]? = some c)
  (other : c.req.names root = false)

include h here other

omit [FloatProduct] in
theorem SameTo.identifyOther (nameable : Nameable root) (now : Nat) :
    SameTo root (p.identify i c.req now).1 p' := by
  have apart : ∀ session node parent,
      fromHeaders c.req.headers = some (.declared session node parent) → session ≠ root := by
    rintro session node parent declared rfl
    rw [Request.names_iff.mpr ⟨node, parent, declared⟩] at other
    cases other
  obtain ⟨elsewhere, free⟩ := SessionIndex.free_resolve nameable h.free apart
    (if c.req.websocket then none else c.req.digest)
  have resolved : SameTo root { p with ident := (p.ident.resolve c.req.headers
      (if c.req.websocket then none else c.req.digest)).2 } p' := { h with free := free }
  refine resolved.setOther here other ?_
  rintro ref ⟨⟩
  exact elsewhere

theorem SameTo.beginOther (apart : ref.root ≠ root) (captureId : Option String) :
    SameTo root (p.beginCall i c.req ref captureId).1 p' := by
  refine (h.putOther apart _).setOther here other fun ref' held => ?_
  rw [ref_phaseAfter] at held
  exact Option.some.inj held ▸ apart

omit [FloatProduct] in
theorem SameTo.closeOther (apart : ref.root ≠ root) (usage : Usage) (complete : Bool)
    (captureId : Option String) (now : Nat) (answer : Option Answer) :
    SameTo root (p.close i ref usage complete captureId now answer).1 p' := by
  have taskId : (p.finishLocked ref usage complete captureId now).2.taskId = ref.root := by
    cases captureId <;> rfl
  have elsewhere : (p.finishLocked ref usage complete captureId now).2.taskId ≠ root := by
    rw [taskId]
    exact apart
  let t := (p.arena.taskMut ref.root).finish ref usage complete
  exact ((h.putOther apart t).appendOther elsewhere).setOther here other (by rintro _ ⟨⟩)

variable [HttpLibrary]

/-- A turn of another task is not seen. -/
theorem SameTo.turnOther (nameable : Nameable root) (t : Turn) :
    SameTo root (p.turn i c t).1 p' := by
  have apart := (h.other here other).2
  have elsewhere {ref : NodeRef} {phase : Phase} (away : ref.root ≠ root)
      (next : ∀ ref', phase.ref = some ref' → ref' = ref) :
      SameTo root (p.setPhase i phase) p' :=
    h.setOther here other fun ref' stored => next ref' stored ▸ away
  have out := p.turn_outcome i c t
  generalize p.turn i c t = result at out
  cases out with
  | idle => exact h
  | identified now => exact h.identifyOther here other nameable now
  | unreadable | unheard => exact h.setOther here other (by rintro _ ⟨⟩)
  | begun ref captureId now phase =>
    exact h.beginOther here other (apart ref (phase ▸ rfl)) captureId
  | stopping ref now phase =>
    exact (h.putOther (apart ref (phase ▸ rfl)) _).setOther here other
      (by rintro _ ⟨⟩; exact apart ref (phase ▸ rfl))
  | stopped ref style now phase =>
    exact h.closeOther here other (apart ref (phase ▸ rfl)) _ _ _ _ _
  | sent ref captureId now phase =>
    unfold Proxy.send
    split
    · exact elsewhere (apart ref (phase ▸ rfl)) (by rintro _ ⟨⟩; rfl)
    · exact elsewhere (apart ref (phase ▸ rfl)) (by rintro _ ⟨⟩; rfl)
  | answered ref captureId status now phase =>
    unfold upstreamAnswered
    split
    · exact h.closeOther here other (apart ref (phase ▸ rfl)) _ _ _ _ _
    · exact elsewhere (apart ref (phase ▸ rfl)) (by rintro _ ⟨⟩; rfl)
  | failed ref captureId now phase =>
    unfold upstreamFailed
    split
    · exact elsewhere (apart ref (phase ▸ rfl)) (by rintro _ ⟨⟩; rfl)
    · exact h.closeOther here other (apart ref (phase ▸ rfl)) _ _ _ _ _
  | cancelled ref captureId phase =>
    exact elsewhere (apart ref (phase ▸ rfl)) (by rintro _ ⟨⟩; rfl)
  | metered ref captureId usage complete now phase =>
    exact h.closeOther here other (apart ref (phase ▸ rfl)) _ _ _ _ _
  | downgraded ref captureId now phase =>
    exact h.closeOther here other (apart ref (phase ▸ rfl)) _ _ _ _ _

end Other

end SameTo

/-! ## Whole runs -/

section Runs

variable [FloatProduct] [HttpLibrary] {root : String}

omit [FloatProduct] [HttpLibrary] in
theorem reqs_setPhase (p : Proxy) (i : Nat) (phase : Phase) :
    (p.setPhase i phase).calls.map Call.req = p.calls.map Call.req := by
  refine List.ext_getElem? fun j => ?_
  simp only [setPhase, List.getElem?_map, List.getElem?_modify]
  cases p.calls[j]? with
  | none => rfl
  | some c =>
    show some (if i = j then _ else c).req = some c.req
    split <;> rfl

theorem reqs_turn (p : Proxy) (i : Nat) (c : Call) (t : Turn) :
    (p.turn i c t).1.calls.map Call.req = p.calls.map Call.req := by
  have out := p.turn_outcome i c t
  generalize p.turn i c t = result at out
  cases out with
  | idle => rfl
  | sent =>
    unfold Proxy.send
    split <;> exact reqs_setPhase _ _ _
  | answered =>
    unfold upstreamAnswered
    split <;> exact reqs_setPhase _ _ _
  | failed =>
    unfold upstreamFailed
    split <;> exact reqs_setPhase _ _ _
  | identified | unreadable | unheard | begun | stopping | stopped | cancelled | metered
  | downgraded => exact reqs_setPhase _ _ _

/-- Which of the calls are the task's own. -/
def owned (p : Proxy) (root : String) : List Bool := p.calls.map fun c => c.req.names root

theorem owned_turn (p : Proxy) (i : Nat) (c : Call) (t : Turn) :
    (p.turn i c t).1.owned root = p.owned root := by
  have reqs := congrArg (List.map (Request.names root)) (p.reqs_turn i c t)
  rwa [List.map_map, List.map_map] at reqs

omit [FloatProduct] [HttpLibrary] in
theorem getD_owned {p : Proxy} {i : Nat} {c : Call} (here : p.calls[i]? = some c) :
    (p.owned root).getD i false = c.req.names root := by
  rw [owned, List.getD_eq_getElem?_getD, List.getElem?_map, here]
  rfl

/-- A request arrives at both, or a probe in its place. -/
theorem SameTo.arrive {p p' : Proxy} (h : SameTo root p p') (req : Request) :
    SameTo root (p.step (.arrive req)).1
      (p'.step (.arrive (if req.names root then req else probe))).1 := by
  refine { h with size := ?_, calls := fun j c found => ?_ }
  · simp only [step, List.length_append, List.length_singleton, h.size]
  · simp only [step] at found ⊢
    rcases Nat.lt_trichotomy j p.calls.length with older | rfl | beyond
    · rw [List.getElem?_append_left older] at found
      rw [List.getElem?_append_left (h.size ▸ older)]
      exact h.calls j c found
    · rw [List.getElem?_concat_length] at found
      rw [← h.size, List.getElem?_concat_length]
      obtain rfl := Option.some.inj found
      refine ⟨_, rfl, ?_, ?_⟩
      · simp only
        split
        · rfl
        · next other => rw [probe_names, Bool.eq_false_of_not_eq_true other]
      · have bare : ∀ ref, ref ∉ (if req.isHello then Phase.ended else .received).ref := by
          intro ref
          split <;> rintro ⟨⟩
        simp only
        split
        · exact ⟨rfl, fun ref held => absurd held (bare ref)⟩
        · exact ⟨rfl, fun ref held => absurd held (bare ref)⟩
    · rw [List.getElem?_eq_none (by simp; omega)] at found
      cases found

/-- What is done for the calls that `mark` marks. -/
def shown (mark : List Bool) (fx : List Effect) : List Effect :=
  fx.filter fun e => mark.getD e.call false

omit [FloatProduct] [HttpLibrary] in
theorem shown_append (mark : List Bool) (fx gx : List Effect) :
    shown mark (fx ++ gx) = shown mark fx ++ shown mark gx :=
  List.filter_append ..

/-- What a run from `p` does. -/
def runEffects (p : Proxy) (es : List RelayEvent) : List Effect :=
  (Runs.trace step p es).flatMap Runs.Entry.output

theorem runEffects_cons (p : Proxy) (e : RelayEvent) (es : List RelayEvent) :
    p.runEffects (e :: es) = (p.step e).2 ++ (p.step e).1.runEffects es := by
  rw [runEffects, Runs.trace_cons, List.flatMap_cons]
  rfl

/-- A run without the other tasks ends the same way to the task, and does the same for it. -/
theorem sameTo_run (nameable : Nameable root) {p p' : Proxy} (h : SameTo root p p')
    (mark : List Bool) (es : List RelayEvent) (marked : mark = p.owned root ++ ownCalls root es) :
    SameTo root (Runs.final step p es) (Runs.final step p' (onlyTask root (p.owned root) es)) ∧
      shown mark (p'.runEffects (onlyTask root (p.owned root) es)) =
        shown mark (p.runEffects es) := by
  induction es generalizing p p' with
  | nil => exact ⟨h, rfl⟩
  | cons e es ih =>
    cases e with
    | arrive req =>
      have grown : (p.step (.arrive req)).1.owned root = p.owned root ++ [req.names root] := by
        simp [owned, step]
      have next := ih (h.arrive req) (by rw [grown, marked]; simp [ownCalls])
      rw [grown] at next
      refine ⟨next.1, ?_⟩
      rw [onlyTask, runEffects_cons, runEffects_cons, shown_append, shown_append, next.2]
      congr 1
      have size : (p.owned root).length = p.calls.length := List.length_map ..
      have here : mark.getD p.calls.length false = req.names root := by
        rw [marked, ← size, List.getD_eq_getElem?_getD, List.getElem?_append_right le_rfl,
          Nat.sub_self]
        rfl
      cases own : req.names root with
      | true => simp only [if_true, step, h.size]
      | false =>
        -- The answer to another task's probe is not shown.
        have hidden (q : Proxy) (same : q.calls.length = p.calls.length) (r : Request) :
            shown mark (q.step (.arrive r)).2 = [] := by
          refine List.filter_eq_nil_iff.mpr fun e answered => ?_
          simp only [step] at answered
          split at answered
          · rw [List.mem_singleton.mp answered, Effect.call, same, here, own]
            exact Bool.false_ne_true
          · cases answered
        rw [hidden p rfl, hidden p' h.size]
    | turn i t =>
      cases here : p.calls[i]? with
      | none =>
        have absent : (p.owned root).getD i false = false := by
          rw [owned, List.getD_eq_getElem?_getD, List.getElem?_map, here]
          rfl
        have idle : p.step (.turn i t) = (p, []) := by simp only [step, here]
        have next := ih h (by simpa [ownCalls] using marked)
        rw [onlyTask, absent, if_neg Bool.false_ne_true, Runs.final_cons, runEffects_cons, idle]
        exact next
      | some c =>
        have taken : p.step (.turn i t) = p.turn i c t := by simp only [step, here]
        have kept : (p.turn i c t).1.owned root = p.owned root := p.owned_turn i c t
        have marked' : mark = (p.turn i c t).1.owned root ++ ownCalls root es := by
          rw [kept]
          simpa [ownCalls] using marked
        rw [onlyTask, getD_owned here, Runs.final_cons, runEffects_cons, taken]
        cases own : c.req.names root with
        | true =>
          have both := h.turnOwn here own t
          have taken' : p'.step (.turn i t) = p'.turn i c t := by
            simp only [step, (h.own here own).1]
          have next := ih both.1 marked'
          rw [kept] at next
          rw [if_pos rfl, Runs.final_cons, runEffects_cons, taken', shown_append, shown_append,
            next.2, both.2]
          exact ⟨next.1, rfl⟩
        | false =>
          have next := ih (h.turnOther here own nameable t) marked'
          rw [kept] at next
          have hidden : shown mark (p.turn i c t).2 = [] := by
            refine List.filter_eq_nil_iff.mpr fun e done => ?_
            have within : i < (p.owned root).length := by
              rw [owned, List.length_map]
              exact (List.getElem?_eq_some_iff.mp here).1
            have first : mark.getD i false = (p.owned root).getD i false := by
              rw [marked, List.getD_eq_getElem?_getD, List.getElem?_append_left within,
                List.getD_eq_getElem?_getD]
            rw [call_of_mem_turn done, first, getD_owned here, own]
            exact Bool.false_ne_true
          rw [if_neg Bool.false_ne_true, shown_append, hidden, List.nil_append]
          exact next

/-- What a run does for the task. -/
def effectsOf (cfg : Config) (root : String) (es : List RelayEvent) : List Effect :=
  shown (ownCalls root es) (effects cfg es)

/-- What is seen of a task depends on its own requests alone: two runs with the same requests and
turns of the task, among whatever others, leave the same task and records of it behind, and do
the same for its calls in between. -/
theorem tasks_isolated (cfg : Config) (nameable : Nameable root) (es es' : List RelayEvent)
    (same : onlyTask root [] es = onlyTask root [] es') :
    (Runs.final step cfg.start es).arena.taskMut root =
        (Runs.final step cfg.start es').arena.taskMut root ∧
      (Runs.final step cfg.start es).ledger.map (recordsOf · root) =
        (Runs.final step cfg.start es').ledger.map (recordsOf · root) ∧
      effectsOf cfg root es = effectsOf cfg root es' := by
  have none_ : cfg.start.calls = [] := (start_ident cfg).2
  have start : SameTo root cfg.start cfg.start :=
    { upstream := rfl, rates := rfl, capture := rfl, task := rfl, records := rfl, size := rfl
      free := by
        rw [(start_ident cfg).1]
        intro l live
        cases live
      calls := by
        rw [none_]
        intro i c found
        cases found }
  have unowned : cfg.start.owned root = [] := by rw [owned, none_, List.map_nil]
  have masked (fs : List RelayEvent) := sameTo_run nameable start
    (ownCalls root fs) fs (by rw [unowned, List.nil_append])
  have marks : ownCalls root es = ownCalls root es' := by
    rw [← ownCalls_onlyTask root [] es, same, ownCalls_onlyTask]
  have first := masked es
  have second := masked es'
  rw [unowned] at first second
  rw [same] at first
  refine ⟨first.1.task.symm.trans second.1.task, first.1.records.symm.trans second.1.records, ?_⟩
  rw [effectsOf, effectsOf]
  exact first.2.symm.trans (marks ▸ second.2)

end Runs

section Cases

attribute [local instance] exactProduct acceptingParsers

theorem nameable_s : Nameable "s" := by
  intro n
  have spelled : "s" = String.ofList ['s'] := rfl
  constructor
  · intro same
    have heads := congrArg List.head? (String.ofList_injective (spelled.symm.trans same))
    simp at heads
  · intro same
    have heads := congrArg List.head? (String.ofList_injective (spelled.symm.trans same))
    simp at heads

/-- A request of the task, and an undeclared one that is begun before it. -/
def amongOthers : List RelayEvent :=
  [.arrive (sampleRequest none false), .arrive ⟨⟨fun _ => none, some []⟩, sampleUpstream, false⟩,
    .turn 1 (.go 7), .turn 1 (.go 7), .turn 0 (.go 8), .turn 0 (.go 8)]

/-- The request of the task, and a probe in the place of the other. -/
def alone : List RelayEvent :=
  [.arrive (sampleRequest none false), .arrive probe, .turn 0 (.go 8), .turn 0 (.go 8)]

theorem onlyTask_amongOthers : onlyTask "s" [] amongOthers = onlyTask "s" [] alone := by
  have own : (sampleRequest none false).names "s" = true := by decide
  have other : (⟨⟨fun _ => none, some []⟩, sampleUpstream, false⟩ : Request).names "s" = false := by
    decide
  simp [amongOthers, alone, onlyTask, own, other, probe_names]

theorem tasks_isolated_amongOthers :
    let cfg : Config := ⟨sampleUpstream, some (50, .perToken, none), true, true⟩
    (Runs.final step cfg.start amongOthers).arena.taskMut "s" =
        (Runs.final step cfg.start alone).arena.taskMut "s" ∧
      (Runs.final step cfg.start amongOthers).ledger.map (recordsOf · "s") =
        (Runs.final step cfg.start alone).ledger.map (recordsOf · "s") ∧
      effectsOf cfg "s" amongOthers = effectsOf cfg "s" alone :=
  tasks_isolated ⟨sampleUpstream, some (50, .perToken, none), true, true⟩ nameable_s amongOthers
    alone onlyTask_amongOthers

end Cases

end Proxy

end Tailfin
