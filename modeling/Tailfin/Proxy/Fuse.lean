import Tailfin.Proxy.Relay
import Tailfin.Tree.Seals

/-!
# The fuse

Once a request of a task is answered with a stop, which later requests of the task still reach
the upstream? A task that its root ceiling has sealed denies every later plain request; a node
that its voucher has sealed denies them at that node, as long as the task is under its ceiling.
-/

namespace Tailfin

/-- The root of the request, where the effect is a denial. -/
def Effect.stopped : Effect → Option String
  | .begun _ ref (some (.deny _ _)) => some ref.root
  | _ => none

/-- The call that the effect begins, where it is one of the task `root`. -/
def Effect.begunIn (root : String) : Effect → Option Nat
  | .begun i ref _ => if ref.root = root then some i else none
  | _ => none

/-- Once a request of a task is denied, no later request of the task is sent. -/
def Fused (fx : List Effect) : Prop :=
  fx.Pairwise fun a b => ∀ root ∈ a.stopped, ∀ i ∈ b.begunIn root, Effect.sent i ∉ fx

instance (fx : List Effect) : Decidable (Fused fx) :=
  inferInstanceAs (Decidable (fx.Pairwise _))

namespace Phase

/-- A denied call, on its way to the end. -/
def halted : Phase → Bool
  | refused _ | stopping _ _ | ended => true
  | _ => false

/-- The upstream has been asked. -/
def asked : Phase → Bool
  | sending _ _ | metering _ _ | abandoned _ | ended => true
  | _ => false

end Phase

namespace Proxy

/-! ## A denied call sends nothing -/

def phaseAt (p : Proxy) (j : Nat) : Option Phase := p.calls[j]?.map Call.phase

/-- Call `j` is in a phase that `q` holds of. -/
def At (q : Phase → Bool) (p : Proxy) (j : Nat) : Prop := (p.phaseAt j).any q = true

section At

variable {q : Phase → Bool} {p : Proxy} {i : Nat} {c : Call}

theorem phaseAt_setPhase (here : p.calls[i]? = some c) (phase : Phase) (j : Nat) :
    (p.setPhase i phase).phaseAt j = if j = i then some phase else p.phaseAt j := by
  simp only [phaseAt, setPhase, List.getElem?_modify]
  by_cases same : j = i
  · subst same
    simp [here]
  · simp [same, Ne.symm same]

theorem at_setPhase (here : p.calls[i]? = some c) {phase : Phase}
    (keep : q c.phase = true → q phase = true) {j : Nat} (h : At q p j) :
    At q (p.setPhase i phase) j := by
  rw [At, phaseAt_setPhase here]
  split
  · next same =>
    subst same
    rw [At, phaseAt, here] at h
    exact keep h
  · exact h

theorem at_arrive {j : Nat} (h : At q p j) (c : Call) :
    At q { p with calls := p.calls ++ [c] } j := by
  rw [At, phaseAt] at h ⊢
  cases found : p.calls[j]? with
  | none =>
    rw [found] at h
    cases h
  | some d =>
    obtain ⟨bound, -⟩ := List.getElem?_eq_some_iff.mp found
    rw [found] at h
    rw [List.getElem?_append_left bound, found]
    exact h

end At

/-- Neither begins nor sends. -/
def Calm (gx : List Effect) : Prop :=
  ∀ e ∈ gx, (∀ i ref admission, e ≠ .begun i ref admission) ∧ ∀ i, e ≠ .sent i

theorem calm_nil : Calm [] := by simp [Calm]

theorem calm_answered (i : Nat) (a : Answer) : Calm [.answered i a] := by simp [Calm]

theorem calm_close (p : Proxy) (i : Nat) (ref : NodeRef) (usage : Usage) (complete : Bool)
    (captureId : Option String) (now : Nat) (a : Option Answer) :
    Calm (p.close i ref usage complete captureId now a).2 := by
  cases a <;> simp [Calm, close]

/-- A denied call is on its way to the end, a call that was sent has asked, and none is both. -/
structure Marks (p : Proxy) (fx : List Effect) : Prop where
  denied : ∀ j ref spent cap, .begun j ref (some (.deny spent cap)) ∈ fx → At Phase.halted p j
  sent : ∀ j, .sent j ∈ fx → At Phase.asked p j
  apart : ∀ j ref spent cap, .begun j ref (some (.deny spent cap)) ∈ fx → .sent j ∉ fx

section Marks

variable {p p' : Proxy} {fx gx : List Effect} {i : Nat} {c : Call}

/-- A calm step under which calls stay halted and asked. -/
theorem Marks.calm (h : Marks p fx) (quiet : Calm gx)
    (halted : ∀ j, At Phase.halted p j → At Phase.halted p' j)
    (asked : ∀ j, At Phase.asked p j → At Phase.asked p' j) : Marks p' (fx ++ gx) := by
  have begun : ∀ {j ref admission}, Effect.begun j ref admission ∈ fx ++ gx →
      Effect.begun j ref admission ∈ fx := by
    intro j ref admission he
    rcases List.mem_append.mp he with he | he
    · exact he
    · exact absurd rfl ((quiet _ he).1 _ _ _)
  have unsent : ∀ {j}, Effect.sent j ∈ fx ++ gx → Effect.sent j ∈ fx := by
    intro j he
    rcases List.mem_append.mp he with he | he
    · exact he
    · exact absurd rfl ((quiet _ he).2 _)
  exact ⟨fun j ref spent cap he => halted j (h.denied j ref spent cap (begun he)),
    fun j he => asked j (h.sent j (unsent he)),
    fun j ref spent cap he hs => h.apart j ref spent cap (begun he) (unsent hs)⟩

/-- A calm turn of call `i` that leads to `phase`. -/
theorem Marks.move (h : Marks p fx) (here : p.calls[i]? = some c) (quiet : Calm gx)
    {phase : Phase} (moved : p'.phaseAt = (p.setPhase i phase).phaseAt)
    (halted : c.phase.halted = true → phase.halted = true)
    (asked : c.phase.asked = true → phase.asked = true) : Marks p' (fx ++ gx) := by
  refine h.calm quiet (fun j hj => ?_) fun j hj => ?_
  · rw [At, moved]
    exact at_setPhase here halted hj
  · rw [At, moved]
    exact at_setPhase here asked hj

theorem At.of_getElem? {q : Phase → Bool} (here : p.calls[i]? = some c) :
    At q p i ↔ q c.phase = true := by
  simp [At, phaseAt, here]

/-- Before a call is begun it has neither been denied nor sent. -/
theorem Marks.begin (h : Marks p fx) (here : p.calls[i]? = some c)
    (idle : c.phase.halted = false ∧ c.phase.asked = false) {phase : Phase}
    (moved : p'.phaseAt = (p.setPhase i phase).phaseAt) {ref : NodeRef}
    {admission : Option Admission}
    (refused : ∀ spent cap, admission = some (.deny spent cap) → phase.halted = true) :
    Marks p' (fx ++ [.begun i ref admission]) := by
  have unsent : .sent i ∉ fx := fun hs => by
    have := (At.of_getElem? here).mp (h.sent i hs)
    simp [idle.2] at this
  have kept : ∀ {q : Phase → Bool}, q c.phase = false → ∀ {j}, At q p j → At q p' j := by
    intro q off j hj
    rw [At, moved]
    exact at_setPhase here (by simp [off]) hj
  refine ⟨fun j ref' spent cap he => ?_, fun j he => ?_, fun j ref' spent cap he hs => ?_⟩
  · rcases List.mem_append.mp he with he | he
    · exact kept idle.1 (h.denied j ref' spent cap he)
    · obtain ⟨rfl, rfl, rfl⟩ : j = i ∧ ref' = ref ∧ admission = some (.deny spent cap) := by
        simpa [eq_comm] using he
      rw [At, moved, phaseAt_setPhase here, if_pos rfl]
      exact refused spent cap rfl
  · rcases List.mem_append.mp he with he | he
    · exact kept idle.2 (h.sent j he)
    · simp at he
  · have sent : .sent j ∈ fx := by simpa using hs
    rcases List.mem_append.mp he with he | he
    · exact h.apart j ref' spent cap he sent
    · obtain ⟨rfl, -⟩ : j = i ∧ ref' = ref ∧ admission = some (.deny spent cap) := by
        simpa [eq_comm] using he
      exact unsent sent

/-- Only a call that was not denied is sent. -/
theorem Marks.send (h : Marks p fx) (here : p.calls[i]? = some c)
    (idle : c.phase.halted = false) {phase : Phase}
    (moved : p'.phaseAt = (p.setPhase i phase).phaseAt) (asked : phase.asked = true) :
    Marks p' (fx ++ [.sent i]) := by
  have undenied : ∀ ref spent cap, .begun i ref (some (.deny spent cap)) ∉ fx := by
    intro ref spent cap he
    have := (At.of_getElem? here).mp (h.denied i ref spent cap he)
    simp [idle] at this
  refine ⟨fun j ref spent cap he => ?_, fun j he => ?_, fun j ref spent cap he hs => ?_⟩
  · have denied : .begun j ref (some (.deny spent cap)) ∈ fx := by simpa using he
    rw [At, moved]
    exact at_setPhase here (by simp [idle]) (h.denied j ref spent cap denied)
  · rw [At, moved]
    rcases List.mem_append.mp he with he | he
    · exact at_setPhase here (fun _ => asked) (h.sent j he)
    · obtain rfl : j = i := by simpa using he
      rw [phaseAt_setPhase here, if_pos rfl]
      exact asked
  · have denied : .begun j ref (some (.deny spent cap)) ∈ fx := by simpa using he
    rcases List.mem_append.mp hs with hs | hs
    · exact h.apart j ref spent cap denied hs
    · obtain rfl : j = i := by simpa using hs
      exact undenied ref spent cap denied

end Marks

section Steps

variable [FloatProduct] [HttpLibrary]

theorem marks_turn {p : Proxy} {fx : List Effect} (h : Marks p fx) {i : Nat} {c : Call}
    (here : p.calls[i]? = some c) (t : Turn) :
    Marks (p.turn i c t).1 (fx ++ (p.turn i c t).2) := by
  have out := p.turn_outcome i c t
  generalize p.turn i c t = result at out
  obtain ⟨req, phase⟩ := c
  cases out with
  | idle t _ => exact h.calm calm_nil (fun _ hj => hj) fun _ hj => hj
  | identified now at_ =>
    cases at_
    exact h.move here calm_nil rfl (by simp [Phase.halted]) (by simp [Phase.asked])
  | unreadable at_ =>
    cases at_
    exact h.move here (calm_answered _ _) rfl (fun _ => rfl) fun _ => rfl
  | unheard at_ =>
    cases at_
    exact h.move here calm_nil rfl (fun _ => rfl) fun _ => rfl
  | begun ref captureId now at_ =>
    cases at_
    let asked := p.admission req ref ((p.arena.taskMut ref.root).begin ref none)
    have halts : ∀ spent cap, asked.1 = some (.deny spent cap) →
        (phaseAfter ref captureId asked.1).halted = true := by
      intro spent cap denied
      rw [denied]
      rfl
    refine h.begin here ⟨rfl, rfl⟩ ?_ halts
    rfl
  | stopping ref now at_ =>
    cases at_
    exact h.move here calm_nil rfl (fun _ => rfl) (by simp [Phase.asked])
  | stopped ref style now at_ =>
    cases at_
    exact h.move here (calm_close p i _ _ _ _ _ _) rfl (fun _ => rfl) fun _ => rfl
  | sent ref captureId now at_ =>
    cases at_
    unfold Proxy.send
    split
    · exact h.send here rfl rfl rfl
    · exact h.move here (calm_answered _ _) rfl (by simp [Phase.halted]) (by simp [Phase.asked])
  | answered ref captureId code now at_ =>
    cases at_
    unfold upstreamAnswered
    split
    · exact h.move here (calm_close p i _ _ _ _ _ _) rfl (fun _ => rfl) fun _ => rfl
    · exact h.move here (calm_answered _ _) rfl (by simp [Phase.halted]) fun _ => rfl
  | failed ref captureId now at_ =>
    cases at_
    unfold upstreamFailed
    split
    · exact h.move here (calm_answered _ _) rfl (by simp [Phase.halted]) fun _ => rfl
    · exact h.move here (calm_close p i _ _ _ _ _ _) rfl (fun _ => rfl) fun _ => rfl
  | cancelled ref captureId at_ =>
    cases at_
    exact h.move here calm_nil rfl (by simp [Phase.halted]) fun _ => rfl
  | metered ref captureId usage complete now at_ =>
    cases at_
    exact h.move here (calm_close p i _ _ _ _ _ _) rfl (fun _ => rfl) fun _ => rfl
  | downgraded ref captureId now at_ =>
    cases at_
    exact h.move here (calm_close p i _ _ _ _ _ _) rfl (fun _ => rfl) fun _ => rfl

theorem marks_step {p : Proxy} {fx : List Effect} (h : Marks p fx) (e : RelayEvent) :
    Marks (p.step e).1 (fx ++ (p.step e).2) := by
  cases e with
  | arrive req =>
    refine h.calm ?_ (fun j hj => at_arrive hj _) fun j hj => at_arrive hj _
    simp only [step]
    split
    · exact calm_answered _ _
    · exact calm_nil
  | turn i t =>
    simp only [step]
    cases here : p.calls[i]? with
    | none => exact h.calm calm_nil (fun _ hj => hj) fun _ hj => hj
    | some c => exact marks_turn h here t

theorem marks_run (cfg : Config) (es : List RelayEvent) :
    Marks (Runs.final step cfg.start es) (effects cfg es) := by
  apply effects_invariant cfg
  · exact fun p fx e h => marks_step h e
  · exact ⟨by simp, by simp, by simp⟩

/-! ## What a step does to the arena -/

section Budget

variable {p : Proxy} {ceiling : UInt64} {rates : RateCard}

omit [FloatProduct] [HttpLibrary] in
theorem extends_admission (p : Proxy) (req : Request) (ref : NodeRef) {t : Task}
    (ceil : t.ceilingMicros = some ceiling) : t.Extends (p.admission req ref t).2 := by
  unfold admission
  split
  · exact .refl t
  · split
    · next rates _ => exact Task.extends_admitAt ref rates ceil
    · exact .refl t

/-- A turn changes at most one task, and extends it. -/
theorem arena_turn (capped : p.arena.Capped ceiling) (i : Nat) (c : Call) (t : Turn) :
    (p.turn i c t).1.rates = p.rates ∧
      ((p.turn i c t).1.arena = p.arena ∨ ∃ root u, (p.arena.taskMut root).Extends u ∧
        (p.turn i c t).1.arena = p.arena.put root u) := by
  have closes : ∀ ref usage complete captureId now a,
      (p.close i ref usage complete captureId now a).1.rates = p.rates ∧
        ((p.close i ref usage complete captureId now a).1.arena = p.arena ∨
          ∃ root u, (p.arena.taskMut root).Extends u ∧
            (p.close i ref usage complete captureId now a).1.arena = p.arena.put root u) :=
    fun ref usage complete _ _ _ =>
      ⟨rfl, .inr ⟨ref.root, _, Task.extends_finish _ ref usage complete, rfl⟩⟩
  have out := p.turn_outcome i c t
  generalize p.turn i c t = result at out
  cases out with
  | idle | identified | unreadable | unheard | cancelled => exact ⟨rfl, .inl rfl⟩
  | begun ref captureId now _ =>
    have grown := Task.extends_begin (p.arena.taskMut ref.root) ref none
    have ceil := grown.ceilingMicros.trans (capped.taskMut ref.root)
    exact ⟨rfl, .inr ⟨ref.root, _, grown.trans (p.extends_admission c.req ref ceil), rfl⟩⟩
  | stopping ref now _ => exact ⟨rfl, .inr ⟨ref.root, _, Task.extends_takeStop _, rfl⟩⟩
  | sent =>
    unfold Proxy.send
    split <;> exact ⟨rfl, .inl rfl⟩
  | answered ref captureId =>
    unfold upstreamAnswered
    split
    · exact closes _ _ _ _ _ _
    · exact ⟨rfl, .inl rfl⟩
  | failed =>
    unfold upstreamFailed
    split
    · exact ⟨rfl, .inl rfl⟩
    · exact closes _ _ _ _ _ _
  | stopped | metered | downgraded => exact closes _ _ _ _ _ _

/-- The proxy has this budget. -/
structure Budgeted (p : Proxy) (ceiling : UInt64) (rates : RateCard) : Prop where
  capped : p.arena.Capped ceiling
  priced : p.rates = some rates

omit [FloatProduct] [HttpLibrary] in
theorem budgeted_start (upstream : Uri) (ceiling : UInt64) (rates : RateCard) (share : Option ℚ)
    (ledger capture : Bool) :
    (Config.start ⟨upstream, some (ceiling, rates, share), ledger, capture⟩).Budgeted
      ceiling rates := by
  have start := Arena.capped_budgeted ceiling share
  cases ledger <;> cases capture <;> exact ⟨start, rfl⟩

theorem budgeted_step (h : p.Budgeted ceiling rates) (e : RelayEvent) :
    (p.step e).1.Budgeted ceiling rates ∧ p.arena.Extends (p.step e).1.arena := by
  cases e with
  | arrive req => exact ⟨⟨h.capped, h.priced⟩, .refl _⟩
  | turn i t =>
    simp only [step]
    cases p.calls[i]? with
    | none => exact ⟨h, .refl _⟩
    | some c =>
      obtain ⟨priced, same | ⟨root, u, grown, changed⟩⟩ := p.arena_turn h.capped i c t
      · refine ⟨⟨?_, priced.trans h.priced⟩, ?_⟩
        · rw [same]
          exact h.capped
        · rw [same]
          exact .refl _
      · refine ⟨⟨?_, priced.trans h.priced⟩, ?_⟩
        · rw [changed]
          exact h.capped.put (grown.ceilingMicros.trans (h.capped.taskMut root))
        · rw [changed]
          exact Arena.extends_put grown

/-- A turn that begins a call asks for its admission in the task that `begin` leaves. -/
theorem begun_of_turn {i : Nat} {c : Call} {t : Turn} {j : Nat} {ref : NodeRef}
    {a : Option Admission} (h : .begun j ref a ∈ (p.turn i c t).2) :
    let asked := p.admission c.req ref ((p.arena.taskMut ref.root).begin ref none)
    j = i ∧ a = asked.1 ∧ (p.turn i c t).1.arena = p.arena.put ref.root asked.2 := by
  have loud : ¬ Calm (p.turn i c t).2 := fun calm => (calm _ h).1 _ _ _ rfl
  have out := p.turn_outcome i c t
  generalize p.turn i c t = result at out h loud
  cases out with
  | idle | identified | unheard | cancelled | stopping => exact absurd calm_nil loud
  | unreadable => exact absurd (calm_answered _ _) loud
  | begun ref' captureId now _ =>
    obtain ⟨rfl, rfl, rfl⟩ : j = i ∧ ref = ref' ∧
        a = (p.admission c.req ref' ((p.arena.taskMut ref'.root).begin ref' none)).1 := by
      simpa [beginCall] using h
    exact ⟨rfl, rfl, rfl⟩
  | sent =>
    unfold Proxy.send at h
    split at h <;> simp at h
  | answered =>
    unfold upstreamAnswered at loud
    split at loud
    · exact absurd (calm_close p i _ _ _ _ _ _) loud
    · exact absurd (calm_answered _ _) loud
  | failed =>
    unfold upstreamFailed at loud
    split at loud
    · exact absurd (calm_answered _ _) loud
    · exact absurd (calm_close p i _ _ _ _ _ _) loud
  | stopped | metered | downgraded => exact absurd (calm_close p i _ _ _ _ _ _) loud

theorem begun_of_step {e : RelayEvent} {j : Nat} {ref : NodeRef} {a : Option Admission}
    (h : .begun j ref a ∈ (p.step e).2) :
    ∃ c, p.calls[j]? = some c ∧
      let asked := p.admission c.req ref ((p.arena.taskMut ref.root).begin ref none)
      a = asked.1 ∧ (p.step e).1.arena = p.arena.put ref.root asked.2 := by
  cases e with
  | arrive req =>
    simp only [step] at h
    split at h <;> simp at h
  | turn i t =>
    cases here : p.calls[i]? with
    | none => simp [step, here] at h
    | some c =>
      simp only [step, here] at h ⊢
      obtain ⟨rfl, asked⟩ := begun_of_turn h
      exact ⟨c, here, asked⟩

/-! ## What a stop leaves behind -/

/-- Call `j` is a plain request. -/
def Plain (p : Proxy) (j : Nat) : Prop := p.calls[j]?.any (fun c => !c.req.websocket) = true

/-- `x` stops a request of a sealed task, and `y` begins the plain call `j` of the task; or `x`
stops one at a node, and `y` begins `j` at the node while the task is under its ceiling. -/
def Bars (rates : RateCard) (ceiling : UInt64)
    (x y : Runs.Entry Proxy RelayEvent (List Effect)) (j : Nat) : Prop :=
  ∃ i ref spent cap ref' a, .begun i ref (some (.deny spent cap)) ∈ x.output ∧
    .begun j ref' a ∈ y.output ∧ y.before.Plain j ∧ ref'.root = ref.root ∧
    ((x.before.arena.taskMut ref.root).sealed = true ∨
      ref'.node = ref.node ∧ (y.before.arena.taskMut ref.root).spentMicros rates < ceiling)

/-- Whatever `x` stopped is still shut in `p`. -/
def StillShut (x : Runs.Entry Proxy RelayEvent (List Effect)) (p : Proxy) : Prop :=
  ∀ i ref spent cap, .begun i ref (some (.deny spent cap)) ∈ x.output →
    (p.arena.taskMut ref.root).Shut ref.node ∧
      ((x.before.arena.taskMut ref.root).sealed = true →
        (p.arena.taskMut ref.root).sealed = true)

theorem stillShut_step (h : p.Budgeted ceiling rates) (e : RelayEvent) :
    StillShut (Runs.entry step p e) (p.step e).1 := by
  intro i ref spent cap denied
  have grown := (budgeted_step h e).2 ref.root
  refine ⟨?_, grown.sealed⟩
  obtain ⟨c, -, asked, arena⟩ := begun_of_step denied
  have ceil := (Task.extends_begin (p.arena.taskMut ref.root) ref none).ceilingMicros.trans
    (h.capped.taskMut ref.root)
  rw [arena, Arena.taskMut_put, if_pos rfl]
  unfold admission at asked ⊢
  cases plain : c.req.websocket with
  | true => simp [plain] at asked
  | false =>
    simp only [plain, h.priced, Bool.false_eq_true, if_false, Option.some.injEq] at asked ⊢
    apply Task.shut_of_refuses ceil
    rw [← asked]
    rfl

omit [FloatProduct] [HttpLibrary] in
theorem StillShut.extends {x : Runs.Entry Proxy RelayEvent (List Effect)} {p' : Proxy}
    (h : StillShut x p) (grown : p.arena.Extends p'.arena) : StillShut x p' := by
  intro i ref spent cap denied
  obtain ⟨shut, sealed⟩ := h i ref spent cap denied
  exact ⟨(grown ref.root).shut shut, fun was => (grown ref.root).sealed (sealed was)⟩

/-- A barred call is denied. -/
theorem StillShut.denies {x : Runs.Entry Proxy RelayEvent (List Effect)}
    (shut : StillShut x p) (h : p.Budgeted ceiling rates) {e : RelayEvent} {j : Nat}
    (bars : Bars rates ceiling x (Runs.entry step p e) j) :
    ∃ ref spent cap, .begun j ref (some (.deny spent cap)) ∈ (p.step e).2 := by
  obtain ⟨i, ref, spent, cap, ref', a, denied, begun, plain, same, bar⟩ := bars
  obtain ⟨closed, sealed⟩ := shut i ref spent cap denied
  obtain ⟨c, here, asked, -⟩ := begun_of_step begun
  have grown := Task.extends_begin (p.arena.taskMut ref.root) ref' none
  have ceil := grown.ceilingMicros.trans (h.capped.taskMut ref.root)
  have spend : ((p.arena.taskMut ref.root).begin ref' none).spentMicros rates =
      (p.arena.taskMut ref.root).spentMicros rates :=
    Task.spentMicros_congr rates (Task.usageAt_begin _ ref' none)
  have plain' : c.req.websocket = false := by simpa [Plain, here] using plain
  rw [same, admission, plain', h.priced] at asked
  have stays : (((p.arena.taskMut ref.root).begin ref' none).admitAt ref' rates).1.passes =
      false := by
    rcases bar with was | ⟨node, under⟩
    · refine Task.deny_of_shut ceil (.inl (grown.sealed (sealed was))) ?_
      rintro ⟨-, -, -, unsealed, -⟩
      rw [grown.sealed (sealed was)] at unsealed
      cases unsealed
    · refine Task.deny_of_shut ceil (node ▸ grown.shut closed) ?_
      rintro ⟨-, -, -, -, reached⟩
      rw [spend] at reached
      exact absurd reached (UInt64.not_le.mpr under)
  cases verdict : (((p.arena.taskMut ref.root).begin ref' none).admitAt ref' rates).1 with
  | deny spent' cap' =>
    simp only [verdict, Bool.false_eq_true, if_false] at asked
    exact ⟨ref', spent', cap', asked ▸ begun⟩
  | allow | last =>
    rw [verdict] at stays
    cases stays

/-- Once a request of a task is stopped while the task is sealed, no plain request of the task
that begins later is sent; once one is stopped at a node, none at that node that begins while the
task is under its ceiling. -/
theorem pairwise_bars (upstream : Uri) (ceiling : UInt64) (rates : RateCard) (share : Option ℚ)
    (ledger capture : Bool) (es : List RelayEvent) :
    (Runs.trace step
        (Config.start ⟨upstream, some (ceiling, rates, share), ledger, capture⟩) es).Pairwise
      fun x y => ∀ j, Bars rates ceiling x y j →
        .sent j ∉ effects ⟨upstream, some (ceiling, rates, share), ledger, capture⟩ es := by
  let cfg : Config := ⟨upstream, some (ceiling, rates, share), ledger, capture⟩
  have denied : (Runs.trace step cfg.start es).Pairwise fun x y => ∀ j, Bars rates ceiling x y j →
      ∃ ref spent cap, .begun j ref (some (.deny spent cap)) ∈ y.output := by
    refine Runs.trace_pairwise (P := fun _ _ => True) (I := (Budgeted · ceiling rates))
      (Q := StillShut) (fun p e h _ => (budgeted_step h e).1)
      (fun p e h _ => stillShut_step h e)
      (fun x p e h _ shut => shut.extends (budgeted_step h e).2)
      (fun x p e h _ shut j bars => shut.denies h bars)
      (budgeted_start upstream ceiling rates share ledger capture)
      (Runs.steps_of_forall (fun _ _ => trivial) _ _)
  refine denied.imp_of_mem fun {x y} _ hy stops j bars => ?_
  obtain ⟨ref, spent, cap, begun⟩ := stops j bars
  exact (marks_run cfg es).apart j ref spent cap (List.mem_flatMap.mpr ⟨y, hy, begun⟩)

end Budget

end Steps

section Cases

attribute [local instance] exactProduct acceptingParsers

/-- Nothing may be spent: the first request is the last one, the second is stopped, and then comes
a WebSocket upgrade. -/
def upgradeAfterStop : List RelayEvent :=
  [.arrive (sampleRequest none false), .turn 0 (.go 0), .turn 0 (.go 0), .turn 0 (.go 0),
    .arrive (sampleRequest none false), .turn 1 (.go 0), .turn 1 (.go 0),
    .arrive (sampleRequest none true), .turn 2 (.go 0), .turn 2 (.go 0), .turn 2 (.go 0)]

/-- An agent overruns its voucher, gets its last request and is stopped; then comes a request of
the main thread. -/
def mainAfterStop : List RelayEvent :=
  [.arrive (sampleRequest (some "a") false), .turn 0 (.go 0), .turn 0 (.go 0), .turn 0 (.go 0),
    .turn 0 (.upstream 200 0), .turn 0 (.metered (.out 60) true 0),
    .arrive (sampleRequest (some "a") false), .turn 1 (.go 0), .turn 1 (.go 0),
    .arrive (sampleRequest (some "a") false), .turn 2 (.go 0), .turn 2 (.go 0),
    .arrive (sampleRequest none false), .turn 3 (.go 0), .turn 3 (.go 0), .turn 3 (.go 0)]

theorem not_fused_samples :
    ¬ Fused (effects ⟨sampleUpstream, some (0, .perToken, none), false, false⟩
      upgradeAfterStop) ∧
    ¬ Fused (effects ⟨sampleUpstream, some (100, .perToken, some (1 / 2)), false, false⟩
      mainAfterStop) := by
  decide +kernel

end Cases

end Proxy

end Tailfin
