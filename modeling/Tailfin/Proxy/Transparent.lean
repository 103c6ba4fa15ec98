import Tailfin.Library.Simulation
import Tailfin.Proxy.Exchange

/-!
# A budget that denies nothing

The ceiling of a proxy is there to stop requests. As long as it stops none, nobody can tell that it
is there: clients and upstreams see the same, and the ledger holds the same records.
-/

namespace Tailfin

/-- The effect, as a proxy without a budget has it. -/
def Effect.unpriced : Effect → Effect
  | .begun i ref (some _) => .begun i ref (some .allow)
  | e => e

/-- The effect is the denial of a request. -/
def Effect.isDenial : Effect → Bool
  | .begun _ _ (some (.deny _ _)) => true
  | _ => false

/-- The call is not on its way to a stop. -/
def Phase.Unstopped : Phase → Prop
  | .refused _ | .stopping _ _ => False
  | _ => True

namespace Proxy

def Config.unbudgeted (cfg : Config) : Config := { cfg with budget := none }

/-- But for the budget, the second proxy is like the first one. -/
structure Like (p q : Proxy) : Prop where
  upstream : q.upstream = p.upstream
  ident : q.ident = p.ident
  ledger : q.ledger = p.ledger
  capture : q.capture = p.capture
  calls : q.calls = p.calls
  rates : q.rates = none
  counters : ∀ root, (q.arena.taskMut root).counters = (p.arena.taskMut root).counters
  calm : ∀ c ∈ p.calls, c.phase.Unstopped

variable {p q : Proxy} {i : Nat} {c : Call} {ref : NodeRef}

section Turns

variable (h : Like p q)
include h

theorem Like.setPhase {phase : Phase} (unstopped : phase.Unstopped) :
    Like (p.setPhase i phase) (q.setPhase i phase) := by
  refine { h with calls := ?_, calm := fun d moved => ?_ }
  · simp only [Proxy.setPhase, h.calls]
  · obtain ⟨j, found⟩ := List.mem_iff_getElem?.mp moved
    simp only [Proxy.setPhase, List.getElem?_modify] at found
    cases before : p.calls[j]? with
    | none => simp [before] at found
    | some d' =>
      rw [before] at found
      obtain rfl := Option.some.inj found
      split
      · exact unstopped
      · exact h.calm d' (List.mem_of_getElem? before)

/-- Both put back a task with the same counters. -/
theorem Like.put (root : String) {t u : Task} (same : u.counters = t.counters) :
    Like { p with arena := p.arena.put root t } { q with arena := q.arena.put root u } := by
  refine { h with counters := fun r => ?_ }
  rw [Arena.taskMut_put, Arena.taskMut_put]
  split
  · exact same
  · exact h.counters r

theorem Like.identify (now : Nat) :
    Like (p.identify i c.req now).1 (q.identify i c.req now).1 ∧
      (q.identify i c.req now).2 = (p.identify i c.req now).2.map Effect.unpriced := by
  let resolved := p.ident.resolve c.req.headers (if c.req.websocket then none else c.req.digest)
  let captureId :=
    if c.req.websocket || !p.capture then none else some (captureIdOf now resolved.1.node)
  have second : q.identify i c.req now =
      ({ q with ident := resolved.2 }.setPhase i (.identified resolved.1 captureId), []) := by
    simp only [Proxy.identify, h.ident, h.capture, resolved, captureId]
  rw [second]
  refine ⟨Like.setPhase (p := { p with ident := resolved.2 }) ?_ trivial, rfl⟩
  exact { h with ident := rfl }

theorem Like.beginCall [FloatProduct] (captureId : Option String)
    (undenied : ∀ e ∈ (p.beginCall i c.req ref captureId).2, e.isDenial = false) :
    Like (p.beginCall i c.req ref captureId).1 (q.beginCall i c.req ref captureId).1 ∧
      (q.beginCall i c.req ref captureId).2 =
        (p.beginCall i c.req ref captureId).2.map Effect.unpriced := by
  have begun : ((q.arena.taskMut ref.root).begin ref none).counters =
      ((p.arena.taskMut ref.root).begin ref none).counters := by
    obtain ⟨live, peak⟩ := Prod.mk.inj (h.counters ref.root)
    rw [Task.begin_counters, Task.begin_counters, live, peak]
  let t := (p.arena.taskMut ref.root).begin ref none
  let u := (q.arena.taskMut ref.root).begin ref none
  have counters : (p.admission c.req ref t).2.counters = t.counters := by
    unfold admission
    split
    · rfl
    · cases p.rates with
      | none => rfl
      | some rates => exact t.admitAt_counters ref rates
  have asked : (q.admission c.req ref u).1 = ((p.admission c.req ref t).1.map fun _ => .allow) ∧
      (q.admission c.req ref u).2 = u := by
    cases socket : c.req.websocket with
    | true => simp [admission, socket]
    | false => cases rates : p.rates <;> simp [admission, socket, h.rates, rates]
  have phase : phaseAfter ref captureId (p.admission c.req ref t).1 = .admitted ref captureId ∧
      phaseAfter ref captureId (q.admission c.req ref u).1 = .admitted ref captureId := by
    have let_through := undenied _ (List.mem_singleton.mpr rfl)
    rw [asked.1]
    show phaseAfter ref captureId (p.admission c.req ref t).1 = _ ∧ _
    change (Effect.begun i ref (p.admission c.req ref t).1).isDenial = false at let_through
    generalize (p.admission c.req ref t).1 = a at let_through
    rcases a with _ | _ | _ | _
    · exact ⟨rfl, rfl⟩
    · exact ⟨rfl, rfl⟩
    · exact ⟨rfl, rfl⟩
    · cases let_through
  have put := h.put ref.root ((congrArg Task.counters asked.2).trans
    (begun.trans counters.symm))
  constructor
  · show Like (Proxy.setPhase _ i (phaseAfter ref captureId (p.admission c.req ref t).1))
      (Proxy.setPhase _ i (phaseAfter ref captureId (q.admission c.req ref u).1))
    rw [phase.1, phase.2]
    exact put.setPhase trivial
  · show [Effect.begun i ref (q.admission c.req ref u).1] =
      [Effect.unpriced (.begun i ref (p.admission c.req ref t).1)]
    rw [asked.1]
    cases (p.admission c.req ref t).1 <;> rfl

theorem Like.close (usage : Usage) (complete : Bool) (captureId : Option String) (now : Nat)
    (answer : Option Answer) :
    Like (p.close i ref usage complete captureId now answer).1
        (q.close i ref usage complete captureId now answer).1 ∧
      (q.close i ref usage complete captureId now answer).2 =
        (p.close i ref usage complete captureId now answer).2.map Effect.unpriced := by
  have tasks := h.counters ref.root
  have finished : ((q.arena.taskMut ref.root).finish ref usage complete).counters =
      ((p.arena.taskMut ref.root).finish ref usage complete).counters := by
    obtain ⟨live, peak⟩ := Prod.mk.inj tasks
    rw [Task.finish_counters, Task.finish_counters, live, peak]
  have record : (q.finishLocked ref usage complete captureId now).2 =
      (p.finishLocked ref usage complete captureId now).2 := by
    have peak := (Prod.mk.inj finished).2
    simp only [finishLocked, Arena.get_put, if_pos, Option.map_some, peak]
  let r := (p.finishLocked ref usage complete captureId now).2
  have shape : (q.finishLocked ref usage complete captureId now).1 =
      { q with
        arena := q.arena.put ref.root ((q.arena.taskMut ref.root).finish ref usage complete)
        ledger := q.ledger.map (· ++ [r]) } := by
    simp only [r, ← record]
    rfl
  constructor
  · simp only [Proxy.close, shape]
    have put := h.put ref.root finished
    refine Like.setPhase (p := { p with
      arena := p.arena.put ref.root ((p.arena.taskMut ref.root).finish ref usage complete)
      ledger := p.ledger.map (· ++ [r]) }) ?_ trivial
    exact { put with ledger := by rw [h.ledger] }
  · simp only [Proxy.close, record]
    cases answer <;> rfl

variable [FloatProduct] [HttpLibrary]

theorem Like.turn (here : p.calls[i]? = some c) (t : Turn)
    (undenied : ∀ e ∈ (p.turn i c t).2, e.isDenial = false) :
    Like (p.turn i c t).1 (q.turn i c t).1 ∧
      (q.turn i c t).2 = (p.turn i c t).2.map Effect.unpriced := by
  have unstopped := h.calm c (List.mem_of_getElem? here)
  have tunnels : q.tunnels = p.tunnels := by simp only [Proxy.tunnels, h.upstream]
  have prepares : q.prepares c.req = p.prepares c.req := by
    unfold Proxy.prepares
    rw [tunnels, h.upstream]
  have idle : Like p q ∧ ([] : List Effect) = [] := ⟨h, rfl⟩
  obtain ⟨req, phase⟩ := c
  cases phase with
  | received =>
    have ended : Like (p.setPhase i .ended) (q.setPhase i .ended) := h.setPhase trivial
    cases t with
    | go now => exact h.identify now
    | bodyError | cancel =>
      simp only [Proxy.turn]
      split
      · exact idle
      · exact ⟨ended, rfl⟩
    | upstream | upstreamError | metered | upgradeFailed => exact idle
  | identified ref captureId =>
    cases t with
    | go now => exact h.beginCall captureId undenied
    | bodyError | cancel | upstream | upstreamError | metered | upgradeFailed => exact idle
  | refused | stopping => exact unstopped.elim
  | admitted ref captureId =>
    cases t with
    | go now =>
      simp only [Proxy.turn, Proxy.send, prepares]
      split
      · exact ⟨h.setPhase trivial, rfl⟩
      · exact ⟨h.setPhase trivial, rfl⟩
    | bodyError | cancel | upstream | upstreamError | metered | upgradeFailed => exact idle
  | sending ref captureId =>
    cases t with
    | upstream status now =>
      simp only [Proxy.turn, upstreamAnswered, tunnels]
      split
      · exact h.close _ _ _ _ _
      · exact ⟨h.setPhase trivial, rfl⟩
    | upstreamError now =>
      simp only [Proxy.turn, upstreamFailed, tunnels]
      split
      · exact ⟨h.setPhase trivial, rfl⟩
      · exact h.close _ _ _ _ _
    | cancel => exact ⟨h.setPhase trivial, rfl⟩
    | go | bodyError | metered | upgradeFailed => exact idle
  | metering ref captureId =>
    cases t with
    | metered usage complete now => exact h.close _ _ _ _ _
    | upgradeFailed now =>
      simp only [Proxy.turn]
      split
      · exact h.close _ _ _ _ _
      · exact idle
    | go | bodyError | cancel | upstream | upstreamError => exact idle
  | abandoned | ended => exact idle

theorem Like.step (e : RelayEvent) (undenied : ∀ x ∈ (p.step e).2, x.isDenial = false) :
    Like (p.step e).1 (q.step e).1 ∧ (q.step e).2 = (p.step e).2.map Effect.unpriced := by
  cases e with
  | arrive req =>
    constructor
    · refine { h with calls := ?_, calm := fun c arrived => ?_ }
      · simp only [Proxy.step, h.calls]
      · rcases List.mem_append.mp arrived with old | new
        · exact h.calm c old
        · rw [List.mem_singleton.mp new]
          split <;> trivial
    · simp only [Proxy.step, h.calls]
      split <;> rfl
  | turn i t =>
    simp only [Proxy.step, h.calls] at undenied ⊢
    cases here : p.calls[i]? with
    | none => exact ⟨h, rfl⟩
    | some c =>
      simp only [here] at undenied
      exact h.turn here t undenied

end Turns

/-! ## Whole runs -/

theorem like_start (cfg : Config) : Like cfg.start cfg.unbudgeted.start where
  upstream := by rw [start_upstream, start_upstream, Config.unbudgeted]
  ident := by rw [(start_ident _).1, (start_ident _).1]
  ledger := by
    obtain ⟨upstream, budget, ledger, capture⟩ := cfg
    cases budget <;> cases ledger <;> cases capture <;> rfl
  capture := by
    obtain ⟨upstream, budget, ledger, capture⟩ := cfg
    cases budget <;> cases ledger <;> cases capture <;> rfl
  calls := by rw [(start_ident _).2, (start_ident _).2]
  rates := by
    obtain ⟨upstream, budget, ledger, capture⟩ := cfg
    cases ledger <;> cases capture <;> rfl
  counters root := by rw [start_counters, start_counters]
  calm := by
    rw [(start_ident _).2]
    simp

/-- As long as a budget denies no request, a proxy without one does the same: it asks the upstream
for the same calls, gives the same answers, and makes the same records, in the same order. -/
theorem budget_invisible [FloatProduct] [HttpLibrary] (cfg : Config) (es : List RelayEvent)
    (undenied : ∀ e ∈ effects cfg es, e.isDenial = false) :
    effects cfg.unbudgeted es = (effects cfg es).map Effect.unpriced ∧
      (Runs.final step cfg.unbudgeted.start es).ledger = (Runs.final step cfg.start es).ledger ∧
      (Runs.final step cfg.unbudgeted.start es).ident = (Runs.final step cfg.start es).ident := by
  have steps : Runs.Steps step (fun p e => ∀ x ∈ (p.step e).2, x.isDenial = false)
      cfg.start es := by
    intro x hx e he
    obtain ⟨pre, e', post, -, rfl⟩ := Runs.exists_of_mem_trace hx
    exact undenied e (List.mem_flatMap.mpr ⟨_, hx, he⟩)
  obtain ⟨like, same⟩ := Runs.lockstep (R := Like) (fun fx => fx.map Effect.unpriced) id
    (fun p q e h undenied => h.step e undenied) (like_start cfg) steps
  refine ⟨?_, like.ledger, like.ident⟩
  rw [effects, effects, List.map_flatMap]
  exact same

section Cases

attribute [local instance] exactProduct acceptingParsers

/-- A request of the main thread runs to its end. -/
def oneRequest : List RelayEvent :=
  [.arrive (sampleRequest none false), .turn 0 (.go 0), .turn 0 (.go 0), .turn 0 (.go 0),
    .turn 0 (.upstream 200 0), .turn 0 (.metered (.out 60) true 0)]

theorem budget_invisible_oneRequest :
    let cfg : Config := ⟨sampleUpstream, some (50, .perToken, none), true, false⟩
    effects cfg.unbudgeted oneRequest = (effects cfg oneRequest).map Effect.unpriced ∧
      (Runs.final step cfg.unbudgeted.start oneRequest).ledger =
        (Runs.final step cfg.start oneRequest).ledger ∧
      (Runs.final step cfg.unbudgeted.start oneRequest).ident =
        (Runs.final step cfg.start oneRequest).ident :=
  budget_invisible ⟨sampleUpstream, some (50, .perToken, none), true, false⟩ oneRequest
    (by decide +kernel)

end Cases

end Proxy

end Tailfin
