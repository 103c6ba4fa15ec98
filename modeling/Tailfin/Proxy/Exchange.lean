import Tailfin.Proxy.Lifetimes

/-!
# The exchange of a call

What a call does, from its arrival to its end, whatever the other calls do in between: it is begun
before the upstream is asked, asked and answered at most once, and finished with the identity it
was begun with, before the answer where the proxy knows it by itself and after it where the
upstream's answer is metered.
-/

namespace Tailfin

/-- The call that the effect is about. -/
def Effect.call : Effect → Nat
  | .begun i _ _ | .sent i | .finished i _ | .answered i _ => i

/-- What a run does for call `i`. -/
def callEffects (i : Nat) (fx : List Effect) : List Effect := fx.filter fun e => e.call = i

theorem callEffects_append (i : Nat) (fx gx : List Effect) :
    callEffects i (fx ++ gx) = callEffects i fx ++ callEffects i gx :=
  List.filter_append ..

theorem callEffects_same {i : Nat} {fx : List Effect} (same : ∀ e ∈ fx, e.call = i) :
    callEffects i fx = fx :=
  List.filter_eq_self.mpr fun e he => decide_eq_true (same e he)

theorem callEffects_other {i j : Nat} {fx : List Effect} (same : ∀ e ∈ fx, e.call = i)
    (apart : j ≠ i) : callEffects j fx = [] := by
  refine List.filter_eq_nil_iff.mpr fun e he => ?_
  rw [same e he, decide_eq_true_eq]
  exact apart.symm

/-- The record closes the call that began as `ref`. -/
structure Record.Closes (r : Record) (ref : NodeRef) (usage : Usage) (complete : Bool) : Prop where
  root : r.taskId = ref.root
  node : r.node = ref.node
  usage : r.usage = usage
  complete : (!r.incomplete) = complete

/-- The request is let through: a plain one that was not denied, or an upgrade, which is not
asked about. -/
def Request.LetThrough (req : Request) : Option Admission → Prop
  | none => req.websocket = true
  | some a => req.websocket = false ∧ ∀ spent cap, a ≠ .deny spent cap

/-- What a call does if it runs to its end. `tunnels` tells that upgrades are tunneled. -/
inductive Exchange (tunnels : Bool) (i : Nat) (req : Request) : List Effect → Prop
  /-- The proxy answers the probe of its base URL. -/
  | hello : req.isHello = true → Exchange tunnels i req [.answered i .hello]
  /-- The body of the request breaks off. -/
  | unreadable : req.isHello = false → req.websocket = false →
      Exchange tunnels i req [.answered i .badGateway]
  /-- A denied request is finished without usage before its stop is sent. -/
  | stopped (ref : NodeRef) (spent cap : UInt64) (style : StopStyle) (r : Record) :
      req.isHello = false → req.websocket = false → r.Closes ref default true →
      Exchange tunnels i req
        [.begun i ref (some (.deny spent cap)), .finished i r, .answered i (.stop style)]
  /-- The upstream request cannot be built. -/
  | unprepared (ref : NodeRef) (a : Option Admission) : req.isHello = false → req.LetThrough a →
      Exchange tunnels i req [.begun i ref a, .answered i .badGateway]
  /-- The upstream cannot be reached. -/
  | unreachable (ref : NodeRef) (a : Option Admission) (r : Record) : req.isHello = false →
      req.LetThrough a → (req.websocket && tunnels) = false → r.Closes ref default false →
      Exchange tunnels i req [.begun i ref a, .sent i, .finished i r, .answered i .badGateway]
  /-- The handshake of a tunnel breaks. -/
  | broken (ref : NodeRef) (a : Option Admission) : req.isHello = false → req.LetThrough a →
      (req.websocket && tunnels) = true →
      Exchange tunnels i req [.begun i ref a, .sent i, .answered i .badGateway]
  /-- The upstream does not switch protocols. -/
  | refused (ref : NodeRef) (a : Option Admission) (status : Nat) (r : Record) :
      req.isHello = false → req.LetThrough a → (req.websocket && tunnels) = true →
      status ≠ switchingProtocols → r.Closes ref default false →
      Exchange tunnels i req
        [.begun i ref a, .sent i, .finished i r, .answered i (.upstream status)]
  /-- The upstream's answer is relayed, and finished when its metering ends. -/
  | relayed (ref : NodeRef) (a : Option Admission) (status : Nat) (r : Record) (usage : Usage)
      (complete : Bool) : req.isHello = false → req.LetThrough a →
      ((req.websocket && tunnels) = true → status = switchingProtocols) →
      r.Closes ref usage complete →
      Exchange tunnels i req
        [.begun i ref a, .sent i, .answered i (.upstream status), .finished i r]

/-- What a call in a phase has done so far. -/
def Call.Has (tunnels : Bool) (i : Nat) (c : Call) (fx : List Effect) : Prop :=
  match c.phase with
  | .received | .identified _ _ => c.req.isHello = false ∧ fx = []
  | .refused ref | .stopping ref _ => c.req.isHello = false ∧ c.req.websocket = false ∧
      ∃ spent cap, fx = [.begun i ref (some (.deny spent cap))]
  | .admitted ref _ => c.req.isHello = false ∧ ∃ a, c.req.LetThrough a ∧ fx = [.begun i ref a]
  | .sending ref _ => c.req.isHello = false ∧
      ∃ a, c.req.LetThrough a ∧ fx = [.begun i ref a, .sent i]
  | .metering ref _ => c.req.isHello = false ∧ ∃ a status, c.req.LetThrough a ∧
      ((c.req.websocket && tunnels) = true → status = switchingProtocols) ∧
      fx = [.begun i ref a, .sent i, .answered i (.upstream status)]
  | .abandoned _ => ∃ whole, Exchange tunnels i c.req whole ∧ fx <+: whole
  | .ended => fx = [] ∨ Exchange tunnels i c.req fx

/-- A record that closes whatever began as `ref`. -/
def closing (ref : NodeRef) (usage : Usage) (complete : Bool) : Record :=
  .fromFinish ref usage (!complete) 0 0

theorem closing_closes (ref : NodeRef) (usage : Usage) (complete : Bool) :
    (closing ref usage complete).Closes ref usage complete :=
  ⟨rfl, rfl, rfl, Bool.not_not complete⟩

theorem Request.exists_letThrough (req : Request) : ∃ a, req.LetThrough a := by
  cases socket : req.websocket with
  | true => exact ⟨none, socket⟩
  | false =>
    refine ⟨some .allow, socket, ?_⟩
    rintro spent cap ⟨⟩

/-- Every request has an exchange that goes through. -/
theorem exists_relayed {tunnels : Bool} {i : Nat} {req : Request} (real : req.isHello = false)
    (ref : NodeRef) {a : Option Admission} (letThrough : req.LetThrough a) :
    Exchange tunnels i req [.begun i ref a, .sent i, .answered i (.upstream switchingProtocols),
      .finished i (closing ref default true)] :=
  .relayed ref a _ _ default true real letThrough (fun _ => rfl) (closing_closes ref default true)

/-- What a call has done is the beginning of an exchange. -/
theorem Call.Has.exists_whole {tunnels : Bool} {i : Nat} {c : Call} {fx : List Effect}
    (h : c.Has tunnels i fx) : ∃ whole, Exchange tunnels i c.req whole ∧ fx <+: whole := by
  obtain ⟨req, phase⟩ := c
  have unbegun (real : req.isHello = false) :
      ∃ whole, Exchange tunnels i req whole ∧ [] <+: whole := by
    obtain ⟨a, letThrough⟩ := req.exists_letThrough
    exact ⟨_, exists_relayed real (.undeclared "" .anonymous) letThrough, List.nil_prefix⟩
  cases phase with
  | received | identified =>
    obtain ⟨real, rfl⟩ := h
    exact unbegun real
  | refused ref | stopping ref =>
    obtain ⟨real, plain, spent, cap, rfl⟩ := h
    exact ⟨_, .stopped ref spent cap .paymentRequired402 _ real plain
      (closing_closes ref default true), by simp⟩
  | admitted ref =>
    obtain ⟨real, a, letThrough, rfl⟩ := h
    exact ⟨_, exists_relayed real ref letThrough, by simp⟩
  | sending ref =>
    obtain ⟨real, a, letThrough, rfl⟩ := h
    exact ⟨_, exists_relayed real ref letThrough, by simp⟩
  | metering ref =>
    obtain ⟨real, a, status, letThrough, switched, rfl⟩ := h
    exact ⟨_, .relayed ref a status _ default true real letThrough switched
      (closing_closes ref default true), by simp⟩
  | abandoned => exact h
  | ended =>
    rcases h with rfl | whole
    · cases hello : req.isHello with
      | true => exact ⟨_, .hello hello, List.nil_prefix⟩
      | false => exact unbegun hello
    · exact ⟨fx, whole, List.prefix_rfl⟩

namespace Proxy

variable {p : Proxy} {i : Nat} {c : Call} {fx : List Effect}

theorem call_of_mem_turn [FloatProduct] [HttpLibrary] {t : Turn} {e : Effect}
    (h : e ∈ (p.turn i c t).2) : e.call = i := by
  have out := p.turn_outcome i c t
  generalize p.turn i c t = result at out h
  have closed {ref usage complete captureId now answer}
      (h : e ∈ (p.close i ref usage complete captureId now answer).2) : e.call = i := by
    rcases List.mem_cons.mp h with rfl | last
    · rfl
    · obtain ⟨a, -, rfl⟩ := Option.map_eq_some_iff.mp (Option.mem_toList.mp last)
      rfl
  have alone {e' : Effect} (named : e'.call = i) (h : e ∈ [e']) : e.call = i := by
    rw [List.mem_singleton.mp h, named]
  cases out with
  | idle | identified | unheard | stopping | cancelled => cases h
  | unreadable | begun => exact alone rfl h
  | sent =>
    unfold Proxy.send at h
    split at h <;> exact alone rfl h
  | answered =>
    unfold upstreamAnswered at h
    split at h
    · exact closed h
    · exact alone rfl h
  | failed =>
    unfold upstreamFailed at h
    split at h
    · exact alone rfl h
    · exact closed h
  | stopped | metered | downgraded => exact closed h

/-- A turn sets the phase of its call, and the call has done what it has done in that phase. -/
structure Goes (p : Proxy) (i : Nat) (c : Call) (fx : List Effect) (result : Proxy × List Effect)
    (phase : Phase) : Prop where
  upstream : result.1.upstream = p.upstream
  calls : result.1.calls = p.calls.set i ⟨c.req, phase⟩
  has : Call.Has p.tunnels i ⟨c.req, phase⟩ (fx ++ result.2)

/-- A call that was begun has been let through, or is refused. -/
theorem has_phaseAfter {tunnels : Bool} {req : Request} (real : req.isHello = false)
    (ref : NodeRef) (captureId : Option String) (t : Task) :
    Call.Has tunnels i ⟨req, phaseAfter ref captureId (p.admission req ref t).1⟩
      [.begun i ref (p.admission req ref t).1] := by
  cases socket : req.websocket with
  | true =>
    have unasked : (p.admission req ref t).1 = none := by simp [admission, socket]
    rw [unasked]
    exact ⟨real, none, socket, rfl⟩
  | false =>
    obtain ⟨a, asked⟩ : ∃ a, (p.admission req ref t).1 = some a := by
      unfold admission
      rw [socket]
      cases p.rates with
      | none => exact ⟨.allow, rfl⟩
      | some rates => exact ⟨(t.admitAt ref rates).1, rfl⟩
    rw [asked]
    cases a with
    | deny spent cap => exact ⟨real, socket, spent, cap, rfl⟩
    | allow => exact ⟨real, some .allow, ⟨socket, by rintro _ _ ⟨⟩⟩, rfl⟩
    | last => exact ⟨real, some .last, ⟨socket, by rintro _ _ ⟨⟩⟩, rfl⟩

section Turns

variable (here : p.calls[i]? = some c)
include here

theorem goes_setPhase {q : Proxy} (same : q.upstream = p.upstream ∧ q.calls = p.calls)
    {gx : List Effect} {phase : Phase} (has : Call.Has p.tunnels i ⟨c.req, phase⟩ (fx ++ gx)) :
    Goes p i c fx (q.setPhase i phase, gx) phase := by
  refine ⟨same.1, ?_, has⟩
  rw [← same.2] at here ⊢
  exact calls_setPhase here phase

theorem goes_close {ref : NodeRef} {usage : Usage} {complete : Bool} {captureId : Option String}
    {now : Nat} {answer : Option Answer}
    (has : ∀ r : Record, r.Closes ref usage complete → Exchange p.tunnels i c.req
      (fx ++ .finished i r :: (answer.map (.answered i)).toList)) :
    Goes p i c fx (p.close i ref usage complete captureId now answer) .ended := by
  obtain ⟨root, node, used, whole, -⟩ := p.finishLocked_record ref usage complete captureId now
  refine ⟨rfl, ?_, .inr (has _ ⟨root, node, used, whole⟩)⟩
  exact calls_setPhase (p := (p.finishLocked ref usage complete captureId now).1) here .ended

variable [FloatProduct] [HttpLibrary]

theorem goes_turn (h : c.Has p.tunnels i fx) (t : Turn) :
    ∃ phase, Goes p i c fx (p.turn i c t) phase := by
  obtain ⟨req, phase⟩ := c
  have out := p.turn_outcome i ⟨req, phase⟩ t
  generalize made : p.turn i ⟨req, phase⟩ t = result at out
  cases out with
  | idle =>
    refine ⟨phase, rfl, ?_, (List.append_nil fx).symm ▸ h⟩
    obtain ⟨bound, there⟩ := List.getElem?_eq_some_iff.mp here
    rw [← there, List.set_getElem_self]
  | identified now at_ =>
    obtain rfl := at_
    obtain ⟨real, rfl⟩ := h
    unfold identify
    refine ⟨_, goes_setPhase here ?_ ?_⟩
    · exact ⟨rfl, rfl⟩
    · exact ⟨real, rfl⟩
  | unreadable at_ =>
    obtain rfl := at_
    obtain ⟨real, rfl⟩ := h
    have plain : req.websocket = false := by
      cases socket : req.websocket with
      | false => rfl
      | true => simp [turn, socket] at made
    exact ⟨.ended, goes_setPhase here ⟨rfl, rfl⟩ (.inr (.unreadable real plain))⟩
  | unheard at_ =>
    obtain rfl := at_
    obtain ⟨real, rfl⟩ := h
    exact ⟨.ended, goes_setPhase here ⟨rfl, rfl⟩ (.inl rfl)⟩
  | begun ref captureId now at_ =>
    obtain rfl := at_
    obtain ⟨real, rfl⟩ := h
    unfold beginCall
    refine ⟨_, goes_setPhase here ?_ (has_phaseAfter real ref captureId _)⟩
    exact ⟨rfl, rfl⟩
  | stopping ref now at_ =>
    obtain rfl := at_
    unfold takeStop
    refine ⟨_, goes_setPhase here ?_ ?_⟩
    · exact ⟨rfl, rfl⟩
    · rw [List.append_nil]
      exact h
  | stopped ref style now at_ =>
    obtain rfl := at_
    obtain ⟨real, plain, spent, cap, rfl⟩ := h
    exact ⟨.ended, goes_close here fun r closes => .stopped ref spent cap style r real plain closes⟩
  | sent ref captureId now at_ =>
    obtain rfl := at_
    obtain ⟨real, a, letThrough, rfl⟩ := h
    unfold Proxy.send
    split
    · exact ⟨.sending ref captureId,
        goes_setPhase here ⟨rfl, rfl⟩ ⟨real, a, letThrough, rfl⟩⟩
    · exact ⟨.abandoned ref, goes_setPhase here ⟨rfl, rfl⟩
        ⟨_, .unprepared ref a real letThrough, List.prefix_rfl⟩⟩
  | answered ref captureId status now at_ =>
    obtain rfl := at_
    obtain ⟨real, a, letThrough, rfl⟩ := h
    unfold upstreamAnswered
    split
    · next both =>
      obtain ⟨tunneled, unswitched⟩ := Bool.and_eq_true_iff.mp both
      exact ⟨.ended, goes_close here fun r closes =>
        .refused ref a status r real letThrough tunneled (of_decide_eq_true unswitched) closes⟩
    · next kept =>
      have switched : (req.websocket && p.tunnels) = true → status = switchingProtocols := by
        intro tunneled
        by_contra unswitched
        exact kept (Bool.and_eq_true_iff.mpr ⟨tunneled, decide_eq_true unswitched⟩)
      exact ⟨.metering ref captureId, goes_setPhase here ⟨rfl, rfl⟩
        ⟨real, a, status, letThrough, switched, rfl⟩⟩
  | failed ref captureId now at_ =>
    obtain rfl := at_
    obtain ⟨real, a, letThrough, rfl⟩ := h
    unfold upstreamFailed
    split
    · next tunneled =>
      exact ⟨.abandoned ref, goes_setPhase here ⟨rfl, rfl⟩
        ⟨_, .broken ref a real letThrough tunneled, List.prefix_rfl⟩⟩
    · next plain =>
      exact ⟨.ended, goes_close here fun r closes =>
        .unreachable ref a r real letThrough (Bool.eq_false_of_not_eq_true plain) closes⟩
  | cancelled ref captureId at_ =>
    obtain rfl := at_
    obtain ⟨real, a, letThrough, rfl⟩ := h
    exact ⟨.abandoned ref, goes_setPhase here ⟨rfl, rfl⟩
      ⟨_, exists_relayed real ref letThrough, by simp⟩⟩
  | metered ref captureId usage complete now at_ =>
    obtain rfl := at_
    obtain ⟨real, a, status, letThrough, switched, rfl⟩ := h
    exact ⟨.ended, goes_close here fun r closes =>
      .relayed ref a status r usage complete real letThrough switched closes⟩
  | downgraded ref captureId now at_ =>
    obtain rfl := at_
    obtain ⟨real, a, status, letThrough, switched, rfl⟩ := h
    exact ⟨.ended, goes_close here fun r closes =>
      .relayed ref a status r default false real letThrough switched closes⟩

end Turns

/-! ## Whole runs -/

/-- What every call of a proxy has done, where `fx` is what the proxy has done. -/
structure Conducts (upstream : Uri) (p : Proxy) (fx : List Effect) : Prop where
  upstream : p.upstream = upstream
  calls : ∀ (i : Nat) (c : Call), p.calls[i]? = some c → c.Has p.tunnels i (callEffects i fx)
  none : ∀ i, p.calls.length ≤ i → callEffects i fx = []

variable [FloatProduct] [HttpLibrary]

theorem Conducts.arrive {upstream : Uri} (h : Conducts upstream p fx) (req : Request) :
    Conducts upstream (p.step (.arrive req)).1 (fx ++ (p.step (.arrive req)).2) := by
  let phase : Phase := if req.isHello then .ended else .received
  have calls : (p.step (.arrive req)).1.calls = p.calls ++ [⟨req, phase⟩] := rfl
  have own : ∀ e ∈ (p.step (.arrive req)).2, e.call = p.calls.length := by
    intro e answered
    simp only [step] at answered
    split at answered
    · rw [List.mem_singleton.mp answered]
      rfl
    · cases answered
  have others (j : Nat) (apart : j ≠ p.calls.length) :
      callEffects j (fx ++ (p.step (.arrive req)).2) = callEffects j fx := by
    rw [callEffects_append, callEffects_other own apart, List.append_nil]
  refine ⟨h.upstream, fun j c found => ?_, fun j beyond => ?_⟩
  · rw [calls] at found
    rcases Nat.lt_trichotomy j p.calls.length with older | rfl | past
    · rw [List.getElem?_append_left older] at found
      rw [others j (Nat.ne_of_lt older)]
      exact h.calls j c found
    · rw [List.getElem?_concat_length] at found
      obtain rfl := Option.some.inj found
      rw [callEffects_append, h.none _ le_rfl, callEffects_same own, List.nil_append]
      cases hello : req.isHello with
      | true =>
        have ended : phase = .ended := if_pos hello
        rw [ended]
        exact .inr (by simpa [step, hello] using Exchange.hello hello)
      | false =>
        have received : phase = .received := if_neg (by simp [hello])
        rw [received]
        exact ⟨hello, by simp [step, hello]⟩
    · rw [List.getElem?_eq_none (by simp; omega)] at found
      cases found
  · rw [calls, List.length_append, List.length_singleton] at beyond
    rw [others j (by omega)]
    exact h.none j (by omega)

theorem Conducts.turn {upstream : Uri} (h : Conducts upstream p fx) (here : p.calls[i]? = some c)
    (t : Turn) : Conducts upstream (p.turn i c t).1 (fx ++ (p.turn i c t).2) := by
  obtain ⟨phase, goes⟩ := goes_turn here (h.calls i c here) t
  have own : ∀ e ∈ (p.turn i c t).2, e.call = i := fun _ => call_of_mem_turn
  have others (j : Nat) (apart : j ≠ i) :
      callEffects j (fx ++ (p.turn i c t).2) = callEffects j fx := by
    rw [callEffects_append, callEffects_other own apart, List.append_nil]
  have tunnels : (p.turn i c t).1.tunnels = p.tunnels := by
    simp only [Proxy.tunnels, goes.upstream]
  have bound := (List.getElem?_eq_some_iff.mp here).1
  refine ⟨goes.upstream.trans h.upstream, fun j d found => ?_, fun j beyond => ?_⟩
  · rw [tunnels]
    rw [goes.calls, List.getElem?_set] at found
    by_cases same : i = j
    · subst same
      rw [if_pos rfl, if_pos bound] at found
      obtain rfl := Option.some.inj found
      rw [callEffects_append, callEffects_same own]
      exact goes.has
    · rw [if_neg same] at found
      rw [others j (Ne.symm same)]
      exact h.calls j d found
  · rw [goes.calls, List.length_set] at beyond
    rw [others j (by omega)]
    exact h.none j beyond

omit [FloatProduct] [HttpLibrary] in
theorem start_upstream (cfg : Config) : cfg.start.upstream = cfg.upstream := by
  obtain ⟨upstream, budget, ledger, capture⟩ := cfg
  cases budget <;> cases ledger <;> cases capture <;> rfl

theorem conducts_run (cfg : Config) (es : List RelayEvent) :
    Conducts cfg.upstream (Runs.final step cfg.start es) (effects cfg es) := by
  refine effects_invariant cfg (fun p fx e h => ?_) ?_ es
  · cases e with
    | arrive req => exact h.arrive req
    | turn i t =>
      simp only [step]
      cases here : p.calls[i]? with
      | none =>
        rw [List.append_nil]
        exact h
      | some c => exact h.turn here t
  · refine ⟨start_upstream cfg, ?_, fun _ _ => rfl⟩
    rw [(start_ident cfg).2]
    intro i c found
    cases found

/-- What is done for a call is the beginning of one of its exchanges, and the whole of one if the
call has ended and anything was done. Nothing is done for a call that has not arrived. -/
def Follows (tunnels : Bool) (i : Nat) (fx : List Effect) : Option Call → Prop
  | none => fx = []
  | some c => (∃ whole, Exchange tunnels i c.req whole ∧ fx <+: whole) ∧
      (c.phase = .ended → fx = [] ∨ Exchange tunnels i c.req fx)

/-- In every run, whatever order the turns are taken in, each call goes through one exchange. -/
theorem exchanges (cfg : Config) (es : List RelayEvent) (i : Nat) :
    Follows cfg.start.tunnels i (callEffects i (effects cfg es))
      (Runs.final step cfg.start es).calls[i]? := by
  have conducts := conducts_run cfg es
  have tunnels : (Runs.final step cfg.start es).tunnels = cfg.start.tunnels := by
    simp only [Proxy.tunnels, conducts.upstream, start_upstream]
  cases here : (Runs.final step cfg.start es).calls[i]? with
  | none => exact conducts.none i (List.getElem?_eq_none_iff.mp here)
  | some c =>
    have has := conducts.calls i c here
    rw [tunnels] at has
    refine ⟨has.exists_whole, fun ended => ?_⟩
    rwa [Call.Has, ended] at has

end Proxy

end Tailfin
