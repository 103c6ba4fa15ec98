import Tailfin.Proxy.Exchange
import Tailfin.Proxy.Observe

/-!
# Captures and their records

A capture is saved by a task of its own, and the record of the same call is appended when its
metering ends, by another one. Whichever comes first, both carry the same id and the same identity,
so that a record leads to its capture.
-/

namespace Tailfin

/-- What a call in a phase takes along. -/
def Phase.carried : Phase → Option (NodeRef × Option String)
  | .identified ref id | .admitted ref id | .sending ref id | .metering ref id => some (ref, id)
  | _ => none

/-- The record is of the identity, and leads to the capture `id`. -/
structure Record.Leads (r : Record) (ref : NodeRef) (id : Option String) : Prop where
  root : r.taskId = ref.root
  node : r.node = ref.node
  parent : r.parent = ref.parent
  captureId : r.captureId = id

namespace Proxy

variable {p : Proxy} {i : Nat} {c : Call}

theorem finishLocked_leads (p : Proxy) (ref : NodeRef) (usage : Usage) (complete : Bool)
    (id : Option String) (now : Nat) : (p.finishLocked ref usage complete id now).2.Leads ref id := by
  cases id <;> exact ⟨rfl, rfl, rfl, rfl⟩

/-- What a turn of call `i` does with what the call takes along. -/
structure Carries (p : Proxy) (i : Nat) (c : Call) (t : Turn) (result : Proxy × List Effect)
    (phase : Phase) : Prop where
  calls : result.1.calls = p.calls.set i ⟨c.req, phase⟩
  /-- It is kept from phase to phase. An upgrade is not captured. -/
  carried : ∀ ref id, phase.carried = some (ref, id) →
    c.phase.carried = some (ref, id) ∨ c.phase = .received ∧ (c.req.websocket = true → id = none)
  /-- What is sent has just been let through. -/
  sent : ∀ ref id, phase.Past → phase.carried = some (ref, id) →
    c.phase.Past ∨ c.phase = .admitted ref id ∧ ∃ now, t = .go now
  /-- Only what was sent is finished with a capture. -/
  finished : ∀ j r, .finished j r ∈ result.2 → j = i ∧ phase.Past ∧
    ((¬ c.phase.Past ∧ c.phase.carried = none ∧ r.captureId = none) ∨
      ∃ ref id id', c.phase.Past ∧ c.phase.carried = some (ref, id) ∧ r.Leads ref id' ∧
        (id' = id ∨ c.req.websocket = true ∧ id' = none))

section Turns

variable {t : Turn} (here : p.calls[i]? = some c)
include here

/-- A turn that finishes nothing. -/
theorem carries_setPhase {q : Proxy} (same : q.calls = p.calls) {fx : List Effect}
    (silent : ∀ j r, .finished j r ∉ fx) {phase : Phase}
    (carried : ∀ ref id, phase.carried = some (ref, id) →
      c.phase.carried = some (ref, id) ∨ c.phase = .received ∧ (c.req.websocket = true → id = none))
    (sent : ∀ ref id, phase.Past → phase.carried = some (ref, id) →
      c.phase.Past ∨ c.phase = .admitted ref id ∧ ∃ now, t = .go now) :
    Carries p i c t (q.setPhase i phase, fx) phase := by
  refine ⟨?_, carried, sent, fun j r written => absurd written (silent j r)⟩
  rw [← same] at here ⊢
  exact calls_setPhase here phase

/-- A turn after which the call takes nothing along any more. -/
theorem carries_drop {q : Proxy} (same : q.calls = p.calls) {fx : List Effect}
    (silent : Silent fx) {phase : Phase} (bare : phase.carried = none) :
    Carries p i c t (q.setPhase i phase, fx) phase := by
  have none_ : ∀ ref id, phase.carried ≠ some (ref, id) := by
    intro ref id held
    rw [bare] at held
    cases held
  exact carries_setPhase here same (not_finished_of_silent silent) (fun ref id held => absurd held (none_ ref id))
    fun ref id _ held => absurd held (none_ ref id)

/-- The last turn of a call. -/
theorem carries_close {ref : NodeRef} {usage : Usage} {complete : Bool} {id : Option String}
    {now : Nat} {answer : Option Answer}
    (holds : (¬ c.phase.Past ∧ c.phase.carried = none ∧ id = none) ∨ ∃ id', c.phase.Past ∧
      c.phase.carried = some (ref, id') ∧ (id = id' ∨ c.req.websocket = true ∧ id = none)) :
    Carries p i c t (p.close i ref usage complete id now answer) .ended := by
  have leads := p.finishLocked_leads ref usage complete id now
  refine ⟨?_, by rintro _ _ ⟨⟩, by rintro _ _ _ ⟨⟩, fun j r written => ?_⟩
  · exact calls_setPhase (p := (p.finishLocked ref usage complete id now).1) here .ended
  · rcases List.mem_cons.mp written with last | rest
    · obtain ⟨rfl, rfl⟩ := Effect.finished.inj last
      refine ⟨rfl, trivial, ?_⟩
      rcases holds with ⟨before, bare, rfl⟩ | ⟨id', past, held, same⟩
      · exact .inl ⟨before, bare, leads.captureId⟩
      · exact .inr ⟨ref, id', id, past, held, leads, same⟩
    · exact absurd rest (not_finished_of_silent (silent_answered i answer) j r)

variable [FloatProduct] [HttpLibrary]

theorem carries_turn (t : Turn) : ∃ phase, Carries p i c t (p.turn i c t) phase := by
  have out := p.turn_outcome i c t
  generalize made : p.turn i c t = result at out
  cases out with
  | idle =>
    refine ⟨c.phase, ?_, fun _ _ held => .inl held, fun _ _ past _ => .inl past, by simp⟩
    obtain ⟨bound, there⟩ := List.getElem?_eq_some_iff.mp here
    rw [← there, List.set_getElem_self]
  | identified now at_ =>
    unfold identify
    refine ⟨_, carries_setPhase here ?_ (by simp) (fun ref id held => .inr ⟨at_, ?_⟩) ?_⟩
    · rfl
    · intro socket
      obtain ⟨-, rfl⟩ := Prod.mk.inj (Option.some.inj held)
      simp [socket]
    · intro ref id past
      exact past.elim
  | unreadable => exact ⟨.ended, carries_drop here rfl (silent_answered i (some _)) rfl⟩
  | unheard => exact ⟨.ended, carries_drop here rfl silent_nil rfl⟩
  | begun ref captureId now at_ =>
    unfold beginCall
    refine ⟨_, carries_setPhase here ?_ (by simp) (fun ref' id held => .inl ?_) ?_⟩
    · rfl
    · rw [at_]
      unfold phaseAfter at held
      split at held
      · cases held
      · exact held
    · intro ref' id past
      unfold phaseAfter at past
      split at past <;> exact past.elim
  | stopping ref now at_ =>
    unfold takeStop
    refine ⟨.stopping ref _, carries_drop here ?_ silent_nil rfl⟩
    rfl
  | stopped ref style now at_ =>
    exact ⟨.ended, carries_close here (.inl ⟨by simp [at_, Phase.Past], at_ ▸ rfl, rfl⟩)⟩
  | sent ref captureId now at_ =>
    unfold send
    split
    · refine ⟨.sending ref captureId, carries_setPhase here rfl (by simp) ?_ ?_⟩
      · intro ref' id held
        exact .inl (by rw [at_]; exact held)
      · intro ref' id _ held
        obtain ⟨rfl, rfl⟩ := Prod.mk.inj (Option.some.inj held)
        exact .inr ⟨at_, now, rfl⟩
    · exact ⟨.abandoned ref, carries_drop here rfl (silent_answered i (some _)) rfl⟩
  | answered ref captureId status now at_ =>
    have past : c.phase.Past := at_ ▸ trivial
    have held : c.phase.carried = some (ref, captureId) := at_ ▸ rfl
    unfold upstreamAnswered
    split
    · next tunneled =>
      have socket : c.req.websocket = true := by
        rw [Bool.and_assoc, Bool.and_eq_true] at tunneled
        exact tunneled.1
      exact ⟨.ended, carries_close here (.inr ⟨captureId, past, held, .inr ⟨socket, rfl⟩⟩)⟩
    · refine ⟨.metering ref captureId, carries_setPhase here rfl (by simp) ?_ ?_⟩
      · exact fun ref' id same => .inl (held.trans same)
      · exact fun _ _ _ _ => .inl past
  | failed ref captureId now at_ =>
    unfold upstreamFailed
    split
    · exact ⟨.abandoned ref, carries_drop here rfl (silent_answered i (some _)) rfl⟩
    · exact ⟨.ended, carries_close here
        (.inr ⟨captureId, at_ ▸ trivial, at_ ▸ rfl, .inl rfl⟩)⟩
  | cancelled ref captureId at_ => exact ⟨.abandoned ref, carries_drop here rfl silent_nil rfl⟩
  | metered ref captureId usage complete now at_ =>
    exact ⟨.ended, carries_close here (.inr ⟨captureId, at_ ▸ trivial, at_ ▸ rfl, .inl rfl⟩)⟩
  | downgraded ref captureId now at_ =>
    have socket : c.req.websocket = true := by
      cases plain : c.req.websocket with
      | true => rfl
      | false =>
        simp only [turn, at_, plain] at made
        cases congrArg (List.length ∘ Prod.snd) made
    exact ⟨.ended, carries_close here
      (.inr ⟨captureId, at_ ▸ trivial, at_ ▸ rfl, .inr ⟨socket, rfl⟩⟩)⟩

end Turns

end Proxy

namespace ObservedProxy

/-- The calls that were saved. -/
def savedCalls (xs : List Sight) : List Nat :=
  xs.filterMap fun
    | .saved i _ => some i
    | _ => none

/-- What holds of the captures and of the records, where `xs` has been seen. -/
structure Linked [JsonParser] [JsonDisplay] (o : ObservedProxy) (xs : List Sight) : Prop where
  /-- No upgrade is captured. -/
  plain : ∀ (i : Nat) (c : Call) ref id, o.proxy.calls[i]? = some c →
    c.phase.carried = some (ref, id) → c.req.websocket = true → id = none
  sent : ∀ (i : Nat) (c : Call) ref id, o.proxy.calls[i]? = some c → c.phase.Past →
    c.phase.carried = some (ref, id) → c.req.websocket = false →
    ∃ w ∈ o.given, w.call = i ∧ w.live = ref ∧ w.captureId = id
  passed : ∀ i r, .relayed (.finished i r) ∈ xs → ∃ req, o.proxy.Passed i req
  leads : ∀ w ∈ o.given, ∀ r, .relayed (.finished w.call r) ∈ xs → r.Leads w.live w.captureId
  spawned : ∀ i r id, .relayed (.finished i r) ∈ xs → r.captureId = some id →
    ∃ w ∈ o.given, w.call = i
  saved : ∀ i rec, .saved i rec ∈ xs → ∃ w ∈ o.tasks, w.call = i ∧ w.stage ≠ .capture ∧
    ∃ id now, w.captureId = some id ∧ rec = w.capture id now
  drained : ∀ w ∈ o.tasks, w.stage ≠ .capture → ∀ id, w.captureId = some id →
    ∃ rec, .saved w.call rec ∈ xs
  once : (savedCalls xs).Nodup

theorem savedCalls_append (xs ys : List Sight) :
    savedCalls (xs ++ ys) = savedCalls xs ++ savedCalls ys := by
  rw [savedCalls, List.filterMap_append]
  rfl

theorem mem_savedCalls {xs : List Sight} {i : Nat} :
    i ∈ savedCalls xs ↔ ∃ rec, .saved i rec ∈ xs := by
  rw [savedCalls, List.mem_filterMap]
  constructor
  · rintro ⟨x, hx, same⟩
    cases x with
    | saved j rec =>
      obtain rfl := Option.some.inj same
      exact ⟨rec, hx⟩
    | relayed | compared | noted => cases same
  · rintro ⟨rec, hx⟩
    exact ⟨_, hx, rfl⟩

/-- There is one task to a call. -/
theorem Watches.unique_task {o : ObservedProxy} {asked seen : List (Nat × ResolveCall)}
    {xs : List Sight} (h : Watches o asked seen xs) {v w : Observation} (hv : v ∈ o.tasks)
    (hw : w ∈ o.tasks) (same : v.call = w.call) : v = w := by
  have apart := h.apart
  rw [given, List.map_map] at apart
  exact List.inj_on_of_nodup_map apart hv hw same

theorem Watches.unique {o : ObservedProxy} {asked seen : List (Nat × ResolveCall)}
    {xs : List Sight} (h : Watches o asked seen xs) {v w : Observation} (hv : v ∈ o.given)
    (hw : w ∈ o.given) (same : v.call = w.call) : v = w :=
  List.inj_on_of_nodup_map h.apart hv hw same

theorem relayed_mem {xs : List Sight} {fx : List Effect} {e : Effect} :
    .relayed e ∈ xs ++ fx.map Sight.relayed ↔ .relayed e ∈ xs ∨ e ∈ fx := by
  rw [List.mem_append, List.mem_map]
  constructor
  · rintro (old | ⟨e', he, same⟩)
    · exact .inl old
    · exact .inr (Sight.relayed.inj same ▸ he)
  · rintro (old | new)
    · exact .inl old
    · exact .inr ⟨e, new, rfl⟩

theorem saved_mem {xs : List Sight} {fx : List Effect} {i : Nat} {rec : CaptureRecord} :
    .saved i rec ∈ xs ++ fx.map Sight.relayed ↔ .saved i rec ∈ xs := by
  simp

/-- A plain call that is let through gets a task. -/
theorem exists_spawned {o : ObservedProxy} {i : Nat} {c : Call} {ref : NodeRef}
    {id : Option String} (here : o.proxy.calls[i]? = some c) (admitted : c.phase = .admitted ref id)
    (plain : c.req.websocket = false) (now : Nat) :
    ∃ w ∈ o.spawned i (.go now), w.call = i ∧ w.live = ref ∧ w.captureId = id := by
  obtain ⟨req, phase⟩ := c
  obtain rfl : phase = .admitted ref id := admitted
  have some_ : o.spawned i (.go now) = [⟨i, req, ref, (o.texts.getD i ("", [])).1,
      (o.texts.getD i ("", [])).2, id, .capture⟩] := by
    simp only [spawned, here, if_neg (show ¬ req.websocket = true by simpa using plain)]
  rw [some_]
  exact ⟨_, List.mem_singleton.mpr rfl, rfl, rfl, rfl⟩

section Kept

variable [JsonParser] [JsonDisplay] {o : ObservedProxy} {asked seen : List (Nat × ResolveCall)}
  {xs : List Sight}

/-- The relay goes on. Tasks that are spawned have not saved anything. -/
theorem Linked.relay (h : Linked o xs) (o' : ObservedProxy) (new : List Observation)
    (fx : List Effect) (tasks : o'.tasks = o.tasks ++ new) (due : ∀ w ∈ new, w.stage = .capture)
    (plain : ∀ (i : Nat) (c : Call) ref id, o'.proxy.calls[i]? = some c →
      c.phase.carried = some (ref, id) → c.req.websocket = true → id = none)
    (sent : ∀ (i : Nat) (c : Call) ref id, o'.proxy.calls[i]? = some c → c.phase.Past →
      c.phase.carried = some (ref, id) → c.req.websocket = false →
      ∃ w ∈ o'.given, w.call = i ∧ w.live = ref ∧ w.captureId = id)
    (passed : ∀ i r, .finished i r ∈ fx → ∃ req, o'.proxy.Passed i req)
    (stays : ∀ i req, o.proxy.Passed i req → o'.proxy.Passed i req)
    (leads : ∀ w ∈ o'.given, ∀ r, .relayed (.finished w.call r) ∈ xs ∨ .finished w.call r ∈ fx →
      r.Leads w.live w.captureId)
    (spawned : ∀ i r id, .finished i r ∈ fx → r.captureId = some id → ∃ w ∈ o'.given, w.call = i) :
    Linked o' (xs ++ fx.map .relayed) := by
  have grown : o'.given = o.given ++ new.map Observation.given := by
    rw [given, tasks, List.map_append]
    rfl
  refine ⟨plain, sent, ?_, ?_, ?_, ?_, ?_, ?_⟩
  · intro i r finished
    rcases relayed_mem.mp finished with old | now
    · obtain ⟨req, past⟩ := h.passed i r old
      exact ⟨req, stays i req past⟩
    · exact passed i r now
  · exact fun w hw r finished => leads w hw r (relayed_mem.mp finished)
  · intro i r id finished captured
    rcases relayed_mem.mp finished with old | now
    · obtain ⟨w, hw, called⟩ := h.spawned i r id old captured
      exact ⟨w, grown ▸ List.mem_append_left _ hw, called⟩
    · exact spawned i r id now captured
  · intro i rec saved
    obtain ⟨w, hw, rest⟩ := h.saved i rec (saved_mem.mp saved)
    exact ⟨w, tasks ▸ List.mem_append_left _ hw, rest⟩
  · intro w hw past id captured
    rw [tasks] at hw
    rcases List.mem_append.mp hw with old | added
    · obtain ⟨rec, saved⟩ := h.drained w old past id captured
      exact ⟨rec, saved_mem.mpr saved⟩
    · exact absurd (due w added) past
  · have none_ : savedCalls (fx.map .relayed) = [] := by
      rw [savedCalls, List.filterMap_map]
      exact List.filterMap_eq_nil_iff.mpr fun _ _ => rfl
    rw [savedCalls_append, none_, List.append_nil]
    exact h.once

theorem Linked.arrive [FloatProduct] [HttpLibrary] [CaptureJson] (h : Linked o xs) (req : Request)
    (method : String) (body : List UInt8) : Linked (o.step (.arrive req method body)).1
      (xs ++ (o.step (.arrive req method body)).2) := by
  let phase : Phase := if req.isHello then .ended else .received
  have calls : (o.proxy.step (.arrive req)).1.calls = o.proxy.calls ++ [⟨req, phase⟩] := rfl
  have bare : phase.carried = none := by
    simp only [phase]
    split <;> rfl
  have older {i : Nat} {c : Call} {ref : NodeRef} {id : Option String}
      (found : (o.proxy.step (.arrive req)).1.calls[i]? = some c)
      (held : c.phase.carried = some (ref, id)) : o.proxy.calls[i]? = some c := by
    rw [calls] at found
    rcases SessionIndex.getElem?_append_singleton found with old | ⟨-, rfl⟩
    · exact old
    · rw [bare] at held
      cases held
  have unfinished : ∀ i r, .finished i r ∉ (o.proxy.step (.arrive req)).2 := by
    intro i r finished
    simp only [Proxy.step] at finished
    split at finished
    · cases List.mem_singleton.mp finished
    · cases finished
  refine h.relay (o.step (.arrive req method body)).1 []
    (o.proxy.step (.arrive req)).2 (List.append_nil _).symm (by simp) ?_ ?_ ?_ ?_ ?_ ?_
  · exact fun i c ref id found held => h.plain i c ref id (older found held) held
  · exact fun i c ref id found past held => h.sent i c ref id (older found held) past held
  · exact fun i r finished => absurd finished (unfinished i r)
  · exact fun i req' past => past.step (.arrive req)
  · rintro w hw r (old | now)
    · exact h.leads w hw r old
    · exact absurd now (unfinished _ r)
  · exact fun i r id finished => absurd finished (unfinished i r)

/-- A turn spawns a task for what it sends, and finishes what has a task. -/
theorem Linked.turn [FloatProduct] [HttpLibrary] [CaptureJson] (h : Linked o xs)
    (watches : Watches o asked seen xs) (i : Nat) (t : Turn) :
    Linked (o.step (.turn i t)).1 (xs ++ (o.step (.turn i t)).2) := by
  cases here : o.proxy.calls[i]? with
  | none =>
    have idle : o.step (.turn i t) = (o, []) := by
      simp [ObservedProxy.step, Proxy.step, ObservedProxy.spawned, here]
    rw [idle, List.append_nil]
    exact h
  | some c =>
    have taken : o.proxy.step (.turn i t) = o.proxy.turn i c t := by simp only [Proxy.step, here]
    obtain ⟨phase, carries⟩ := Proxy.carries_turn here t
    rw [← taken] at carries
    have bound := (List.getElem?_eq_some_iff.mp here).1
    have older {w : Observation} (hw : w ∈ o.given) : w ∈ (o.step (.turn i t)).1.given := by
      show w ∈ (o.tasks ++ o.spawned i t).map Observation.given
      rw [List.map_append]
      exact List.mem_append_left _ hw
    have at_ {j : Nat} {d : Call} (found : (o.proxy.step (.turn i t)).1.calls[j]? = some d) :
        (j = i ∧ d = ⟨c.req, phase⟩) ∨ o.proxy.calls[j]? = some d := by
      rw [carries.calls, List.getElem?_set] at found
      split at found
      · next ours =>
        exact .inl ⟨ours.symm, (Option.some.inj found).symm⟩
      · exact .inr found
    refine h.relay (o.step (.turn i t)).1 (o.spawned i t)
      (o.proxy.step (.turn i t)).2 rfl (fun w hw => ?_) ?_ ?_ ?_ ?_ ?_ ?_
    · obtain ⟨-, -, -, -, -, due⟩ := of_mem_spawned hw
      exact due
    · intro j d ref id found held socket
      rcases at_ found with ⟨rfl, rfl⟩ | old
      · rcases carries.carried ref id held with same | ⟨-, none_⟩
        · exact h.plain j c ref id here same socket
        · exact none_ socket
      · exact h.plain j d ref id old held socket
    · intro j d ref id found past held plain
      rcases at_ found with ⟨rfl, rfl⟩ | old
      · rcases carries.sent ref id past held with before | ⟨admitted, now, rfl⟩
        · rcases carries.carried ref id held with same | ⟨received, -⟩
          · obtain ⟨w, hw, rest⟩ := h.sent j c ref id here before same plain
            exact ⟨w, older hw, rest⟩
          · rw [received] at before
            exact before.elim
        · -- The call has just been let through, and its task spawned.
          obtain ⟨w, hw, rest⟩ := exists_spawned here admitted plain now
          exact ⟨w.given, List.mem_map_of_mem (List.mem_append_right _ hw), rest⟩
      · obtain ⟨w, hw, rest⟩ := h.sent j d ref id old past held plain
        exact ⟨w, older hw, rest⟩
    · intro j r finished
      obtain ⟨rfl, past, -⟩ := carries.finished j r finished
      exact ⟨c.req, ⟨c.req, phase⟩, by
        rw [show (o.step (.turn j t)).1.proxy = (o.proxy.step (.turn j t)).1 from rfl,
          carries.calls, List.getElem?_set_self bound], rfl, past⟩
    · exact fun j req past => past.step (.turn i t)
    · intro w hw r finished
      have split : w ∈ o.given ∨ ∃ v ∈ o.spawned i t, v.given = w := by
        change w ∈ (o.tasks ++ o.spawned i t).map Observation.given at hw
        rw [List.map_append] at hw
        exact (List.mem_append.mp hw).imp_right List.mem_map.mp
      rcases split with old | ⟨v, hv, rfl⟩
      · rcases finished with before | now
        · exact h.leads w old r before
        · obtain ⟨rfl, -, how⟩ := carries.finished _ r now
          obtain ⟨call, found, same, past⟩ := (watches.tasks w old).passed
          obtain rfl := Option.some.inj (here.symm.trans found)
          have plain : c.req.websocket = false := by
            rw [same]
            exact (watches.tasks w old).plain
          rcases how with ⟨unsent, -⟩ | ⟨ref, id, id', -, held, leads, same'⟩
          · exact absurd past unsent
          · obtain ⟨w', hw', called, rfl, rfl⟩ := h.sent _ c ref id here past held plain
            obtain rfl := watches.unique hw' old called
            rcases same' with rfl | ⟨socket, -⟩
            · exact leads
            · rw [plain] at socket
              cases socket
      · obtain ⟨now, rfl, rfl, -, found, -⟩ := of_mem_spawned hv
        obtain rfl := Option.some.inj (here.symm.trans found)
        rcases finished with before | now'
        · obtain ⟨req, call, found', -, past⟩ := h.passed _ r before
          obtain rfl := Option.some.inj (here.symm.trans found')
          exact past.elim
        · obtain ⟨-, -, ⟨-, bare, -⟩ | ⟨-, -, -, past, -⟩⟩ := carries.finished _ r now'
          · cases bare
          · exact past.elim
    · intro j r id finished captured
      obtain ⟨rfl, -, ⟨-, -, none_⟩ | ⟨ref, id₁, id', past, held, leads, same⟩⟩ :=
        carries.finished j r finished
      · rw [none_] at captured
        cases captured
      · have carried : id' = some id := leads.captureId.symm.trans captured
        rcases same with rfl | ⟨-, rfl⟩
        · have plain : c.req.websocket = false := by
            refine Bool.eq_false_of_not_eq_true fun socket => ?_
            rw [h.plain j c ref _ here held socket] at carried
            cases carried
          obtain ⟨w, hw, called, -⟩ := h.sent j c ref _ here past held plain
          exact ⟨w, older hw, called⟩
        · cases carried

omit [JsonParser] [JsonDisplay] in
/-- A task goes on to another stage. -/
theorem mem_setStage {k : Nat} {w v : Observation} {stage : Stage} (here : o.tasks[k]? = some w)
    (h : v ∈ (o.setStage k stage).tasks) :
    v = { w with stage := stage } ∨ v ∈ o.tasks := by
  obtain ⟨j, found⟩ := List.mem_iff_getElem?.mp h
  rw [getElem?_setStage here] at found
  split at found
  · exact .inl (Option.some.inj found).symm
  · exact .inr (List.mem_of_getElem? found)

/-- A task that has saved what it has to goes on, and `ys` is seen. -/
theorem Linked.stage (h : Linked o xs) {k : Nat} {w : Observation} (here : o.tasks[k]? = some w)
    (stage : Stage) (past : stage ≠ .capture) {o' : ObservedProxy} {ys : List Sight}
    (same : o'.proxy = o.proxy ∧ o'.tasks = (o.setStage k stage).tasks)
    (calm : ∀ e, Sight.relayed e ∉ ys)
    (saved : ∀ i rec, .saved i rec ∈ ys → i = w.call ∧ ∃ id now, w.captureId = some id ∧
      rec = w.capture id now)
    (drained : ∀ id, w.captureId = some id → ∃ rec, .saved w.call rec ∈ xs ++ ys)
    (once : (savedCalls (xs ++ ys)).Nodup) : Linked o' (xs ++ ys) := by
  have given : o'.given = o.given := by
    rw [← o.given_setStage k stage, ObservedProxy.given, same.2]
    rfl
  have before {e : Effect} (both : .relayed e ∈ xs ++ ys) : .relayed e ∈ xs :=
    (List.mem_append.mp both).resolve_right (calm e)
  have moved {v : Observation} (hv : v ∈ o.tasks) (done : v.stage ≠ .capture) :
      ∃ v' ∈ o'.tasks, v'.call = v.call ∧ v'.stage ≠ .capture ∧ v'.captureId = v.captureId ∧
        ∀ id now, v'.capture id now = v.capture id now := by
    obtain ⟨j, found⟩ := List.mem_iff_getElem?.mp hv
    have there := getElem?_setStage here stage j
    by_cases ours : j = k
    · subst ours
      obtain rfl := Option.some.inj (found.symm.trans here)
      rw [if_pos rfl] at there
      exact ⟨{ v with stage := stage }, same.2 ▸ List.mem_of_getElem? there, rfl, past, rfl,
        fun _ _ => rfl⟩
    · rw [if_neg ours, found] at there
      exact ⟨v, same.2 ▸ List.mem_of_getElem? there, rfl, done, rfl, fun _ _ => rfl⟩
  refine ⟨?_, ?_, ?_, ?_, ?_, ?_, ?_, once⟩
  · rw [same.1]
    exact h.plain
  · rw [same.1, given]
    exact h.sent
  · rw [same.1]
    exact fun i r finished => h.passed i r (before finished)
  · rw [given]
    exact fun v hv r finished => h.leads v hv r (before finished)
  · rw [given]
    exact fun i r id finished => h.spawned i r id (before finished)
  · intro i rec both
    rcases List.mem_append.mp both with old | new
    · obtain ⟨v, hv, rfl, done, id, now, captured, rfl⟩ := h.saved i rec old
      obtain ⟨v', hv', called, done', id', made⟩ := moved hv done
      exact ⟨v', hv', called, done', id, now, id'.trans captured, (made id now).symm⟩
    · obtain ⟨rfl, id, now, captured, rfl⟩ := saved i rec new
      have there := getElem?_setStage here stage k
      rw [if_pos rfl] at there
      exact ⟨{ w with stage := stage }, same.2 ▸ List.mem_of_getElem? there, rfl, past, id, now,
        captured, rfl⟩
  · intro v hv done id captured
    rw [same.2] at hv
    rcases mem_setStage here hv with rfl | old
    · exact drained id captured
    · obtain ⟨rec, found⟩ := h.drained v old done id captured
      exact ⟨rec, List.mem_append_left _ found⟩

/-- A task runs on. -/
theorem Linked.task [CaptureJson] (h : Linked o xs) (watches : Watches o asked seen xs) {k : Nat}
    {w : Observation} (here : o.tasks[k]? = some w) (now : UInt64) :
    Linked (o.runTask k w now).1 (xs ++ (o.runTask k w now).2) := by
  have mine := List.mem_of_getElem? here
  unfold runTask
  cases due : w.stage with
  | capture =>
    cases captured : w.captureId with
    | some id =>
      -- The task has not saved yet, and no other one saves for its call.
      have unsaved : w.call ∉ savedCalls xs := by
        intro saved
        obtain ⟨rec, saved⟩ := mem_savedCalls.mp saved
        obtain ⟨v, hv, called, done, -⟩ := h.saved _ rec saved
        obtain rfl := watches.unique_task hv mine called
        exact done due
      refine h.stage here .compare (by simp) ⟨rfl, rfl⟩ (by simp) ?_ ?_ ?_
      · intro i rec saved
        obtain ⟨rfl, rfl⟩ := Sight.saved.inj (List.mem_singleton.mp saved)
        exact ⟨rfl, id, now, captured, rfl⟩
      · exact fun _ _ => ⟨_, List.mem_append_right _ (List.mem_singleton.mpr rfl)⟩
      · rw [savedCalls_append]
        have one : savedCalls [.saved w.call (w.capture id now)] = [w.call] := rfl
        rw [one]
        exact List.Nodup.append h.once (List.nodup_singleton _) (by simpa using unsaved)
    | none =>
      refine h.stage here .compare (by simp) ⟨rfl, rfl⟩ (by simp) (by simp) ?_ ?_
      · intro id some_
        rw [captured] at some_
        cases some_
      · simpa using h.once
  | compare =>
    refine h.stage here (.note _) (by simp) ⟨rfl, rfl⟩ (by simp) (by simp) ?_ ?_
    · intro id captured
      obtain ⟨rec, saved⟩ := h.drained w mine (by simp [due]) id captured
      exact ⟨rec, List.mem_append_left _ saved⟩
    · rw [savedCalls_append]
      simpa [savedCalls] using h.once
  | note cmp =>
    refine h.stage here .done (by simp) ⟨rfl, rfl⟩ (by simp) (by simp) ?_ ?_
    · intro id captured
      obtain ⟨rec, saved⟩ := h.drained w mine (by simp [due]) id captured
      exact ⟨rec, List.mem_append_left _ saved⟩
    · rw [savedCalls_append]
      simpa [savedCalls] using h.once
  | done =>
    rw [List.append_nil]
    exact h

end Kept

section Run

variable [JsonParser] [JsonDisplay] [CaptureJson] [FloatProduct] [HttpLibrary]

theorem linked_run (cfg : Proxy.Config) (es : List ObserveEvent) :
    Linked (Runs.final step (start cfg) es) (sights cfg es) := by
  suffices both : (∃ asked seen, Watches (Runs.final step (start cfg) es) asked seen
      (sights cfg es)) ∧ Linked (Runs.final step (start cfg) es) (sights cfg es) from both.2
  refine sights_invariant (J := fun o xs => (∃ asked seen, Watches o asked seen xs) ∧ Linked o xs)
    cfg ?_ ?_ es
  · rintro o xs e ⟨⟨asked, seen, watches⟩, h⟩
    refine ⟨watches.step e, ?_⟩
    cases e with
    | arrive req method body => exact h.arrive req method body
    | turn i t => exact h.turn watches i t
    | task k now =>
      simp only [ObservedProxy.step]
      cases here : o.tasks[k]? with
      | none =>
        rw [List.append_nil]
        exact h
      | some w => exact h.task watches here now
  · refine ⟨watches_run cfg [], ?_⟩
    have none_ : ∀ (i : Nat) (call : Call), (start cfg).proxy.calls[i]? ≠ some call := by
      intro i call found
      rw [show (start cfg).proxy.calls = [] from (Proxy.start_ident cfg).2] at found
      cases found
    exact ⟨fun i c ref id found => absurd found (none_ i c),
      fun i c ref id found => absurd found (none_ i c), by simp, by simp, by simp, by simp,
      by simp [start], List.nodup_nil⟩

/-- A record and a capture of the same call carry the same id and the same identity. A record that
carries an id leads to a capture, once the task of its call has saved it, and no call is saved
twice. -/
theorem records_lead (cfg : Proxy.Config) (es : List ObserveEvent) :
    (∀ i r rec, .relayed (.finished i r) ∈ sights cfg es → .saved i rec ∈ sights cfg es →
        r.captureId = some rec.captureId ∧ r.taskId = rec.taskId ∧ r.node = rec.node ∧
          r.parent = rec.parent) ∧
      (∀ i r id, .relayed (.finished i r) ∈ sights cfg es → r.captureId = some id →
        ∃ w ∈ (Runs.final step (start cfg) es).tasks, w.call = i ∧
          (w.stage ≠ .capture → ∃ rec, .saved i rec ∈ sights cfg es ∧ rec.captureId = id)) ∧
      (savedCalls (sights cfg es)).Nodup := by
  obtain ⟨asked, seen, watches⟩ := watches_run cfg es
  have h := linked_run cfg es
  have together : ∀ i r rec, .relayed (.finished i r) ∈ sights cfg es →
      .saved i rec ∈ sights cfg es → r.captureId = some rec.captureId ∧ r.taskId = rec.taskId ∧
        r.node = rec.node ∧ r.parent = rec.parent := by
    intro i r rec finished saved
    obtain ⟨w, hw, rfl, -, id, now, captured, rfl⟩ := h.saved i rec saved
    have leads := h.leads w.given (List.mem_map_of_mem hw) r finished
    exact ⟨leads.captureId.trans captured, leads.root, leads.node, leads.parent⟩
  refine ⟨together, ?_, h.once⟩
  intro i r id finished captured
  obtain ⟨v, hv, rfl⟩ := h.spawned i r id finished captured
  obtain ⟨w, hw, rfl⟩ := List.mem_map.mp hv
  refine ⟨w, hw, rfl, fun done => ?_⟩
  have leads := h.leads w.given hv r finished
  obtain ⟨rec, saved⟩ := h.drained w hw done id (leads.captureId.symm.trans captured)
  refine ⟨rec, saved, ?_⟩
  have same := (together _ r rec finished saved).1
  exact Option.some.inj (same.symm.trans captured)

end Run

end ObservedProxy

end Tailfin
