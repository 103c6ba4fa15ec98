import Mathlib.Data.List.DropRight
import Tailfin.Proxy.Canonical
import Tailfin.Proxy.Captures
import Tailfin.Proxy.Lifetimes

/-!
# Observed requests

`observe_request` of `tailfin-proxy`. A plain request that is let through spawns a task, which saves
a capture of the request, resolves it with an index of its own, the shadow, and notes whether both
indices agree. Nothing waits for the task: it takes one lock after the other while calls are
relayed and other tasks take theirs. Saves succeed.
-/

namespace Tailfin

open Text

/-! ## What a task does -/

/-- `Value::to_string`. -/
class JsonDisplay where
  toString : Json → List Char

/-- The model, the number of messages, and the number of tools and of messages that use them. -/
def bodyMeta [JsonParser] [JsonDisplay] (body : List Char) : Option String × UInt32 × UInt32 :=
  let v := (JsonParser.fromStr body).getD .null
  let model := ((v.get "model").bind Json.asStr).map String.ofList
  let msgs := (v.get "messages").bind Json.asArray
  let messageCount := (msgs.map fun a => UInt32.ofNat a.length).getD 0
  let tools := (((v.get "tools").bind Json.asArray).map fun a => UInt32.ofNat a.length).getD 0
  let toolCalls := (msgs.getD []).foldl (fun n m =>
    let s := JsonDisplay.toString m
    if contains "tool_use".toList s || contains "tool_result".toList s then n + 1 else n) tools
  (model, messageCount, toolCalls)

def captureSchema : UInt32 := 1

def IdentitySource.isDeclared : IdentitySource → Bool
  | .declared .. => true
  | _ => false

/-- One shadow-mode digest observation. -/
structure ShadowCmp where
  liveRoot : String
  shadowRoot : String
  declared : Bool
  hadDigest : Bool
  deriving DecidableEq, Repr

/-- What a spawned task does next. -/
inductive Stage where
  | capture
  | compare
  | note (cmp : ShadowCmp)
  | done
  deriving DecidableEq, Repr

/-- A spawned task, with what it was given. An id is made only where there is a store. -/
structure Observation where
  call : Nat
  req : Request
  live : NodeRef
  method : String
  body : List UInt8
  captureId : Option String
  stage : Stage

/-- What is saved at the time `now`. -/
def Observation.capture [JsonParser] [JsonDisplay] (w : Observation) (id : String) (now : UInt64) :
    CaptureRecord :=
  let body := Utf8.lossy w.body
  let facts := bodyMeta body
  { schemaVersion := captureSchema
    captureId := id
    taskId := w.live.root
    node := w.live.node
    parent := w.live.parent
    tsUnixMs := now
    method := w.method
    path := String.ofList w.req.uri.path
    model := facts.1
    messageCount := facts.2.1
    toolCalls := facts.2.2
    body := String.ofList body }

/-- Only the last 64 notes are kept. -/
def pushNote (notes : List ShadowCmp) (cmp : ShadowCmp) : List ShadowCmp :=
  let notes := notes ++ [cmp]
  notes.drop (notes.length - 64)

/-! ## The proxy and its tasks -/

structure ObservedProxy where
  proxy : Proxy
  /-- The method and the body of each call. -/
  texts : List (String × List UInt8)
  shadow : SessionIndex
  notes : List ShadowCmp
  store : CaptureDir
  tasks : List Observation

inductive ObserveEvent where
  | arrive (req : Request) (method : String) (body : List UInt8)
  | turn (i : Nat) (t : Turn)
  /-- The `k`-th task runs on to its next lock. -/
  | task (k : Nat) (now : UInt64)

inductive Sight where
  | relayed (e : Effect)
  | saved (i : Nat) (record : CaptureRecord)
  | compared (i : Nat) (cmp : ShadowCmp)
  | noted (cmp : ShadowCmp)
  deriving DecidableEq, Repr

namespace ObservedProxy

def start (cfg : Proxy.Config) : ObservedProxy where
  proxy := cfg.start
  texts := []
  shadow := .new
  notes := []
  store := ∅
  tasks := []

def setStage (o : ObservedProxy) (k : Nat) (stage : Stage) : ObservedProxy :=
  { o with tasks := o.tasks.modify k fun w => { w with stage := stage } }

/-- The task that a turn spawns: a plain request has been let through. -/
def spawned (o : ObservedProxy) (i : Nat) (t : Turn) : List Observation :=
  match o.proxy.calls[i]?, t with
  | some ⟨req, .admitted ref captureId⟩, .go _ =>
    let text := o.texts.getD i ("", [])
    if req.websocket then [] else [⟨i, req, ref, text.1, text.2, captureId, .capture⟩]
  | _, _ => []

section Step

variable [JsonParser] [JsonDisplay] [CaptureJson]

/-- The task `w`, which is the `k`-th one, runs on. -/
def runTask (o : ObservedProxy) (k : Nat) (w : Observation) (now : UInt64) :
    ObservedProxy × List Sight :=
  match w.stage with
  | .capture =>
    match w.captureId with
    | some id =>
      ({ o with store := CaptureStore.save o.store (w.capture id now) }.setStage k .compare,
        [.saved w.call (w.capture id now)])
    | none => (o.setStage k .compare, [])
  | .compare =>
    let resolved := o.shadow.resolve w.req.headers w.req.digest
    let cmp : ShadowCmp :=
      ⟨w.live.root, resolved.1.root, w.live.source.isDeclared, w.req.digest.isSome⟩
    ({ o with shadow := resolved.2 }.setStage k (.note cmp), [.compared w.call cmp])
  | .note cmp => ({ o with notes := pushNote o.notes cmp }.setStage k .done, [.noted cmp])
  | .done => (o, [])

variable [FloatProduct] [HttpLibrary]

def step (o : ObservedProxy) : ObserveEvent → ObservedProxy × List Sight
  | .arrive req method body =>
    ({ o with proxy := (o.proxy.step (.arrive req)).1, texts := o.texts ++ [(method, body)] },
      (o.proxy.step (.arrive req)).2.map .relayed)
  | .turn i t =>
    ({ o with proxy := (o.proxy.step (.turn i t)).1, tasks := o.tasks ++ o.spawned i t },
      (o.proxy.step (.turn i t)).2.map .relayed)
  | .task k now =>
    match o.tasks[k]? with
    | some w => o.runTask k w now
    | none => (o, [])

/-- What a run shows, in order. -/
def sights (cfg : Proxy.Config) (es : List ObserveEvent) : List Sight :=
  (Runs.trace step (start cfg) es).flatMap Runs.Entry.output

end Step

end ObservedProxy

/-! ## The phases of an observed call -/

/-- The call is past the point where it is observed. -/
def Phase.Past : Phase → Prop
  | .sending _ _ | .metering _ _ | .abandoned _ | .ended => True
  | _ => False

theorem ResolveCall.isDeclared_step (s : SessionIndex) (c : ResolveCall) :
    (s.step c).2.source.isDeclared = (fromHeaders c.headers).isSome := by
  rcases SessionIndex.fromHeaders_cases c.headers with free | ⟨session, node, parent, declared⟩
  · simp only [SessionIndex.step, SessionIndex.resolve, free]
    cases c.digest with
    | none => rfl
    | some d =>
      simp only
      split <;> rfl
  · simp only [SessionIndex.step, SessionIndex.resolve, declared]
    rfl

namespace Proxy

variable {p : Proxy} {i : Nat} {c : Call}

/-- Every call knows whether its request declared itself. -/
def KnowsDeclared (p : Proxy) : Prop := ∀ (i : Nat) (c : Call) (ref : NodeRef),
  p.calls[i]? = some c → c.phase.ref = some ref →
    ref.source.isDeclared = (fromHeaders c.req.headers).isSome

theorem KnowsDeclared.passage {p' : Proxy} {fx : List Effect}
    {more : Option (Nat × ResolveCall)} (h : p.KnowsDeclared) (passage : Passage p p' fx more) :
    p'.KnowsDeclared := by
  have moved {i : Nat} {c : Call} {phase : Phase} (calls : p'.calls = p.calls.set i ⟨c.req, phase⟩)
      (here : ∀ ref, phase.ref = some ref →
        ref.source.isDeclared = (fromHeaders c.req.headers).isSome) : p'.KnowsDeclared := by
    intro j d ref found holds
    rw [calls, List.getElem?_set] at found
    split at found
    · split at found
      · obtain rfl := Option.some.inj found
        exact here ref holds
      · cases found
    · exact h j d ref found holds
  cases passage with
  | still same => exact same ▸ h
  | arrived c _ calls bare =>
    intro j d ref found holds
    rw [calls] at found
    rcases SessionIndex.getElem?_append_singleton found with old | ⟨-, rfl⟩
    · exact h j d ref old holds
    · rw [bare] at holds
      cases holds
  | resolved i c captureId here _ _ calls _ =>
    refine moved calls fun ref holds => ?_
    obtain rfl := Option.some.inj holds
    exact ResolveCall.isDeclared_step p.ident c.req.asked
  | moved i c phase here _ calls goes _ =>
    exact moved calls fun ref holds => h i c ref here (goes.ref_eq holds)

variable [FloatProduct] [HttpLibrary]

/-- A turn leaves the other calls alone. A call that is past its observation stays so, and one that
is observed is past it. -/
theorem past_turn (here : p.calls[i]? = some c) (t : Turn) :
    ∃ phase, (p.turn i c t).1.calls = p.calls.set i ⟨c.req, phase⟩ ∧ (c.phase.Past → phase.Past) ∧
      ∀ ref captureId now, c.phase = .admitted ref captureId → t = .go now → phase.Past := by
  have out := p.turn_outcome i c t
  generalize made : p.turn i c t = result at out
  have set {q : Proxy} (same : q.calls = p.calls) (phase : Phase) :
      (q.setPhase i phase).calls = p.calls.set i ⟨c.req, phase⟩ := by
    rw [← same] at here ⊢
    exact calls_setPhase here phase
  have ends {q : Proxy} (same : q.calls = p.calls) {phase : Phase} (past : phase.Past) :
      ∃ phase', (q.setPhase i phase).calls = p.calls.set i ⟨c.req, phase'⟩ ∧
        (c.phase.Past → phase'.Past) ∧
        ∀ ref captureId now, c.phase = .admitted ref captureId → t = .go now → phase'.Past :=
    ⟨phase, set same phase, fun _ => past, fun _ _ _ _ _ => past⟩
  have earlier {q : Proxy} (same : q.calls = p.calls) {phase : Phase} (before : ¬ c.phase.Past)
      (other : ∀ ref captureId, c.phase ≠ .admitted ref captureId) :
      ∃ phase', (q.setPhase i phase).calls = p.calls.set i ⟨c.req, phase'⟩ ∧
        (c.phase.Past → phase'.Past) ∧
        ∀ ref captureId now, c.phase = .admitted ref captureId → t = .go now → phase'.Past :=
    ⟨phase, set same phase, fun past => absurd past before,
      fun ref captureId _ at_ _ => absurd at_ (other ref captureId)⟩
  cases out with
  | idle =>
    refine ⟨c.phase, ?_, id, ?_⟩
    · obtain ⟨bound, there⟩ := List.getElem?_eq_some_iff.mp here
      rw [← there, List.set_getElem_self]
    · rintro ref captureId now at_ rfl
      simp only [turn, at_, send] at made
      split at made <;> cases congrArg (List.length ∘ Prod.snd) made
  | identified now at_ => exact earlier rfl (by simp [at_, Phase.Past]) (by simp [at_])
  | unreadable | unheard | stopped | metered | downgraded | cancelled => exact ends rfl trivial
  | begun ref captureId now at_ => exact earlier rfl (by simp [at_, Phase.Past]) (by simp [at_])
  | stopping ref now at_ => exact earlier rfl (by simp [at_, Phase.Past]) (by simp [at_])
  | sent =>
    unfold send
    split <;> exact ends rfl trivial
  | answered =>
    unfold upstreamAnswered
    split <;> exact ends rfl trivial
  | failed =>
    unfold upstreamFailed
    split <;> exact ends rfl trivial

/-- Call `i` brought the request, and is past its observation. -/
def Passed (p : Proxy) (i : Nat) (req : Request) : Prop :=
  ∃ call, p.calls[i]? = some call ∧ call.req = req ∧ call.phase.Past

theorem Passed.step {req : Request} (h : p.Passed i req) (e : RelayEvent) :
    (p.step e).1.Passed i req := by
  obtain ⟨call, found, same, past⟩ := h
  cases e with
  | arrive req' =>
    obtain ⟨bound, -⟩ := List.getElem?_eq_some_iff.mp found
    exact ⟨call, by simp only [Proxy.step, List.getElem?_append_left bound, found], same, past⟩
  | turn j t =>
    simp only [Proxy.step]
    cases here : p.calls[j]? with
    | none => exact ⟨call, found, same, past⟩
    | some d =>
      obtain ⟨phase, calls, stays, -⟩ := past_turn here t
      obtain ⟨bound, -⟩ := List.getElem?_eq_some_iff.mp here
      by_cases ours : j = i
      · subst ours
        obtain rfl := Option.some.inj (here.symm.trans found)
        exact ⟨⟨d.req, phase⟩, by rw [calls, List.getElem?_set_self bound], same, stays past⟩
      · exact ⟨call, by rw [calls, List.getElem?_set_ne ours, found], same, past⟩

end Proxy

/-! ## What holds of the tasks -/

namespace Observation

/-- The task, but for what it does next. -/
def given (w : Observation) : Observation := { w with stage := .done }

/-- The task has been given what the call it is about was resolved to. -/
structure Backed (p : Proxy) (asked : List (Nat × ResolveCall)) (w : Observation) : Prop where
  passed : p.Passed w.call w.req
  plain : w.req.websocket = false
  named : Proxy.Named asked w.call w.live.root
  declared : w.live.source.isDeclared = (fromHeaders w.req.headers).isSome

theorem Backed.step [FloatProduct] [HttpLibrary] {p : Proxy} {asked : List (Nat × ResolveCall)}
    {w : Observation} (h : w.Backed p asked) (e : RelayEvent) :
    w.Backed (p.step e).1 (asked ++ (p.resolves e).toList) :=
  ⟨h.passed.step e, h.plain, h.named.append _, h.declared⟩

end Observation

/-- The task has not looked at the shadow yet. -/
def Stage.Early : Stage → Prop
  | .capture | .compare => True
  | _ => False

/-- What a task has still to note. -/
def Stage.pending : Stage → Option ShadowCmp
  | .note cmp => some cmp
  | _ => none

/-- The effects of the relay among what is seen. -/
def effectsIn (xs : List Sight) : List Effect :=
  xs.filterMap fun
    | .relayed e => some e
    | _ => none

theorem effectsIn_append (xs ys : List Sight) : effectsIn (xs ++ ys) = effectsIn xs ++ effectsIn ys := by
  rw [effectsIn, List.filterMap_append]
  rfl

theorem effectsIn_relayed (fx : List Effect) : effectsIn (fx.map .relayed) = fx := by
  rw [effectsIn, List.filterMap_map]
  exact List.filterMap_some

namespace ObservedProxy

def given (o : ObservedProxy) : List Observation := o.tasks.map Observation.given

@[simp] theorem given_setStage (o : ObservedProxy) (k : Nat) (stage : Stage) :
    (o.setStage k stage).given = o.given := by
  refine List.ext_getElem? fun j => ?_
  simp only [given, setStage, List.getElem?_map, List.getElem?_modify]
  cases o.tasks[j]? with
  | none => rfl
  | some w =>
    show some (if k = j then _ else w).given = some w.given
    split <;> rfl

/-- A spawned task is about a plain request that was let through. -/
theorem of_mem_spawned {o : ObservedProxy} {i : Nat} {t : Turn} {w : Observation}
    (h : w ∈ o.spawned i t) : ∃ now, t = .go now ∧ w.call = i ∧ w.req.websocket = false ∧
      o.proxy.calls[i]? = some ⟨w.req, .admitted w.live w.captureId⟩ ∧ w.stage = .capture := by
  unfold spawned at h
  split at h
  · next req ref captureId now found =>
    split at h
    · cases h
    · next plain =>
      rw [List.mem_singleton.mp h]
      exact ⟨now, rfl, rfl, Bool.eq_false_of_not_eq_true plain, found, rfl⟩
  · cases h

theorem nodup_spawned (o : ObservedProxy) (i : Nat) (t : Turn) :
    ((o.spawned i t).map Observation.call).Nodup := by
  unfold spawned
  split
  · split <;> simp
  · exact List.nodup_nil

theorem getElem?_setStage {o : ObservedProxy} {k : Nat} {w : Observation}
    (here : o.tasks[k]? = some w) (stage : Stage) (j : Nat) :
    (o.setStage k stage).tasks[j]? =
      if j = k then some { w with stage := stage } else o.tasks[j]? := by
  simp only [setStage, List.getElem?_modify]
  by_cases same : j = k
  · subst same
    simp [here]
  · simp [same, Ne.symm same]

/-- What holds of the proxy, its index, the shadow and the tasks, where the index was asked for
`asked`, the shadow for `seen`, and `xs` has been seen. -/
structure Watches (o : ObservedProxy) (asked seen : List (Nat × ResolveCall)) (xs : List Sight) :
    Prop where
  attributed : o.proxy.Attributed asked (effectsIn xs)
  knows : o.proxy.KnowsDeclared
  shadow : o.shadow = SessionIndex.behind (seen.map Prod.snd)
  once : (seen.map Prod.fst).Nodup
  apart : (o.given.map Observation.call).Nodup
  tasks : ∀ w ∈ o.given, w.Backed o.proxy asked
  early : ∀ (k : Nat) (w : Observation), o.tasks[k]? = some w → w.stage.Early →
    w.call ∉ seen.map Prod.fst
  sources : ∀ i c, (i, c) ∈ seen → ∃ w ∈ o.given, w.call = i ∧ w.req.asked = c
  compared : ∀ i cmp, .compared i cmp ∈ xs → ∃ w ∈ o.given, w.call = i ∧
    cmp.liveRoot = w.live.root ∧ cmp.declared = w.live.source.isDeclared ∧
    Proxy.Named seen i cmp.shadowRoot

section Kept

variable [JsonParser] [JsonDisplay] [CaptureJson] [FloatProduct] [HttpLibrary]
  {o : ObservedProxy} {asked seen : List (Nat × ResolveCall)} {xs : List Sight}
  (h : Watches o asked seen xs)
include h

omit [JsonParser] [JsonDisplay] [CaptureJson] in
/-- The relay goes on, and spawns tasks for calls that have none yet. -/
theorem Watches.relay (e : RelayEvent) {o' : ObservedProxy} (new : List Observation)
    (proxy : o'.proxy = (o.proxy.step e).1) (shadow : o'.shadow = o.shadow)
    (tasks : o'.tasks = o.tasks ++ new)
    (backed : ∀ w ∈ new, w.given.Backed (o.proxy.step e).1 (asked ++ (o.proxy.resolves e).toList))
    (single : (new.map Observation.call).Nodup)
    (fresh : ∀ w ∈ new, ∀ req, ¬ o.proxy.Passed w.call req) :
    Watches o' (asked ++ (o.proxy.resolves e).toList) seen
      (xs ++ (o.proxy.step e).2.map .relayed) := by
  have grown : o'.given = o.given ++ new.map Observation.given := by
    rw [given, tasks, List.map_append]
    rfl
  have kept : ∀ w ∈ o.given, w ∈ o'.given := fun w hw => grown ▸ List.mem_append_left _ hw
  have unknown : ∀ w ∈ new, w.call ∉ o.given.map Observation.call := by
    intro w hw known
    obtain ⟨v, hv, same⟩ := List.mem_map.mp known
    exact fresh w hw v.req (same ▸ (h.tasks v hv).passed)
  have shown : ∀ i cmp, Sight.compared i cmp ∈ xs ++ (o.proxy.step e).2.map .relayed →
      Sight.compared i cmp ∈ xs := by
    intro i cmp both
    rcases List.mem_append.mp both with old | relayed
    · exact old
    · obtain ⟨x, -, no⟩ := List.mem_map.mp relayed
      cases no
  refine ⟨?_, ?_, shadow.trans h.shadow, h.once, ?_, ?_, ?_, ?_, ?_⟩
  · rw [proxy, effectsIn_append, effectsIn_relayed]
    exact Proxy.attributed_passage h.attributed (o.proxy.passage_step e)
  · rw [proxy]
    exact h.knows.passage (o.proxy.passage_step e)
  · rw [grown, List.map_append, List.nodup_append, List.map_map]
    refine ⟨h.apart, single, fun i hi j hj same => ?_⟩
    obtain ⟨w, hw, rfl⟩ := List.mem_map.mp hj
    have known : w.call ∈ o.given.map Observation.call := by
      rwa [← show i = w.call from same]
    exact unknown w hw known
  · rw [grown, proxy]
    intro w hw
    rcases List.mem_append.mp hw with old | added
    · exact (h.tasks w old).step e
    · obtain ⟨v, hv, rfl⟩ := List.mem_map.mp added
      exact backed v hv
  · intro k w found early known
    rw [tasks] at found
    by_cases old : k < o.tasks.length
    · rw [List.getElem?_append_left old] at found
      exact h.early k w found early known
    · rw [List.getElem?_append_right (Nat.le_of_not_lt old)] at found
      obtain ⟨⟨i, c⟩, hc, same⟩ := List.mem_map.mp known
      obtain ⟨v, hv, called, -⟩ := h.sources i c hc
      exact unknown w (List.mem_of_getElem? found)
        (List.mem_map.mpr ⟨v, hv, called.trans same⟩)
  · intro i c hc
    obtain ⟨w, hw, rest⟩ := h.sources i c hc
    exact ⟨w, kept w hw, rest⟩
  · intro i cmp both
    obtain ⟨w, hw, rest⟩ := h.compared i cmp (shown i cmp both)
    exact ⟨w, kept w hw, rest⟩

omit [JsonParser] [JsonDisplay] [CaptureJson] [FloatProduct] [HttpLibrary] in
/-- A task goes on to a stage without having looked at the shadow. -/
theorem Watches.stage {k : Nat} {w : Observation} (here : o.tasks[k]? = some w) (stage : Stage)
    (early : stage.Early → w.stage.Early) {o' : ObservedProxy} {ys : List Sight}
    (same : o'.proxy = o.proxy ∧ o'.shadow = o.shadow ∧ o'.tasks = (o.setStage k stage).tasks)
    (calm : effectsIn ys = []) (silent : ∀ i cmp, Sight.compared i cmp ∉ ys) :
    Watches o' asked seen (xs ++ ys) := by
  have given : o'.given = o.given := by
    rw [← o.given_setStage k stage, ObservedProxy.given, same.2.2]
    rfl
  refine ⟨?_, ?_, same.2.1.trans h.shadow, h.once, ?_, ?_, ?_, ?_, ?_⟩
  · rw [same.1, effectsIn_append, calm, List.append_nil]
    exact h.attributed
  · rw [same.1]
    exact h.knows
  · rw [given]
    exact h.apart
  · rw [given, same.1]
    exact h.tasks
  · intro j v found early'
    rw [same.2.2, getElem?_setStage here] at found
    split at found
    · obtain rfl := Option.some.inj found
      exact h.early k w here (early early')
    · exact h.early j v found early'
  · rw [given]
    exact h.sources
  · rw [given]
    intro i cmp both
    rcases List.mem_append.mp both with old | new
    · exact h.compared i cmp old
    · exact absurd new (silent i cmp)

omit [JsonParser] [JsonDisplay] [CaptureJson] [FloatProduct] [HttpLibrary] in
/-- A task looks at the shadow. -/
theorem Watches.compare {k : Nat} {w : Observation} (here : o.tasks[k]? = some w)
    (due : w.stage = .compare) {o' : ObservedProxy} {cmp : ShadowCmp}
    (proxy : o'.proxy = o.proxy) (shadow : o'.shadow = (o.shadow.step w.req.asked).1)
    (tasks : o'.tasks = (o.setStage k (.note cmp)).tasks) (live : cmp.liveRoot = w.live.root)
    (root : cmp.shadowRoot = (o.shadow.step w.req.asked).2.root)
    (declared : cmp.declared = w.live.source.isDeclared) :
    Watches o' asked (seen ++ [(w.call, w.req.asked)]) (xs ++ [.compared w.call cmp]) := by
  have given : o'.given = o.given := by
    rw [← o.given_setStage k (.note cmp), ObservedProxy.given, tasks]
    rfl
  have mine : w.given ∈ o.given := List.mem_map_of_mem (List.mem_of_getElem? here)
  have new : w.call ∉ seen.map Prod.fst := h.early k w here (due ▸ trivial)
  have named : Proxy.Named (seen ++ [(w.call, w.req.asked)]) w.call cmp.shadowRoot := by
    refine ⟨seen.length, w.req.asked, List.getElem?_concat_length, ?_⟩
    have last := SessionIndex.rootAt_last (seen.map Prod.snd) w.req.asked
    rw [List.length_map, ← h.shadow, ← root] at last
    rw [List.map_append]
    exact last
  refine ⟨?_, ?_, ?_, ?_, ?_, ?_, ?_, ?_, ?_⟩
  · rw [proxy, effectsIn_append]
    exact (List.append_nil (effectsIn xs)).symm ▸ h.attributed
  · rw [proxy]
    exact h.knows
  · rw [shadow, h.shadow, List.map_append]
    exact (SessionIndex.behind_append _ _).symm
  · rw [List.map_append, List.nodup_append]
    refine ⟨h.once, List.nodup_singleton _, fun i hi j hj same => ?_⟩
    obtain rfl := List.mem_singleton.mp hj
    exact new (by rwa [← show i = w.call from same])
  · rw [given]
    exact h.apart
  · rw [given, proxy]
    exact h.tasks
  · intro j v found early known
    rw [tasks, getElem?_setStage here] at found
    split at found
    · obtain rfl := Option.some.inj found
      exact early.elim
    · next other =>
      rw [List.map_append] at known
      rcases List.mem_append.mp known with old | last
      · exact h.early j v found early old
      · -- Two tasks are about two calls.
        have called : v.call = w.call := List.mem_singleton.mp last
        have first : (o.given.map Observation.call)[j]? = some w.call := by
          rw [ObservedProxy.given, List.map_map, List.getElem?_map, found, ← called]
          rfl
        have second : (o.given.map Observation.call)[k]? = some w.call := by
          rw [ObservedProxy.given, List.map_map, List.getElem?_map, here]
          rfl
        obtain ⟨bound, -⟩ := List.getElem?_eq_some_iff.mp first
        exact other ((List.getElem?_inj bound h.apart).mp (first.trans second.symm))
  · rw [given]
    intro i c known
    rcases List.mem_append.mp known with old | last
    · exact h.sources i c old
    · obtain ⟨rfl, rfl⟩ := Prod.mk.inj (List.mem_singleton.mp last)
      exact ⟨w.given, mine, rfl, rfl⟩
  · rw [given]
    intro i cmp' both
    rcases List.mem_append.mp both with old | last
    · obtain ⟨v, hv, called, root', declared', named'⟩ := h.compared i cmp' old
      exact ⟨v, hv, called, root', declared', named'.append _⟩
    · obtain ⟨rfl, rfl⟩ := Sight.compared.inj (List.mem_singleton.mp last)
      exact ⟨w.given, mine, rfl, live, declared, named⟩

omit [FloatProduct] [HttpLibrary] in
/-- A task runs on. -/
theorem Watches.task {k : Nat} {w : Observation} (here : o.tasks[k]? = some w) (now : UInt64) :
    ∃ more, Watches (o.runTask k w now).1 asked (seen ++ more) (xs ++ (o.runTask k w now).2) := by
  unfold runTask
  cases due : w.stage with
  | capture =>
    have early : Stage.Early .compare → w.stage.Early := fun _ => due ▸ trivial
    refine ⟨[], ?_⟩
    rw [List.append_nil]
    cases w.captureId with
    | some id => exact h.stage here .compare early ⟨rfl, rfl, rfl⟩ rfl (by simp)
    | none => exact h.stage here .compare early ⟨rfl, rfl, rfl⟩ rfl (by simp)
  | compare =>
    have plain : w.req.websocket = false :=
      (h.tasks w.given (List.mem_map_of_mem (List.mem_of_getElem? here))).plain
    have asks : o.shadow.step w.req.asked = ((o.shadow.resolve w.req.headers w.req.digest).2,
        (o.shadow.resolve w.req.headers w.req.digest).1) := by
      rw [SessionIndex.step, Request.asked_digest, if_neg (by simp [plain])]
      rfl
    refine ⟨[(w.call, w.req.asked)], h.compare here due rfl ?_ rfl rfl ?_ rfl⟩
    · rw [asks]
      rfl
    · rw [asks]
  | note cmp =>
    refine ⟨[], ?_⟩
    rw [List.append_nil]
    exact h.stage here .done False.elim ⟨rfl, rfl, rfl⟩ rfl (by simp)
  | done =>
    refine ⟨[], ?_⟩
    simpa using h

/-- A turn spawns a task for its call if it lets a plain request through. -/
theorem Watches.turn (i : Nat) (t : Turn) :
    Watches (o.step (.turn i t)).1 (asked ++ (o.proxy.resolves (.turn i t)).toList) seen
      (xs ++ (o.step (.turn i t)).2) := by
  refine h.relay (.turn i t) (o.spawned i t) rfl rfl rfl ?_ ?_ ?_
  · intro w hw
    obtain ⟨now, rfl, rfl, plain, found, -⟩ := of_mem_spawned hw
    obtain ⟨phase, calls, -, sent⟩ := Proxy.past_turn found (.go now)
    obtain ⟨bound, -⟩ := List.getElem?_eq_some_iff.mp found
    have taken : (o.proxy.step (.turn w.call (.go now))).1.calls[w.call]? =
        some ⟨w.req, phase⟩ := by
      simp only [Proxy.step, found, calls, List.getElem?_set_self bound]
    refine ⟨⟨⟨w.req, phase⟩, taken, rfl, sent _ _ now rfl rfl⟩, plain, ?_, ?_⟩
    · exact (h.attributed.held _ _ _ found rfl).append _
    · exact h.knows _ _ _ found rfl
  · exact o.nodup_spawned i t
  · intro w hw req passed
    obtain ⟨now, rfl, rfl, -, found, -⟩ := of_mem_spawned hw
    obtain ⟨call, found', -, past⟩ := passed
    obtain rfl := Option.some.inj (found.symm.trans found')
    exact past

theorem Watches.step (e : ObserveEvent) : ∃ asked' seen',
    Watches (o.step e).1 asked' seen' (xs ++ (o.step e).2) := by
  cases e with
  | arrive req method body =>
    refine ⟨_, seen, h.relay (.arrive req) [] rfl rfl (List.append_nil _).symm ?_ ?_ ?_⟩
    · simp
    · exact List.nodup_nil
    · simp
  | turn i t => exact ⟨_, seen, h.turn i t⟩
  | task k now =>
    simp only [ObservedProxy.step]
    cases here : o.tasks[k]? with
    | none =>
      rw [List.append_nil]
      exact ⟨asked, seen, h⟩
    | some w =>
      obtain ⟨more, next⟩ := h.task here now
      exact ⟨asked, _, next⟩

end Kept

/-! ## Both indices agree -/

section Agree

variable [JsonParser] [JsonDisplay] [CaptureJson] [FloatProduct] [HttpLibrary]

/-- What every step keeps of the proxy, its tasks and all that has been seen. -/
theorem sights_invariant {J : ObservedProxy → List Sight → Prop} (cfg : Proxy.Config)
    (keep : ∀ o xs e, J o xs → J (o.step e).1 (xs ++ (o.step e).2)) (first : J (start cfg) [])
    (es : List ObserveEvent) : J (Runs.final step (start cfg) es) (sights cfg es) := by
  refine Runs.history_invariant (P := fun _ _ => True)
    (J := fun o xs => J o (xs.flatMap Runs.Entry.output)) (fun o xs e h _ => ?_) first
    (Runs.steps_of_forall (fun _ _ => trivial) _ _)
  rw [List.flatMap_append, List.flatMap_singleton]
  exact keep o _ e h

theorem watches_run (cfg : Proxy.Config) (es : List ObserveEvent) : ∃ asked seen,
    Watches (Runs.final step (start cfg) es) asked seen (sights cfg es) := by
  apply sights_invariant (J := fun o xs => ∃ asked seen, Watches o asked seen xs) cfg
  · rintro o xs e ⟨asked, seen, h⟩
    exact h.step e
  · obtain ⟨ident, calls⟩ := Proxy.start_ident cfg
    have none_ : ∀ (i : Nat) (call : Call), (start cfg).proxy.calls[i]? ≠ some call := by
      intro i call found
      rw [show (start cfg).proxy.calls = [] from calls] at found
      cases found
    have attributed : (start cfg).proxy.Attributed [] (effectsIn []) :=
      ⟨ident, List.nodup_nil, by simp, fun i call ref found => absurd found (none_ i call),
        by simp [effectsIn]⟩
    exact ⟨[], [], attributed, fun i call ref found => absurd found (none_ i call), rfl,
      List.nodup_nil, List.nodup_nil, by simp [given, start], by simp [start], by simp, by simp⟩

omit [JsonParser] [JsonDisplay] [CaptureJson] [FloatProduct] [HttpLibrary] in
/-- The names of two undeclared calls, wherever they were asked for. -/
theorem named_eq_iff {asked : List (Nat × ResolveCall)} {i j : Nat} {r s : String}
    (first : Proxy.Named asked i r) (second : Proxy.Named asked j s) (apart : i ≠ j)
    {c d : ResolveCall} (hc : ∀ c', (i, c') ∈ asked → c' = c) (hd : ∀ d', (j, d') ∈ asked → d' = d)
    (free : c.Undeclared) (free' : d.Undeclared) : r = s ↔ ResolveCall.Partners 1 c d := by
  obtain ⟨m, c', here, got⟩ := first
  obtain ⟨n, d', here', got'⟩ := second
  obtain rfl := hc c' (List.mem_of_getElem? here)
  obtain rfl := hd d' (List.mem_of_getElem? here')
  have roots := SessionIndex.rootAt_eq_iff (Proxy.snd_of_getElem? here)
    (Proxy.snd_of_getElem? here') free free'
  rw [got, got', Option.some_inj] at roots
  rw [roots]
  constructor
  · rintro (rfl | partners)
    · obtain ⟨rfl, -⟩ := Prod.mk.inj (Option.some.inj (here.symm.trans here'))
      exact absurd rfl apart
    · exact partners
  · exact .inr

omit [JsonParser] [JsonDisplay] [CaptureJson] [FloatProduct] [HttpLibrary] in
/-- The name of a declared call is the one that it declares. -/
theorem named_of_declared {asked : List (Nat × ResolveCall)} {i : Nat} {r : String}
    (named : Proxy.Named asked i r) {c : ResolveCall} (hc : ∀ c', (i, c') ∈ asked → c' = c)
    {session : String} {node parent : Option String}
    (declared : fromHeaders c.headers = some (.declared session node parent)) : r = session := by
  obtain ⟨m, c', here, got⟩ := named
  obtain rfl := hc c' (List.mem_of_getElem? here)
  rw [SessionIndex.rootAt_of_declared (Proxy.snd_of_getElem? here) declared] at got
  exact (Option.some.inj got).symm

omit [JsonParser] [JsonDisplay] [CaptureJson] [FloatProduct] [HttpLibrary] in
/-- Both indices were asked the same for the call of a task. -/
theorem Watches.asked_eq {o : ObservedProxy} {asked seen : List (Nat × ResolveCall)}
    {xs : List Sight} (h : Watches o asked seen xs) {w : Observation} (hw : w ∈ o.given) :
    (∀ c, (w.call, c) ∈ asked → c = w.req.asked) ∧ ∀ c, (w.call, c) ∈ seen → c = w.req.asked := by
  obtain ⟨call, found, same, -⟩ := (h.tasks w hw).passed
  constructor
  · intro c hc
    obtain ⟨call', found', asks, -⟩ := h.attributed.calls _ c hc
    obtain rfl := Option.some.inj (found.symm.trans found')
    rw [← asks, same]
  · intro c hc
    obtain ⟨v, hv, called, asks⟩ := h.sources _ c hc
    obtain ⟨call', found', same', -⟩ := (h.tasks v hv).passed
    rw [called] at found'
    obtain rfl := Option.some.inj (found.symm.trans found')
    rw [← asks, ← same, ← same']

/-- However the tasks take their turns, the shadow tells undeclared calls apart just as the live
index does, and gives declared ones the same root. -/
theorem shadow_agrees (cfg : Proxy.Config) (es : List ObserveEvent) :
    (∀ i j a b, .compared i a ∈ sights cfg es → .compared j b ∈ sights cfg es → i ≠ j →
        a.declared = false → b.declared = false →
        (a.shadowRoot = b.shadowRoot ↔ a.liveRoot = b.liveRoot)) ∧
      ∀ i a, .compared i a ∈ sights cfg es → a.declared = true → a.shadowRoot = a.liveRoot := by
  obtain ⟨asked, seen, h⟩ := watches_run cfg es
  constructor
  · intro i j a b ha hb apart bare bare'
    obtain ⟨w, hw, rfl, live, declared, named⟩ := h.compared i a ha
    obtain ⟨v, hv, rfl, live', declared', named'⟩ := h.compared j b hb
    have free {w : Observation} (hw : w ∈ (Runs.final step (start cfg) es).given)
        {cmp : ShadowCmp} (declared : cmp.declared = w.live.source.isDeclared)
        (bare : cmp.declared = false) : w.req.asked.Undeclared := by
      have known := (h.tasks w hw).declared
      rw [← declared, bare] at known
      exact Option.isNone_iff_eq_none.mp (Option.isSome_eq_false_iff.mp known.symm)
    obtain ⟨once, twice⟩ := h.asked_eq hw
    obtain ⟨once', twice'⟩ := h.asked_eq hv
    have shadow := named_eq_iff named named' apart twice twice' (free hw declared bare)
      (free hv declared' bare')
    have real := named_eq_iff (h.tasks w hw).named (h.tasks v hv).named apart once once'
      (free hw declared bare) (free hv declared' bare')
    rw [shadow, live, live', real]
  · intro i a ha declares
    obtain ⟨w, hw, rfl, live, declared, named⟩ := h.compared i a ha
    obtain ⟨once, twice⟩ := h.asked_eq hw
    have known := (h.tasks w hw).declared
    rw [← declared, declares] at known
    rcases SessionIndex.fromHeaders_cases w.req.headers with none_ | ⟨session, node, parent, some_⟩
    · rw [none_] at known
      cases known
    · rw [live, named_of_declared named twice some_,
        named_of_declared (h.tasks w hw).named once some_]

end Agree

/-! ## The notes that are kept -/

/-- What was compared, in order. -/
def comparisons (xs : List Sight) : List ShadowCmp :=
  xs.filterMap fun
    | .compared _ cmp => some cmp
    | _ => none

/-- What was noted, in order. -/
def notesIn (xs : List Sight) : List ShadowCmp :=
  xs.filterMap fun
    | .noted cmp => some cmp
    | _ => none

/-- What was compared and is not noted yet. -/
def pending (o : ObservedProxy) : List ShadowCmp := o.tasks.filterMap fun w => w.stage.pending

theorem pushNote_rtake (l : List ShadowCmp) (cmp : ShadowCmp) :
    pushNote (l.rtake 64) cmp = (l ++ [cmp]).rtake 64 := by
  simp only [pushNote, List.rtake, List.length_append, List.length_drop, List.length_singleton]
  rcases Nat.lt_or_ge l.length 64 with short | long
  · have first : l.length - 64 = 0 := by omega
    have second : l.length + 1 - 64 = 0 := by omega
    rw [first, List.drop_zero, Nat.sub_zero, second]
  · have front : l.length - (l.length - 64) + 1 - 64 = 1 := by omega
    have within : 1 ≤ (l.drop (l.length - 64)).length := by
      rw [List.length_drop]
      omega
    have next : l.length - 64 + 1 = l.length + 1 - 64 := by omega
    rw [front, List.drop_append_of_le_length within, List.drop_drop, next,
      List.drop_append_of_le_length (by omega)]

/-- A task that goes on to another stage takes its own pending note along. -/
theorem pending_setStage {o : ObservedProxy} {k : Nat} {w : Observation}
    (here : o.tasks[k]? = some w) (stage : Stage) :
    ((o.setStage k stage).pending ++ w.stage.pending.toList).Perm
      (o.pending ++ stage.pending.toList) := by
  obtain ⟨bound, rfl⟩ := List.getElem?_eq_some_iff.mp here
  let front := (o.tasks.take k).filterMap fun w => w.stage.pending
  let back := (o.tasks.drop (k + 1)).filterMap fun w => w.stage.pending
  have cons (w : Observation) : (w :: o.tasks.drop (k + 1)).filterMap (fun w => w.stage.pending) =
      w.stage.pending.toList ++ back := by
    rw [List.filterMap_cons]
    cases w.stage.pending <;> rfl
  have before : o.pending = front ++ (o.tasks[k].stage.pending.toList ++ back) := by
    rw [pending, ← cons, ← List.filterMap_append, List.getElem_cons_drop, List.take_append_drop]
  have after : (o.setStage k stage).pending = front ++ (stage.pending.toList ++ back) := by
    rw [pending, setStage, List.modify_eq_take_cons_drop bound, List.filterMap_append, cons]
  rw [before, after, List.perm_iff_count]
  intro cmp
  simp only [List.count_append]
  omega

/-- The notes are the last 64 that were made, and every comparison is noted or about to be. -/
structure Keeps (o : ObservedProxy) (xs : List Sight) : Prop where
  notes : o.notes = (notesIn xs).rtake 64
  all : (comparisons xs).Perm (notesIn xs ++ o.pending)

section Notes

variable {o : ObservedProxy} {xs : List Sight}

theorem comparisons_append (xs ys : List Sight) :
    comparisons (xs ++ ys) = comparisons xs ++ comparisons ys := by
  rw [comparisons, List.filterMap_append]
  rfl

theorem notesIn_append (xs ys : List Sight) : notesIn (xs ++ ys) = notesIn xs ++ notesIn ys := by
  rw [notesIn, List.filterMap_append]
  rfl

theorem Keeps.relay (h : o.Keeps xs) (o' : ObservedProxy) (new : List Observation)
    (notes : o'.notes = o.notes) (tasks : o'.tasks = o.tasks ++ new)
    (due : ∀ w ∈ new, w.stage = .capture) (fx : List Effect) :
    o'.Keeps (xs ++ fx.map .relayed) := by
  have none_ : comparisons (fx.map .relayed) = [] ∧ notesIn (fx.map .relayed) = [] := by
    constructor
    · rw [comparisons, List.filterMap_map]
      exact List.filterMap_eq_nil_iff.mpr fun _ _ => rfl
    · rw [notesIn, List.filterMap_map]
      exact List.filterMap_eq_nil_iff.mpr fun _ _ => rfl
  have same : o'.pending = o.pending := by
    have idle : (new.filterMap fun w => w.stage.pending) = [] :=
      List.filterMap_eq_nil_iff.mpr fun w hw => by rw [due w hw]; rfl
    rw [pending, tasks, List.filterMap_append, idle, List.append_nil]
    rfl
  refine ⟨?_, ?_⟩
  · rw [notesIn_append, none_.2, List.append_nil, notes, h.notes]
  · rw [comparisons_append, notesIn_append, none_.1, none_.2, same, List.append_nil,
      List.append_nil]
    exact h.all

/-- A task goes on to `stage`, and `ys` is seen. -/
theorem Keeps.task (h : o.Keeps xs) {k : Nat} {w : Observation} (here : o.tasks[k]? = some w)
    (stage : Stage) {o' : ObservedProxy} {ys : List Sight}
    (tasks : o'.tasks = (o.setStage k stage).tasks)
    (notes : o'.notes = (notesIn xs ++ notesIn ys).rtake 64)
    (moved : comparisons ys ++ w.stage.pending.toList = notesIn ys ++ stage.pending.toList) :
    o'.Keeps (xs ++ ys) := by
  refine ⟨by rw [notesIn_append, notes], ?_⟩
  have shift := pending_setStage here stage
  have pend : (o.setStage k stage).pending = o'.pending := by rw [pending, pending, tasks]
  rw [pend] at shift
  rw [comparisons_append, notesIn_append]
  have all := h.all
  rw [List.perm_iff_count] at shift all ⊢
  intro cmp
  have counts := congrArg (List.count cmp) moved
  have first := shift cmp
  have second := all cmp
  simp only [List.count_append] at counts first second ⊢
  omega

variable [JsonParser] [JsonDisplay] [CaptureJson] [FloatProduct] [HttpLibrary]

theorem Keeps.step (h : o.Keeps xs) (e : ObserveEvent) :
    (o.step e).1.Keeps (xs ++ (o.step e).2) := by
  cases e with
  | arrive req method body =>
    exact h.relay (o.step (.arrive req method body)).1 [] rfl
      (List.append_nil _).symm (by simp) (o.proxy.step (.arrive req)).2
  | turn i t =>
    refine h.relay (o.step (.turn i t)).1 (o.spawned i t) rfl rfl (fun w hw => ?_)
      (o.proxy.step (.turn i t)).2
    obtain ⟨-, -, -, -, -, due⟩ := of_mem_spawned hw
    exact due
  | task k now =>
    simp only [ObservedProxy.step]
    cases here : o.tasks[k]? with
    | none => simpa using h
    | some w =>
      simp only [runTask]
      have quiet : o.notes = (notesIn xs ++ []).rtake 64 := by rw [List.append_nil, h.notes]
      cases due : w.stage with
      | capture =>
        cases w.captureId with
        | some id => exact h.task here .compare rfl quiet (by rw [due]; rfl)
        | none => exact h.task here .compare rfl quiet (by rw [due]; rfl)
      | compare => exact h.task here (.note _) rfl quiet (by rw [due]; rfl)
      | note cmp =>
        refine h.task here .done rfl ?_ (by rw [due]; rfl)
        rw [show notesIn [.noted cmp] = [cmp] from rfl, ← pushNote_rtake, ← h.notes]
        rfl
      | done => simpa using h

/-- In every run the notes are the last 64 that were made, and each comparison has been noted once
or is about to be. -/
theorem notes_window (cfg : Proxy.Config) (es : List ObserveEvent) :
    (Runs.final ObservedProxy.step (start cfg) es).Keeps (sights cfg es) := by
  apply sights_invariant cfg
  · exact fun o xs e h => h.step e
  · exact ⟨rfl, .refl _⟩

end Notes

end ObservedProxy

end Tailfin
