import Tailfin.Proxy.WsFrames
import Tailfin.Wire.Meter

/-!
# Metering a WebSocket

The closure that `relay_ws` gives the relay: it decodes the frames from upstream and shows each
payload to an SSE decoder and, where the payload is an object, to the meter itself. A message in
fragments is not put together: the meter is shown its first fragment alone.
-/

namespace Tailfin

open Text

/-- The local state of the relay task. -/
structure WsMeterTask where
  decoder : SseDecoder
  wsdec : WsTextDecoder
  meter : Option Meter
  deriving DecidableEq, Repr

namespace WsMeterTask

def new (dialect : Option Dialect) : WsMeterTask := ⟨.new, .new, dialect.map Meter.new⟩

variable [JsonParser]

/-- The loop body over payloads. -/
def payload (seen : SseDecoder × Meter) (bytes : List UInt8) : SseDecoder × Meter :=
  let pushed := seen.1.push bytes
  let m := seen.2.observeAll pushed.1
  match Utf8.fromUtf8 bytes with
  | some s =>
    if (trim s).head? = some '{' then (pushed.2, m.observe ⟨none, trim s⟩) else (pushed.2, m)
  | none => (pushed.2, m)

def payloads (seen : SseDecoder × Meter) (all : List (List UInt8)) : SseDecoder × Meter :=
  all.foldl payload seen

/-- What the closure does with the bytes of one read. -/
def chunk (t : WsMeterTask) (bytes : List UInt8) : Except WsFault WsMeterTask :=
  match t.meter with
  | some m => do
    let pushed ← t.wsdec.push bytes
    let seen := payloads (t.decoder, m) pushed.1
    pure ⟨seen.1, pushed.2, some seen.2⟩
  | none => pure t

def chunks : WsMeterTask → List (List UInt8) → Except WsFault WsMeterTask
  | t, [] => .ok t
  | t, bytes :: all => do
    let next ← t.chunk bytes
    next.chunks all

/-- What the task records once the connection has ended. -/
def result (t : WsMeterTask) : Usage × Bool :=
  match t.meter.map fun m => m.observeAll t.decoder.finish.1 with
  | some m => (m.usage, m.isComplete)
  | none => (default, false)

end WsMeterTask

section Relay

variable [JsonParser]

/-- The usage of a connection, and whether it is complete. -/
def wsMetered (dialect : Option Dialect) (all : List (List UInt8)) :
    Except WsFault (Usage × Bool) := do
  let t ← (WsMeterTask.new dialect).chunks all
  pure t.result

/-- What the meter of a connection records of payloads. -/
def payloadsMetered (dialect : Dialect) (all : List (List UInt8)) : Usage × Bool :=
  let seen := WsMeterTask.payloads (.new, .new dialect) all
  let m := seen.2.observeAll seen.1.finish.1
  (m.usage, m.isComplete)

/-- With a meter, the task is a frame decoder and a fold over the payloads it hands over. -/
theorem WsMeterTask.chunks_eq (decoder : SseDecoder) (wsdec : WsTextDecoder) (m : Meter)
    (all : List (List UInt8)) : (WsMeterTask.mk decoder wsdec (some m)).chunks all =
      (wsdec.pushAll all).map fun pushed => ⟨(payloads (decoder, m) pushed.1).1, pushed.2,
        some (payloads (decoder, m) pushed.1).2⟩ := by
  induction all generalizing decoder wsdec m with
  | nil => rfl
  | cons bytes all ih =>
    rw [chunks, chunk, WsTextDecoder.pushAll]
    cases wsdec.push bytes with
    | error e => rfl
    | ok first =>
      simp only [bind, Except.bind, pure, Except.pure, ih]
      cases first.2.pushAll all with
      | error e => rfl
      | ok rest => simp only [Except.map, payloads, List.foldl_append]

theorem wsMetered_some (dialect : Dialect) (all : List (List UInt8)) :
    wsMetered (some dialect) all =
      (WsTextDecoder.new.pushAll all).map fun pushed => payloadsMetered dialect pushed.1 := by
  rw [wsMetered, WsMeterTask.new, Option.map_some, WsMeterTask.chunks_eq]
  cases WsTextDecoder.new.pushAll all with
  | error e => rfl
  | ok pushed => rfl

/-- Without a meter nothing is decoded. -/
theorem wsMetered_none (all : List (List UInt8)) : wsMetered none all = .ok (default, false) := by
  have idle : ∀ all, (WsMeterTask.new none).chunks all = .ok (WsMeterTask.new none) := by
    intro all
    induction all with
    | nil => rfl
    | cons bytes all ih => exact ih
  rw [wsMetered, idle]
  rfl

end Relay

/-! ## Messages in fragments -/

/-- A piece of a message, with the control frames that follow it. -/
structure Fragment where
  mask : Option Mask
  payload : List UInt8
  controls : List SentFrame

/-- The frames behind the first one. The last of them ends the message. -/
def continuations : List Fragment → List SentFrame
  | [] => []
  | g :: rest =>
    ⟨rest.isEmpty, .continuation, g.mask, g.payload⟩ :: (g.controls ++ continuations rest)

def fragmented (opcode : WsOpcode) (first : Fragment) (rest : List Fragment) : List SentFrame :=
  ⟨rest.isEmpty, opcode, first.mask, first.payload⟩ :: (first.controls ++ continuations rest)

def unfragmented (opcode : WsOpcode) (mask : Option Mask) (first : Fragment)
    (rest : List Fragment) : SentFrame :=
  ⟨true, opcode, mask, first.payload ++ rest.flatMap Fragment.payload⟩

/-- Between the fragments there are only pings and pongs. -/
def Controlled (fragments : List Fragment) : Prop :=
  ∀ g ∈ fragments, ∀ c ∈ g.controls, c.opcode = .ping ∨ c.opcode = .pong

theorem message_control {c : SentFrame} (control : c.opcode = .ping ∨ c.opcode = .pong) :
    c.message = none ∧ c.opcode ≠ .close := by
  unfold SentFrame.message
  rcases control with h | h <;> simp [h, WsOpcode.data]

theorem filterMap_controls {controls : List SentFrame}
    (only : ∀ c ∈ controls, c.opcode = .ping ∨ c.opcode = .pong) :
    controls.filterMap SentFrame.message = [] :=
  List.filterMap_eq_nil_iff.mpr fun c hc => (message_control (only c hc)).1

theorem filterMap_continuations {rest : List Fragment} (controlled : Controlled rest) :
    (continuations rest).filterMap SentFrame.message = [] := by
  induction rest with
  | nil => rfl
  | cons g rest ih =>
    have here := filterMap_controls (controlled g (by simp))
    have later := ih fun g' hg' => controlled g' (List.mem_cons_of_mem _ hg')
    rw [continuations, List.filterMap_cons_none rfl, List.filterMap_append, here, later]
    rfl

theorem continuations_open {rest : List Fragment} (controlled : Controlled rest) :
    ∀ f ∈ continuations rest, f.opcode ≠ .close := by
  induction rest with
  | nil => exact List.forall_mem_nil _
  | cons g rest ih =>
    have later := ih fun g' hg' => controlled g' (List.mem_cons_of_mem _ hg')
    have here := fun c hc => (message_control (controlled g (by simp) c hc)).2
    exact List.forall_mem_cons.mpr ⟨WsOpcode.noConfusion, List.forall_mem_append.mpr ⟨here, later⟩⟩

/-- Of a message in fragments the first one is handed over. -/
theorem pushAll_fragmented {opcode : WsOpcode} (data : opcode.data = true) {first : Fragment}
    {rest : List Fragment} (controlled : Controlled (first :: rest))
    (fits : ∀ f ∈ fragmented opcode first rest, f.encode.length < 2 ^ 64)
    {chunks : List (List UInt8)}
    (text : chunks.flatten = (fragmented opcode first rest).flatMap SentFrame.encode) :
    WsTextDecoder.new.pushAll chunks = .ok ([first.payload], .new) := by
  obtain ⟨here, later⟩ := List.forall_mem_cons.mp controlled
  have open_ : ∀ f ∈ fragmented opcode first rest, f.opcode ≠ .close := by
    refine List.forall_mem_cons.mpr ⟨fun close => ?_, List.forall_mem_append.mpr
      ⟨fun c hc => (message_control (here c hc)).2, continuations_open later⟩⟩
    obtain rfl : opcode = .close := close
    cases data
  have head : (SentFrame.mk rest.isEmpty opcode first.mask first.payload).message =
      some first.payload := if_pos data
  have payloads : (fragmented opcode first rest).filterMap SentFrame.message =
      [first.payload] := by
    rw [fragmented, List.filterMap_cons_some head, List.filterMap_append,
      filterMap_controls here, filterMap_continuations later]
    rfl
  rw [WsTextDecoder.pushAll_encode fits open_ text, payloads]

theorem pushAll_whole {f : SentFrame} (data : f.opcode.data = true)
    (fits : f.encode.length < 2 ^ 64) {chunks : List (List UInt8)}
    (text : chunks.flatten = f.encode) :
    WsTextDecoder.new.pushAll chunks = .ok ([f.payload], .new) := by
  have open_ : f.opcode ≠ .close := by
    intro close
    rw [close] at data
    cases data
  have payloads : [f].filterMap SentFrame.message = [f.payload] :=
    List.filterMap_cons_some (if_pos data)
  have one : chunks.flatten = [f].flatMap SentFrame.encode := by rw [text, List.flatMap_singleton]
  rw [WsTextDecoder.pushAll_encode (by simpa using fits) (by simpa using open_) one, payloads]

section Fragments

variable [JsonParser]

/-- The meter is shown the same payloads of both streams, and both record the same. -/
def SameMeter (chunks whole : List (List UInt8)) : Prop :=
  (WsTextDecoder.new.pushAll chunks).map Prod.fst = (WsTextDecoder.new.pushAll whole).map Prod.fst ∧
    ∀ dialect, wsMetered dialect chunks = wsMetered dialect whole

/-- Fragments change nothing exactly if the message was in the first of them. -/
theorem sameMeter_iff {opcode : WsOpcode} (data : opcode.data = true) {first : Fragment}
    {rest : List Fragment} (controlled : Controlled (first :: rest))
    (fits : ∀ f ∈ fragmented opcode first rest, f.encode.length < 2 ^ 64) (mask : Option Mask)
    (whole_fits : (unfragmented opcode mask first rest).encode.length < 2 ^ 64)
    {chunks whole : List (List UInt8)}
    (text : chunks.flatten = (fragmented opcode first rest).flatMap SentFrame.encode)
    (whole_text : whole.flatten = (unfragmented opcode mask first rest).encode) :
    SameMeter chunks whole ↔ ∀ g ∈ rest, g.payload = [] := by
  have pieces := pushAll_fragmented data controlled fits text
  have message := pushAll_whole (f := unfragmented opcode mask first rest) data whole_fits
    whole_text
  have payload : (unfragmented opcode mask first rest).payload =
      first.payload ++ rest.flatMap Fragment.payload := rfl
  rw [payload] at message
  constructor
  · rintro ⟨same, -⟩
    rw [pieces, message] at same
    have shown : first.payload = first.payload ++ rest.flatMap Fragment.payload := by
      simpa [Except.map] using same
    exact List.flatMap_eq_nil_iff.mp (List.self_eq_append_right.mp shown)
  · intro empty
    rw [List.flatMap_eq_nil_iff.mpr empty, List.append_nil] at message
    have same : WsTextDecoder.new.pushAll chunks = WsTextDecoder.new.pushAll whole :=
      pieces.trans message.symm
    refine ⟨by rw [same], fun dialect => ?_⟩
    cases dialect with
    | none => rw [wsMetered_none, wsMetered_none]
    | some dialect => rw [wsMetered_some, wsMetered_some, same]

end Fragments

section Cases

/-- A finished response. -/
def responseText : List Char :=
  ("\x7b\"object\":\"response\",\"usage\":\x7b\"output_tokens\":5\x7d\x7d").toList

/-- The parser on it. -/
@[reducible] def responseTexts : JsonParser where
  fromStr t := if t = responseText then
    some (.object [("object".toList, .string "response".toList),
      ("usage".toList, .object [("output_tokens".toList, .number (.posInt 5))])])
  else none

attribute [local instance] responseTexts

def ping : SentFrame := ⟨true, .ping, none, []⟩

/-- The second fragment is empty. -/
theorem sameMeter_empty : SameMeter
    [(fragmented .text ⟨none, [104, 105], [ping]⟩ [⟨none, [], []⟩]).flatMap SentFrame.encode]
    [(unfragmented .text none ⟨none, [104, 105], [ping]⟩ [⟨none, [], []⟩]).encode] := by
  have controlled : Controlled [⟨none, [104, 105], [ping]⟩, ⟨none, [], []⟩] := by
    simp [Controlled, ping]
  exact (sameMeter_iff rfl controlled (by decide +kernel) none (by decide +kernel)
    (List.append_nil _) (List.append_nil _)).mpr (by simp)

/-- A response in two fragments. -/
def responseFragments : List SentFrame :=
  fragmented .text ⟨none, (Utf8.encode responseText).take 20, [ping]⟩
    [⟨none, (Utf8.encode responseText).drop 20, []⟩]

/-- It is not metered. -/
theorem not_sameMeter_response : ¬ SameMeter [responseFragments.flatMap SentFrame.encode]
    [(SentFrame.mk true .text none (Utf8.encode responseText)).encode] := by
  rintro ⟨-, same⟩
  have pieces : wsMetered (some .openAiResponses)
      [responseFragments.flatMap SentFrame.encode] = .ok (default, false) := by decide +kernel
  have whole : wsMetered (some .openAiResponses)
      [(SentFrame.mk true .text none (Utf8.encode responseText)).encode] =
        .ok (.out 5, true) := by decide +kernel
  have usage := same (some .openAiResponses)
  rw [pieces, whole] at usage
  cases usage

end Cases

end Tailfin
