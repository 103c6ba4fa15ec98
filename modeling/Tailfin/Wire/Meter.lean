import Tailfin.Wire.Json
import Tailfin.Wire.Sse
import Tailfin.Wire.Usage

/-!
# Reading usage off a stream

`Dialect` and `Meter` of `tailfin-wire`: what each provider's frames say about usage. A frame
that is no JSON is skipped. The meter is complete once it has seen the frame that carries the
final usage.
-/

namespace Tailfin

/-- Which provider shape a stream carries. -/
inductive Dialect where
  | anthropicMessages
  | openAiChat
  | openAiResponses
  deriving DecidableEq, Repr

/-- Accumulates usage across a stream. -/
structure Meter where
  dialect : Dialect
  usage : Usage
  sawTerminal : Bool
  deriving DecidableEq, Repr

namespace Usage

/-- The prompt side of `take_anthropic`. -/
def takePrompt (usage : Usage) (u : Json) : Usage :=
  let usage := { usage with
    input := usage.input + u.count "input_tokens"
    cacheRead := usage.cacheRead + u.count "cache_read_input_tokens" }
  -- The split breakdown is preferred to the flat total.
  match u.countAt ["cache_creation", "ephemeral_5m_input_tokens"],
      u.countAt ["cache_creation", "ephemeral_1h_input_tokens"] with
  | none, none =>
    { usage with cacheWrite5m := usage.cacheWrite5m + u.count "cache_creation_input_tokens" }
  | m5, m1 => { usage with
      cacheWrite5m := usage.cacheWrite5m + m5.getD 0
      cacheWrite1h := usage.cacheWrite1h + m1.getD 0 }

def takeAnthropic (usage : Usage) (u : Json) (delta : Bool) : Usage :=
  let usage := if delta then usage else usage.takePrompt u
  -- The output of a `message_delta` is cumulative.
  let out := u.count "output_tokens"
  let usage := if out > 0 then { usage with output := out } else usage
  match u.countAt ["output_tokens_details", "thinking_tokens"] with
  | some t => { usage with reasoning := t }
  | none => usage

/-- The assignments that `observe_openai` and `take_responses` make, under their field names. -/
def takeTotals (usage : Usage) (u : Json) (input output inputDetails outputDetails : String) :
    Usage :=
  let cached := (u.countAt [inputDetails, "cached_tokens"]).getD 0
  { usage with
    input := saturatingSub (u.count input) cached
    cacheRead := cached
    output := u.count output
    reasoning := (u.countAt [outputDetails, "reasoning_tokens"]).getD 0 }

def takeOpenai (usage : Usage) (u : Json) : Usage :=
  usage.takeTotals u "prompt_tokens" "completion_tokens" "prompt_tokens_details"
    "completion_tokens_details"

def takeResponses (usage : Usage) (u : Json) : Usage :=
  usage.takeTotals u "input_tokens" "output_tokens" "input_tokens_details" "output_tokens_details"

end Usage

namespace Meter

def new (dialect : Dialect) : Meter := ⟨dialect, default, false⟩

/-- The event of a frame, or else the type its data names. -/
def kind (frame : SseFrame) (v : Json) : Option (List Char) :=
  frame.event.or ((v.get "type").bind Json.asStr)

def observeAnthropic (m : Meter) (frame : SseFrame) (v : Json) : Meter :=
  if kind frame v = some "message_start".toList then
    match v.pointer ["message", "usage"] with
    | some u => { m with usage := m.usage.takeAnthropic u false }
    | none => m
  else if kind frame v = some "message_delta".toList then
    match v.get "usage" with
    | some u => { m with usage := m.usage.takeAnthropic u true, sawTerminal := true }
    | none => m
  else m

def observeOpenai (m : Meter) (v : Json) : Meter :=
  match (v.get "usage").filter (!·.isNull) with
  | some u => { m with usage := m.usage.takeOpenai u, sawTerminal := true }
  | none => m

/-- The usage of a finished response, nested or flat. -/
def responseUsage (v : Json) : Option Json :=
  ((v.pointer ["response", "usage"]).or (v.get "usage")).filter (!·.isNull)

def observeResponses (m : Meter) (frame : SseFrame) (v : Json) : Meter :=
  if kind frame v = some "response.completed".toList then
    match responseUsage v with
    | some u => { m with usage := m.usage.takeResponses u, sawTerminal := true }
    | none => m
  else if kind frame v = some "response.failed".toList ∨
      kind frame v = some "response.incomplete".toList then
    match responseUsage v with
    | some u => { m with usage := m.usage.takeResponses u }
    | none => m
  else if (v.get "object").bind Json.asStr = some "response".toList then
    -- One JSON object instead of a stream.
    match (v.get "usage").filter (!·.isNull) with
    | some u => { m with usage := m.usage.takeResponses u, sawTerminal := true }
    | none => m
  else m

section Parser

variable [JsonParser]

/-- Observe one frame. Never fails; unparseable frames are skipped. -/
def observe (m : Meter) (frame : SseFrame) : Meter :=
  if frame.data = "[DONE]".toList then m
  else match JsonParser.fromStr frame.data with
    | none => m
    | some v => match m.dialect with
      | .anthropicMessages => m.observeAnthropic frame v
      | .openAiChat => m.observeOpenai v
      | .openAiResponses => m.observeResponses frame v

def observeAll (m : Meter) (frames : List SseFrame) : Meter := frames.foldl observe m

theorem observeAll_append (m : Meter) (first rest : List SseFrame) :
    m.observeAll (first ++ rest) = (m.observeAll first).observeAll rest :=
  List.foldl_append

end Parser

def isComplete (m : Meter) : Bool := m.sawTerminal

end Meter

end Tailfin
