import Tailfin.Proxy.Tee
import Tailfin.Wire.JsonBody
import Tailfin.Wire.Reports
import Tailfin.Wire.SseText

/-!
# One answer in two shapes

A provider sends a finished response as one JSON object or as an event stream. The decoder makes a
frame of the object when it ends, and both OpenAI meters read its usage there. The Anthropic meter
reads usage only where a stream has it, so that a message in one piece is not metered at all.
-/

namespace Tailfin

open Text

namespace SseDecoder

/-- An object on one line is one frame. -/
theorem decodeText_object {inner : List Char} (unbroken : '\n' ∉ '{' :: (inner ++ ['}'])) :
    decodeText ('{' :: (inner ++ ['}'])) = [⟨none, '{' :: (inner ++ ['}'])⟩] := by
  have pushed : new.pushText ('{' :: (inner ++ ['}'])) =
      ([], { new with buf := '{' :: (inner ++ ['}']) }) :=
    pushText_lines (List.forall_mem_nil _) unbroken
  have nothing : ∀ c ∈ ([] : List Char), isWhitespace c = true :=
    List.forall_mem_nil _
  have left := leftover_braces nothing nothing inner
  rw [List.nil_append, List.append_nil] at left
  rw [decodeText, pushed, finish]
  exact left

/-- The text of frames decodes to the frames. -/
theorem decodeText_frames {frames : List SseFrame} (plain : ∀ f ∈ frames, f.Plain) :
    decodeText (encodeFrames frames) = frames := by
  have pushed := pushText_lines (newline_notMem_linesOf plain) List.not_mem_nil
  rw [List.append_nil, ← encodeFrames_eq, readLines_frames plain new rfl] at pushed
  rw [decodeText, pushed]
  exact List.append_nil _

end SseDecoder

/-! ## The two shapes -/

/-- The kinds of the events that the Responses meter reads. -/
def responseEvents : List (List Char) :=
  ["response.completed", "response.failed", "response.incomplete"].map String.toList

/-- The value of a finished response with usage `u`. -/
structure AnswerBody (d : Dialect) (u v : Json) : Prop where
  usage : v.get "usage" = some u
  given : u.isNull = false
  shape : match d with
    | .anthropicMessages => (v.get "type").bind Json.asStr = some "message".toList
    | .openAiChat => True
    | .openAiResponses => (v.get "object").bind Json.asStr = some "response".toList ∧
        ∀ t ∈ (v.get "type").bind Json.asStr, t ∉ responseEvents

/-- The reports of the stream of a finished response with usage `u`. -/
def Streamed (d : Dialect) (u : Json) (rs : List Report) : Prop :=
  match d with
  | .anthropicMessages => ∃ u₀ ds, rs = .start u₀ :: ds.map .delta ∧ ds ≠ [] ∧
      Cumulative (u₀ :: ds) ∧ Usage.ofMessages rs = (default : Usage).takeAnthropic u false
  | _ => rs.getLast? = some (.total u true)

variable {d : Dialect} {u v : Json}

theorem ofReports_of_streamed {rs : List Report} (streamed : Streamed d u rs) :
    Usage.ofReports d rs = Usage.ofReports d
      [if d = .anthropicMessages then .start u else .total u true] := by
  cases d with
  | anthropicMessages =>
    obtain ⟨u₀, ds, -, -, -, same⟩ := streamed
    exact same.trans (Usage.ofMessages_start [] u).symm
  | openAiChat => rw [Usage.ofReports_of_last (by decide) streamed]; rfl
  | openAiResponses => rw [Usage.ofReports_of_last (by decide) streamed]; rfl

theorem terminal_of_streamed {rs : List Report} (streamed : Streamed d u rs) :
    rs.any Report.terminal = true := by
  cases d with
  | anthropicMessages =>
    obtain ⟨u₀, ds, rfl, some_, -⟩ := streamed
    obtain ⟨v, ds, rfl⟩ := List.exists_cons_of_ne_nil some_
    rfl
  | openAiChat | openAiResponses =>
    exact List.any_eq_true.mpr ⟨_, List.mem_of_getLast? streamed, rfl⟩

section Shapes

open Meter

variable [JsonParser]

/-- A finished response with usage `u`, as one compact object and as an event stream, both in chunks
of whole characters. -/
structure Delivered (d : Dialect) (u : Json) (body stream : List (List Char)) : Prop where
  body : ∃ inner v, body.flatten = '{' :: (inner ++ ['}']) ∧ '\n' ∉ body.flatten ∧
    JsonParser.fromStr body.flatten = some v ∧ AnswerBody d u v
  stream : ∃ frames, (∀ f ∈ frames, f.Plain) ∧ stream.flatten = encodeFrames frames ∧
    Streamed d u (reports d frames)

/-- Both shapes meter alike, and both are complete. -/
def Alike (d : Dialect) (body stream : List (List Char)) : Prop :=
  (metered (some d) (body.map Utf8.encode)).1 = (metered (some d) (stream.map Utf8.encode)).1 ∧
    (metered (some d) (body.map Utf8.encode)).2 = true ∧
    (metered (some d) (stream.map Utf8.encode)).2 = true

/-- What the object reports. -/
theorem reported_answer (answer : AnswerBody d u v) {text : List Char}
    (braces : text ≠ "[DONE]".toList) (parsed : JsonParser.fromStr text = some v) :
    reported d ⟨none, text⟩ = if d = .anthropicMessages then none else some (.total u true) := by
  have value : read ⟨none, text⟩ = some v := by
    rw [Meter.read, if_neg braces, parsed]
  have usage : Json.present (v.get "usage") = some u := by
    rw [answer.usage]
    simp [Json.present, answer.given]
  have shape := answer.shape
  rw [reported, value, Option.bind_some]
  cases d with
  | anthropicMessages =>
    have kind_ : kind ⟨none, text⟩ v = some "message".toList := shape
    rw [reportOf, kind_, if_neg (by decide), if_neg (by decide)]
    rfl
  | openAiChat =>
    rw [reportOf, usage]
    rfl
  | openAiResponses =>
    obtain ⟨object, other⟩ := shape
    have kind_ : ∀ t ∈ responseEvents, kind ⟨none, text⟩ v ≠ some t := fun t mem same =>
      other t same mem
    rw [reportOf, if_neg (kind_ _ (by decide)), if_neg, if_pos object, usage]
    · rfl
    · exact not_or.mpr ⟨kind_ _ (by decide), kind_ _ (by decide)⟩

theorem nullDelta_answer (answer : AnswerBody d u v) {text : List Char}
    (braces : text ≠ "[DONE]".toList) (parsed : JsonParser.fromStr text = some v) :
    nullDelta d ⟨none, text⟩ = false := by
  have value : read ⟨none, text⟩ = some v := by
    rw [Meter.read, if_neg braces, parsed]
  have null : (v.get "usage").any Json.isNull = false := by
    rw [answer.usage]
    exact answer.given
  rw [nullDelta, value, Option.any_some, null, Bool.and_false, Bool.and_false]

/-- The meter of frames, as its task answers it. -/
theorem metered_frames {chunks : List (List Char)} {frames : List SseFrame}
    (decoded : SseDecoder.decodeText chunks.flatten = frames) :
    metered (some d) (chunks.map Utf8.encode) =
      (Usage.ofReports d (reports d frames), frames.any (ends d)) := by
  rw [metered_eq, SseDecoder.decode_chunks, decoded, observeAll_new]
  rfl

variable {body stream : List (List Char)}

/-- The stream meters what the response used. -/
theorem metered_stream (delivered : Delivered d u body stream) :
    metered (some d) (stream.map Utf8.encode) = (Usage.ofReports d
      [if d = .anthropicMessages then .start u else .total u true], true) := by
  obtain ⟨frames, plain, text, streamed⟩ := delivered.stream
  have decoded : SseDecoder.decodeText stream.flatten = frames := by
    rw [text, SseDecoder.decodeText_frames plain]
  rw [metered_frames decoded, ofReports_of_streamed streamed, any_ends,
    terminal_of_streamed streamed, Bool.true_or]

/-- The object meters it too, except in the Anthropic dialect, where it meters nothing. -/
theorem metered_body (delivered : Delivered d u body stream) :
    metered (some d) (body.map Utf8.encode) =
      if d = .anthropicMessages then (default, false)
      else (Usage.ofReports d [.total u true], true) := by
  obtain ⟨inner, v, text, unbroken, parsed, answer⟩ := delivered.body
  rw [text] at unbroken parsed
  have decoded : SseDecoder.decodeText body.flatten = [⟨none, '{' :: (inner ++ ['}'])⟩] := by
    rw [text, SseDecoder.decodeText_object unbroken]
  have braces : '{' :: (inner ++ ['}']) ≠ "[DONE]".toList := fun same =>
    absurd (List.head_eq_of_cons_eq same) (by decide)
  have report := reported_answer answer braces parsed
  rw [metered_frames decoded, reports, List.any_cons, List.any_nil, Bool.or_false, ends,
    nullDelta_answer answer braces parsed, Bool.or_false, report]
  split
  · next anthropic =>
    rw [List.filterMap_cons_none (by rw [report, if_pos anthropic]), anthropic]
    rfl
  · next other =>
    rw [List.filterMap_cons_some (by rw [report, if_neg other])]
    rfl

/-- Both shapes of a response meter alike, except in the Anthropic dialect. -/
theorem alike_iff (delivered : Delivered d u body stream) :
    Alike d body stream ↔ d ≠ .anthropicMessages := by
  rw [Alike, metered_body delivered, metered_stream delivered]
  by_cases anthropic : d = .anthropicMessages
  · simp [anthropic]
  · simp [anthropic]

end Shapes

section Cases

def countsOf (counts : List (String × UInt64)) : Json :=
  .object (counts.map fun c => (c.1.toList, .number (.posInt c.2)))

/-- A message in one piece, and the data of its stream. -/
def messageText : List Char :=
  "\x7b\"type\":\"message\",\"usage\":\x7b\"output_tokens\":5\x7d\x7d".toList

def startText : List Char := "\x7b\"message\":\x7b\"usage\":\x7b\x7d\x7d\x7d".toList
def deltaText : List Char := "\x7b\"usage\":\x7b\"output_tokens\":5\x7d\x7d".toList

/-- A chat completion in one piece, and the data of its stream. -/
def chatText : List Char := "\x7b\"usage\":\x7b\"prompt_tokens\":3\x7d\x7d".toList

def messageUsage : Json := countsOf [("output_tokens", 5)]
def chatUsage : Json := countsOf [("prompt_tokens", 3)]

/-- The parser on these texts. -/
@[reducible] def answerTexts : JsonParser where
  fromStr t :=
    [(messageText, Json.object [("type".toList, .string "message".toList),
        ("usage".toList, messageUsage)]),
      (startText, .object [("message".toList, .object [("usage".toList, countsOf [])])]),
      (deltaText, .object [("usage".toList, messageUsage)]),
      (chatText, .object [("usage".toList, chatUsage)])].lookup t

attribute [local instance] answerTexts

def messageFrames : List SseFrame :=
  [⟨some "message_start".toList, startText⟩, ⟨some "message_delta".toList, deltaText⟩]

theorem delivered_chat :
    Delivered .openAiChat chatUsage [chatText] [encodeFrames [⟨none, chatText⟩]] where
  body := ⟨chatText.tail.dropLast, _, by decide +kernel, by decide +kernel, rfl, rfl, rfl, trivial⟩
  stream := by
    refine ⟨[⟨none, chatText⟩], ?_, List.append_nil _, rfl⟩
    rintro f mem
    obtain rfl := List.mem_singleton.mp mem
    exact ⟨by simp, by decide +kernel⟩

theorem alike_chat :
    Alike .openAiChat [chatText] [encodeFrames [⟨none, chatText⟩]] :=
  (alike_iff delivered_chat).mpr (by decide)

theorem delivered_message :
    Delivered .anthropicMessages messageUsage [messageText] [encodeFrames messageFrames] where
  body := ⟨messageText.tail.dropLast, _, by decide +kernel, by decide +kernel, rfl, rfl, rfl, rfl⟩
  stream := by
    refine ⟨messageFrames, ?plain, List.append_nil _, countsOf [], [messageUsage], rfl, ?_, ?_, rfl⟩
    case plain =>
      intro f mem
      rcases List.mem_cons.mp mem with rfl | mem
      · refine ⟨fun e named => ?_, by decide +kernel⟩
        obtain rfl := Option.some.inj named
        exact ⟨by decide, List.all_iff_forall_prop.mp (by decide)⟩
      · obtain rfl := List.mem_singleton.mp mem
        refine ⟨fun e named => ?_, by decide +kernel⟩
        obtain rfl := Option.some.inj named
        exact ⟨by decide, List.all_iff_forall_prop.mp (by decide)⟩
    · exact List.cons_ne_nil _ _
    · unfold Cumulative
      decide +kernel

/-- The message in one piece is not metered. -/
theorem not_alike_message :
    Delivered .anthropicMessages messageUsage [messageText] [encodeFrames messageFrames] ∧
      ¬ Alike .anthropicMessages [messageText] [encodeFrames messageFrames] := by
  refine ⟨delivered_message, fun same => ?_⟩
  have empty : (metered (some .anthropicMessages) ([messageText].map Utf8.encode)).2 = false := by
    decide +kernel
  rw [Alike, empty] at same
  exact Bool.noConfusion same.2.1

end Cases

end Tailfin
