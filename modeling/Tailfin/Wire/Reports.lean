import Mathlib.Algebra.BigOperators.Group.List.Basic
import Mathlib.Data.List.Induction
import Mathlib.Data.List.ReduceOption
import Mathlib.Data.UInt
import Tailfin.Wire.Meter

/-!
# What a stream reports

The usage that the frames of a stream report, taken frame by frame, against what a meter makes of
them. A frame reports something if its data is JSON with a usage that is not null, in the place its
dialect has for it. The meter's usage is what the reports say. It is complete with the first
terminal report, but a `message_delta` whose usage is null makes it complete too.
-/

namespace Tailfin

/-- What a frame reports. -/
inductive Report where
  /-- The start of an Anthropic message: the prompt side, and the output so far. -/
  | start (u : Json)
  /-- A change of an Anthropic message: the output so far. -/
  | delta (u : Json)
  /-- All counts of a response; `final` if it was completed. -/
  | total (u : Json) (final : Bool)

namespace Report

/-- Nothing is to be reported after it. -/
def terminal : Report → Bool
  | start _ => false
  | delta _ => true
  | total _ final => final

def started : Report → Option Json
  | start u => some u
  | _ => none

def message : Report → Option Json
  | start u => some u
  | delta u => some u
  | total _ _ => none

def totals : Report → Option Json
  | total u _ => some u
  | _ => none

end Report

namespace Json

/-- A member that is there and not null. -/
def present (v : Option Json) : Option Json := v.filter (!·.isNull)

/-- The 5-minute and 1-hour cache writes: the split breakdown if there is any of it, else the flat
total as 5-minute writes. -/
def cacheWrites (u : Json) : UInt64 × UInt64 :=
  match u.countAt ["cache_creation", "ephemeral_5m_input_tokens"],
      u.countAt ["cache_creation", "ephemeral_1h_input_tokens"] with
  | none, none => (u.count "cache_creation_input_tokens", 0)
  | m5, m1 => (m5.getD 0, m1.getD 0)

end Json

/-- The prompt tokens that a usage reports, cached ones included. -/
def Dialect.promptTokens (d : Dialect) (u : Json) : UInt64 :=
  match d with
  | .openAiChat => u.count "prompt_tokens"
  | _ => u.count "input_tokens"

/-- The cached ones among them. -/
def Dialect.cachedTokens (d : Dialect) (u : Json) : UInt64 :=
  match d with
  | .openAiChat => (u.countAt ["prompt_tokens_details", "cached_tokens"]).getD 0
  | _ => (u.countAt ["input_tokens_details", "cached_tokens"]).getD 0

namespace Usage

/-- The last count that is not zero, if there is one. -/
def lastPositive (counts : List UInt64) : UInt64 := (counts.filter (0 < ·)).getLast?.getD 0

/-- The last count that is there, if there is one. -/
def lastPresent (counts : List (Option UInt64)) : UInt64 := counts.reduceOption.getLast?.getD 0

/-- What the reports of an Anthropic stream come to: prompt counts add up, and the last count of the
output is the output. -/
def ofMessages (rs : List Report) : Usage where
  input := ((rs.filterMap Report.started).map fun u => u.count "input_tokens").sum
  output := lastPositive ((rs.filterMap Report.message).map fun u => u.count "output_tokens")
  cacheWrite5m := ((rs.filterMap Report.started).map fun u => u.cacheWrites.1).sum
  cacheWrite1h := ((rs.filterMap Report.started).map fun u => u.cacheWrites.2).sum
  cacheRead := ((rs.filterMap Report.started).map fun u => u.count "cache_read_input_tokens").sum
  reasoning := lastPresent ((rs.filterMap Report.message).map fun u =>
    u.countAt ["output_tokens_details", "thinking_tokens"])

/-- What the reports of a stream come to. In both OpenAI dialects the last report counts. -/
def ofReports (d : Dialect) (rs : List Report) : Usage :=
  let last := (rs.filterMap Report.totals).getLast?
  match d with
  | .anthropicMessages => ofMessages rs
  | .openAiChat => (last.map (default : Usage).takeOpenai).getD default
  | .openAiResponses => (last.map (default : Usage).takeResponses).getD default

end Usage

namespace Meter

section Parser

variable [JsonParser]

/-- The value of a frame. `[DONE]` and data that is no JSON have none. -/
def read (frame : SseFrame) : Option Json :=
  if frame.data = "[DONE]".toList then none else JsonParser.fromStr frame.data

/-- What a frame with this value reports. -/
def reportOf (d : Dialect) (frame : SseFrame) (v : Json) : Option Report :=
  match d with
  | .anthropicMessages =>
    if kind frame v = some "message_start".toList then
      (Json.present (v.pointer ["message", "usage"])).map .start
    else if kind frame v = some "message_delta".toList then
      (Json.present (v.get "usage")).map .delta
    else none
  | .openAiChat => (Json.present (v.get "usage")).map fun u => .total u true
  | .openAiResponses =>
    if kind frame v = some "response.completed".toList then
      (responseUsage v).map fun u => .total u true
    else if kind frame v = some "response.failed".toList ∨
        kind frame v = some "response.incomplete".toList then
      (responseUsage v).map fun u => .total u false
    else if (v.get "object").bind Json.asStr = some "response".toList then
      (Json.present (v.get "usage")).map fun u => .total u true
    else none

def reported (d : Dialect) (frame : SseFrame) : Option Report :=
  (read frame).bind (reportOf d frame)

/-- The reports of a stream. -/
def reports (d : Dialect) (frames : List SseFrame) : List Report := frames.filterMap (reported d)

/-- A `message_delta` with a usage that is null. -/
def nullDelta (d : Dialect) (frame : SseFrame) : Bool :=
  d = .anthropicMessages && (read frame).any fun v =>
    decide (kind frame v = some "message_delta".toList) && (v.get "usage").any Json.isNull

end Parser

end Meter

/-! ## One frame -/

namespace Usage

theorem takePrompt_eq (usage : Usage) (u : Json) : usage.takePrompt u = { usage with
    input := usage.input + u.count "input_tokens"
    cacheRead := usage.cacheRead + u.count "cache_read_input_tokens"
    cacheWrite5m := usage.cacheWrite5m + u.cacheWrites.1
    cacheWrite1h := usage.cacheWrite1h + u.cacheWrites.2 } := by
  unfold takePrompt Json.cacheWrites
  cases u.countAt ["cache_creation", "ephemeral_5m_input_tokens"] <;>
    cases u.countAt ["cache_creation", "ephemeral_1h_input_tokens"] <;> simp

theorem takeAnthropic_eq (usage : Usage) (u : Json) (delta : Bool) :
    usage.takeAnthropic u delta = { if delta then usage else usage.takePrompt u with
      output := if u.count "output_tokens" > 0 then u.count "output_tokens" else usage.output
      reasoning :=
        (u.countAt ["output_tokens_details", "thinking_tokens"]).getD usage.reasoning } := by
  have kept : (if delta then usage else usage.takePrompt u).output = usage.output ∧
      (if delta then usage else usage.takePrompt u).reasoning = usage.reasoning := by
    cases delta <;> simp [takePrompt_eq]
  unfold takeAnthropic
  generalize (if delta then usage else usage.takePrompt u) = start at kept
  obtain ⟨output, reasoning⟩ := kept
  rw [← output, ← reasoning]
  cases u.countAt ["output_tokens_details", "thinking_tokens"] <;>
    by_cases more : u.count "output_tokens" > 0 <;> simp [more]

/-- A null usage says nothing. -/
theorem takeAnthropic_null (usage : Usage) (delta : Bool) :
    usage.takeAnthropic .null delta = usage := by
  have count : ∀ key, Json.null.count key = 0 := fun _ => rfl
  have prompt : usage.takePrompt .null = usage := by
    have writes : Json.null.cacheWrites = (0, 0) := rfl
    simp [takePrompt_eq, count, writes]
  have details : Json.null.countAt ["output_tokens_details", "thinking_tokens"] = none := rfl
  rw [takeAnthropic_eq, prompt, count, details]
  cases delta <;> rfl

/-- What a report does to the usage of a meter. -/
def take (d : Dialect) (usage : Usage) (r : Report) : Usage :=
  match d, r with
  | .anthropicMessages, .start u => usage.takeAnthropic u false
  | .anthropicMessages, .delta u => usage.takeAnthropic u true
  | .openAiChat, .total u _ => usage.takeOpenai u
  | .openAiResponses, .total u _ => usage.takeResponses u
  | _, _ => usage

end Usage

namespace Meter

/-- What a report, if there is one, does to a meter. -/
def absorb (m : Meter) (r : Option Report) : Meter := { m with
  usage := (r.map (m.usage.take m.dialect)).getD m.usage
  sawTerminal := m.sawTerminal || r.any Report.terminal }

@[simp] theorem absorb_none (m : Meter) : m.absorb none = m := by
  simp [absorb]

theorem absorb_some (m : Meter) (r : Report) : m.absorb (some r) = { m with
    usage := m.usage.take m.dialect r, sawTerminal := m.sawTerminal || r.terminal } := rfl

theorem present_cases (v : Option Json) :
    (v = none ∧ Json.present v = none) ∨ (v = some .null ∧ Json.present v = none) ∨
      ∃ u, v = some u ∧ Json.present v = some u ∧ u.isNull = false := by
  cases v with
  | none => exact .inl ⟨rfl, rfl⟩
  | some u => cases u with
    | null => exact .inr (.inl ⟨rfl, rfl⟩)
    | _ => exact .inr (.inr ⟨_, rfl, rfl, rfl⟩)

section Dialects

variable {m : Meter} (frame : SseFrame) (v : Json)

theorem observeOpenai_eq (dialect : m.dialect = .openAiChat) :
    m.observeOpenai v = m.absorb (reportOf .openAiChat frame v) := by
  have flat : (v.get "usage").filter (!·.isNull) = Json.present (v.get "usage") := rfl
  rw [observeOpenai, flat, reportOf]
  cases Json.present (v.get "usage") with
  | none => exact (absorb_none m).symm
  | some u => simp [absorb_some, dialect, Usage.take, Report.terminal]

theorem observeResponses_eq (dialect : m.dialect = .openAiResponses) :
    m.observeResponses frame v = m.absorb (reportOf .openAiResponses frame v) := by
  have flat : (v.get "usage").filter (!·.isNull) = Json.present (v.get "usage") := rfl
  unfold observeResponses reportOf
  simp only [flat]
  split
  · cases responseUsage v with
    | none => exact (absorb_none m).symm
    | some u => simp [absorb_some, dialect, Usage.take, Report.terminal]
  split
  · cases responseUsage v with
    | none => exact (absorb_none m).symm
    | some u => simp [absorb_some, dialect, Usage.take, Report.terminal]
  split
  · cases Json.present (v.get "usage") with
    | none => exact (absorb_none m).symm
    | some u => simp [absorb_some, dialect, Usage.take, Report.terminal]
  · exact (absorb_none m).symm

/-- A `message_delta` is terminal even where its usage is null. -/
theorem observeAnthropic_eq (dialect : m.dialect = .anthropicMessages) :
    m.observeAnthropic frame v = { m.absorb (reportOf .anthropicMessages frame v) with
      sawTerminal := (m.absorb (reportOf .anthropicMessages frame v)).sawTerminal ||
        (decide (kind frame v = some "message_delta".toList) &&
          (v.get "usage").any Json.isNull) } := by
  unfold observeAnthropic reportOf
  split
  · next start =>
    have other : decide (kind frame v = some "message_delta".toList) = false :=
      decide_eq_false (by rw [start]; decide)
    rw [other, Bool.false_and, Bool.or_false]
    rcases present_cases (v.pointer ["message", "usage"]) with ⟨a, b⟩ | ⟨a, b⟩ | ⟨u, a, b, -⟩
    · rw [a] at b ⊢
      rw [b, Option.map_none, absorb_none]
    · rw [a] at b ⊢
      rw [b, Option.map_none, absorb_none]
      simp [Usage.takeAnthropic_null]
    · rw [a] at b ⊢
      rw [b, Option.map_some, absorb_some]
      simp [dialect, Usage.take, Report.terminal]
  split
  · next delta =>
    rw [decide_eq_true delta, Bool.true_and]
    rcases present_cases (v.get "usage") with ⟨a, b⟩ | ⟨a, b⟩ | ⟨u, a, b, given⟩
    · rw [a] at b ⊢
      rw [b, Option.map_none, absorb_none]
      simp
    · rw [a] at b ⊢
      rw [b, Option.map_none, absorb_none]
      simp [Usage.takeAnthropic_null, Json.isNull]
    · rw [a] at b ⊢
      rw [b, Option.map_some, absorb_some]
      simp [dialect, Usage.take, Report.terminal]
  · next other =>
    rw [decide_eq_false other, absorb_none]
    simp

end Dialects

variable [JsonParser]

theorem observe_eq_read (m : Meter) (frame : SseFrame) : m.observe frame =
    match read frame with
    | none => m
    | some v => match m.dialect with
      | .anthropicMessages => m.observeAnthropic frame v
      | .openAiChat => m.observeOpenai v
      | .openAiResponses => m.observeResponses frame v := by
  unfold observe read
  split
  · rfl
  · rfl

/-- A frame does to the meter what it reports, and a null `message_delta` ends the stream. -/
theorem observe_eq (m : Meter) (frame : SseFrame) :
    m.observe frame = { m.absorb (reported m.dialect frame) with
      sawTerminal := (m.absorb (reported m.dialect frame)).sawTerminal ||
        nullDelta m.dialect frame } := by
  rw [observe_eq_read]
  unfold reported nullDelta
  cases read frame with
  | none => simp [absorb]
  | some v =>
    cases dialect : m.dialect with
    | anthropicMessages => simp [observeAnthropic_eq frame v dialect]
    | openAiChat => simp [observeOpenai_eq frame v dialect]
    | openAiResponses => simp [observeResponses_eq frame v dialect]

/-! ## A stream -/

/-- A frame makes the meter complete. -/
def ends (d : Dialect) (frame : SseFrame) : Bool :=
  (reported d frame).any Report.terminal || nullDelta d frame

theorem observeAll_eq (m : Meter) (frames : List SseFrame) : m.observeAll frames = { m with
    usage := (reports m.dialect frames).foldl (Usage.take m.dialect) m.usage
    sawTerminal := m.sawTerminal || frames.any (ends m.dialect) } := by
  induction frames generalizing m with
  | nil => simp [observeAll, reports]
  | cons frame frames ih =>
    have dialect : (m.observe frame).dialect = m.dialect := by rw [observe_eq]; rfl
    show (m.observe frame).observeAll frames = _
    rw [ih, dialect, observe_eq]
    cases found : reported m.dialect frame with
    | none => simp [reports, found, ends, Bool.or_assoc]
    | some r => simp [reports, found, ends, absorb_some, Bool.or_assoc]

end Meter

namespace Usage

theorem lastPositive_concat (counts : List UInt64) (c : UInt64) :
    lastPositive (counts ++ [c]) = if c > 0 then c else lastPositive counts := by
  unfold lastPositive
  by_cases more : 0 < c <;> simp [List.filter_append, more]

theorem lastPresent_concat (counts : List (Option UInt64)) (c : Option UInt64) :
    lastPresent (counts ++ [c]) = c.getD (lastPresent counts) := by
  unfold lastPresent
  cases c <;> simp [List.reduceOption_append]

theorem ofMessages_start (rs : List Report) (u : Json) :
    ofMessages (rs ++ [Report.start u]) = (ofMessages rs).takeAnthropic u false := by
  have started : (rs ++ [Report.start u]).filterMap Report.started =
      rs.filterMap Report.started ++ [u] := List.filterMap_append
  have message : (rs ++ [Report.start u]).filterMap Report.message =
      rs.filterMap Report.message ++ [u] := List.filterMap_append
  rw [takeAnthropic_eq, takePrompt_eq, ofMessages, started, message]
  simp [ofMessages, lastPositive_concat, lastPresent_concat]

theorem ofMessages_delta (rs : List Report) (u : Json) :
    ofMessages (rs ++ [Report.delta u]) = (ofMessages rs).takeAnthropic u true := by
  have started : (rs ++ [Report.delta u]).filterMap Report.started =
      rs.filterMap Report.started := by
    rw [List.filterMap_append]
    exact List.append_nil _
  have message : (rs ++ [Report.delta u]).filterMap Report.message =
      rs.filterMap Report.message ++ [u] := List.filterMap_append
  rw [takeAnthropic_eq, ofMessages, started, message]
  simp [ofMessages, lastPositive_concat, lastPresent_concat]

theorem foldl_take_messages (rs : List Report) :
    rs.foldl (take .anthropicMessages) default = ofMessages rs := by
  induction rs using List.reverseRecOn with
  | nil => rfl
  | append_singleton rs r ih =>
    rw [List.foldl_append, List.foldl_cons, List.foldl_nil, ih]
    cases r with
    | start u => exact (ofMessages_start rs u).symm
    | delta u => exact (ofMessages_delta rs u).symm
    | total u final =>
      have started : (rs ++ [Report.total u final]).filterMap Report.started =
          rs.filterMap Report.started := by
        rw [List.filterMap_append]
        exact List.append_nil _
      have message : (rs ++ [Report.total u final]).filterMap Report.message =
          rs.filterMap Report.message := by
        rw [List.filterMap_append]
        exact List.append_nil _
      rw [ofMessages, ofMessages, started, message]
      rfl

/-- Assignments of all fields leave what the last one assigned. -/
theorem foldl_take_totals {d : Dialect} {assign : Usage → Json → Usage}
    (others : ∀ (usage : Usage) (r : Report), r.totals = none → usage.take d r = usage)
    (total : ∀ (usage : Usage) (u : Json) (final : Bool),
      usage.take d (.total u final) = assign usage u)
    (all : ∀ u v, assign (assign default u) v = assign default v) (rs : List Report) :
    rs.foldl (take d) default =
      ((rs.filterMap Report.totals).getLast?.map (assign default)).getD default := by
  induction rs using List.reverseRecOn with
  | nil => rfl
  | append_singleton rs r ih =>
    rw [List.foldl_append, List.foldl_cons, List.foldl_nil, ih]
    cases r with
    | start u | delta u =>
      rw [others _ _ rfl, List.filterMap_append]
      simp [Report.totals]
    | total u final =>
      rw [total, List.filterMap_append]
      have last : [Report.total u final].filterMap Report.totals = [u] := rfl
      rw [last, List.getLast?_concat, Option.map_some, Option.getD_some]
      cases (rs.filterMap Report.totals).getLast? with
      | none => rfl
      | some v => exact all v u

/-- The usage of a meter is what the reports come to. -/
theorem foldl_take (d : Dialect) (rs : List Report) :
    rs.foldl (take d) default = ofReports d rs := by
  cases d with
  | anthropicMessages => exact foldl_take_messages rs
  | openAiChat =>
    refine foldl_take_totals (fun usage r none_ => ?_) (fun _ _ _ => rfl) (fun _ _ => rfl) rs
    cases r with
    | start | delta => rfl
    | total => cases none_
  | openAiResponses =>
    refine foldl_take_totals (fun usage r none_ => ?_) (fun _ _ _ => rfl) (fun _ _ => rfl) rs
    cases r with
    | start | delta => rfl
    | total => cases none_

/-- Of counts that never decrease the last one is the last positive one, or all are zero. -/
theorem lastPositive_of_sorted {counts : List (Option UInt64)}
    (sorted : counts.reduceOption.Pairwise (· ≤ ·)) :
    lastPositive (counts.map (·.getD 0)) = lastPresent counts := by
  induction counts using List.reverseRecOn with
  | nil => rfl
  | append_singleton counts c ih =>
    rw [List.reduceOption_append, List.pairwise_append] at sorted
    obtain ⟨before, -, below⟩ := sorted
    rw [List.map_append, List.map_singleton, lastPositive_concat, lastPresent_concat, ih before]
    cases c with
    | none => rfl
    | some c =>
      show (if c > 0 then c else lastPresent counts) = c
      split
      · rfl
      · next zero =>
        -- Nothing before it is positive either.
        obtain rfl : c = 0 := by simpa using zero
        unfold lastPresent
        cases last : counts.reduceOption.getLast? with
        | none => rfl
        | some l =>
          have small : l ≤ 0 := below l (List.mem_of_getLast? last) 0 (by simp [List.reduceOption])
          exact UInt64.le_zero_iff.mp small

theorem saturatingSub_add {a b : UInt64} (h : b ≤ a) :
    (saturatingSub a b).toNat + b.toNat = a.toNat := by
  rw [saturatingSub, if_pos h, UInt64.toNat_sub_of_le a b h]
  exact Nat.sub_add_cancel (UInt64.le_iff_toNat_le.mp h)

/-- The cached tokens and the rest make up the prompt. -/
theorem take_total_prompt {d : Dialect} (openai : d ≠ .anthropicMessages) {u : Json} {final : Bool}
    (cached : d.cachedTokens u ≤ d.promptTokens u) :
    ((default : Usage).take d (.total u final)).input.toNat +
      ((default : Usage).take d (.total u final)).cacheRead.toNat = (d.promptTokens u).toNat := by
  cases d with
  | anthropicMessages => exact absurd rfl openai
  | openAiChat => exact saturatingSub_add cached
  | openAiResponses => exact saturatingSub_add cached

theorem ofReports_of_last {d : Dialect} (openai : d ≠ .anthropicMessages) {rs : List Report}
    {u : Json} {final : Bool} (last : rs.getLast? = some (.total u final)) :
    ofReports d rs = (default : Usage).take d (.total u final) := by
  obtain ⟨before, rfl⟩ := List.getLast?_eq_some_iff.mp last
  have totals : ((before ++ [Report.total u final]).filterMap Report.totals).getLast? = some u := by
    rw [List.filterMap_append]
    exact List.getLast?_concat
  cases d with
  | anthropicMessages => exact absurd rfl openai
  | openAiChat | openAiResponses =>
    rw [ofReports, totals]
    rfl

end Usage

/-! ## What a meter is for -/

theorem Json.count_eq (v : Json) (key : String) : v.count key = (v.countAt [key]).getD 0 := by
  rw [count, countAt, pointer, List.foldlM_cons]
  cases v.get key <;> rfl

/-- The output counts of these usages never decrease. -/
def Cumulative (us : List Json) : Prop :=
  (us.map (·.countAt ["output_tokens"])).reduceOption.Pairwise (· ≤ ·)

namespace Usage

/-- The usage of a message that starts once. -/
theorem ofMessages_message {u : Json} {ds : List Json} (grows : Cumulative (u :: ds)) :
    ofMessages (.start u :: ds.map .delta) =
      { input := u.count "input_tokens"
        output := lastPresent ((u :: ds).map (·.countAt ["output_tokens"]))
        cacheWrite5m := u.cacheWrites.1
        cacheWrite1h := u.cacheWrites.2
        cacheRead := u.count "cache_read_input_tokens"
        reasoning := lastPresent ((u :: ds).map
          (·.countAt ["output_tokens_details", "thinking_tokens"])) } := by
  have started : (Report.start u :: ds.map Report.delta).filterMap Report.started = [u] := by
    rw [List.filterMap_cons_some (show Report.started (.start u) = some u from rfl),
      List.filterMap_map]
    simp [Function.comp_def, Report.started]
  have message : (Report.start u :: ds.map Report.delta).filterMap Report.message = u :: ds := by
    rw [List.filterMap_cons_some (show Report.message (.start u) = some u from rfl),
      List.filterMap_map]
    simp [Function.comp_def, Report.message]
  have output := lastPositive_of_sorted grows
  rw [List.map_map] at output
  have counts : (fun v : Json => v.count "output_tokens") =
      (·.getD 0) ∘ fun v : Json => v.countAt ["output_tokens"] :=
    funext fun v => v.count_eq "output_tokens"
  rw [ofMessages, started, message, counts, output]
  simp

end Usage

namespace Meter

section Streams

variable [JsonParser] (d : Dialect) (frames : List SseFrame)

/-- The meter says what the frames report. -/
structure Faithful : Prop where
  usage : ((new d).observeAll frames).usage = Usage.ofReports d (reports d frames)
  /-- It is complete exactly with a terminal report. -/
  complete : ((new d).observeAll frames).isComplete = (reports d frames).any Report.terminal
  /-- Frames that report nothing make no difference, wherever they stand. -/
  inserted : ∀ base, base.Sublist frames → reports d base = reports d frames →
    (new d).observeAll base = (new d).observeAll frames
  /-- In the OpenAI dialects the last report alone counts. -/
  total : ∀ u final, d ≠ .anthropicMessages →
    (reports d frames).getLast? = some (.total u final) →
    ((new d).observeAll frames).usage = (default : Usage).take d (.total u final) ∧
      (d.cachedTokens u ≤ d.promptTokens u →
        ((new d).observeAll frames).usage.input.toNat +
          ((new d).observeAll frames).usage.cacheRead.toNat = (d.promptTokens u).toNat)
  /-- A message that starts once has the prompt side of its start and the last of its outputs. -/
  message : ∀ u ds, d = .anthropicMessages → reports d frames = .start u :: ds.map .delta →
    Cumulative (u :: ds) → ((new d).observeAll frames).usage =
      { input := u.count "input_tokens"
        output := Usage.lastPresent ((u :: ds).map (·.countAt ["output_tokens"]))
        cacheWrite5m := u.cacheWrites.1
        cacheWrite1h := u.cacheWrites.2
        cacheRead := u.count "cache_read_input_tokens"
        reasoning := Usage.lastPresent ((u :: ds).map
          (·.countAt ["output_tokens_details", "thinking_tokens"])) }

/-- With a `message_delta` whose usage is null there is a terminal report. -/
def Settled : Prop :=
  (∃ frame ∈ frames, nullDelta d frame) → (reports d frames).any Report.terminal

theorem observeAll_new : (new d).observeAll frames =
    ⟨d, Usage.ofReports d (reports d frames), frames.any (ends d)⟩ := by
  rw [observeAll_eq, ← Usage.foldl_take]
  rfl

theorem any_ends : frames.any (ends d) =
    ((reports d frames).any Report.terminal || frames.any (nullDelta d)) := by
  induction frames with
  | nil => rfl
  | cons frame frames ih =>
    rw [List.any_cons, ih, ends]
    cases found : reported d frame with
    | none => simp [reports, found, Bool.or_left_comm]
    | some r => simp [reports, found, Bool.or_assoc, Bool.or_left_comm]

variable {d frames}

theorem any_ends_of_settled (settled : Settled d frames) :
    frames.any (ends d) = (reports d frames).any Report.terminal := by
  rw [any_ends]
  cases terminal : (reports d frames).any Report.terminal with
  | true => rfl
  | false =>
    rw [Bool.false_or]
    apply Bool.eq_false_iff.mpr
    intro null
    obtain ⟨frame, mem, h⟩ := List.any_eq_true.mp null
    exact Bool.noConfusion (terminal.symm.trans (settled ⟨frame, mem, h⟩))

theorem settled_of_sublist {base : List SseFrame} (part : base.Sublist frames)
    (same : reports d base = reports d frames) (settled : Settled d frames) :
    Settled d base := by
  rintro ⟨frame, mem, null⟩
  rw [same]
  exact settled ⟨frame, part.subset mem, null⟩

/-- The meter says what the frames report, if and only if no null usage is taken for the last
one. -/
theorem faithful_iff : Faithful d frames ↔ Settled d frames := by
  constructor
  · rintro said ⟨frame, mem, null⟩
    rw [← said.complete, observeAll_new]
    exact List.any_eq_true.mpr ⟨frame, mem, by rw [ends, null, Bool.or_true]⟩
  · intro settled
    refine ⟨?usage, ?complete, fun base part same => ?inserted, fun u final openai last => ?total,
      fun u ds anthropic shape grows => ?message⟩
    case usage => rw [observeAll_new]
    case complete =>
      rw [observeAll_new]
      exact any_ends_of_settled settled
    case inserted =>
      have before := any_ends_of_settled (settled_of_sublist part same settled)
      rw [observeAll_new, observeAll_new, before, any_ends_of_settled settled, same]
    case total =>
      rw [observeAll_new, Usage.ofReports_of_last openai last]
      exact ⟨rfl, Usage.take_total_prompt openai⟩
    case message =>
      rw [observeAll_new, shape, anthropic]
      exact Usage.ofMessages_message grows

end Streams

section Cases

/-- The data of a frame that says nothing about usage. -/
def nullUsage : List Char :=
  "\x7b\"type\":\"message_delta\",\"usage\":null\x7d".toList

/-- The parser on it. -/
@[reducible] def nullUsages : JsonParser where
  fromStr t := if t = nullUsage then
    some (.object [("type".toList, .string "message_delta".toList), ("usage".toList, .null)])
  else none

attribute [local instance] nullUsages

/-- Nothing is reported, and the meter is complete. -/
theorem not_faithful_nullUsage : ¬ Faithful .anthropicMessages [⟨none, nullUsage⟩] :=
  fun said => absurd said.complete (by decide +kernel)

end Cases

end Meter

end Tailfin
