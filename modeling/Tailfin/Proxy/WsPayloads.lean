import Mathlib.Data.List.Chain
import Tailfin.Proxy.WsMeter
import Tailfin.Wire.JsonBody
import Tailfin.Wire.Reports
import Tailfin.Wire.SseFormat

/-!
# JSON and event streams on one WebSocket

Each payload goes to the SSE decoder, and an object goes to the meter besides. The decoder makes no
frame of an object, but keeps what stands behind its last newline. In front of the next payload
that hides a first line with a field, and at the end of the connection `finish` shows it to the
meter once more: with an Anthropic `message_start` the prompt counts are added a second time.
-/

namespace Tailfin

open Text JsonText

/-! ## Payloads -/

/-- One JSON object, or whole frames and the lines that say them. -/
inductive WsPayload where
  | json (t : List Char)
  | events (frames : List SseFrame) (lines : List StreamLine)

namespace WsPayload

def text : WsPayload → List Char
  | json t => t
  | events _ lines => lines.flatMap StreamLine.text

def bytes (p : WsPayload) : List UInt8 := Utf8.encode p.text

/-- What a meter is to observe of it. -/
def frames : WsPayload → List SseFrame
  | json t => [⟨none, t⟩]
  | events frames _ => frames

def Valid [JsonParser] : WsPayload → Prop
  | json t => ∃ members, JsonParser.fromStr t = some (.object members)
  | events frames lines => frames ≠ [] ∧ EventStream frames lines

/-- It leaves an unfinished line. -/
def Unfinished (p : WsPayload) : Prop := p.text.getLast? ≠ some '\n'

end WsPayload

/-- What the lines say of their first frame without the first of its fields. -/
def headless (lines : List StreamLine) : List SseFrame :=
  SseFrame.ofFields (lines.tail.takeWhile fun l => l.field ≠ .blank)

namespace Meter

variable [JsonParser]

/-- No meter can tell them apart. -/
def SameTo (d : Dialect) (frames frames' : List SseFrame) : Prop :=
  ∀ m : Meter, m.dialect = d → m.observeAll frames = m.observeAll frames'

end Meter

namespace WsPayload

variable [JsonParser]

/-- It bears an unfinished line in front of it: it is an object, its first line is no field, or its
first frame comes to the same without that line. -/
def Bears (d : Dialect) : WsPayload → Prop
  | json _ => True
  | events frames lines => (∀ l ∈ lines.head?, l.field.between = true) ∨
      Meter.SameTo d (headless lines) (frames.take 1)

/-- `q` may come directly behind `p`. -/
def Follows (d : Dialect) (p q : WsPayload) : Prop := p.Unfinished → q.Bears d

end WsPayload

/-- What stands behind the last newline of all payloads. -/
def lastLine (ps : List WsPayload) : List Char := (drainLines (ps.flatMap WsPayload.text)).2

/-- The prompt tokens that an Anthropic usage reports. -/
def Json.promptCounts (u : Json) : List UInt64 :=
  [u.count "input_tokens", u.count "cache_read_input_tokens", u.cacheWrites.1, u.cacheWrites.2]

section Claims

variable [JsonParser]

/-- What is left at the end starts a message and counts prompt tokens. -/
def CountedTwice (d : Dialect) (ps : List WsPayload) : Prop :=
  ∃ u, Meter.reported d ⟨none, trim (lastLine ps)⟩ = some (.start u) ∧
    ∃ c ∈ u.promptCounts, c ≠ 0

/-- A meter that observes each object once and each frame once. -/
def eachOnce (d : Dialect) (ps : List WsPayload) : Meter :=
  (Meter.new d).observeAll (ps.flatMap WsPayload.frames)

/-- What the relay records of a connection is what that meter has come to. -/
def CountsOnce (d : Dialect) (chunks : List (List UInt8)) (ps : List WsPayload) : Prop :=
  wsMetered (some d) chunks = .ok ((eachOnce d ps).usage, (eachOnce d ps).isComplete)

end Claims

/-! ## What the decoder keeps -/

/-- What payloads may leave in the decoder. -/
structure Held (buf : List Char) : Prop where
  unbroken : '\n' ∉ buf
  /-- It is between two tokens at both ends. -/
  scanned : ∃ k, scanAll (.between, k) buf = some (.between, 0)

theorem Held.nil : Held [] := ⟨List.not_mem_nil, 0, rfl⟩

theorem Held.push {buf t : List Char} (held : Held buf) (object : Grammar (.element true) t) :
    Held (drainLines (buf ++ t)).2 := by
  obtain ⟨k, scanned⟩ := held.scanned
  have both : scanAll (.between, k) (buf ++ t) = some (.between, 0) := by
    rw [scanAll_append, scanned, Option.bind_some, object.closes]
  exact ⟨newline_notMem_rest _, scanAll_rest both⟩

namespace SseDecoder

/-- No frame is under way. -/
def keeping (buf : List Char) : SseDecoder := { new with buf := buf }

theorem push_object {buf t : List Char} (held : Held buf) (object : Grammar (.element true) t) :
    (keeping buf).push (Utf8.encode t) = ([], keeping (drainLines (buf ++ t)).2) := by
  obtain ⟨k, scanned⟩ := held.scanned
  have both : scanAll (.between, k) (buf ++ t) = some (.between, 0) := by
    rw [scanAll_append, scanned, Option.bind_some, object.closes]
  rw [push, Utf8.lossy_encode]
  exact readLines_of_scanned both _ rfl

/-- A line behind what is held is no field. -/
theorem readLine_behind {buf : List Char} (held : Held buf) (some_ : buf ≠ []) (line : List Char)
    {d : SseDecoder} (idle : d.pending = false) : d.readLine (buf ++ line) = ([], d) := by
  obtain ⟨k, scanned⟩ := held.scanned
  obtain ⟨c, buf, rfl⟩ := List.exists_cons_of_ne_nil some_
  have other : ∀ x, x = 'e' ∨ x = 'd' → x ≠ c := by
    rintro x start rfl
    rw [scanAll_cons, scan_between_eq_none start] at scanned
    cases scanned
  have apart : ∀ x, x = 'e' ∨ x = 'd' → ∀ pre t, stripPrefix (x :: pre) (c :: t) = none := by
    intro x start pre t
    simp [stripPrefix, other x start]
  rw [readLine_eq, readField, List.cons_append, trimEndMatches_cons]
  by_cases empty : trimEndMatches isLineEnd (buf ++ line) = [] ∧ isLineEnd c = true
  · rw [if_pos empty]
    simp only [List.isEmpty_nil, if_true, take, idle, Bool.false_eq_true, if_false]
  · rw [if_neg empty, show "event:".toList = 'e' :: "vent:".toList from rfl,
      show "data:".toList = 'd' :: "ata:".toList from rfl]
    simp only [List.isEmpty_cons, apart _ (.inl rfl), apart _ (.inr rfl), take]
    rfl

/-- The lines of a stream, the first of them behind what is held. -/
theorem drainLines_lines {buf : List Char} (unbroken : '\n' ∉ buf) {l : StreamLine}
    {ls : List StreamLine} (plain : ∀ x ∈ l :: ls, x.field.Plain) :
    drainLines (buf ++ (l :: ls).flatMap StreamLine.text) =
      ((buf ++ l.raw) :: ls.map StreamLine.raw, []) := by
  have whole : ∀ r ∈ (buf ++ l.raw) :: ls.map StreamLine.raw, '\n' ∉ r := by
    simp only [List.forall_mem_cons, List.forall_mem_map, List.mem_append, not_or] at plain ⊢
    exact ⟨⟨unbroken, StreamLine.newline_notMem_raw plain.1⟩,
      fun x hx => StreamLine.newline_notMem_raw (plain.2 x hx)⟩
  have text : buf ++ (l :: ls).flatMap StreamLine.text =
      ((buf ++ l.raw) :: ls.map StreamLine.raw).flatMap ended ++ [] := by
    have rest : ls.flatMap StreamLine.text = (ls.map StreamLine.raw).flatMap ended := by
      rw [List.flatMap_map]
      rfl
    rw [List.flatMap_cons, List.flatMap_cons, rest]
    simp [StreamLine.text, ended]
  rw [text, drainLines_ended whole, drainLines_nil, List.append_nil]

theorem push_lines {buf : List Char} (unbroken : '\n' ∉ buf) {l : StreamLine}
    {ls : List StreamLine} (plain : ∀ x ∈ l :: ls, x.field.Plain) :
    (keeping buf).push (Utf8.encode ((l :: ls).flatMap StreamLine.text)) =
      (keeping []).readLines ((buf ++ l.raw) :: ls.map StreamLine.raw) := by
  rw [push, Utf8.lossy_encode, pushText, show (keeping buf).buf = buf from rfl,
    drainLines_lines unbroken plain]
  rfl

/-- Without its first field, the first frame of a stream is what the other fields say. -/
theorem readLines_headless {frames : List SseFrame} {l : StreamLine} {ls : List StreamLine}
    (encodes : Encodes frames (l :: ls)) (plain : ∀ x ∈ l :: ls, x.field.Plain)
    (field : l.field.between = false) {d : SseDecoder} (idle : d.pending = false) :
    d.readLines (ls.map StreamLine.raw) = (headless (l :: ls) ++ frames.drop 1, d) := by
  generalize whole : l :: ls = all at encodes
  cases encodes with
  | done between =>
    rw [between l (whole ▸ List.mem_cons_self)] at field
    cases field
  | @frame f frames before lines rest crlf between said later =>
    obtain rfl : before = [] := by
      cases before with
      | nil => rfl
      | cons b before =>
        obtain ⟨rfl, -⟩ := List.cons.inj whole
        rw [between l (by simp)] at field
        cases field
    cases lines with
    | nil =>
      obtain ⟨rfl, -⟩ := List.cons.inj whole
      cases field
    | cons first fields =>
      obtain ⟨rfl, behind⟩ : l = first ∧ ls = fields ++ ⟨.blank, crlf⟩ :: rest :=
        List.cons.inj whole
      subst behind
      have open_ : ∀ x ∈ fields, x.field ≠ .blank :=
        fun x hx => said.open_ x (List.mem_cons_of_mem _ hx)
      have until_ : headless (l :: (fields ++ ⟨.blank, crlf⟩ :: rest)) =
          SseFrame.ofFields fields := by
        rw [headless, List.tail_cons,
          List.takeWhile_append_of_pos fun x hx => decide_eq_true (open_ x hx),
          List.takeWhile_cons_of_neg (by simp), List.append_nil]
      simp only [List.mem_append, List.mem_cons] at plain
      have frame := readLines_ofFields (fun x hx => plain x (.inr (.inl hx))) open_ crlf idle
      have shape : fields ++ ⟨.blank, crlf⟩ :: rest =
          fields ++ [(⟨.blank, crlf⟩ : StreamLine)] ++ rest := by simp
      rw [List.nil_append, List.cons_append, until_, shape, List.map_append, readLines_append,
        frame, readLines_encodes later (fun x hx => plain x (.inr (.inr (.inr hx)))) idle]
      rfl

end SseDecoder

theorem Encodes.ne_nil {frames : List SseFrame} {lines : List StreamLine}
    (encodes : Encodes frames lines) (some_ : frames ≠ []) : lines ≠ [] := by
  cases encodes with
  | done => exact absurd rfl some_
  | frame => simp

/-- A stream does not start like an object. -/
theorem head?_trim_stream {lines : List StreamLine} :
    (trim (lines.flatMap StreamLine.text)).head? ≠ some '{' := by
  have starts : ∀ {c : Char}, isWhitespace c = false → c ≠ '{' → ∀ t,
      (trim (c :: t)).head? ≠ some '{' := by
    intro c solid other t
    rw [trim_cons solid]
    simpa using other
  induction lines with
  | nil => decide
  | cons l lines ih =>
    obtain ⟨field, crlf⟩ := l
    cases field with
    | blank =>
      have white : ∀ c ∈ StreamLine.text ⟨.blank, crlf⟩, isWhitespace c = true := by
        cases crlf <;> exact List.all_iff_forall_prop.mp (by decide)
      rw [List.flatMap_cons, trim_prepend white]
      exact ih
    | event | data | comment | id | retry => exact starts (by decide) (by decide) _

/-- A payload that ends in a newline leaves nothing. -/
theorem WsPayload.unfinished_of_left {p : WsPayload} {buf : List Char}
    (left : (drainLines (buf ++ p.text)).2 ≠ []) : p.Unfinished := by
  intro newline
  obtain ⟨front, text⟩ := List.getLast?_eq_some_iff.mp newline
  have ends : buf ++ p.text = buf ++ front ++ '\n' :: [] := by rw [text, List.append_assoc]
  apply left
  rw [ends, rest_append (by simp)]
  rfl

theorem lastLine_concat (ps : List WsPayload) (p : WsPayload) :
    lastLine (ps ++ [p]) = (drainLines (lastLine ps ++ p.text)).2 := by
  rw [lastLine, List.flatMap_append, List.flatMap_singleton, drainLines_append]
  rfl

/-- What is left of some payloads the last of them has left. -/
theorem unfinished_of_lastLine {ps : List WsPayload} (left : lastLine ps ≠ []) :
    ∃ p ∈ ps.getLast?, p.Unfinished := by
  induction ps using List.reverseRecOn with
  | nil => exact absurd rfl left
  | append_singleton ps p ih =>
    rw [lastLine_concat] at left
    exact ⟨p, by simp, WsPayload.unfinished_of_left left⟩

/-! ## What a meter makes of an object -/

/-- Observed again, the start of a message adds its prompt counts a second time. -/
theorem Usage.takeAnthropic_twice_iff (usage : Usage) (u : Json) :
    (usage.takeAnthropic u false).takeAnthropic u false = usage.takeAnthropic u false ↔
      ∀ c ∈ u.promptCounts, c = 0 := by
  have output : ∀ c o : UInt64, (if c > 0 then c else if c > 0 then c else o) =
      if c > 0 then c else o := by
    intro c o
    split <;> rfl
  have reasoning : ∀ (c : Option UInt64) o, c.getD (c.getD o) = c.getD o := by
    intro c o
    cases c <;> rfl
  simp only [takeAnthropic_eq, takePrompt_eq, Bool.false_eq_true, if_false, output, reasoning,
    Usage.mk.injEq, add_eq_left, Json.promptCounts, List.forall_mem_cons, true_and, and_true]
  constructor
  · rintro ⟨input, w5m, w1h, cached⟩
    exact ⟨input, cached, w5m, w1h, List.forall_mem_nil _⟩
  · rintro ⟨input, cached, w5m, w1h, -⟩
    exact ⟨input, w5m, w1h, cached⟩

/-- Observed again, any other report changes nothing. -/
theorem Usage.take_twice_iff (d : Dialect) (usage : Usage) (r : Report) :
    (usage.take d r).take d r = usage.take d r ↔
      ¬ (d = .anthropicMessages ∧ ∃ u, r = .start u ∧ ∃ c ∈ u.promptCounts, c ≠ 0) := by
  cases d with
  | openAiChat | openAiResponses =>
    cases r <;> simp [take, takeOpenai, takeResponses, takeTotals]
  | anthropicMessages =>
    cases r with
    | start u => simpa [take] using takeAnthropic_twice_iff usage u
    | delta u =>
      have again : (usage.takeAnthropic u true).takeAnthropic u true =
          usage.takeAnthropic u true := by
        simp only [takeAnthropic_eq, if_true]
        cases u.countAt ["output_tokens_details", "thinking_tokens"] <;> split <;> simp
      simp [take, again]
    | total u final => simp [take]

section Objects

variable [JsonParser]

namespace Meter

theorem read_of_brace {t : List Char} (brace : '{' ∈ t) (event : Option (List Char)) :
    read ⟨event, t⟩ = JsonParser.fromStr t := by
  apply if_neg
  intro done
  have done : t = "[DONE]".toList := done
  rw [done] at brace
  exact absurd brace (by decide)

/-- Without an event only the value counts. -/
theorem observe_congr {t t' : List Char} (same : read ⟨none, t⟩ = read ⟨none, t'⟩) (m : Meter) :
    m.observe ⟨none, t⟩ = m.observe ⟨none, t'⟩ := by
  rw [observe_eq_read, observe_eq_read, same]
  rfl

theorem observe_dialect (m : Meter) (frame : SseFrame) : (m.observe frame).dialect = m.dialect := by
  rw [observe_eq]
  rfl

theorem observeAll_dialect (m : Meter) (frames : List SseFrame) :
    (m.observeAll frames).dialect = m.dialect := by
  rw [observeAll_eq]

/-- A value that is no object has no members to look up. -/
theorem reported_of_noObject {t : List Char}
    (other : ∀ members, JsonParser.fromStr t ≠ some (.object members)) (d : Dialect) :
    reported d ⟨none, t⟩ = none ∧ nullDelta d ⟨none, t⟩ = false := by
  unfold reported nullDelta
  cases value : read ⟨none, t⟩ with
  | none => simp
  | some v =>
    have parsed : JsonParser.fromStr t = some v := by
      unfold read at value
      exact (Option.ite_none_left_eq_some.mp value).2
    have nothing : ∀ key, v.get key = none := by
      intro key
      cases v with
      | object members => exact absurd parsed (other members)
      | _ => rfl
    have kinds : kind ⟨none, t⟩ v = none := by rw [kind, nothing]; rfl
    have unreported : reportOf d ⟨none, t⟩ v = none := by
      unfold reportOf
      cases d with
      | openAiChat => rw [nothing]; rfl
      | anthropicMessages | openAiResponses =>
        simp only [kinds, nothing, reduceCtorEq, if_false, or_self, Option.bind_none]
    have last : (decide (kind ⟨none, t⟩ v = some "message_delta".toList) &&
        (v.get "usage").any Json.isNull) = false := by
      rw [nothing, Option.any_none, Bool.and_false]
    exact ⟨unreported, by rw [Option.any_some, last, Bool.and_false]⟩

theorem observe_of_noObject {t : List Char}
    (other : ∀ members, JsonParser.fromStr t ≠ some (.object members)) (m : Meter) :
    m.observe ⟨none, t⟩ = m := by
  obtain ⟨nothing, never⟩ := reported_of_noObject other m.dialect
  rw [observe_eq, nothing, never, absorb_none, Bool.or_false]

end Meter

theorem Meter.anthropic_of_start {d : Dialect} {frame : SseFrame} {u : Json}
    (start : reported d frame = some (.start u)) : d = .anthropicMessages := by
  obtain ⟨v, -, report⟩ := Option.bind_eq_some_iff.mp start
  unfold reportOf at report
  cases d with
  | anthropicMessages => rfl
  | openAiChat => simp at report
  | openAiResponses =>
    simp only at report
    split at report
    · simp at report
    split at report
    · simp at report
    split at report
    · simp at report
    · cases report

/-- A meter takes a frame once or twice alike, unless it starts a message with prompt counts. -/
theorem Meter.observe_twice_iff (m : Meter) (frame : SseFrame) :
    (((m.observe frame).observe frame).usage = (m.observe frame).usage ∧
      ((m.observe frame).observe frame).sawTerminal = (m.observe frame).sawTerminal) ↔
      ¬ ∃ u, reported m.dialect frame = some (.start u) ∧ ∃ c ∈ u.promptCounts, c ≠ 0 := by
  have terminal : ((m.observe frame).observe frame).sawTerminal =
      (m.observe frame).sawTerminal := by
    rw [observe_eq (m.observe frame), observe_dialect, observe_eq m]
    cases found : reported m.dialect frame <;>
      simp [absorb, Bool.or_comm, Bool.or_left_comm]
  rw [and_iff_left terminal, observe_eq (m.observe frame), observe_dialect, observe_eq m]
  cases found : reported m.dialect frame with
  | none => simp [absorb]
  | some r =>
    simp only [absorb_some, Usage.take_twice_iff, Option.some_inj]
    rw [not_iff_not]
    constructor
    · rintro ⟨-, start⟩
      exact start
    · rintro ⟨u, rfl, counts⟩
      exact ⟨anthropic_of_start found, u, rfl, counts⟩

/-- Behind what is held, a stream is decoded to frames that come to the same. -/
theorem push_stream {buf : List Char} (held : Held buf) {frames : List SseFrame} {l : StreamLine}
    {ls : List StreamLine} (stream : EventStream frames (l :: ls)) {m : Meter}
    (bears : buf ≠ [] → (WsPayload.events frames (l :: ls)).Bears m.dialect) :
    ∃ shown, (SseDecoder.keeping buf).push (Utf8.encode ((l :: ls).flatMap StreamLine.text)) =
      (shown, SseDecoder.keeping []) ∧ m.observeAll shown = m.observeAll frames := by
  obtain ⟨plain, encodes⟩ := stream
  have idle : (SseDecoder.keeping []).pending = false := rfl
  have pushed := SseDecoder.push_lines held.unbroken plain
  by_cases empty : buf = []
  · subst empty
    exact ⟨frames, pushed.trans (SseDecoder.readLines_encodes encodes plain idle), rfl⟩
  rw [pushed, SseDecoder.readLines, SseDecoder.readLine_behind held empty l.raw idle]
  cases field : l.field.between with
  | true =>
    have read := SseDecoder.readLines_encodes encodes plain idle
    rw [List.map_cons, SseDecoder.readLines,
      SseDecoder.readLine_between (plain l (by simp)) field idle] at read
    exact ⟨frames, read, rfl⟩
  | false =>
    have same := ((bears empty).resolve_left fun between =>
      Bool.noConfusion (field.symm.trans (between l rfl))) m rfl
    rw [SseDecoder.readLines_headless encodes plain field idle]
    refine ⟨_, rfl, ?_⟩
    rw [List.nil_append, Meter.observeAll_append, same, ← Meter.observeAll_append,
      List.take_append_drop]

variable (laws : JsonParser.Lawful)

include laws

/-- The text of an object is its braces and what is between them, with white space around. -/
theorem object_text {t : List Char} {members : List (List Char × Json)}
    (parsed : JsonParser.fromStr t = some (.object members)) :
    ∃ a body b, Spaces a ∧ Spaces b ∧ Passes body ∧ t = a ++ '{' :: (body ++ '}' :: b) ∧
      trim t = '{' :: (body ++ ['}']) := by
  have grammar : Grammar (.element true) t := laws.grammar _ _ parsed
  obtain ⟨a, body, b, ha, hb, passes, text⟩ := grammar.exists_body
  have trimmed := trim_of_solid (isWhitespace_of_spaces ha) (isWhitespace_of_spaces hb) body
    (c := '{') (d := '}') (by decide) (by decide)
  refine ⟨a, body, b, ha, hb, passes, text, ?_⟩
  rw [← trimmed, text]
  simp

theorem read_trim {t : List Char} {members : List (List Char × Json)}
    (parsed : JsonParser.fromStr t = some (.object members)) :
    Meter.read ⟨none, trim t⟩ = Meter.read ⟨none, t⟩ := by
  obtain ⟨a, body, b, ha, hb, -, text, trimmed⟩ := object_text laws parsed
  have shape : t = a ++ (trim t ++ b) := by
    rw [trimmed]
    simpa using text
  rw [Meter.read_of_brace (by simp [trimmed]), Meter.read_of_brace (by simp [text])]
  conv_rhs => rw [shape, laws.spaces a _ b ha hb]

/-- An object behind others on one line is not read. -/
theorem not_object_of_filled {q body b : List Char} (filled : ¬ ∀ c ∈ q, isWhitespace c = true)
    (closed : scanAll (.between, 0) q = some (.between, 0)) (hb : Spaces b)
    (members : List (List Char × Json)) :
    JsonParser.fromStr (trim (q ++ '{' :: (body ++ '}' :: b))) ≠ some (.object members) := by
  intro parsed
  have split_ : q = q.takeWhile isWhitespace ++ q.dropWhile isWhitespace :=
    (List.takeWhile_append_dropWhile).symm
  have first := List.head?_dropWhile_not isWhitespace q
  cases rest : q.dropWhile isWhitespace with
  | nil => exact filled (List.dropWhile_eq_nil_iff.mp rest)
  | cons c q' =>
    rw [rest] at first split_
    have solid : isWhitespace c = false := first
    have white : ∀ x ∈ q.takeWhile isWhitespace, isWhitespace x = true :=
      fun x hx => List.mem_takeWhile_imp hx
    generalize q.takeWhile isWhitespace = w at split_ white
    have trimmed : trim (q ++ '{' :: (body ++ '}' :: b)) =
        (c :: q') ++ '{' :: (body ++ ['}']) := by
      have both := trim_of_solid white (isWhitespace_of_spaces hb) (q' ++ '{' :: body) solid
        (d := '}') (by decide)
      rw [split_]
      simpa using both
    rw [trimmed] at parsed
    rw [split_] at closed
    obtain ⟨⟨m, d⟩, before, behind⟩ := scanAll_of_append closed
    obtain ⟨rfl, still⟩ := scanAll_whitespace (.inl rfl) white before
    obtain rfl : m = .between := still rfl
    have token : ¬ Spaces (c :: q') := fun spaces =>
      Bool.noConfusion (solid.symm.trans (isWhitespace_of_isSpace (spaces c (by simp))))
    have spaces := (laws.grammar _ _ parsed).spaces_behind behind token
    exact Bool.noConfusion (spaces '{' (by simp))

/-- What is left behind the last newline is an object only if it is the last payload. -/
theorem trim_of_last {buf t : List Char} (held : Held buf) {members : List (List Char × Json)}
    (parsed : JsonParser.fromStr t = some (.object members)) {members' : List (List Char × Json)}
    (left : JsonParser.fromStr (trim (drainLines (buf ++ t)).2) = some (.object members')) :
    trim (drainLines (buf ++ t)).2 = trim t := by
  obtain ⟨a, body, b, ha, hb, passes, text, trimmed⟩ := object_text laws parsed
  have object : Grammar (.element true) t := laws.grammar _ _ parsed
  obtain ⟨k, scanned⟩ := (held.push object).scanned
  have some_ : (trim (drainLines (buf ++ t)).2).isEmpty = false := by
    obtain ⟨a', body', b', -, -, -, text', -⟩ := object_text laws left
    rw [text']
    simp
  have frame := leftover_of_scanned scanned
  rw [some_, if_neg Bool.false_ne_true] at frame
  rw [text, ← List.append_assoc] at frame left ⊢
  by_cases newline : '\n' ∈ '{' :: (body ++ '}' :: b)
  · exact absurd left (leftover_of_newline laws passes hb newline frame _)
  rw [rest_append_of_notMem newline] at frame left ⊢
  obtain ⟨k, scanned⟩ := held.scanned
  have before : scanAll (.between, k) (buf ++ a) = some (.between, 0) := by
    rw [scanAll_append, scanned, Option.bind_some, scanAll_spaces_between ha]
  obtain ⟨k, before⟩ := scanAll_rest before
  by_cases white : ∀ c ∈ (drainLines (buf ++ a)).2, isWhitespace c = true
  · have alone := trim_of_solid white (isWhitespace_of_spaces hb) body (c := '{') (d := '}')
      (by decide) (by decide)
    rw [← text, trimmed, ← alone]
    simp
  · exfalso
    cases k with
    | zero => exact not_object_of_filled laws white before hb _ left
    | succ k =>
      have braces : scanAll (.between, 0) ('{' :: (body ++ '}' :: b)) = some (.between, 0) := by
        have closes := object.closes 0
        rw [text, scanAll_append, scanAll_spaces_between ha, Option.bind_some] at closes
        exact closes
      refine leftover_of_open laws (k := k) (m := .between) ?_ frame _ left
      rw [scanAll_append, before, Option.bind_some, braces]

/-! ## A connection -/

namespace WsPayload

variable {p : WsPayload} (valid : p.Valid)

include valid

theorem held_push {buf : List Char} (held : Held buf) : Held (drainLines (buf ++ p.text)).2 := by
  cases p with
  | json t =>
    obtain ⟨members, parsed⟩ := valid
    exact held.push (laws.grammar _ _ parsed)
  | events frames lines =>
    obtain ⟨l, ls, rfl⟩ := List.exists_cons_of_ne_nil (valid.2.encodes.ne_nil valid.1)
    show Held (drainLines (buf ++ (l :: ls).flatMap StreamLine.text)).2
    rw [SseDecoder.drainLines_lines held.unbroken valid.2.plain]
    exact .nil

/-- The decoder keeps the unfinished line, and the meter has observed the payload once. -/
theorem payload_eq {buf : List Char} (held : Held buf) {m : Meter}
    (bears : buf ≠ [] → p.Bears m.dialect) :
    WsMeterTask.payload (SseDecoder.keeping buf, m) p.bytes =
      (SseDecoder.keeping (drainLines (buf ++ p.text)).2, m.observeAll p.frames) := by
  cases p with
  | json t =>
    obtain ⟨members, parsed⟩ := valid
    obtain ⟨-, body, -, -, -, -, -, trimmed⟩ := object_text laws parsed
    have once : m.observe ⟨none, trim t⟩ = m.observe ⟨none, t⟩ :=
      Meter.observe_congr (read_trim laws parsed) m
    have brace : (trim t).head? = some '{' := by rw [trimmed]; rfl
    have pushed := SseDecoder.push_object held (laws.grammar _ _ parsed)
    show WsMeterTask.payload (SseDecoder.keeping buf, m) (Utf8.encode t) = _
    rw [WsMeterTask.payload, pushed, Utf8.fromUtf8_encode]
    simp only [brace, if_true]
    exact congrArg _ once
  | events frames lines =>
    obtain ⟨l, ls, rfl⟩ := List.exists_cons_of_ne_nil (valid.2.encodes.ne_nil valid.1)
    have plain := valid.2.plain
    obtain ⟨shown, pushed, same⟩ := push_stream held valid.2 bears
    have other : (trim ((l :: ls).flatMap StreamLine.text)).head? ≠ some '{' := head?_trim_stream
    show WsMeterTask.payload (SseDecoder.keeping buf, m)
      (Utf8.encode ((l :: ls).flatMap StreamLine.text)) =
        (SseDecoder.keeping (drainLines (buf ++ (l :: ls).flatMap StreamLine.text)).2, _)
    rw [WsMeterTask.payload, pushed, Utf8.fromUtf8_encode,
      SseDecoder.drainLines_lines held.unbroken plain]
    simp only [if_neg other]
    exact congrArg _ same

end WsPayload

theorem held_lastLine {ps : List WsPayload} (valid : ∀ p ∈ ps, p.Valid) : Held (lastLine ps) := by
  induction ps using List.reverseRecOn with
  | nil => exact .nil
  | append_singleton ps p ih =>
    rw [lastLine_concat]
    exact WsPayload.held_push laws (valid p (by simp))
      (ih fun q hq => valid q (List.mem_append_left _ hq))

/-- The decoder keeps the last line, and the meter has observed each payload once. -/
theorem payloads_eq {d : Dialect} {ps : List WsPayload} (valid : ∀ p ∈ ps, p.Valid)
    (chain : ps.IsChain (WsPayload.Follows d)) :
    WsMeterTask.payloads (.new, .new d) (ps.map WsPayload.bytes) =
      (SseDecoder.keeping (lastLine ps), eachOnce d ps) := by
  induction ps using List.reverseRecOn with
  | nil => rfl
  | append_singleton ps p ih =>
    obtain ⟨front, -, next⟩ := List.isChain_append.mp chain
    have valids : ∀ q ∈ ps, q.Valid := fun q hq => valid q (List.mem_append_left _ hq)
    have dialect : (eachOnce d ps).dialect = d := Meter.observeAll_dialect _ _
    have bears : lastLine ps ≠ [] → p.Bears (eachOnce d ps).dialect := by
      intro left
      obtain ⟨q, last, unfinished⟩ := unfinished_of_lastLine left
      rw [dialect]
      exact next q last p rfl unfinished
    have before := ih valids front
    have step := WsPayload.payload_eq laws (valid p (by simp)) (held_lastLine laws valids) bears
    rw [WsMeterTask.payloads] at before ⊢
    rw [List.map_append, List.foldl_append, before, List.map_singleton, List.foldl_cons,
      List.foldl_nil, step, lastLine_concat, eachOnce, eachOnce, List.flatMap_append,
      Meter.observeAll_append, List.flatMap_singleton]

/-- `finish` shows the meter what is left behind the last newline. -/
theorem observe_leftover {buf : List Char} (held : Held buf) (m : Meter) :
    m.observeAll (SseDecoder.leftover buf) = m.observe ⟨none, trim buf⟩ := by
  obtain ⟨k, scanned⟩ := held.scanned
  rw [leftover_of_scanned scanned]
  split
  · next empty =>
    refine (Meter.observe_of_noObject (fun members parsed => ?_) m).symm
    obtain ⟨a, body, b, -, -, -, text, -⟩ := object_text laws parsed
    rw [text] at empty
    simp at empty
  · rfl

theorem wsMetered_eq {d : Dialect} {ps : List WsPayload} (valid : ∀ p ∈ ps, p.Valid)
    (chain : ps.IsChain (WsPayload.Follows d)) {chunks : List (List UInt8)} {dec : WsTextDecoder}
    (handed : WsTextDecoder.new.pushAll chunks = .ok (ps.map WsPayload.bytes, dec)) :
    wsMetered (some d) chunks = .ok
      (((eachOnce d ps).observe ⟨none, trim (lastLine ps)⟩).usage,
        ((eachOnce d ps).observe ⟨none, trim (lastLine ps)⟩).isComplete) := by
  have finished : (SseDecoder.keeping (lastLine ps)).finish.1 =
      SseDecoder.leftover (lastLine ps) := rfl
  rw [wsMetered_some, handed]
  show Except.ok (payloadsMetered d (ps.map WsPayload.bytes)) = _
  rw [payloadsMetered, payloads_eq laws valid chain]
  simp only [finished, observe_leftover laws (held_lastLine laws valid)]

/-- What is left behind the last newline is an object only if it is the last payload. -/
theorem exists_last {ps : List WsPayload} (valid : ∀ p ∈ ps, p.Valid)
    {members : List (List Char × Json)}
    (left : JsonParser.fromStr (trim (lastLine ps)) = some (.object members)) :
    ∃ front t, ps = front ++ [.json t] ∧ trim (lastLine ps) = trim t ∧
      Meter.read ⟨none, trim t⟩ = Meter.read ⟨none, t⟩ := by
  have some_ : lastLine ps ≠ [] := by
    intro empty
    obtain ⟨a, body, b, -, -, -, text, -⟩ := object_text laws left
    rw [empty] at text
    have nothing : (trim []).length = 0 := rfl
    rw [text] at nothing
    simp at nothing
  induction ps using List.reverseRecOn with
  | nil => exact absurd rfl some_
  | append_singleton front p =>
    have held := held_lastLine laws fun q hq => valid q (List.mem_append_left [p] hq)
    have last := valid p (by simp)
    rw [lastLine_concat] at left some_ ⊢
    cases p with
    | json t =>
      obtain ⟨members, parsed⟩ := last
      exact ⟨front, t, rfl, trim_of_last laws held parsed left, read_trim laws parsed⟩
    | events frames lines =>
      exfalso
      obtain ⟨l, ls, rfl⟩ := List.exists_cons_of_ne_nil (last.2.encodes.ne_nil last.1)
      apply some_
      show (drainLines (lastLine front ++ (l :: ls).flatMap StreamLine.text)).2 = []
      rw [SseDecoder.drainLines_lines held.unbroken last.2.plain]

/-- With unfinished lines that do no harm, each payload is counted once unless what is left at the
end starts a message and counts prompt tokens. -/
theorem countsOnce_iff {d : Dialect} {ps : List WsPayload} (valid : ∀ p ∈ ps, p.Valid)
    (chain : ps.IsChain (WsPayload.Follows d)) {chunks : List (List UInt8)} {dec : WsTextDecoder}
    (handed : WsTextDecoder.new.pushAll chunks = .ok (ps.map WsPayload.bytes, dec)) :
    CountsOnce d chunks ps ↔ ¬ CountedTwice d ps := by
  rw [CountsOnce, wsMetered_eq laws valid chain handed, Except.ok.injEq, Prod.mk.injEq]
  by_cases object : ∃ members, JsonParser.fromStr (trim (lastLine ps)) = some (.object members)
  · obtain ⟨members, left⟩ := object
    obtain ⟨front, t, rfl, text, read⟩ := exists_last laws valid left
    have each : eachOnce d (front ++ [.json t]) = (eachOnce d front).observe ⟨none, t⟩ := by
      rw [eachOnce, List.flatMap_append, Meter.observeAll_append]
      rfl
    have dialect : (eachOnce d front).dialect = d := Meter.observeAll_dialect _ _
    have twice := Meter.observe_twice_iff (eachOnce d front) ⟨none, t⟩
    rw [dialect] at twice
    have reported : Meter.reported d ⟨none, trim t⟩ = Meter.reported d ⟨none, t⟩ := by
      rw [Meter.reported, Meter.reported, read]
      rfl
    rw [CountedTwice, text, reported, each, Meter.observe_congr read]
    exact twice
  · have other := not_exists.mp object
    rw [Meter.observe_of_noObject other]
    refine iff_of_true ⟨rfl, rfl⟩ ?_
    rintro ⟨u, start, -⟩
    rw [(Meter.reported_of_noObject other d).1] at start
    cases start

end Objects

section Cases

/-- A text message on the wire. -/
def WsPayload.message (p : WsPayload) : SentFrame := ⟨true, .text, none, p.bytes⟩

/-- Each object leaves an unfinished line. The stream starts with a comment. -/
def objectsAround : List WsPayload :=
  [.json ['{', '}'], .events [⟨none, "one\ntwo".toList⟩] keepaliveLines, .json ['{', '}']]

attribute [local instance] emptyObjects

theorem objectsAround_valid : ∀ p ∈ objectsAround, p.Valid := by
  have object : (WsPayload.json ['{', '}']).Valid := ⟨[], rfl⟩
  simp only [objectsAround, List.forall_mem_cons]
  exact ⟨object, ⟨List.cons_ne_nil _ _, eventStream_keepalive⟩, object, List.forall_mem_nil _⟩

theorem countsOnce_objectsAround :
    CountsOnce .anthropicMessages [objectsAround.flatMap (·.message.encode)] objectsAround := by
  have chain : objectsAround.IsChain (WsPayload.Follows .anthropicMessages) := by
    have comment : (WsPayload.events [⟨none, "one\ntwo".toList⟩] keepaliveLines).Bears
        .anthropicMessages := .inl (by decide)
    simp only [objectsAround, List.isChain_cons_cons, List.isChain_singleton, and_true]
    exact ⟨fun _ => comment, fun _ => trivial⟩
  have unread : (Meter.reported .anthropicMessages ⟨none, trim (lastLine objectsAround)⟩).isNone =
      true := by decide +kernel
  have handed : WsTextDecoder.new.pushAll [objectsAround.flatMap (·.message.encode)] =
      .ok (objectsAround.map WsPayload.bytes, .new) := rfl
  refine (countsOnce_iff emptyObjects_lawful objectsAround_valid chain handed).mpr ?_
  rintro ⟨u, start, -⟩
  rw [start] at unread
  cases unread

end Cases

section Cases

def pingText : List Char := "\x7b\"type\":\"ping\"\x7d".toList

def messageStartText : List Char :=
  ("\x7b\"type\":\"message_start\",\"message\":" ++
    "\x7b\"usage\":\x7b\"input_tokens\":5\x7d\x7d\x7d").toList

/-- The parser on both. -/
@[reducible] def messageStartTexts : JsonParser where
  fromStr t :=
    if t = pingText then some (.object [("type".toList, .string "ping".toList)])
    else if t = messageStartText then some (.object [
      ("type".toList, .string "message_start".toList), ("message".toList, .object [("usage".toList,
        .object [("input_tokens".toList, .number (.posInt 5))])])])
    else none

attribute [local instance] messageStartTexts

def messageStartLines : List StreamLine := [⟨.data true messageStartText, false⟩, ⟨.blank, false⟩]

theorem eventStream_messageStartLines :
    EventStream [⟨none, messageStartText⟩] messageStartLines := by
  have solid : messageStartText.all (isLineEnd · = false) = true := by decide +kernel
  constructor
  · simp only [messageStartLines, List.forall_mem_cons]
    exact ⟨⟨by simpa using solid, Bool.noConfusion⟩, trivial, List.forall_mem_nil _⟩
  · have said : SseFrame.SaidBy ⟨none, messageStartText⟩ [⟨.data true messageStartText, false⟩] :=
      ⟨by simp, rfl, rfl, .inl (List.cons_ne_nil _ _)⟩
    exact .frame (List.forall_mem_nil _) said (.done (List.forall_mem_nil _))

/-- The start of a message, and the same behind an object that leaves an unfinished line. -/
def startAlone : List WsPayload := [.json messageStartText]

def startHidden : List WsPayload :=
  [.json pingText, .events [⟨none, messageStartText⟩] messageStartLines]

/-- The first is counted twice, the second not at all. -/
theorem not_countsOnce_start :
    ((∀ p ∈ startAlone, p.Valid) ∧
      ¬ CountsOnce .anthropicMessages [startAlone.flatMap (·.message.encode)] startAlone) ∧
    ((∀ p ∈ startHidden, p.Valid) ∧
      ¬ CountsOnce .anthropicMessages [startHidden.flatMap (·.message.encode)] startHidden) := by
  have start : (WsPayload.json messageStartText).Valid := ⟨_, rfl⟩
  have ping : (WsPayload.json pingText).Valid := ⟨_, rfl⟩
  have stream : (WsPayload.events [⟨none, messageStartText⟩] messageStartLines).Valid :=
    ⟨List.cons_ne_nil _ _, eventStream_messageStartLines⟩
  refine ⟨⟨by simpa [startAlone] using start, ?_⟩,
    ⟨by simpa [startHidden] using ⟨ping, stream⟩, ?_⟩⟩
  · unfold CountsOnce
    decide +kernel
  · unfold CountsOnce
    decide +kernel

end Cases

end Tailfin
