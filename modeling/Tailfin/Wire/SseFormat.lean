import Tailfin.Wire.SseText

/-!
# The event-stream format

What a text may look like that stands for a list of frames: lines that end in LF or CRLF, one space
or none behind a field name, the fields of a frame in any order, and comments, `id:` and `retry:`
lines among them. Frames are closed by a blank line, and more blank lines may stand between them.
Every such text decodes to its frames in one push.
-/

namespace Tailfin

open Text

/-! ## Lines -/

/-- What a line of an event stream says. -/
inductive StreamField where
  | blank
  | event (spaced : Bool) (e : List Char)
  | data (spaced : Bool) (l : List Char)
  | comment (t : List Char)
  | id (t : List Char)
  | retry (t : List Char)
  deriving DecidableEq, Repr

structure StreamLine where
  field : StreamField
  crlf : Bool
  deriving DecidableEq, Repr

namespace StreamField

/-- The space behind a field name is optional. -/
def space (spaced : Bool) : List Char := if spaced then [' '] else []

def text : StreamField → List Char
  | blank => []
  | event spaced e => "event:".toList ++ (space spaced ++ e)
  | data spaced l => "data:".toList ++ (space spaced ++ l)
  | comment t => ":".toList ++ t
  | id t => "id:".toList ++ t
  | retry t => "retry:".toList ++ t

/-- One line can say it. Data that starts with a space needs the space behind the field name. -/
def Plain : StreamField → Prop
  | blank => True
  | event _ e => trim e = e ∧ ∀ c ∈ e, isLineEnd c = false
  | data spaced l => (∀ c ∈ l, isLineEnd c = false) ∧ (spaced = false → l.head? ≠ some ' ')
  | comment t => '\n' ∉ t
  | id t => '\n' ∉ t
  | retry t => '\n' ∉ t

def eventOf : StreamField → Option (List Char)
  | event _ e => some e
  | _ => none

def dataOf : StreamField → Option (List Char)
  | data _ l => some l
  | _ => none

/-- It may stand between two frames. -/
def between : StreamField → Bool
  | event _ _ => false
  | data _ _ => false
  | _ => true

/-- What the decoder is to read. -/
def read : StreamField → SseField
  | blank => .blank
  | event spaced e => .event (space spaced ++ e)
  | data _ l => .data l
  | _ => .ignored

end StreamField

namespace StreamLine

/-- The line without its newline. -/
def raw (l : StreamLine) : List Char := l.field.text ++ if l.crlf then ['\r'] else []

def text (l : StreamLine) : List Char := ended l.raw

end StreamLine

/-- These lines say the frame, without its closing blank line. -/
structure SseFrame.SaidBy (f : SseFrame) (lines : List StreamLine) : Prop where
  open_ : ∀ l ∈ lines, l.field ≠ .blank
  event : lines.filterMap (·.field.eventOf) = f.event.toList
  data : ['\n'].intercalate (lines.filterMap (·.field.dataOf)) = f.data
  some_ : lines.filterMap (·.field.dataOf) ≠ [] ∨ f.event ≠ none

/-- The frame that some fields say, if any of them is an event or data. -/
def SseFrame.ofFields (fields : List StreamLine) : List SseFrame :=
  let event := (fields.filterMap (·.field.eventOf)).getLast?
  let data := fields.filterMap (·.field.dataOf)
  if data.isEmpty && event.isNone then [] else [⟨event, ['\n'].intercalate data⟩]

inductive Encodes : List SseFrame → List StreamLine → Prop
  | done {lines : List StreamLine} : (∀ l ∈ lines, l.field.between = true) → Encodes [] lines
  | frame {f : SseFrame} {frames : List SseFrame} {before lines rest : List StreamLine}
      {crlf : Bool} : (∀ l ∈ before, l.field.between = true) → f.SaidBy lines →
      Encodes frames rest → Encodes (f :: frames) (before ++ (lines ++ ⟨.blank, crlf⟩ :: rest))

/-- The lines stand for the frames. -/
structure EventStream (frames : List SseFrame) (lines : List StreamLine) : Prop where
  plain : ∀ l ∈ lines, l.field.Plain
  encodes : Encodes frames lines

/-! ## Reading a line -/

theorem stripPrefix_space {l : List Char} (h : l.head? ≠ some ' ') :
    stripPrefix [' '] l = none := by
  cases l with
  | nil => rfl
  | cons c l =>
    have other : ¬ ' ' = c := fun same => h (by rw [same]; rfl)
    simp [stripPrefix, other]

/-- The end of a line is no part of it. -/
theorem readField_raw (l : StreamLine) : readField l.raw = readField l.field.text := by
  have dropped : ∀ c ∈ (if l.crlf then ['\r'] else []), isLineEnd c = true := by
    cases l.crlf <;> simp [isLineEnd]
  unfold readField StreamLine.raw
  rw [trimEndMatches_drop dropped]

/-- A field with a name is read behind its name. -/
theorem readField_text {field : StreamField} (plain : field.Plain) :
    readField field.text = field.read := by
  have keeps : ∀ {name : List Char}, name.all (isLineEnd · = false) = true → ∀ t,
      trimEndMatches isLineEnd (name ++ t) = name ++ trimEndMatches isLineEnd t :=
    fun known => trimEndMatches_append (by simpa using known)
  have whole : ∀ (spaced : Bool) {t : List Char}, (∀ c ∈ t, isLineEnd c = false) →
      trimEndMatches isLineEnd (StreamField.space spaced ++ t) =
        StreamField.space spaced ++ t := by
    intro spaced t solid
    apply trimEndMatches_field _ solid
    cases spaced <;> simp [StreamField.space, isLineEnd]
  unfold readField StreamField.text
  cases field with
  | blank => rfl
  | event spaced e =>
    simp only [keeps (show ("event:".toList).all _ = true by decide), whole spaced plain.2]
    rfl
  | data spaced l =>
    simp only [keeps (show ("data:".toList).all _ = true by decide), whole spaced plain.1]
    cases spaced with
    | true => rfl
    | false =>
      have strip := stripPrefix_space (plain.2 rfl)
      show SseField.data ((stripPrefix [' '] l).getD l) = .data l
      rw [strip]
      rfl
  | comment t =>
    simp only [keeps (show (":".toList).all _ = true by decide)]
    rfl
  | id t =>
    simp only [keeps (show ("id:".toList).all _ = true by decide)]
    rfl
  | retry t =>
    simp only [keeps (show ("retry:".toList).all _ = true by decide)]
    rfl

/-! ## Reading a stream -/

/-- The fields of a frame say that frame. -/
theorem SseFrame.SaidBy.ofFields {f : SseFrame} {lines : List StreamLine}
    (said : f.SaidBy lines) : SseFrame.ofFields lines = [f] := by
  have event : (lines.filterMap (·.field.eventOf)).getLast? = f.event := by
    rw [said.event]
    cases f.event <;> rfl
  have some_ := said.some_
  unfold SseFrame.ofFields
  simp only [event, said.data]
  generalize lines.filterMap (·.field.dataOf) = data at some_
  rw [if_neg]
  rcases some_ with given | given
  · simp [given]
  · simp [given]


namespace SseDecoder

/-- What a line does, by what it says. -/
def take (d : SseDecoder) : SseField → List SseFrame × SseDecoder
  | .blank => if d.pending then ([d.takeFrame.1], d.takeFrame.2) else ([], d)
  | .event v => ([], { d with event := some (trim v) })
  | .data v => ([], { d with data := d.data ++ [v] })
  | .ignored => ([], d)

theorem readLine_eq (d : SseDecoder) (line : List Char) :
    d.readLine line = d.take (readField line) := rfl

theorem readLine_raw {l : StreamLine} (plain : l.field.Plain) (d : SseDecoder) :
    d.readLine l.raw = d.take l.field.read := by
  rw [readLine_eq, readField_raw, readField_text plain]

/-- The fields of a frame pile up, and the last event counts. -/
theorem readLines_fields {lines : List StreamLine} (plain : ∀ l ∈ lines, l.field.Plain)
    (open_ : ∀ l ∈ lines, l.field ≠ .blank) (d : SseDecoder) :
    d.readLines (lines.map StreamLine.raw) = ([], { d with
      event := (lines.filterMap (·.field.eventOf)).getLast?.or d.event
      data := d.data ++ lines.filterMap (·.field.dataOf) }) := by
  induction lines generalizing d with
  | nil => simp [readLines]
  | cons l lines ih =>
    have rest := ih (fun l' hl' => plain l' (List.mem_cons_of_mem _ hl'))
      fun l' hl' => open_ l' (List.mem_cons_of_mem _ hl')
    have line := plain l (by simp)
    rw [List.map_cons, readLines, readLine_raw line]
    obtain ⟨field, crlf⟩ := l
    cases field with
    | blank => exact absurd rfl (open_ ⟨.blank, crlf⟩ (by simp))
    | event spaced e =>
      have value : trim (StreamField.space spaced ++ e) = e := by
        rw [trim_prepend, line.1]
        cases spaced <;> simp [StreamField.space, isWhitespace]
      have events : (⟨.event spaced e, crlf⟩ :: lines).filterMap (·.field.eventOf) =
          e :: lines.filterMap (·.field.eventOf) := rfl
      simp only [StreamField.read, take, value, rest]
      rw [events, List.getLast?_cons]
      cases (lines.filterMap (·.field.eventOf)).getLast? <;> rfl
    | data spaced t =>
      simp only [StreamField.read, take, rest, List.append_assoc]
      rfl
    | comment | id | retry =>
      simp only [StreamField.read, take, rest]
      rfl

/-- Between two frames nothing is under way, and nothing happens. -/
theorem readLine_between {l : StreamLine} (plain : l.field.Plain)
    (between : l.field.between = true) {d : SseDecoder} (idle : d.pending = false) :
    d.readLine l.raw = ([], d) := by
  rw [readLine_raw plain]
  cases field : l.field with
  | blank => simp [StreamField.read, take, idle]
  | event | data =>
    rw [field] at between
    cases between
  | comment | id | retry => rfl

theorem readLines_between {lines : List StreamLine} (plain : ∀ l ∈ lines, l.field.Plain)
    (between : ∀ l ∈ lines, l.field.between = true) {d : SseDecoder} (idle : d.pending = false) :
    d.readLines (lines.map StreamLine.raw) = ([], d) := by
  induction lines with
  | nil => rfl
  | cons l lines ih =>
    rw [List.map_cons, readLines, readLine_between (plain l (by simp)) (between l (by simp)) idle,
      ih (fun l' hl' => plain l' (List.mem_cons_of_mem _ hl'))
        fun l' hl' => between l' (List.mem_cons_of_mem _ hl')]
    rfl

/-- The blank line makes the frame of what piled up. -/
theorem readLines_ofFields {lines : List StreamLine} (plain : ∀ l ∈ lines, l.field.Plain)
    (open_ : ∀ l ∈ lines, l.field ≠ .blank) (crlf : Bool) {d : SseDecoder}
    (idle : d.pending = false) :
    d.readLines ((lines ++ [(⟨.blank, crlf⟩ : StreamLine)]).map StreamLine.raw) =
      (SseFrame.ofFields lines, d) := by
  have fresh : d.data = [] ∧ d.event = none := by simpa [pending] using idle
  have read := readLines_fields plain open_ d
  rw [fresh.1, fresh.2, Option.or_none, List.nil_append] at read
  rw [List.map_append, readLines_append, read, SseFrame.ofFields]
  generalize (lines.filterMap (·.field.eventOf)).getLast? = event
  generalize lines.filterMap (·.field.dataOf) = data
  have line : (StreamLine.mk .blank crlf).field.Plain := trivial
  have held : ({ d with event := event, data := data } : SseDecoder).pending =
      !(data.isEmpty && event.isNone) := by
    cases event <;> simp [pending]
  have same : ({ d with event := none, data := [] } : SseDecoder) = d := by
    rw [← fresh.1, ← fresh.2]
  simp only [List.map_singleton, readLines, readLine_raw line, StreamField.read, take, held,
    takeFrame, same, List.nil_append, List.append_nil]
  cases nothing : data.isEmpty && event.isNone with
  | true =>
    obtain ⟨none_, empty⟩ : data = [] ∧ event = none := by simpa using nothing
    rw [none_, empty, same]
    rfl
  | false => rfl

theorem readLines_encodes {frames : List SseFrame} {lines : List StreamLine}
    (encodes : Encodes frames lines) (plain : ∀ l ∈ lines, l.field.Plain) {d : SseDecoder}
    (idle : d.pending = false) : d.readLines (lines.map StreamLine.raw) = (frames, d) := by
  induction encodes with
  | done between => exact readLines_between plain between idle
  | @frame f frames before lines rest crlf between said _ ih =>
    simp only [List.mem_append, List.mem_cons] at plain
    have shape : before ++ (lines ++ ⟨.blank, crlf⟩ :: rest) =
        before ++ ((lines ++ [(⟨.blank, crlf⟩ : StreamLine)]) ++ rest) := by simp
    have first := readLines_between (fun l hl => plain l (.inl hl)) between idle
    have frame := readLines_ofFields (fun l hl => plain l (.inr (.inl hl))) said.open_ crlf idle
    rw [said.ofFields] at frame
    rw [shape, List.map_append, readLines_append, first, List.map_append, readLines_append, frame,
      ih fun l hl => plain l (.inr (.inr (.inr hl)))]
    rfl

end SseDecoder

theorem StreamLine.newline_notMem_raw {l : StreamLine} (plain : l.field.Plain) : '\n' ∉ l.raw := by
  have solid : ∀ {t : List Char}, (∀ c ∈ t, isLineEnd c = false) → '\n' ∉ t :=
    fun h mem => Bool.noConfusion (h _ mem)
  have space : ∀ spaced, '\n' ∉ StreamField.space spaced := by decide
  have end_ : '\n' ∉ (if l.crlf then ['\r'] else []) := by cases l.crlf <;> decide
  have inside : '\n' ∉ l.field.text := by
    unfold StreamField.text
    cases field : l.field with
    | blank => exact List.not_mem_nil
    | event spaced e =>
      rw [field] at plain
      simp only [List.mem_append, not_or]
      exact ⟨by decide, space spaced, solid plain.2⟩
    | data spaced t =>
      rw [field] at plain
      simp only [List.mem_append, not_or]
      exact ⟨by decide, space spaced, solid plain.1⟩
    | comment t | id t | retry t =>
      rw [field] at plain
      simp only [List.mem_append, not_or]
      exact ⟨by decide, plain⟩
  rw [raw, List.mem_append, not_or]
  exact ⟨inside, end_⟩

/-- One push of the text returns the frames, and nothing is left. -/
def RoundTrips (frames : List SseFrame) (text : List Char) : Prop :=
  (SseDecoder.new.push (Utf8.encode text)).1 = frames ∧
    (SseDecoder.new.push (Utf8.encode text)).2.finish.1 = []

/-- Every text of the format decodes to the frames it stands for. -/
theorem roundTrips_of_eventStream {frames : List SseFrame} {lines : List StreamLine}
    (stream : EventStream frames lines) : RoundTrips frames (lines.flatMap StreamLine.text) := by
  have text : lines.flatMap StreamLine.text = (lines.map StreamLine.raw).flatMap ended := by
    rw [List.flatMap_map]
    rfl
  have whole : ∀ r ∈ lines.map StreamLine.raw, '\n' ∉ r := by
    intro r mem
    obtain ⟨l, hl, rfl⟩ := List.mem_map.mp mem
    exact StreamLine.newline_notMem_raw (stream.plain l hl)
  have pushed := SseDecoder.pushText_lines whole List.not_mem_nil
  rw [List.append_nil, ← text,
    SseDecoder.readLines_encodes stream.encodes stream.plain rfl] at pushed
  rw [RoundTrips, SseDecoder.push, Utf8.lossy_encode, pushed]
  exact ⟨rfl, rfl⟩

/-! ## The plainest text -/

/-- The lines of a frame as a provider writes them. -/
def SseFrame.streamLines (crlf : Bool) (f : SseFrame) : List StreamLine :=
  f.event.toList.map (⟨.event true ·, crlf⟩) ++ f.dataLines.map (⟨.data true ·, crlf⟩)

def streamLinesOf (crlf : Bool) (frames : List SseFrame) : List StreamLine :=
  frames.flatMap fun f => f.streamLines crlf ++ [⟨.blank, crlf⟩]

theorem SseFrame.saidBy_streamLines (f : SseFrame) (crlf : Bool) :
    f.SaidBy (f.streamLines crlf) := by
  have events : (f.streamLines crlf).filterMap (·.field.eventOf) = f.event.toList := by
    rw [streamLines, List.filterMap_append, List.filterMap_map, List.filterMap_map]
    simp [Function.comp_def, StreamField.eventOf]
  have datas : (f.streamLines crlf).filterMap (·.field.dataOf) = f.dataLines := by
    rw [streamLines, List.filterMap_append, List.filterMap_map, List.filterMap_map]
    simp [Function.comp_def, StreamField.dataOf]
  refine ⟨fun l mem => ?_, events, ?_, .inl ?_⟩
  · rcases List.mem_append.mp mem with mem | mem
    · obtain ⟨e, -, rfl⟩ := List.mem_map.mp mem
      exact StreamField.noConfusion
    · obtain ⟨t, -, rfl⟩ := List.mem_map.mp mem
      exact StreamField.noConfusion
  · rw [datas, f.intercalate_dataLines]
  · rw [datas]
    exact f.dataLines_ne_nil

/-- Every list of frames that lines can say has such a text. -/
theorem eventStream_streamLinesOf {frames : List SseFrame} (plain : ∀ f ∈ frames, f.Plain)
    (crlf : Bool) : EventStream frames (streamLinesOf crlf frames) where
  plain l mem := by
    obtain ⟨f, hf, mem⟩ := List.mem_flatMap.mp mem
    rcases List.mem_append.mp mem with mem | mem
    · rcases List.mem_append.mp mem with mem | mem
      · obtain ⟨e, he, rfl⟩ := List.mem_map.mp mem
        exact (plain f hf).event e (Option.mem_toList.mp he)
      · obtain ⟨t, ht, rfl⟩ := List.mem_map.mp mem
        obtain ⟨whole, sub⟩ := mem_splitOn ht
        refine ⟨fun c hc => ?_, Bool.noConfusion⟩
        have newline : c ≠ '\n' := fun same => whole (same ▸ hc)
        have return_ : c ≠ '\r' := fun same => (plain f hf).data (same ▸ sub hc)
        simp [isLineEnd, newline, return_]
    · obtain rfl := List.mem_singleton.mp mem
      trivial
  encodes := by
    induction frames with
    | nil => exact .done (List.forall_mem_nil _)
    | cons f frames ih =>
      have rest := ih fun f' hf' => plain f' (List.mem_cons_of_mem _ hf')
      have nothing : ∀ l ∈ ([] : List StreamLine), l.field.between = true := List.forall_mem_nil _
      have whole : Encodes (f :: frames)
          ([] ++ (f.streamLines crlf ++ ⟨.blank, crlf⟩ :: streamLinesOf crlf frames)) :=
        .frame nothing (f.saidBy_streamLines crlf) rest
      simpa [streamLinesOf] using whole

theorem StreamLine.text_lf (field : StreamField) :
    StreamLine.text ⟨field, false⟩ = ended field.text :=
  congrArg ended (List.append_nil field.text)

/-- With LF it is the text of the frames. -/
theorem text_streamLinesOf (frames : List SseFrame) :
    (streamLinesOf false frames).flatMap StreamLine.text = encodeFrames frames := by
  rw [streamLinesOf, List.flatMap_assoc]
  refine List.flatMap_congr fun f _ => ?_
  have event : ∀ e, StreamLine.text ⟨.event true e, false⟩ = ended ("event: ".toList ++ e) :=
    fun e => StreamLine.text_lf (.event true e)
  have data : ∀ t, StreamLine.text ⟨.data true t, false⟩ = ended (dataLine t) :=
    fun t => StreamLine.text_lf (.data true t)
  have blank : [(⟨.blank, false⟩ : StreamLine)].flatMap StreamLine.text = [[]].flatMap ended := rfl
  rw [List.flatMap_append, SseFrame.streamLines, List.flatMap_append, List.flatMap_map,
    List.flatMap_map, blank, SseFrame.encode, SseFrame.lines, List.flatMap_append,
    List.flatMap_append, List.flatMap_map, SseFrame.eventLines]
  simp only [event, data]
  cases f.event with
  | none => rfl
  | some e => rfl

section Cases

/-- A comment, an `id:` line, data on two lines that end in CRLF, and one blank line too many. -/
def keepaliveLines : List StreamLine :=
  [⟨.comment " keepalive".toList, true⟩, ⟨.id " 7".toList, true⟩, ⟨.data true "one".toList, true⟩,
    ⟨.data false "two".toList, true⟩, ⟨.blank, true⟩, ⟨.blank, false⟩]

theorem eventStream_keepalive : EventStream [⟨none, "one\ntwo".toList⟩] keepaliveLines where
  plain := by
    have solid : ∀ {t : List Char}, t.all (isLineEnd · = false) = true →
        ∀ c ∈ t, isLineEnd c = false := fun h => by simpa using h
    have comment : '\n' ∉ " keepalive".toList := by decide
    have number : '\n' ∉ " 7".toList := by decide
    simp only [keepaliveLines, List.forall_mem_cons]
    exact ⟨comment, number, ⟨solid (by decide), nofun⟩, ⟨solid (by decide), by decide⟩,
      trivial, trivial, List.forall_mem_nil _⟩
  encodes := by
    have said : SseFrame.SaidBy ⟨none, "one\ntwo".toList⟩ (keepaliveLines.take 4) :=
      ⟨by decide, by decide, by decide, .inl (by decide)⟩
    exact .frame (List.forall_mem_nil _) said (.done (by decide))

theorem roundTrips_keepalive :
    RoundTrips [⟨none, "one\ntwo".toList⟩] (keepaliveLines.flatMap StreamLine.text) :=
  roundTrips_of_eventStream eventStream_keepalive

end Cases

end Tailfin
