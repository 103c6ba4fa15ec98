import Mathlib.Data.List.DropRight
import Tailfin.Wire.Sse

/-!
# Streams that end early

The text of a list of frames, as a provider writes it, and what the decoder makes of it when the
stream ends without its closing blank line. With only the blank line missing nothing is lost.
With the newline of the last data line missing too, that line is still in the buffer when
`finish` emits the frame under way, and is left there.
-/

namespace Tailfin

open Text

/-! ## The text of frames -/

def dataLine (line : List Char) : List Char := "data: ".toList ++ line

namespace SseFrame

/-- The lines of a frame before its closing blank line. -/
def eventLines (f : SseFrame) : List (List Char) :=
  (f.event.map ("event: ".toList ++ ·)).toList

def dataLines (f : SseFrame) : List (List Char) := f.data.splitOn '\n'

def lines (f : SseFrame) : List (List Char) := f.eventLines ++ f.dataLines.map dataLine

/-- A frame as text. -/
def encode (f : SseFrame) : List Char := (f.lines ++ [[]]).flatMap ended

/-- A text of lines can say it: no line breaks but the newlines of the data, and no white space
around the event. -/
structure Plain (f : SseFrame) : Prop where
  event : ∀ e, f.event = some e → trim e = e ∧ ∀ c ∈ e, isLineEnd c = false
  data : '\r' ∉ f.data

end SseFrame

def encodeFrames (frames : List SseFrame) : List Char := frames.flatMap SseFrame.encode

def linesOf (frames : List SseFrame) : List (List Char) := frames.flatMap (·.lines ++ [[]])

theorem encodeFrames_eq (frames : List SseFrame) :
    encodeFrames frames = (linesOf frames).flatMap ended := by
  rw [linesOf, List.flatMap_assoc]
  rfl

theorem SseFrame.dataLines_ne_nil (f : SseFrame) : f.dataLines ≠ [] := List.splitOn_ne_nil _ _

theorem SseFrame.intercalate_dataLines (f : SseFrame) : ['\n'].intercalate f.dataLines = f.data :=
  List.intercalate_splitOn '\n'

/-! ## Reading the lines -/

/-- A line behind a field name is not trimmed. -/
theorem trimEndMatches_field {name l : List Char} (known : ∀ c ∈ name, isLineEnd c = false)
    (plain : ∀ c ∈ l, isLineEnd c = false) : trimEndMatches isLineEnd (name ++ l) = name ++ l :=
  trimEndMatches_of_solid fun c hc => (List.mem_append.mp hc).elim (known c) (plain c)

theorem readField_dataLine {l : List Char} (plain : ∀ c ∈ l, isLineEnd c = false) :
    readField (dataLine l) = .data l := by
  have line : trimEndMatches isLineEnd (dataLine l) = dataLine l :=
    trimEndMatches_field (List.all_iff_forall_prop.mp (by decide)) plain
  unfold readField
  simp only [line]
  rfl

theorem readField_eventLine {e : List Char} (plain : ∀ c ∈ e, isLineEnd c = false) :
    readField ("event: ".toList ++ e) = .event (' ' :: e) := by
  have line : trimEndMatches isLineEnd ("event: ".toList ++ e) = "event: ".toList ++ e :=
    trimEndMatches_field (List.all_iff_forall_prop.mp (by decide)) plain
  unfold readField
  simp only [line]
  rfl

namespace SseDecoder

/-- Data lines pile up. -/
theorem readLines_dataLines {ls : List (List Char)}
    (plain : ∀ l ∈ ls, ∀ c ∈ l, isLineEnd c = false) (d : SseDecoder) :
    d.readLines (ls.map dataLine) = ([], { d with data := d.data ++ ls }) := by
  induction ls generalizing d with
  | nil => simp [readLines]
  | cons l ls ih =>
    have first : d.readLine (dataLine l) = ([], { d with data := d.data ++ [l] }) := by
      simp only [readLine, readField_dataLine (plain l (by simp))]
    rw [List.map_cons, readLines, first, ih fun l' hl' => plain l' (List.mem_cons_of_mem _ hl')]
    simp

/-- The lines of a frame, or some of them, are held back until a blank line. -/
theorem readLines_frame {f : SseFrame} (plain : f.Plain) {ls : List (List Char)}
    (some_ : ∀ l ∈ ls, l ∈ f.dataLines) (d : SseDecoder) (idle : d.pending = false) :
    d.readLines (f.eventLines ++ ls.map dataLine) =
      ([], { d with event := f.event, data := ls }) := by
  have lineEnds : ∀ l ∈ ls, ∀ c ∈ l, isLineEnd c = false := by
    intro l hl c hc
    obtain ⟨whole, sub⟩ := mem_splitOn (some_ l hl)
    have newline : c ≠ '\n' := fun same => whole (same ▸ hc)
    have return_ : c ≠ '\r' := fun same => plain.data (same ▸ sub hc)
    simp [isLineEnd, newline, return_]
  have fresh : d.data = [] ∧ d.event = none := by
    simpa [pending] using idle
  obtain ⟨data, event⟩ := fresh
  cases named : f.event with
  | none =>
    rw [SseFrame.eventLines, named]
    have read := readLines_dataLines lineEnds d
    rw [data, List.nil_append] at read
    show d.readLines (ls.map dataLine) = _
    rw [read, event]
  | some e =>
    obtain ⟨trimmed, ends⟩ := plain.event e named
    have first : d.readLine ("event: ".toList ++ e) = ([], { d with event := some e }) := by
      have space : trim (' ' :: e) = e := trimmed
      simp only [readLine, readField_eventLine ends, space]
    rw [SseFrame.eventLines, named]
    show d.readLines (("event: ".toList ++ e) :: ls.map dataLine) = _
    rw [readLines, first, readLines_dataLines lineEnds]
    simp [data]

/-- The blank line turns what is held into the frame. -/
theorem readLines_encoded {f : SseFrame} (plain : f.Plain) (d : SseDecoder)
    (idle : d.pending = false) : d.readLines (f.lines ++ [[]]) = ([f], d) := by
  have fresh : d.data = [] ∧ d.event = none := by
    simpa [pending] using idle
  obtain ⟨data, event⟩ := fresh
  have held : (⟨d.buf, f.event, f.dataLines⟩ : SseDecoder).pending = true := by
    simp [pending, f.dataLines_ne_nil]
  have read : d.readLines f.lines = ([], ⟨d.buf, f.event, f.dataLines⟩) :=
    readLines_frame plain (fun _ => id) d idle
  have blank : (⟨d.buf, f.event, f.dataLines⟩ : SseDecoder).readLine [] = ([f], d) := by
    have field : readField [] = .blank := rfl
    simp only [readLine, field, held, if_true, takeFrame, f.intercalate_dataLines]
    rw [← data, ← event]
  rw [readLines_append, read]
  simp only [readLines, blank]
  rfl

theorem readLines_frames {frames : List SseFrame} (plain : ∀ f ∈ frames, f.Plain)
    (d : SseDecoder) (idle : d.pending = false) :
    d.readLines (linesOf frames) = (frames, d) := by
  induction frames with
  | nil => rfl
  | cons f frames ih =>
    rw [linesOf, List.flatMap_cons, ← linesOf, readLines_append,
      readLines_encoded (plain f (by simp)) d idle,
      ih fun f' hf' => plain f' (List.mem_cons_of_mem _ hf')]
    rfl

/-! ## The end of the stream -/

/-- Complete lines are read, and what stands behind them is kept. -/
theorem pushText_lines {lines : List (List Char)} (whole : ∀ l ∈ lines, '\n' ∉ l)
    {rest : List Char} (unbroken : '\n' ∉ rest) : new.pushText (lines.flatMap ended ++ rest) =
      ((new.readLines lines).1, { (new.readLines lines).2 with buf := rest }) := by
  have drained := drainLines_ended whole rest
  rw [drainLines_of_notMem unbroken, List.append_nil] at drained
  rw [pushText, show new.buf = [] from rfl, List.nil_append, drained]
  exact readLines_withBuf new rest lines

theorem newline_notMem_lines {f : SseFrame} (plain : f.Plain) : ∀ l ∈ f.lines, '\n' ∉ l := by
  intro l hl newline
  rcases List.mem_append.mp hl with named | hl
  · obtain ⟨e, event, rfl⟩ := Option.map_eq_some_iff.mp (Option.mem_toList.mp named)
    rcases List.mem_append.mp newline with known | inside
    · exact absurd known (by decide)
    · exact Bool.noConfusion ((plain.event e event).2 '\n' inside)
  · obtain ⟨l, mem, rfl⟩ := List.mem_map.mp hl
    rcases List.mem_append.mp newline with known | inside
    · exact absurd known (by decide)
    · exact (mem_splitOn mem).1 inside

theorem newline_notMem_linesOf {frames : List SseFrame} (plain : ∀ f ∈ frames, f.Plain) :
    ∀ l ∈ linesOf frames, '\n' ∉ l := by
  intro l hl
  obtain ⟨f, hf, hl⟩ := List.mem_flatMap.mp hl
  rcases List.mem_append.mp hl with hl | hl
  · exact newline_notMem_lines (plain f hf) l hl
  · rw [List.mem_singleton.mp hl]
    exact List.not_mem_nil

/-- A stream that stops somewhere in the data of a frame: the frames before it are delivered, the
data lines that came whole are held, and the rest is in the buffer. -/
theorem decodeText_cut {frames : List SseFrame} (plains : ∀ f ∈ frames, f.Plain) {f : SseFrame}
    (plain : f.Plain) {ls : List (List Char)} (some_ : ∀ l ∈ ls, l ∈ f.dataLines)
    {rest : List Char} (unbroken : '\n' ∉ rest) :
    decodeText (encodeFrames frames ++ ((f.eventLines ++ ls.map dataLine).flatMap ended ++ rest)) =
      frames ++ (⟨rest, f.event, ls⟩ : SseDecoder).finish.1 := by
  generalize held : f.eventLines ++ ls.map dataLine = lines
  have text : encodeFrames frames ++ (lines.flatMap ended ++ rest) =
      (linesOf frames ++ lines).flatMap ended ++ rest := by
    rw [encodeFrames_eq, List.flatMap_append, List.append_assoc]
  have whole : ∀ l ∈ linesOf frames ++ lines, '\n' ∉ l := by
    intro l hl
    rcases List.mem_append.mp hl with hl | hl
    · exact newline_notMem_linesOf plains l hl
    · apply newline_notMem_lines plain l
      rw [← held] at hl
      rcases List.mem_append.mp hl with hl | hl
      · exact List.mem_append_left _ hl
      · obtain ⟨l, mem, rfl⟩ := List.mem_map.mp hl
        exact List.mem_append_right _ (List.mem_map_of_mem (some_ l mem))
  have pushed : new.pushText ((linesOf frames ++ lines).flatMap ended ++ rest) =
      (frames, ⟨rest, f.event, ls⟩) := by
    rw [pushText_lines whole unbroken, readLines_append, readLines_frames plains new rfl, ← held,
      readLines_frame plain some_ new rfl, List.append_nil]
  rw [text, decodeText, pushed]

/-- An unfinished data line alone, trimmed. -/
theorem leftover_dataLine (l : List Char) : leftover (dataLine l) = [⟨none, trim l⟩] := by
  have solid : ∀ {p : Char → Bool}, (∀ c ∈ "data:".toList, p c = false) → ∀ t,
      trimEndMatches p ("data:".toList ++ t) = "data:".toList ++ trimEndMatches p t :=
    fun h t => trimEndMatches_append h t
  have white : ∀ c ∈ "data:".toList, isWhitespace c = false :=
    List.all_iff_forall_prop.mp (by decide)
  have lineEnd : ∀ c ∈ "data:".toList, isLineEnd c = false :=
    List.all_iff_forall_prop.mp (by decide)
  have trimmed : trim (dataLine l) =
      "data:".toList ++ trimEndMatches isWhitespace (' ' :: l) := by
    show trimEndMatches isWhitespace ("data:".toList ++ ' ' :: l) = _
    rw [solid white]
  have value : trim (trimEndMatches isLineEnd (trimEndMatches isWhitespace (' ' :: l))) =
      trim l := by
    rw [trim_trimEndMatches fun _ => isWhitespace_of_isLineEnd, trim_trimEndMatches fun _ => id]
    rfl
  rw [leftover, trimmed]
  simp only [solid lineEnd]
  rw [← value]
  rfl

end SseDecoder

/-- What the frames' text decodes to with its last `n` characters cut off. -/
def Delivers (frames : List SseFrame) (n : Nat) : Prop :=
  SseDecoder.decode [Utf8.encode ((encodeFrames frames).rdrop n)] = frames

/-- `finish` can make the frame of an unfinished last data line. -/
def SseFrame.Unfinished (f : SseFrame) : Prop :=
  f.data = [] ∨ f.event = none ∧ '\n' ∉ f.data ∧ trim f.data = f.data

theorem SseFrame.singleton_eq {f : SseFrame} {e : Option (List Char)} {d : List Char} :
    [(⟨e, d⟩ : SseFrame)] = [f] ↔ e = f.event ∧ d = f.data := by
  cases f
  simp

/-- The frame whose last data line has no newline. -/
theorem finish_unfinished {f : SseFrame} {ls : List (List Char)} {l : List Char}
    (split_ : f.dataLines = ls ++ [l]) :
    (⟨dataLine l, f.event, ls⟩ : SseDecoder).finish.1 = [f] ↔ f.Unfinished := by
  have joined := f.intercalate_dataLines
  have unbroken : ∀ l' ∈ ls ++ [l], '\n' ∉ l' := by
    rw [← split_]
    exact fun l' hl' => (mem_splitOn hl').1
  rw [split_] at joined
  cases ls with
  | nil =>
    -- The only line of the data.
    have whole : l = f.data := by simpa [List.intercalate] using joined
    have newline : '\n' ∉ f.data := whole ▸ unbroken l (by simp)
    cases event : f.event with
    | none =>
      have finished : (⟨dataLine l, none, []⟩ : SseDecoder).finish.1 = [⟨none, trim l⟩] :=
        SseDecoder.leftover_dataLine l
      have empty : f.data = [] → trim f.data = f.data := fun h => by rw [h]; rfl
      rw [finished, whole, SseFrame.singleton_eq, SseFrame.Unfinished, event]
      exact ⟨fun h => .inr ⟨rfl, newline, h.2⟩,
        fun h => ⟨rfl, h.elim empty fun h => h.2.2⟩⟩
    | some e =>
      have finished : (⟨dataLine l, some e, []⟩ : SseDecoder).finish.1 = [⟨some e, []⟩] := rfl
      rw [finished, SseFrame.singleton_eq, SseFrame.Unfinished, event]
      simp [eq_comm]
  | cons first ls =>
    have finished : (⟨dataLine l, f.event, first :: ls⟩ : SseDecoder).finish.1 =
        [⟨f.event, ['\n'].intercalate (first :: ls)⟩] := rfl
    have short : ¬ (f.event = f.event ∧ ['\n'].intercalate (first :: ls) = f.data) := by
      rintro ⟨-, same⟩
      have lines := List.splitOn_intercalate '\n'
        (fun l' hl' => unbroken l' (List.mem_append_left _ hl')) (List.cons_ne_nil first ls)
      rw [same] at lines
      have lengths := congrArg List.length (lines.symm.trans split_)
      simp at lengths
    have broken : '\n' ∈ f.data := by
      by_contra whole
      have lines : f.dataLines = [f.data] := List.splitOn_eq_singleton whole
      have lengths := congrArg List.length (lines.symm.trans split_)
      simp at lengths
    rw [finished, SseFrame.singleton_eq, SseFrame.Unfinished]
    refine ⟨fun h => absurd h short, fun h => ?_⟩
    rcases h with empty | ⟨-, whole, -⟩
    · rw [empty] at broken
      cases broken
    · exact absurd broken whole

theorem encodeFrames_concat (first : List SseFrame) (last : SseFrame) :
    encodeFrames (first ++ [last]) =
      encodeFrames first ++ last.lines.flatMap ended ++ ['\n'] := by
  simp [encodeFrames, SseFrame.encode, ended]

theorem decode_encode (t : List Char) :
    SseDecoder.decode [Utf8.encode t] = SseDecoder.decodeText t := by
  rw [SseDecoder.decode_eq, List.flatMap_singleton, Utf8.lossy_encode]

section Last

variable {first : List SseFrame} {last : SseFrame} (plains : ∀ f ∈ first, f.Plain)
  (plain_ : last.Plain)
include plains plain_

/-- Without the blank line the last frame is still held. -/
theorem delivers_one : Delivers (first ++ [last]) 1 := by
  have delivered := SseDecoder.decodeText_cut plains plain_ (fun _ => id) List.not_mem_nil
  rw [List.append_nil] at delivered
  have held : (⟨[], last.event, last.dataLines⟩ : SseDecoder).pending = true := by
    simp [SseDecoder.pending, last.dataLines_ne_nil]
  rw [Delivers, decode_encode, encodeFrames_concat, List.rdrop_concat_succ, List.rdrop_zero,
    SseFrame.lines, delivered, SseDecoder.finish, if_pos held]
  simp only [SseDecoder.takeFrame, last.intercalate_dataLines]

/-- Without its newline the last data line is still in the buffer. -/
theorem delivers_two_iff : Delivers (first ++ [last]) 2 ↔ last.Unfinished := by
  have split_ := (List.dropLast_append_getLast last.dataLines_ne_nil).symm
  generalize last.dataLines.dropLast = ls at split_
  generalize last.dataLines.getLast _ = l at split_
  have shape : encodeFrames first ++ last.lines.flatMap ended ++ ['\n'] =
      encodeFrames first ++ ((last.eventLines ++ ls.map dataLine).flatMap ended ++ dataLine l) ++
        ['\n'] ++ ['\n'] := by
    rw [SseFrame.lines, split_]
    simp [ended]
  have held : ∀ l' ∈ ls, l' ∈ last.dataLines := fun l' h => by simp [split_, h]
  have unbroken : '\n' ∉ dataLine l := by
    intro newline
    rcases List.mem_append.mp newline with known | inside
    · exact absurd known (by decide)
    · have mem : l ∈ last.data.splitOn '\n' := by
        show l ∈ last.dataLines
        simp [split_]
      exact (mem_splitOn mem).1 inside
  rw [Delivers, decode_encode, encodeFrames_concat, shape, List.rdrop_concat_succ,
    List.rdrop_concat_succ, List.rdrop_zero,
    SseDecoder.decodeText_cut plains plain_ held unbroken, List.append_cancel_left_eq]
  exact finish_unfinished split_

end Last

/-- The frames survive the loss of the last newline, and of the last two exactly if `finish` can
make the last one of what is left. -/
theorem delivers_iff {frames : List SseFrame} (nonempty : frames ≠ [])
    (plain : ∀ f ∈ frames, f.Plain) {n : Nat} (cut : n = 1 ∨ n = 2) :
    Delivers frames n ↔ n = 1 ∨ (frames.getLast nonempty).Unfinished := by
  obtain ⟨first, last, rfl⟩ : ∃ first last, frames = first ++ [last] :=
    ⟨_, _, (List.dropLast_append_getLast nonempty).symm⟩
  have plains : ∀ f ∈ first, f.Plain := fun f hf => plain f (List.mem_append_left _ hf)
  have plain_ : last.Plain := plain last (by simp)
  rw [List.getLast_append_singleton]
  rcases cut with rfl | rfl
  · exact iff_of_true (delivers_one plains plain_) (.inl rfl)
  · rw [delivers_two_iff plains plain_]
    simp

section Cases

/-- The end of a stream of messages. -/
def messageStop : SseFrame := ⟨some "message_stop".toList, "\x7b\x7d".toList⟩

theorem messageStop_plain : messageStop.Plain where
  event e h := by
    obtain rfl : "message_stop".toList = e := Option.some.inj h
    exact ⟨by decide, List.all_iff_forall_prop.mp (by decide)⟩
  data := by decide

theorem delivers_messageStop : Delivers [messageStop] 1 :=
  (delivers_iff (List.cons_ne_nil _ _) (by simpa using messageStop_plain) (.inl rfl)).mpr (.inl rfl)

/-- Its data line has no newline: the event is delivered without its data. -/
theorem not_delivers_messageStop : messageStop.Plain ∧ ¬ Delivers [messageStop] 2 := by
  refine ⟨messageStop_plain, ?_⟩
  unfold Delivers
  decide +kernel

end Cases

end Tailfin
