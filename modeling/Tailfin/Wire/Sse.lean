import Tailfin.Library.Text
import Tailfin.Library.Utf8

/-!
# Decoding event streams

`SseFrame` and `SseDecoder` of `tailfin-wire`, over texts as lists of characters. The decoder
reads a chunk as lossy UTF-8, keeps the unfinished line in a buffer, and collects the event and
data lines of the frame under way. Its state is a summary of the text read so far: what it
decodes depends on the decoded text alone, however that text is divided into pushes.
-/

namespace Tailfin

open Text

/-- One decoded `text/event-stream` frame. -/
structure SseFrame where
  event : Option (List Char)
  data : List Char
  deriving DecidableEq, Repr

structure SseDecoder where
  buf : List Char
  event : Option (List Char)
  data : List (List Char)
  deriving DecidableEq, Repr

/-- What a line is to the decoder. -/
inductive SseField where
  | blank
  | event (v : List Char)
  | data (v : List Char)
  /-- Comments and unknown fields. -/
  | ignored
  deriving DecidableEq, Repr

def isLineEnd (c : Char) : Bool := c = '\n' || c = '\r'

theorem isWhitespace_of_isLineEnd {c : Char} (h : isLineEnd c = true) : isWhitespace c = true := by
  simp only [isLineEnd, Bool.or_eq_true, decide_eq_true_eq] at h
  rcases h with rfl | rfl <;> decide

/-- The conditions of the loop in `push`, on one drained line. -/
def readField (line : List Char) : SseField :=
  let line := trimEndMatches isLineEnd line
  if line.isEmpty then .blank
  else match stripPrefix "event:".toList line with
    | some v => .event v
    | none => match stripPrefix "data:".toList line with
      | some v => .data ((stripPrefix [' '] v).getD v)
      | none => .ignored

namespace SseDecoder

def new : SseDecoder := ⟨[], none, []⟩

/-- A frame is under way. -/
def pending (d : SseDecoder) : Bool := !d.data.isEmpty || d.event.isSome

/-- Take the event and the data lines, joined by newlines. -/
def takeFrame (d : SseDecoder) : SseFrame × SseDecoder :=
  (⟨d.event, ['\n'].intercalate d.data⟩, { d with event := none, data := [] })

/-- One round of the loop in `push`. -/
def readLine (d : SseDecoder) (line : List Char) : List SseFrame × SseDecoder :=
  match readField line with
  | .blank => if d.pending then ([d.takeFrame.1], d.takeFrame.2) else ([], d)
  | .event v => ([], { d with event := some (trim v) })
  | .data v => ([], { d with data := d.data ++ [v] })
  | .ignored => ([], d)

def readLines (d : SseDecoder) : List (List Char) → List SseFrame × SseDecoder
  | [] => ([], d)
  | line :: lines =>
    let first := d.readLine line
    let rest := first.2.readLines lines
    (first.1 ++ rest.1, rest.2)

/-- Append to the buffer, then drain and read its complete lines. -/
def pushText (d : SseDecoder) (text : List Char) : List SseFrame × SseDecoder :=
  let drained := drainLines (d.buf ++ text)
  { d with buf := drained.2 }.readLines drained.1

/-- Push a chunk. Returns whatever frames completed. -/
def push (d : SseDecoder) (chunk : List UInt8) : List SseFrame × SseDecoder :=
  d.pushText (Utf8.lossy chunk)

/-- The frame that `finish` makes of an unfinished last line. -/
def leftover (buf : List Char) : List SseFrame :=
  let line := trimEndMatches isLineEnd (trim buf)
  if line.isEmpty then []
  else match stripPrefix "data:".toList line with
    | some v => [⟨none, trim v⟩]
    | none => [⟨none, line⟩]

/-- Emit a leftover frame when the stream ends without a trailing blank line. -/
def finish (d : SseDecoder) : List SseFrame × SseDecoder :=
  if d.pending then ([d.takeFrame.1], d.takeFrame.2)
  else (leftover d.buf, { d with buf := [] })

/-- Push chunk after chunk. -/
def pushAll (d : SseDecoder) : List (List UInt8) → List SseFrame × SseDecoder
  | [] => ([], d)
  | chunk :: chunks =>
    let first := d.push chunk
    let rest := first.2.pushAll chunks
    (first.1 ++ rest.1, rest.2)

/-- The frames of a stream that arrives in chunks and ends. -/
def decode (chunks : List (List UInt8)) : List SseFrame :=
  let pushed := new.pushAll chunks
  pushed.1 ++ pushed.2.finish.1

/-- The frames of a text pushed at once. -/
def decodeText (text : List Char) : List SseFrame :=
  let pushed := new.pushText text
  pushed.1 ++ pushed.2.finish.1

/-! ## The state is a summary of the text -/

@[simp] theorem readLine_buf (d : SseDecoder) (line : List Char) :
    (d.readLine line).2.buf = d.buf := by
  unfold readLine
  cases readField line with
  | blank =>
    simp only
    split <;> rfl
  | event v => rfl
  | data v => rfl
  | ignored => rfl

@[simp] theorem readLines_buf (d : SseDecoder) (lines : List (List Char)) :
    (d.readLines lines).2.buf = d.buf := by
  induction lines generalizing d with
  | nil => rfl
  | cons line lines ih => rw [readLines, ih, readLine_buf]

/-- Reading lines does not look at the buffer. -/
theorem readLine_withBuf (d : SseDecoder) (buf line : List Char) :
    { d with buf := buf }.readLine line =
      ((d.readLine line).1, { (d.readLine line).2 with buf := buf }) := by
  unfold readLine
  cases readField line with
  | blank =>
    have same : ({ d with buf := buf } : SseDecoder).pending = d.pending := rfl
    simp only [same]
    cases d.pending <;> rfl
  | event v => rfl
  | data v => rfl
  | ignored => rfl

theorem readLines_withBuf (d : SseDecoder) (buf : List Char) (lines : List (List Char)) :
    { d with buf := buf }.readLines lines =
      ((d.readLines lines).1, { (d.readLines lines).2 with buf := buf }) := by
  induction lines generalizing d with
  | nil => rfl
  | cons line lines ih => simp only [readLines, readLine_withBuf, ih]

theorem readLines_append (d : SseDecoder) (first rest : List (List Char)) :
    d.readLines (first ++ rest) =
      ((d.readLines first).1 ++ ((d.readLines first).2.readLines rest).1,
        ((d.readLines first).2.readLines rest).2) := by
  induction first generalizing d with
  | nil => rfl
  | cons line lines ih => simp only [List.cons_append, readLines, ih, List.append_assoc]

/-- Two pushes do what one push of both texts does. -/
theorem pushText_append (d : SseDecoder) (s t : List Char) :
    d.pushText (s ++ t) =
      ((d.pushText s).1 ++ ((d.pushText s).2.pushText t).1,
        ((d.pushText s).2.pushText t).2) := by
  unfold pushText
  rw [← List.append_assoc, drainLines_append (d.buf ++ s) t]
  simp only [readLines_append, readLines_withBuf]

theorem pushText_nil {d : SseDecoder} (unbroken : '\n' ∉ d.buf) : d.pushText [] = ([], d) := by
  rw [pushText, List.append_nil, drainLines_of_notMem unbroken]
  rfl

theorem newline_notMem_pushText (d : SseDecoder) (t : List Char) :
    '\n' ∉ (d.pushText t).2.buf := by
  rw [pushText, readLines_buf]
  exact newline_notMem_rest _

/-- Pushing chunks is pushing the text that they decode to. -/
theorem pushAll_eq {d : SseDecoder} (unbroken : '\n' ∉ d.buf) (chunks : List (List UInt8)) :
    d.pushAll chunks = d.pushText (chunks.flatMap Utf8.lossy) := by
  induction chunks generalizing d with
  | nil => exact (pushText_nil unbroken).symm
  | cons chunk chunks ih =>
    rw [List.flatMap_cons, pushText_append, pushAll, push, ih (newline_notMem_pushText _ _)]

theorem decode_eq (chunks : List (List UInt8)) :
    decode chunks = decodeText (chunks.flatMap Utf8.lossy) := by
  rw [decode, decodeText, pushAll_eq (by simp [new])]

theorem decode_chunks (chunks : List (List Char)) :
    decode (chunks.map Utf8.encode) = decodeText chunks.flatten := by
  rw [decode_eq, Utf8.lossy_encode_chunks]

/-- Cut between characters, the stream decodes as in one piece. -/
theorem decode_of_encoded_chunks {chunks : List (List UInt8)}
    (cuts : ∀ u ∈ chunks, ∃ x, u = Utf8.encode x) : decode chunks = decode [chunks.flatten] := by
  rw [decode_eq, decode_eq, Utf8.lossy_of_encoded_chunks cuts, List.flatMap_singleton]

end SseDecoder

end Tailfin
