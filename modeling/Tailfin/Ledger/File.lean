import Tailfin.Ledger.Record
import Tailfin.Library.JsonText
import Tailfin.Library.Utf8

/-!
# The ledger file

`Ledger::open`, `Ledger::append` and `Ledger::read_all` of `tailfin-ledger` over the bytes of the
file, where every operation of the file system succeeds. A record is one line of JSON; the
functions of `serde_json` are parameters. A crash in the middle of a write leaves the front of a
line behind, and the reader has no way around it: it gives up at the first line that is no
record.
-/

namespace Tailfin

open Text JsonText

/-- `serde_json::to_string` and `serde_json::from_str` at `Record`. -/
class RecordJson where
  toString : Record → List Char
  fromStr : List Char → Option Record

/-- What `serde_json` is relied on for at a record: it is written as one compact line, from its
first field to its closing brace, that reads back. -/
structure RecordJson.Writes [RecordJson] (r : Record) : Prop where
  oneLine : '\n' ∉ RecordJson.toString r
  readsBack : RecordJson.fromStr (RecordJson.toString r) = some r
  opens : "\x7b\"schema_version\":".toList <+: RecordJson.toString r
  closes : ['}'] <:+ RecordJson.toString r

/-- And at any text: what it reads a record from is one JSON text, an object or not. A derived
struct is also read from an array of its fields. -/
structure RecordJson.Sound [RecordJson] : Prop where
  grammar : ∀ t r, RecordJson.fromStr t = some r → ∃ o, Grammar (.element o) t

inductive LedgerError where
  | io
  | json
  deriving DecidableEq, Repr

/-- The bytes of the file, if there is one. -/
abbrev LedgerFile := Option (List UInt8)

namespace Ledger

/-- Created if it is missing, and never truncated. -/
def openFile (file : LedgerFile) : LedgerFile := some (file.getD [])

/-- Take the carriage return off a line that has lost its newline. -/
def chompReturn (line : List UInt8) : List UInt8 :=
  if line.getLast? = some 13 then line.dropLast else line

/-- The lines of `BufRead::lines`. What stands behind the last newline is a line if it is not
empty, and keeps its carriage return. -/
def fileLines (bytes : List UInt8) : List (List UInt8) :=
  let pieces := bytes.splitOn 10
  let rest := pieces.getLastD []
  pieces.dropLast.map chompReturn ++ if rest.isEmpty then [] else [rest]

variable [RecordJson]

/-- What `append` writes. -/
def recordLine (r : Record) : List UInt8 := Utf8.encode (RecordJson.toString r ++ ['\n'])

/-- The file has been opened for appending, so it is there. -/
def append (file : LedgerFile) (r : Record) : LedgerFile := file.map (· ++ recordLine r)

/-- One round of the loop in `read_all`. -/
def readLine (line : List UInt8) : Except LedgerError (List Record) :=
  match Utf8.fromUtf8 line with
  | none => .error .io
  | some text =>
    if (trim text).isEmpty then .ok []
    else match RecordJson.fromStr text with
      | some r => .ok [r]
      | none => .error .json

def readLines : List (List UInt8) → Except LedgerError (List Record)
  | [] => .ok []
  | line :: lines => do
    let first ← readLine line
    let rest ← readLines lines
    return first ++ rest

def readAll : LedgerFile → Except LedgerError (List Record)
  | none => .ok []
  | some bytes => readLines (fileLines bytes)

end Ledger

/-- What a process does to the file. -/
inductive LedgerOp where
  | opened
  | append (r : Record)
  deriving DecidableEq, Repr

namespace LedgerOp

def apply [RecordJson] (file : LedgerFile) : LedgerOp → LedgerFile
  | opened => Ledger.openFile file
  | append r => Ledger.append file r

/-- The record of an append. -/
def record : LedgerOp → Option Record
  | opened => none
  | append r => some r

end LedgerOp

/-! ## Lines of bytes -/

namespace Ledger

theorem splitOn_lines {lines : List (List UInt8)} (unbroken : ∀ l ∈ lines, 10 ∉ l)
    {rest : List UInt8} (last : 10 ∉ rest) :
    (lines.flatMap (· ++ [10]) ++ rest).splitOn 10 = lines ++ [rest] := by
  induction lines with
  | nil => exact List.splitOn_eq_singleton last
  | cons line lines ih =>
    have shape : (line :: lines).flatMap (· ++ [10]) ++ rest =
        line ++ 10 :: (lines.flatMap (· ++ [10]) ++ rest) := by simp
    rw [shape, List.splitOn_append_cons_self_of_not_mem (unbroken line (by simp)),
      ih fun l hl => unbroken l (List.mem_cons_of_mem _ hl)]
    rfl

theorem fileLines_lines {lines : List (List UInt8)} (unbroken : ∀ l ∈ lines, 10 ∉ l)
    {rest : List UInt8} (last : 10 ∉ rest) :
    fileLines (lines.flatMap (· ++ [10]) ++ rest) =
      lines.map chompReturn ++ if rest.isEmpty then [] else [rest] := by
  simp only [fileLines, splitOn_lines unbroken last, List.dropLast_concat,
    List.getLastD_concat]

variable [RecordJson]

theorem readLines_append (first rest : List (List UInt8)) :
    readLines (first ++ rest) =
      (readLines first).bind fun a => (readLines rest).map (a ++ ·) := by
  induction first with
  | nil =>
    cases h : readLines rest <;> simp [readLines, Except.bind, Except.map, h]
  | cons line lines ih =>
    rw [List.cons_append, readLines, readLines, ih]
    cases readLine line with
    | error e => rfl
    | ok a =>
      cases readLines lines with
      | error e => rfl
      | ok b => cases readLines rest <;> simp [bind, Except.bind, Except.map, pure, Except.pure]

end Ledger

/-! ## Torn records -/

namespace RecordJson

variable [RecordJson]

/-- What a record is read from is an object if it starts with a brace. -/
theorem Sound.object (sound : Sound) {t : List Char} {r : Record}
    (parsed : fromStr ('{' :: t) = some r) : Grammar (.element true) ('{' :: t) := by
  obtain ⟨o, grammar⟩ := sound.grammar _ _ parsed
  rwa [grammar.object_of_brace] at grammar

/-- A record is written as an object. -/
theorem Writes.object (sound : Sound) {r : Record} (w : Writes r) :
    Grammar (.element true) (toString r) := by
  obtain ⟨rest, opens⟩ := w.opens
  have reads := w.readsBack
  rw [← opens] at reads ⊢
  exact sound.object reads

/-- The text of a record, between its braces. -/
theorem Writes.exists_body (sound : Sound) {r : Record} (w : Writes r) :
    ∃ body, Passes body ∧ toString r = '{' :: (body ++ ['}']) := by
  obtain ⟨a, body, b, ha, hb, passes, split⟩ := (w.object sound).exists_body
  obtain ⟨rest, opens⟩ := w.opens
  obtain ⟨front, closes⟩ := w.closes
  have start : a = [] := by
    cases a with
    | nil => rfl
    | cons c a =>
      rw [split] at opens
      obtain rfl : '{' = c := (List.cons.inj opens).1
      exact Bool.noConfusion (ha '{' (by simp))
  have stop : b = [] := by
    rcases List.eq_nil_or_concat' b with rfl | ⟨b', c, rfl⟩
    · rfl
    · have last : front ++ ['}'] = (a ++ '{' :: (body ++ '}' :: b')) ++ [c] := by
        rw [closes, split]
        simp
      obtain ⟨-, rfl⟩ := List.append_singleton_inj.mp last
      exact Bool.noConfusion (hb '}' (by simp))
  exact ⟨body, passes, by simpa [start, stop] using split⟩

/-- Wherever a record is scanned, it closes nothing that was open before it: inside a string its
second character closes the string, and the name of its first field is no token. -/
theorem Writes.depth_eq (sound : Sound) {r : Record} (w : Writes r) {m m' : Mode} {d d' : Nat}
    (scanned : scanAll (m, d) (toString r) = some (m', d')) : d' = d := by
  by_cases outside : m.Outside
  · obtain ⟨body, passes, braces⟩ := w.exists_body sound
    obtain ⟨m₁, -, closes⟩ := (w.object sound).passes
    have same : scanAll (m, d) (toString r) = scanAll (.between, d) (toString r) := by
      rw [braces, scanAll_cons, scanAll_cons, scan_open outside d (.inl rfl),
        scan_open (.inl rfl) d (.inl rfl)]
    rw [same, closes d] at scanned
    cases scanned
    rfl
  · exfalso
    obtain ⟨rest, opens⟩ := w.opens
    obtain ⟨s, front, -⟩ := scanAll_of_append (opens ▸ scanned)
    cases m with
    | between => exact outside (.inl rfl)
    | inAtom => exact outside (.inr rfl)
    | inString =>
      -- The first quote closes the string, and the name behind it starts nothing.
      have stuck : scanAll (.inString, d) "\x7b\"schema_version\":".toList = none := rfl
      rw [stuck] at front
      cases front
    | inEscape =>
      have stuck : scanAll (.inEscape, d) "\x7b\"schema_version\":".toList = none := rfl
      rw [stuck] at front
      cases front

/-- Behind the front of a record another record does not make it whole. -/
theorem fromStr_torn (sound : Sound) {r : Record} (w : Writes r) {p q t : List Char}
    (split : toString r = p ++ q) (some_ : p ≠ [])
    (behind : t = [] ∧ q ≠ [] ∨ ∃ r', Writes r' ∧ t = toString r') : fromStr (p ++ t) = none := by
  by_contra accepted
  obtain ⟨r₀, parsed⟩ := Option.ne_none_iff_exists'.mp accepted
  obtain ⟨body, passes, braces⟩ := w.exists_body sound
  -- The front starts with the brace of its record, so only an object could have been read.
  have grammar : Grammar (.element true) (p ++ t) := by
    obtain ⟨c, p, rfl⟩ := List.exists_cons_of_ne_nil some_
    rw [braces] at split
    obtain ⟨rfl, -⟩ := List.cons.inj split
    exact sound.object parsed
  obtain ⟨m₀, -, closes⟩ := grammar.passes
  by_cases whole : q = []
  · obtain ⟨r', w', rfl⟩ := behind.resolve_left fun h => h.2 whole
    obtain rfl : toString r = p := by rw [split, whole, List.append_nil]
    obtain ⟨m, -, closed⟩ := (w.object sound).passes
    have filled : ¬ Spaces (toString r) := fun spaces =>
      Bool.noConfusion (spaces '{' (by simp [braces]))
    obtain ⟨body', -, braces'⟩ := w'.exists_body sound
    have spaces := grammar.spaces_behind (closed 0) filled
    exact Bool.noConfusion (spaces '{' (by simp [braces']))
  · obtain ⟨m, d, scanned⟩ := passes.front_open (braces.symm.trans split) some_ whole
    have ends := closes 0
    rw [scanAll_append, scanned, Option.bind_some] at ends
    rcases behind with ⟨rfl, -⟩ | ⟨r', w', rfl⟩
    · cases ends
    · cases w'.depth_eq sound ends

end RecordJson

namespace Ledger

variable [RecordJson]

/-- The bytes of a record without its newline. -/
def recordText (r : Record) : List UInt8 := Utf8.encode (RecordJson.toString r)

theorem recordLine_eq (r : Record) : recordLine r = recordText r ++ [10] := by
  rw [recordLine, Utf8.encode_append]
  rfl

theorem newline_notMem_recordText {r : Record} (w : RecordJson.Writes r) : 10 ∉ recordText r :=
  Utf8.newline_notMem_encode w.oneLine

/-- A line that ends in a record ends in no carriage return. -/
theorem chompReturn_record {r : Record} (w : RecordJson.Writes r) (torn : List UInt8) :
    chompReturn (torn ++ recordText r) = torn ++ recordText r := by
  obtain ⟨front, closes⟩ := w.closes
  have last : (torn ++ recordText r).getLast? = some 125 := by
    rw [recordText, ← closes, Utf8.encode_append, ← List.append_assoc]
    exact List.getLast?_concat
  rw [chompReturn, last]
  rfl

theorem readLine_record (sound : RecordJson.Sound) {r : Record} (w : RecordJson.Writes r) :
    readLine (recordText r) = .ok [r] := by
  obtain ⟨body, -, braces⟩ := w.exists_body sound
  have solid : (trim (RecordJson.toString r)).isEmpty = false :=
    List.isEmpty_eq_false_iff.mpr (trim_ne_nil (c := '{') (by simp [braces]) (by decide))
  simp only [readLine, recordText, Utf8.fromUtf8_encode, solid, w.readsBack]
  rfl

/-- A torn record is no line, alone or with a record behind it. -/
theorem readLine_torn (sound : RecordJson.Sound) {r : Record} (w : RecordJson.Writes r)
    {torn : List UInt8} (front : torn <+: recordText r) (some_ : torn ≠ []) {t : List Char}
    (behind : t = [] ∧ torn ≠ recordText r ∨
      ∃ r', RecordJson.Writes r' ∧ t = RecordJson.toString r') :
    ∃ e, readLine (torn ++ Utf8.encode t) = .error e := by
  obtain ⟨body, -, braces⟩ := w.exists_body sound
  obtain ⟨left, whole⟩ := front
  rcases Utf8.encode_split whole.symm with
    ⟨p, q, split, rfl, rfl⟩ | ⟨x, c, y, p, q, -, rfl, -, cut, hp, hq⟩
  · have filled : p ≠ [] := by
      rintro rfl
      exact some_ rfl
    have brace : '{' ∈ p ++ t := by
      obtain ⟨c, p, rfl⟩ := List.exists_cons_of_ne_nil filled
      rw [braces] at split
      obtain ⟨rfl, -⟩ := List.cons.inj split
      simp
    have rejected : RecordJson.fromStr (p ++ t) = none := by
      apply RecordJson.fromStr_torn sound w split filled
      refine behind.imp_left fun ⟨nothing, proper⟩ => ⟨nothing, ?_⟩
      rintro rfl
      exact proper (by rw [recordText, split, List.append_nil])
    have solid : (trim (p ++ t)).isEmpty = false :=
      List.isEmpty_eq_false_iff.mpr (trim_ne_nil brace (by decide))
    refine ⟨.json, ?_⟩
    simp only [readLine, ← Utf8.encode_append, Utf8.fromUtf8_encode, solid, rejected]
    rfl
  · have narrow : ∀ b ∈ (Utf8.encode t).head?, b.toNat < 0x80 := by
      rcases behind with ⟨rfl, -⟩ | ⟨r', w', rfl⟩
      · simp
      · obtain ⟨body', -, braces'⟩ := w'.exists_body sound
        intro b hb
        rw [braces', Utf8.encode_cons] at hb
        obtain rfl : 123 = b := Option.some.inj hb
        decide
    refine ⟨.io, ?_⟩
    simp only [readLine, Utf8.fromUtf8_cut cut hp hq narrow]

theorem flatMap_recordLine (records : List Record) :
    records.flatMap recordLine = (records.map recordText).flatMap (· ++ [10]) := by
  rw [List.flatMap_map]
  exact List.flatMap_congr fun r _ => recordLine_eq r

theorem chompReturn_records {records : List Record}
    (writes : ∀ r ∈ records, RecordJson.Writes r) :
    (records.map recordText).map chompReturn = records.map recordText := by
  rw [List.map_map]
  exact List.map_congr_left fun r hr => chompReturn_record (writes r hr) []

theorem newline_notMem_records {records : List Record}
    (writes : ∀ r ∈ records, RecordJson.Writes r) : ∀ l ∈ records.map recordText, 10 ∉ l := by
  intro l hl
  obtain ⟨r, hr, rfl⟩ := List.mem_map.mp hl
  exact newline_notMem_recordText (writes r hr)

/-- A torn line at the end of the file is a line of its own. -/
theorem fileLines_last {records : List Record} (writes : ∀ r ∈ records, RecordJson.Writes r)
    {torn : List UInt8} (unbroken : 10 ∉ torn) :
    fileLines (records.flatMap recordLine ++ torn) =
      records.map recordText ++ if torn.isEmpty then [] else [torn] := by
  rw [flatMap_recordLine, fileLines_lines (newline_notMem_records writes) unbroken,
    chompReturn_records writes]

/-- A torn line with records behind it is one line with the first of them. -/
theorem fileLines_inside {first rest : List Record} {r : Record}
    (writes : ∀ r' ∈ first ++ r :: rest, RecordJson.Writes r') {torn : List UInt8}
    (unbroken : 10 ∉ torn) :
    fileLines (first.flatMap recordLine ++ torn ++ (r :: rest).flatMap recordLine) =
      first.map recordText ++ (torn ++ recordText r) :: rest.map recordText := by
  have writes₁ : ∀ r' ∈ first, RecordJson.Writes r' :=
    fun r' hr' => writes r' (List.mem_append_left _ hr')
  have writes₂ : RecordJson.Writes r := writes r (by simp)
  have writes₃ : ∀ r' ∈ rest, RecordJson.Writes r' := fun r' hr' => writes r' (by simp [hr'])
  have shape : first.flatMap recordLine ++ torn ++ (r :: rest).flatMap recordLine =
      (first.map recordText ++ (torn ++ recordText r) :: rest.map recordText).flatMap (· ++ [10]) ++
        [] := by
    simp [flatMap_recordLine, recordLine_eq]
  have whole : ∀ l ∈ first.map recordText ++ (torn ++ recordText r) :: rest.map recordText,
      10 ∉ l := by
    intro l hl
    simp only [List.mem_append, List.mem_cons] at hl
    rcases hl with hl | rfl | hl
    · exact newline_notMem_records writes₁ l hl
    · exact fun mem => (List.mem_append.mp mem).elim unbroken (newline_notMem_recordText writes₂)
    · exact newline_notMem_records writes₃ l hl
  rw [shape, fileLines_lines whole List.not_mem_nil, List.map_append, List.map_cons,
    chompReturn_records writes₁, chompReturn_record writes₂, chompReturn_records writes₃]
  exact List.append_nil _

/-- Whole lines of records are read. -/
theorem readLines_records (sound : RecordJson.Sound) {records : List Record}
    (writes : ∀ r ∈ records, RecordJson.Writes r) :
    readLines (records.map recordText) = .ok records := by
  induction records with
  | nil => rfl
  | cons r records ih =>
    rw [List.map_cons, readLines, readLine_record sound (writes r (by simp)),
      ih fun r' hr' => writes r' (List.mem_cons_of_mem _ hr')]
    rfl

/-- Behind one line that is no record nothing is read, and what was read before is given up. -/
theorem readLines_error (first rest : List (List UInt8)) {line : List UInt8} {e : LedgerError}
    (bad : readLine line = .error e) (out : List Record) :
    readLines (first ++ line :: rest) ≠ .ok out := by
  rw [readLines_append, readLines, bad]
  cases readLines first <;> exact fun h => by cases h

/-- The records before a torn line at the end are read if and only if it is no line at all, or
has all of its record. -/
theorem readLines_last (sound : RecordJson.Sound) {first : List Record} {r : Record}
    (writes : ∀ r' ∈ r :: first, RecordJson.Writes r') {torn : List UInt8}
    (front : torn <+: recordText r) :
    (∃ out, readLines (fileLines (first.flatMap recordLine ++ torn)) = .ok out ∧
      first.Sublist out) ↔ torn = [] ∨ torn = recordText r := by
  have written : RecordJson.Writes r := writes r (by simp)
  have writes₁ : ∀ r' ∈ first, RecordJson.Writes r' :=
    fun r' hr' => writes r' (List.mem_cons_of_mem _ hr')
  have unbroken : 10 ∉ torn := fun mem => newline_notMem_recordText written (front.subset mem)
  rw [fileLines_last writes₁ unbroken]
  by_cases empty : torn = []
  · -- Nothing is torn.
    refine iff_of_true ⟨first, ?_, .refl _⟩ (.inl empty)
    rw [empty, List.isEmpty_nil, if_pos rfl, List.append_nil]
    exact readLines_records sound writes₁
  rw [if_neg (by simpa using empty)]
  by_cases whole : torn = recordText r
  · -- Only the newline is missing, and the reader does not miss it.
    refine iff_of_true ⟨first ++ [r], ?_, List.sublist_append_left _ _⟩ (.inr whole)
    have writes₂ : ∀ r' ∈ first ++ [r], RecordJson.Writes r' :=
      fun r' hr' => writes r' (by simpa [or_comm] using hr')
    have read := readLines_records sound writes₂
    rwa [List.map_append, List.map_singleton, ← whole] at read
  · refine iff_of_false ?_ (by simp [empty, whole])
    rintro ⟨out, read, -⟩
    obtain ⟨e, bad⟩ := readLine_torn sound written front empty (.inl ⟨rfl, whole⟩)
    rw [Utf8.encode_nil, List.append_nil] at bad
    exact readLines_error _ [] bad out read

/-- The records around a torn line are read if and only if it is no line at all. -/
theorem readLines_inside (sound : RecordJson.Sound) {first rest : List Record} {r r₁ : Record}
    (written : RecordJson.Writes r) (writes : ∀ r' ∈ first ++ r₁ :: rest, RecordJson.Writes r')
    {torn : List UInt8} (front : torn <+: recordText r) :
    (∃ out, readLines (fileLines
        (first.flatMap recordLine ++ torn ++ (r₁ :: rest).flatMap recordLine)) = .ok out ∧
      (first ++ r₁ :: rest).Sublist out) ↔ torn = [] := by
  have unbroken : 10 ∉ torn := fun mem => newline_notMem_recordText written (front.subset mem)
  rw [fileLines_inside writes unbroken]
  by_cases empty : torn = []
  · refine iff_of_true ⟨first ++ r₁ :: rest, ?_, .refl _⟩ empty
    have read := readLines_records sound writes
    rwa [List.map_append, List.map_cons, ← List.nil_append (recordText r₁), ← empty] at read
  · -- The torn line and the next record are one line.
    refine iff_of_false ?_ empty
    rintro ⟨out, read, -⟩
    have next : RecordJson.Writes r₁ := writes r₁ (by simp)
    obtain ⟨e, bad⟩ := readLine_torn sound written front empty (.inr ⟨r₁, next, rfl⟩)
    exact readLines_error _ _ bad out read

end Ledger

/-! ## A crash -/

section Crash

variable [RecordJson]

/-- The file after one process has run and crashed in the middle of a write, and others after
it. -/
def afterCrash (before : List LedgerOp) (torn : List UInt8) (after : List LedgerOp) : LedgerFile :=
  after.foldl LedgerOp.apply
    ((before.foldl LedgerOp.apply (Ledger.openFile none)).map (· ++ torn))

/-- The reader returns every record that was appended, in order. -/
def Survives (before : List LedgerOp) (torn : List UInt8) (after : List LedgerOp) : Prop :=
  ∃ out, Ledger.readAll (afterCrash before torn after) = .ok out ∧
    ((before ++ after).filterMap LedgerOp.record).Sublist out

theorem foldl_apply (ops : List LedgerOp) (bytes : List UInt8) :
    ops.foldl LedgerOp.apply (some bytes) =
      some (bytes ++ (ops.filterMap LedgerOp.record).flatMap Ledger.recordLine) := by
  induction ops generalizing bytes with
  | nil => simp
  | cons op ops ih =>
    cases op with
    | opened => exact ih bytes
    | append r =>
      show ops.foldl LedgerOp.apply (some (bytes ++ Ledger.recordLine r)) = _
      rw [ih]
      simp [LedgerOp.record]

theorem afterCrash_eq (before after : List LedgerOp) (torn : List UInt8) :
    afterCrash before torn after =
      some ((before.filterMap LedgerOp.record).flatMap Ledger.recordLine ++ torn ++
        (after.filterMap LedgerOp.record).flatMap Ledger.recordLine) := by
  rw [afterCrash, Ledger.openFile, foldl_apply, Option.map_some, foldl_apply]
  rfl

/-- The ledger survives a crash if and only if nothing of the torn line is in the file, or all of
it but its newline, and nothing was appended behind it. -/
theorem survives_iff (sound : RecordJson.Sound) {before after : List LedgerOp} {r : Record}
    (writes : ∀ r' ∈ r :: (before ++ after).filterMap LedgerOp.record, RecordJson.Writes r')
    {torn : List UInt8} (front : torn <+: Ledger.recordLine r)
    (proper : torn ≠ Ledger.recordLine r) :
    Survives before torn after ↔
      torn = [] ∨ torn = Ledger.recordText r ∧ after.filterMap LedgerOp.record = [] := by
  have inText : torn <+: Ledger.recordText r := by
    rw [Ledger.recordLine_eq] at front proper
    exact (List.prefix_concat_iff.mp front).resolve_left proper
  rw [Survives, afterCrash_eq, Ledger.readAll, List.filterMap_append]
  rw [List.filterMap_append] at writes
  generalize before.filterMap LedgerOp.record = first at writes
  generalize after.filterMap LedgerOp.record = later at writes
  cases later with
  | nil =>
    simp only [List.flatMap_nil, List.append_nil, and_true] at writes ⊢
    exact Ledger.readLines_last sound writes inText
  | cons r₁ later =>
    have known : ∀ r' ∈ first ++ r₁ :: later, RecordJson.Writes r' :=
      fun r' hr' => writes r' (List.mem_cons_of_mem _ hr')
    simp only [reduceCtorEq, and_false, or_false]
    exact Ledger.readLines_inside sound (writes r (by simp)) known inText

end Crash

section Cases

/-- The members of an object as `serde_json` writes them. -/
def membersText : List (String × String) → List Char
  | [] => []
  | [m] => '"' :: (m.1.toList ++ ['"']) ++ ':' :: m.2.toList
  | m :: ms => '"' :: (m.1.toList ++ ['"']) ++ ':' :: (m.2.toList ++ ',' :: membersText ms)

theorem grammar_membersText {ms : List (String × String)} (some_ : ms ≠ [])
    (names : ∀ m ∈ ms, Chars m.1.toList)
    (values : ∀ m ∈ ms, ∃ o, Grammar (.value o) m.2.toList) :
    Grammar .members (membersText ms) := by
  have none_ : Spaces [] := fun _ h => by cases h
  induction ms with
  | nil => exact absurd rfl some_
  | cons m ms ih =>
    obtain ⟨o, value⟩ := values m (by simp)
    have name : IsString ('"' :: (m.1.toList ++ ['"'])) := ⟨_, names m (by simp), rfl⟩
    have element : Grammar (.element o) m.2.toList := by
      have spaced := Grammar.element none_ value none_
      rwa [List.append_nil, List.nil_append] at spaced
    cases ms with
    | nil => exact .lastMember none_ name none_ element
    | cons m' ms =>
      have rest := ih (List.cons_ne_nil _ _) (fun x hx => names x (List.mem_cons_of_mem _ hx))
        fun x hx => values x (List.mem_cons_of_mem _ hx)
      exact .nextMember none_ name none_ element rest

/-- A request of a declared session. -/
def aRecord : Record where
  schemaVersion := 1
  taskId := "s"
  node := "s"
  parent := none
  confidence := 1
  incomplete := false
  input := 1
  output := 2
  cacheWrite5m := 0
  cacheWrite1h := 0
  cacheRead := 0
  reasoning := 0
  peakConcurrency := 1
  tsUnixMs := 0
  captureId := none

def aRecordMembers : List (String × String) :=
  [("schema_version", "1"), ("task_id", "\"s\""), ("node", "\"s\""), ("parent", "null"),
    ("confidence", "1.0"), ("incomplete", "false"), ("input", "1"), ("output", "2"),
    ("cache_write_5m", "0"), ("cache_write_1h", "0"), ("cache_read", "0"), ("reasoning", "0"),
    ("peak_concurrency", "1"), ("ts_unix_ms", "0")]

def aRecordText : List Char := '{' :: (membersText aRecordMembers ++ ['}'])

/-- `serde_json` at this one record. -/
@[reducible] def oneRecord : RecordJson where
  toString _ := aRecordText
  fromStr t := if t = aRecordText then some aRecord else none

attribute [local instance] oneRecord

theorem chars_of_plain {s : List Char}
    (plain : ∀ c ∈ s, 0x20 ≤ c.toNat ∧ c ≠ '"' ∧ c ≠ '\\') : Chars s := by
  induction s with
  | nil => exact .nil
  | cons c s ih =>
    obtain ⟨high, quote, slash⟩ := plain c (by simp)
    exact .plain high quote slash (ih fun x hx => plain x (List.mem_cons_of_mem _ hx))

theorem oneRecord_sound : RecordJson.Sound where
  grammar t r parsed := by
    obtain ⟨rfl, -⟩ := Option.ite_none_right_eq_some.mp parsed
    have names : ∀ m ∈ aRecordMembers, Chars m.1.toList := by
      have plain : ∀ m ∈ aRecordMembers,
          (m.1.toList.all fun c => 0x20 ≤ c.toNat ∧ c ≠ '"' ∧ c ≠ '\\') = true := by decide
      exact fun m hm => chars_of_plain (List.all_iff_forall_prop.mp (plain m hm))
    have zero : IsInt ['0'] := .inl rfl
    have one : IsInt ['1'] :=
      .inr ⟨⟨by simp, List.all_iff_forall_prop.mp (by decide)⟩, by decide⟩
    have two : IsInt ['2'] :=
      .inr ⟨⟨by simp, List.all_iff_forall_prop.mp (by decide)⟩, by decide⟩
    have number : ∀ {int : List Char}, IsInt int → IsNumber int := fun {int} h =>
      ⟨[], int, [], [], .inl rfl, h, .inl rfl, .inl rfl, by simp⟩
    have grade : IsNumber "1.0".toList :=
      ⟨[], ['1'], ['.', '0'], [], .inl rfl, one, .inr ⟨['0'], zero.digits, rfl⟩, .inl rfl, rfl⟩
    have name : IsString "\"s\"".toList :=
      ⟨['s'], chars_of_plain (List.all_iff_forall_prop.mp (by decide)), rfl⟩
    have kinds : ∀ m ∈ aRecordMembers,
        m.2 ∈ ["0", "1", "2", "1.0", "\"s\"", "null", "false"] := by decide
    have values : ∀ m ∈ aRecordMembers, ∃ o, Grammar (.value o) m.2.toList := by
      intro m hm
      have kind := kinds m hm
      simp only [List.mem_cons, List.not_mem_nil, or_false] at kind
      refine ⟨false, ?_⟩
      rcases kind with h | h | h | h | h | h | h <;> rw [h]
      · exact .number (number zero)
      · exact .number (number one)
      · exact .number (number two)
      · exact .number grade
      · exact .string name
      · exact .literal (.inr (.inr rfl))
      · exact .literal (.inr (.inl rfl))
    have none_ : Spaces [] := fun _ h => by cases h
    have spaced := Grammar.element none_
      (.object (grammar_membersText (by simp [aRecordMembers]) names values)) none_
    rw [List.append_nil, List.nil_append] at spaced
    exact ⟨true, spaced⟩

theorem oneRecord_writes : RecordJson.Writes aRecord where
  oneLine := by decide
  readsBack := if_pos rfl
  opens := by decide
  closes := ⟨'{' :: membersText aRecordMembers, rfl⟩

theorem survives_nothing_torn :
    Survives [.append aRecord] [] [.opened, .append aRecord] := by
  have writes : ∀ r ∈ [aRecord, aRecord, aRecord], RecordJson.Writes r := by
    simpa using oneRecord_writes
  have proper : [] ≠ Ledger.recordLine aRecord := by decide
  exact (survives_iff oneRecord_sound writes List.nil_prefix proper).mpr (.inl rfl)

/-- The first byte of a record is left behind, and the next one is appended to it. -/
theorem not_survives_brace :
    [123] <+: Ledger.recordLine aRecord ∧ [123] ≠ Ledger.recordLine aRecord ∧
      ¬ Survives [.append aRecord] [123] [.opened, .append aRecord] := by
  refine ⟨by decide, by decide, ?_⟩
  rintro ⟨out, read, -⟩
  have fails : (Ledger.readAll
      (afterCrash [.append aRecord] [123] [.opened, .append aRecord])).isOk = false := by
    decide +kernel
  rw [read] at fails
  cases fails

end Cases

end Tailfin
