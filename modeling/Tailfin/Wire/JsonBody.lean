import Tailfin.Library.JsonText
import Tailfin.Wire.Json
import Tailfin.Wire.Sse

/-!
# Bodies that are no event streams

A provider may answer with one JSON object instead of a stream. The decoder reads it line by line
all the same: its complete lines are unknown fields and are dropped, and what `finish` turns into
a frame is the text after the last newline. So an object arrives whole only if no newline comes
after its opening brace.
-/

namespace Tailfin

open Text JsonText

def Json.isObject : Json → Bool
  | .object _ => true
  | _ => false

/-- What `serde_json::from_str` is relied on for: it accepts texts of the grammar only, an object
where the text is one, and white space around a text is insignificant. -/
structure JsonParser.Lawful [JsonParser] : Prop where
  grammar : ∀ t v, JsonParser.fromStr t = some v → Grammar (.element v.isObject) t
  spaces : ∀ a t b, Spaces a → Spaces b →
    JsonParser.fromStr (a ++ (t ++ b)) = JsonParser.fromStr t

/-! ## The lines of a body -/

/-- No token starts with this character. -/
theorem scan_between_eq_none {c : Char} (h : c = 'e' ∨ c = 'd') (d : Nat) :
    scan (.between, d) c = none := by
  rcases h with rfl | rfl <;> simp [scan, isSpace, startsAtom]

theorem stripPrefix_of_scanned {d : Nat} {line : List Char} {s : Mode × Nat}
    (scanned : scanAll (.between, d) line = some s) {c : Char} (h : c = 'e' ∨ c = 'd')
    (pre : List Char) : stripPrefix (c :: pre) line = none := by
  unfold stripPrefix
  split
  · next found =>
    obtain ⟨rest, rfl⟩ := List.isPrefixOf_iff_prefix.mp found
    rw [List.cons_append, scanAll_cons, scan_between_eq_none h] at scanned
    cases scanned
  · rfl

/-- A line that starts between two tokens is no field of an event stream. -/
theorem readField_of_scanned {d : Nat} {line : List Char} {s : Mode × Nat}
    (scanned : scanAll (.between, d) line = some s) :
    readField line = .blank ∨ readField line = .ignored := by
  obtain ⟨w, -, split_⟩ := exists_trimEndMatches isLineEnd line
  rw [split_] at scanned
  obtain ⟨r, front, -⟩ := scanAll_of_append scanned
  unfold readField
  simp only
  split
  · exact .inl rfl
  · rw [show "event:".toList = 'e' :: "vent:".toList from rfl,
      show "data:".toList = 'd' :: "ata:".toList from rfl,
      stripPrefix_of_scanned front (.inl rfl), stripPrefix_of_scanned front (.inr rfl)]
    exact .inr rfl

/-- A newline can only stand between two tokens. -/
theorem scan_newline {s s' : Mode × Nat} (h : scan s '\n' = some s') :
    s'.1 = .between ∧ s'.2 = s.2 := by
  obtain ⟨m, d⟩ := s
  cases m with
  | inString | inEscape => simp [scan] at h
  | between | inAtom =>
    have space : isSpace '\n' = true := by decide
    simp only [scan, space, Bool.true_or, if_true, Option.some_inj] at h
    subst h
    exact ⟨rfl, rfl⟩

/-- What is left behind the last newline starts between two tokens too. -/
theorem scanAll_rest {t : List Char} {d : Nat} {s : Mode × Nat}
    (scanned : scanAll (.between, d) t = some s) :
    ∃ k, scanAll (.between, k) (drainLines t).2 = some s := by
  by_cases newline : '\n' ∈ t
  · obtain ⟨u, split_⟩ := exists_of_newline_mem newline
    rw [split_] at scanned
    obtain ⟨r, -, behind⟩ := scanAll_of_append scanned
    rw [scanAll_cons] at behind
    obtain ⟨⟨m, e⟩, ends, rest⟩ := Option.bind_eq_some_iff.mp behind
    obtain ⟨rfl, -⟩ : m = .between ∧ e = r.2 := scan_newline ends
    exact ⟨e, rest⟩
  · rw [drainLines_of_notMem newline]
    exact ⟨d, scanned⟩

namespace SseDecoder

/-- The complete lines of a body make no frame. -/
theorem readLines_of_scanned {t : List Char} {d : Nat} {s : Mode × Nat}
    (scanned : scanAll (.between, d) t = some s) (dec : SseDecoder) (idle : dec.pending = false) :
    dec.readLines (drainLines t).1 = ([], dec) := by
  induction t using line_induction generalizing d with
  | last t unbroken => rw [drainLines_of_notMem unbroken]; rfl
  | line l t unbroken ih =>
    obtain ⟨r, first, rest⟩ := scanAll_of_append scanned
    rw [scanAll_cons] at rest
    obtain ⟨⟨m, d'⟩, newline, rest⟩ := Option.bind_eq_some_iff.mp rest
    obtain ⟨rfl, -⟩ : m = .between ∧ d' = r.2 := scan_newline newline
    have read : dec.readLine l = ([], dec) := by
      unfold readLine
      rcases readField_of_scanned first with blank | ignored
      · simp only [blank, idle, Bool.false_eq_true, if_false]
      · simp only [ignored]
    rw [drainLines_line unbroken, readLines, read, ih rest]
    rfl

/-- Pushed in chunks of whole characters, a body is kept from its last newline on. -/
theorem pushAll_of_scanned {chunks : List (List Char)} {d : Nat} {s : Mode × Nat}
    (scanned : scanAll (.between, d) chunks.flatten = some s) :
    new.pushAll (chunks.map Utf8.encode) =
      ([], { new with buf := (drainLines chunks.flatten).2 }) := by
  rw [pushAll_eq (by simp [new]), Utf8.lossy_encode_chunks, pushText]
  exact readLines_of_scanned scanned _ rfl

end SseDecoder

/-! ## What is left of an object -/

section Leftover

open SseDecoder

/-- White space is no part of a number or a literal. -/
theorem isAtom_of_isWhitespace {c : Char} (h : isWhitespace c = true) : isAtom c = false := by
  apply Bool.eq_false_iff.mpr
  intro atom
  have code : 43 ≤ c.toNat ∧ c.toNat ≤ 122 := by
    have shape : isAtom c = (((decide (c.val ≥ 65 ∧ c.val ≤ 90) || (c.val ≥ 97 && c.val ≤ 122)) ||
      (c.val ≥ 48 && c.val ≤ 57)) || c = '-' || c = '+' || c = '.') := rfl
    simp only [shape, Bool.or_eq_true, decide_eq_true_eq, Bool.and_eq_true,
      UInt32.le_iff_toNat_le, ge_iff_le] at atom
    change (((((65 ≤ c.toNat ∧ c.toNat ≤ 90) ∨ (97 ≤ c.toNat ∧ c.toNat ≤ 122)) ∨
      (48 ≤ c.toNat ∧ c.toNat ≤ 57)) ∨ _) ∨ _) ∨ _ at atom
    rcases atom with (((((h | h) | h) | rfl) | rfl) | rfl)
    · omega
    · omega
    · omega
    all_goals decide
  simp only [isWhitespace, Bool.or_eq_true, Bool.and_eq_true, decide_eq_true_eq, beq_iff_eq] at h
  omega

theorem scan_whitespace {m : Mode} {d : Nat} {c : Char} {s : Mode × Nat} (outside : m.Outside)
    (white : isWhitespace c = true) (scanned : scan (m, d) c = some s) : s = (.between, d) := by
  by_cases space : isSpace c = true
  · rw [scan_space outside d space] at scanned
    exact (Option.some.inj scanned).symm
  · exfalso
    have atom := isAtom_of_isWhitespace white
    have start : startsAtom c = false :=
      Bool.eq_false_iff.mpr fun h => Bool.noConfusion (atom.symm.trans (isAtom_of_startsAtom h))
    have plain : c ∉ special := by
      intro mem
      have known : ∀ y ∈ special, isWhitespace y = true → isSpace y = true :=
        List.all_iff_forall_prop.mp (by decide)
      exact space (known c mem white)
    simp only [special, List.mem_cons, List.not_mem_nil, or_false, not_or] at plain
    rcases outside with rfl | rfl <;> simp_all [scan]

/-- White space between two tokens leaves the scanner where it is, or stops it. -/
theorem scanAll_whitespace {m : Mode} {d : Nat} {w : List Char} {s : Mode × Nat}
    (outside : m.Outside) (white : ∀ c ∈ w, isWhitespace c = true)
    (scanned : scanAll (m, d) w = some s) : s.2 = d ∧ (m = .between → s.1 = .between) := by
  induction w generalizing m with
  | nil =>
    cases scanned
    exact ⟨rfl, id⟩
  | cons c w ih =>
    rw [scanAll_cons] at scanned
    obtain ⟨s', first, rest⟩ := Option.bind_eq_some_iff.mp scanned
    obtain rfl := scan_whitespace outside (white c (by simp)) first
    obtain ⟨depth, still⟩ := ih (.inl rfl) (fun x hx => white x (List.mem_cons_of_mem _ hx)) rest
    exact ⟨depth, fun _ => still rfl⟩

/-- What is left is trimmed. -/
theorem leftover_of_scanned {rest : List Char} {d : Nat} {s : Mode × Nat}
    (scanned : scanAll (.between, d) rest = some s) :
    leftover rest = if (trim rest).isEmpty then [] else [⟨none, trim rest⟩] := by
  obtain ⟨w, w', white, -, split_⟩ := exists_trim rest
  rw [split_] at scanned
  obtain ⟨⟨m, e⟩, before, inner⟩ := scanAll_of_append scanned
  obtain ⟨-, still⟩ := scanAll_whitespace (.inl rfl) white before
  obtain rfl : m = .between := still rfl
  obtain ⟨r, middle, -⟩ := scanAll_of_append inner
  have field : stripPrefix "data:".toList (trim rest) = none :=
    stripPrefix_of_scanned middle (.inr rfl) "ata:".toList
  unfold leftover
  simp only [trimEndMatches_trim fun c => isWhitespace_of_isLineEnd, field]

theorem leftover_of_whitespace {rest : List Char} (h : ∀ c ∈ rest, isWhitespace c = true) :
    leftover rest = [] := by
  rw [leftover, trim_of_whitespace h]
  rfl

/-- Braces with white space around them are left as they are. -/
theorem leftover_braces {w w' : List Char} (hw : ∀ c ∈ w, isWhitespace c = true)
    (hw' : ∀ c ∈ w', isWhitespace c = true) (body : List Char) :
    leftover (w ++ ('{' :: (body ++ ['}']) ++ w')) = [⟨none, '{' :: (body ++ ['}'])⟩] := by
  have line : trimEndMatches isLineEnd ('{' :: (body ++ ['}'])) = '{' :: (body ++ ['}']) :=
    trimEndMatches_of_last (by decide) ('{' :: body)
  have field : stripPrefix "data:".toList ('{' :: (body ++ ['}'])) = none := rfl
  rw [leftover, trim_of_solid hw hw' body (by decide) (by decide)]
  simp only [line, field]
  rfl

/-- An object without a newline behind its opening brace is left whole. -/
theorem leftover_of_unbroken {a body b : List Char} (ha : Spaces a) (hb : Spaces b)
    (unbroken : '\n' ∉ '{' :: (body ++ '}' :: b)) :
    leftover (drainLines (a ++ '{' :: (body ++ '}' :: b))).2 =
      [⟨none, '{' :: (body ++ ['}'])⟩] := by
  have solid : '\n' ∉ '{' :: (body ++ ['}']) ++ b := by
    intro mem
    exact unbroken (by simpa using mem)
  have shape : a ++ '{' :: (body ++ '}' :: b) = a ++ ('{' :: (body ++ ['}']) ++ b) := by simp
  have before : ∀ c ∈ (drainLines a).2, isWhitespace c = true :=
    fun c hc => isWhitespace_of_spaces ha c (mem_of_mem_rest hc)
  rw [shape, rest_append_of_notMem solid]
  exact leftover_braces before (isWhitespace_of_spaces hb) body

/-- Behind a newline between the braces of an object one bracket more is closed than opened. -/
theorem scanAll_behind_newline {body u rest b : List Char} (passes : Passes body)
    (split_ : body = u ++ '\n' :: rest) (hb : Spaces b) :
    ∃ k m, scanAll (.between, k + 1) (rest ++ '}' :: b) = some (m, 0) := by
  obtain ⟨m', outside, closes⟩ := passes
  have whole := closes 0
  rw [split_] at whole
  obtain ⟨s, -, behind⟩ := scanAll_of_append whole
  rw [scanAll_cons] at behind
  obtain ⟨⟨m, d⟩, newline, tail⟩ := Option.bind_eq_some_iff.mp behind
  obtain ⟨rfl, -⟩ : m = .between ∧ d = s.2 := scan_newline newline
  refine ⟨d, .between, ?_⟩
  rw [scanAll_append, scanAll_shift tail 1, Option.bind_some, scanAll_cons,
    scan_close outside 0 (.inl rfl), Option.bind_some, scanAll_spaces_between hb]

variable [JsonParser] (laws : JsonParser.Lawful)

include laws

/-- What is left behind with a bracket still to close is no text of its own. -/
theorem leftover_of_open {rest : List Char} {k : Nat} {m : Mode}
    (scanned : scanAll (.between, k + 1) rest = some (m, 0)) {frame : SseFrame}
    (found : leftover rest = [frame]) (v : Json) : JsonParser.fromStr frame.data ≠ some v := by
  intro parsed
  rw [leftover_of_scanned scanned] at found
  split at found
  · cases found
  · obtain rfl : (⟨none, trim rest⟩ : SseFrame) = frame := List.head_eq_of_cons_eq found
    obtain ⟨w, w', white, white', split_⟩ := exists_trim rest
    rw [split_] at scanned
    obtain ⟨⟨m₁, d₁⟩, before, inner⟩ := scanAll_of_append scanned
    obtain ⟨rfl, still⟩ := scanAll_whitespace (.inl rfl) white before
    obtain rfl : m₁ = .between := still rfl
    obtain ⟨m', outside', passes⟩ := (laws.grammar _ v parsed).passes
    rw [scanAll_append, passes, Option.bind_some] at inner
    obtain ⟨depth, -⟩ := scanAll_whitespace outside' white' inner
    cases depth

/-- What is left of an object behind its last newline is no text of its own. -/
theorem leftover_of_newline {a body b : List Char} (passes : Passes body) (hb : Spaces b)
    (newline : '\n' ∈ '{' :: (body ++ '}' :: b)) {frame : SseFrame}
    (left : leftover (drainLines (a ++ '{' :: (body ++ '}' :: b))).2 = [frame]) (v : Json) :
    JsonParser.fromStr frame.data ≠ some v := by
  by_cases behind : '\n' ∈ b
  · -- Only white space is left.
    have shape : a ++ '{' :: (body ++ '}' :: b) = a ++ '{' :: (body ++ ['}']) ++ b := by simp
    rw [shape, rest_append behind,
      leftover_of_whitespace fun c hc => isWhitespace_of_spaces hb c (mem_of_mem_rest hc)] at left
    cases left
  · -- The brace is still to close.
    have inside : '\n' ∈ body := by
      simp only [List.mem_cons, List.mem_append] at newline
      rcases newline with brace | here | brace | there
      · cases brace
      · exact here
      · cases brace
      · exact absurd there behind
    have solid : '\n' ∉ '}' :: b := by
      simp only [List.mem_cons, not_or]
      exact ⟨by decide, behind⟩
    obtain ⟨u, split_⟩ := exists_of_newline_mem inside
    have shape : a ++ '{' :: (body ++ '}' :: b) = a ++ ['{'] ++ body ++ '}' :: b := by simp
    rw [shape, rest_append_of_notMem solid, rest_append inside] at left
    obtain ⟨k, m, scanned⟩ := scanAll_behind_newline passes split_ hb
    exact leftover_of_open laws scanned left v

/-- The meter sees no frame while the body arrives, and one frame with the value at its end. -/
def WholeBody (chunks : List (List UInt8)) (v : Json) : Prop :=
  (new.pushAll chunks).1 = [] ∧
    ∃ frame, (new.pushAll chunks).2.finish.1 = [frame] ∧ JsonParser.fromStr frame.data = some v

/-- An object arrives whole if and only if no newline comes after its opening brace. -/
theorem wholeBody_iff {chunks : List (List Char)} {members : List (List Char × Json)}
    (valid : JsonParser.fromStr chunks.flatten = some (.object members)) :
    WholeBody (chunks.map Utf8.encode) (.object members) ↔
      '\n' ∉ chunks.flatten.dropWhile (· ≠ '{') := by
  have grammar : Grammar (.element true) chunks.flatten := laws.grammar _ _ valid
  obtain ⟨m, -, scanned⟩ := grammar.passes
  obtain ⟨a, body, b, ha, hb, passes, text⟩ := grammar.exists_body
  have pushed := pushAll_of_scanned (scanned 0)
  have finished : (new.pushAll (chunks.map Utf8.encode)).2.finish.1 =
      leftover (drainLines chunks.flatten).2 := by
    rw [pushed]
    rfl
  have opening : chunks.flatten.dropWhile (· ≠ '{') = '{' :: (body ++ '}' :: b) := by
    have spaces : ∀ c ∈ a, decide (c ≠ '{') = true := by
      intro c hc
      apply decide_eq_true
      rintro rfl
      exact Bool.noConfusion (ha '{' hc)
    rw [text, List.dropWhile_append_of_pos spaces, List.dropWhile_cons_of_neg (by simp)]
  rw [WholeBody, finished, opening, pushed]
  rw [text] at valid scanned ⊢
  refine ⟨fun ⟨_, frame, left, parsed⟩ newline => ?_, fun unbroken => ⟨rfl, ?_⟩⟩
  · exact leftover_of_newline laws passes hb newline left _ parsed
  · refine ⟨⟨none, '{' :: (body ++ ['}'])⟩, leftover_of_unbroken ha hb unbroken, ?_⟩
    have shape : a ++ '{' :: (body ++ '}' :: b) = a ++ ('{' :: (body ++ ['}']) ++ b) := by simp
    rw [shape, laws.spaces a _ b ha hb] at valid
    exact valid

end Leftover

section Cases

/-- The parser on the texts of the empty object. -/
@[reducible] def emptyObjects : JsonParser where
  fromStr t := if t.filter (!isSpace ·) = ['{', '}'] then some (.object []) else none

attribute [local instance] emptyObjects

theorem emptyObjects_lawful : JsonParser.Lawful where
  grammar t v parsed := by
    obtain ⟨kept, value⟩ := Option.ite_none_right_eq_some.mp parsed
    obtain rfl := Option.some.inj value
    obtain ⟨a, t₁, rfl, ha, -, kept⟩ := List.filter_eq_cons_iff.mp kept
    obtain ⟨w, b, rfl, hw, -, kept⟩ := List.filter_eq_cons_iff.mp kept
    have hb := List.filter_eq_nil_iff.mp kept
    have spaces : ∀ {u : List Char}, (∀ c ∈ u, ¬ (!isSpace c) = true) → Spaces u :=
      fun h c hc => by simpa using h c hc
    have whole := Grammar.element (spaces ha) (.emptyObject (spaces hw)) (spaces hb)
    rw [List.cons_append, List.append_assoc] at whole
    exact whole
  spaces a t b ha hb := by
    have gone : ∀ {u : List Char}, Spaces u → u.filter (!isSpace ·) = [] :=
      fun h => List.filter_eq_nil_iff.mpr fun c hc => by simp [h c hc]
    have kept : (a ++ (t ++ b)).filter (!isSpace ·) = t.filter (!isSpace ·) := by
      rw [List.filter_append, List.filter_append, gone ha, gone hb, List.nil_append,
        List.append_nil]
    unfold JsonParser.fromStr
    simp only [kept]

theorem wholeBody_emptyObject :
    WholeBody ([['{'], [' ', '}']].map Utf8.encode) (.object []) :=
  (wholeBody_iff emptyObjects_lawful rfl).mpr (by decide)

/-- A newline behind the object and the meter sees nothing. -/
theorem not_wholeBody_newline :
    JsonParser.fromStr ['{', '}', '\n'] = some (.object []) ∧
      ¬ WholeBody ([['{', '}', '\n']].map Utf8.encode) (.object []) := by
  refine ⟨rfl, fun ⟨_, frame, left, _⟩ => ?_⟩
  have nothing : (SseDecoder.new.pushAll ([['{', '}', '\n']].map Utf8.encode)).2.finish.1 = [] := by
    decide +kernel
  rw [nothing] at left
  cases left

end Cases

end Tailfin
