import Mathlib.Algebra.Order.Ring.Nat
import Tailfin.Wire.Sse

/-!
# Chunk boundaries

A chunk is decoded on its own, so a character that a chunk boundary cuts in two is replaced by
U+FFFD, once or more. Where every character that reaches a frame is ASCII, the frames do not
depend on where the stream is cut; where one is not, cutting the stream into single bytes gives
other frames than leaving it whole.
-/

namespace Tailfin

open Text Utf8

/-! ## What reaches a frame -/

/-- An event line comes before the next blank line, and replaces the event kept so far. -/
def overwritten : List (List Char) → Bool
  | [] => false
  | line :: lines =>
    match readField line with
    | .blank => false
    | .event _ => true
    | .data _ => overwritten lines
    | .ignored => overwritten lines

/-- The values of the data lines, and of the event lines that are not overwritten. -/
def liveLines : List (List Char) → List Char
  | [] => []
  | line :: lines =>
    match readField line with
    | .blank => liveLines lines
    | .event v => if overwritten lines then liveLines lines else v ++ liveLines lines
    | .data v => v ++ liveLines lines
    | .ignored => liveLines lines

/-- A frame is under way behind these lines, when one is before them if `pending`. -/
def endsPending (pending : Bool) : List (List Char) → Bool
  | [] => pending
  | line :: lines =>
    match readField line with
    | .blank => endsPending false lines
    | .event _ => endsPending true lines
    | .data _ => endsPending true lines
    | .ignored => endsPending pending lines

/-- The parts of a stream that reach a frame: those of its complete lines, and the unfinished last
line unless a frame is under way. -/
def liveText (t : List Char) : List Char :=
  liveLines (drainLines t).1 ++
    if endsPending false (drainLines t).1 then [] else (drainLines t).2

/-! ## Rewriting a stream -/

section Rewriting

variable {ρ : Char → List Char → Prop} (respects : Respects (fun c => ¬ Wide c) ρ)

include respects

/-- A rewritten line is the same kind of line, with its value rewritten. -/
theorem readField_rewrites {l l' : List Char} (h : Rewrites ρ l l') :
    (readField l = .blank ∧ readField l' = .blank) ∨
      (∃ v w, readField l = .event v ∧ readField l' = .event w ∧ Rewrites ρ v w) ∨
      (∃ v w, readField l = .data v ∧ readField l' = .data w ∧ Rewrites ρ v w) ∨
      (readField l = .ignored ∧ readField l' = .ignored) := by
  have narrow : ∀ c, isLineEnd c = true → ¬ Wide c := by
    intro c hc
    unfold isLineEnd at hc
    unfold Wide
    simp only [Bool.or_eq_true, decide_eq_true_eq] at hc
    rcases hc with rfl | rfl <;> decide
  have trimmed := h.trimEndMatches respects narrow
  have empty := trimmed.eq_nil_iff respects
  unfold readField
  simp only
  by_cases blank : trimEndMatches isLineEnd l = []
  · rw [blank, empty.mp blank]
    exact .inl ⟨rfl, rfl⟩
  have blank' : trimEndMatches isLineEnd l' ≠ [] := fun h => blank (empty.mpr h)
  simp only [List.isEmpty_iff, blank, blank', if_false]
  right
  rcases trimmed.stripPrefix respects "event:".toList (narrow_of_all (by decide)) with
    ⟨no, no'⟩ | ⟨v, w, yes, yes', value⟩
  · rw [no, no']
    right
    rcases trimmed.stripPrefix respects "data:".toList (narrow_of_all (by decide)) with
      ⟨no, no'⟩ | ⟨v, w, yes, yes', value⟩
    · rw [no, no']
      exact .inr ⟨rfl, rfl⟩
    · rw [yes, yes']
      refine .inl ⟨_, _, rfl, rfl, ?_⟩
      rcases value.stripPrefix respects [' '] (narrow_of_all (by decide)) with
        ⟨no, no'⟩ | ⟨x, y, yes, yes', rest⟩
      · rw [no, no']
        exact value
      · rw [yes, yes']
        exact rest
  · rw [yes, yes']
    exact .inl ⟨v, w, rfl, rfl, value⟩

theorem overwritten_rewrites {ls ls' : List (List Char)} (h : List.Forall₂ (Rewrites ρ) ls ls') :
    overwritten ls' = overwritten ls := by
  induction h with
  | nil => rfl
  | cons line _ ih =>
    rcases readField_rewrites respects line with ⟨a, b⟩ | ⟨v, w, a, b, -⟩ | ⟨v, w, a, b, -⟩ |
      ⟨a, b⟩ <;> simp only [overwritten, a, b, ih]

theorem endsPending_rewrites {ls ls' : List (List Char)} (h : List.Forall₂ (Rewrites ρ) ls ls')
    (pending : Bool) : endsPending pending ls' = endsPending pending ls := by
  induction h generalizing pending with
  | nil => rfl
  | cons line _ ih =>
    rcases readField_rewrites respects line with ⟨a, b⟩ | ⟨v, w, a, b, -⟩ | ⟨v, w, a, b, -⟩ |
      ⟨a, b⟩ <;> simp only [endsPending, a, b, ih]

theorem liveLines_rewrites {ls ls' : List (List Char)} (h : List.Forall₂ (Rewrites ρ) ls ls') :
    Rewrites ρ (liveLines ls) (liveLines ls') := by
  induction h with
  | nil => exact .nil
  | cons line rest ih =>
    rcases readField_rewrites respects line with ⟨a, b⟩ | ⟨v, w, a, b, value⟩ |
      ⟨v, w, a, b, value⟩ | ⟨a, b⟩
    · simpa only [liveLines, a, b] using ih
    · simp only [liveLines, a, b, overwritten_rewrites respects rest]
      split
      · exact ih
      · exact value.append ih
    · simpa only [liveLines, a, b] using value.append ih
    · simpa only [liveLines, a, b] using ih

theorem liveText_rewrites {s t : List Char} (h : Rewrites ρ s t) :
    Rewrites ρ (liveText s) (liveText t) := by
  obtain ⟨lines, rest⟩ := h.drainLines respects (by decide)
  unfold liveText
  rw [endsPending_rewrites respects lines]
  refine (liveLines_rewrites respects lines).append ?_
  split
  · exact .nil
  · exact rest

end Rewriting

/-! ## ASCII frames do not depend on the cuts -/

namespace SseDecoder

/-- Two decoders that will report the same: their data lines agree, and so do their events unless
a later line overwrites them. -/
structure Agree (lines : List (List Char)) (d d' : SseDecoder) : Prop where
  data : d'.data = d.data
  isSome : d'.event.isSome = d.event.isSome
  event : overwritten lines = false → d'.event = d.event

theorem Agree.pending {lines : List (List Char)} {d d' : SseDecoder} (h : Agree lines d d') :
    d'.pending = d.pending := by
  rw [SseDecoder.pending, SseDecoder.pending, h.data, h.isSome]

/-- One line: the same frame, if any, and decoders that still agree. -/
theorem readLine_garbled {l l' : List Char} (line : Garbled l l') {ls : List (List Char)}
    (narrow : ∀ c ∈ liveLines (l :: ls), ¬ Wide c) {d d' : SseDecoder}
    (agree : Agree (l :: ls) d d') :
    (d'.readLine l').1 = (d.readLine l).1 ∧ Agree ls (d.readLine l).2 (d'.readLine l').2 := by
  rcases readField_rewrites respects_garbles line with ⟨a, b⟩ | ⟨v, w, a, b, value⟩ |
    ⟨v, w, a, b, value⟩ | ⟨a, b⟩
  · have event := agree.event (by simp [overwritten, a])
    simp only [readLine, a, b, agree.pending]
    cases d.pending with
    | true => simp [takeFrame, event, agree.data, Agree.mk]
    | false => exact ⟨rfl, agree.data, agree.isSome, fun _ => event⟩
  · simp only [readLine, a, b]
    refine ⟨trivial, agree.data, rfl, fun kept => ?_⟩
    have live : ∀ c ∈ v, ¬ Wide c := fun c hc => narrow c (by simp [liveLines, a, kept, hc])
    rw [value.eq_of_kept respects_garbles live]
  · simp only [readLine, a, b]
    have live : ∀ c ∈ v, ¬ Wide c := fun c hc => narrow c (by simp [liveLines, a, hc])
    rw [value.eq_of_kept respects_garbles live]
    refine ⟨trivial, by simp [agree.data], agree.isSome, fun kept => agree.event ?_⟩
    simpa [overwritten, a] using kept
  · simp only [readLine, a, b]
    refine ⟨trivial, agree.data, agree.isSome, fun kept => agree.event ?_⟩
    simpa [overwritten, a] using kept

theorem liveLines_tail {l : List Char} {ls : List (List Char)} {c : Char}
    (h : c ∈ liveLines ls) : c ∈ liveLines (l :: ls) := by
  unfold liveLines
  cases readField l with
  | blank => exact h
  | event v =>
    simp only
    split
    · exact h
    · exact List.mem_append_right _ h
  | data v => exact List.mem_append_right _ h
  | ignored => exact h

/-- Over lines whose live parts are ASCII, garbling changes no frame. -/
theorem readLines_garbled {ls ls' : List (List Char)} (h : List.Forall₂ Garbled ls ls')
    (narrow : ∀ c ∈ liveLines ls, ¬ Wide c) {d d' : SseDecoder} (agree : Agree ls d d') :
    (d'.readLines ls').1 = (d.readLines ls).1 ∧
      Agree [] (d.readLines ls).2 (d'.readLines ls').2 := by
  induction h generalizing d d' with
  | nil => exact ⟨rfl, agree⟩
  | cons line rest ih =>
    obtain ⟨first, agree'⟩ := readLine_garbled line narrow agree
    obtain ⟨frames, final⟩ := ih (fun c hc => narrow c (liveLines_tail hc)) agree'
    simp only [readLines]
    exact ⟨by rw [first, frames], final⟩

/-- Whether a frame is under way behind some lines depends on the lines alone. -/
theorem pending_readLines (d : SseDecoder) (ls : List (List Char)) :
    (d.readLines ls).2.pending = endsPending d.pending ls := by
  induction ls generalizing d with
  | nil => rfl
  | cons l ls ih =>
    rw [readLines, ih, readLine, endsPending]
    cases readField l with
    | blank =>
      cases frame : d.pending with
      | true => rfl
      | false => simp [frame]
    | event v => simp [pending]
    | data v =>
      have kept : (d.data ++ [v]).isEmpty = false := by simp
      simp [pending, kept]
    | ignored => rfl

theorem decodeText_garbled {s t : List Char} (h : Garbled s t)
    (narrow : ∀ c ∈ liveText s, ¬ Wide c) : decodeText t = decodeText s := by
  obtain ⟨lines, rest⟩ := h.drainLines respects_garbles (by decide)
  have agree : Agree (drainLines s).1 { new with buf := (drainLines s).2 }
      { new with buf := (drainLines t).2 } := ⟨rfl, rfl, fun _ => rfl⟩
  obtain ⟨frames, final⟩ := readLines_garbled lines
    (fun c hc => narrow c (List.mem_append_left _ hc)) agree
  have bufS := readLines_buf { new with buf := (drainLines s).2 } (drainLines s).1
  have bufT := readLines_buf { new with buf := (drainLines t).2 } (drainLines t).1
  have pendingS := pending_readLines { new with buf := (drainLines s).2 } (drainLines s).1
  have pendingT := final.pending
  simp only [decodeText, pushText, new, List.nil_append]
    at frames final bufS bufT pendingS pendingT ⊢
  generalize SseDecoder.readLines ⟨(drainLines s).2, none, []⟩ (drainLines s).1 = p at *
  generalize SseDecoder.readLines ⟨(drainLines t).2, none, []⟩ (drainLines t).1 = q at *
  rw [frames]
  congr 1
  unfold finish
  rw [pendingT]
  by_cases held : p.2.pending = true
  · rw [if_pos held, if_pos held, takeFrame, takeFrame, final.event rfl, final.data]
  · have live : ∀ c ∈ (drainLines s).2, ¬ Wide c := by
      intro c hc
      refine narrow c (List.mem_append_right _ ?_)
      rw [if_neg (pendingS ▸ held)]
      exact hc
    have same : (drainLines t).2 = (drainLines s).2 := rest.eq_of_kept respects_garbles live
    rw [if_neg held, if_neg held, bufS, bufT, same]

/-! ## Counting replacements -/

/-- How often U+FFFD stands in a text. -/
def replacements (t : List Char) : Nat := t.count replacement

def frameReplacements (f : SseFrame) : Nat :=
  replacements (f.event.getD []) + replacements f.data

/-- The replacements of the frame under way. -/
def heldReplacements (d : SseDecoder) : Nat :=
  replacements (d.event.getD []) + (d.data.map replacements).sum

@[simp] theorem replacements_nil : replacements [] = 0 := rfl

theorem replacements_append (s t : List Char) :
    replacements (s ++ t) = replacements s + replacements t :=
  List.count_append

theorem replacements_trimEndMatches {p : Char → Bool} (solid : p replacement = false)
    (t : List Char) : replacements (trimEndMatches p t) = replacements t := by
  induction t with
  | nil => rfl
  | cons c t ih =>
    rw [trimEndMatches_cons]
    split
    · next gone =>
      have other : c ≠ replacement := by
        rintro rfl
        rw [solid] at gone
        exact Bool.noConfusion gone.2
      rw [gone.1] at ih
      rw [replacements, replacements, List.count_cons_of_ne other]
      exact ih
    · rw [replacements, replacements, List.count_cons, List.count_cons]
      exact congrArg (· + _) ih

theorem replacements_trim (t : List Char) : replacements (trim t) = replacements t := by
  rw [trim, replacements_trimEndMatches (by decide)]
  induction t with
  | nil => rfl
  | cons c t ih =>
    unfold trimStart at ih ⊢
    rw [List.dropWhile_cons]
    split
    · next gone =>
      have other : c ≠ replacement := by
        rintro rfl
        exact absurd gone (by decide)
      rw [ih, replacements, replacements, List.count_cons_of_ne other]
    · rfl

theorem replacements_stripPrefix {pre t v : List Char} (plain : replacement ∉ pre)
    (h : stripPrefix pre t = some v) : replacements v = replacements t := by
  unfold stripPrefix at h
  split at h
  · next found =>
    obtain ⟨w, rfl⟩ := List.isPrefixOf_iff_prefix.mp found
    rw [List.drop_left, Option.some_inj] at h
    rw [← h, replacements_append]
    have none : replacements pre = 0 := List.count_eq_zero.mpr plain
    omega
  · cases h

theorem replacements_intercalate (ls : List (List Char)) :
    replacements (['\n'].intercalate ls) = (ls.map replacements).sum := by
  induction ls with
  | nil => rfl
  | cons l ls ih =>
    cases ls with
    | nil => simp [List.intercalate]
    | cons l' ls =>
      have step : ['\n'].intercalate (l :: l' :: ls) =
          l ++ ('\n' :: ['\n'].intercalate (l' :: ls)) := by
        simp [List.intercalate]
      rw [step, replacements_append, List.map_cons, List.sum_cons, ← ih]
      rfl

theorem frameReplacements_takeFrame (d : SseDecoder) :
    frameReplacements d.takeFrame.1 = d.heldReplacements := by
  rw [frameReplacements, heldReplacements, takeFrame, replacements_intercalate]

theorem heldReplacements_of_not_pending {d : SseDecoder} (h : d.pending = false) :
    d.heldReplacements = 0 := by
  unfold pending at h
  simp only [Bool.or_eq_false_iff, Bool.not_eq_false', List.isEmpty_iff, Option.isSome_eq_false_iff,
    Option.isNone_iff_eq_none] at h
  simp [heldReplacements, h, replacements]

/-- Every replacement in a live part is reported or held, and no others are. -/
theorem replacements_readLines (d : SseDecoder) (ls : List (List Char)) :
    ((d.readLines ls).1.map frameReplacements).sum + (d.readLines ls).2.heldReplacements =
      (d.data.map replacements).sum +
        (if overwritten ls then 0 else replacements (d.event.getD [])) +
        replacements (liveLines ls) := by
  induction ls generalizing d with
  | nil => simp [readLines, heldReplacements, overwritten, liveLines, replacements, Nat.add_comm]
  | cons l ls ih =>
    simp only [readLines, List.map_append, List.sum_append, Nat.add_assoc]
    rw [ih, readLine, overwritten, liveLines]
    cases readField l with
    | blank =>
      cases frame : d.pending with
      | true =>
        have reported := d.frameReplacements_takeFrame
        have emptied : (d.takeFrame.2.data.map replacements).sum = 0 := rfl
        have noEvent : replacements (d.takeFrame.2.event.getD []) = 0 := rfl
        rw [heldReplacements] at reported
        simp only [if_true, List.map_cons, List.map_nil, List.sum_cons, List.sum_nil, reported,
          emptied, noEvent, Bool.false_eq_true, if_false, ite_self]
        omega
      | false =>
        have held := heldReplacements_of_not_pending frame
        rw [heldReplacements, Nat.add_eq_zero_iff] at held
        simp only [List.map_nil, List.sum_nil, held, Bool.false_eq_true, if_false, ite_self]
    | event v =>
      have trimmed : replacements ((some (trim v)).getD []) = replacements v :=
        replacements_trim v
      simp only [List.map_nil, List.sum_nil, trimmed, if_true]
      split
      · omega
      · rw [replacements_append]
        omega
    | data v =>
      simp only [List.map_nil, List.sum_nil, List.map_append, List.map_cons, List.sum_append,
        List.sum_cons, replacements_append]
      omega
    | ignored =>
      simp only [List.map_nil, List.sum_nil]
      omega

theorem replacements_leftover (buf : List Char) :
    ((leftover buf).map frameReplacements).sum = replacements buf := by
  have trimmed : replacements (trimEndMatches isLineEnd (trim buf)) = replacements buf :=
    (replacements_trimEndMatches (by decide) _).trans (replacements_trim buf)
  unfold leftover
  simp only
  split
  · next empty =>
    rw [List.isEmpty_iff] at empty
    rw [← trimmed, empty]
    rfl
  · cases value : stripPrefix "data:".toList (trimEndMatches isLineEnd (trim buf)) with
    | none => simp [frameReplacements, trimmed]
    | some v =>
      have same := replacements_stripPrefix (by decide) value
      simp [frameReplacements, replacements_trim, same, trimmed]

/-- The replacements in the frames of a stream are those in its live parts. -/
theorem replacements_decodeText (t : List Char) :
    ((decodeText t).map frameReplacements).sum = replacements (liveText t) := by
  have lines := replacements_readLines ⟨(drainLines t).2, none, []⟩ (drainLines t).1
  have under := pending_readLines ⟨(drainLines t).2, none, []⟩ (drainLines t).1
  have buf := readLines_buf ⟨(drainLines t).2, none, []⟩ (drainLines t).1
  simp only [decodeText, pushText, new, List.nil_append, liveText, List.map_append,
    List.sum_append, replacements_append]
  generalize SseDecoder.readLines ⟨(drainLines t).2, none, []⟩ (drainLines t).1 = p at *
  simp only [List.map_nil, List.sum_nil, Option.getD_none, replacements_nil, ite_self,
    Nat.zero_add] at lines
  unfold finish
  rw [show endsPending false (drainLines t).1 = p.2.pending from under.symm]
  cases held : p.2.pending with
  | true =>
    have reported := p.2.frameReplacements_takeFrame
    simp only [if_true, List.map_cons, List.map_nil, List.sum_cons, List.sum_nil, reported,
      replacements_nil]
    omega
  | false =>
    have nothing := heldReplacements_of_not_pending held
    simp only [Bool.false_eq_true, if_false, replacements_leftover, buf]
    omega

/-- Shattering a text with a wide character adds replacements. -/
theorem replacements_shatter_lt {t : List Char} {c : Char} (mem : c ∈ t) (wide : Wide c) :
    replacements t < replacements (t.flatMap shatter) := by
  have each : ∀ d : Char, replacements [d] ≤ replacements (shatter d) ∧
      (Wide d → replacements [d] < replacements (shatter d)) := by
    intro d
    by_cases h : Wide d
    · obtain ⟨n, many, shattered⟩ := shatter_of_wide h
      have one : replacements [d] ≤ 1 := List.count_le_length
      have more : replacements (shatter d) = n := by
        rw [shattered]
        exact List.count_replicate_self
      exact ⟨by omega, fun _ => by omega⟩
    · rw [shatter_of_narrow h]
      exact ⟨Nat.le_refl _, fun h' => absurd h' h⟩
  have all : ∀ u : List Char, replacements u ≤ replacements (u.flatMap shatter) := by
    intro u
    induction u with
    | nil => exact Nat.le_refl _
    | cons d u ih =>
      have here := (each d).1
      have split := replacements_append [d] u
      rw [List.singleton_append] at split
      rw [List.flatMap_cons, replacements_append]
      omega
  obtain ⟨u, v, rfl⟩ := List.append_of_mem mem
  have split := replacements_append u ([c] ++ v)
  have split' := replacements_append [c] v
  have first := all u
  have here := (each c).2 wide
  have last := all v
  rw [List.singleton_append] at split split'
  simp only [List.flatMap_append, List.flatMap_cons, replacements_append]
  omega

/-! ## The cuts of a stream -/

/-- Every two ways of cutting a stream into chunks give the same frames. -/
def CutsAgree (t : List Char) : Prop :=
  ∀ chunks chunks' : List (List UInt8), chunks.flatten = encode t → chunks'.flatten = encode t →
    decode chunks = decode chunks'

/-- The frames of a stream do not depend on its cuts if and only if every character that reaches
a frame is ASCII. -/
theorem cutsAgree_iff (t : List Char) : CutsAgree t ↔ ∀ c ∈ liveText t, ¬ Wide c := by
  constructor
  · intro agree c live wide
    -- Left whole, and cut into single bytes.
    have bytes : ((encode t).map fun b => [b]).flatten = encode t := by
      rw [← List.flatMap_def, List.flatMap_singleton']
    have same := agree [encode t] ((encode t).map fun b => [b]) (by simp) bytes
    have whole : [encode t].flatMap lossy = t := by simp [lossy_encode]
    rw [decode_eq, decode_eq, whole, lossy_single_bytes] at same
    have counts := congrArg (fun fs => (fs.map frameReplacements).sum) same
    have shattered : liveText (t.flatMap shatter) = (liveText t).flatMap shatter :=
      rewrites_shatter_iff.mp
        (liveText_rewrites respects_shatter (rewrites_shatter_iff.mpr rfl))
    simp only [replacements_decodeText, shattered] at counts
    have fewer := replacements_shatter_lt live wide
    omega
  · intro narrow chunks chunks' h h'
    rw [decode_eq, decode_eq, decodeText_garbled (garbled_of_chunks h) narrow,
      decodeText_garbled (garbled_of_chunks h') narrow]

/-- A data line with a letter of two bytes. -/
def accented : List Char := "data: \u00e9\n\n".toList

/-- Left whole it reports the letter, cut inside it three replacements. -/
theorem not_cutsAgree_accented : ¬ CutsAgree accented := by
  intro agree
  have same := agree [encode accented]
    [(encode accented).take 7, (encode accented).drop 7] (by decide) (by decide)
  revert same
  decide +kernel

end SseDecoder

end Tailfin
