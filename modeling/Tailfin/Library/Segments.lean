import Mathlib.Data.List.DropRight
import Mathlib.Data.List.Induction

/-!
# Words behind separators

A list is a word and then further words, each behind a separator. What ends the list, or stands in
it between separators, is told by its words alone.
-/

namespace Segments

variable {α : Type*} [DecidableEq α] (sep : α)

/-- The words, each behind a separator. -/
def joined (ws : List (List α)) : List α := ws.flatMap (sep :: ·)

omit [DecidableEq α] in
theorem joined_append (ws vs : List (List α)) :
    joined sep (ws ++ vs) = joined sep ws ++ joined sep vs :=
  List.flatMap_append

/-- The words behind a separator, but for empty ones at the end. -/
def segments (t : List α) : List (List α) := (t.splitOn sep).tail.rdropWhile List.isEmpty

theorem exists_joined (t : List α) :
    ∃ w ws, t.splitOn sep = w :: ws ∧ t = w ++ joined sep ws := by
  induction t with
  | nil => exact ⟨[], [], List.splitOn_nil sep, rfl⟩
  | cons x t ih =>
    obtain ⟨w, ws, split, text⟩ := ih
    rw [List.splitOn_cons_eq_if_modifyHead, split]
    by_cases here : x = sep
    · subst here
      exact ⟨[], w :: ws, by simp, by rw [text]; rfl⟩
    · exact ⟨x :: w, ws, by simp [here], by rw [text]; rfl⟩

variable {sep}

theorem splitOn_append_joined (t : List α) {ws : List (List α)} (plain : ∀ w ∈ ws, sep ∉ w) :
    (t ++ joined sep ws).splitOn sep = t.splitOn sep ++ ws := by
  induction ws generalizing t with
  | nil => simp [joined]
  | cons w ws ih =>
    obtain ⟨here, rest⟩ := List.forall_mem_cons.mp plain
    have shape : t ++ joined sep (w :: ws) = t ++ sep :: (w ++ joined sep ws) := rfl
    rw [shape, List.splitOn_append_cons_self, ih w rest, List.splitOn_eq_singleton here]
    rfl

theorem tail_append_joined (t : List α) {ws : List (List α)} (plain : ∀ w ∈ ws, sep ∉ w) :
    ((t ++ joined sep ws).splitOn sep).tail = (t.splitOn sep).tail ++ ws := by
  rw [splitOn_append_joined t plain, List.tail_append_of_ne_nil (List.splitOn_ne_nil sep t)]

section Words

variable {ws : List (List α)} (plain : ∀ w ∈ ws, sep ∉ w) (t : List α)
include plain

theorem joined_suffix_iff : joined sep ws <:+ t ↔ ws <:+ (t.splitOn sep).tail := by
  constructor
  · rintro ⟨front, rfl⟩
    rw [tail_append_joined front plain]
    exact List.suffix_append _ _
  · intro ends
    obtain ⟨w, vs, split, rfl⟩ := exists_joined sep t
    rw [split, List.tail_cons] at ends
    obtain ⟨front, rfl⟩ := ends
    exact ⟨w ++ joined sep front, by rw [joined_append, List.append_assoc]⟩

theorem joined_infix_iff :
    joined sep ws ++ [sep] <:+: t ↔ ∃ v, ws ++ [v] <:+: (t.splitOn sep).tail := by
  constructor
  · rintro ⟨front, back, rfl⟩
    obtain ⟨v, vs, split, -⟩ := exists_joined sep back
    have shape : front ++ (joined sep ws ++ [sep]) ++ back =
        front ++ joined sep ws ++ sep :: back := by simp
    refine ⟨v, (front.splitOn sep).tail, vs, ?_⟩
    rw [shape, List.splitOn_append_cons_self, split, splitOn_append_joined front plain,
      List.tail_append_of_ne_nil (by simp), List.tail_append_of_ne_nil (List.splitOn_ne_nil sep _)]
    simp
  · rintro ⟨v, inside⟩
    obtain ⟨w, vs, split, rfl⟩ := exists_joined sep t
    rw [split, List.tail_cons] at inside
    obtain ⟨front, back, rfl⟩ := inside
    refine ⟨w ++ joined sep front, v ++ joined sep back, ?_⟩
    simp [joined]

/-- Words at the end of the list, or between separators in it, are among its words. -/
theorem suffix_or_infix_iff :
    joined sep ws <:+ t ∨ joined sep ws ++ [sep] <:+: t ↔ ws <:+: (t.splitOn sep).tail := by
  rw [joined_suffix_iff plain, joined_infix_iff plain]
  constructor
  · rintro (ends | ⟨v, inside⟩)
    · exact ends.isInfix
    · exact (List.prefix_append ws [v]).isInfix.trans inside
  · rintro ⟨front, back, whole⟩
    cases back with
    | nil => exact .inl ⟨front, by rw [← whole, List.append_nil]⟩
    | cons v back => exact .inr ⟨v, front, back, by rw [← whole]; simp⟩

end Words

theorem segments_concat_sep (t : List α) : segments sep (t ++ [sep]) = segments sep t := by
  have empty : ∀ w ∈ [([] : List α)], sep ∉ w := by simp
  rw [segments, show t ++ [sep] = t ++ joined sep [[]] from rfl, tail_append_joined t empty]
  exact List.rdropWhile_concat_pos _ _ _ rfl

/-- The last word of a list that does not end in a separator is not empty. -/
theorem segments_concat {x : α} (other : x ≠ sep) (t : List α) :
    segments sep (t ++ [x]) = ((t ++ [x]).splitOn sep).tail := by
  rw [segments, List.rdropWhile_eq_self_iff]
  intro some_ empty
  obtain ⟨w, ws, split, whole⟩ := exists_joined sep (t ++ [x])
  simp only [split, List.tail_cons] at some_ empty
  have ends : ws = ws.dropLast ++ [[]] := by
    rw [← List.isEmpty_iff.mp empty, List.dropLast_concat_getLast]
  rw [ends, joined_append, ← List.append_assoc] at whole
  obtain ⟨-, same⟩ := List.append_inj' whole rfl
  exact other (List.singleton_inj.mp same)

variable (sep) in
/-- Separators at the end of a list make no difference to its words. -/
theorem tail_rdropWhile (t : List α) :
    ((t.rdropWhile (· = sep)).splitOn sep).tail = segments sep t := by
  induction t using List.reverseRecOn with
  | nil => rfl
  | append_singleton t x ih =>
    by_cases here : x = sep
    · subst here
      rw [List.rdropWhile_concat_pos _ _ _ (by simp), ih, segments_concat_sep]
    · rw [List.rdropWhile_concat_neg _ _ _ (by simpa using here), segments_concat here]

/-- What is put in front of a separator comes first among the words. -/
theorem segments_append (front : List α) {t : List α} (some_ : segments sep (sep :: t) ≠ []) :
    segments sep (front.rdropWhile (· = sep) ++ sep :: t) =
      segments sep front ++ segments sep (sep :: t) := by
  have words : segments sep (sep :: t) = (t.splitOn sep).rdropWhile List.isEmpty := by
    rw [segments, List.splitOn_cons_eq_if_modifyHead, if_pos (BEq.refl sep), List.tail_cons]
  rw [words, Ne, List.rdropWhile, List.reverse_eq_nil_iff] at some_
  rw [words, segments, List.splitOn_append_cons_self,
    List.tail_append_of_ne_nil (List.splitOn_ne_nil sep _), tail_rdropWhile, List.rdropWhile,
    List.reverse_append, List.dropWhile_append, if_neg (by simpa using some_),
    List.reverse_append, List.reverse_reverse]
  rfl

end Segments
