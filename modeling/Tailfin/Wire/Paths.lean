import Mathlib.Data.List.Infix
import Tailfin.Library.Segments
import Tailfin.Library.Text
import Tailfin.Wire.Meter

/-!
# Which dialect a path speaks

`Dialect::for_path` of `tailfin-wire` compares texts. What it finds are whole segments of the path,
and what stands in front of a path of a known dialect does not change it.
-/

namespace Tailfin

open Text Segments

def Dialect.forPath (path : List Char) : Option Dialect :=
  let p := trimEndMatches (· = '/') path
  if "/chat/completions".toList.isSuffixOf p then some .openAiChat
  else if "/responses".toList.isSuffixOf p || contains "/responses/".toList p then
    some .openAiResponses
  else if "/v1/messages".toList.isSuffixOf p || contains "/v1/messages/".toList p then
    some .anthropicMessages
  else none

/-- The dialect of a path, by its segments. -/
def Dialect.ofSegments (ws : List (List Char)) : Option Dialect :=
  if ["chat".toList, "completions".toList] <:+ ws then some .openAiChat
  else if ["responses".toList] <:+: ws then some .openAiResponses
  else if ["v1".toList, "messages".toList] <:+: ws then some .anthropicMessages
  else none

/-- The meter of a request: an upgrade on an unknown path has none. -/
def requestDialect (websocket : Bool) (path : List Char) : Option Dialect :=
  if websocket then Dialect.forPath path else some ((Dialect.forPath path).getD .anthropicMessages)

/-- The comparisons of texts find whole segments. -/
theorem forPath_eq (path : List Char) :
    Dialect.forPath path = Dialect.ofSegments (segments '/' path) := by
  have words := tail_rdropWhile '/' path
  have trimmed : trimEndMatches (· = '/') path = path.rdropWhile (· = '/') := rfl
  rw [Dialect.forPath, Dialect.ofSegments, ← words]
  simp only [trimmed]
  generalize path.rdropWhile (· = '/') = p
  have plain₁ : ∀ w ∈ ["chat".toList, "completions".toList], '/' ∉ w := by decide
  have plain₂ : ∀ w ∈ ["responses".toList], '/' ∉ w := by decide
  have plain₃ : ∀ w ∈ ["v1".toList, "messages".toList], '/' ∉ w := by decide
  have chat := joined_suffix_iff plain₁ p
  have responses := suffix_or_infix_iff plain₂ p
  have messages := suffix_or_infix_iff plain₃ p
  refine if_congr ?_ rfl (if_congr ?_ rfl (if_congr ?_ rfl rfl))
  · exact List.isSuffixOf_iff_suffix.trans chat
  · rw [Bool.or_eq_true, List.isSuffixOf_iff_suffix, contains_iff (by decide)]
    exact responses
  · rw [Bool.or_eq_true, List.isSuffixOf_iff_suffix, contains_iff (by decide)]
    exact messages

/-- Two segments at the end of a path are at the end of its last part that has two. -/
theorem suffix_of_append {a b : List Char} {front ws : List (List Char)} (long : 2 ≤ ws.length)
    (ends : [a, b] <:+ front ++ ws) : [a, b] <:+ ws :=
  List.suffix_of_suffix_length_le ends (List.suffix_append front ws) long

/-- Segments in front of a path of a known dialect do not change it, unless one is `responses`. -/
theorem Dialect.ofSegments_append {front ws : List (List Char)} {d : Dialect}
    (plain : "responses".toList ∉ front) (known : Dialect.ofSegments ws = some d) :
    Dialect.ofSegments (front ++ ws) = some d := by
  unfold Dialect.ofSegments at known ⊢
  by_cases chat : ["chat".toList, "completions".toList] <:+ ws
  · rw [if_pos chat] at known
    rw [if_pos (chat.trans (List.suffix_append front ws)), known]
  rw [if_neg chat] at known
  have unchat (long : 2 ≤ ws.length) : ¬ ["chat".toList, "completions".toList] <:+ front ++ ws :=
    fun ends => chat (suffix_of_append long ends)
  by_cases responses : ["responses".toList] <:+: ws
  · rw [if_pos responses] at known
    have other : ¬ ["chat".toList, "completions".toList] <:+ front ++ ws := by
      intro ends
      rcases Nat.lt_or_ge ws.length 2 with short | long
      · -- The path is `responses` alone, and this is no end of the other one.
        obtain ⟨w, rfl⟩ : ∃ w, ws = [w] := by
          rw [← List.length_eq_one_iff]
          have some_ := responses.length_le
          rw [List.length_singleton] at some_
          omega
        obtain ⟨before, whole⟩ := ends
        have last : "completions".toList = w := by simpa using congrArg List.getLast? whole
        rw [List.singleton_infix_iff, List.mem_singleton] at responses
        rw [← responses] at last
        exact absurd last (by decide)
      · exact unchat long ends
    rw [if_neg other, if_pos (responses.trans (List.suffix_append front ws).isInfix), known]
  rw [if_neg responses] at known
  by_cases messages : ["v1".toList, "messages".toList] <:+: ws
  · rw [if_pos messages] at known
    have absent : ¬ ["responses".toList] <:+: front ++ ws := by
      rw [List.singleton_infix_iff] at responses ⊢
      rw [List.mem_append]
      exact not_or.mpr ⟨plain, responses⟩
    rw [if_neg (unchat messages.length_le), if_neg absent,
      if_pos (messages.trans (List.suffix_append front ws).isInfix), known]
  · rw [if_neg messages] at known
    cases known

/-- How the dialect of a path is found. -/
structure ReadsDialect (path : List Char) : Prop where
  segments : Dialect.forPath path = Dialect.ofSegments (segments '/' path)
  slashes : ∀ n, Dialect.forPath (path ++ List.replicate n '/') = Dialect.forPath path
  joined : ∀ base d, "responses".toList ∉ Segments.segments '/' base → path.head? = some '/' →
    Dialect.forPath path = some d →
      Dialect.forPath (trimEndMatches (· = '/') base ++ path) = some d
  metered : ∀ websocket, requestDialect websocket path =
    (Dialect.ofSegments (Segments.segments '/' path)).or
      (if websocket then none else some .anthropicMessages)

theorem readsDialect (path : List Char) : ReadsDialect path where
  segments := forPath_eq path
  slashes n := by
    have slash : ∀ c ∈ List.replicate n '/', decide (c = '/') = true := by simp
    rw [Dialect.forPath, Dialect.forPath, trimEndMatches_drop slash]
  joined base d plain slash known := by
    obtain ⟨path, rfl⟩ := List.head?_eq_some_iff.mp slash
    rw [forPath_eq] at known
    have some_ : Segments.segments '/' ('/' :: path) ≠ [] := by
      intro none_
      have unknown : Dialect.ofSegments [] = none := rfl
      rw [none_, unknown] at known
      cases known
    have joined : Segments.segments '/' (trimEndMatches (· = '/') base ++ '/' :: path) =
        Segments.segments '/' base ++ Segments.segments '/' ('/' :: path) :=
      segments_append base some_
    rw [forPath_eq, joined]
    exact Dialect.ofSegments_append plain known
  metered websocket := by
    rw [requestDialect, forPath_eq]
    cases websocket <;> cases Dialect.ofSegments (Segments.segments '/' path) <;> rfl

end Tailfin
