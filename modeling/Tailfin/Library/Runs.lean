import Mathlib.Algebra.BigOperators.Group.List.Basic
import Mathlib.Data.List.Induction
import Mathlib.Logic.Relation
import Mathlib.Order.Bounds.Defs
import Mathlib.Order.MinMax
import Mathlib.Order.Nat

/-!
# Runs of a deterministic machine

A machine is a step function `σ → ε → σ × ω`: an event takes a state to the next one and
answers an output. `trace` records every step of a run with the state it started from, so
that a statement about a whole run is a statement about the entries of its trace, and a
statement about the order of two steps is a `List.Pairwise`. The rules below reduce both to
facts about one step.
-/

namespace Runs

variable {σ ε ω : Type*}

/-- One step of a run: the state it starts from, its event and its output. -/
structure Entry (σ ε ω : Type*) where
  before : σ
  event : ε
  output : ω

variable (step : σ → ε → σ × ω)

/-- The entry that `step` adds to a trace. -/
def entry (s : σ) (e : ε) : Entry σ ε ω := ⟨s, e, (step s e).2⟩

/-- The state a list of events leads to. -/
def final : σ → List ε → σ
  | s, [] => s
  | s, e :: es => final (step s e).1 es

/-- Every step of a run, in order. -/
def trace : σ → List ε → List (Entry σ ε ω)
  | _, [] => []
  | s, e :: es => entry step s e :: trace (step s e).1 es

/-- Every step of the run meets `P`. -/
def Steps (P : σ → ε → Prop) (s : σ) (es : List ε) : Prop :=
  ∀ x ∈ trace step s es, P x.before x.event

instance {P : σ → ε → Prop} [∀ s e, Decidable (P s e)] (s : σ) (es : List ε) :
    Decidable (Steps step P s es) :=
  inferInstanceAs (Decidable (∀ x ∈ trace step s es, P x.before x.event))

@[simp] theorem entry_before (s : σ) (e : ε) : (entry step s e).before = s := rfl
@[simp] theorem entry_event (s : σ) (e : ε) : (entry step s e).event = e := rfl
@[simp] theorem entry_output (s : σ) (e : ε) : (entry step s e).output = (step s e).2 := rfl

@[simp] theorem final_nil (s : σ) : final step s [] = s := rfl
@[simp] theorem final_cons (s : σ) (e : ε) (es : List ε) :
    final step s (e :: es) = final step (step s e).1 es := rfl
@[simp] theorem trace_nil (s : σ) : trace step s [] = [] := rfl
@[simp] theorem trace_cons (s : σ) (e : ε) (es : List ε) :
    trace step s (e :: es) = entry step s e :: trace step (step s e).1 es := rfl

theorem final_append (s : σ) (es fs : List ε) :
    final step s (es ++ fs) = final step (final step s es) fs := by
  induction es generalizing s with
  | nil => rfl
  | cons e es ih => exact ih _

theorem trace_append (s : σ) (es fs : List ε) :
    trace step s (es ++ fs) = trace step s es ++ trace step (final step s es) fs := by
  induction es generalizing s with
  | nil => rfl
  | cons e es ih => simp only [List.cons_append, trace_cons, final_cons, ih]

theorem trace_getElem? (s : σ) (es : List ε) (n : Nat) :
    (trace step s es)[n]? = es[n]?.map fun e => entry step (final step s (es.take n)) e := by
  induction es generalizing s n with
  | nil => simp
  | cons e es ih =>
    cases n with
    | zero => rfl
    | succ n => exact ih _ n

variable {step}

/-- A step of a run splits the run's events around its own. -/
theorem exists_of_mem_trace {s : σ} {es : List ε} {x : Entry σ ε ω} (h : x ∈ trace step s es) :
    ∃ pre e post, es = pre ++ e :: post ∧ x = entry step (final step s pre) e := by
  induction es generalizing s with
  | nil => simp at h
  | cons e es ih =>
    rcases List.mem_cons.mp h with rfl | h
    · exact ⟨[], e, es, rfl, rfl⟩
    · obtain ⟨pre, e', post, rfl, rfl⟩ := ih h
      exact ⟨e :: pre, e', post, rfl, rfl⟩

theorem steps_of_forall {P : σ → ε → Prop} (h : ∀ s e, P s e) (s : σ) (es : List ε) :
    Steps step P s es :=
  fun _ _ => h _ _

@[simp] theorem steps_nil {P : σ → ε → Prop} {s : σ} : Steps step P s [] := by
  simp [Steps]

theorem steps_cons {P : σ → ε → Prop} {s : σ} {e : ε} {es : List ε} :
    Steps step P s (e :: es) ↔ P s e ∧ Steps step P (step s e).1 es := by
  simp [Steps]

theorem steps_append {P : σ → ε → Prop} {s : σ} {es fs : List ε} :
    Steps step P s (es ++ fs) ↔ Steps step P s es ∧ Steps step P (final step s es) fs := by
  simp only [Steps, trace_append, List.mem_append]
  exact ⟨fun h => ⟨fun x hx => h x (.inl hx), fun x hx => h x (.inr hx)⟩,
    fun h x hx => hx.elim (h.1 x) (h.2 x)⟩

/-- An invariant that every admitted step keeps holds at the end of the run. -/
theorem final_invariant {P : σ → ε → Prop} {I : σ → Prop}
    (keep : ∀ s e, I s → P s e → I (step s e).1) {s : σ} {es : List ε}
    (start : I s) (steps : Steps step P s es) : I (final step s es) := by
  induction es generalizing s with
  | nil => exact start
  | cons e es ih =>
    obtain ⟨first, rest⟩ := steps_cons.mp steps
    exact ih (keep s e start first) rest

/-- An invariant that a step keeps exactly where `P` holds of it: it holds in every state reached
if and only if every step meets `P`. -/
theorem forall_final_iff {P : σ → ε → Prop} {I : σ → Prop}
    (keeps : ∀ s e, I s → (I (step s e).1 ↔ P s e)) {s : σ} {es : List ε} (start : I s) :
    (∀ pre, pre <+: es → I (final step s pre)) ↔ Steps step P s es := by
  induction es generalizing s with
  | nil => simp [start]
  | cons e es ih =>
    rw [steps_cons]
    constructor
    · intro every
      have next : I (step s e).1 := every [e] (by simp)
      refine ⟨(keeps s e start).mp next, (ih next).mp fun pre within => ?_⟩
      exact every (e :: pre) (List.cons_prefix_cons.mpr ⟨rfl, within⟩)
    · rintro ⟨first, rest⟩ pre within
      cases pre with
      | nil => exact start
      | cons e' pre =>
        obtain ⟨rfl, inner⟩ := List.cons_prefix_cons.mp within
        exact (ih ((keeps s e' start).mpr first)).mpr rest pre inner

/-- A measure to which every step adds what its event is worth ends up with the sum. -/
theorem final_sum {M : Type*} [AddMonoid M] (measure : σ → M) {worth : ε → M}
    (add : ∀ s e, measure (step s e).1 = measure s + worth e) (s : σ) (es : List ε) :
    measure (final step s es) = measure s + (es.map worth).sum := by
  induction es generalizing s with
  | nil => simp
  | cons e es ih => rw [final_cons, ih, add, List.map_cons, List.sum_cons, add_assoc]

/-- A high-water mark that every step raises to the measure is the greatest measure of the run. -/
theorem final_isGreatest (peak measure : σ → Nat) {s : σ} {es : List ε}
    (raise : ∀ pre e, (pre ++ [e]) <+: es → peak (final step s (pre ++ [e])) =
      max (peak (final step s pre)) (measure (final step s (pre ++ [e]))))
    (start : peak s = measure s) :
    IsGreatest {n | ∃ pre, pre <+: es ∧ measure (final step s pre) = n}
      (peak (final step s es)) := by
  induction es using List.reverseRecOn with
  | nil =>
    refine ⟨⟨[], List.nil_prefix, start.symm⟩, ?_⟩
    rintro n ⟨pre, within, rfl⟩
    rw [List.prefix_nil.mp within]
    exact start.ge
  | append_singleton es e ih =>
    obtain ⟨⟨top, within, reached⟩, bound⟩ :=
      ih fun pre e' h => raise pre e' (h.trans (List.prefix_append es [e]))
    have last := raise es e List.prefix_rfl
    constructor
    · rcases max_choice (peak (final step s es)) (measure (final step s (es ++ [e]))) with h | h
      · exact ⟨top, within.trans (List.prefix_append es [e]), by rw [reached, last, h]⟩
      · exact ⟨es ++ [e], List.prefix_rfl, by rw [last, h]⟩
    · rintro n ⟨pre, within, rfl⟩
      rw [last]
      rcases List.prefix_concat_iff.mp within with rfl | within
      · exact le_max_right _ _
      · exact (bound ⟨pre, within, rfl⟩).trans (le_max_left _ _)

/-- The same invariant holds wherever a step of the run starts, and the entry is the one the
step function makes there. -/
theorem trace_invariant {P : σ → ε → Prop} {I : σ → Prop}
    (keep : ∀ s e, I s → P s e → I (step s e).1) {s : σ} {es : List ε}
    (start : I s) (steps : Steps step P s es) :
    ∀ x ∈ trace step s es, I x.before ∧ P x.before x.event ∧ x = entry step x.before x.event := by
  induction es generalizing s with
  | nil => simp
  | cons e es ih =>
    obtain ⟨first, rest⟩ := steps_cons.mp steps
    intro x hx
    rcases List.mem_cons.mp hx with rfl | hx
    · exact ⟨start, first, rfl⟩
    · exact ih (keep s e start first) rest x hx

/-- An invariant of the state together with the steps taken so far. -/
theorem history_invariant {P : σ → ε → Prop} {J : σ → List (Entry σ ε ω) → Prop}
    (keep : ∀ s xs e, J s xs → P s e → J (step s e).1 (xs ++ [entry step s e])) {s : σ}
    {es : List ε} (start : J s []) (steps : Steps step P s es) :
    J (final step s es) (trace step s es) := by
  induction es using List.reverseRecOn with
  | nil => exact start
  | append_singleton es e ih =>
    obtain ⟨before, last⟩ := steps_append.mp steps
    rw [final_append, trace_append]
    exact keep _ _ e (ih before) (steps_cons.mp last).1

/-- What the steps of a run leave behind. `Q x` is a fact that the step of entry `x` establishes
and every step keeps. -/
theorem trace_settled {P : σ → ε → Prop} {I : σ → Prop} {Q : Entry σ ε ω → σ → Prop}
    (keep : ∀ s e, I s → P s e → I (step s e).1)
    (establish : ∀ s e, I s → P s e → Q (entry step s e) (step s e).1)
    (stay : ∀ x s e, I s → P s e → Q x s → Q x (step s e).1)
    {s : σ} {es : List ε} (start : I s) (steps : Steps step P s es) :
    ∀ x ∈ trace step s es, Q x (final step s es) := by
  induction es generalizing s with
  | nil => simp
  | cons e es ih =>
    obtain ⟨first, rest⟩ := steps_cons.mp steps
    have next := keep s e start first
    intro x hx
    rcases List.mem_cons.mp hx with rfl | hx
    · have both : I (final step (step s e).1 es) ∧
          Q (entry step s e) (final step (step s e).1 es) := by
        refine final_invariant (I := fun s' => I s' ∧ Q (entry step s e) s') ?_
          ⟨next, establish s e start first⟩ rest
        exact fun s' e' ⟨hI, hQ⟩ hP => ⟨keep s' e' hI hP, stay _ s' e' hI hP hQ⟩
      exact both.2
    · exact ih next rest x hx

/-- What an earlier step says about a later one: the fact that it leaves behind gives `R` for
every step taken where the fact holds. -/
theorem trace_pairwise {P : σ → ε → Prop} {I : σ → Prop} {Q : Entry σ ε ω → σ → Prop}
    {R : Entry σ ε ω → Entry σ ε ω → Prop}
    (keep : ∀ s e, I s → P s e → I (step s e).1)
    (establish : ∀ s e, I s → P s e → Q (entry step s e) (step s e).1)
    (stay : ∀ x s e, I s → P s e → Q x s → Q x (step s e).1)
    (use : ∀ x s e, I s → P s e → Q x s → R x (entry step s e))
    {s : σ} {es : List ε} (start : I s) (steps : Steps step P s es) :
    (trace step s es).Pairwise R := by
  induction es using List.reverseRecOn with
  | nil => exact List.Pairwise.nil
  | append_singleton es e ih =>
    obtain ⟨before, last⟩ := steps_append.mp steps
    rw [trace_append, List.pairwise_append]
    refine ⟨ih before, List.pairwise_singleton R _, fun x hx y hy => ?_⟩
    obtain rfl := List.mem_singleton.mp hy
    exact use x _ e (final_invariant keep start before) (steps_cons.mp last).1
      (trace_settled keep establish stay start before x hx)

end Runs
