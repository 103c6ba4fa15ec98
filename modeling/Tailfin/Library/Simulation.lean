import Tailfin.Library.Runs

/-!
# Simulations between machines

One machine simulates another when a function of its state follows the other's state: a step of
the first stands for any number of events of the second, and what can be seen of its output is
what these events show. Then the same holds of whole runs.
-/

namespace Runs

variable {σ ε ω τ φ ψ α : Type*}

/-- `abs` takes a step from a state that meets `I` to a run of `step'`: `calls` are the events
that the step stands for, and what is `seen` of it is what is `shown` of them. -/
structure Simulation (step : σ → ε → σ × ω) (step' : τ → φ → τ × ψ) (I : σ → Prop)
    (abs : σ → τ) (calls : Entry σ ε ω → List φ) (seen : Entry σ ε ω → List α)
    (shown : Entry τ φ ψ → List α) : Prop where
  keep : ∀ s e, I s → I (step s e).1
  state : ∀ s e, I s → abs (step s e).1 = final step' (abs s) (calls (entry step s e))
  output : ∀ s e, I s →
    seen (entry step s e) = (trace step' (abs s) (calls (entry step s e))).flatMap shown

namespace Simulation

variable {step : σ → ε → σ × ω} {step' : τ → φ → τ × ψ} {I : σ → Prop} {abs : σ → τ}
  {calls : Entry σ ε ω → List φ} {seen : Entry σ ε ω → List α} {shown : Entry τ φ ψ → List α}

/-- A run ends where the run of the events that it stands for ends. -/
theorem final_eq (sim : Simulation step step' I abs calls seen shown) {s : σ} (start : I s)
    (es : List ε) :
    abs (final step s es) = final step' (abs s) ((trace step s es).flatMap calls) := by
  induction es generalizing s with
  | nil => rfl
  | cons e es ih =>
    rw [final_cons, ih (sim.keep s e start), sim.state s e start, trace_cons, List.flatMap_cons,
      final_append]

/-- What is seen of a run is what is shown of the events that it stands for. -/
theorem seen_eq (sim : Simulation step step' I abs calls seen shown) {s : σ} (start : I s)
    (es : List ε) :
    (trace step s es).flatMap seen =
      (trace step' (abs s) ((trace step s es).flatMap calls)).flatMap shown := by
  induction es generalizing s with
  | nil => rfl
  | cons e es ih =>
    rw [trace_cons, List.flatMap_cons, List.flatMap_cons, trace_append, List.flatMap_append,
      sim.output s e start, ih (sim.keep s e start), sim.state s e start]

end Simulation

/-- Two machines that take the same events in lockstep: a relation that every admitted step keeps,
and under which both answer the same, holds of whole runs. -/
theorem lockstep {σ ε ω τ ψ α : Type*} {step : σ → ε → σ × ω} {step' : τ → ε → τ × ψ}
    {R : σ → τ → Prop} {P : σ → ε → Prop} (seen : ω → List α) (seen' : ψ → List α)
    (keep : ∀ s t e, R s t → P s e →
      R (step s e).1 (step' t e).1 ∧ seen' (step' t e).2 = seen (step s e).2)
    {s : σ} {t : τ} (start : R s t) {es : List ε} (steps : Steps step P s es) :
    R (final step s es) (final step' t es) ∧
      (trace step' t es).flatMap (fun x => seen' x.output) =
        (trace step s es).flatMap fun x => seen x.output := by
  induction es generalizing s t with
  | nil => exact ⟨start, rfl⟩
  | cons e es ih =>
    obtain ⟨first, rest⟩ := steps_cons.mp steps
    obtain ⟨next, same⟩ := keep s t e start first
    obtain ⟨last, others⟩ := ih next rest
    refine ⟨last, ?_⟩
    rw [trace_cons, trace_cons, List.flatMap_cons, List.flatMap_cons, others, entry_output,
      entry_output, same]

end Runs
