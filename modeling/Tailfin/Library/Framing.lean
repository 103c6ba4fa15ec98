import Mathlib.Data.List.Basic

/-!
# Frames off a stream

A stream arrives in chunks. Its reader keeps what it has not read in a buffer and, with each chunk,
takes frames off the front of the buffer until none is whole. `next` takes one frame: it answers
`none` where more is needed, and may fail. What it says of a buffer it must say of every longer one
as well; then frames are read as they were written, however the stream is cut.
-/

namespace Framing

variable {α β γ ε : Type*}

/-- What `next` says of a buffer still holds when more arrives. -/
structure Stable (next : List β → Except ε (Option (α × List β))) : Prop where
  nil : next [] = .ok none
  shorter : ∀ {x a r}, next x = .ok (some (a, r)) → r.length < x.length
  more : ∀ {x a r} (y), next x = .ok (some (a, r)) → next (x ++ y) = .ok (some (a, r ++ y))
  fails : ∀ {x e} (y), next x = .error e → next (x ++ y) = .error e

variable (next : List β → Except ε (Option (α × List β))) (stop : α → Bool)

/-- Take frames off a buffer, up to one that stops. -/
def drain : Nat → List β → Except ε (List α × List β)
  | 0, x => .ok ([], x)
  | n + 1, x => match next x with
    | .error e => .error e
    | .ok none => .ok ([], x)
    | .ok (some (a, r)) =>
      if stop a then .ok ([a], r) else (drain n r).map fun rest => (a :: rest.1, rest.2)

/-- Take frames off a stream that arrives in chunks. -/
def feed : List β → List (List β) → Except ε (List α × List β)
  | x, [] => .ok ([], x)
  | x, chunk :: chunks => match drain next stop (x ++ chunk).length (x ++ chunk) with
    | .error e => .error e
    | .ok (first, r) => (feed r chunks).map fun rest => (first ++ rest.1, rest.2)

/-- Where frames taken off a buffer lead. -/
inductive Reaches : List β → List β → Prop
  | here {x : List β} : Reaches x x
  | frame {x r s : List β} {a : α} : next x = .ok (some (a, r)) → stop a = false →
      Reaches r s → Reaches x s

variable {next stop}

theorem drain_of_none {n : Nat} {x : List β} (waits : next x = .ok none) :
    drain next stop n x = .ok ([], x) := by
  cases n with
  | zero => rfl
  | succ n => simp only [drain, waits]

theorem drain_of_frame {n : Nat} {x r : List β} {a : α} (found : next x = .ok (some (a, r)))
    (open_ : stop a = false) : drain next stop (n + 1) x =
      (drain next stop n r).map fun rest => (a :: rest.1, rest.2) := by
  simp only [drain, found, open_, Bool.false_eq_true, if_false]

theorem map_eq_error_iff {σ τ : Type*} {f : σ → τ} {x : Except ε σ} {e : ε} :
    x.map f = .error e ↔ x = .error e := by
  cases x with
  | error e' => simp [Except.map]
  | ok a => simp [Except.map]

/-- Draining fails where a frame on the way does. -/
theorem drain_error_iff (stable : Stable next) {n : Nat} {x : List β} {e : ε}
    (enough : x.length ≤ n) :
    drain next stop n x = .error e ↔ ∃ r, Reaches next stop x r ∧ next r = .error e := by
  induction n generalizing x with
  | zero =>
    obtain rfl := List.length_eq_zero_iff.mp (Nat.le_zero.mp enough)
    have waits := stable.nil
    constructor
    · intro failed
      cases failed
    · rintro ⟨r, reached, failed⟩
      cases reached with
      | here =>
        rw [waits] at failed
        cases failed
      | frame first =>
        rw [waits] at first
        cases first
  | succ n ih =>
    constructor
    · intro failed
      cases found : next x with
      | error e' =>
        simp only [drain, found] at failed
        cases failed
        exact ⟨x, .here, found⟩
      | ok found_ =>
        cases found_ with
        | none =>
          rw [drain_of_none found] at failed
          cases failed
        | some frame =>
          obtain ⟨a, r⟩ := frame
          have short := stable.shorter found
          cases last : stop a with
          | true => simp [drain, found, last] at failed
          | false =>
            rw [drain_of_frame found last, map_eq_error_iff] at failed
            obtain ⟨s, reached, failed'⟩ := (ih (by omega)).mp failed
            exact ⟨s, .frame found last reached, failed'⟩
    · rintro ⟨s, reached, failed⟩
      cases reached with
      | here => simp only [drain, failed]
      | frame first last inner =>
        have short := stable.shorter first
        rw [drain_of_frame first last, map_eq_error_iff]
        exact (ih (by omega)).mpr ⟨s, inner, failed⟩

section Encoded

variable {encode : γ → List β} {value : γ → α} {frames : List γ}

/-- The buffer holds the start of a text of frames: its whole frames are taken off. The last frame
of the text may stop the reader. -/
theorem drain_closed (stable : Stable next)
    (reads : ∀ g ∈ frames, ∀ r, next (encode g ++ r) = .ok (some (value g, r)))
    (goes_on : ∀ g ∈ frames.dropLast, stop (value g) = false) {n : Nat} {x y : List β}
    (enough : x.length ≤ n) (text : x ++ y = frames.flatMap encode) :
    ∃ first rest r, frames = first ++ rest ∧ drain next stop n x = .ok (first.map value, r) ∧
      next r = .ok none ∧ r ++ y = rest.flatMap encode := by
  induction frames generalizing n x with
  | nil =>
    obtain ⟨rfl, rfl⟩ := List.append_eq_nil_iff.mp text
    exact ⟨[], [], [], rfl, drain_of_none stable.nil, stable.nil, rfl⟩
  | cons g frames ih =>
    have whole := reads g (by simp) (frames.flatMap encode)
    rw [← List.flatMap_cons, ← text] at whole
    cases found : next x with
    | error e =>
      rw [stable.fails y found] at whole
      cases whole
    | ok found_ =>
      cases found_ with
      | none => exact ⟨[], g :: frames, x, rfl, drain_of_none found, found, text⟩
      | some frame =>
        obtain ⟨b, r⟩ := frame
        have short := stable.shorter found
        rw [stable.more y found] at whole
        obtain ⟨rfl, behind⟩ : b = value g ∧ r ++ y = frames.flatMap encode := by simpa using whole
        obtain ⟨n, rfl⟩ : ∃ k, n = k + 1 := ⟨n - 1, by omega⟩
        cases last : stop (value g) with
        | true =>
          -- only the last frame stops, so that nothing is left behind it
          obtain rfl : frames = [] := by
            cases frames with
            | nil => rfl
            | cons g' frames =>
              rw [goes_on g (by simp)] at last
              cases last
          obtain ⟨rfl, rfl⟩ := List.append_eq_nil_iff.mp behind
          refine ⟨[g], [], [], rfl, ?_, stable.nil, rfl⟩
          simp only [drain, found, last, if_true, List.map_cons, List.map_nil]
        | false =>
          have later : ∀ g' ∈ frames.dropLast, stop (value g') = false := by
            intro g' hg
            apply goes_on g'
            rw [List.dropLast_cons_of_ne_nil (by rintro rfl; simp at hg)]
            exact List.mem_cons_of_mem _ hg
          obtain ⟨first, rest, r', split, drained, left, text'⟩ :=
            ih (fun g' hg => reads g' (List.mem_cons_of_mem _ hg)) later (n := n) (by omega) behind
          refine ⟨g :: first, rest, r', by rw [split]; rfl, ?_, left, text'⟩
          rw [drain_of_frame found last, drained]
          rfl

/-- Frames are read as they were written, however their text is cut, also where the last of them
stops the reader. -/
theorem feed_closed (stable : Stable next)
    (reads : ∀ g ∈ frames, ∀ r, next (encode g ++ r) = .ok (some (value g, r)))
    (goes_on : ∀ g ∈ frames.dropLast, stop (value g) = false) {x : List β}
    (waits : next x = .ok none) {chunks : List (List β)}
    (text : x ++ chunks.flatten = frames.flatMap encode) :
    feed next stop x chunks = .ok (frames.map value, []) := by
  induction chunks generalizing x frames with
  | nil =>
    rw [List.flatten_nil, List.append_nil] at text
    cases frames with
    | nil => rw [feed, text]; rfl
    | cons g frames =>
      rw [text, List.flatMap_cons, reads g (by simp)] at waits
      cases waits
  | cons chunk chunks ih =>
    rw [List.flatten_cons, ← List.append_assoc] at text
    obtain ⟨first, rest, r, rfl, drained, left, text'⟩ :=
      drain_closed stable reads goes_on (Nat.le_refl _) text
    have open_ : ∀ g ∈ rest.dropLast, stop (value g) = false := by
      intro g hg
      apply goes_on g
      rw [List.dropLast_append_of_ne_nil (by rintro rfl; simp at hg)]
      exact List.mem_append_right _ hg
    have later := ih (fun g hg => reads g (List.mem_append_right _ hg)) open_ left text'
    rw [feed, drained]
    simp [later, Except.map]

end Encoded

end Framing
