import Tailfin.Proxy.Tee

/-!
# The tee, turn by turn

The tee of `tailfin-proxy` over an inner body that may answer anything at any poll:
data, trailers, an error, its end, or nothing yet. The metering task receives, stalls or dies in
between. The client gets the answers of the inner body and nothing else. The task receives the
chunks that were handed over, in order, up to the last one it lives to receive.
-/

namespace Tailfin

inductive TeeTurn (τ ε : Type*) where
  /-- The client side polls, and the inner body answers. -/
  | poll (inner : FramePoll τ ε)
  /-- The client side drops the body. -/
  | dropBody
  /-- The task's `rx.recv().await` returns. -/
  | recv
  /-- The task dies. -/
  | die
  deriving DecidableEq, Repr

namespace TeeBody

variable {τ ε : Type*}

/-- One turn of the metering task. -/
def recv (s : TeeBody) : TeeBody × TeeSight τ ε :=
  match s.chan.recv with
  | (.item chunk, chan) => ({ s with chan := chan }, .received chunk)
  | (.ended, chan) => ({ s with chan := chan.dropReceiver }, .nothing)
  | (.pending, _) => (s, .nothing)

def step (s : TeeBody) : TeeTurn τ ε → TeeBody × TeeSight τ ε
  | .poll inner => if s.live then s.pollFrame inner else (s, .nothing)
  | .dropBody => (⟨false, s.chan.dropSender⟩, .nothing)
  | .recv => if s.chan.receiver then s.recv else (s, .nothing)
  | .die => ({ s with chan := s.chan.dropReceiver }, .nothing)

/-! ## What the channel does -/

/-- The channel holds no more than it may, and as long as the body is there only a dead task stops
the teeing. -/
structure Sound (s : TeeBody) : Prop where
  held : s.chan.queue.length ≤ teeCapacity
  teeing : s.live = true → s.chan.sender = false → s.chan.receiver = false

theorem sound_new : new.Sound := ⟨Nat.zero_le _, fun _ h => by cases h⟩

/-- The ways a turn can go. -/
inductive Turned (s : TeeBody) : TeeTurn τ ε → TeeBody × TeeSight τ ε → Prop
  | data (chunk : List UInt8) : s.live = true → Turned s (.poll (.data chunk))
      ({ s with chan := (tee s.chan chunk).2 }, .polled (.data chunk) (tee s.chan chunk).1)
  | other (inner : FramePoll τ ε) : (∀ chunk, inner ≠ .data chunk) → s.live = true →
      Turned s (.poll inner) (s, .polled inner none)
  | late (inner : FramePoll τ ε) : s.live = false → Turned s (.poll inner) (s, .nothing)
  | dropBody : Turned s .dropBody (⟨false, s.chan.dropSender⟩, .nothing)
  | item (chunk : List UInt8) (queue : List (List UInt8)) : s.chan.receiver = true →
      s.chan.queue = chunk :: queue → Turned s .recv
        ({ s with chan := { s.chan with queue := queue } }, .received chunk)
  | idle : Turned s .recv (s, .nothing)
  | finished : s.chan.queue = [] → Turned s .recv
      ({ s with chan := s.chan.dropReceiver }, .nothing)
  | die : Turned s .die ({ s with chan := s.chan.dropReceiver }, .nothing)

theorem turned (s : TeeBody) (e : TeeTurn τ ε) : Turned s e (s.step e) := by
  cases e with
  | poll inner =>
    by_cases live : s.live = true
    · rw [step, if_pos live]
      cases inner with
      | data chunk => exact .data chunk live
      | pending | trailers | failed | ended => exact .other _ (fun _ => nofun) live
    · rw [step, if_neg live]
      exact .late inner (Bool.eq_false_of_not_eq_true live)
  | dropBody => exact .dropBody
  | recv =>
    by_cases there : s.chan.receiver = true
    · rw [step, if_pos there, recv]
      cases front : s.chan.queue with
      | cons chunk queue =>
        rw [Channel.recv_item front]
        exact .item chunk queue there front
      | nil =>
        by_cases sender : s.chan.sender = true
        · rw [Channel.recv_pending front sender]
          exact .idle
        · rw [Channel.recv_ended front (Bool.eq_false_of_not_eq_true sender)]
          exact .finished front
    · rw [step, if_neg there]
      exact .idle
  | die => exact .die

theorem sound_step {s : TeeBody} (h : s.Sound) (e : TeeTurn τ ε) : (s.step e).1.Sound := by
  have turn := turned s e
  generalize s.step e = r at turn ⊢
  cases turn with
  | data chunk live =>
    rcases tee_cases s.chan chunk with ⟨-, teed⟩ | ⟨-, gone, teed⟩ | ⟨-, -, teed⟩ |
      ⟨sender, -, room, teed⟩ <;> rw [teed]
    · exact h
    · exact ⟨h.held, fun _ _ => gone⟩
    · exact h
    · refine ⟨?_, fun _ gone => ?_⟩
      · simp only [List.length_append, List.length_singleton]
        omega
      · rw [show s.chan.sender = false from gone] at sender
        cases sender
  | other | late | idle => exact h
  | dropBody => exact ⟨h.held, fun live => by cases live⟩
  | item chunk queue there front =>
    refine ⟨?_, h.teeing⟩
    have held := h.held
    rw [front, List.length_cons] at held
    exact Nat.le_of_succ_le held
  | finished | die => exact ⟨Nat.zero_le _, fun _ _ => rfl⟩

/-! ## What is seen of a run -/

section Sights

/-- A chunk that the client got, the channel as it was then, and how it took the chunk. -/
structure Passing where
  chunk : List UInt8
  chan : Channel (List UInt8)
  attempt : Option Channel.Sent

abbrev Seen (τ ε : Type*) := List (Runs.Entry TeeBody (TeeTurn τ ε) (TeeSight τ ε))

def seen (es : List (TeeTurn τ ε)) : Seen τ ε := Runs.trace step new es

def answer (x : Runs.Entry TeeBody (TeeTurn τ ε) (TeeSight τ ε)) : Option (FramePoll τ ε) :=
  match x.output with
  | .polled answer _ => some answer
  | _ => none

def passing (x : Runs.Entry TeeBody (TeeTurn τ ε) (TeeSight τ ε)) : Option Passing :=
  match x.output with
  | .polled (.data chunk) attempt => some ⟨chunk, x.before.chan, attempt⟩
  | _ => none

def receipt (x : Runs.Entry TeeBody (TeeTurn τ ε) (TeeSight τ ε)) : Option (List UInt8) :=
  match x.output with
  | .received chunk => some chunk
  | _ => none

/-- What the client got. -/
def relayed (xs : Seen τ ε) : List (FramePoll τ ε) := xs.filterMap answer

def passings (xs : Seen τ ε) : List Passing := xs.filterMap passing

/-- What the task received. -/
def received (xs : Seen τ ε) : List (List UInt8) := xs.filterMap receipt

/-- The chunks that the channel took. -/
def handed (xs : Seen τ ε) : List (List UInt8) :=
  ((passings xs).filter fun p => p.attempt = some .ok).map Passing.chunk

/-- The chunks of a body. -/
def dataOf (answers : List (FramePoll τ ε)) : List (List UInt8) :=
  answers.filterMap fun a => match a with
    | .data chunk => some chunk
    | _ => none

/-- What the inner body answers until the body is dropped. -/
def answers : List (TeeTurn τ ε) → List (FramePoll τ ε)
  | [] => []
  | .poll inner :: es => inner :: answers es
  | .dropBody :: _ => []
  | .recv :: es => answers es
  | .die :: es => answers es

/-- Once the body is dropped the client gets nothing more. -/
theorem relayed_dropped {s : TeeBody} (h : s.live = false) (es : List (TeeTurn τ ε)) :
    relayed (Runs.trace step s es) = [] := by
  induction es generalizing s with
  | nil => rfl
  | cons e es ih =>
    have turn := turned s e
    rw [Runs.trace_cons, relayed, List.filterMap_cons, ← relayed, Runs.entry]
    generalize s.step e = r at turn ⊢
    cases turn with
    | data chunk live | other inner plain live =>
      rw [h] at live
      cases live
    | late | idle => exact ih h
    | dropBody => exact ih rfl
    | item | finished | die => exact ih h

/-- Whatever the task does, the client gets what the inner body answers. -/
theorem relayed_eq {s : TeeBody} (h : s.live = true) (es : List (TeeTurn τ ε)) :
    relayed (Runs.trace step s es) = answers es := by
  induction es generalizing s with
  | nil => rfl
  | cons e es ih =>
    have turn := turned s e
    rw [Runs.trace_cons, relayed, List.filterMap_cons, ← relayed, Runs.entry]
    generalize s.step e = r at turn ⊢
    cases turn with
    | data chunk live => exact congrArg (FramePoll.data chunk :: ·) (ih live)
    | other inner plain live => exact congrArg (inner :: ·) (ih live)
    | late inner dropped =>
      rw [h] at dropped
      cases dropped
    | dropBody => exact relayed_dropped rfl es
    | item | idle | finished | die => exact ih h

/-- Every chunk that the client got has passed. -/
theorem passings_chunk (xs : Seen τ ε) :
    (passings xs).map Passing.chunk = dataOf (relayed xs) := by
  rw [dataOf, passings, relayed, List.map_filterMap, List.filterMap_filterMap]
  refine List.filterMap_congr fun x _ => ?_
  unfold passing answer
  cases x.output with
  | polled answer attempt => cases answer <;> rfl
  | received | nothing => rfl

/-- What the channel took is what has been received and what is still queued, and the task
receives no more once it is gone. -/
structure Accounts (s : TeeBody) (xs : Seen τ ε) : Prop where
  carried : s.chan.receiver = true → s.chan.Carries (handed xs) (received xs)
  front : received xs <+: handed xs

theorem received_append (xs : Seen τ ε) (x : Runs.Entry TeeBody (TeeTurn τ ε) (TeeSight τ ε)) :
    received (xs ++ [x]) = received xs ++ (receipt x).toList := by
  simp [received, List.filterMap_cons]
  cases receipt x <;> rfl

theorem handed_append (xs : Seen τ ε) (x : Runs.Entry TeeBody (TeeTurn τ ε) (TeeSight τ ε)) :
    handed (xs ++ [x]) = handed xs ++
      ((passing x).toList.filter fun p => p.attempt = some .ok).map Passing.chunk := by
  rw [handed, passings, List.filterMap_append, List.filter_append, List.map_append]
  cases found : passing x <;> simp [found, handed, passings]

/-- A turn without a receipt that hands nothing over. -/
theorem Accounts.quiet {s s' : TeeBody} {xs : Seen τ ε} (h : Accounts s xs)
    {x : Runs.Entry TeeBody (TeeTurn τ ε) (TeeSight τ ε)} (still : receipt x = none)
    (lost : ∀ p ∈ passing x, p.attempt ≠ some .ok)
    (same : s'.chan.receiver = true → s.chan.receiver = true ∧ s'.chan.queue = s.chan.queue) :
    Accounts s' (xs ++ [x]) := by
  have nothing : (passing x).toList.filter (fun p => p.attempt = some .ok) = [] := by
    apply List.filter_eq_nil_iff.mpr
    intro p hp
    simpa using lost p (Option.mem_toList.mp hp)
  have received_ : received (xs ++ [x]) = received xs := by
    rw [received_append, still]
    exact List.append_nil _
  have handed_ : handed (xs ++ [x]) = handed xs := by
    rw [handed_append, nothing]
    exact List.append_nil _
  refine ⟨fun there => ?_, by rw [received_, handed_]; exact h.front⟩
  obtain ⟨before, queue⟩ := same there
  rw [received_, handed_, Channel.Carries, queue]
  exact h.carried before

theorem accounts_step {s : TeeBody} {xs : Seen τ ε} (h : Accounts s xs) (e : TeeTurn τ ε) :
    Accounts (s.step e).1 (xs ++ [Runs.entry step s e]) := by
  have turn := turned s e
  rw [Runs.entry]
  generalize s.step e = r at turn ⊢
  cases turn with
  | data chunk live =>
    rcases tee_cases s.chan chunk with ⟨-, teed⟩ | ⟨-, gone, teed⟩ | ⟨-, -, teed⟩ |
      ⟨-, there, -, teed⟩ <;> rw [teed]
    · exact h.quiet rfl (by simp [passing]) fun there => ⟨there, rfl⟩
    · refine h.quiet rfl (by simp [passing]) fun there => ?_
      rw [show s.chan.receiver = true from there] at gone
      cases gone
    · exact h.quiet rfl (by simp [passing]) fun there => ⟨there, rfl⟩
    · generalize seen_ : Runs.Entry.mk s (TeeTurn.poll (.data chunk))
        (TeeSight.polled (FramePoll.data chunk) (some .ok)) = x
      have handed_ : handed (xs ++ [x]) = handed xs ++ [chunk] := by
        rw [handed_append, ← seen_]
        simp [passing]
      have received_ : received (xs ++ [x]) = received xs := by
        rw [received_append, ← seen_]
        exact List.append_nil _
      refine ⟨fun _ => ?_, ?_⟩
      · rw [handed_, received_]
        exact (h.carried there).send chunk
      · rw [handed_, received_]
        exact h.front.trans (List.prefix_append _ _)
  | other inner plain live =>
    refine h.quiet rfl ?_ fun there => ⟨there, rfl⟩
    cases inner with
    | data chunk => exact absurd rfl (plain chunk)
    | pending | trailers | failed | ended => simp [passing]
  | late inner dropped => exact h.quiet rfl (by simp [passing]) fun there => ⟨there, rfl⟩
  | dropBody => exact h.quiet rfl (by simp [passing]) fun there => ⟨there, rfl⟩
  | item chunk queue there front =>
    generalize seen_ :
      Runs.Entry.mk s (TeeTurn.recv (τ := τ) (ε := ε)) (TeeSight.received chunk) = x
    have handed_ : handed (xs ++ [x]) = handed xs := by
      rw [handed_append, ← seen_]
      exact List.append_nil _
    have received_ : received (xs ++ [x]) = received xs ++ [chunk] := by
      rw [received_append, ← seen_]
      rfl
    have carried := (h.carried there).recv front
    refine ⟨fun _ => ?_, ?_⟩
    · rw [handed_, received_]
      exact carried
    · rw [handed_, received_]
      exact ⟨queue, carried.symm⟩
  | idle => exact h.quiet rfl (by simp [passing]) fun there => ⟨there, rfl⟩
  | finished drained => exact h.quiet rfl (by simp [passing]) fun there => by cases there
  | die => exact h.quiet rfl (by simp [passing]) fun there => by cases there

theorem accounts_run (es : List (TeeTurn τ ε)) :
    Accounts (Runs.final step new es) (seen es) := by
  have start : Accounts new ([] : Seen τ ε) := ⟨fun _ => Channel.carries_new, List.prefix_rfl⟩
  exact Runs.history_invariant (P := fun _ _ => True) (J := Accounts)
    (fun _ _ e h _ => accounts_step h e) start (Runs.steps_of_forall (fun _ _ => trivial) _ _)

/-- A chunk passes when the client side polls it out of the inner body. -/
theorem passing_entry {s : TeeBody} {e : TeeTurn τ ε} {p : Passing}
    (h : passing (Runs.entry step s e) = some p) : s.live = true ∧
      (s.step e).1.chan = (tee s.chan p.chunk).2 ∧
      p = ⟨p.chunk, s.chan, (tee s.chan p.chunk).1⟩ := by
  have turn := turned s e
  rw [Runs.entry] at h
  generalize s.step e = r at turn h ⊢
  cases turn with
  | data chunk live =>
    obtain rfl := Option.some.inj h
    exact ⟨live, rfl, rfl⟩
  | other inner plain live =>
    cases inner with
    | data chunk => exact absurd rfl (plain chunk)
    | pending | trailers | failed | ended => cases h
  | late | dropBody | item | idle | finished | die => cases h

/-- A chunk that the channel did not take met a full channel, or one without a receiver. -/
theorem refused_cases {es : List (TeeTurn τ ε)} {p : Passing} (mem : p ∈ passings (seen es))
    (refused : p.attempt ≠ some .ok) :
    p.chan.queue.length = teeCapacity ∨ p.chan.receiver = false := by
  obtain ⟨x, hx, passed⟩ := List.mem_filterMap.mp mem
  obtain ⟨sound, -, made⟩ := Runs.trace_invariant (P := fun _ _ => True) (I := Sound)
    (fun _ e h _ => sound_step h e) sound_new (Runs.steps_of_forall (fun _ _ => trivial) _ _) x hx
  rw [made] at passed
  obtain ⟨live, -, whole⟩ := passing_entry passed
  rw [whole] at refused ⊢
  rcases tee_cases x.before.chan p.chunk with ⟨disabled, -⟩ | ⟨-, gone, -⟩ | ⟨-, full, -⟩ |
    ⟨-, -, -, teed⟩
  · exact .inr (sound.teeing live disabled)
  · exact .inr gone
  · exact .inl (Nat.le_antisymm sound.held full.2)
  · exact absurd (congrArg Prod.fst teed) refused

theorem disabled_step {s : TeeBody} (h : s.chan.sender = false) (e : TeeTurn τ ε) :
    (s.step e).1.chan.sender = false := by
  have turn := turned s e
  generalize s.step e = r at turn ⊢
  cases turn with
  | data chunk live =>
    rw [tee, if_neg (by simp [h])]
    exact h
  | dropBody => rfl
  | other | late | item | idle | finished | die => exact h

/-- Once a chunk has met a closed channel, no other is tried. -/
theorem closed_silences (es : List (TeeTurn τ ε)) :
    (passings (seen es)).Pairwise fun p p' => p.attempt = some .closed → p'.attempt = none := by
  refine List.pairwise_filterMap.mpr ?_
  refine Runs.trace_pairwise (P := fun _ _ => True) (I := fun _ => True)
    (Q := fun x s => ∀ p, passing x = some p → p.attempt = some .closed → s.chan.sender = false)
    (fun _ _ _ _ => trivial) (fun s e _ _ p passed closed => ?_)
    (fun x s e _ _ kept p passed closed => disabled_step (kept p passed closed) e)
    (fun x s e _ _ kept p passed p' passed' closed => ?_) trivial
    (Runs.steps_of_forall (fun _ _ => trivial) _ _)
  · obtain ⟨-, next, whole⟩ := passing_entry passed
    rw [whole] at closed
    rw [next]
    rcases tee_cases s.chan p.chunk with
      ⟨-, teed⟩ | ⟨-, -, teed⟩ | ⟨-, -, teed⟩ | ⟨-, -, -, teed⟩ <;>
      rw [teed] at closed ⊢
    · cases closed
    · rfl
    · cases closed
    · cases closed
  · have disabled := kept p passed closed
    obtain ⟨-, -, whole⟩ := passing_entry passed'
    rw [whole, tee, if_neg (by simp [disabled])]

/-- The tee does not disturb the relay. The client gets what the inner body answers. The task
receives chunks that the client got, in order: the ones that the channel took, but for those that
are still queued, or were when the task ended. The channel does not take a chunk only if it is
full at that moment or the task is gone, and is not tried again once it was found closed. -/
theorem undisturbed (es : List (TeeTurn τ ε)) :
    relayed (seen es) = answers es ∧
    (received (seen es)).Sublist (dataOf (relayed (seen es))) ∧
    (passings (seen es)).map Passing.chunk = dataOf (relayed (seen es)) ∧
    (∃ unread, handed (seen es) = received (seen es) ++ unread ∧
      ((Runs.final step new es).chan.receiver = true →
        unread = (Runs.final step new es).chan.queue)) ∧
    (∀ p ∈ passings (seen es), p.attempt ≠ some .ok →
      p.chan.queue.length = teeCapacity ∨ p.chan.receiver = false) ∧
    (passings (seen es)).Pairwise fun p p' => p.attempt = some .closed → p'.attempt = none := by
  have accounts := accounts_run es
  refine ⟨relayed_eq rfl es, ?_, passings_chunk _, ?_, fun _ => refused_cases,
    closed_silences es⟩
  · rw [← passings_chunk]
    exact accounts.front.sublist.trans (List.filter_sublist.map _)
  · obtain ⟨unread, split⟩ := accounts.front
    refine ⟨unread, split.symm, fun there => ?_⟩
    have carried := accounts.carried there
    rw [Channel.Carries, ← split] at carried
    exact List.append_cancel_left carried

/-- The task has received every chunk that passed while it was there and the channel had room. -/
def MissesOnlyRefused (xs : Seen τ ε) : Prop :=
  (((passings xs).filter fun p =>
    p.chan.receiver ∧ p.chan.queue.length ≠ teeCapacity).map Passing.chunk).Sublist (received xs)

/-- A chunk is lost with its channel when the task dies before it receives it. -/
theorem not_missesOnlyRefused_die :
    ¬ MissesOnlyRefused (seen [.poll (FramePoll.data (τ := Unit) (ε := Unit) [104]), .die]) := by
  unfold MissesOnlyRefused
  decide

end Sights

end TeeBody

end Tailfin
