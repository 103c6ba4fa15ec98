import Mathlib.Data.List.Basic

/-!
# Bounded channels

A queue of at most `cap` messages between a sender that never waits and a receiver. A message
sent to a full queue is lost without a trace. What holds as long as none is lost: the messages
received and those still queued are, in order, the messages sent.
-/

structure Channel (α : Type*) where
  queue : List α
  /-- The sender is still there. -/
  sender : Bool
  /-- The receiver is still there. -/
  receiver : Bool
  deriving Repr

namespace Channel

variable {α : Type*}

def new : Channel α := ⟨[], true, true⟩

inductive Sent where
  | ok
  | full
  | closed
  deriving DecidableEq, Repr

/-- Send without waiting. -/
def trySend (cap : Nat) (c : Channel α) (x : α) : Sent × Channel α :=
  if !c.receiver then (.closed, c)
  else if cap ≤ c.queue.length then (.full, c)
  else (.ok, { c with queue := c.queue ++ [x] })

inductive Received (α : Type*) where
  | item (x : α)
  /-- The sender is gone and the queue is empty. -/
  | ended
  /-- Nothing yet. -/
  | pending

def recv (c : Channel α) : Received α × Channel α :=
  match c.queue with
  | x :: queue => (.item x, { c with queue := queue })
  | [] => (if c.sender then .pending else .ended, c)

def dropSender (c : Channel α) : Channel α := { c with sender := false }

def dropReceiver (c : Channel α) : Channel α := { c with queue := [], receiver := false }

/-- A message sent now is lost. -/
def Full (cap : Nat) (c : Channel α) : Prop := c.receiver = true ∧ cap ≤ c.queue.length

instance (cap : Nat) (c : Channel α) : Decidable (c.Full cap) :=
  inferInstanceAs (Decidable (_ ∧ _))

/-- `sent` has arrived as `got` or is on its way. -/
def Carries (c : Channel α) (sent got : List α) : Prop := sent = got ++ c.queue

theorem trySend_ok {cap : Nat} {c : Channel α} (there : c.receiver = true) (room : ¬ c.Full cap)
    (x : α) : c.trySend cap x = (.ok, { c with queue := c.queue ++ [x] }) := by
  have short : ¬ cap ≤ c.queue.length := fun long => room ⟨there, long⟩
  simp [trySend, there, short]

theorem trySend_closed {cap : Nat} {c : Channel α} (gone : c.receiver = false) (x : α) :
    c.trySend cap x = (.closed, c) := by
  simp [trySend, gone]

theorem recv_item {c : Channel α} {x : α} {queue : List α} (front : c.queue = x :: queue) :
    c.recv = (.item x, { c with queue := queue }) := by
  rw [recv, front]

theorem recv_ended {c : Channel α} (drained : c.queue = []) (gone : c.sender = false) :
    c.recv = (.ended, c) := by
  simp [recv, drained, gone]

theorem recv_pending {c : Channel α} (drained : c.queue = []) (there : c.sender = true) :
    c.recv = (.pending, c) := by
  simp [recv, drained, there]

theorem carries_new : (new : Channel α).Carries [] [] := rfl

theorem Carries.send {c : Channel α} {sent got : List α} (h : c.Carries sent got) (x : α) :
    Carries { c with queue := c.queue ++ [x] } (sent ++ [x]) got := by
  rw [Carries] at h
  rw [Carries, h, List.append_assoc]

theorem Carries.recv {c : Channel α} {sent got queue : List α} {x : α} (h : c.Carries sent got)
    (front : c.queue = x :: queue) : Carries { c with queue := queue } sent (got ++ [x]) := by
  rw [Carries, front] at h
  rw [Carries, h, List.append_assoc]
  rfl

/-- Once the queue is empty, all that was sent has arrived. -/
theorem Carries.all {c : Channel α} {sent got : List α} (h : c.Carries sent got)
    (drained : c.queue = []) : sent = got := by
  rw [Carries, drained, List.append_nil] at h
  exact h

end Channel
