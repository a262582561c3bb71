import Lumen.Core.Task

/-!
# The task queue the rest of the engine works with

A FIFO list with what its three implementations add to it: when they refuse a task and when they
end a batch. A task is accepted at the end; a consumer takes the front, and gives the slot back in
a second step (`unreleased` holds the tickets of the slots not given back). `closed` and `full` are
what a push of each implementation looks at: the naive queue never refuses, also once it is shut
down, the ring of the SPSC queue keeps one of its 1024 slots free, and the MPMC queue looks at the
one slot of its ticket.

A `Job` is a task with a tag, which no code reads: it tells tasks with the same content apart.
-/

set_option autoImplicit false

namespace Lumen.Concurrency

open Lumen.Core

structure Job (κ : Type*) where
  task : InferenceTask
  tag : κ
  deriving DecidableEq

/-- A job without a tag. -/
def Job.plain (task : InferenceTask) : Job Unit := { task := task, tag := () }

/-- The implementations that `main` selects. -/
inductive QueueKind
  | spsc
  | mpmc
  | naive
  deriving DecidableEq

structure TaskQueue (κ : Type*) where
  tasks : List (Job κ)
  accepted : Nat
  unreleased : List Nat
  stopped : Bool

namespace TaskQueue

variable {κ : Type*}

def empty : TaskQueue κ := { tasks := [], accepted := 0, unreleased := [], stopped := false }

/-- The producer finds the queue shut down. -/
def closed (kind : QueueKind) (q : TaskQueue κ) : Bool :=
  match kind with
  | .naive => false
  | .spsc | .mpmc => q.stopped

/-- The producer finds no free slot. -/
def full (kind : QueueKind) (q : TaskQueue κ) : Bool :=
  match kind with
  | .spsc => decide (1023 ≤ q.tasks.length + q.unreleased.length)
  | .mpmc =>
    decide (1024 ≤ q.tasks.length ∨ (1024 ≤ q.accepted ∧ q.accepted - 1024 ∈ q.unreleased))
  | .naive => false

/-- `push`: whether the task is accepted, and the queue. -/
def push (kind : QueueKind) (q : TaskQueue κ) (job : Job κ) : Bool × TaskQueue κ :=
  if q.closed kind ∨ q.full kind then (false, q)
  else (true, { q with tasks := q.tasks ++ [job], accepted := q.accepted + 1 })

/-- The consumer takes the front; its ticket is the number of the tasks taken before. -/
def take (q : TaskQueue κ) : Option (Nat × Job κ × TaskQueue κ) :=
  match q.tasks with
  | [] => none
  | job :: tasks =>
    let ticket := q.accepted - q.tasks.length
    some (ticket, job, { q with tasks := tasks, unreleased := ticket :: q.unreleased })

def release (q : TaskQueue κ) (ticket : Nat) : TaskQueue κ :=
  { q with unreleased := q.unreleased.erase ticket }

/-- `pop_batch` may return the `n` tasks it has taken. The naive queue waits for the first task; the
MPMC queue may find the front not yet published. -/
def mayEnd (kind : QueueKind) (q : TaskQueue κ) (n max : Nat) : Bool :=
  match kind with
  | .spsc => decide (n = max ∨ q.tasks = [])
  | .mpmc => true
  | .naive => decide (n = max ∨ (q.tasks = [] ∧ (n ≠ 0 ∨ q.stopped)))

def shutdown (q : TaskQueue κ) : TaskQueue κ := { q with stopped := true }

variable {q q' : TaskQueue κ} {job : Job κ} {ticket : Nat}

theorem closed_eq_false (kind : QueueKind) (h : q.stopped = false) : q.closed kind = false := by
  cases kind <;> simp [closed, h]

/-- A push does not open the queue again. -/
theorem push_stopped (kind : QueueKind) (q : TaskQueue κ) (job : Job κ) :
    (q.push kind job).2.stopped = q.stopped := by
  unfold push
  split <;> rfl

theorem take_some (h : q.take = some (ticket, job, q')) :
    q.tasks = job :: q'.tasks ∧ q'.accepted = q.accepted ∧ q'.stopped = q.stopped ∧
      q'.unreleased = ticket :: q.unreleased := by
  unfold take at h
  split at h
  · cases h
  · rename_i tasks htasks
    cases h
    exact ⟨htasks, rfl, rfl, rfl⟩

end TaskQueue
end Lumen.Concurrency
