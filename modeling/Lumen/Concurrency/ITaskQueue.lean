import Lumen.Lib.Sequential
import Lumen.Core.Task

/-!
# The interface of the task queues

The operations of `ITaskQueue` as they are called and what they return. Each implementation is an
object shared by threads (`Shared.Impl`). `Fifo` is what a task queue is for: a list of tasks, at
most `cap` of them when `cap` is a number, closed to producers once it has been shut down.
-/

set_option autoImplicit false

namespace Lumen.Concurrency

open Lumen.Lib Lumen.Core

namespace ITaskQueue

/-- A call. `popBatch` appends to the caller's vector: what is modelled is what it appends. -/
inductive Op
  | push (task : InferenceTask)
  | pop
  | popBatch (maxBatchSize : Nat)
  | size
  | empty
  | shutdown
  deriving DecidableEq

/-- What a call returns; the count `popBatch` returns is the length of its batch. -/
inductive Ret
  | bool (b : Bool)
  | task (task : Option InferenceTask)
  | batch (batch : List InferenceTask)
  | size (n : Nat)
  | unit
  deriving DecidableEq

/-- Who called the `pop` that runs: its own caller, or the loop of `pop_batch`, which has taken
`batch` so far. -/
inductive PopCtx
  | pop
  | batch (batch : List InferenceTask) (max : Nat)
  deriving DecidableEq

/-- What the caller of a `pop` that found nothing returns. -/
def PopCtx.none : PopCtx → Ret
  | .pop => .task .none
  | .batch taken _ => .batch taken

end ITaskQueue

/-- The history of a queue with the observations `ε`. -/
abbrev Event (ι ε : Type*) := Shared.Event ι ITaskQueue.Op ITaskQueue.Ret ε

/-- The labels of the steps of a queue. -/
abbrev Act (χ : Type*) := Shared.Act ITaskQueue.Op χ

open ITaskQueue

/-! ## The specification -/

/-- The value of a task queue; `pushed` counts the tasks it has accepted so far. -/
structure Fifo where
  tasks : List InferenceTask := []
  stopped : Bool := false
  pushed : Nat := 0

namespace Fifo

/-- No further task fits. -/
def Full (cap : Option Nat) (q : Fifo) : Prop := ∃ n ∈ cap, n ≤ q.tasks.length

instance (cap : Option Nat) (q : Fifo) : Decidable (q.Full cap) :=
  match cap with
  | none => .isFalse (by simp [Full])
  | some n => decidable_of_iff (n ≤ q.tasks.length) (by simp [Full])

/-- One operation on a queue of capacity `cap`. -/
def apply (cap : Option Nat) : Shared.Spec Fifo Op Ret
  | q, .push task =>
    if q.stopped ∨ q.Full cap then (.bool false, q)
    else (.bool true, { q with tasks := q.tasks ++ [task], pushed := q.pushed + 1 })
  | q, .pop => (.task q.tasks.head?, { q with tasks := q.tasks.tail })
  | q, .popBatch max => (.batch (q.tasks.take max), { q with tasks := q.tasks.drop max })
  | q, .size => (.size q.tasks.length, q)
  | q, .empty => (.bool (q.tasks.length == 0), q)
  | q, .shutdown => (.unit, { q with stopped := true })

variable {cap : Option Nat} {n : Nat} {q : Fifo} {task : InferenceTask}

@[simp] theorem full_some : q.Full (some n) ↔ n ≤ q.tasks.length := by simp [Full]

@[simp] theorem not_full_none : ¬ q.Full none := by simp [Full]

theorem apply_push (hs : q.stopped = false) (hf : ¬ q.Full cap) :
    apply cap q (.push task) =
      (.bool true, { q with tasks := q.tasks ++ [task], pushed := q.pushed + 1 }) := by
  simp [apply, hs, hf]

theorem apply_push_full (hf : q.Full cap) : apply cap q (.push task) = (.bool false, q) := by
  simp [apply, hf]

theorem apply_push_stopped (hs : q.stopped = true) :
    apply cap q (.push task) = (.bool false, q) := by
  simp [apply, hs]

end Fifo

/-- A task of the client `fd`, for the runs that show a queue at work. -/
def client (fd : Int) : InferenceTask :=
  { clientFd := fd, data := [7], pre := some 0, post := some 1, trace := none }

end Lumen.Concurrency
