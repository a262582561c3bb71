import Lumen.Lib.Composition
import Lumen.Concurrency.MPMCTaskQueue
import Lumen.Concurrency.NaiveResultQueue
import Lumen.Concurrency.NaiveTaskQueue
import Lumen.Concurrency.SPSCTaskQueue
import Lumen.Concurrency.ThreadPool

/-!
# The pool with its queues

The code of `ThreadPool` with the task queue that is selected and the result queue, each access of
which is a step of its own. Where `ThreadPool.run` has an operation of a queue as one step, the
thread calls the queue (`queues`), and its fields `queue` and `results` are not used.

`Use mn` is how `main` uses the pool: the main thread `mn` pushes the tasks, pops the results and
shuts the pool down, and pushes no task after that.
-/

set_option autoImplicit false

namespace Lumen.Concurrency

open Lumen.Lib Lumen.Core

/-! ## The task queue that is selected -/

namespace QueueKind

def Mem (kind : QueueKind) (ι : Type) : Type :=
  match kind with
  | .spsc => SPSCTaskQueue.Mem
  | .mpmc => MPMCTaskQueue.Mem
  | .naive => NaiveTaskQueue.Mem ι

def Pc : QueueKind → Type
  | .spsc => SPSCTaskQueue.Pc
  | .mpmc => MPMCTaskQueue.Pc
  | .naive => NaiveTaskQueue.Pc

def Choice (kind : QueueKind) (ι : Type) : Type :=
  match kind with
  | .spsc => Unit
  | .mpmc => Bool
  | .naive => Option ι

def Obs : QueueKind → Type
  | .spsc => SPSCTaskQueue.Obs
  | .mpmc => MPMCTaskQueue.Obs
  | .naive => Empty

instance : (kind : QueueKind) → DecidableEq kind.Pc
  | .spsc => inferInstanceAs (DecidableEq SPSCTaskQueue.Pc)
  | .mpmc => inferInstanceAs (DecidableEq MPMCTaskQueue.Pc)
  | .naive => inferInstanceAs (DecidableEq NaiveTaskQueue.Pc)

/-- The queue that `main` makes. -/
def queue (kind : QueueKind) (ι : Type) [DecidableEq ι] :
    Shared.Impl ι (kind.Mem ι) kind.Pc (kind.Choice ι) ITaskQueue.Op ITaskQueue.Ret kind.Obs :=
  match kind with
  | .spsc => SPSCTaskQueue.impl ι
  | .mpmc => MPMCTaskQueue.impl ι
  | .naive => NaiveTaskQueue.impl ι

/-- The counters of the MPMC queue are below `2 ^ 63`, with a lap to spare. -/
def Below (kind : QueueKind) {ι : Type} : kind.Mem ι → Prop :=
  match kind with
  | .mpmc => fun m : MPMCTaskQueue.Mem => m.tail + MPMCTaskQueue.capacity < 2 ^ 63
  | .spsc | .naive => fun _ => True

instance {ι : Type} : (kind : QueueKind) → (m : kind.Mem ι) → Decidable (kind.Below m)
  | .mpmc, m => inferInstanceAs (Decidable (MPMCTaskQueue.Mem.tail m + _ < _))
  | .spsc, _ | .naive, _ => .isTrue trivial

end QueueKind

namespace ThreadPool

/-! ## The calls of the queues -/

section
variable {ι : Type*}

/-- The call that a thread makes next. -/
def invoke (setup : Setup ι) : Pc ι Unit → Option (ITaskQueue.Op ⊕ ResultQueue.Op)
  | .push job => some (.inl (.push job.task))
  | .popBatch [] => some (.inl (.popBatch setup.batchSize))
  | .pushResult _ result _ => some (.inr (.push result))
  | .popImmediate => some (.inr .popImmediate)
  | .stopQueue => some (.inl .shutdown)
  | _ => none

/-- How the thread goes on with the answer; an operation has no answers of other types. -/
def resume (setup : Setup ι) (m : Mem ι Unit) :
    Pc ι Unit → ITaskQueue.Ret ⊕ ResultQueue.Ret → Outcome ι Unit
  | .push job, .inl (.bool accepted) =>
    { obs := if accepted then [.accepted job] else [], ret := some (.pushed accepted), mem := m }
  | .popBatch _, .inl (.batch batch) =>
    { mem := m, pc := if batch.length = 0 then .loopTest else .forEach (batch.map .plain) }
  | .pushResult job result batch, .inr .unit =>
    { obs := [.produced job result], mem := m, pc := .forEach batch }
  | .popImmediate, .inr (.result result) => { ret := some (.popped result), mem := m }
  | .stopQueue, .inl .unit => { mem := m, pc := .stopJoin setup.workers }
  | p, _ => { mem := m, pc := p }

variable [DecidableEq ι]

/-- The calls of `task_queue` and `response_queue`. -/
def queues (setup : Setup ι) (allocator : ι → Allocator) :
    (impl Unit setup allocator).Hook (ITaskQueue.Op ⊕ ResultQueue.Op)
      (ITaskQueue.Ret ⊕ ResultQueue.Ret) where
  invoke := invoke setup
  resume _ := resume setup

/-- The pool over any two queues. -/
abbrev overQueues (setup : Setup ι) (allocator : ι → Allocator) {μ π χ ε μ' π' χ' ε' : Type*}
    (taskQueue : Shared.Impl ι μ π χ ITaskQueue.Op ITaskQueue.Ret ε)
    (responseQueue : Shared.Impl ι μ' π' χ' ResultQueue.Op ResultQueue.Ret ε') :=
  (impl Unit setup allocator).atop (queues setup allocator) (taskQueue.pair responseQueue)

/-- The point of the pool's code at which a thread is, or has called a queue. -/
def site {π : Type*} : Shared.Impl.Site (Pc ι Unit) π → Pc ι Unit
  | .own p | .inside p _ => p

/-- How `main` uses the pool. -/
def Use (setup : Setup ι) (mn : ι) {μ π χ : Type*}
    (s : Shared.State ι (Mem ι Unit × μ) (Shared.Impl.Site (Pc ι Unit) π)) :
    ι × Shared.Act (Op Unit) χ → Prop
  | (i, .call .workerLoop) => i ∈ setup.workers ∧ i ∉ s.mem.1.ended
  | (i, .call .shutdown) | (i, .call .popImmediate) => i = mn
  | (i, .call (.push _)) => i = mn ∧ s.mem.1.stop = false
  | (_, .run _) => True

instance (setup : Setup ι) (mn : ι) {μ π χ : Type*}
    (s : Shared.State ι (Mem ι Unit × μ) (Shared.Impl.Site (Pc ι Unit) π)) :
    ∀ l : ι × Shared.Act (Op Unit) χ, Decidable (Use setup mn s l)
  | (i, .call .workerLoop) => inferInstanceAs (Decidable (i ∈ setup.workers ∧ i ∉ s.mem.1.ended))
  | (i, .call .shutdown) | (i, .call .popImmediate) => inferInstanceAs (Decidable (i = mn))
  | (i, .call (.push _)) => inferInstanceAs (Decidable (i = mn ∧ s.mem.1.stop = false))
  | (_, .run _) => .isTrue trivial

end

/-! ## The system -/

variable {ι : Type} [DecidableEq ι]

/-- The pool with the task queue that is selected and `NaiveResultQueue`. -/
abbrev system (setup : Setup ι) (allocator : ι → Allocator) :=
  overQueues setup allocator (setup.kind.queue ι) (NaiveResultQueue.impl ι)

abbrev SystemState (setup : Setup ι) :=
  Shared.State ι (Mem ι Unit × (setup.kind.Mem ι × NaiveResultQueue.Mem ι))
    (Shared.Impl.Site (Pc ι Unit) (Shared.Impl.Side setup.kind.Pc NaiveResultQueue.Pc))

abbrev SystemLabel (setup : Setup ι) :=
  ι × Shared.Act (Op Unit) (Shared.Impl.Turn Choice (setup.kind.Choice ι ⊕ Option ι))

/-- What the runs of the system meet in each step. -/
def InUse (setup : Setup ι) (mn : ι) (s : SystemState setup) (l : SystemLabel setup) : Prop :=
  Use setup mn s l ∧ setup.kind.Below s.mem.2.1

instance (setup : Setup ι) (mn : ι) (s : SystemState setup) (l : SystemLabel setup) :
    Decidable (InUse setup mn s l) :=
  inferInstanceAs (Decidable (_ ∧ _))

end ThreadPool
end Lumen.Concurrency
