import Lumen.Lib.Shared
import Lumen.Core.InferenceEngine
import Lumen.Concurrency.TaskQueue

/-!
# `ThreadPool`

The workers, each in `worker_loop`; any threads that push tasks and pop results; and a thread that
calls `shutdown`. A worker takes the tasks of a batch one by one, in any interleaving with the other
workers; an operation of the result queue, which is under its mutex, is one step. A result is kept
with the job it was made from, which no code reads. `lts` are the runs in which every call of the
engine returns; in `process` one that fails ends the process. The room that a worker reserves for
its batches before its loop is `Heap.reserve`; in the runs it is there.
-/

set_option autoImplicit false

namespace Lumen.Concurrency.ThreadPool

open Lumen.Lib Lumen.Core

variable {ι κ : Type*}

/-- What stays as it is once the pool is built: the worker threads in the order in which `shutdown`
joins them, `get_batch_size()`, the implementation of the task queue, and the engine of each pod. -/
structure Setup (ι : Type*) where
  workers : List ι
  nodup : workers.Nodup
  batchSize : Nat
  kind : QueueKind
  engine : ι → InferenceEngine

/-- The fields and the two queues. `ended` are the worker threads that have ended, `joinable` those
not yet joined. -/
structure Mem (ι κ : Type*) where
  stop : Bool
  queue : TaskQueue κ
  results : List (Job κ × InferenceResult)
  allocator : ι → Allocator
  ended : List ι
  joinable : List ι

inductive Op (κ : Type*)
  | workerLoop
  | shutdown
  | push (job : Job κ)
  | popImmediate
  deriving DecidableEq

inductive Ret
  | exited
  | stopped
  | pushed (accepted : Bool)
  | popped (result : Option InferenceResult)
  deriving DecidableEq

/-- What the proofs watch: a push accepts a job, a worker pushes the result of a job, and the result
is popped. -/
inductive Obs (κ : Type*)
  | accepted (job : Job κ)
  | produced (job : Job κ) (result : InferenceResult)
  | popped (job : Job κ) (result : InferenceResult)
  deriving DecidableEq

/-- What is left open in a step: whether a worker takes a further task or ends its batch, what the
clock says, and what a call of the engine meets. -/
inductive Choice
  | none
  | take
  | clock (now : Rat)
  | engine (env : RunEnv)

/-- The next step of a thread, with the local variables it needs. `task` is the task of `job` as
it is passed to the engine. -/
inductive Pc (ι κ : Type*)
  | idle
  | push (job : Job κ)
  | popImmediate
  | loopTest
  | popBatch (batch : List (Job κ))
  | popRelease (ticket : Nat) (job : Job κ) (batch : List (Job κ))
  | forEach (batch : List (Job κ))
  | engineRun (job : Job κ) (task : InferenceTask) (batch : List (Job κ))
  | arenaReset (job : Job κ) (result : InferenceResult) (batch : List (Job κ))
  | pushResult (job : Job κ) (result : InferenceResult) (batch : List (Job κ))
  | loopEnd
  | stopTest
  | stopStore
  | stopQueue
  | stopJoin (workers : List ι)
  deriving DecidableEq

abbrev Outcome (ι κ : Type*) :=
  Shared.Outcome (Mem ι κ) Ret (Obs κ) (Pc.idle : Pc ι κ)

/-- What `reserve` of a vector of tasks finds: `max_size()`, and whether there is memory for so many
tasks. -/
structure Heap where
  maxSize : Nat
  available : Nat → Bool

inductive ReserveError
  | lengthError
  | badAlloc
  deriving DecidableEq

/-- `batch_buffer.reserve(n)`, which a worker calls with the batch size before its loop. -/
def Heap.reserve (heap : Heap) (n : Nat) : Except ReserveError Unit :=
  if heap.maxSize < n then .error .lengthError
  else if heap.available n then .ok ()
  else .error .badAlloc

/-! ## The steps -/

/-- The first step of an operation. -/
def entry : Op κ → Pc ι κ
  | .workerLoop => .loopTest
  | .shutdown => .stopTest
  | .push job => .push job
  | .popImmediate => .popImmediate

/-- `task_queue->push`. -/
def push (setup : Setup ι) (m : Mem ι κ) (job : Job κ) : Outcome ι κ :=
  let (accepted, queue) := m.queue.push setup.kind job
  { obs := if accepted then [.accepted job] else [], ret := some (.pushed accepted),
    mem := { m with queue := queue } }

/-- `response_queue->pop_immediate`. -/
def popImmediate (m : Mem ι κ) : Outcome ι κ :=
  match m.results with
  | [] => { ret := some (.popped none), mem := m }
  | (job, result) :: results =>
    { obs := [.popped job result], ret := some (.popped (some result)),
      mem := { m with results := results } }

/-- One round of `task_queue->pop_batch`, which has taken `batch`. -/
def popBatch (setup : Setup ι) (m : Mem ι κ) (choice : Choice) (batch : List (Job κ)) :
    Option (Outcome ι κ) :=
  match choice with
  | .take =>
    if batch.length < setup.batchSize then
      match m.queue.take with
      | some (ticket, job, queue) =>
        some { mem := { m with queue := queue }, pc := .popRelease ticket job batch }
      | none => none
    else none
  | .none =>
    if m.queue.mayEnd setup.kind batch.length setup.batchSize then
      some { mem := m, pc := if batch.length = 0 then .loopTest else .forEach batch }
    else none
  | _ => none

/-- The loop over `batch_buffer`, up to the call of the engine. -/
def forEach (m : Mem ι κ) (choice : Choice) : List (Job κ) → Option (Outcome ι κ)
  | [] => some { mem := m, pc := .loopTest }
  | job :: batch =>
    match choice with
    | .clock now =>
      let trace := job.task.trace.map fun trace =>
        { trace with queueWaitMs := trace.getElapsedMs now }
      some { mem := m, pc := .engineRun job { job.task with trace := trace } batch }
    | _ => none

variable [DecidableEq ι]

/-- `pod.engine->run`, where it returns. -/
def engineRun (setup : Setup ι) (i : ι) (m : Mem ι κ) (choice : Choice) (job : Job κ)
    (task : InferenceTask) (batch : List (Job κ)) : Option (Outcome ι κ) :=
  match choice with
  | .engine env =>
    match (setup.engine i).run env task (m.allocator i) with
    | .ok (result, allocator) =>
      some { mem := { m with allocator := Function.update m.allocator i allocator },
             pc := .arenaReset job result batch }
    | .error _ => none
  | _ => none

/-- The loop of `shutdown` over the worker threads: a join waits until the thread has ended. -/
def stopJoin (m : Mem ι κ) : List ι → Option (Outcome ι κ)
  | [] => some { ret := some .stopped, mem := m }
  | worker :: workers =>
    if worker ∈ m.joinable then
      if worker ∈ m.ended then
        some { mem := { m with joinable := m.joinable.erase worker }, pc := .stopJoin workers }
      else none
    else some { mem := m, pc := .stopJoin workers }

/-- The next step of thread `i`. -/
def run (setup : Setup ι) (i : ι) (m : Mem ι κ) (choice : Choice) :
    Pc ι κ → Option (Outcome ι κ)
  | .idle => none
  | .push job => some (push setup m job)
  | .popImmediate => some (popImmediate m)
  | .loopTest => some { mem := m, pc := if m.stop then .loopEnd else .popBatch [] }
  | .popBatch batch => popBatch setup m choice batch
  | .popRelease ticket job batch =>
    some { mem := { m with queue := m.queue.release ticket }, pc := .popBatch (batch ++ [job]) }
  | .forEach batch => forEach m choice batch
  | .engineRun job task batch => engineRun setup i m choice job task batch
  | .arenaReset job result batch =>
    some { mem := { m with
             allocator := Function.update m.allocator i (m.allocator i).reset },
           pc := .pushResult job result batch }
  | .pushResult job result batch =>
    some { obs := [.produced job result], mem := { m with results := m.results ++ [(job, result)] },
           pc := .forEach batch }
  | .loopEnd => some { ret := some .exited, mem := { m with ended := i :: m.ended } }
  | .stopTest =>
    if m.stop then some { ret := some .stopped, mem := m } else some { mem := m, pc := .stopStore }
  | .stopStore => some { mem := { m with stop := true }, pc := .stopQueue }
  | .stopQueue =>
    some { mem := { m with queue := m.queue.shutdown }, pc := .stopJoin setup.workers }
  | .stopJoin workers => stopJoin m workers

/-! ## The system -/

omit [DecidableEq ι] in
/-- The constructor, with the allocators of the pods as it leaves them. -/
def Mem.init (setup : Setup ι) (allocator : ι → Allocator) : Mem ι κ :=
  { stop := false, queue := .empty, results := [], allocator := allocator, ended := [],
    joinable := setup.workers }

def impl (κ : Type*) (setup : Setup ι) (allocator : ι → Allocator) :
    Shared.Impl ι (Mem ι κ) (Pc ι κ) Choice (Op κ) Ret (Obs κ) where
  start := .init setup allocator
  idle := .idle
  entry := entry
  run := run setup

abbrev State (ι κ : Type*) := Shared.State ι (Mem ι κ) (Pc ι κ)

abbrev Event (ι κ : Type*) := Shared.Event ι (Op κ) Ret (Obs κ)

abbrev Label (ι κ : Type*) := ι × Shared.Act (Op κ) Choice

/-- The pool used by the threads `ι`. -/
abbrev lts (κ : Type*) [DecidableEq κ] (setup : Setup ι) (allocator : ι → Allocator) :
    Lts (State ι κ) (Label ι κ) (Event ι κ) :=
  (impl κ setup allocator).lts

/-- How the call of `pod.engine->run` that thread `i` is to make fails. -/
def failure (setup : Setup ι) (s : State ι κ) : Label ι κ → Option Failure
  | (i, .run (.engine env)) =>
    match s.pc i with
    | .engineRun _ task _ =>
      match (setup.engine i).run env task (s.mem.allocator i) with
      | .ok _ => none
      | .error f => some f
    | _ => none
  | _ => none

/-- The process of the pool. Nothing catches what leaves `run`: an exception that leaves a worker
thread ends the process, and so does an access through a null pointer. -/
def process (κ : Type*) [DecidableEq κ] (setup : Setup ι) (allocator : ι → Allocator) :
    Lts (Except Failure (State ι κ)) (Label ι κ) (Event ι κ) where
  init s := s = .ok (impl κ setup allocator).init
  step
    | .ok s, l =>
      match failure setup s l with
      | some f => some ([], .error f)
      | none => ((impl κ setup allocator).step s l).map fun p => (p.1, .ok p.2)
    | .error _, _ => none

/-- The thread `mn` shuts the pool down; a worker thread runs its loop, and not again once it has
ended. -/
def Roles (setup : Setup ι) (mn : ι) (s : State ι κ) : Label ι κ → Prop
  | (i, .call .workerLoop) => i ∈ setup.workers ∧ i ∉ s.mem.ended
  | (i, .call .shutdown) => i = mn
  | (_, .call (.push _)) | (_, .call .popImmediate) | (_, .run _) => True

instance (setup : Setup ι) (mn : ι) (s : State ι κ) : ∀ l, Decidable (Roles setup mn s l)
  | (i, .call .workerLoop) => inferInstanceAs (Decidable (i ∈ setup.workers ∧ i ∉ s.mem.ended))
  | (i, .call .shutdown) => inferInstanceAs (Decidable (i = mn))
  | (_, .call (.push _)) | (_, .call .popImmediate) | (_, .run _) => .isTrue trivial

end Lumen.Concurrency.ThreadPool
