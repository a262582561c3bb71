import Lumen.Lib.Word
import Lumen.Concurrency.ITaskQueue

/-!
# `SPSCTaskQueue`

The ring of one producer and one consumer, one atomic access at a time: the loads and stores of
the counters and of the stop flag, the write of a slot and the move out of it are separate steps.
The code does not check who calls it; `Roles p c` is the discipline of the class, one thread `p`
that pushes and one thread `c` that pops, and anybody who asks for the size or shuts it down.
-/

set_option autoImplicit false

namespace Lumen.Concurrency.SPSCTaskQueue

open Lumen.Lib Lumen.Core ITaskQueue

def capacity : Nat := 1024

def mask : Nat := capacity - 1

/-- The shared fields; `buffer` is indexed below `capacity`. -/
structure Mem where
  buffer : Nat → InferenceTask
  head : Nat
  tail : Nat
  stopFlag : Bool

/-- The next access of a thread, with the local variables it needs. `pushStore` keeps the task it
has moved into its slot, for the history alone. -/
inductive Pc
  | idle
  | pushStop (task : InferenceTask)
  | pushTail (task : InferenceTask)
  | pushHead (task : InferenceTask) (t : Nat)
  | pushWrite (task : InferenceTask) (t : Nat)
  | pushStore (task : InferenceTask) (t : Nat)
  | popHead (ctx : PopCtx)
  | popTail (ctx : PopCtx) (h : Nat)
  | popMove (ctx : PopCtx) (h : Nat)
  | popStore (ctx : PopCtx) (h : Nat) (task : InferenceTask)
  | batchTest (batch : List InferenceTask) (max : Nat)
  | sizeTail (empty : Bool)
  | sizeHead (empty : Bool) (t : Nat)
  | stopStore
  deriving DecidableEq

/-- What an access shows: the load after which an operation gives up, or the counter store that
completes it. -/
inductive Obs
  | stopped
  | full (task : InferenceTask)
  | pushed (task : InferenceTask)
  | none
  | popped (task : InferenceTask)
  deriving DecidableEq

abbrev Outcome := Shared.Outcome Mem Ret Obs Pc.idle

/-- `buffer[k & Mask] = task`. -/
def Mem.write (m : Mem) (k : Nat) (task : InferenceTask) : Mem :=
  { m with buffer := Function.update m.buffer (k &&& mask) task }

/-! ## The steps -/

/-- The first step of an operation. -/
def entry : Op → Pc
  | .push task => .pushStop task
  | .pop => .popHead .pop
  | .popBatch max => .batchTest [] max
  | .size => .sizeTail false
  | .empty => .sizeTail true
  | .shutdown => .stopStore

/-- `pop` returns `task`. -/
def popSome (m : Mem) (task : InferenceTask) : PopCtx → Outcome
  | .pop => { obs := [.popped task], ret := some (.task (some task)), mem := m }
  | .batch batch max => { obs := [.popped task], mem := m, pc := .batchTest (batch ++ [task]) max }

/-- `size()` from the two loads, or `empty()`. -/
def sizeRet (empty : Bool) (t h : Nat) : Ret :=
  if empty then .bool (sub64 t h == 0) else .size (sub64 t h)

/-- The next access of a thread. -/
def run (m : Mem) : Pc → Option Outcome
  | .idle => none
  | .pushStop task =>
    if m.stopFlag then some { obs := [.stopped], ret := some (.bool false), mem := m }
    else some { mem := m, pc := .pushTail task }
  | .pushTail task => some { mem := m, pc := .pushHead task m.tail }
  | .pushHead task t =>
    if add64 t 1 &&& mask = m.head &&& mask then
      some { obs := [.full task], ret := some (.bool false), mem := m }
    else some { mem := m, pc := .pushWrite task t }
  | .pushWrite task t => some { mem := m.write t task, pc := .pushStore task t }
  | .pushStore task t =>
    some { obs := [.pushed task], ret := some (.bool true), mem := { m with tail := add64 t 1 } }
  | .popHead ctx => some { mem := m, pc := .popTail ctx m.head }
  | .popTail ctx h =>
    if h = m.tail then some { obs := [.none], ret := some ctx.none, mem := m }
    else some { mem := m, pc := .popMove ctx h }
  | .popMove ctx h =>
    let task := m.buffer (h &&& mask)
    some { mem := m.write h task.movedFrom, pc := .popStore ctx h task }
  | .popStore ctx h task => some (popSome { m with head := add64 h 1 } task ctx)
  | .batchTest batch max =>
    if batch.length < max then some { mem := m, pc := .popHead (.batch batch max) }
    else some { ret := some (.batch batch), mem := m }
  | .sizeTail empty => some { mem := m, pc := .sizeHead empty m.tail }
  | .sizeHead empty t => some { ret := some (sizeRet empty t m.head), mem := m }
  | .stopStore => some { ret := some .unit, mem := { m with stopFlag := true } }

/-! ## The system -/

/-- The constructor. -/
def Mem.init : Mem := { buffer := fun _ => .empty, head := 0, tail := 0, stopFlag := false }

def impl (ι : Type*) : Shared.Impl ι Mem Pc Unit Op Ret Obs where
  start := .init
  idle := .idle
  entry := entry
  run _ m _ := run m

@[simp] theorem impl_idle {ι : Type*} : (impl ι).idle = .idle := rfl
@[simp] theorem impl_entry {ι : Type*} (op : Op) : (impl ι).entry op = entry op := rfl

abbrev State (ι : Type*) := Shared.State ι Mem Pc

/-- The queue shared by the threads `ι`. -/
abbrev lts (ι : Type*) [DecidableEq ι] : Lts (State ι) (ι × Act Unit) (Event ι Obs) := (impl ι).lts

/-- Only `p` pushes and only `c` pops. -/
def Roles {ι : Type*} (p c : ι) (_ : List (Event ι Obs)) (_ : State ι) : ι × Act Unit → Prop
  | (i, .call (.push _)) => i = p
  | (i, .call .pop) | (i, .call (.popBatch _)) => i = c
  | _ => True

instance {ι : Type*} [DecidableEq ι] (p c : ι) (h : List (Event ι Obs)) (s : State ι) :
    ∀ l, Decidable (Roles p c h s l)
  | (i, .call (.push _)) => inferInstanceAs (Decidable (i = p))
  | (i, .call .pop) | (i, .call (.popBatch _)) => inferInstanceAs (Decidable (i = c))
  | (_, .call .size) | (_, .call .empty) | (_, .call .shutdown) | (_, .run _) => .isTrue trivial

end Lumen.Concurrency.SPSCTaskQueue
