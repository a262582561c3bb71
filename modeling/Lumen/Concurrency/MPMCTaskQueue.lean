import Lumen.Lib.Word
import Lumen.Concurrency.ITaskQueue

/-!
# `MPMCTaskQueue`

The ring buffer, one atomic access at a time. Any number of threads `ι` share the memory `Mem`;
each has a program counter `Pc` that holds its local variables. `run` is the next step of one
thread: a load, a compare-exchange, an access to `cell.data` or a store, together with the local
code up to the next access. Memory is sequentially consistent.

Counters are 64-bit words (`add64`), their difference is taken as `intptr_t` (`sdiff64`).
-/

set_option autoImplicit false

namespace Lumen.Concurrency.MPMCTaskQueue

open Lumen.Lib Lumen.Core ITaskQueue

def capacity : Nat := 1024

def mask : Nat := capacity - 1

structure Cell where
  sequence : Nat
  data : InferenceTask
  deriving DecidableEq

/-- The shared fields; `buffer` is indexed below `capacity`. -/
structure Mem where
  buffer : Nat → Cell
  head : Nat
  tail : Nat
  stopFlag : Bool

/-- The next access of a thread, with the local variables it needs. -/
inductive Pc
  | idle
  | pushStop (task : InferenceTask)
  | pushTail (task : InferenceTask)
  | pushSeq (task : InferenceTask) (t : Nat)
  | pushCas (task : InferenceTask) (t : Nat)
  | pushData (task : InferenceTask) (t : Nat)
  | pushPublish (t : Nat)
  | popHead (ctx : PopCtx)
  | popSeq (ctx : PopCtx) (h : Nat)
  | popCas (ctx : PopCtx) (h : Nat)
  | popData (ctx : PopCtx) (h : Nat)
  | popPublish (ctx : PopCtx) (h : Nat) (task : InferenceTask)
  | batchTest (batch : List InferenceTask) (max : Nat)
  | sizeTail (empty : Bool)
  | sizeHead (empty : Bool) (t : Nat)
  | stopStore
  deriving DecidableEq

/-- What a step of the ring shows: a compare-exchange that won a ticket, a sequence store that
completed the operation on it, or a load after which the operation gives up. -/
inductive Obs
  | stopped
  | tailWin (t : Nat) (task : InferenceTask)
  | pushed (t : Nat)
  | full (t : Nat)
  | headWin (h : Nat)
  | popped (h : Nat) (task : InferenceTask)
  | none (h : Nat)
  deriving DecidableEq

/-! ## Access to the cells -/

def Mem.cell (m : Mem) (k : Nat) : Cell := m.buffer (k &&& mask)

def Mem.setData (m : Mem) (k : Nat) (task : InferenceTask) : Mem :=
  { m with buffer := Function.update m.buffer (k &&& mask) { m.cell k with data := task } }

def Mem.setSequence (m : Mem) (k seq : Nat) : Mem :=
  { m with buffer := Function.update m.buffer (k &&& mask) { m.cell k with sequence := seq } }

/-! ## The steps -/

/-- The first step of an operation. -/
def entry : Op → Pc
  | .push task => .pushStop task
  | .pop => .popHead .pop
  | .popBatch max => .batchTest [] max
  | .size => .sizeTail false
  | .empty => .sizeTail true
  | .shutdown => .stopStore

abbrev Outcome := Shared.Outcome Mem Ret Obs Pc.idle

/-- `pop` returns the task of the ticket `h`. -/
def popSome (m : Mem) (h : Nat) (task : InferenceTask) : PopCtx → Outcome
  | .pop => { obs := [.popped h task], ret := some (.task (some task)), mem := m }
  | .batch batch max =>
    { obs := [.popped h task], mem := m, pc := .batchTest (batch ++ [task]) max }

/-- `size()` from the two loads, or `empty()`. -/
def sizeRet (empty : Bool) (t h : Nat) : Ret :=
  let n := if t > h then sub64 t h else 0
  if empty then .bool (n == 0) else .size n

/-- The next access of a thread at `pc`. -/
def run (m : Mem) (weak : Bool) : Pc → Option Outcome
  | .idle => none
  | .pushStop task =>
    if m.stopFlag then some { obs := [.stopped], ret := some (.bool false), mem := m }
    else some { mem := m, pc := .pushTail task }
  | .pushTail task => some { mem := m, pc := .pushSeq task m.tail }
  | .pushSeq task t =>
    let diff := sdiff64 (m.cell t).sequence t
    if diff = 0 then some { mem := m, pc := .pushCas task t }
    else if diff < 0 then some { obs := [.full t], ret := some (.bool false), mem := m }
    else some { mem := m, pc := .pushTail task }
  | .pushCas task t =>
    if m.tail = t ∧ weak = false then
      some { obs := [.tailWin t task], mem := { m with tail := add64 t 1 }, pc := .pushData task t }
    else some { mem := m, pc := .pushSeq task m.tail }
  | .pushData task t => some { mem := m.setData t task, pc := .pushPublish t }
  | .pushPublish t =>
    some { obs := [.pushed t], ret := some (.bool true), mem := m.setSequence t (add64 t 1) }
  | .popHead ctx => some { mem := m, pc := .popSeq ctx m.head }
  | .popSeq ctx h =>
    let diff := sdiff64 (m.cell h).sequence (add64 h 1)
    if diff = 0 then some { mem := m, pc := .popCas ctx h }
    else if diff < 0 then some { obs := [.none h], ret := some ctx.none, mem := m }
    else some { mem := m, pc := .popHead ctx }
  | .popCas ctx h =>
    if m.head = h ∧ weak = false then
      some { obs := [.headWin h], mem := { m with head := add64 h 1 }, pc := .popData ctx h }
    else some { mem := m, pc := .popSeq ctx m.head }
  | .popData ctx h =>
    let task := (m.cell h).data
    some { mem := m.setData h task.movedFrom, pc := .popPublish ctx h task }
  | .popPublish ctx h task => some (popSome (m.setSequence h (add64 h capacity)) h task ctx)
  | .batchTest batch max =>
    if batch.length < max then some { mem := m, pc := .popHead (.batch batch max) }
    else some { ret := some (.batch batch), mem := m }
  | .sizeTail empty => some { mem := m, pc := .sizeHead empty m.tail }
  | .sizeHead empty t => some { ret := some (sizeRet empty t m.head), mem := m }
  | .stopStore => some { ret := some .unit, mem := { m with stopFlag := true } }

/-! ## The system -/

/-- The constructor: cell `i` is free for the ticket `i`. -/
def Mem.init : Mem :=
  { buffer := fun i => { sequence := i, data := .empty }, head := 0, tail := 0, stopFlag := false }

/-- `weak` is whether a `compare_exchange_weak` made in the access fails spuriously. -/
def impl (ι : Type*) : Shared.Impl ι Mem Pc Bool Op Ret Obs where
  start := .init
  idle := .idle
  entry := entry
  run _ := run

@[simp] theorem impl_idle {ι : Type*} : (impl ι).idle = .idle := rfl
@[simp] theorem impl_entry {ι : Type*} (op : Op) : (impl ι).entry op = entry op := rfl

abbrev State (ι : Type*) := Shared.State ι Mem Pc

/-- The queue shared by the threads `ι`. -/
abbrev lts (ι : Type*) [DecidableEq ι] : Lts (State ι) (ι × Act Bool) (Event ι Obs) := (impl ι).lts

end Lumen.Concurrency.MPMCTaskQueue
