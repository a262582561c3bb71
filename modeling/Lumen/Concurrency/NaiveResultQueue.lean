import Lumen.Lib.Refinement
import Lumen.Core.Task

/-!
# `NaiveResultQueue`

The queue of the results under a mutex, with its condition variable, as in `NaiveTaskQueue`; here a
push notifies before it gives the mutex back, and `pop_immediate` does not wait. `ResultQueue` is
what it is for: a list of results that each operation reads or changes at once.
-/

set_option autoImplicit false

namespace Lumen.Concurrency

open Lumen.Lib Lumen.Core

/-! ## The interface -/

namespace ResultQueue

/-- The operations of `IResultQueue`, and `shutdown`. -/
inductive Op
  | push (result : InferenceResult)
  | pop
  | popImmediate
  | size
  | empty
  | shutdown
  deriving DecidableEq

inductive Ret
  | unit
  | result (result : Option InferenceResult)
  | size (n : Nat)
  | bool (b : Bool)
  deriving DecidableEq

structure Value where
  results : List InferenceResult
  stopped : Bool

/-- One operation; `pop` waits for a result or for `shutdown`. -/
def effect (q : Value) : Op → Option (Ret × Value)
  | .push result => some (.unit, { q with results := q.results ++ [result] })
  | .pop =>
    if q.results = [] ∧ q.stopped = false then none
    else some (.result q.results.head?, { q with results := q.results.tail })
  | .popImmediate => some (.result q.results.head?, { q with results := q.results.tail })
  | .size => some (.size q.results.length, q)
  | .empty => some (.bool q.results.isEmpty, q)
  | .shutdown => some (.unit, { q with stopped := true })

/-- The queue used by the threads `ι`. -/
def impl (ι : Type*) :
    Shared.Impl ι Value (Shared.Impl.AtomicPc Op Ret) Unit Op Ret Empty :=
  Shared.Impl.atomic ι { results := [], stopped := false } effect

end ResultQueue

namespace NaiveResultQueue

open ResultQueue

/-! ## The class -/

/-- The fields; `guard` is the thread that holds the mutex. -/
structure Mem (ι : Type*) where
  data : List InferenceResult
  guard : Option ι
  waiters : List ι
  stop : Bool

/-- The next step of a thread, with the local variables it needs. -/
inductive Pc
  | idle
  | pushLock (result : InferenceResult)
  | pushData (result : InferenceResult)
  | pushNotify
  | popLock
  | popTest
  | popWait
  | popTake
  | immediateLock
  | immediateTake
  | sizeLock (empty : Bool)
  | sizeRead (empty : Bool)
  | unlock (r : Ret)
  | stopLock
  | stopSet
  | stopUnlock
  | stopNotify
  deriving DecidableEq

variable {ι : Type*}

abbrev Outcome (ι : Type*) := Shared.Outcome (Mem ι) Ret Empty Pc.idle

/-! ## The steps -/

/-- The first step of an operation. -/
def entry : Op → Pc
  | .push result => .pushLock result
  | .pop => .popLock
  | .popImmediate => .immediateLock
  | .size => .sizeLock false
  | .empty => .sizeLock true
  | .shutdown => .stopLock

/-- The constructor of a lock, then `pc`. -/
def lock (i : ι) (m : Mem ι) (pc : Pc) : Option (Outcome ι) :=
  if m.guard.isNone then some { mem := { m with guard := some i }, pc := pc } else none

/-- The front of the queue, if there is one. -/
def take (m : Mem ι) : Outcome ι :=
  match m.data with
  | [] => { mem := m, pc := .unlock (.result none) }
  | result :: data => { mem := { m with data := data }, pc := .unlock (.result (some result)) }

theorem lock_some {i : ι} {m : Mem ι} {pc : Pc} {o : Outcome ι} (h : lock i m pc = some o) :
    m.guard = none ∧ o = { mem := { m with guard := some i }, pc := pc } := by
  unfold lock at h
  split at h <;> rename_i hg <;> cases h
  exact ⟨Option.isNone_iff_eq_none.1 hg, rfl⟩

variable [DecidableEq ι]

/-- The next step of thread `i`. `choice` is the waiter a `notify_one` wakes, `none` where there is
none to wake; for a waiting thread it is the thread itself when it wakes spuriously. -/
def run (i : ι) (m : Mem ι) (choice : Option ι) : Pc → Option (Outcome ι)
  | .idle => none
  | .pushLock result => lock i m (.pushData result)
  | .pushData result => some { mem := { m with data := m.data ++ [result] }, pc := .pushNotify }
  | .pushNotify =>
    match choice with
    | none => if m.waiters = [] then some { mem := m, pc := .unlock .unit } else none
    | some j =>
      if j ∈ m.waiters then
        some { mem := { m with waiters := m.waiters.erase j }, pc := .unlock .unit }
      else none
  | .popLock => lock i m .popTest
  | .popTest =>
    if m.data ≠ [] ∨ m.stop then some { mem := m, pc := .popTake }
    else some { mem := { m with guard := none, waiters := i :: m.waiters }, pc := .popWait }
  | .popWait =>
    if i ∉ m.waiters then some { mem := m, pc := .popLock }
    else if choice = some i then
      some { mem := { m with waiters := m.waiters.erase i }, pc := .popLock }
    else none
  | .popTake => some (take m)
  | .immediateLock => lock i m .immediateTake
  | .immediateTake => some (take m)
  | .sizeLock empty => lock i m (.sizeRead empty)
  | .sizeRead empty =>
    let r := if empty then .bool m.data.isEmpty else .size m.data.length
    some { mem := m, pc := .unlock r }
  | .unlock r => some { ret := some r, mem := { m with guard := none } }
  | .stopLock => lock i m .stopSet
  | .stopSet => some { mem := { m with stop := true }, pc := .stopUnlock }
  | .stopUnlock => some { mem := { m with guard := none }, pc := .stopNotify }
  | .stopNotify => some { ret := some .unit, mem := { m with waiters := [] } }

/-! ## The system -/

omit [DecidableEq ι] in
/-- The constructor. -/
def Mem.init : Mem ι := { data := [], guard := none, waiters := [], stop := false }

def impl (ι : Type*) [DecidableEq ι] : Shared.Impl ι (Mem ι) Pc (Option ι) Op Ret Empty where
  start := .init
  idle := .idle
  entry := entry
  run := run

@[simp] theorem impl_idle : (impl ι).idle = .idle := rfl
@[simp] theorem impl_entry (op : Op) : (impl ι).entry op = entry op := rfl

abbrev State (ι : Type*) := Shared.State ι (Mem ι) Pc

/-- The queue shared by the threads `ι`. -/
abbrev lts (ι : Type*) [DecidableEq ι] :
    Lts (State ι) (ι × Shared.Act Op (Option ι)) (Shared.Event ι Op Ret Empty) :=
  (impl ι).lts

end NaiveResultQueue
end Lumen.Concurrency
