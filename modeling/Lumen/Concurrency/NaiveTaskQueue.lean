import Lumen.Concurrency.ITaskQueue

/-!
# `NaiveTaskQueue`

The deque under a mutex, with its condition variable. A thread at a lock is blocked while another
holds it. `cv.wait` tests its predicate with the lock held; if it fails the thread releases the
lock and joins the waiters in one step, and takes the lock again once it is no longer among them:
a notification removes one waiter or all, a spurious wakeup removes the thread itself.
-/

set_option autoImplicit false

namespace Lumen.Concurrency.NaiveTaskQueue

open Lumen.Lib Lumen.Core ITaskQueue

/-- The fields; `guard` is the thread that holds the mutex. -/
structure Mem (ι : Type*) where
  data : List InferenceTask
  guard : Option ι
  waiters : List ι
  stop : Bool

/-- The next step of a thread, with the local variables it needs. -/
inductive Pc
  | idle
  | pushLock (task : InferenceTask)
  | pushData (task : InferenceTask)
  | pushUnlock
  | pushNotify
  | popLock (ctx : PopCtx)
  | popTest (ctx : PopCtx)
  | popWait (ctx : PopCtx)
  | popTake (ctx : PopCtx)
  | sizeLock (empty : Bool)
  | sizeRead (empty : Bool)
  | unlock (r : Ret)
  | stopLock
  | stopSet
  | stopUnlock
  | stopNotify
  deriving DecidableEq

variable {ι : Type*}

abbrev Outcome (ι : Type*) := Shared.Outcome (Mem ι) Ret Empty Pc.idle

/-! ## The steps -/

/-- The first step of an operation. -/
def entry : Op → Pc
  | .push task => .pushLock task
  | .pop => .popLock .pop
  | .popBatch max => .popLock (.batch [] max)
  | .size => .sizeLock false
  | .empty => .sizeLock true
  | .shutdown => .stopLock

/-- The constructor of a lock, then `pc`. -/
def lock (i : ι) (m : Mem ι) (pc : Pc) : Option (Outcome ι) :=
  if m.guard.isNone then some { mem := { m with guard := some i }, pc := pc } else none

/-- After `cv.wait`: `pop` takes the front, and so does every round of the loop of `pop_batch`. -/
def take (m : Mem ι) : PopCtx → Outcome ι
  | .pop =>
    match m.data with
    | [] => { mem := m, pc := .unlock (.task none) }
    | task :: data => { mem := { m with data := data }, pc := .unlock (.task (some task)) }
  | .batch batch max =>
    match m.data with
    | [] => { mem := m, pc := .unlock (.batch batch) }
    | task :: data =>
      if batch.length < max then
        { mem := { m with data := data }, pc := .popTake (.batch (batch ++ [task]) max) }
      else { mem := m, pc := .unlock (.batch batch) }

theorem lock_some {i : ι} {m : Mem ι} {pc : Pc} {o : Outcome ι} (h : lock i m pc = some o) :
    m.guard = none ∧ o = { mem := { m with guard := some i }, pc := pc } := by
  unfold lock at h
  split at h <;> rename_i hg <;> cases h
  exact ⟨Option.isNone_iff_eq_none.1 hg, rfl⟩

variable [DecidableEq ι]

/-- The next step of thread `i`. `choice` is the waiter a `notify_one` wakes, `none` where there is
none to wake; for a waiting thread it is the thread itself when it wakes spuriously. -/
def run (i : ι) (m : Mem ι) (choice : Option ι) : Pc → Option (Outcome ι)
  | .idle => none
  | .pushLock task => lock i m (.pushData task)
  | .pushData task => some { mem := { m with data := m.data ++ [task] }, pc := .pushUnlock }
  | .pushUnlock => some { mem := { m with guard := none }, pc := .pushNotify }
  | .pushNotify =>
    match choice with
    | none => if m.waiters = [] then some { ret := some (.bool true), mem := m } else none
    | some j =>
      if j ∈ m.waiters then
        some { ret := some (.bool true), mem := { m with waiters := m.waiters.erase j } }
      else none
  | .popLock ctx => lock i m (.popTest ctx)
  | .popTest ctx =>
    if m.data ≠ [] ∨ m.stop then some { mem := m, pc := .popTake ctx }
    else some { mem := { m with guard := none, waiters := i :: m.waiters }, pc := .popWait ctx }
  | .popWait ctx =>
    if i ∉ m.waiters then some { mem := m, pc := .popLock ctx }
    else if choice = some i then
      some { mem := { m with waiters := m.waiters.erase i }, pc := .popLock ctx }
    else none
  | .popTake ctx => some (take m ctx)
  | .sizeLock empty => lock i m (.sizeRead empty)
  | .sizeRead empty =>
    let r := if empty then .bool m.data.isEmpty else .size m.data.length
    some { mem := m, pc := .unlock r }
  | .unlock r => some { ret := some r, mem := { m with guard := none } }
  | .stopLock => lock i m .stopSet
  | .stopSet => some { mem := { m with stop := true }, pc := .stopUnlock }
  | .stopUnlock => some { mem := { m with guard := none }, pc := .stopNotify }
  | .stopNotify => some { ret := some .unit, mem := { m with waiters := [] } }

/-! ## The system -/

omit [DecidableEq ι] in
/-- The constructor. -/
def Mem.init : Mem ι := { data := [], guard := none, waiters := [], stop := false }

def impl (ι : Type*) [DecidableEq ι] : Shared.Impl ι (Mem ι) Pc (Option ι) Op Ret Empty where
  start := .init
  idle := .idle
  entry := entry
  run := run

@[simp] theorem impl_idle : (impl ι).idle = .idle := rfl
@[simp] theorem impl_entry (op : Op) : (impl ι).entry op = entry op := rfl

abbrev State (ι : Type*) := Shared.State ι (Mem ι) Pc

/-- The queue shared by the threads `ι`. -/
abbrev lts (ι : Type*) [DecidableEq ι] : Lts (State ι) (ι × Act (Option ι)) (Event ι Empty) :=
  (impl ι).lts

end Lumen.Concurrency.NaiveTaskQueue
