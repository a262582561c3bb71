import Lumen.Lib.Refinement
import Lumen.Concurrency.ITaskQueue
import Lumen.Concurrency.TaskQueue

/-!
# The task queue as an object

`TaskQueue` used by threads that call the operations of `ITaskQueue`, at most one change of it in a
step. A push looks at the stop flag before it looks at the slots, and a queue may be closed in
between; the naive queue does not look at the flag. A pop takes the front and gives its slot back in
a further step. A return is a step of its own, since the implementations return later than they take
effect. What `size` and `empty` answer is left open, and so is whether a pop of the MPMC queue takes
a task or gives up.
-/

set_option autoImplicit false

namespace Lumen.Concurrency

open Lumen.Lib Lumen.Core

namespace ITaskQueue.PopCtx

/-- The tasks taken so far. -/
def taken : PopCtx → List InferenceTask
  | .pop => []
  | .batch taken _ => taken

/-- How many tasks are asked for. -/
def max : PopCtx → Nat
  | .pop => 1
  | .batch _ max => max

end ITaskQueue.PopCtx

theorem TaskQueue.take_cons {κ : Type*} {q : TaskQueue κ} {job : Job κ} {rest : List (Job κ)}
    (h : q.tasks = job :: rest) : q.take = some (q.accepted - q.tasks.length, job,
      { q with tasks := rest, unreleased := (q.accepted - q.tasks.length) :: q.unreleased }) := by
  unfold take
  split <;> rename_i h' <;> rw [h'] at h <;> cases h
  rw [h']

namespace AtomicTaskQueue

open ITaskQueue

/-- The next step of a thread. -/
inductive Pc
  | idle
  | pushTest (task : InferenceTask)
  | push (task : InferenceTask)
  | pop (ctx : PopCtx)
  | release (ctx : PopCtx) (ticket : Nat) (task : InferenceTask)
  | size (empty : Bool)
  | shutdown
  | answer (r : Ret)
  deriving DecidableEq

/-- What is left open in a step: whether a pop takes a task or gives up, and what `size` answers. -/
inductive Choice
  | none
  | take
  | size (n : Nat)
  deriving DecidableEq

abbrev Outcome := Shared.Outcome (TaskQueue Unit) Ret Empty Pc.idle

/-! ## The steps -/

/-- The first step of an operation. -/
def entry : Op → Pc
  | .push task => .pushTest task
  | .pop => .pop .pop
  | .popBatch max => .pop (.batch [] max)
  | .size => .size false
  | .empty => .size true
  | .shutdown => .shutdown

/-- Where a pop goes on with `task`. -/
def popSome (task : InferenceTask) : PopCtx → Pc
  | .pop => .answer (.task (some task))
  | .batch taken max => .pop (.batch (taken ++ [task]) max)

/-- The next step of a thread. -/
def run (kind : QueueKind) (q : TaskQueue Unit) (choice : Choice) : Pc → Option Outcome
  | .idle => none
  | .pushTest task =>
    some { mem := q, pc := if q.closed kind then .answer (.bool false) else .push task }
  | .push task =>
    if q.full kind then some { mem := q, pc := .answer (.bool false) }
    else some { mem := { q with tasks := q.tasks ++ [.plain task], accepted := q.accepted + 1 },
                pc := .answer (.bool true) }
  | .pop ctx =>
    match choice with
    | .take =>
      if ctx.taken.length < ctx.max then
        q.take.map fun (ticket, job, q) => { mem := q, pc := .release ctx ticket job.task }
      else none
    | .none =>
      if q.mayEnd kind ctx.taken.length ctx.max then some { mem := q, pc := .answer ctx.none }
      else none
    | .size _ => none
  | .release ctx ticket task => some { mem := q.release ticket, pc := popSome task ctx }
  | .size empty =>
    match choice with
    | .size n => some { mem := q, pc := .answer (if empty then .bool (n == 0) else .size n) }
    | _ => none
  | .shutdown => some { mem := q.shutdown, pc := .answer .unit }
  | .answer r => some { ret := some r, mem := q }

/-! ## The system -/

def impl (ι : Type*) (kind : QueueKind) :
    Shared.Impl ι (TaskQueue Unit) Pc Choice Op Ret Empty where
  start := .empty
  idle := .idle
  entry := entry
  run _ := run kind

abbrev State (ι : Type*) := Shared.State ι (TaskQueue Unit) Pc

/-- The queue shared by the threads `ι`. -/
abbrev lts (ι : Type*) [DecidableEq ι] (kind : QueueKind) :
    Lts (State ι) (ι × Act Choice) (Event ι Empty) :=
  (impl ι kind).lts

@[simp] theorem impl_idle {ι : Type*} {kind : QueueKind} : (impl ι kind).idle = .idle := rfl
@[simp] theorem impl_entry {ι : Type*} {kind : QueueKind} (op : Op) :
    (impl ι kind).entry op = entry op := rfl

/-- A thread returns its answer. -/
theorem run_ret {kind : QueueKind} {q : TaskQueue Unit} {c : Choice} {p : Pc} {o : Outcome}
    {r : Ret} (ho : run kind q c p = some o) (hr : o.ret = some r) :
    p = .answer r ∧ o = { ret := some r, mem := q } := by
  cases p <;> simp only [run] at ho
  case answer =>
    cases ho
    cases hr
    exact ⟨rfl, rfl⟩
  case pop ctx =>
    split at ho
    · split at ho
      · obtain ⟨x, -, rfl⟩ := Option.map_eq_some_iff.1 ho
        cases hr
      · cases ho
    · split at ho <;> cases ho
      cases hr
    · cases ho
  all_goals
    (repeat' split at ho) <;> cases ho <;> cases hr

theorem returns (ι : Type*) (kind : QueueKind) : (impl ι kind).Returns := by
  intro i q c p o r ho hr
  obtain ⟨-, rfl⟩ := run_ret ho hr
  rfl

/-! ## Moves -/

section
variable {ι : Type*} {kind : QueueKind} {i : ι} {q : TaskQueue Unit} {r : Ret}

theorem moves_one {c : Choice} {p : Pc} {o : Outcome} (ho : run kind q c p = some o) :
    (impl ι kind).Moves i q p o.obs o.ret o.mem o.pc :=
  .one (A := impl ι kind) ho

/-- A step, and the return. -/
theorem moves_answer {c : Choice} {p : Pc} {q' : TaskQueue Unit}
    (ho : run kind q c p = some { mem := q', pc := .answer r }) :
    (impl ι kind).Moves i q p [] (some r) q' .idle :=
  .next (A := impl ι kind) ho rfl
    (.ret (A := impl ι kind) (c := Choice.none) (o := { ret := some r, mem := q' }) rfl rfl)

theorem moves_return : (impl ι kind).Moves i q (.answer r) [] (some r) q .idle :=
  moves_one (c := Choice.none) (o := { ret := some r, mem := q }) rfl

theorem moves_closed {task : InferenceTask} (h : q.closed kind = true) :
    (impl ι kind).Moves i q (.pushTest task) [] (some (.bool false)) q .idle :=
  moves_answer (c := Choice.none) (by simp [run, h])

theorem moves_open {task : InferenceTask} (h : q.closed kind = false) :
    (impl ι kind).Moves i q (.pushTest task) [] none q (.push task) :=
  moves_one (c := Choice.none) (o := { mem := q, pc := .push task }) (by simp [run, h])

theorem moves_full {task : InferenceTask} (h : q.full kind = true) :
    (impl ι kind).Moves i q (.push task) [] (some (.bool false)) q .idle :=
  moves_answer (c := Choice.none) (by simp [run, h])

theorem moves_push {task : InferenceTask} (h : q.full kind = false) :
    (impl ι kind).Moves i q (.push task) [] none
      { q with tasks := q.tasks ++ [.plain task], accepted := q.accepted + 1 }
      (.answer (.bool true)) :=
  moves_one (c := Choice.none)
    (o := { mem := { q with tasks := q.tasks ++ [.plain task], accepted := q.accepted + 1 },
            pc := .answer (.bool true) }) (by simp [run, h])

theorem moves_take {ctx : PopCtx} {ticket : Nat} {job : Job Unit} {q' : TaskQueue Unit}
    (hlt : ctx.taken.length < ctx.max) (h : q.take = some (ticket, job, q')) :
    (impl ι kind).Moves i q (.pop ctx) [] none q' (.release ctx ticket job.task) :=
  moves_one (c := Choice.take) (o := { mem := q', pc := .release ctx ticket job.task })
    (by simp [run, h, hlt])

theorem moves_give_up {ctx : PopCtx} (h : q.mayEnd kind ctx.taken.length ctx.max = true) :
    (impl ι kind).Moves i q (.pop ctx) [] none q (.answer ctx.none) :=
  moves_one (c := Choice.none) (o := { mem := q, pc := .answer ctx.none }) (by simp [run, h])

theorem moves_end {ctx : PopCtx} (h : q.mayEnd kind ctx.taken.length ctx.max = true) :
    (impl ι kind).Moves i q (.pop ctx) [] (some ctx.none) q .idle :=
  (moves_give_up h).trans moves_return

theorem moves_release {ctx : PopCtx} {ticket : Nat} {task : InferenceTask} :
    (impl ι kind).Moves i q (.release ctx ticket task) [] none (q.release ticket)
      (popSome task ctx) :=
  moves_one (c := Choice.none) (o := { mem := q.release ticket, pc := popSome task ctx }) rfl

/-- A task is taken, and its slot given back. -/
theorem moves_front {ctx : PopCtx} {ticket : Nat} {job : Job Unit} {q' : TaskQueue Unit}
    (hlt : ctx.taken.length < ctx.max) (h : q.take = some (ticket, job, q')) :
    (impl ι kind).Moves i q (.pop ctx) [] none (q'.release ticket) (popSome job.task ctx) :=
  (moves_take hlt h).trans moves_release

/-- The slot is given back, and the operation returns its task. -/
theorem moves_popped {ticket : Nat} {task : InferenceTask} :
    (impl ι kind).Moves i q (.release .pop ticket task) [] (some (.task (some task)))
      (q.release ticket) .idle :=
  moves_answer (c := Choice.none) rfl

theorem moves_measure {empty : Bool} (n : Nat) : (impl ι kind).Moves i q (.size empty) [] none q
    (.answer (if empty then .bool (n == 0) else .size n)) :=
  moves_one (c := Choice.size n)
    (o := { mem := q, pc := .answer (if empty then .bool (n == 0) else .size n) }) rfl

theorem moves_size {empty : Bool} (n : Nat) : (impl ι kind).Moves i q (.size empty) []
    (some (if empty then .bool (n == 0) else .size n)) q .idle :=
  (moves_measure n).trans moves_return

theorem moves_stop : (impl ι kind).Moves i q .shutdown [] none q.shutdown (.answer .unit) :=
  moves_one (c := Choice.none) (o := { mem := q.shutdown, pc := .answer .unit }) rfl

theorem moves_shutdown : (impl ι kind).Moves i q .shutdown [] (some .unit) q.shutdown .idle :=
  moves_stop.trans moves_return

end
end AtomicTaskQueue
end Lumen.Concurrency
