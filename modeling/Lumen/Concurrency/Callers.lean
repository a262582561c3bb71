import Lumen.Concurrency.ITaskQueue

/-!
# The callers of a task queue

`push` takes its task by value, so a call `push(std::move(object))` moves the caller's object into
the parameter before the queue sees it, and what `push` does not store is destroyed with the
parameter. A thread has one object that it passes so; between its calls it may make a new one.
-/

set_option autoImplicit false

namespace Lumen.Concurrency

open Lumen.Lib Lumen.Core ITaskQueue

namespace Callers

structure State (ι μ π : Type*) where
  queue : Shared.State ι μ π
  object : ι → InferenceTask

/-- A thread makes a new object, or the queue moves: a call, or an access of a thread. -/
inductive Label (ι χ : Type*)
  | make (i : ι) (task : InferenceTask)
  | queue (l : ι × Act χ)
  deriving DecidableEq

variable {ι μ π χ ε : Type*} [DecidableEq ι] [DecidableEq π]

def step (M : Shared.Impl ι μ π χ Op Ret ε) (s : State ι μ π) :
    Label ι χ → Option (List (Event ι ε) × State ι μ π)
  | .make i task =>
    if s.queue.pc i = M.idle then some ([], { s with object := Function.update s.object i task })
    else none
  | .queue (i, .call (.push task)) =>
    -- the initialisation of the parameter
    if task = s.object i then
      (M.step s.queue (i, .call (.push task))).map fun (es, queue) =>
        (es, { queue := queue, object := Function.update s.object i task.movedFrom })
    else none
  | .queue l => (M.step s.queue l).map fun (es, queue) => (es, { s with queue := queue })

/-- A queue with its callers; at the start an object is default-constructed. -/
def lts (M : Shared.Impl ι μ π χ Op Ret ε) : Lts (State ι μ π) (Label ι χ) (Event ι ε) where
  init s := s = { queue := M.init, object := fun _ => .empty }
  step := step M

end Callers
end Lumen.Concurrency
