import Lumen.Core.Task
import Lumen.Memory.LumenArena
import Mathlib.Algebra.Order.Ring.Rat

/-!
# `InferenceEngine::run`

What a worker does with one task: the payload guard, the two buffers from the pod's allocator, the
three timed phases, and the result. The two buffers are memory that has been used before: the input
buffer holds whatever is there until the preprocessor writes into it. The session takes further
blocks from the same allocator, which is the one registered with its environment. The session, the
tensors and the two processors are parameters (`InferenceEngine`), and so is what a call meets
(`RunEnv`); `Failure` says at which point a call does not return a result.
-/

set_option autoImplicit false

namespace Lumen.Core

open Lumen.Lib Lumen.Memory

/-- The allocator of a pod. -/
inductive Allocator
  | standardOrt
  | lumenArena (arena : LumenArena)

namespace Allocator

/-- `Alloc` and `OrtAlloc`; `none` where there is no block. An arena that is exhausted returns a
null pointer; the default allocator of onnxruntime throws where there is no `room`. -/
def alloc (room : Bool) (size : Nat) : Allocator → Option Allocator
  | .standardOrt => if room then some .standardOrt else none
  | .lumenArena arena =>
    match arena.allocRaw size 64 with
    | (some _, arena) => some (.lumenArena arena)
    | (none, _) => none

/-- `reset`, where the allocator is an arena. -/
def reset : Allocator → Allocator
  | .standardOrt => .standardOrt
  | .lumenArena arena => .lumenArena arena.reset

end Allocator

/-- The bits of a `float`. -/
abbrev FloatBits := UInt32

abbrev Tensor := List FloatBits

/-- What `session->Run` does: it returns a tensor, throws, or asks the allocator for a block and
goes on with it, or without it. -/
inductive SessionRun
  | output (tensor : Tensor)
  | throws
  | alloc (size : Nat) (next : Bool → SessionRun)

/-- The call, whose first block is the `k`-th that is asked for. -/
def SessionRun.exec (room : Nat → Bool) : Nat → SessionRun → Allocator → Option (Tensor × Allocator)
  | _, .output tensor, allocator => some (tensor, allocator)
  | _, .throws, _ => none
  | k, .alloc size next, allocator =>
    match allocator.alloc (room k) size with
    | some allocator' => (next true).exec room (k + 1) allocator'
    | none => (next false).exec room (k + 1) allocator

/-- The engine of a pod: the shapes of the first input and output as `run` reads them, and what it
calls; `none` where that throws. A preprocessor gets the payload, the input buffer and two of the
dimensions, and `sessionRun` also what the session has kept from earlier calls. -/
structure InferenceEngine where
  inputShape : List Int
  outputShape : List Int
  transform : Nat → List UInt8 → Tensor → Int → Int → Option Tensor
  createTensor : Nat → List Int → Bool
  sessionRun : Nat → Tensor → SessionRun
  handleResults : Nat → Tensor → Nat → Option (List UInt8)

/-- Where a call of `run` fails: no block for a buffer, which the processors and onnxruntime are
then to access through a null pointer; a shape that is too short; a null processor; or an
exception. -/
inductive Failure
  | nullInput
  | shape
  | nullPre
  | transform
  | createInput
  | nullOutput
  | createOutput
  | sessionRun
  | nullPost
  | handleResults
  deriving DecidableEq

/-- What the three timers measure. -/
structure Times where
  preprocessMs : Rat
  inferenceMs : Rat
  postprocessMs : Rat

/-- What a call of `run` meets: whether there is memory for the `k`-th block that is asked for, what
the memory of the input buffer holds, what the session has kept, and what the timers measure. -/
structure RunEnv where
  room : Nat → Bool := fun _ => true
  stale : Nat → FloatBits := fun _ => 0
  session : Nat := 0
  times : Times := ⟨0, 0, 0⟩

/-- The input buffer as `Alloc` returns it. -/
def RunEnv.inputBuffer (env : RunEnv) (count : Nat) : Tensor := (List.range count).map env.stale

namespace InferenceEngine

def sizeofFloat : Nat := 4

/-- `input_count` and `output_count`. -/
def elementCount (shape : List Int) : Nat :=
  shape.foldl (fun count dim => if dim > 0 then mul64 count dim.toNat else count) 1

/-- `Error: Payload size mismatch`, and the other fields of the result as `run` sets them. -/
def payloadMismatch (task : InferenceTask) : InferenceResult :=
  { clientFd := task.clientFd, response := bytes "Error: Payload size mismatch",
    trace := task.trace }

/-- `require o f`: the value, or the failure `f`. -/
def require {α : Type} (o : Option α) (f : Failure) : Except Failure α :=
  match o with
  | some a => .ok a
  | none => .error f

def run (engine : InferenceEngine) (env : RunEnv) (task : InferenceTask) (allocator : Allocator) :
    Except Failure (InferenceResult × Allocator) :=
  let inputCount := elementCount engine.inputShape
  if task.data.length < inputCount then .ok (payloadMismatch task, allocator)
  else do
    let allocator ← require (allocator.alloc (env.room 0) (mul64 inputCount sizeofFloat)) .nullInput
    let width ← require engine.inputShape[3]? .shape
    let height ← require engine.inputShape[2]? .shape
    let pre ← require task.pre .nullPre
    let input ←
      require (engine.transform pre task.data (env.inputBuffer inputCount) width height) .transform
    let _ ← require (if engine.createTensor inputCount engine.inputShape then some () else none)
      .createInput
    let outputCount := elementCount engine.outputShape
    let allocator ←
      require (allocator.alloc (env.room 1) (mul64 outputCount sizeofFloat)) .nullOutput
    let _ ← require (if engine.createTensor outputCount engine.outputShape then some () else none)
      .createOutput
    let (output, allocator) ←
      require ((engine.sessionRun env.session input).exec env.room 2 allocator) .sessionRun
    let post ← require task.post .nullPost
    let response ← require (engine.handleResults post output outputCount) .handleResults
    let trace := task.trace.map fun trace =>
      { trace with preprocessMs := env.times.preprocessMs, inferenceMs := env.times.inferenceMs,
                   postprocessMs := env.times.postprocessMs }
    return ({ clientFd := task.clientFd, response := response, trace := trace }, allocator)

variable {engine : InferenceEngine} {env : RunEnv} {task : InferenceTask}
  {allocator allocator' : Allocator} {result : InferenceResult}

theorem require_bind {α β : Type} {o : Option α} {f : Failure} {k : α → Except Failure β} {b : β} :
    (require o f >>= k) = .ok b ↔ ∃ a, o = some a ∧ k a = .ok b := by
  cases o with
  | none => exact ⟨fun h => (by cases h), fun ⟨_, h, _⟩ => (by cases h)⟩
  | some a => exact ⟨fun h => ⟨a, rfl, h⟩, fun ⟨_, h, hk⟩ => (by cases h; exact hk)⟩

/-- A call that returns has refused the payload, or passes on the response of the post-processor,
with the trace of the task and its three times. -/
theorem run_ok (h : engine.run env task allocator = .ok (result, allocator')) :
    result = payloadMismatch task ∨ ∃ post output count response,
      engine.handleResults post output count = some response ∧
      result = { clientFd := task.clientFd, response := response,
                 trace := task.trace.map fun trace =>
                   { trace with preprocessMs := env.times.preprocessMs,
                                inferenceMs := env.times.inferenceMs,
                                postprocessMs := env.times.postprocessMs } } := by
  unfold run at h
  simp only at h
  split at h
  · cases h
    exact .inl rfl
  · simp only [require_bind] at h
    obtain ⟨_, -, _, -, _, -, _, -, _, -, _, -, _, -, _, -, ⟨output, _⟩, -, post, -, response,
      hpost, hr⟩ := h
    cases hr
    exact .inr ⟨post, output, _, response, hpost, rfl⟩

end InferenceEngine
end Lumen.Core
