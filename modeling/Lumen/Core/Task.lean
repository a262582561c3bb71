import Mathlib.Data.Rat.Defs

/-!
# Tasks, traces and results

The values that travel through the engine: `InferenceTask.hpp`, `InferenceTrace.hpp` and
`InferenceResult.hpp`. Times are exact (`Rat`); a shared processor is the identity of the object,
`none` for a null pointer; a `std::string` is its bytes.
-/

set_option autoImplicit false

namespace Lumen.Core

/-- The bytes of an ASCII string literal of the source. -/
def bytes (s : String) : List UInt8 := s.toList.map fun c => UInt8.ofNat c.toNat

structure InferenceTrace where
  requestId : Nat
  startTs : Rat
  queueWaitMs : Rat := 0
  preprocessMs : Rat := 0
  inferenceMs : Rat := 0
  postprocessMs : Rat := 0
  totalE2eMs : Rat := 0
  deriving DecidableEq

/-- `get_elapsed_ms` at the time `now`. -/
def InferenceTrace.getElapsedMs (t : InferenceTrace) (now : Rat) : Rat := now - t.startTs

/-- The trace of the same request: what no measurement changes. -/
def SameTrace (t t' : Option InferenceTrace) : Prop :=
  t.map (fun trace => (trace.requestId, trace.startTs)) =
    t'.map fun trace => (trace.requestId, trace.startTs)

structure InferenceTask where
  clientFd : Int
  data : List UInt8
  pre : Option Nat
  post : Option Nat
  trace : Option InferenceTrace
  deriving DecidableEq

/-- `InferenceTask()`. -/
def InferenceTask.empty : InferenceTask :=
  { clientFd := -1, data := [], pre := none, post := none, trace := none }

/-- What a move leaves behind: the defaulted move constructor copies the descriptor and empties
the vector and the pointers. -/
def InferenceTask.movedFrom (t : InferenceTask) : InferenceTask :=
  { clientFd := t.clientFd, data := [], pre := none, post := none, trace := none }

/-- There is nothing in the task that a move takes away. -/
def InferenceTask.Hollow (t : InferenceTask) : Prop :=
  t.data = [] ∧ t.pre = none ∧ t.post = none ∧ t.trace = none

theorem InferenceTask.movedFrom_eq {t : InferenceTask} : t.movedFrom = t ↔ t.Hollow := by
  obtain ⟨fd, data, pre, post, trace⟩ := t
  simp only [movedFrom, Hollow, InferenceTask.mk.injEq, true_and]
  exact and_congr eq_comm (and_congr eq_comm (and_congr eq_comm eq_comm))

structure InferenceResult where
  clientFd : Int
  response : List UInt8
  trace : Option InferenceTrace
  success : Bool := true
  errorMessage : List UInt8 := []
  deriving DecidableEq

end Lumen.Core
