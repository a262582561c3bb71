import Lumen.Models.Proof.Transform

/-!
# What the engine answers

What the engine is for: it runs a model on an image, between the two processors (`Classifier`). The
answer to a payload is a function of the payload. An engine that runs the model answers so, whatever
the input buffer held before, whatever the session has kept and whatever blocks it asks for
(`answer_of_run`): the planes of the image fill the input buffer.
-/

set_option autoImplicit false

namespace Lumen.Core.SessionRun

/-- Whatever blocks it gets, the session returns `tensor`, if it returns. -/
inductive Computes (tensor : Tensor) : SessionRun → Prop
  | output : Computes tensor (.output tensor)
  | throws : Computes tensor .throws
  | alloc {size : Nat} {next : Bool → SessionRun} :
      (∀ room, Computes tensor (next room)) → Computes tensor (.alloc size next)

theorem Computes.exec_eq {tensor output : Tensor} {call : SessionRun} {room : Nat → Bool} {k : Nat}
    {allocator allocator' : Allocator} (hcall : Computes tensor call)
    (h : call.exec room k allocator = some (output, allocator')) : output = tensor := by
  induction hcall generalizing k allocator with
  | output =>
    cases h
    rfl
  | throws => cases h
  | alloc _ ih =>
    simp only [exec] at h
    split at h
    · exact ih true h
    · exact ih false h

end Lumen.Core.SessionRun

namespace Lumen.Models

open Lumen.Lib Lumen.Core ImageNetPreProcessor

/-- A model between the two processors: `norm` is what the floating-point arithmetic makes of a
pixel. The planes of the image it is given are not fewer than the elements of its input. -/
structure Classifier where
  inputShape : List Int
  outputShape : List Int
  norm : Nat → UInt8 → FloatBits
  model : Tensor → Tensor
  handleResults : Nat → Tensor → Nat → Option (List UInt8)
  covers : ∀ width height, inputShape[3]? = some width → inputShape[2]? = some height →
    InferenceEngine.elementCount inputShape ≤ 3 * sizeT width * sizeT height

namespace Classifier

/-- The answer to a payload; `none` where there is none. -/
def answer (m : Classifier) (post : Option Nat) (data : List UInt8) : Option (List UInt8) :=
  if data.length < InferenceEngine.elementCount m.inputShape then
    some (bytes "Error: Payload size mismatch")
  else
    m.inputShape[3]?.bind fun width => m.inputShape[2]?.bind fun height => post.bind fun post =>
      m.handleResults post (m.model (planes m.norm data (sizeT width) (sizeT height)))
        (InferenceEngine.elementCount m.outputShape)

/-- The engine runs the model, behind the preprocessor of the repository. -/
structure RunBy (m : Classifier) (engine : InferenceEngine) : Prop where
  inputShape : engine.inputShape = m.inputShape
  outputShape : engine.outputShape = m.outputShape
  transform : ∀ pre data buffer width height, engine.transform pre data buffer width height =
    transformBy m.norm data buffer (sizeT width) (sizeT height)
  sessionRun : ∀ kept input, (engine.sessionRun kept input).Computes (m.model input)
  handleResults : engine.handleResults = m.handleResults

variable {m : Classifier} {engine : InferenceEngine} {env : RunEnv} {task : InferenceTask}
  {allocator allocator' : Allocator} {result : InferenceResult}

theorem length_inputBuffer (env : RunEnv) (count : Nat) :
    (env.inputBuffer count).length = count := by
  rw [RunEnv.inputBuffer, List.length_map, List.length_range]

/-- A call that returns has made the answer. -/
theorem answer_of_run (hm : m.RunBy engine)
    (h : engine.run env task allocator = .ok (result, allocator')) :
    m.answer task.post task.data = some result.response := by
  unfold InferenceEngine.run at h
  simp only [hm.inputShape, hm.outputShape] at h
  split at h <;> rename_i hguard
  · cases h
    rw [answer, if_pos hguard]
    rfl
  · simp only [InferenceEngine.require_bind] at h
    obtain ⟨_, -, width, hw, height, hh, pre, -, input, hin, _, -, _, -, _, -, ⟨out, _⟩, hout,
      post, hpost, response, hres, hr⟩ := h
    cases hr
    -- the preprocessor has overwritten the whole buffer
    have hlen := length_inputBuffer env (InferenceEngine.elementCount m.inputShape)
    rw [hm.transform] at hin
    have hplanes : input = planes m.norm task.data (sizeT width) (sizeT height) := by
      refine transformBy_planes hin ?_ ?_ ?_
      · rw [hlen]
        exact elementCount_lt _
      · rw [hlen]
        exact Nat.le_of_not_lt hguard
      · rw [hlen]
        exact m.covers width height hw hh
    have hmodel := (hm.sessionRun env.session input).exec_eq hout
    rw [hm.handleResults, hmodel, hplanes] at hres
    rw [answer, if_neg hguard, hw, hh, hpost]
    exact hres

end Classifier
end Lumen.Models
