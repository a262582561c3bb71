import Lumen.Core.Task
import Lumen.Lib.Word
import Mathlib.Algebra.Order.Field.Rat

/-!
# `ImageNetProcessor`

The two processors of the repository. The loops write into a buffer of any elements, for what the
arithmetic makes of a pixel; `transform` normalises in exact arithmetic, into a buffer in which an
element that has not been written is `none`. The post-processor only compares the values of its
tensor; it prints a confidence, which is left out. An access outside a buffer has no result.
-/

set_option autoImplicit false

namespace Lumen.Models

open Lumen.Lib Lumen.Core

/-- `static_cast<size_t>` of a signed value. -/
def sizeT (i : Int) : Nat := (i % 2 ^ 64).toNat

/-- `static_cast<int>` of a 64-bit value. -/
def castInt (n : Nat) : Int := Int.bmod n (2 ^ 32)

/-! ## `ImageNetPreProcessor` -/

namespace ImageNetPreProcessor

abbrev Buffer := List (Option Rat)

def mean : List Rat := [485 / 1000, 456 / 1000, 406 / 1000]

def std : List Rat := [229 / 1000, 224 / 1000, 225 / 1000]

/-- `((val / 255.0f) - mean[c]) / std[c]`. -/
def normalise (c : Nat) (pixel : UInt8) : Rat :=
  ((pixel.toNat : Rat) / 255 - mean.getD c 0) / std.getD c 0

def srcIdx (width y x c : Nat) : Nat := add64 (mul64 (add64 (mul64 y width) x) 3) c

def dstIdx (width area y x c : Nat) : Nat := add64 (mul64 c area) (add64 (mul64 y width) x)

/-- An iteration of the innermost loop: its channel, and the two indices it accesses. -/
structure Visit where
  c : Nat
  src : Nat
  dst : Nat
  deriving DecidableEq

/-- The three loops. -/
def visits (width height : Nat) : List Visit :=
  let area := mul64 width height
  (List.range height).flatMap fun y =>
    (List.range width).flatMap fun x =>
      (List.range 3).map fun c =>
        { c, src := srcIdx width y x c, dst := dstIdx width area y x c }

section
variable {α : Type} (norm : Nat → UInt8 → α)

/-- The body of the loops; `norm` is the value of a pixel of a channel. -/
def write (pixels : List UInt8) (tensor : List α) (v : Visit) : Option (List α) :=
  match pixels[v.src]? with
  | some pixel => if v.dst < tensor.length then some (tensor.set v.dst (norm v.c pixel)) else none
  | none => none

def transformBy (pixels : List UInt8) (tensor : List α) (width height : Nat) : Option (List α) :=
  (visits width height).foldlM (write norm pixels) tensor

end

/-- `transform` in exact arithmetic. -/
def transform : List UInt8 → Buffer → Nat → Nat → Option Buffer :=
  transformBy fun c pixel => some (normalise c pixel)

/-- The call of `run`, with a fresh buffer of `input_count` elements and two of the dimensions. -/
def onInput (inputCount : Nat) (pixels : List UInt8) (width height : Int) : Option Buffer :=
  transform pixels (List.replicate inputCount none) (sizeT width) (sizeT height)

end ImageNetPreProcessor

/-! ## `ImageNetPostProcessor` -/

/-- The lines that are kept are not empty. -/
structure ImageNetPostProcessor where
  labels : List (List UInt8)
  nonempty : ∀ label ∈ labels, label ≠ []

namespace ImageNetPostProcessor

/-- The constructor: the non-empty lines of the file, none of a file that cannot be opened. -/
def new (file : Option (List UInt8)) : ImageNetPostProcessor where
  labels := ((file.getD []).splitOn 10).filter fun line => !line.isEmpty
  nonempty label h := by simpa using (List.mem_filter.1 h).2

variable {Float : Type}

/-- `std::max_element`, as an index: the first of the elements that none is greater than. -/
def maxElement (lt : Float → Float → Bool) : Nat → Nat → Float → List Float → Nat
  | _, best, _, [] => best
  | i, best, max, v :: vs =>
    if lt max v then maxElement lt (i + 1) i v vs else maxElement lt (i + 1) best max vs

/-- `labels[class_id]` for a class that has a label; a negative index has no result. -/
def labelName (labels : List (List UInt8)) (classId : Int) : Option (List UInt8) :=
  if classId < castInt labels.length then labels[sizeT classId]? else some (bytes "Unknown")

/-- `handle_results` for a pointer to `results`, `none` for a null pointer. -/
def handleResults (post : ImageNetPostProcessor) (lt : Float → Float → Bool)
    (results : Option (List Float)) (count : Nat) : Option (List UInt8) :=
  match results with
  | none => some (bytes "Error: Empty or Invalid Tensor")
  | some results =>
    if count = 0 then some (bytes "Error: Empty or Invalid Tensor")
    else if results.length < count then none
    else
      match results.take count with
      | [] => none
      | v :: vs => labelName post.labels (castInt (maxElement lt 1 0 v vs))

/-- Whatever the tensor, the response has a first byte. -/
theorem handleResults_ne_nil {post : ImageNetPostProcessor} {lt : Float → Float → Bool}
    {results : Option (List Float)} {count : Nat} {response : List UInt8}
    (h : post.handleResults lt results count = some response) : response ≠ [] := by
  unfold handleResults at h
  split at h
  · obtain rfl := Option.some.inj h
    decide
  · split at h
    · obtain rfl := Option.some.inj h
      decide
    · split at h
      · cases h
      · split at h
        · cases h
        · unfold labelName at h
          split at h
          · exact post.nonempty response (List.mem_of_getElem? h)
          · obtain rfl := Option.some.inj h
            decide

end ImageNetPostProcessor
end Lumen.Models
