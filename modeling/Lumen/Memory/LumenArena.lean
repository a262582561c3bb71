import Lumen.Lib.Lts
import Lumen.Lib.Word

/-!
# `LumenArena`

The bump allocator of a worker pod. Sizes, offsets and addresses are 64-bit words. `aligned_alloc`
is a parameter: the block it returns for an alignment and a size, or nothing. The OrtAllocator
interface leads to the same `alloc_raw`; both kinds of `Free` do nothing.
-/

set_option autoImplicit false

namespace Lumen.Memory

open Lumen.Lib

structure LumenArena where
  arenaPtr : Nat
  capacity : Nat
  offset : Nat
  warmupOffset : Nat := 0
  warmedUp : Bool := false
  deriving DecidableEq

namespace LumenArena

def safetyMargin : Nat := 1024 * 1024

/-- `(n + 63) & ~63`. -/
def roundUp (n : Nat) : Nat := add64 n 63 &&& not64 63

/-- The size the constructor asks for; it shadows `capacity`, which stays as it was given. -/
def slabSize (capacity : Nat) : Nat := roundUp (add64 capacity safetyMargin)

/-- The constructor; it throws where `aligned_alloc` fails. -/
def new (alignedAlloc : Nat → Nat → Option Nat) (capacity : Nat) : Option LumenArena :=
  (alignedAlloc 64 (slabSize capacity)).map fun p => { arenaPtr := p, capacity, offset := 0 }

def effectiveAlignment (alignment : Nat) : Nat := if alignment < 64 then 64 else alignment

/-- The padding before a block of this alignment. -/
def padding (a : LumenArena) (alignment : Nat) : Nat :=
  let effective := effectiveAlignment alignment
  sub64 effective (add64 a.arenaPtr a.offset % effective) % effective

/-- `alloc_raw`: the pointer, `none` for a null pointer, and the arena afterwards. -/
def allocRaw (a : LumenArena) (size alignment : Nat) : Option Nat × LumenArena :=
  let padding := a.padding alignment
  let paddedSize := roundUp size
  if add64 (add64 a.offset padding) paddedSize > a.capacity then (none, a)
  else (some (add64 (add64 a.arenaPtr a.offset) padding),
    { a with offset := add64 a.offset (add64 padding paddedSize) })

def reset (a : LumenArena) : LumenArena :=
  let a := if a.warmedUp then a else { a with warmupOffset := a.offset, warmedUp := true }
  { a with offset := a.warmupOffset }

/-! ## The arena in use -/

/-- A call. `alloc_typed<T>(count)` depends on `sizeof(T)` and `alignof(T)`. -/
inductive Op
  | alloc (size : Nat)
  | allocTyped (count sizeof alignof : Nat)
  | ortAlloc (size : Nat)
  | free (p : Nat)
  | ortFree (p : Nat)
  | reset
  deriving DecidableEq

/-- What a call shows: the region its caller may use, or the offset it went back to. -/
inductive Event
  | region (p size : Nat)
  | null
  | reset (offset : Nat)
  deriving DecidableEq

/-- The answer to a request for `size` bytes. -/
def answer (size : Nat) (r : Option Nat × LumenArena) : List Event × LumenArena :=
  match r.1 with
  | some p => ([.region p size], r.2)
  | none => ([.null], r.2)

def step (a : LumenArena) : Op → List Event × LumenArena
  | .alloc size => answer size (a.allocRaw size 64)
  | .allocTyped count sizeof alignof =>
    answer (count * sizeof) (a.allocRaw (mul64 count sizeof) alignof)
  | .ortAlloc size => answer size (a.allocRaw size 64)
  | .free _ | .ortFree _ => ([], a)
  | .reset => ([.reset a.reset.offset], a.reset)

/-- The arena from its construction on. -/
def lts (alignedAlloc : Nat → Nat → Option Nat) (capacity : Nat) : Lts LumenArena Op Event where
  init a := new alignedAlloc capacity = some a
  step a op := some (a.step op)

/-! ## Live regions -/

/-- The regions handed out before the first reset, and those handed out since the latest one. -/
structure Live where
  warm : List (Nat × Nat) := []
  cur : List (Nat × Nat) := []
  warmed : Bool := false

def Live.next (l : Live) : Event → Live
  | .region p size =>
    if l.warmed then { l with cur := l.cur ++ [(p, size)] }
    else { l with warm := l.warm ++ [(p, size)] }
  | .null => l
  | .reset _ => { l with cur := [], warmed := true }

def live (h : List Event) : Live := h.foldl Live.next {}

def Live.regions (l : Live) : List (Nat × Nat) := l.warm ++ l.cur

end LumenArena
end Lumen.Memory
