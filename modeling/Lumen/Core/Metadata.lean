import Lumen.Core.InferenceEngine
import Lumen.Lib.Action
import Lumen.Lib.ByteMem

/-!
# The metadata of the model

The names and the dimensions of the inputs and outputs, which the constructor of `InferenceEngine`
collects on the heap and `migrate_metadata_to_arena` copies into the arena of the pod, and what
`run` uses of them. A pod is its arena, the memory, and its engine; a request writes to the memory
that `Alloc` or `OrtAlloc` has returned to it.
-/

set_option autoImplicit false

namespace Lumen.Core

open Lumen.Lib Lumen.Memory

/-- An input or an output, by its index in the vectors of the engine: its name, which comes from a
C string, and its dimensions. -/
structure Node where
  name : List UInt8
  dims : List Int64
  zero_notMem : 0 ∉ name

/-- What the session tells of a model. -/
structure Model where
  inputs : List Node
  outputs : List Node
  inputs_ne : inputs ≠ []
  outputs_ne : outputs ≠ []

/-- `if (dims.size() > 0 && dims[0] <= 0) dims[0] = 1`, of the outputs. -/
def Node.fixBatch (node : Node) : Node :=
  match node.dims with
  | [] => node
  | dim :: dims => { node with dims := (if dim ≤ 0 then 1 else dim) :: dims }

theorem Node.name_fixBatch (node : Node) : node.fixBatch.name = node.name := by
  unfold Node.fixBatch
  split <;> rfl

theorem Node.length_fixBatch (node : Node) : node.fixBatch.dims.length = node.dims.length := by
  unfold Node.fixBatch
  split
  · rfl
  · rename_i dim dims hdims
    rw [hdims, List.length_cons, List.length_cons]

/-- `if (dims[0] <= 0) dims[0] = 1`, of the inputs: the vector is not tested, and without dimensions
the constructor reads through its null pointer. -/
def Node.fixInput (node : Node) : Option Node :=
  if node.dims = [] then none else some node.fixBatch

/-- The members of `InferenceEngine` that hold metadata. `inputs` are `input_names` and
`input_node_dims`, `outputs` likewise; a pointer is an address. -/
structure Engine where
  inputs : List Node
  outputs : List Node
  arenaInputNodeNames : Nat := 0
  arenaOutputNodeNames : Nat := 0
  arenaInputNodeDims : Nat := 0
  arenaOutputNodeDims : Nat := 0
  arenaInputDimCounts : Nat := 0
  arenaOutputDimCounts : Nat := 0
  numInputs : Nat := 0
  numOutputs : Nat := 0
  metadataMigrated : Bool := false

/-- The constructor, up to the migration; `none` where it ends the process. -/
def Engine.new (model : Model) : Option Engine := do
  let inputs ← model.inputs.mapM Node.fixInput
  return { inputs, outputs := model.outputs.map Node.fixBatch }

/-! ## The migration -/

structure Slab where
  arena : LumenArena
  mem : ByteMem

/-- A write through a null pointer. -/
inductive NullPointer
  | nullPointer

abbrev Migrate (α : Type) := Action Slab NullPointer α

/-- `arena->alloc_typed`; its result is written through. -/
def allocTyped (count sizeof alignof : Nat) : Migrate Nat := fun slab =>
  match slab.arena.allocRaw (mul64 count sizeof) alignof with
  | (some p, arena) => (.ok p, { slab with arena := arena })
  | (none, _) => (.error .nullPointer, slab)

def memcpy (p : Nat) (bytes : List UInt8) : Migrate Unit :=
  modify fun slab => { slab with mem := slab.mem.store p bytes }

/-- An assignment to an element of an array of pointers or of `size_t`. -/
def assign (p v : Nat) : Migrate Unit :=
  modify fun slab => { slab with mem := slab.mem.storeWord p v }

/-- An `int64_t` as a word. -/
def dimWord (dim : Int64) : Nat := dim.toUInt64.toNat

def wordDim (v : Nat) : Int64 := (UInt64.ofNat v).toInt64

/-- The three top-level arrays for the inputs, or for the outputs. -/
structure Tables where
  names : Nat
  dims : Nat
  counts : Nat

/-- The body of the copy loops. -/
def migrateNode (t : Tables) (i : Nat) (node : Node) : Migrate Unit := do
  let nameArena ← allocTyped (node.name.length + 1) 1 1
  memcpy nameArena (node.name ++ [0])
  assign (t.names + 8 * i) nameArena
  let dimsArena ← allocTyped node.dims.length 8 8
  memcpy dimsArena ((node.dims.map dimWord).flatMap (wordBytes 8))
  assign (t.dims + 8 * i) dimsArena
  assign (t.counts + 8 * i) node.dims.length

/-- A copy loop, from the index `i` on. -/
def migrateNodes (t : Tables) : Nat → List Node → Migrate Unit
  | _, [] => pure ()
  | i, node :: nodes => do
    migrateNode t i node
    migrateNodes t (i + 1) nodes

/-- `migrate_metadata_to_arena`. -/
def migrateMetadataToArena (engine : Engine) : Migrate Engine := do
  let numInputs := engine.inputs.length
  let numOutputs := engine.outputs.length
  let inputNodeNames ← allocTyped numInputs 8 8
  let outputNodeNames ← allocTyped numOutputs 8 8
  let inputNodeDims ← allocTyped numInputs 8 8
  let outputNodeDims ← allocTyped numOutputs 8 8
  let inputDimCounts ← allocTyped numInputs 8 8
  let outputDimCounts ← allocTyped numOutputs 8 8
  migrateNodes ⟨inputNodeNames, inputNodeDims, inputDimCounts⟩ 0 engine.inputs
  migrateNodes ⟨outputNodeNames, outputNodeDims, outputDimCounts⟩ 0 engine.outputs
  return { inputs := [], outputs := [], arenaInputNodeNames := inputNodeNames,
           arenaOutputNodeNames := outputNodeNames, arenaInputNodeDims := inputNodeDims,
           arenaOutputNodeDims := outputNodeDims, arenaInputDimCounts := inputDimCounts,
           arenaOutputDimCounts := outputDimCounts, numInputs := numInputs,
           numOutputs := numOutputs, metadataMigrated := true }

/-! ## What `run` uses -/

/-- The shapes of the first input and output, their names as they are passed to the session, and
`input_count` and `output_count`. -/
structure View where
  inputShape : List Int64
  outputShape : List Int64
  inputName : List UInt8
  outputName : List UInt8
  inputCount : Nat
  outputCount : Nat
  deriving DecidableEq

def View.of (inputShape outputShape : List Int64) (inputName outputName : List UInt8) : View :=
  { inputShape, outputShape, inputName, outputName,
    inputCount := InferenceEngine.elementCount (inputShape.map Int64.toInt),
    outputCount := InferenceEngine.elementCount (outputShape.map Int64.toInt) }

/-- The name at the index `i`; no string is longer than the address space. -/
def Tables.name (t : Tables) (mem : ByteMem) (i : Nat) : List UInt8 :=
  mem.loadString (mem.loadWord (t.names + 8 * i)) (2 ^ 64)

/-- The dimensions at the index `i`. -/
def Tables.shape (t : Tables) (mem : ByteMem) (i : Nat) : List Int64 :=
  (mem.loadWords (mem.loadWord (t.dims + 8 * i)) (mem.loadWord (t.counts + 8 * i))).map wordDim

namespace Engine

def inputTables (engine : Engine) : Tables :=
  ⟨engine.arenaInputNodeNames, engine.arenaInputNodeDims, engine.arenaInputDimCounts⟩

def outputTables (engine : Engine) : Tables :=
  ⟨engine.arenaOutputNodeNames, engine.arenaOutputNodeDims, engine.arenaOutputDimCounts⟩

/-- The beginning of `run`, and the names that it passes to the session. -/
def view (engine : Engine) (mem : ByteMem) : Option View :=
  if engine.metadataMigrated then
    some (.of (engine.inputTables.shape mem 0) (engine.outputTables.shape mem 0)
      (engine.inputTables.name mem 0) (engine.outputTables.name mem 0))
  else
    match engine.inputs, engine.outputs with
    | input :: _, output :: _ => some (.of input.dims output.dims input.name output.name)
    | _, _ => none

end Engine

/-! ## The pod -/

/-- `owned` are the regions that `Alloc` and `OrtAlloc` have returned since the latest reset, and
before the first one. -/
structure Pod where
  slab : Slab
  engine : Engine
  owned : LumenArena.Live := {}

namespace Pod

/-- A call of the arena, a write of a byte, or the migration. -/
inductive Label
  | call (op : LumenArena.Op)
  | write (p : Nat) (byte : UInt8)
  | migrate

/-- Who uses the arena: onnxruntime from the construction of the session on, and the worker, which
starts after the engine has been built. -/
def mayCall (pod : Pod) : LumenArena.Op → Bool
  | .alloc _ | .ortAlloc _ | .free _ | .ortFree _ => true
  | .allocTyped _ _ _ => false
  | .reset => pod.engine.metadataMigrated

/-- The address lies in a region that the request owns. -/
def Owns (pod : Pod) (p : Nat) : Prop := ∃ r ∈ pod.owned.regions, r.1 ≤ p ∧ p < r.1 + r.2

instance (pod : Pod) (p : Nat) : Decidable (pod.Owns p) :=
  inferInstanceAs (Decidable (∃ r ∈ pod.owned.regions, r.1 ≤ p ∧ p < r.1 + r.2))

def step (pod : Pod) : Label → Option (List LumenArena.Event × Pod)
  | .call op =>
    if pod.mayCall op then
      let (es, arena) := pod.slab.arena.step op
      some (es, { pod with slab := { pod.slab with arena := arena },
                           owned := es.foldl LumenArena.Live.next pod.owned })
    else none
  | .write p byte =>
    if pod.Owns p then
      some ([], { pod with slab := { pod.slab with mem := pod.slab.mem.store p [byte] } })
    else none
  | .migrate =>
    if pod.engine.metadataMigrated then none
    else
      match (migrateMetadataToArena pod.engine).exec pod.slab with
      | (.ok engine, slab) => some ([], { pod with slab := slab, engine := engine })
      | (.error _, _) => none

/-- A pod from the construction of its arena and its engine on, for a model. -/
def lts (alignedAlloc : Nat → Nat → Option Nat) (capacity : Nat) (model : Model) :
    Lts Pod Label LumenArena.Event where
  init pod := ∃ arena mem engine, LumenArena.new alignedAlloc capacity = some arena ∧
    Engine.new model = some engine ∧ pod = { slab := ⟨arena, mem⟩, engine := engine }
  step := step

end Pod
end Lumen.Core
