import Lumen.Lib.Action
import Lumen.Utils.Json

/-!
# The configuration

The members of `ConfigManager` with their initial values, and `load_from_file`, which writes them
one after the other: what was written before an exception stays.
-/

set_option autoImplicit false

namespace Lumen.Utils

open Lumen.Lib

inductive QueueType
  | naiveMutex
  | batched
  | spsc
  | mpmc
  deriving DecidableEq

inductive AllocatorType
  | standard
  | lumenArena
  deriving DecidableEq

inductive ProcessorType
  | imagenet
  | rawTensor
  | objectDetection
  deriving DecidableEq

structure ConfigManager where
  queueType : QueueType := .naiveMutex
  allocType : AllocatorType := .standard
  procType : ProcessorType := .imagenet
  telemetryPath : String := "../results/lumen_baseline.csv"
  modelPath : String := "../models/squeezenet1.1-7.onnx"
  metadata : Json := .object [("label_path", .string "../models/labels.txt")]
  threadCount : Nat := 0
  batchSize : Nat := 1

namespace ConfigManager

/-- The body of the `try` block, or a part of it. -/
abbrev Load := Action ConfigManager JsonError Unit

/-- `if (j.contains(key))`, with the value of the key. -/
def ifContains (j : Json) (key : String) (body : Json → Load) : Load :=
  match j.find key with
  | some value => body value
  | none => pure ()

/-- The cascade over `q_type`. -/
def setQueueType (qType : String) (config : ConfigManager) : ConfigManager :=
  if qType = "spsc" then { config with queueType := .spsc, threadCount := 1 }
  else if qType = "mpmc" then { config with queueType := .mpmc }
  else if config.batchSize > 1 then { config with queueType := .batched }
  else { config with queueType := .naiveMutex }

def setAllocType (aType : String) (config : ConfigManager) : ConfigManager :=
  { config with allocType := if aType = "lumen_arena" then .lumenArena else .standard }

def setProcType (pType : String) (config : ConfigManager) : ConfigManager :=
  { config with procType :=
      if pType = "raw" then .rawTensor
      else if pType = "detection" then .objectDetection
      else .imagenet }

/-- `m_thread_count = eng["thread_count"]`. -/
def loadThreadCount (outOfRange : Rat → Nat) (value : Json) : Load := do
  let threadCount ← value.getSize outOfRange
  modify fun config => { config with threadCount := threadCount }

/-- `m_batch_size = eng["batch_size"]`. -/
def loadBatchSize (outOfRange : Rat → Nat) (value : Json) : Load := do
  let batchSize ← value.getSize outOfRange
  modify fun config => { config with batchSize := batchSize }

def loadEngine (outOfRange : Rat → Nat) (eng : Json) : Load := do
  ifContains eng "thread_count" (loadThreadCount outOfRange)
  ifContains eng "batch_size" (loadBatchSize outOfRange)
  let qType ← eng.value "queue_type" "naive_mutex"
  modify (setQueueType qType)
  let aType ← eng.value "allocator_type" "standard"
  modify (setAllocType aType)
  let path ← eng.value "telemetry_csv_path" "lumen_baseline.csv"
  modify fun config => { config with telemetryPath := path }

def loadModel (mod : Json) : Load := do
  let path ← mod.value "path" ""
  modify fun config => { config with modelPath := path }
  let pType ← mod.value "processor_type" "imagenet"
  modify (setProcType pType)
  ifContains mod "metadata" fun value =>
    modify fun config => { config with metadata := value }

/-- The `try` block, after the document `j` has been read. -/
def load (outOfRange : Rat → Nat) (j : Json) : Load := do
  ifContains j "engine" (loadEngine outOfRange)
  ifContains j "model" loadModel

/-- What the path leads to. -/
inductive File
  | absent
  | unparsable
  | document (j : Json)

/-- `load_from_file`: `catch` keeps what has been written. -/
def loadFromFile (outOfRange : Rat → Nat) (file : File) (config : ConfigManager) : ConfigManager :=
  match file with
  | .absent | .unparsable => config
  | .document j => ((load outOfRange j).exec config).2

end ConfigManager
end Lumen.Utils
