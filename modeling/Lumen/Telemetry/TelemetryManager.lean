import Lumen.Lib.Shared
import Lumen.Core.Task
import Lumen.Utils.LumenConfigManager
import Mathlib.Algebra.Order.Ring.Rat
import Mathlib.Algebra.BigOperators.Group.List.Basic

/-!
# `TelemetryManager`

The trace buffer under a mutex, the reporter thread that the constructor starts, and `shutdown`,
which clears `m_running` and joins it. Every access of the mutex, the condition variable and
`m_running` is one step; the reporter's `wait_for` may end by a notification, spuriously or by its
timeout. `processSnapshot` saves its traces one after the other and prints their statistics.
-/

set_option autoImplicit false

namespace Lumen.Telemetry.TelemetryManager

open Lumen.Lib Lumen.Core Lumen.Utils

/-- A `std::unique_ptr<core::InferenceTrace>`. -/
abbrev Trace := Option InferenceTrace

/-! ## The file -/

structure CsvRow where
  timestamp : Int
  requestId : Nat
  queueType : String
  allocType : String
  queueMs : Rat
  preprocessMs : Rat
  inferenceMs : Rat
  postprocessMs : Rat
  totalMs : Rat
  deriving DecidableEq

inductive CsvLine
  | header (columns : List String)
  | row (row : CsvRow)
  deriving DecidableEq

def csvHeader : CsvLine :=
  .header ["timestamp", "request_id", "queue_type", "alloc_type", "queue_ms", "preprocess_ms",
    "inference_ms", "postprocess_ms", "total_ms"]

def queueName : QueueType → String
  | .spsc => "SPSC"
  | .mpmc => "MPMC"
  | .batched => "Batched"
  | .naiveMutex => "Naive"

def allocName (a : AllocatorType) : String := if a = .lumenArena then "Arena" else "Standard"

def csvRow (config : ConfigManager) (timestamp : Int) (trace : InferenceTrace) : CsvRow where
  timestamp := timestamp
  requestId := trace.requestId
  queueType := queueName config.queueType
  allocType := allocName config.allocType
  queueMs := trace.queueWaitMs
  preprocessMs := trace.preprocessMs
  inferenceMs := trace.inferenceMs
  postprocessMs := trace.postprocessMs
  totalMs := trace.queueWaitMs + trace.preprocessMs + trace.inferenceMs + trace.postprocessMs

/-- `save_to_csv` on the file at the path, `none` where there is none. -/
def saveToCsv (config : ConfigManager) (isOpen : Bool) (timestamp : Int) (trace : InferenceTrace)
    (file : Option (List CsvLine)) : Option (List CsvLine) :=
  if isOpen then
    let lines := file.getD []
    let lines := if lines = [] then [csvHeader] else lines
    some (lines ++ [.row (csvRow config timestamp trace)])
  else file

/-! ## The statistics -/

/-- What `process_snapshot` prints. `p99` is `none` where `latencies[p99_idx]` is out of range. -/
structure Snapshot where
  count : Nat
  avgE2e : Rat
  p99 : Option Rat
  avgQueue : Rat
  avgPre : Rat
  avgInfer : Rat
  avgPost : Rat
  deriving DecidableEq

/-- The loop skips null pointers; the averages and the index are of the whole batch. -/
def snapshot (batch : List Trace) : Snapshot :=
  let count := batch.length
  let present := batch.filterMap id
  let latencies := present.map (·.totalE2eMs)
  let p99 := count * 99 / 100
  let p99 := if p99 ≥ count then count - 1 else p99
  { count := count
    avgE2e := latencies.sum / count
    p99 := (latencies.mergeSort fun a b => decide (a ≤ b))[p99]?
    avgQueue := (present.map (·.queueWaitMs)).sum / count
    avgPre := (present.map (·.preprocessMs)).sum / count
    avgInfer := (present.map (·.inferenceMs)).sum / count
    avgPost := (present.map (·.postprocessMs)).sum / count }

/-! ## The steps -/

inductive Op
  | captureTrace (trace : Trace)
  | shutdown
  | reportingLoop
  deriving DecidableEq

inductive Ret
  | captured
  | stopped
  | reported
  deriving DecidableEq

/-- What the proofs watch: a trace enters the buffer, a batch is passed to `process_snapshot`, and
its statistics are printed. -/
inductive Obs
  | captured (trace : Trace)
  | snapshot (batch : List Trace)
  | printed (snapshot : Snapshot)
  deriving DecidableEq

/-- What is left open in a step: the waiter a notification wakes, `none` where there is none; how
the reporter wakes by itself; what opening the file and reading the clock give. -/
inductive Choice (ι : Type*)
  | none
  | notify (j : Option ι)
  | wake (timedOut : Bool)
  | save (isOpen : Bool) (timestamp : Int)

/-- The fields; `guard` is the thread that holds `m_mutex`, `ended` tells that the reporter thread
has ended, `file` is the file at the telemetry path. -/
structure Mem (ι : Type*) where
  running : Bool
  guard : Option ι
  waiters : List ι
  traceBuffer : List Trace
  joinable : Bool
  ended : Bool
  file : Option (List CsvLine)

/-- The next step of a thread, with the local variables it needs. -/
inductive Pc
  | idle
  | capLock (trace : Trace)
  | capPush (trace : Trace)
  | capUnlock
  | capNotify
  | stopTest
  | stopStore
  | stopNotify
  | stopJoin
  | repTest
  | repLock
  | repPred
  | repWait
  | repRelock (timedOut : Bool)
  | repCheck
  | repBreak
  | repSwap
  | repUnlock (localBatch : List Trace)
  | repProcess (localBatch : List Trace)
  | repSave (batch rest : List Trace)
  | repPrint (batch : List Trace)
  | repReturn
  deriving DecidableEq

variable {ι : Type*}

abbrev Outcome (ι : Type*) := Shared.Outcome (Mem ι) Ret Obs Pc.idle

/-- The first step of an operation. -/
def entry : Op → Pc
  | .captureTrace trace => .capLock trace
  | .shutdown => .stopTest
  | .reportingLoop => .repTest

/-- The constructor of a lock, then `pc`. -/
def lock (i : ι) (m : Mem ι) (pc : Pc) : Option (Outcome ι) :=
  if m.guard.isNone then some { mem := { m with guard := some i }, pc := pc } else none

/-- The loop of `process_snapshot`, at the traces `rest` of `batch`. -/
def save (config : ConfigManager) (m : Mem ι) (choice : Choice ι) (batch : List Trace) :
    List Trace → Option (Outcome ι)
  | [] => some { mem := m, pc := .repPrint batch }
  | none :: rest => some { mem := m, pc := .repSave batch rest }
  | some trace :: rest =>
    if config.telemetryPath = "" then some { mem := m, pc := .repSave batch rest }
    else
      match choice with
      | .save isOpen timestamp =>
        some { mem := { m with file := saveToCsv config isOpen timestamp trace m.file },
               pc := .repSave batch rest }
      | _ => none

variable [DecidableEq ι]

/-- The next step of thread `i`. -/
def run (config : ConfigManager) (i : ι) (m : Mem ι) (choice : Choice ι) :
    Pc → Option (Outcome ι)
  | .idle => none
  | .capLock trace => lock i m (.capPush trace)
  | .capPush trace =>
    some { obs := [.captured trace], mem := { m with traceBuffer := m.traceBuffer ++ [trace] },
           pc := .capUnlock }
  | .capUnlock => some { mem := { m with guard := none }, pc := .capNotify }
  | .capNotify =>
    match choice with
    | .notify none => if m.waiters = [] then some { ret := some .captured, mem := m } else none
    | .notify (some j) =>
      if j ∈ m.waiters then
        some { ret := some .captured, mem := { m with waiters := m.waiters.erase j } }
      else none
    | _ => none
  | .stopTest =>
    if m.running then some { mem := m, pc := .stopStore }
    else some { ret := some .stopped, mem := m }
  | .stopStore => some { mem := { m with running := false }, pc := .stopNotify }
  | .stopNotify => some { mem := { m with waiters := [] }, pc := .stopJoin }
  | .stopJoin =>
    if m.joinable then
      if m.ended then some { ret := some .stopped, mem := { m with joinable := false } } else none
    else some { ret := some .stopped, mem := m }
  | .repTest => some { mem := m, pc := if m.running then .repLock else .repReturn }
  | .repLock => lock i m .repPred
  | .repPred =>
    if m.traceBuffer ≠ [] ∨ m.running = false then some { mem := m, pc := .repCheck }
    else some { mem := { m with guard := none, waiters := i :: m.waiters }, pc := .repWait }
  | .repWait =>
    if i ∉ m.waiters then some { mem := m, pc := .repRelock false }
    else
      match choice with
      | .wake timedOut =>
        some { mem := { m with waiters := m.waiters.erase i }, pc := .repRelock timedOut }
      | _ => none
  -- after its timeout `wait_for` returns whatever the predicate says
  | .repRelock timedOut => lock i m (if timedOut then .repCheck else .repPred)
  | .repCheck =>
    some { mem := m, pc := if m.running = false ∧ m.traceBuffer = [] then .repBreak else .repSwap }
  | .repBreak => some { mem := { m with guard := none }, pc := .repReturn }
  | .repSwap => some { mem := { m with traceBuffer := [] }, pc := .repUnlock m.traceBuffer }
  | .repUnlock localBatch =>
    some { mem := { m with guard := none },
           pc := if localBatch = [] then .repTest else .repProcess localBatch }
  | .repProcess localBatch =>
    some { obs := [.snapshot localBatch], mem := m, pc := .repSave localBatch localBatch }
  | .repSave batch rest => save config m choice batch rest
  | .repPrint batch => some { obs := [.printed (snapshot batch)], mem := m, pc := .repTest }
  | .repReturn => some { ret := some .reported, mem := { m with ended := true } }

/-! ## The system -/

omit [DecidableEq ι] in
/-- The constructor, with `file` at the telemetry path. -/
def Mem.init (file : Option (List CsvLine)) : Mem ι :=
  { running := true, guard := none, waiters := [], traceBuffer := [], joinable := true,
    ended := false, file := file }

def impl (ι : Type*) [DecidableEq ι] (config : ConfigManager) (file : Option (List CsvLine)) :
    Shared.Impl ι (Mem ι) Pc (Choice ι) Op Ret Obs where
  start := .init file
  idle := .idle
  entry := entry
  run := run config

abbrev State (ι : Type*) := Shared.State ι (Mem ι) Pc

abbrev Event (ι : Type*) := Shared.Event ι Op Ret Obs

abbrev Label (ι : Type*) := ι × Shared.Act Op (Choice ι)

/-- The telemetry manager used by the threads `ι`. -/
abbrev lts (ι : Type*) [DecidableEq ι] (config : ConfigManager) (file : Option (List CsvLine)) :
    Lts (State ι) (Label ι) (Event ι) :=
  (impl ι config file).lts

/-- The server thread `sv` captures, the main thread `mn` shuts down, and the constructor starts the
reporter `rp`, once. -/
def Roles (sv mn rp : ι) (h : List (Event ι)) : Label ι → Prop
  | (i, .call (.captureTrace _)) => i = sv
  | (i, .call .shutdown) => i = mn
  | (i, .call .reportingLoop) => i = rp ∧ .call rp .reportingLoop ∉ h
  | (_, .run _) => True

instance (sv mn rp : ι) (h : List (Event ι)) : ∀ l, Decidable (Roles sv mn rp h l)
  | (i, .call (.captureTrace _)) => inferInstanceAs (Decidable (i = sv))
  | (i, .call .shutdown) => inferInstanceAs (Decidable (i = mn))
  | (i, .call .reportingLoop) => inferInstanceAs (Decidable (i = rp ∧ .call rp .reportingLoop ∉ h))
  | (_, .run _) => .isTrue trivial

end Lumen.Telemetry.TelemetryManager
