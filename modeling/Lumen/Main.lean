import Lumen.Network.System
import Lumen.Utils.LumenConfigManager
import Mathlib.Data.List.Nodup

/-!
# `main`

What `main` builds from a configuration: the task queue, the pool of `ThreadPool`'s constructor with
its worker threads, and the server, which the main thread runs.
-/

set_option autoImplicit false

namespace Lumen

open Lumen.Memory Lumen.Core Lumen.Concurrency Lumen.Network Lumen.Utils

/-- The main thread, and the workers that the pool starts. -/
inductive Thread
  | main
  | worker (i : Nat)
  deriving DecidableEq

/-- What `main` finds: `hardware_concurrency()`, the engine that a model file gives, the arenas of
the pods with their engines in them, the listening socket, and the two processors for ImageNet. -/
structure Host where
  hardwareConcurrency : Nat
  engine : String → InferenceEngine
  arena : Nat → LumenArena
  sockfd : Fd
  pre : Nat
  post : Nat

/-- The configuration that `main` works with: the default one, with the file loaded into it. -/
def config (outOfRange : Rat → Nat) (file : ConfigManager.File) : ConfigManager :=
  ConfigManager.loadFromFile outOfRange file {}

variable (host : Host) (config : ConfigManager)

/-- The queue that `main` selects. -/
def taskQueue : QueueKind :=
  match config.queueType with
  | .spsc => .spsc
  | .mpmc => .mpmc
  | .naiveMutex | .batched => .naive

def threadCount : Nat :=
  if config.threadCount = 0 then
    if host.hardwareConcurrency = 0 then 2 else host.hardwareConcurrency
  else config.threadCount

/-- The constructor of `ThreadPool`: one worker for each `i < thread_count`. -/
def threadPool : ThreadPool.Setup Thread where
  workers := (List.range (threadCount host config)).map .worker
  nodup := List.Nodup.map (fun _ _ h => Thread.worker.inj h) List.nodup_range
  batchSize := config.batchSize
  kind := taskQueue config
  engine _ := host.engine config.modelPath

/-- The allocator of a pod. -/
def allocator : Thread → Allocator
  | .main => .standardOrt
  | .worker i =>
    match config.allocType with
    | .lumenArena => .lumenArena (host.arena i)
    | .standard => .standardOrt

/-- The pool and the server that `main` builds, where no constructor throws. -/
def main : Network.Setup Thread where
  pool := threadPool host config
  allocator := allocator host config
  server := .main
  server_notMem := by simp [threadPool]
  sockfd := host.sockfd
  pre := if config.procType = .imagenet then some host.pre else none
  post := if config.procType = .imagenet then some host.post else none

end Lumen
