import Lumen.Main

/-!
# The construction of the pool

The main thread in the `try` block of `main`, from the constructor of `ThreadPool` on. The loop of
the constructor starts the worker of a pod before it creates the next pod; from then on the worker
runs, as in `ThreadPool`.

An exception of the constructor destroys the members that are built, the last one first, and does
not run `~ThreadPool`; to destroy a `std::thread` that is joinable ends the process. An exception
after the constructor runs `~ThreadPool`, then destroys the members.
-/

set_option autoImplicit false

namespace Lumen.Construction

open Lumen.Lib Lumen.Core Lumen.Concurrency Lumen.Utils

/-- The next step of the main thread; `workers` and `workerPods` destroy the two vectors. -/
inductive Pc
  | allocator (i : Nat)
  | engine (i : Nat)
  | start (i : Nat)
  | built
  | destructor
  | shutdown
  | workers (rest : List Thread)
  | workerPods
  | caught
  | terminated
  deriving DecidableEq

/-- The two vectors are `workerPods` and `workers`; of the latter the pool knows which are joinable.
Nothing is taken out of `workers`. -/
structure State (κ : Type*) where
  pc : Pc
  workerPods : List Nat
  workers : List Thread
  pool : ThreadPool.State Thread κ

inductive Event (κ : Type*)
  | pool (e : ThreadPool.Event Thread κ)
  | started (i : Nat)
  | threw
  | destroyed (i : Nat)
  | caught
  | terminated

/-- A step of the main thread, which may throw in it, or of a worker. -/
inductive Label (κ : Type*)
  | main (throws : Bool)
  | worker (i : Nat) (act : Shared.Act (ThreadPool.Op κ) ThreadPool.Choice)

variable {κ : Type*}

/-- The exception leaves the constructor. -/
def State.unwind (s : State κ) : State κ := { s with pc := .workers s.workers }

/-- `worker_pods.push_back`. -/
def State.pushPod (s : State κ) (i : Nat) : State κ :=
  { s with workerPods := s.workerPods ++ [i] }

/-- `workers.emplace_back`. -/
def State.startWorker (s : State κ) (i : Nat) : State κ :=
  { s with
    workers := s.workers ++ [.worker i]
    pool := ⟨{ s.pool.mem with joinable := s.pool.mem.joinable ++ [.worker i] }, s.pool.pc⟩ }

variable (host : Host) (config : ConfigManager)

/-- The head of the loop. -/
def loop (i : Nat) : Pc := if i < threadCount host config then .allocator i else .built

def State.init : State κ where
  pc := loop host config 0
  workerPods := []
  workers := []
  pool := ⟨{ ThreadPool.Mem.init (threadPool host config) (allocator host config) with
             joinable := [] }, fun _ => .idle⟩

variable [DecidableEq κ]

/-- A step of a thread in the pool. -/
def poolStep (s : State κ) (l : ThreadPool.Label Thread κ) :
    Option (List (Event κ) × ThreadPool.State Thread κ) :=
  ((ThreadPool.impl κ (threadPool host config) (allocator host config)).step s.pool l).map fun p =>
    (p.1.map .pool, p.2)

/-- The next step of the main thread. -/
def mainStep (s : State κ) (throws : Bool) : Option (List (Event κ) × State κ) :=
  match s.pc with
  | .allocator i =>
    if throws then some ([.threw], s.unwind) else some ([], { s with pc := .engine i })
  | .engine i =>
    if throws then some ([.threw], s.unwind)
    else some ([], { s.pushPod i with pc := .start i })
  | .start i =>
    if throws then some ([.threw], s.unwind)
    else some ([.started i], { s.startWorker i with pc := loop host config (i + 1) })
  -- what follows without an exception is `Network.System`
  | .built => if throws then some ([.threw], { s with pc := .destructor }) else none
  | .destructor =>
    (poolStep host config s (.main, .call .shutdown)).map fun p =>
      (p.1, { s with pc := .shutdown, pool := p.2 })
  | .shutdown =>
    (poolStep host config s (.main, .run .none)).map fun p =>
      (p.1, { s with
        pc := if p.2.pc .main = .idle then .workers s.workers else .shutdown, pool := p.2 })
  | .workers [] => some ([], { s with pc := .workerPods })
  | .workers (worker :: rest) =>
    if worker ∈ s.pool.mem.joinable then some ([.terminated], { s with pc := .terminated })
    else some ([], { s with pc := .workers rest })
  | .workerPods =>
    match s.workerPods with
    | [] => some ([.caught], { s with pc := .caught })
    | i :: pods => some ([.destroyed i], { s with workerPods := pods })
  | .caught | .terminated => none

omit [DecidableEq κ] in
/-- A started worker runs its loop, once. -/
def workerMay (s : State κ) (i : Nat) : Shared.Act (ThreadPool.Op κ) ThreadPool.Choice → Bool
  | .run _ => decide (.worker i ∈ s.workers)
  | .call .workerLoop => decide (.worker i ∈ s.workers ∧ .worker i ∉ s.pool.mem.ended)
  | .call _ => false

def step (s : State κ) : Label κ → Option (List (Event κ) × State κ)
  | .main throws => mainStep host config s throws
  | .worker i act =>
    if s.pc ≠ .terminated ∧ workerMay s i act = true then
      (poolStep host config s (.worker i, act)).map fun p => (p.1, { s with pool := p.2 })
    else none

/-- The main thread builds its pool, and the workers that it has started run. -/
def lts (κ : Type*) [DecidableEq κ] : Lts (State κ) (Label κ) (Event κ) where
  init s := s = .init host config
  step := step host config

end Lumen.Construction
