import Lumen.Concurrency.PoolSystem
import Lumen.Network.System

/-!
# The server on the queues

The server with `ThreadPool.system`: its thread and the workers run the code of the task queue that
is selected and of the result queue, and each access of it is a step of its own. So
`finalize_request` is inside `push` for several steps, and `handle_responses` inside
`pop_immediate`. The rest of the server is `Network.serve` on a state whose field `pool` is not
used.
-/

set_option autoImplicit false

namespace Lumen.Network

open Lumen.Lib Lumen.Core Lumen.Concurrency

/-- What a run shows of a connection to those outside the process; here a response is without its
job. -/
inductive Wire
  | opened (c : ConnId) (fd : Fd)
  | readable (c : ConnId)
  | received (c : ConnId) (bytes : List UInt8)
  | pushed (c : ConnId) (payload : List UInt8) (accepted : Bool)
  | installed (c : ConnId) (response : List UInt8)
  | traced (trace : InferenceTrace)
  | sent (c : ConnId) (bytes : List UInt8)
  | completed (c : ConnId)
  | closed (c : ConnId)
  deriving DecidableEq

def Event.wire {ι : Type*} : Event ι → Option Wire
  | .pool _ => none
  | .opened c fd => some (.opened c fd)
  | .readable c => some (.readable c)
  | .received c bytes => some (.received c bytes)
  | .pushed c payload accepted => some (.pushed c payload accepted)
  | .installed c _ result => some (.installed c result.response)
  | .traced trace => some (.traced trace)
  | .sent c bytes => some (.sent c bytes)
  | .completed c => some (.completed c)
  | .closed c => some (.closed c)

/-- The read event of `fd`, at the entry `i` of `n`, for which `finalize_request` passes `task` to
`push`. -/
structure Submission where
  i : Nat
  n : Nat
  fd : Fd
  handled : Handled
  task : InferenceTask

namespace Submission

variable {ι : Type*}

/-- The state of the server when it calls `push`. -/
def enter (sub : Submission) (s : State ι) : State ι :=
  { s with server := { s.server.setSession sub.fd sub.handled.session with
             traceIdGen := (s.server.traceIdGen + 1) % 2 ^ 32 } }

/-- The state of the server when `push` has returned. -/
def leave (sub : Submission) (s : State ι) : State ι := { s with pc := .dispatch (sub.i + 1) sub.n }

/-- What is shown of the read event. -/
def shown (sub : Submission) (c : ConnId) (accepted : Bool) : List Wire :=
  .readable c :: ((if sub.handled.received = [] then [] else [.received c sub.handled.received]) ++
    [.pushed c sub.task.data accepted])

end Submission

/-- What the server does next, if it is to call `push`. -/
def submission {ι : Type*} (setup : Setup ι) (s : State ι) (choice : Choice) : Option Submission :=
  match s.pc, choice with
  | .dispatch i n, .recv recv memory now => do
    guard (i < n)
    let pfd ← s.server.pollfds[i]?
    guard (pfd.revents.pollin = true ∧ pfd.fd ≠ s.server.sockfd)
    let handled ←
      handleClientData (readEnv setup s pfd.fd recv memory now) (s.server.session pfd.fd)
    let task ← handled.task
    some { i := i, n := n, fd := pfd.fd, handled := handled, task := task }
  | _, _ => none

namespace OnQueues

/-- Where the thread of the server is: in its own code, in `push`, in `pop_immediate`, or about to
install the result that this has returned. -/
inductive Call
  | none
  | push (sub : Submission)
  | pop
  | popped (result : InferenceResult)

variable {ι : Type} [DecidableEq ι]

structure State (setup : Setup ι) where
  shell : Network.State ι
  pool : ThreadPool.SystemState setup.pool
  call : Call

abbrev Turn (setup : Setup ι) :=
  Shared.Impl.Turn ThreadPool.Choice (setup.pool.kind.Choice ι ⊕ Option ι)

/-- A worker moves, a signal clears `g_running`, the server moves in its own code or inside a
queue. -/
inductive Label (setup : Setup ι)
  | worker (i : ι) (act : Shared.Act (ThreadPool.Op Unit) (Turn setup))
  | signal
  | server (choice : Choice)
  | inside (turn : Turn setup)

/-- The pool and its queues. -/
abbrev system (setup : Setup ι) := ThreadPool.system setup.pool setup.allocator

variable (setup : Setup ι)

/-! ## The steps of the server -/

/-- The server calls an operation of a queue. -/
def enter (s : State setup) (op : ThreadPool.Op Unit) (call : Call) :
    Option (List Wire × State setup) :=
  ((system setup).step s.pool (setup.server, .call op)).map fun (_, pool) =>
    ([], { s with pool := pool, call := call })

/-- The body of the loop of `handle_responses`. -/
def install (s : State setup) (res : InferenceResult) (now : Rat) : List Wire × State setup :=
  let (server, trace) := s.shell.server.handleResponse res now
  let installed := if (s.shell.server.sessions res.clientFd).isSome then
    [.installed (s.shell.conn res.clientFd) res.response] else []
  (installed ++ (trace.map .traced).toList,
    { s with shell := { s.shell with server := server }, call := .none })

/-- The next step of the server in its own code. -/
def serve (s : State setup) (choice : Choice) : Option (List Wire × State setup) :=
  match s.call with
  | .none =>
    if s.shell.pc = .handleResponses then enter setup s .popImmediate .pop
    else
      match submission setup s.shell choice with
      | some sub =>
        enter setup { s with shell := sub.enter s.shell } (.push (.plain sub.task)) (.push sub)
      | none => (Network.serve setup s.shell choice).map fun (es, shell) =>
          (es.filterMap Event.wire, { s with shell := shell })
  | .popped res =>
    match choice with
    | .clock now => some (install setup s res now)
    | _ => none
  | _ => none

/-- How the server goes on with the answer of a queue. -/
def leave (s : State setup) : ThreadPool.Ret → Option (List Wire × State setup)
  | .pushed accepted =>
    match s.call with
    | .push sub => some (sub.shown (s.shell.conn sub.fd) accepted,
        { s with shell := sub.leave s.shell, call := .none })
    | _ => none
  | .popped none =>
    match s.call with
    | .pop => some ([], { s with
        shell := { s.shell with server := s.shell.server.selectEvents, pc := .poll },
        call := .none })
    | _ => none
  | .popped (some res) =>
    match s.call with
    | .pop => some ([], { s with call := .popped res })
    | _ => none
  | _ => none

/-- The next step of the server inside a queue. -/
def inside (s : State setup) (turn : Turn setup) : Option (List Wire × State setup) :=
  ((system setup).run setup.server s.pool.mem turn (s.pool.pc setup.server)).bind fun o =>
    let s := { s with pool := s.pool.moved setup.server o.mem o.pc }
    match o.ret with
    | none => some ([], s)
    | some r => leave setup s r

/-! ## The system -/

/-- A worker thread runs its loop, and not again once it has ended. -/
def workerMay (s : State setup) (i : ι) : Shared.Act (ThreadPool.Op Unit) (Turn setup) → Bool
  | .call .workerLoop => decide (i ∈ setup.pool.workers ∧ i ∉ s.pool.mem.1.ended)
  | .call _ => false
  | .run _ => decide (i ∈ setup.pool.workers)

def step (s : State setup) : Label setup → Option (List Wire × State setup)
  | .worker i act =>
    if workerMay setup s i act then
      ((system setup).step s.pool (i, act)).map fun (_, pool) => ([], { s with pool := pool })
    else none
  | .signal => some ([], { s with shell := { s.shell with running := false } })
  | .server choice => serve setup s choice
  | .inside turn => inside setup s turn

def State.init : State setup where
  shell := .init setup
  pool := (system setup).init
  call := .none

/-- The running engine on its queues, before its shutdown. -/
def lts : Lts (State setup) (Label setup) Wire where
  init s := s = State.init setup
  step := step setup

/-- The counters of the task queue are in their range. -/
def Below (s : State setup) : Prop := setup.pool.kind.Below s.pool.mem.2.1

instance (s : State setup) : Decidable (Below setup s) :=
  inferInstanceAs (Decidable (setup.pool.kind.Below _))

end OnQueues
end Lumen.Network
