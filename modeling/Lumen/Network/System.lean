import Lumen.Network.TCPServer
import Lumen.Concurrency.ThreadPool

/-!
# The server, the pool and the kernel

`TCPServer::run` as the loop of one thread over the sockets of its clients, with the worker pool on
the other side of the two queues. A round of the loop pops results until there are none, selects the
events, polls, and dispatches one entry after the other; each of these is a step, and the workers
move between them. What the kernel and the clients do is a choice of the step. The kernel knows
which connection an open descriptor belongs to; a closed descriptor may be given out again. A job is
tagged with the connection it came from, which no code reads. A call of an engine that fails is no
step here, for it ends the process (`Network.process`).
-/

set_option autoImplicit false

namespace Lumen.Network

open Lumen.Lib Lumen.Core Lumen.Concurrency

/-- The number of a connection; no two connections have the same. -/
abbrev ConnId := Nat

/-- The pool, the thread that runs the server, and the arguments of the server's constructor. -/
structure Setup (ι : Type*) where
  pool : ThreadPool.Setup ι
  allocator : ι → Allocator
  server : ι
  server_notMem : server ∉ pool.workers
  sockfd : Fd
  pre : Option Nat
  post : Option Nat

/-- How the server leaves its loop: `g_running` is cleared, an exception, or a signal that ends the
process. -/
inductive Exit
  | returned
  | thrown
  | killed
  deriving DecidableEq

/-- Where `run` is: at the loop test, popping results, before `poll`, at the entry `i` of the first
`currentSize`, or it has been left. -/
inductive Pc
  | loopTest
  | handleResponses
  | poll
  | dispatch (i currentSize : Nat)
  | left (exit : Exit)
  deriving DecidableEq

/-- `conns` are the open client descriptors with their connections. -/
structure State (ι : Type*) where
  pool : ThreadPool.State ι ConnId
  server : TCPServer
  pc : Pc
  running : Bool
  conns : Fd → Option ConnId
  nextConn : ConnId

/-- What is left open in a step of the server: the clock; what `poll` reports, `none` where it
reports nothing; the new descriptor, with the stale bits of its entry; what the sockets answer. -/
inductive Choice
  | none
  | clock (now : Rat)
  | poll (revents : Option (List PollBits))
  | accept (fd : Option (Fd × PollBits))
  | recv (recv : Recv) (memory : Bool) (now : Rat)
  | send (send : Send)

/-- A worker moves, a signal clears `g_running`, or the server moves. -/
inductive Label (ι : Type*)
  | worker (i : ι) (act : Shared.Act (ThreadPool.Op ConnId) ThreadPool.Choice)
  | signal
  | server (choice : Choice)

/-- What a run shows of a connection: it is opened, has a read event, delivers bytes, has a payload
passed to `push`, has a response installed (made from `job`), sends bytes, has sent a whole
response, is closed. The events of the pool are shown as they are. -/
inductive Event (ι : Type*)
  | pool (e : ThreadPool.Event ι ConnId)
  | opened (c : ConnId) (fd : Fd)
  | readable (c : ConnId)
  | received (c : ConnId) (bytes : List UInt8)
  | pushed (c : ConnId) (payload : List UInt8) (accepted : Bool)
  | installed (c : ConnId) (job : Job ConnId) (result : InferenceResult)
  | traced (trace : InferenceTrace)
  | sent (c : ConnId) (bytes : List UInt8)
  | completed (c : ConnId)
  | closed (c : ConnId)

variable {ι : Type*}

namespace State

/-- The connection of an open descriptor. -/
def conn (s : State ι) (fd : Fd) : ConnId := (s.conns fd).getD 0

/-- `close`, and the server's own bookkeeping. -/
def close (s : State ι) (fd : Fd) (i : Nat) : List (Event ι) × State ι :=
  ([.closed (s.conn fd)],
    { s with server := s.server.closeConnection fd i, conns := Function.update s.conns fd none })

end State

/-! ## The steps of the server -/

section
variable (setup : Setup ι)

/-- `task_queue->push` by the server's thread: whether the task is accepted, and the pool. -/
def push (pool : ThreadPool.State ι ConnId) (job : Job ConnId) :
    Bool × List (ThreadPool.Event ι ConnId) × ThreadPool.State ι ConnId :=
  let o := ThreadPool.push setup.pool pool.mem job
  ((pool.mem.queue.push setup.pool.kind job).1,
    .call setup.server (.push job) :: o.events setup.server, { pool with mem := o.mem })

/-- `response_queue->pop_immediate` by the server's thread. -/
def popImmediate (pool : ThreadPool.State ι ConnId) :
    List (ThreadPool.Event ι ConnId) × ThreadPool.State ι ConnId :=
  let o : ThreadPool.Outcome ι ConnId := ThreadPool.popImmediate pool.mem
  (.call setup.server .popImmediate :: o.events setup.server, { pool with mem := o.mem })

/-- One round of `handle_responses`; with no result left, the selection of the events. -/
def handleResponses (s : State ι) (now : Rat) : List (Event ι) × State ι :=
  let r := popImmediate setup s.pool
  match s.pool.mem.results with
  | [] => (r.1.map .pool, { s with pool := r.2, server := s.server.selectEvents, pc := .poll })
  | (job, res) :: _ =>
    let (server, trace) := s.server.handleResponse res now
    let installed := if (s.server.sessions res.clientFd).isSome then
      [.installed (s.conn res.clientFd) job res] else []
    (r.1.map .pool ++ (installed ++ (trace.map .traced).toList),
      { s with pool := r.2, server := server })

/-- An event of an entry is reported only if it was asked for. -/
def Pollfd.Asked (pfd : Pollfd) (r : PollBits) : Prop :=
  (r.pollin = true → pfd.events.pollin = true) ∧ (r.pollout = true → pfd.events.pollout = true)

instance (pfd : Pollfd) (r : PollBits) : Decidable (pfd.Asked r) :=
  @instDecidableAnd _ _ instDecidableForall instDecidableForall

/-- `poll`, which fails or reports the events that have come. -/
def poll (s : State ι) : Option (List PollBits) → Option (State ι)
  | none => some { s with pc := .loopTest }
  | some revents =>
    if List.Forall₂ Pollfd.Asked s.server.pollfds revents then
      some { s with server := s.server.setRevents revents,
                    pc := .dispatch 0 s.server.pollfds.length }
    else none

/-- `handle_new_connection`: `accept` returns a descriptor that is not open. -/
def accept (s : State ι) (i n : Nat) :
    Option (Fd × PollBits) → Option (List (Event ι) × State ι)
  | none => some ([], { s with pc := .dispatch (i + 1) n })
  | some (fd, revents) =>
    if s.conns fd = none ∧ fd ≠ setup.sockfd then
      some ([.opened s.nextConn fd],
        { s with server := s.server.handleNewConnection fd revents,
                 conns := Function.update s.conns fd (some s.nextConn),
                 nextConn := s.nextConn + 1, pc := .dispatch (i + 1) n })
    else none

/-- What `recv` delivered, as an event. -/
def receivedEvents (c : ConnId) (bytes : List UInt8) : List (Event ι) :=
  if bytes = [] then [] else [.received c bytes]

/-- The environment of a read event. -/
def readEnv (s : State ι) (fd : Fd) (recv : Recv) (memory : Bool) (now : Rat) : ReadEnv :=
  { fd := fd, recv := recv, memory := memory, pre := setup.pre, post := setup.post,
    traceIdGen := s.server.traceIdGen, now := now }

/-- What a handled read event makes of the session and of the task queue. -/
def handled (s : State ι) (fd : Fd) (h : Handled) : List (Event ι) × State ι :=
  let c := s.conn fd
  match h.task with
  | none => (receivedEvents c h.received, { s with server := s.server.setSession fd h.session })
  | some task =>
    let r := push setup s.pool { task := task, tag := c }
    (receivedEvents c h.received ++ (r.2.1.map .pool ++ [.pushed c task.data r.1]),
      { s with pool := r.2.2
               server := { s.server.setSession fd h.session with
                 traceIdGen := (s.server.traceIdGen + 1) % 2 ^ 32 } })

/-- A read event of a client. -/
def read (s : State ι) (i n : Nat) (fd : Fd) (recv : Recv) (memory : Bool) (now : Rat) :
    Option (List (Event ι) × State ι) :=
  (handleClientData (readEnv setup s fd recv memory now) (s.server.session fd)).map fun h =>
    let (es, s') := handled setup s fd h
    if h.thrown then (.readable (s.conn fd) :: es, { s' with pc := .left .thrown })
    else if h.ret ≤ 0 then
      let (es', s') := s'.close fd i
      (.readable (s.conn fd) :: (es ++ es'), { s' with pc := .dispatch i (n - 1) })
    else (.readable (s.conn fd) :: es, { s' with pc := .dispatch (i + 1) n })

/-- A write event of a client. -/
def send (s : State ι) (i n : Nat) (fd : Fd) (send : Send) : Option (List (Event ι) × State ι) :=
  let session := s.server.session fd
  let c := s.conn fd
  let server := s.server.setSession fd session
  if send.Fits (session.responseBuffer.length - session.bytesSent) then
    match send with
    | .sent k =>
      if 0 < k then
        let bytes := (session.responseBuffer.drop session.bytesSent).take k
        let session := { session with bytesSent := session.bytesSent + k }
        if session.bytesSent = session.responseBuffer.length then
          some ([.sent c bytes, .completed c],
            { s with server := server.setSession fd session.reset, pc := .dispatch (i + 1) n })
        else some ([.sent c bytes],
          { s with server := server.setSession fd session, pc := .dispatch (i + 1) n })
      else some ([], { s with server := server, pc := .dispatch (i + 1) n })
    | .again => some ([], { s with server := server, pc := .dispatch (i + 1) n })
    | .error =>
      let (es, s') := { s with server := server }.close fd i
      some (es, { s' with pc := .dispatch i (n - 1) })
    | .pipe => some ([], { s with server := server, pc := .left .killed })
  else none

/-- The dispatch of the entry `i`. -/
def dispatch (s : State ι) (i n : Nat) (choice : Choice) : Option (List (Event ι) × State ι) :=
  if i < n then
    match s.server.pollfds[i]? with
    | none => none
    | some pfd =>
      if pfd.revents.pollin then
        if pfd.fd = s.server.sockfd then
          match choice with
          | .accept fd => accept setup s i n fd
          | _ => none
        else
          match choice with
          | .recv recv memory now => read setup s i n pfd.fd recv memory now
          | _ => none
      else if pfd.revents.pollout then
        match choice with
        | .send r => send s i n pfd.fd r
        | _ => none
      else some ([], { s with pc := .dispatch (i + 1) n })
  else some ([], { s with pc := .loopTest })

/-- The next step of the server. -/
def serve (s : State ι) (choice : Choice) : Option (List (Event ι) × State ι) :=
  match s.pc with
  | .loopTest => some ([], { s with pc := if s.running then .handleResponses else .left .returned })
  | .handleResponses =>
    match choice with
    | .clock now => some (handleResponses setup s now)
    | _ => none
  | .poll =>
    match choice with
    | .poll revents => (poll s revents).map fun s' => ([], s')
    | _ => none
  | .dispatch i n => dispatch setup s i n choice
  | .left _ => none

/-! ## The system -/

variable [DecidableEq ι]

/-- A worker thread runs its loop, and not again once it has ended. -/
def workerMay (s : State ι) (i : ι) :
    Shared.Act (ThreadPool.Op ConnId) ThreadPool.Choice → Bool
  | .call .workerLoop => decide (i ∈ setup.pool.workers ∧ i ∉ s.pool.mem.ended)
  | .call _ => false
  | .run _ => decide (i ∈ setup.pool.workers)

def step (s : State ι) : Label ι → Option (List (Event ι) × State ι)
  | .worker i act =>
    if workerMay setup s i act then
      ((ThreadPool.impl ConnId setup.pool setup.allocator).step s.pool (i, act)).map
        fun (es, pool) => (es.map .pool, { s with pool := pool })
    else none
  | .signal => some ([], { s with running := false })
  | .server choice => serve setup s choice

/-- The pool and the server are built, the server enters `run`. -/
def State.init : State ι where
  pool := (ThreadPool.impl ConnId setup.pool setup.allocator).init
  server := .new setup.sockfd
  pc := .loopTest
  running := true
  conns _ := none
  nextConn := 0

/-- The running engine, before its shutdown. -/
def lts : Lts (State ι) (Label ι) (Event ι) where
  init s := s = State.init setup
  step := step setup

end
end Lumen.Network
