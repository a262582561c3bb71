import Lumen.Network.System

/-!
# The process of the server

Besides an exception that leaves `run`, two things end the process: a call of an engine that fails,
which nothing in the worker thread catches, and a `send` that raises `SIGPIPE`, for which `main`
installs no handler. Which it is for a `send` depends on what the client has done: a reset of the
connection fails the next call on it, after which the server closes it; but where the client has
finished its side of the stream before, every `send` after the reset raises the signal.
-/

set_option autoImplicit false

namespace Lumen.Network

open Lumen.Lib Lumen.Core Lumen.Concurrency

/-- What the kernel has heard from the other end of a connection. -/
inductive Peer
  | connected
  | finished
  | reset
  | broken
  deriving DecidableEq

/-- The other end shuts down its writing side, or resets the connection. -/
inductive PeerAct
  | finish
  | reset
  deriving DecidableEq

namespace Peer

def next : Peer → PeerAct → Peer
  | .connected, .finish => .finished
  | .connected, .reset => .reset
  | .finished, .reset => .broken
  | peer, _ => peer

/-- What the kernel may answer to a `send`. -/
def answers : Peer → Send → Bool
  | .broken, answer => decide (answer = .pipe)
  | .reset, answer => decide (answer = .error)
  | .connected, answer | .finished, answer => decide (answer ≠ .pipe)

end Peer

/-- The server with its workers, and the other ends of its connections. -/
structure Process (ι : Type*) where
  system : State ι
  peers : ConnId → Peer

/-- A client acts on its end of a connection, or the system takes a step. -/
inductive ProcessLabel (ι : Type*)
  | peer (c : ConnId) (act : PeerAct)
  | system (l : Label ι)

variable {ι : Type*}

/-- The connection on which the step calls `send`, and the answer. -/
def State.sends (s : State ι) : Label ι → Option (ConnId × Send)
  | .server (.send answer) =>
    match s.pc with
    | .dispatch i n =>
      if i < n then
        match s.server.pollfds[i]? with
        | some pfd =>
          if pfd.revents.pollin then none
          else if pfd.revents.pollout then some (s.conn pfd.fd, answer)
          else none
        | none => none
      else none
    | _ => none
  | _ => none

/-- An exception or a signal has ended the process. -/
def State.ended (s : State ι) : Bool := decide (s.pc = .left .thrown ∨ s.pc = .left .killed)

section
variable [DecidableEq ι] (setup : Setup ι)

/-- The step is a call of an engine, which fails. -/
def crashes (s : State ι) : Label ι → Bool
  | .worker i act => workerMay setup s i act && (ThreadPool.failure setup.pool s.pool (i, act)).isSome
  | _ => false

namespace Process

def step (s : Process ι) : ProcessLabel ι → Option (List (Event ι) × Process ι)
  | .peer c act => some ([], { s with peers := Function.update s.peers c ((s.peers c).next act) })
  | .system l =>
    if s.system.ended then none
    else if crashes setup s.system l then
      some ([], { s with system := { s.system with pc := .left .killed } })
    else if (s.system.sends l).all fun x => (s.peers x.1).answers x.2 then
      (Network.step setup s.system l).map fun p => (p.1, { s with system := p.2 })
    else none

def init : Process ι where
  system := .init setup
  peers _ := .connected

end Process

/-- The running engine and its clients. -/
def process : Lts (Process ι) (ProcessLabel ι) (Event ι) where
  init s := s = .init setup
  step := Process.step setup

end
end Lumen.Network
