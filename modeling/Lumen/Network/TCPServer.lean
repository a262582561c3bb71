import Lumen.Core.Task
import Lumen.Lib.Framing
import Lumen.Lib.SwapRemove
import Lumen.Lib.Word
import Mathlib.Logic.Function.Basic

/-!
# `TCPServer`

The sessions and the functions of the server, each on the state it reads and changes. What the
kernel answers to `recv` and `send`, and whether `resize` finds memory, are arguments. The buffers
of a session are lists of bytes that are written in place; a `recv` that delivers bytes delivers at
least one and at most as many as it was asked for.
-/

set_option autoImplicit false

namespace Lumen.Network

open Lumen.Lib Lumen.Core

/-- A file descriptor. -/
abbrev Fd := Int

/-- The bits of `events` and `revents` that the server looks at. -/
structure PollBits where
  pollin : Bool
  pollout : Bool
  deriving DecidableEq

def PollBits.none : PollBits := { pollin := false, pollout := false }
def PollBits.pollIn : PollBits := { pollin := true, pollout := false }
def PollBits.pollOut : PollBits := { pollin := false, pollout := true }

structure Pollfd where
  fd : Fd
  events : PollBits
  revents : PollBits
  deriving DecidableEq

inductive SessionState
  | headerPending
  | bodyPending
  | readyForInference
  | inferencePending
  | responseSending
  deriving DecidableEq

structure ClientSession where
  state : SessionState := .headerPending
  expectedSize : Nat := 0
  bytesReceived : Nat := 0
  bodyBuffer : List UInt8 := []
  headerBuffer : List UInt8 := List.replicate 4 0
  headerBytesReceived : Nat := 0
  responseBuffer : List UInt8 := []
  bytesSent : Nat := 0

def ClientSession.reset (s : ClientSession) : ClientSession :=
  { s with bodyBuffer := [], bytesReceived := 0, expectedSize := 0, headerBytesReceived := 0,
           state := .headerPending }

/-- `std::vector::resize`. -/
def resize (n : Nat) (buffer : List UInt8) : List UInt8 :=
  buffer.take n ++ List.replicate (n - buffer.length) 0

/-- The buffer once `bytes` are written at `offset`. -/
def write (buffer : List UInt8) (offset : Nat) (bytes : List UInt8) : List UInt8 :=
  buffer.take offset ++ (bytes ++ buffer.drop (offset + bytes.length))

/-- `ntohl` of four bytes in network order. -/
def ntohl (bytes : List UInt8) : Nat := bytes.foldl (fun n byte => n * 256 + byte.toNat) 0

/-- The frames of a request stream: a header of four bytes and as many bytes as it says. -/
def frameFormat : Framing.Format UInt8 := { headerLength := 4, payloadLength := ntohl }

/-- What `recv` answers; `eof` is its `0`, and the others set `errno`. -/
inductive Recv
  | data (bytes : List UInt8)
  | eof
  | again
  | error
  deriving DecidableEq

/-- `recv` may answer so when it is asked for `n` bytes. -/
def Recv.Fits (n : Nat) : Recv → Prop
  | .data bytes => 0 < bytes.length ∧ bytes.length ≤ n
  | _ => True

instance (n : Nat) : ∀ r, Decidable (Recv.Fits n r)
  | .data bytes => inferInstanceAs (Decidable (0 < bytes.length ∧ bytes.length ≤ n))
  | .eof | .again | .error => .isTrue trivial

/-- What `send` answers; `pipe` is the signal that ends the process. -/
inductive Send
  | sent (n : Nat)
  | again
  | error
  | pipe
  deriving DecidableEq

def Send.Fits (n : Nat) : Send → Prop
  | .sent k => k ≤ n ∧ (k = 0 → n = 0)
  | _ => True

instance (n : Nat) : ∀ r, Decidable (Send.Fits n r)
  | .sent k => inferInstanceAs (Decidable (k ≤ n ∧ (k = 0 → n = 0)))
  | .again | .error | .pipe => .isTrue trivial

/-- The arguments of a `recv`: the buffer, the offset in it and the length. -/
structure RecvCall where
  buffer : List UInt8
  offset : Nat
  length : Nat

/-- The `recv` of a read event, if there is one. The lengths are differences of `size_t`. -/
def ClientSession.recvCall (session : ClientSession) : Option RecvCall :=
  match session.state with
  | .headerPending =>
    some { buffer := session.headerBuffer, offset := session.headerBytesReceived,
           length := sub64 4 session.headerBytesReceived }
  | .bodyPending =>
    if session.bodyBuffer.length = 0 then none
    else some { buffer := session.bodyBuffer, offset := session.bytesReceived,
                length := sub64 session.expectedSize session.bytesReceived }
  | _ => none

/-- What a read event leads to: the value that `handle_client_data` returns, the session, the bytes
that `recv` delivered, and the task that is passed to `task_queue->push`; or an exception. -/
structure Handled where
  ret : Int
  session : ClientSession
  received : List UInt8 := []
  task : Option InferenceTask := none
  thrown : Bool := false

/-- What a read event depends on outside the session: the descriptor, the answer to `recv`, whether
`resize` finds memory, the two processors, `trace_id_gen` and the clock. -/
structure ReadEnv where
  fd : Fd
  recv : Recv
  memory : Bool
  pre : Option Nat
  post : Option Nat
  traceIdGen : Nat
  now : Rat

/-- `none` where `recv` cannot answer so. -/
def processHeader (env : ReadEnv) (session : ClientSession) : Option Handled :=
  if env.recv.Fits (4 - session.headerBytesReceived) then
    match env.recv with
    | .data bytes =>
      let session := { session with
        headerBuffer := write session.headerBuffer session.headerBytesReceived bytes,
        headerBytesReceived := session.headerBytesReceived + bytes.length }
      if session.headerBytesReceived = 4 then
        let session := { session with state := .bodyPending,
                                      expectedSize := ntohl session.headerBuffer }
        if env.memory then
          some { ret := 1, received := bytes,
                 session := { session with
                   bodyBuffer := resize session.expectedSize session.bodyBuffer } }
        else some { ret := 1, received := bytes, session := session, thrown := true }
      else some { ret := bytes.length, received := bytes, session := session }
    | .eof => some { ret := 0, session := session }
    | .again | .error => some { ret := -1, session := session }
  else none

/-- The task is made from the body buffer, which is moved away. -/
def finalizeRequest (env : ReadEnv) (session : ClientSession) : ClientSession × InferenceTask :=
  ({ session with bodyBuffer := [], state := .inferencePending },
    { clientFd := env.fd, data := session.bodyBuffer, pre := env.pre, post := env.post,
      trace := some { requestId := env.traceIdGen, startTs := env.now } })

/-- `none` where `recv` cannot answer so. -/
def processBody (env : ReadEnv) (session : ClientSession) : Option Handled :=
  if session.bodyBuffer.length = 0 then some { ret := -1, session := session }
  else if env.recv.Fits (session.expectedSize - session.bytesReceived) then
    match env.recv with
    | .data bytes =>
      let session := { session with
        bodyBuffer := write session.bodyBuffer session.bytesReceived bytes,
        bytesReceived := session.bytesReceived + bytes.length }
      if session.bytesReceived = session.expectedSize then
        let session := { session with state := .readyForInference }
        let (session, task) := finalizeRequest env session
        some { ret := 1, received := bytes, session := session, task := some task }
      else some { ret := bytes.length, received := bytes, session := session }
    | .eof => some { ret := 0, session := session }
    | .again => some { ret := 1, session := session }
    | .error => some { ret := -1, session := session }
  else none

def handleClientData (env : ReadEnv) (session : ClientSession) : Option Handled :=
  match session.state with
  | .headerPending => processHeader env session
  | .bodyPending => processBody env session
  | .readyForInference =>
    let (session, task) := finalizeRequest env session
    some { ret := 1, session := session, task := some task }
  | .inferencePending | .responseSending => some { ret := 1, session := session }

/-- The read event calls `finalize_request`. -/
def ClientSession.finalizes (session : ClientSession) (recv : Recv) : Bool :=
  match session.state, recv with
  | .bodyPending, .data bytes => decide (session.bodyBuffer.length ≠ 0 ∧
      session.bytesReceived + bytes.length = session.expectedSize)
  | .readyForInference, _ => true
  | _, _ => false

/-! ## The object -/

/-- The fields; `traceIdGen` is the static variable of `finalize_request`, a 32-bit counter. -/
structure TCPServer where
  sockfd : Fd
  pollfds : List Pollfd
  sessions : Fd → Option ClientSession
  traceIdGen : Nat

namespace TCPServer

/-- The constructor, with the listening socket. -/
def new (sockfd : Fd) : TCPServer :=
  { sockfd := sockfd, sessions := fun _ => none, traceIdGen := 0,
    pollfds := [{ fd := sockfd, events := .pollIn, revents := .none }] }

/-- `sessions[fd]`, which makes a session where there is none. -/
def session (server : TCPServer) (fd : Fd) : ClientSession := (server.sessions fd).getD {}

def setSession (server : TCPServer) (fd : Fd) (session : ClientSession) : TCPServer :=
  { server with sessions := Function.update server.sessions fd (some session) }

/-- After `accept` has returned `fd`; `revents` is what the new entry happens to hold. -/
def handleNewConnection (server : TCPServer) (fd : Fd) (revents : PollBits) : TCPServer :=
  { server with pollfds := server.pollfds ++ [{ fd := fd, events := .pollIn, revents := revents }],
                sessions := Function.update server.sessions fd (some {}) }

/-- The last entry takes the place of the entry at `pollIdx`. -/
def closeConnection (server : TCPServer) (fd : Fd) (pollIdx : Nat) : TCPServer :=
  { server with pollfds := swapRemove server.pollfds pollIdx,
                sessions := Function.update server.sessions fd none }

/-- What `handle_responses` does with a result; the trace, if there is a session and a trace, goes
to `capture_trace` with its total time. -/
def handleResponse (server : TCPServer) (res : InferenceResult) (now : Rat) :
    TCPServer × Option InferenceTrace :=
  if (server.sessions res.clientFd).isSome then
    let session := { server.session res.clientFd with
      responseBuffer := res.response, state := .responseSending, bytesSent := 0 }
    (server.setSession res.clientFd session,
      res.trace.map fun trace => { trace with totalE2eMs := trace.getElapsedMs now })
  else (server, none)

/-- The events polled for in this state. -/
def eventsOf : SessionState → PollBits
  | .responseSending => .pollOut
  | .inferencePending => .none
  | _ => .pollIn

/-- The loop of `run` that selects the events of the entries from index `1` on. -/
def selectEvents (server : TCPServer) : TCPServer :=
  match server.pollfds with
  | [] => server
  | listener :: clients =>
    { server with
      pollfds := listener :: clients.map fun pfd =>
        { pfd with events := eventsOf (server.session pfd.fd).state }
      sessions := clients.foldl (fun sessions pfd =>
        Function.update sessions pfd.fd (some ((sessions pfd.fd).getD {}))) server.sessions }

/-- `poll` has written `revents`. -/
def setRevents (server : TCPServer) (revents : List PollBits) : TCPServer :=
  { server with pollfds := server.pollfds.zipWith (fun pfd r => { pfd with revents := r }) revents }

end TCPServer
end Lumen.Network
