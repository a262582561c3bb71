import Lumen.Network.System

/-!
# Sessions

`received`, `payloads` and `completed` are what a run shows of a connection: the bytes that came,
the payloads that were passed to `push`, and how many responses were sent. `SessionOk` relates them
to the fields of the open session: it has read the payloads of the stream, and keeps the beginning
of the next frame in its two buffers. A read event keeps it (`SessionOk.handleClientData`), and so
do the steps that install a response and send it.
-/

set_option autoImplicit false

namespace Lumen.Network

open Lumen.Lib Lumen.Core Lumen.Concurrency

variable {ι : Type*}

/-! ## Histories -/

namespace Event

def bytesOn (c : ConnId) : Event ι → List UInt8
  | .received c' bytes => if c' = c then bytes else []
  | _ => []

def payloadOn (c : ConnId) : Event ι → Option (List UInt8)
  | .pushed c' payload _ => if c' = c then some payload else none
  | _ => none

def completes (c : ConnId) : Event ι → Bool
  | .completed c' => decide (c' = c)
  | _ => false

/-- The event is of none of these. -/
def Silent (e : Event ι) : Prop :=
  ∀ c, e.bytesOn c = [] ∧ e.payloadOn c = none ∧ e.completes c = false

end Event

/-- The bytes that came on a connection. -/
def received (h : List (Event ι)) (c : ConnId) : List UInt8 := h.flatMap (Event.bytesOn c)

/-- The payloads passed to `push` for a connection. -/
def payloads (h : List (Event ι)) (c : ConnId) : List (List UInt8) :=
  h.filterMap (Event.payloadOn c)

/-- The number of responses completely sent on a connection. -/
def completed (h : List (Event ι)) (c : ConnId) : Nat := h.countP (Event.completes c)

theorem payloads_append (h h' : List (Event ι)) (c : ConnId) :
    payloads (h ++ h') c = payloads h c ++ payloads h' c := List.filterMap_append

theorem received_append (h h' : List (Event ι)) (c : ConnId) :
    received (h ++ h') c = received h c ++ received h' c := List.flatMap_append

theorem completed_append (h h' : List (Event ι)) (c : ConnId) :
    completed (h ++ h') c = completed h c + completed h' c := List.countP_append

theorem silent_pool (es : List (ThreadPool.Event ι ConnId)) :
    ∀ e ∈ (es.map .pool : List (Event ι)), e.Silent := fun e he => by
  obtain ⟨e, -, rfl⟩ := List.mem_map.1 he
  exact fun _ => ⟨rfl, rfl, rfl⟩

/-- The events of a step that installs a response. -/
theorem silent_installed (es : List (ThreadPool.Event ι ConnId)) (c : ConnId) (job : Job ConnId)
    (res : InferenceResult) (trace : Option InferenceTrace) :
    ∀ e ∈ (es.map .pool ++ ([.installed c job res] ++ (trace.map .traced).toList) :
      List (Event ι)), e.Silent := fun e he => by
  simp only [List.mem_append, List.mem_singleton, List.mem_map, Option.mem_toList,
    Option.map_eq_some_iff] at he
  rcases he with ⟨e, -, rfl⟩ | rfl | ⟨t, -, rfl⟩ <;> exact fun _ => ⟨rfl, rfl, rfl⟩

/-- Silent events change nothing. -/
theorem append_silent (h : List (Event ι)) {es : List (Event ι)} (hes : ∀ e ∈ es, e.Silent)
    (c : ConnId) : received (h ++ es) c = received h c ∧ payloads (h ++ es) c = payloads h c ∧
      completed (h ++ es) c = completed h c := by
  have hr : received es c = [] := List.flatMap_eq_nil_iff.2 fun e he => (hes e he c).1
  have hp : payloads es c = [] := List.filterMap_eq_nil_iff.2 fun e he => (hes e he c).2.1
  have hd : completed es c = 0 := List.countP_eq_zero.2 fun e he => by
    rw [(hes e he c).2.2]
    exact Bool.false_ne_true
  rw [received_append, payloads_append, completed_append, hr, hp, hd, List.append_nil,
    List.append_nil]
  exact ⟨rfl, rfl, rfl⟩

/-- The events are of the connection `c` only: these bytes came, these payloads were passed on, and
so many responses were completed. -/
structure Shows (es : List (Event ι)) (c : ConnId) (bytes : List UInt8)
    (ps : List (List UInt8)) (done : Nat) : Prop where
  received : ∀ c', received es c' = if c = c' then bytes else []
  payloads : ∀ c', payloads es c' = if c = c' then ps else []
  completed : ∀ c', completed es c' = if c = c' then done else 0

namespace Shows

variable {es es' : List (Event ι)} {c : ConnId} {bytes bytes' : List UInt8}
  {ps ps' : List (List UInt8)} {done done' : Nat}

theorem append (h : Shows es c bytes ps done) (h' : Shows es' c bytes' ps' done') :
    Shows (es ++ es') c (bytes ++ bytes') (ps ++ ps') (done + done') := by
  refine ⟨fun c' => ?_, fun c' => ?_, fun c' => ?_⟩
  · rw [received_append, h.received, h'.received]
    split <;> rfl
  · rw [payloads_append, h.payloads, h'.payloads]
    split <;> rfl
  · rw [completed_append, h.completed, h'.completed]
    split <;> rfl

/-- Events that show none of the three. -/
theorem silent (h : ∀ e ∈ es, e.Silent) : Shows es c [] [] 0 := by
  have hnil := append_silent [] h
  refine ⟨fun c' => ?_, fun c' => ?_, fun c' => ?_⟩ <;> rw [ite_self]
  · exact (hnil c').1
  · exact (hnil c').2.1
  · exact (hnil c').2.2

theorem one {e : Event ι} (h : e.Silent) : Shows [e] c [] [] 0 :=
  silent fun e' he' => by
    obtain rfl := List.mem_singleton.1 he'
    exact h

theorem pool (es : List (ThreadPool.Event ι ConnId)) :
    Shows (es.map .pool : List (Event ι)) c [] [] 0 := silent (silent_pool es)

theorem receivedEvents (c : ConnId) (bytes : List UInt8) :
    Shows (receivedEvents c bytes : List (Event ι)) c bytes [] 0 := by
  unfold Network.receivedEvents
  split
  · subst bytes
    exact silent fun e he => by cases he
  · exact ⟨fun c' => by simp [Network.received, Event.bytesOn],
      fun c' => by simp [Network.payloads, Event.payloadOn],
      fun c' => by simp [Network.completed, Event.completes]⟩

theorem readable (h : Shows es c bytes ps done) : Shows (.readable c :: es) c bytes ps done := by
  have h' := append (one (e := .readable c) fun _ => ⟨rfl, rfl, rfl⟩) h
  rwa [List.nil_append, List.nil_append, Nat.zero_add] at h'

theorem closed (h : Shows es c bytes ps done) : Shows (es ++ [.closed c]) c bytes ps done := by
  have h' := append h (one (e := .closed c) fun _ => ⟨rfl, rfl, rfl⟩)
  rwa [List.append_nil, List.append_nil] at h'

theorem pushed (c : ConnId) (payload : List UInt8) (accepted : Bool) :
    Shows [(.pushed c payload accepted : Event ι)] c [] [payload] 0 :=
  ⟨fun c' => by simp [Network.received, Event.bytesOn], fun c' => by
    by_cases h : c = c' <;> simp [Network.payloads, Event.payloadOn, h],
    fun c' => by simp [Network.completed, Event.completes]⟩

/-- The events of a step that passes a request on. -/
theorem submitted (c : ConnId) (bytes : List UInt8) (es : List (ThreadPool.Event ι ConnId))
    (payload : List UInt8) (accepted : Bool) :
    Shows (.readable c :: (Network.receivedEvents c bytes ++ (es.map .pool ++
      [.pushed c payload accepted])) : List (Event ι)) c bytes [payload] 0 := by
  have h := (receivedEvents c bytes).append ((pool (ι := ι) es).append (pushed c payload accepted))
  simp only [List.append_nil, List.nil_append, Nat.add_zero] at h
  exact h.readable

theorem completes (c : ConnId) : Shows [(.completed c : Event ι)] c [] [] 1 :=
  ⟨fun c' => by simp [Network.received, Event.bytesOn],
    fun c' => by simp [Network.payloads, Event.payloadOn],
    fun c' => by by_cases h : c = c' <;> simp [Network.completed, Event.completes, h]⟩

end Shows

/-! ## Buffers -/

theorem length_write {buffer bytes : List UInt8} {offset : Nat}
    (h : offset + bytes.length ≤ buffer.length) :
    (write buffer offset bytes).length = buffer.length := by
  simp only [write, List.length_append, List.length_take, List.length_drop]
  omega

/-- Up to the end of what is written. -/
theorem take_write {buffer bytes : List UInt8} {offset : Nat} (h : offset ≤ buffer.length) :
    (write buffer offset bytes).take (offset + bytes.length) = buffer.take offset ++ bytes := by
  have hlen : (buffer.take offset).length = offset := by
    rw [List.length_take]
    omega
  rw [write, ← List.append_assoc]
  refine List.take_left' ?_
  rw [List.length_append, hlen]

theorem length_resize (n : Nat) (buffer : List UInt8) : (resize n buffer).length = n := by
  simp only [resize, List.length_append, List.length_take, List.length_replicate]
  omega

theorem ntohl_lt {bytes : List UInt8} (h : bytes.length = 4) : ntohl bytes < 2 ^ 32 := by
  match bytes, h with
  | [a, b, c, d], _ =>
    have ha := a.toNat_lt
    have hb := b.toNat_lt
    have hc := c.toNat_lt
    have hd := d.toNat_lt
    simp only [ntohl, List.foldl_cons, List.foldl_nil]
    omega

/-! ## Sessions -/

namespace ClientSession

/-- What has come of the frame that is being received. -/
def kept (x : ClientSession) : List UInt8 :=
  match x.state with
  | .headerPending => x.headerBuffer.take x.headerBytesReceived
  | .bodyPending => x.headerBuffer ++ x.bodyBuffer.take x.bytesReceived
  | _ => []

/-- The request whose response has not been sent. -/
def unanswered (x : ClientSession) : Nat :=
  match x.state with
  | .inferencePending | .responseSending => 1
  | _ => 0

end ClientSession

/-- An open session: `bs` are the bytes that came on its connection, `ps` the payloads passed on,
and `done` is the number of responses sent. -/
structure SessionOk (x : ClientSession) (bs : List UInt8) (ps : List (List UInt8))
    (done : Nat) : Prop where
  reads : frameFormat.Reads bs ps x.kept
  answered : ps.length = done + x.unanswered
  headerBuffer : x.headerBuffer.length = 4
  header : x.state = .headerPending → x.headerBytesReceived < 4 ∧ x.bytesReceived = 0
  body : x.state = .bodyPending → x.bodyBuffer.length = x.expectedSize ∧
    x.expectedSize = ntohl x.headerBuffer ∧
    (x.bytesReceived < x.expectedSize ∨ (x.expectedSize = 0 ∧ x.bytesReceived = 0))
  notReady : x.state ≠ .readyForInference
  sent : x.state ≠ .responseSending → x.bytesSent = x.responseBuffer.length

/-- The stream is cut as far as it has come. -/
def Cut (bs : List UInt8) (ps : List (List UInt8)) : Prop :=
  ∃ rest, frameFormat.Reads bs ps rest ∧ frameFormat.Partial rest

theorem Cut.parse_eq {bs : List UInt8} {ps : List (List UInt8)} (h : Cut bs ps) :
    ps = (frameFormat.parse bs).1 := by
  obtain ⟨rest, hr, hp⟩ := h
  rw [hr.parse_eq hp]

theorem partial_short {bs : List UInt8} (h : bs.length < 4) : frameFormat.Partial bs :=
  .inr (Nat.lt_of_lt_of_le h (Nat.le_add_right _ _))

/-- A whole header and less than its payload. -/
theorem partial_header {header : List UInt8} (hh : header.length = 4) (bs : List UInt8)
    (hbs : bs.length < ntohl header ∨ ntohl header = 0) : frameFormat.Partial (header ++ bs) := by
  have htake : (header ++ bs).take 4 = header := List.take_left' hh
  simp only [Framing.Format.Partial, frameFormat, htake, List.length_append]
  omega

namespace SessionOk

variable {x : ClientSession} {bs : List UInt8} {ps : List (List UInt8)} {done : Nat}

/-- A new session of a new connection. -/
theorem new : SessionOk {} [] [] 0 where
  reads := .nil
  answered := rfl
  headerBuffer := rfl
  header _ := ⟨by decide, rfl⟩
  body h := by cases h
  notReady h := by cases h
  sent _ := rfl

theorem partial_kept (hx : SessionOk x bs ps done) : frameFormat.Partial x.kept := by
  unfold ClientSession.kept
  split <;> rename_i hst
  · refine partial_short ?_
    have := (hx.header hst).1
    rw [List.length_take]
    omega
  · obtain ⟨-, hsize, hlt⟩ := hx.body hst
    refine partial_header hx.headerBuffer _ ?_
    rw [List.length_take]
    omega
  · exact partial_short (by decide)

theorem cut (hx : SessionOk x bs ps done) : Cut bs ps := ⟨_, hx.reads, hx.partial_kept⟩

/-- A response is installed. -/
theorem install (hx : SessionOk x bs ps done) (hst : x.state = .inferencePending)
    (response : List UInt8) : SessionOk { x with
      responseBuffer := response, state := .responseSending, bytesSent := 0 } bs ps done where
  reads := by simpa [ClientSession.kept, hst] using hx.reads
  answered := by simpa [ClientSession.unanswered, hst] using hx.answered
  headerBuffer := hx.headerBuffer
  header h := by cases h
  body h := by cases h
  notReady h := by cases h
  sent h := absurd rfl h

/-- A part of the response is sent. -/
theorem send (hx : SessionOk x bs ps done) {k : Nat} (hk : 0 < k)
    (hle : x.bytesSent + k ≤ x.responseBuffer.length) : x.state = .responseSending ∧
      SessionOk { x with bytesSent := x.bytesSent + k } bs ps done := by
  have hst : x.state = .responseSending := Decidable.byContradiction fun hst => by
    have := hx.sent hst
    omega
  exact ⟨hst, hx.reads, hx.answered, hx.headerBuffer, hx.header, hx.body, hx.notReady,
    fun h => absurd hst h⟩

/-- The rest of the response is sent. -/
theorem complete (hx : SessionOk x bs ps done) {k : Nat} (hk : 0 < k)
    (heq : x.bytesSent + k = x.responseBuffer.length) :
    SessionOk ({ x with bytesSent := x.bytesSent + k } : ClientSession).reset bs ps (done + 1) := by
  obtain ⟨hst, -⟩ := hx.send hk (Nat.le_of_eq heq)
  exact {
    reads := by simpa [ClientSession.kept, ClientSession.reset, hst] using hx.reads
    answered := by simpa [ClientSession.unanswered, ClientSession.reset, hst] using hx.answered
    headerBuffer := hx.headerBuffer
    header := fun _ => ⟨Nat.succ_pos 3, rfl⟩
    body := fun h => by cases h
    notReady := fun h => by cases h
    sent := fun _ => heq }

end SessionOk

/-- A `recv` is asked for at least one byte, and to write inside its buffer. -/
theorem SessionOk.recvCall {x : ClientSession} {bs : List UInt8} {ps : List (List UInt8)}
    {done : Nat} (hx : SessionOk x bs ps done) : ∀ call ∈ x.recvCall,
      call.offset + call.length ≤ call.buffer.length ∧ 0 < call.length := by
  intro call hcall
  unfold ClientSession.recvCall at hcall
  split at hcall <;> rename_i hst
  · obtain ⟨hlt, -⟩ := hx.header hst
    cases hcall
    have hbuf := hx.headerBuffer
    simp only [sub64_of_le (show (4 : Nat) < 2 ^ 64 by decide) (Nat.le_of_lt hlt)]
    omega
  · obtain ⟨hlen, hsize, hlt⟩ := hx.body hst
    have hmax := ntohl_lt hx.headerBuffer
    split at hcall <;> rename_i hne
    · cases hcall
    · cases hcall
      simp only [sub64_of_le (show x.expectedSize < 2 ^ 64 by omega)
        (show x.bytesReceived ≤ x.expectedSize by omega)]
      omega
  · cases hcall

/-- What a read event does: the session stays right unless `resize` throws. -/
structure HandledOk (env : ReadEnv) (bs : List UInt8) (ps : List (List UInt8)) (done : Nat)
    (h : Handled) : Prop where
  cut : Cut (bs ++ h.received) (ps ++ h.task.toList.map (·.data))
  session : h.thrown = false →
    SessionOk h.session (bs ++ h.received) (ps ++ h.task.toList.map (·.data)) done
  task : ∀ task ∈ h.task, task.clientFd = env.fd ∧ task.data ≠ [] ∧
    h.session.state = .inferencePending
  before : h.received ≠ [] → ps.length = done

namespace SessionOk

variable {env : ReadEnv} {x : ClientSession} {bs : List UInt8} {ps : List (List UInt8)}
  {done : Nat} {h : Handled}

/-- A read event that brings nothing. -/
theorem unchanged (hx : SessionOk x bs ps done) {ret : Int} :
    HandledOk env bs ps done { ret := ret, session := x } := by
  refine ⟨?_, fun _ => ?_, fun task ht => ?_, fun hne => absurd rfl hne⟩
  · simpa using hx.cut
  · simpa using hx
  · cases ht

theorem processHeader (hx : SessionOk x bs ps done) (hst : x.state = .headerPending)
    (hh : processHeader env x = some h) : HandledOk env bs ps done h := by
  obtain ⟨hlt, hbody⟩ := hx.header hst
  have hbuf := hx.headerBuffer
  have hkept : x.kept = x.headerBuffer.take x.headerBytesReceived := by
    rw [ClientSession.kept, hst]
  have hans : ps.length = done := by simpa [ClientSession.unanswered, hst] using hx.answered
  simp only [Network.processHeader] at hh
  split at hh <;> rename_i hfits
  · split at hh <;> rename_i hrecv
    · rename_i bytes
      rw [hrecv] at hfits
      obtain ⟨hpos, hle⟩ := hfits
      have hreads := hx.reads.append bytes
      rw [hkept, ← take_write (by omega)] at hreads
      have hlen : (write x.headerBuffer x.headerBytesReceived bytes).length = 4 := by
        rw [length_write (by omega), hbuf]
      split at hh <;> rename_i hall
      · rw [hall, List.take_of_length_le (by omega)] at hreads
        split at hh <;> cases hh
        · have hok : SessionOk { x with
              headerBuffer := write x.headerBuffer x.headerBytesReceived bytes,
              headerBytesReceived := x.headerBytesReceived + bytes.length,
              state := .bodyPending,
              expectedSize := ntohl (write x.headerBuffer x.headerBytesReceived bytes),
              bodyBuffer := resize (ntohl (write x.headerBuffer x.headerBytesReceived bytes))
                x.bodyBuffer } (bs ++ bytes) ps done := {
            reads := by simpa [ClientSession.kept, hbody] using hreads
            answered := by simpa [ClientSession.unanswered] using hans
            headerBuffer := hlen
            header := fun hc => by cases hc
            body := fun _ => ⟨length_resize _ _, rfl, by simp only; omega⟩
            notReady := fun hc => by cases hc
            sent := fun _ => hx.sent (by rw [hst]; decide) }
          exact ⟨by simpa using hok.cut, fun _ => by simpa using hok, fun _ ht => (nomatch ht),
            fun _ => hans⟩
        · refine ⟨⟨_, by simpa using hreads, ?_⟩, fun hc => (nomatch hc), fun _ ht => (nomatch ht),
            fun _ => hans⟩
          have := partial_header hlen [] (by simp only [List.length_nil]; omega)
          rwa [List.append_nil] at this
      · cases hh
        have hok : SessionOk { x with
            headerBuffer := write x.headerBuffer x.headerBytesReceived bytes,
            headerBytesReceived := x.headerBytesReceived + bytes.length } (bs ++ bytes) ps
            done := {
          reads := by simpa [ClientSession.kept, hst] using hreads
          answered := by simpa [ClientSession.unanswered, hst] using hans
          headerBuffer := hlen
          header := fun _ => ⟨by simp only; omega, hbody⟩
          body := fun hc => by rw [hst] at hc; cases hc
          notReady := hx.notReady
          sent := hx.sent }
        exact ⟨by simpa using hok.cut, fun _ => by simpa using hok, fun _ ht => (nomatch ht),
          fun _ => hans⟩
    · cases hh
      exact hx.unchanged
    · cases hh
      exact hx.unchanged
    · cases hh
      exact hx.unchanged
  · cases hh

theorem processBody (hx : SessionOk x bs ps done) (hst : x.state = .bodyPending)
    (hh : processBody env x = some h) : HandledOk env bs ps done h := by
  obtain ⟨hlen, hsize, hlt⟩ := hx.body hst
  have hkept : x.kept = x.headerBuffer ++ x.bodyBuffer.take x.bytesReceived := by
    rw [ClientSession.kept, hst]
  have hans : ps.length = done := by simpa [ClientSession.unanswered, hst] using hx.answered
  simp only [Network.processBody, finalizeRequest] at hh
  split at hh <;> rename_i hempty
  · cases hh
    exact hx.unchanged
  · split at hh <;> rename_i hfits
    · split at hh <;> rename_i hrecv
      · rename_i bytes
        rw [hrecv] at hfits
        obtain ⟨hpos, hle⟩ := hfits
        have hreads := hx.reads.append bytes
        rw [hkept, List.append_assoc, ← take_write (by omega)] at hreads
        have hlen' : (write x.bodyBuffer x.bytesReceived bytes).length = x.expectedSize := by
          rw [length_write (by omega), hlen]
        split at hh <;> rename_i hall <;> cases hh
        · rw [hall, List.take_of_length_le (by omega)] at hreads
          have hne : write x.bodyBuffer x.bytesReceived bytes ≠ [] := by
            rw [← List.length_pos_iff]
            omega
          have hframe := hreads.frame hx.headerBuffer (by rw [hlen', hsize]; rfl) hne
          have hok : SessionOk { x with
              bodyBuffer := [], bytesReceived := x.bytesReceived + bytes.length,
              state := .inferencePending } (bs ++ bytes)
              (ps ++ [write x.bodyBuffer x.bytesReceived bytes]) done := {
            reads := hframe
            answered := by simp [ClientSession.unanswered, hans]
            headerBuffer := hx.headerBuffer
            header := fun hc => by cases hc
            body := fun hc => by cases hc
            notReady := fun hc => by cases hc
            sent := fun _ => hx.sent (by rw [hst]; decide) }
          refine ⟨hok.cut, fun _ => hok, fun task ht => ?_, fun _ => hans⟩
          cases ht
          exact ⟨rfl, hne, rfl⟩
        · have hok : SessionOk { x with
              bodyBuffer := write x.bodyBuffer x.bytesReceived bytes,
              bytesReceived := x.bytesReceived + bytes.length } (bs ++ bytes) ps done := {
            reads := by simpa [ClientSession.kept, hst] using hreads
            answered := by simpa [ClientSession.unanswered, hst] using hans
            headerBuffer := hx.headerBuffer
            header := fun hc => by rw [hst] at hc; cases hc
            body := fun _ => ⟨hlen', hsize, by simp only; omega⟩
            notReady := hx.notReady
            sent := hx.sent }
          exact ⟨by simpa using hok.cut, fun _ => by simpa using hok, fun _ ht => (nomatch ht),
            fun _ => hans⟩
      · cases hh
        exact hx.unchanged
      · cases hh
        exact hx.unchanged
      · cases hh
        exact hx.unchanged
    · cases hh

/-- A read event, in any state of the session. -/
theorem handleClientData (hx : SessionOk x bs ps done)
    (hh : handleClientData env x = some h) : HandledOk env bs ps done h := by
  simp only [Network.handleClientData] at hh
  split at hh <;> rename_i hst
  · exact hx.processHeader hst hh
  · exact hx.processBody hst hh
  · exact absurd hst hx.notReady
  · cases hh
    exact hx.unchanged
  · cases hh
    exact hx.unchanged

end SessionOk

end Lumen.Network
