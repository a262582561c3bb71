import Lumen.Models.ImageNetProcessor
import Lumen.Network.Proof.Rounds

/-!
# The transmission of responses

`transmission h c` is the response that is being sent on a connection, with the bytes of it that
have been sent, as a run shows them. With the processors of the repository no response is empty
(`response_ne_nil`). Hence a session that sends always has a byte left to send, and every
response is sent whole, once and in order, in every run (`transmitted`).
-/

set_option autoImplicit false

namespace Lumen.Network

open Lumen.Lib Lumen.Core Lumen.Concurrency Lumen.Models

variable {ι : Type*}

/-! ## What a run shows of a response -/

/-- A response, and the bytes of it that have been sent. -/
structure Transmission where
  response : List UInt8
  sent : List UInt8
  deriving DecidableEq

namespace Event

def transmits : Event ι → Bool
  | .installed _ _ _ | .sent _ _ | .completed _ => true
  | _ => false

/-- The transmission on the connection `c` after the event. -/
def transmit (c : ConnId) (t : Option Transmission) : Event ι → Option Transmission
  | .installed c' _ result => if c' = c then some { response := result.response, sent := [] } else t
  | .sent c' bytes => if c' = c then t.map fun t => { t with sent := t.sent ++ bytes } else t
  | .completed c' => if c' = c then none else t
  | _ => t

end Event

def transmission (h : List (Event ι)) (c : ConnId) : Option Transmission :=
  h.foldl (Event.transmit c) none

/-- A response is installed when none is being sent; a send continues it; it is completed when all
of it has been sent. -/
def Exact (h : List (Event ι)) : Event ι → Prop
  | .installed c _ _ => transmission h c = none
  | .sent c bytes => bytes ≠ [] ∧
    ∃ t, transmission h c = some t ∧ t.sent ++ bytes <+: t.response
  | .completed c => ∃ t, transmission h c = some t ∧ t.sent = t.response
  | _ => True

section
variable {h es : List (Event ι)} {c : ConnId} {e : Event ι}

theorem transmission_append (h es : List (Event ι)) (c : ConnId) :
    transmission (h ++ es) c = es.foldl (Event.transmit c) (transmission h c) := List.foldl_append

theorem transmission_one (h : List (Event ι)) (e : Event ι) (c : ConnId) :
    transmission (h ++ [e]) c = e.transmit c (transmission h c) := transmission_append h [e] c

/-- Events of other kinds. -/
def Untransmitted (es : List (Event ι)) : Prop := ∀ e ∈ es, e.transmits = false

theorem exact_quiet (he : e.transmits = false) : Exact h e := by
  cases e with
  | installed c job res => cases he
  | sent c bytes => cases he
  | completed c => cases he
  | _ => trivial

namespace Untransmitted

theorem transmission (hes : Untransmitted es) (h : List (Event ι)) (c : ConnId) :
    transmission (h ++ es) c = Network.transmission h c := by
  rw [transmission_append]
  generalize Network.transmission h c = t
  induction es with
  | nil => rfl
  | cons e es ih =>
    have he : e.transmit c t = t := by
      have := hes e List.mem_cons_self
      cases e with
      | installed c job res => cases this
      | sent c bytes => cases this
      | completed c => cases this
      | _ => rfl
    rw [List.foldl_cons, he]
    exact ih fun e' he' => hes e' (List.mem_cons_of_mem _ he')

theorem exact (hes : Untransmitted es) (hp : Past Exact h) : Past Exact (h ++ es) :=
  hp.append fun _ e _ heq =>
    exact_quiet (hes e (heq ▸ List.mem_append_right _ List.mem_cons_self))

theorem append {es' : List (Event ι)} (hes : Untransmitted es) (hes' : Untransmitted es') :
    Untransmitted (es ++ es') := fun e he => (List.mem_append.1 he).elim (hes e) (hes' e)

theorem pool (es : List (ThreadPool.Event ι ConnId)) :
    Untransmitted (es.map .pool : List (Event ι)) := fun e he => by
  obtain ⟨e, -, rfl⟩ := List.mem_map.1 he
  rfl

theorem one (he : e.transmits = false) : Untransmitted [e] := fun e' he' => by
  rwa [List.mem_singleton.1 he']

theorem readable (c : ConnId) (bytes : List UInt8) :
    Untransmitted (.readable c :: receivedEvents c bytes : List (Event ι)) := by
  unfold receivedEvents
  split
  · exact one rfl
  · exact append (one rfl) (one rfl)

end Untransmitted
end

/-! ## The responses of the repository -/

/-- The engines call the post-processors of the repository: the pointer `post` has the label file
`files post`, and `read` is the buffer of a tensor. -/
def ImageNet (setup : Setup ι) : Prop :=
  ∀ i, ∃ (files : Nat → Option (List UInt8)) (Float : Type) (lt : Float → Float → Bool)
    (read : Tensor → Option (List Float)), ∀ post output count,
      (setup.pool.engine i).handleResults post output count =
        (ImageNetPostProcessor.new (files post)).handleResults lt (read output) count

theorem response_ne_nil {setup : Setup ι} {job : Job ConnId} {result : InferenceResult}
    (himg : ImageNet setup) (hm : ThreadPool.Made setup.pool job result) :
    result.response ≠ [] := by
  obtain ⟨i, env, trace, allocator, allocator', -, hrun⟩ := hm
  rcases InferenceEngine.run_ok hrun with rfl | ⟨post, output, count, response, hpost, rfl⟩
  · intro h
    cases h
  · obtain ⟨files, Float, lt, read, hread⟩ := himg i
    rw [hread] at hpost
    exact ImageNetPostProcessor.handleResults_ne_nil hpost

/-! ## Sessions -/

/-- An open session: while it sends, so much of its response has been sent, and not all of it. -/
structure Sends (t : Option Transmission) (x : ClientSession) : Prop where
  sending : x.state = .responseSending →
    t = some { response := x.responseBuffer, sent := x.responseBuffer.take x.bytesSent } ∧
      x.bytesSent < x.responseBuffer.length
  resting : x.state ≠ .responseSending → t = none ∧ x.bytesSent = x.responseBuffer.length

/-- A read event leaves the response alone. -/
theorem handleClientData_response {env : ReadEnv} {x : ClientSession} {hd : Handled}
    (hh : handleClientData env x = some hd) : hd.session.responseBuffer = x.responseBuffer ∧
      hd.session.bytesSent = x.bytesSent ∧
        (x.state = .responseSending → hd.session = x) ∧
          (hd.session.state = .responseSending → x.state = .responseSending) := by
  unfold handleClientData at hh
  split at hh <;> rename_i hst
  · simp only [processHeader] at hh
    (repeat' split at hh) <;> cases hh <;> simp [hst]
  · simp only [processBody, finalizeRequest] at hh
    (repeat' split at hh) <;> cases hh <;> simp [hst]
  · cases hh
    simp [hst]
  · cases hh
    simp
  · cases hh
    simp

namespace Sends

variable {t : Option Transmission} {x : ClientSession}

theorem new : Sends none {} where
  sending h := by cases h
  resting _ := ⟨rfl, rfl⟩

theorem install (response : List UInt8) (hne : response ≠ []) :
    Sends (some { response := response, sent := [] }) { x with
      responseBuffer := response, state := .responseSending, bytesSent := 0 } where
  sending _ := ⟨rfl, List.length_pos_iff.2 hne⟩
  resting h := absurd rfl h

theorem handle (hx : Sends t x) {env : ReadEnv} {hd : Handled}
    (hh : handleClientData env x = some hd) : Sends t hd.session := by
  obtain ⟨hbuf, hsent, hsame, hback⟩ := handleClientData_response hh
  by_cases hst : x.state = .responseSending
  · rw [hsame hst]
    exact hx
  · refine ⟨fun h => absurd (hback h) hst, fun _ => ?_⟩
    rw [hbuf, hsent]
    exact hx.resting hst

/-- There is a byte left to send only while the session sends. -/
theorem state (hx : Sends t x) {k : Nat} (hk : 0 < k)
    (hle : x.bytesSent + k ≤ x.responseBuffer.length) : x.state = .responseSending :=
  Decidable.byContradiction fun hst => by
    have := (hx.resting hst).2
    omega

/-- A part of the response is sent. -/
theorem send (hx : Sends t x) {k : Nat} (hk : 0 < k)
    (hlt : x.bytesSent + k < x.responseBuffer.length) :
    Sends (t.map fun t => { t with
      sent := t.sent ++ (x.responseBuffer.drop x.bytesSent).take k })
      { x with bytesSent := x.bytesSent + k } := by
  have hst := hx.state hk (Nat.le_of_lt hlt)
  refine ⟨fun _ => ⟨?_, hlt⟩, fun h => absurd hst h⟩
  rw [(hx.sending hst).1, Option.map_some, ← List.take_add]

theorem complete {k : Nat} (heq : x.bytesSent + k = x.responseBuffer.length) :
    Sends none ({ x with bytesSent := x.bytesSent + k } : ClientSession).reset where
  sending h := by cases h
  resting _ := ⟨rfl, heq⟩

/-- What a send adds continues the response. -/
theorem extends_response (hx : Sends t x) {k : Nat} (hk : 0 < k)
    (hle : x.bytesSent + k ≤ x.responseBuffer.length) :
    (x.responseBuffer.drop x.bytesSent).take k ≠ [] ∧ ∃ t', t = some t' ∧
      t'.sent ++ (x.responseBuffer.drop x.bytesSent).take k =
        x.responseBuffer.take (x.bytesSent + k) ∧ t'.response = x.responseBuffer := by
  refine ⟨fun h => ?_, _, (hx.sending (hx.state hk hle)).1, List.take_add.symm, rfl⟩
  have := congrArg List.length h
  rw [List.length_take, List.length_drop, List.length_nil] at this
  omega

end Sends

/-! ## Runs -/

structure Sending (h : List (Event ι)) (s : State ι) : Prop where
  session : ∀ fd x c, s.server.sessions fd = some x → s.conns fd = some c →
    Sends (transmission h c) x
  fresh : ∀ c, s.nextConn ≤ c → transmission h c = none
  exact : Past Exact h

namespace Sending

variable {setup : Setup ι} {h es : List (Event ι)} {s s' : State ι} {fd : Fd} {c : ConnId}
  {x : ClientSession} {pool : ThreadPool.State ι ConnId}

theorem init [DecidableEq ι] : Sending [] (State.init setup) where
  session _ _ _ h := by cases h
  fresh _ _ := rfl
  exact := .nil

theorem each (hi : Sending h s) : EachSession Sends (transmission h) s := hi.session

/-- The events are of an open connection. -/
theorem unused (hi : Sending h s) (ht : Table setup s) (hc : s.conns fd = some c)
    (hes : ∀ c', c' ≠ c → transmission (h ++ es) c' = transmission h c')
    (hnext : s'.nextConn = s.nextConn) {c' : ConnId} (hc' : s'.nextConn ≤ c') :
    transmission (h ++ es) c' = none := by
  rw [hnext] at hc'
  rw [hes c' (Nat.ne_of_gt (Nat.lt_of_lt_of_le (ht.conn_lt fd c hc) hc'))]
  exact hi.fresh c' hc'

theorem set (hi : Sending h s) (ht : Table setup s) (hc : s.conns fd = some c)
    (hes : ∀ c', c' ≠ c → transmission (h ++ es) c' = transmission h c')
    (hb : Becomes s s' (Function.update s.server.sessions fd (some x)) s.conns pool)
    (hx : Sends (transmission (h ++ es) c) x) (hexact : Past Exact (h ++ es)) :
    Sending (h ++ es) s' :=
  ⟨hi.each.set ht hc hes hb hx, fun _ => hi.unused ht hc hes hb.nextConn, hexact⟩

theorem drop (hi : Sending h s) (ht : Table setup s) (hc : s.conns fd = some c)
    (hes : Untransmitted es) (hb : Becomes s s' (Function.update s.server.sessions fd none)
      (Function.update s.conns fd none) pool) : Sending (h ++ es) s' := by
  have hview : ∀ c', c' ≠ c → transmission (h ++ es) c' = transmission h c' :=
    fun c' _ => hes.transmission h c'
  exact ⟨hi.each.drop ht hc hview hb, fun _ => hi.unused ht hc hview hb.nextConn,
    hes.exact hi.exact⟩

/-- No session changes. -/
theorem quiet (hi : Sending h s) (hes : Untransmitted es)
    (hb : Becomes s s' s.server.sessions s.conns pool) : Sending (h ++ es) s' := by
  refine ⟨hi.each.keep (hes.transmission h) hb.sessions hb.conns, fun c hc => ?_,
    hes.exact hi.exact⟩
  rw [hes.transmission]
  exact hi.fresh c (hb.nextConn ▸ hc)

variable [DecidableEq ι]

theorem effect (hi : Sending h s) (himg : ImageNet setup) (hv : Served setup h s)
    (he : Effect setup s es s') : Sending (h ++ es) s' := by
  have ht := hv.table
  cases he with
  | idle hb => exact hi.quiet (fun _ he => by cases he) hb
  | worker hmay hstep hb => exact hi.quiet (.pool _) hb
  | popped hnone hb => exact hi.quiet (.pool _) hb
  | @installed _ job res results x c trace hres hx hc hb =>
    obtain ⟨hmade, -, hwait⟩ := hv.result hres hx
    have hpool := Untransmitted.pool (popImmediate setup s.pool).1
    have htraced : Untransmitted ((trace.map .traced).toList : List (Event ι)) := fun e he => by
      obtain ⟨t, -, rfl⟩ := Option.map_eq_some_iff.1 (Option.mem_toList.1 he)
      rfl
    have hnone : transmission (h ++ (popImmediate setup s.pool).1.map .pool) c = none := by
      rw [hpool.transmission]
      exact ((hi.session _ x c hx hc).resting (by rw [hwait]; decide)).1
    have hes : ∀ c', transmission (h ++ ((popImmediate setup s.pool).1.map .pool ++
        ([.installed c job res] ++ (trace.map .traced).toList))) c' =
        (Event.installed c job res : Event ι).transmit c' (transmission h c') := fun c' => by
      rw [← List.append_assoc, ← List.append_assoc, htraced.transmission, transmission_one,
        hpool.transmission]
    refine hi.set ht hc (fun c' hc' => ?_) hb ?_ ?_
    · rw [hes, Event.transmit, if_neg (Ne.symm hc')]
    · rw [hes, Event.transmit, if_pos rfl]
      exact .install res.response (response_ne_nil himg hmade)
    · rw [← List.append_assoc, ← List.append_assoc]
      exact htraced.exact ((hpool.exact hi.exact).append_one hnone)
  | @opened _ fd hfree hx hs hc hn hp =>
    have hes : Untransmitted ([.opened s.nextConn fd] : List (Event ι)) := .one rfl
    refine ⟨hi.each.opened (hes.transmission h) hs hc ?_, fun c' hc' => ?_, hes.exact hi.exact⟩
    · rw [hi.fresh s.nextConn (Nat.le_refl _)]
      exact .new
    · rw [hes.transmission]
      rw [hn] at hc'
      exact hi.fresh c' (Nat.le_of_succ_le hc')
  | @read _ fd x c recv memory now hd hx hc hw hh htask hret hthrown hb =>
    have hes := Untransmitted.readable (ι := ι) c hd.received
    refine hi.set ht hc (fun c' _ => hes.transmission h c') hb ?_ (hes.exact hi.exact)
    rw [hes.transmission]
    exact (hi.session fd x c hx hc).handle hh
  | @readClosed _ fd x c recv memory now hd hx hc hw hh htask hret hb =>
    exact hi.drop ht hc ((Untransmitted.readable c hd.received).append (.one rfl)) hb
  | @submitted _ fd x c recv memory now hd task hx hc hw hh htask hb =>
    have hes := (Untransmitted.readable (ι := ι) c hd.received).append ((Untransmitted.pool
      (push setup s.pool { task := task, tag := c }).2.1).append (.one (e := .pushed c task.data
        (push setup s.pool { task := task, tag := c }).1) rfl))
    rw [List.cons_append] at hes
    refine hi.set ht hc (fun c' _ => hes.transmission h c') hb ?_ (hes.exact hi.exact)
    rw [hes.transmission]
    exact (hi.session fd x c hx hc).handle hh
  | @sent _ fd x c k hx hc hw hk hlt hb =>
    have hs := hi.session fd x c hx hc
    obtain ⟨hne, t, ht', hsent, hresp⟩ := hs.extends_response hk (Nat.le_of_lt hlt)
    refine hi.set ht hc (fun c' hc' => ?_) hb ?_ (hi.exact.append_one ⟨hne, t, ht', ?_⟩)
    · rw [transmission_one, Event.transmit, if_neg (Ne.symm hc')]
    · rw [transmission_one, Event.transmit, if_pos rfl]
      exact hs.send hk hlt
    · rw [hsent, hresp]
      exact List.take_prefix _ _
  | @completed _ fd x c k hx hc hw hk heq hb =>
    have hs := hi.session fd x c hx hc
    obtain ⟨hne, t, ht', hsent, hresp⟩ := hs.extends_response hk (Nat.le_of_eq heq)
    have hall := transmission_one h (.sent c ((x.responseBuffer.drop x.bytesSent).take k)) c
    rw [Event.transmit, if_pos rfl, ht', Option.map_some, hsent, heq, List.take_length] at hall
    have hes : ∀ c', transmission (h ++ [.sent c ((x.responseBuffer.drop x.bytesSent).take k),
        .completed c]) c' = if c = c' then none else transmission h c' := fun c' => by
      rw [transmission_append]
      simp only [List.foldl_cons, List.foldl_nil, Event.transmit]
      split <;> rfl
    refine hi.set ht hc (fun c' hc' => ?_) hb ?_ ?_
    · rw [hes, if_neg (Ne.symm hc')]
    · rw [hes, if_pos rfl]
      exact .complete heq
    · have hfirst : Exact h (.sent c ((x.responseBuffer.drop x.bytesSent).take k)) :=
        ⟨hne, t, ht', by rw [hsent, hresp]; exact List.take_prefix _ _⟩
      have hsecond : Exact (h ++ [.sent c ((x.responseBuffer.drop x.bytesSent).take k)])
          (.completed c) := ⟨_, hall, hresp.symm⟩
      have hboth := (hi.exact.append_one hfirst).append_one hsecond
      rwa [List.append_assoc] at hboth
  | @sendClosed _ fd x c hx hc hw hb => exact hi.drop ht hc (.one rfl) hb

end Sending

/-! ## What is polled for -/

/-- The session of `fd` sends its response. -/
def State.Transmitting (s : State ι) (fd : Fd) : Prop :=
  ∃ x, s.server.sessions fd = some x ∧ x.state = .responseSending

/-- The entries that are polled for `POLLOUT` are those of the sessions that send, until they are
dispatched. -/
structure Requested (s : State ι) : Prop where
  asked : s.pc = .poll → ∀ p ∈ s.server.pollfds, p.fd ≠ s.server.sockfd →
    (p.events.pollout = true ↔ s.Transmitting p.fd)
  told : ∀ i n, s.pc = .dispatch i n → ∀ p ∈ s.server.pollfds.drop i, p.events.pollout = true →
    s.Transmitting p.fd

section
variable {setup : Setup ι} {es : List (Event ι)} {s s' : State ι} {i n : Nat} {p : Pollfd}

theorem Requested.away (hpoll : s.pc ≠ .poll) (hdisp : ∀ i n, s.pc ≠ .dispatch i n) :
    Requested s :=
  ⟨fun h => absurd h hpoll, fun i n h => absurd h (hdisp i n)⟩

/-- Before `poll`. -/
theorem Requested.select (ht : Table setup s) (hpc : s'.pc = .poll)
    (hserver : s'.server = s.server.selectEvents) : Requested s' := by
  have hsess : s'.server.sessions = s.server.sessions := hserver ▸ ht.selectEvents_sessions
  have hsock : s'.server.sockfd = setup.sockfd := by
    rw [hserver, ← ht.sockfd]
    unfold TCPServer.selectEvents
    split <;> rfl
  refine ⟨fun _ p hp hfd => ?_, fun i n h => ?_⟩
  · rw [hserver] at hp
    rcases mem_selectEvents hp with hp | ⟨q, hq, rfl⟩
    · have hh := ht.head
      rw [State.fds, List.head?_map, hp, Option.map_some, Option.some.injEq] at hh
      exact absurd hh (hsock ▸ hfd)
    · have hmem := List.mem_of_mem_tail hq
      obtain ⟨j, hj⟩ := List.mem_iff_getElem?.1 hmem
      obtain ⟨x, -, hx, -⟩ := ht.client hj (ht.tail_fd_ne hq)
      simp only [State.Transmitting, hsess, hx, session_eq hx, Option.some.injEq, exists_eq_left']
      cases x.state <;> simp [TCPServer.eventsOf, PollBits.none, PollBits.pollIn, PollBits.pollOut]
  · rw [hpc] at h
    cases h

/-- After `poll`. -/
theorem Requested.poll (hreq : Requested s) (ht : Table setup s) (hpc : s.pc = .poll)
    {revents : Option (List PollBits)} (hs : Network.poll s revents = some s') : Requested s' := by
  cases revents with
  | none =>
    cases hs
    exact .away (fun h => by cases h) fun _ _ h => by cases h
  | some revents =>
    simp only [Network.poll] at hs
    split at hs <;> rename_i hr
    · cases hs
      refine ⟨fun h => (by cases h), fun i n _ p hp hout => ?_⟩
      obtain ⟨q, hq, r, rfl, -⟩ := (mem_zipWith_revents hr).2 p (List.mem_of_mem_drop hp)
      refine (hreq.asked hpc q hq fun hfd => ?_).1 hout
      rw [(ht.listener q hq (hfd.trans ht.sockfd)).1] at hout
      cases hout
    · cases hs

/-- The step changes only the session of `fd`, and adds no entry. -/
def Frame (s : State ι) (fd : Fd) (s' : State ι) : Prop :=
  (∀ fd', fd' ≠ fd → s'.server.sessions fd' = s.server.sessions fd') ∧
    ∀ q ∈ s'.server.pollfds, q ∈ s.server.pollfds

theorem Frame.update {y : Option ClientSession}
    (hsess : s'.server.sessions = Function.update s.server.sessions p.fd y)
    (hpoll : s'.server.pollfds = s.server.pollfds) : Frame s p.fd s' :=
  ⟨fun _ hne => hsess ▸ Function.update_of_ne hne _ _, fun _ hq => hpoll ▸ hq⟩

theorem Frame.close {y : Option ClientSession} (hp : s.server.pollfds[i]? = some p)
    (hsess : s'.server.sessions = Function.update (Function.update s.server.sessions p.fd y) p.fd
      none) (hpoll : s'.server.pollfds = swapRemove s.server.pollfds i) : Frame s p.fd s' := by
  refine ⟨fun fd' hne => ?_, fun q hq => ?_⟩
  · rw [hsess, Function.update_idem, Function.update_of_ne hne]
  · exact (swapRemove_perm hp).mem_iff.2 (List.mem_cons_of_mem _ (hpoll ▸ hq))

theorem read_frame (hp : s.server.pollfds[i]? = some p) {recv : Recv} {memory : Bool} {now : Rat}
    (hs : read setup s i n p.fd recv memory now = some (es, s')) : Frame s p.fd s' := by
  simp only [read, Option.map_eq_some_iff] at hs
  obtain ⟨h, -, hs⟩ := hs
  cases htask : h.task with
  | none =>
    simp only [handled, htask] at hs
    split at hs
    · cases hs
      exact .update rfl rfl
    · split at hs <;> cases hs
      · exact .close hp rfl rfl
      · exact .update rfl rfl
  | some task =>
    simp only [handled, htask] at hs
    split at hs
    · cases hs
      exact .update rfl rfl
    · split at hs <;> cases hs
      · exact .close hp rfl rfl
      · exact .update rfl rfl

theorem send_frame (hp : s.server.pollfds[i]? = some p) {r : Send}
    (hs : send s i n p.fd r = some (es, s')) : Frame s p.fd s' := by
  unfold send at hs
  simp only at hs
  split at hs
  · split at hs
    · split at hs
      · split at hs <;> cases hs <;> exact .update (Function.update_idem _ _ _) rfl
      · cases hs
        exact .update rfl rfl
    · cases hs
      exact .update rfl rfl
    · cases hs
      exact .close hp rfl rfl
    · cases hs
      exact .update rfl rfl
  · cases hs

variable [DecidableEq ι]

/-- The dispatch of an entry changes no other session, and a new entry is polled for `POLLIN`. -/
theorem dispatch_frame (ht : Table setup s) (hpc : s.pc = .dispatch i n) (hi : i < n)
    (hp : s.server.pollfds[i]? = some p) {choice : Choice}
    (hs : step setup s (.server choice) = some (es, s')) :
    (∀ fd ∈ s.fds, fd ≠ p.fd → s'.server.sessions fd = s.server.sessions fd) ∧
      ∀ q ∈ s'.server.pollfds, q ∈ s.server.pollfds ∨ q.events = .pollIn := by
  have hframe : Frame s p.fd s' → (∀ fd ∈ s.fds, fd ≠ p.fd → s'.server.sessions fd =
      s.server.sessions fd) ∧ ∀ q ∈ s'.server.pollfds, q ∈ s.server.pollfds ∨ q.events = .pollIn :=
    fun hf => ⟨fun fd _ hne => hf.1 fd hne, fun q hq => .inl (hf.2 q hq)⟩
  simp only [step, serve, hpc, dispatch, if_pos hi, hp] at hs
  split at hs
  · split at hs <;> rename_i hfd
    · split at hs
      · rename_i fd
        unfold accept at hs
        split at hs
        · cases hs
          exact ⟨fun _ _ _ => rfl, fun q hq => .inl hq⟩
        · split at hs <;> rename_i hfree <;> cases hs
          refine ⟨fun fd' hmem _ => Function.update_of_ne (fun he => ?_) _ _, fun q hq => ?_⟩
          · have := (ht.conns fd').2 ⟨hmem, he ▸ hfree.2⟩
            rw [he, hfree.1] at this
            cases this
          · rcases List.mem_append.1 hq with hq | hq
            · exact .inl hq
            · rw [List.mem_singleton.1 hq]
              exact .inr rfl
      · cases hs
    · split at hs
      · exact hframe (read_frame hp hs)
      · cases hs
  · split at hs
    · split at hs
      · exact hframe (send_frame hp hs)
      · cases hs
    · cases hs
      exact hframe ⟨fun _ _ => rfl, fun _ hq => hq⟩

theorem Requested.dispatch (hreq : Requested s) (hv : Table setup s ∧ Polled s)
    (hpc : s.pc = .dispatch i n) (hi : i < n) {choice : Choice}
    (hs : step setup s (.server choice) = some (es, s')) : Requested s' := by
  obtain ⟨ht, hp⟩ := hv
  obtain ⟨p, hentry, hvis⟩ := dispatch_visits ht hp hpc hi hs
  obtain ⟨hsess, hnew⟩ := dispatch_frame ht hpc hi hentry hs
  -- what is left to dispatch was so before, or is new
  have htodo : ∀ q, q ∈ s.server.pollfds.drop (i + 1) ∨ q.events = .pollIn →
      q.events.pollout = true → s'.Transmitting q.fd := by
    intro q hq hout
    rcases hq with hq | hq
    · obtain ⟨x, hx, hst⟩ := hreq.told i n hpc q (by
        rw [← List.drop_drop] at hq
        exact List.mem_of_mem_drop hq) hout
      exact ⟨x, (hsess q.fd (List.mem_map_of_mem (List.mem_of_mem_drop hq))
        (ht.fd_ne hentry hq)).trans hx, hst⟩
    · rw [hq] at hout
      cases hout
  refine ⟨fun h => ?_, fun j m h q hq => htodo q ?_⟩
  · cases hvis with
    | next h' => cases h'.symm.trans h
    | accepted q' _ h' => cases h'.symm.trans h
    | closed c front _ _ h' => cases h'.symm.trans h
    | left exit h' => cases h'.symm.trans h
  · cases hvis with
    | next h' hpoll =>
      cases h'.symm.trans h
      exact .inl (hpoll ▸ hq)
    | accepted q' _ h' hpoll hfresh =>
      cases h'.symm.trans h
      rw [hpoll, List.drop_append] at hq
      rcases List.mem_append.1 hq with hq | hq
      · exact .inl hq
      · have hq' := List.mem_singleton.1 (List.mem_of_mem_drop hq)
        refine (hnew q (by rw [hpoll, hq']; simp)).elim (fun hold => ?_) .inr
        exact absurd (List.mem_map_of_mem hold) (hq' ▸ hfresh)
    | closed c front _ _ h' hpoll =>
      cases h'.symm.trans h
      exact .inl (swapRemove_drop hentry q (hpoll ▸ hq))
    | left exit h' => cases h'.symm.trans h

theorem Requested.step (hreq : Requested s) (hv : Table setup s ∧ Polled s) {l : Label ι}
    (hs : Network.step setup s l = some (es, s')) : Requested s' := by
  cases l with
  | worker i act =>
    simp only [Network.step] at hs
    split at hs
    · obtain ⟨r, -, he⟩ := Option.map_eq_some_iff.1 hs
      cases he
      exact ⟨hreq.asked, hreq.told⟩
    · cases hs
  | signal =>
    cases hs
    exact ⟨hreq.asked, hreq.told⟩
  | server choice =>
    cases hpc : s.pc with
    | loopTest =>
      simp only [Network.step, serve, hpc] at hs
      cases hs
      refine .away ?_ fun i n => ?_ <;> simp only <;> split <;> exact fun h => by cases h
    | handleResponses =>
      simp only [Network.step, serve, hpc] at hs
      split at hs
      · rename_i now
        unfold handleResponses at hs
        split at hs
        · cases hs
          exact .select hv.1 rfl rfl
        · cases hs
          exact .away (fun h => by cases hpc.symm.trans h) fun i n h => by cases hpc.symm.trans h
      · cases hs
    | poll =>
      simp only [Network.step, serve, hpc] at hs
      split at hs
      · obtain ⟨s1, hs1, he⟩ := Option.map_eq_some_iff.1 hs
        cases he
        exact hreq.poll hv.1 hpc hs1
      · cases hs
    | dispatch i n =>
      by_cases hi : i < n
      · exact hreq.dispatch hv hpc hi hs
      · simp only [Network.step, serve, hpc, Network.dispatch, if_neg hi] at hs
        cases hs
        exact .away (fun h => by cases h) fun _ _ h => by cases h
    | left exit =>
      simp only [Network.step, serve, hpc] at hs
      cases hs

end

/-! ## The sends -/

namespace ClientSession

/-- The session waits for a new request, and nothing of one has come. -/
def Renewed (x : ClientSession) : Prop :=
  x.state = .headerPending ∧ x.headerBytesReceived = 0 ∧ x.bytesReceived = 0 ∧
    x.expectedSize = 0 ∧ x.bodyBuffer = []

/-- The session once `send` has taken `k` bytes. -/
def advance (x : ClientSession) (k : Nat) : ClientSession :=
  if x.bytesSent + k = x.responseBuffer.length then
    ({ x with bytesSent := x.bytesSent + k } : ClientSession).reset
  else { x with bytesSent := x.bytesSent + k }

end ClientSession

/-- The `send` for the entry `p` at `i`: `send` is asked for at least one byte, takes one or more of
those that are left, and the session goes on by so many; where it would block, nothing happens. -/
structure Writable [DecidableEq ι] (setup : Setup ι) (s : State ι) (i n : Nat) (p : Pollfd)
    (x : ClientSession) : Prop where
  session : s.server.sessions p.fd = some x
  state : x.state = .responseSending
  left : 0 < x.responseBuffer.length - x.bytesSent
  sent : ∀ k, 0 < k → k ≤ x.responseBuffer.length - x.bytesSent →
    step setup s (.server (.send (.sent k))) = some
      (.sent (s.conn p.fd) ((x.responseBuffer.drop x.bytesSent).take k) ::
        if x.bytesSent + k = x.responseBuffer.length then [.completed (s.conn p.fd)] else [],
      { s with server := s.server.setSession p.fd (x.advance k), pc := .dispatch (i + 1) n })
  none_sent : step setup s (.server (.send (.sent 0))) = none
  again : step setup s (.server (.send .again)) = some ([], { s with pc := .dispatch (i + 1) n })

@[simp] theorem completed_notMem (c c' : ConnId) (bs : List UInt8) :
    .completed c ∉ (receivedEvents c' bs : List (Event ι)) := by
  unfold receivedEvents
  split <;> simp

/-- What holds of the responses in every state of a run. Where `poll` reports a descriptor writable
whose session sends, the `send` is of at least one byte (`writable`), and each entry that has asked
for that belongs to such a session (`asked`); the entry of a client that has just been accepted has
asked for nothing yet, and its session does not send. -/
structure Transmitted [DecidableEq ι] (setup : Setup ι) (h : List (Event ι)) (s : State ι) :
    Prop where
  exact : Past Exact h
  session : ∀ fd x c, s.server.sessions fd = some x → s.conns fd = some c →
    Sends (transmission h c) x
  returns : ∀ l es s' fd x x' c, step setup s l = some (es, s') →
    s.server.sessions fd = some x → s.conns fd = some c → x.state = .responseSending →
      s'.server.sessions fd = some x' →
        (.completed c ∈ es → x'.Renewed) ∧
          (.completed c ∉ es → x'.state = .responseSending ∧ x'.responseBuffer = x.responseBuffer)
  polled : s.pc = .poll → ∀ p ∈ s.server.pollfds, p.fd ≠ setup.sockfd →
    (p.events.pollout = true ↔ s.Transmitting p.fd)
  writable : ∀ i n p x, s.pc = .dispatch i n → i < n → s.server.pollfds[i]? = some p →
    s.server.sessions p.fd = some x → x.state = .responseSending → p.revents = .pollOut →
      Writable setup s i n p x
  asked : ∀ i n p, s.pc = .dispatch i n → i < n → s.server.pollfds[i]? = some p →
    p.events.pollout = true → p.revents = .pollOut → ∃ x, Writable setup s i n p x

section
variable [DecidableEq ι] {setup : Setup ι} {h es : List (Event ι)} {s s' : State ι} {i n : Nat}
  {p : Pollfd} {x : ClientSession}

theorem sending (himg : ImageNet setup) (hr : (lts setup).Reach h s) : Sending h s := by
  refine hr.inv_of_reach (fun s h0 => ?_) fun h s l es s' hr hi _ hs => ?_
  · obtain rfl : s = State.init setup := h0
    exact .init
  · exact hi.effect himg (served hr) ((served hr).step hs).1

theorem requested (hr : (lts setup).Reach h s) : Requested s := by
  refine hr.inv_of_reach (I := fun _ s => Requested s) (fun s h0 => ?_)
    fun h s l es s' hr hi _ hs => hi.step (tables hr) hs
  obtain rfl : s = State.init setup := h0
  exact .away (fun h => by cases h) fun _ _ h => by cases h

/-- A session that sends goes on doing so until its response is completed. -/
theorem Effect.returns (he : Effect setup s es s') (hv : Served setup h s) {fd : Fd}
    {c : ConnId} {x' : ClientSession} (hx : s.server.sessions fd = some x)
    (hc : s.conns fd = some c) (hst : x.state = .responseSending)
    (hx' : s'.server.sessions fd = some x') : (.completed c ∈ es → x'.Renewed) ∧
      (.completed c ∉ es → x'.state = .responseSending ∧ x'.responseBuffer = x.responseBuffer) := by
  -- it goes on, and nothing is completed
  have hgo : .completed c ∉ es → x'.state = .responseSending ∧
      x'.responseBuffer = x.responseBuffer → (.completed c ∈ es → x'.Renewed) ∧
        (.completed c ∉ es → x'.state = .responseSending ∧ x'.responseBuffer = x.responseBuffer) :=
    fun hno h => ⟨fun hmem => absurd hmem hno, fun _ => h⟩
  have hsame : s'.server.sessions fd = s.server.sessions fd → x' = x := fun h =>
    Option.some.inj (hx'.symm.trans (h.trans hx))
  have hupd : ∀ {fd2 : Fd} {y : Option ClientSession}, s'.server.sessions =
      Function.update s.server.sessions fd2 y → (fd = fd2 ∧ y = some x') ∨ (fd ≠ fd2 ∧ x' = x) := by
    intro fd2 y hs
    by_cases hfd : fd = fd2
    · subst hfd
      rw [hs, Function.update_self] at hx'
      exact .inl ⟨rfl, hx'⟩
    · exact .inr ⟨hfd, hsame (hs ▸ Function.update_of_ne hfd _ _)⟩
  cases he with
  | idle hb =>
    obtain rfl := hsame (congrFun hb.sessions fd)
    exact hgo (by simp) ⟨hst, rfl⟩
  | worker hmay hstep hb =>
    obtain rfl := hsame (congrFun hb.sessions fd)
    exact hgo (by simp) ⟨hst, rfl⟩
  | popped hnone hb =>
    obtain rfl := hsame (congrFun hb.sessions fd)
    exact hgo (by simp) ⟨hst, rfl⟩
  | @installed _ job res results y c' trace hres hy hc' hb =>
    have hno : .completed c ∉ ((popImmediate setup s.pool).1.map .pool ++
        ([.installed c' job res] ++ (trace.map .traced).toList) : List (Event ι)) := by
      cases trace <;> simp
    rcases hupd hb.sessions with ⟨rfl, -⟩ | ⟨-, rfl⟩
    · obtain rfl : x = y := Option.some.inj (hx.symm.trans hy)
      cases (hv.result hres hy).2.2.symm.trans hst
    · exact hgo hno ⟨hst, rfl⟩
  | @opened _ fd' hfree hy hs hc' hn hp =>
    rcases hupd hs with ⟨rfl, -⟩ | ⟨-, rfl⟩
    · cases hx.symm.trans hy
    · exact hgo (by simp) ⟨hst, rfl⟩
  | @read _ fd' y c' recv memory now hd hy hc' hw hh htask hret hthrown hb =>
    rcases hupd hb.sessions with ⟨rfl, hnew⟩ | ⟨-, rfl⟩
    · obtain rfl : x = y := Option.some.inj (hx.symm.trans hy)
      rw [(handleClientData_response hh).2.2.1 hst, Option.some.injEq] at hnew
      exact hgo (by simp) ⟨hnew ▸ hst, by rw [hnew]⟩
    · exact hgo (by simp) ⟨hst, rfl⟩
  | @readClosed _ fd' y c' recv memory now hd hy hc' hw hh htask hret hb =>
    rcases hupd hb.sessions with ⟨rfl, hnew⟩ | ⟨-, rfl⟩
    · cases hnew
    · exact hgo (by simp) ⟨hst, rfl⟩
  | @submitted _ fd' y c' recv memory now hd task hy hc' hw hh htask hb =>
    rcases hupd hb.sessions with ⟨rfl, hnew⟩ | ⟨-, rfl⟩
    · obtain rfl : x = y := Option.some.inj (hx.symm.trans hy)
      rw [(handleClientData_response hh).2.2.1 hst, Option.some.injEq] at hnew
      exact hgo (by simp) ⟨hnew ▸ hst, by rw [hnew]⟩
    · exact hgo (by simp) ⟨hst, rfl⟩
  | @sent _ fd' y c' k hy hc' hw hk hlt hb =>
    rcases hupd hb.sessions with ⟨rfl, hnew⟩ | ⟨-, rfl⟩
    · obtain rfl : x = y := Option.some.inj (hx.symm.trans hy)
      cases hnew
      exact hgo (by simp) ⟨hst, rfl⟩
    · exact hgo (by simp) ⟨hst, rfl⟩
  | @completed _ fd' y c' k hy hc' hw hk heq hb =>
    rcases hupd hb.sessions with ⟨rfl, hnew⟩ | ⟨hne, rfl⟩
    · cases hnew
      obtain rfl : c = c' := Option.some.inj (hc.symm.trans hc')
      exact ⟨fun _ => ⟨rfl, rfl, rfl, rfl, rfl⟩, fun hno => absurd (by simp) hno⟩
    · refine hgo (fun hmem => hne ?_) ⟨hst, rfl⟩
      obtain rfl : c = c' := by simpa using hmem
      exact hv.table.conn_inj _ _ _ hc hc'
  | @sendClosed _ fd' y c' hy hc' hw hb =>
    rcases hupd hb.sessions with ⟨rfl, hnew⟩ | ⟨-, rfl⟩
    · cases hnew
    · exact hgo (by simp) ⟨hst, rfl⟩

theorem writable (hpc : s.pc = .dispatch i n) (hi : i < n) (hp : s.server.pollfds[i]? = some p)
    (hout : p.revents = .pollOut) (hx : s.server.sessions p.fd = some x)
    (hst : x.state = .responseSending) (hlt : x.bytesSent < x.responseBuffer.length) :
    Writable setup s i n p x := by
  have hsend : ∀ r, step setup s (.server (.send r)) = send s i n p.fd r := fun r => by
    simp only [step, serve, hpc, dispatch, if_pos hi, hp, hout, PollBits.pollOut,
      Bool.false_eq_true, if_false, if_true]
  refine ⟨hx, hst, Nat.sub_pos_of_lt hlt, fun k hk hle => ?_, ?_, ?_⟩
  · have hfits : Send.Fits (x.responseBuffer.length - x.bytesSent) (.sent k) :=
      ⟨hle, fun h0 => by omega⟩
    rw [hsend]
    simp only [send, session_eq hx, if_pos hfits, if_pos hk, ClientSession.advance,
      setSession_eq_self hx]
    split <;> rfl
  · have hfits : ¬ Send.Fits (x.responseBuffer.length - x.bytesSent) (.sent 0) := fun h => by
      have := h.2 rfl
      omega
    rw [hsend]
    simp only [send, session_eq hx, if_neg hfits]
  · rw [hsend]
    simp only [send, session_eq hx, setSession_eq_self hx, Send.Fits, if_true]

/-- **Responses are sent exactly**, and a session that sends makes progress, in every run. -/
theorem transmitted (himg : ImageNet setup) (hr : (lts setup).Reach h s) :
    Transmitted setup h s := by
  have hv := served hr
  have hs := sending himg hr
  have hwritable : ∀ i n p x, s.pc = .dispatch i n → i < n → s.server.pollfds[i]? = some p →
      s.server.sessions p.fd = some x → x.state = .responseSending → p.revents = .pollOut →
        Writable setup s i n p x := by
    intro i n p x hpc hi hp hx hst hrev
    obtain ⟨c, hc⟩ : ∃ c, s.conns p.fd = some c := by
      rw [← Option.isSome_iff_exists, hv.table.conns, ← hv.table.sessions, hx]
      rfl
    exact writable hpc hi hp hrev hx hst ((hs.session p.fd x c hx hc).sending hst).2
  refine ⟨hs.exact, hs.session, ?_, ?_, hwritable, ?_⟩
  · intro l es s' fd x x' c hstep hx hc hst hx'
    exact (hv.step hstep).1.returns hv hx hc hst hx'
  · intro hpc p hp hfd
    exact (requested hr).asked hpc p hp (hv.table.sockfd ▸ hfd)
  · intro i n p hpc hi hp hout hrev
    obtain ⟨hlt, hpi⟩ := List.getElem?_eq_some_iff.1 hp
    have hmem : p ∈ s.server.pollfds.drop i := by
      rw [List.drop_eq_getElem_cons hlt, hpi]
      exact List.mem_cons_self
    obtain ⟨x, hx, hst⟩ := (requested hr).told i n hpc p hmem hout
    exact ⟨x, hwritable i n p x hpc hi hp hx hst hrev⟩

end

/-! ## Two requests on one connection -/

/-- The engine of one pixel between the two processors, with a label file of two lines. -/
def labelEngine : InferenceEngine :=
  { ThreadPool.pixelEngine with
    transform := fun _ data buffer width height =>
      ImageNetPreProcessor.transformBy (fun _ pixel => pixel.toUInt32) data buffer (sizeT width)
        (sizeT height)
    handleResults := fun _ output count =>
      (ImageNetPostProcessor.new (some (bytes "cat\ndog"))).handleResults
        (fun a b => decide (a < b)) (some output) count }

def labelPod : Setup (Fin 2) := onePod.withEngine labelEngine

theorem labelPod_imageNet : ImageNet labelPod := fun _ =>
  ⟨fun _ => some (bytes "cat\ndog"), FloatBits, fun a b => decide (a < b), some,
    fun _ _ _ => rfl⟩

/-- The worker goes on with the next request. -/
def workAgain : List (Label (Fin 2)) :=
  .worker ThreadPool.onePod.worker (.run .none) :: work.tail

def sendRound (results : Nat) (r : Send) : List (Label (Fin 2)) :=
  round results [.none, .pollOut] [.none, .send r]

/-- The response to the first request is sent in two parts, the second only in part. -/
def twoRequests : List (Label (Fin 2)) :=
  header ++ (readRound [9, 8, 7] ++ (work ++ (sendRound 1 (.sent 2) ++ (sendRound 0 .again ++
    (sendRound 0 (.sent 1) ++ (readRound [0, 0, 0, 3] ++ (readRound [9, 8, 7] ++ (workAgain ++
      sendRound 1 (.sent 2)))))))))

theorem transmitted_twoRequests : ∃ h s, (lts labelPod).Reach h s ∧ completed h 0 = 1 ∧
    transmission h 0 = some { response := bytes "cat", sent := bytes "ca" } ∧
      Transmitted labelPod h s := by
  have he : ((lts labelPod).exec (State.init labelPod) twoRequests).map (fun p =>
      (completed p.1 0, transmission p.1 0)) =
        some (1, some { response := bytes "cat", sent := bytes "ca" }) := by
    decide +kernel
  obtain ⟨⟨h, s⟩, he, heq⟩ := Option.map_eq_some_iff.1 he
  have hr : (lts labelPod).Reach h s := .of_exec rfl he
  obtain ⟨hdone, ht⟩ := Prod.mk.inj heq
  exact ⟨h, s, hr, hdone, ht, transmitted labelPod_imageNet hr⟩

end Lumen.Network
