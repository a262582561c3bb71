import Lumen.Network.Proof.Table

/-!
# What a step of the system does

`Effect setup s es s'`: one of the ways in which a step changes what the connections, their sessions
and the pool are, with the events it shows. A read or a write is of an open descriptor whose session
does not wait for its result. `step_effect` derives this for every step from the tables, which the
step keeps; what follows about runs is derived from it and never looks at the code of a step.
-/

set_option autoImplicit false

namespace Lumen.Network

open Lumen.Lib Lumen.Core Lumen.Concurrency

variable {ι : Type*}

/-- The connections, the sessions and the pool after a step. -/
structure Becomes (s s' : State ι) (sessions : Fd → Option ClientSession)
    (conns : Fd → Option ConnId) (pool : ThreadPool.State ι ConnId) : Prop where
  sessions : s'.server.sessions = sessions
  conns : s'.conns = conns
  pool : s'.pool = pool
  nextConn : s'.nextConn = s.nextConn

/-! ## What holds of each session -/

/-- `P` holds of each session and of what `view` has of its connection. -/
def EachSession {α : Type*} (P : α → ClientSession → Prop) (view : ConnId → α) (s : State ι) :
    Prop :=
  ∀ fd x c, s.server.sessions fd = some x → s.conns fd = some c → P (view c) x

namespace EachSession

variable {α : Type*} {P : α → ClientSession → Prop} {view view' : ConnId → α} {setup : Setup ι}
  {s s' : State ι} {fd : Fd} {c : ConnId} {x : ClientSession} {pool : ThreadPool.State ι ConnId}

/-- No session changes. -/
theorem keep (hi : EachSession P view s) (hview : ∀ c, view' c = view c)
    (hsess : s'.server.sessions = s.server.sessions) (hconns : s'.conns = s.conns) :
    EachSession P view' s' := by
  intro fd x c hx hc
  rw [hview]
  exact hi fd x c (hsess ▸ hx) (hconns ▸ hc)

/-- The other sessions, and what is known of their connections, stay. -/
theorem change (hi : EachSession P view s) (ht : Table setup s) (hc : s.conns fd = some c)
    (hview : ∀ c', c' ≠ c → view' c' = view c')
    (hsess : ∀ fd', fd' ≠ fd → s'.server.sessions fd' = s.server.sessions fd')
    (hconns : ∀ fd' c', s'.conns fd' = some c' → s.conns fd' = some c')
    (hnew : ∀ x, s'.server.sessions fd = some x → P (view' c) x) : EachSession P view' s' := by
  intro fd' x c' hx hc'
  have hold := hconns fd' c' hc'
  by_cases hfd : fd' = fd
  · subst hfd
    rw [hc, Option.some.injEq] at hold
    subst hold
    exact hnew x hx
  · rw [hview c' fun he => hfd (ht.conn_inj _ _ _ (he ▸ hold) hc)]
    exact hi fd' x c' (hsess fd' hfd ▸ hx) hold

/-- The session of the connection is replaced. -/
theorem set (hi : EachSession P view s) (ht : Table setup s) (hc : s.conns fd = some c)
    (hview : ∀ c', c' ≠ c → view' c' = view c')
    (hb : Becomes s s' (Function.update s.server.sessions fd (some x)) s.conns pool)
    (hx : P (view' c) x) : EachSession P view' s' := by
  refine hi.change ht hc hview (fun fd' hne => ?_) (fun fd' c' hc' => ?_) fun x' hx' => ?_
  · rw [hb.sessions, Function.update_of_ne hne]
  · rwa [hb.conns] at hc'
  · rw [hb.sessions, Function.update_self, Option.some.injEq] at hx'
    exact hx' ▸ hx

/-- The connection is closed. -/
theorem drop (hi : EachSession P view s) (ht : Table setup s) (hc : s.conns fd = some c)
    (hview : ∀ c', c' ≠ c → view' c' = view c')
    (hb : Becomes s s' (Function.update s.server.sessions fd none)
      (Function.update s.conns fd none) pool) : EachSession P view' s' := by
  refine hi.change ht hc hview (fun fd' hne => ?_) (fun fd' c' hc' => ?_) fun x' hx' => ?_
  · rw [hb.sessions, Function.update_of_ne hne]
  · rw [hb.conns] at hc'
    exact (update_none_eq_some.1 hc').2
  · rw [hb.sessions, Function.update_self] at hx'
    cases hx'

/-- A connection is opened. -/
theorem opened (hi : EachSession P view s) (hview : ∀ c, view' c = view c)
    (hsess : s'.server.sessions = Function.update s.server.sessions fd (some x))
    (hconns : s'.conns = Function.update s.conns fd (some c)) (hx : P (view c) x) :
    EachSession P view' s' := by
  intro fd' x' c' hx' hc'
  rw [hview]
  rw [hsess] at hx'
  rw [hconns] at hc'
  rcases update_some_eq_some.1 hx' with ⟨rfl, rfl⟩ | ⟨hfd, hx'⟩
  · rw [Function.update_self, Option.some.injEq] at hc'
    exact hc' ▸ hx
  · rw [Function.update_of_ne hfd] at hc'
    exact hi fd' x' c' hx' hc'

end EachSession

/-! ## The changes of a step -/

inductive Effect [DecidableEq ι] (setup : Setup ι) (s : State ι) : List (Event ι) → State ι → Prop
  /-- Nothing of it changes. -/
  | idle {s' : State ι} : Becomes s s' s.server.sessions s.conns s.pool → Effect setup s [] s'
  | worker {s' : State ι} {i : ι} {act : Shared.Act (ThreadPool.Op ConnId) ThreadPool.Choice}
      {es : List (ThreadPool.Event ι ConnId)} {pool : ThreadPool.State ι ConnId} :
      workerMay setup s i act = true →
      (ThreadPool.impl ConnId setup.pool setup.allocator).step s.pool (i, act) = some (es, pool) →
      Becomes s s' s.server.sessions s.conns pool → Effect setup s (es.map .pool) s'
  /-- There is no result, or it is of a descriptor without a session. -/
  | popped {s' : State ι} : (∀ x ∈ s.pool.mem.results.head?,
        s.server.sessions x.2.clientFd = none) →
      Becomes s s' s.server.sessions s.conns (popImmediate setup s.pool).2 →
      Effect setup s ((popImmediate setup s.pool).1.map .pool) s'
  | installed {s' : State ι} {job : Job ConnId} {res : InferenceResult}
      {results : List (Job ConnId × InferenceResult)} {x : ClientSession} {c : ConnId}
      {trace : Option InferenceTrace} :
      s.pool.mem.results = (job, res) :: results → s.server.sessions res.clientFd = some x →
      s.conns res.clientFd = some c →
      Becomes s s' (Function.update s.server.sessions res.clientFd (some { x with
        responseBuffer := res.response, state := .responseSending, bytesSent := 0 })) s.conns
        (popImmediate setup s.pool).2 →
      Effect setup s ((popImmediate setup s.pool).1.map .pool ++ ([.installed c job res] ++
        (trace.map .traced).toList)) s'
  | opened {s' : State ι} {fd : Fd} : s.conns fd = none → s.server.sessions fd = none →
      s'.server.sessions = Function.update s.server.sessions fd (some {}) →
      s'.conns = Function.update s.conns fd (some s.nextConn) → s'.nextConn = s.nextConn + 1 →
      s'.pool = s.pool → Effect setup s [.opened s.nextConn fd] s'
  /-- A read event that passes no task on. -/
  | read {s' : State ι} {fd : Fd} {x : ClientSession} {c : ConnId} {recv : Recv} {memory : Bool}
      {now : Rat} {h : Handled} : s.server.sessions fd = some x → s.conns fd = some c →
      x.state ≠ .inferencePending →
      handleClientData (readEnv setup s fd recv memory now) x = some h → h.task = none →
      (h.ret ≤ 0 → h.thrown = true) → (h.thrown = true → s'.pc = .left .thrown) →
      Becomes s s' (Function.update s.server.sessions fd (some h.session)) s.conns s.pool →
      Effect setup s (.readable c :: receivedEvents c h.received) s'
  /-- A read event that closes the connection. -/
  | readClosed {s' : State ι} {fd : Fd} {x : ClientSession} {c : ConnId} {recv : Recv}
      {memory : Bool} {now : Rat} {h : Handled} : s.server.sessions fd = some x →
      s.conns fd = some c → x.state ≠ .inferencePending →
      handleClientData (readEnv setup s fd recv memory now) x = some h → h.task = none →
      h.ret ≤ 0 →
      Becomes s s' (Function.update s.server.sessions fd none) (Function.update s.conns fd none)
        s.pool →
      Effect setup s (.readable c :: (receivedEvents c h.received ++ [.closed c])) s'
  /-- A read event that completes a request. -/
  | submitted {s' : State ι} {fd : Fd} {x : ClientSession} {c : ConnId} {recv : Recv}
      {memory : Bool} {now : Rat} {h : Handled} {task : InferenceTask} :
      s.server.sessions fd = some x → s.conns fd = some c → x.state ≠ .inferencePending →
      handleClientData (readEnv setup s fd recv memory now) x = some h → h.task = some task →
      Becomes s s' (Function.update s.server.sessions fd (some h.session)) s.conns
        (push setup s.pool { task := task, tag := c }).2.2 →
      Effect setup s (.readable c :: (receivedEvents c h.received ++
        ((push setup s.pool { task := task, tag := c }).2.1.map .pool ++
          [.pushed c task.data (push setup s.pool { task := task, tag := c }).1]))) s'
  /-- A part of the response is sent. -/
  | sent {s' : State ι} {fd : Fd} {x : ClientSession} {c : ConnId} {k : Nat} :
      s.server.sessions fd = some x → s.conns fd = some c → x.state ≠ .inferencePending →
      0 < k → x.bytesSent + k < x.responseBuffer.length →
      Becomes s s' (Function.update s.server.sessions fd
        (some { x with bytesSent := x.bytesSent + k })) s.conns s.pool →
      Effect setup s [.sent c ((x.responseBuffer.drop x.bytesSent).take k)] s'
  /-- The rest of the response is sent. -/
  | completed {s' : State ι} {fd : Fd} {x : ClientSession} {c : ConnId} {k : Nat} :
      s.server.sessions fd = some x → s.conns fd = some c → x.state ≠ .inferencePending →
      0 < k → x.bytesSent + k = x.responseBuffer.length →
      Becomes s s' (Function.update s.server.sessions fd
        (some ({ x with bytesSent := x.bytesSent + k } : ClientSession).reset)) s.conns s.pool →
      Effect setup s [.sent c ((x.responseBuffer.drop x.bytesSent).take k), .completed c] s'
  /-- A send has failed. -/
  | sendClosed {s' : State ι} {fd : Fd} {x : ClientSession} {c : ConnId} :
      s.server.sessions fd = some x → s.conns fd = some c → x.state ≠ .inferencePending →
      Becomes s s' (Function.update s.server.sessions fd none) (Function.update s.conns fd none)
        s.pool →
      Effect setup s [.closed c] s'

/-! ## The functions of the server -/

theorem handleClientData_task {env : ReadEnv} {x : ClientSession} {h : Handled}
    {task : InferenceTask} (hh : handleClientData env x = some h) (ht : h.task = some task) :
    h.ret = 1 ∧ h.thrown = false ∧ task.clientFd = env.fd ∧
      h.session.state = .inferencePending := by
  unfold handleClientData at hh
  split at hh
  · simp only [processHeader] at hh
    (repeat' split at hh) <;> cases hh <;> cases ht
  · simp only [processBody, finalizeRequest] at hh
    (repeat' split at hh) <;> cases hh <;> cases ht
    exact ⟨rfl, rfl, rfl, rfl⟩
  · cases hh
    cases ht
    exact ⟨rfl, rfl, rfl, rfl⟩
  · cases hh
    cases ht
  · cases hh
    cases ht

theorem handleClientData_finalizes {env : ReadEnv} {x : ClientSession} {h : Handled}
    (hh : handleClientData env x = some h) : h.task.isSome = x.finalizes env.recv := by
  unfold handleClientData at hh
  unfold ClientSession.finalizes
  split at hh <;> rename_i hst <;> rw [hst]
  · simp only [processHeader] at hh
    (repeat' split at hh) <;> cases hh <;> rfl
  · simp only [processBody, finalizeRequest] at hh
    split at hh <;> rename_i hempty
    · cases hh
      split <;> simp_all
    · split at hh
      · split at hh <;> rename_i hrecv <;> rw [hrecv]
        · split at hh <;> rename_i hall <;> cases hh <;> simp [hempty, hall]
        all_goals
          cases hh
          rfl
      · cases hh
  · cases hh
    rfl
  · cases hh
    rfl
  · cases hh
    rfl

/-- The step is one of the effects, and keeps the tables. -/
structure Steps [DecidableEq ι] (setup : Setup ι) (s : State ι) (es : List (Event ι))
    (s' : State ι) : Prop where
  effect : Effect setup s es s'
  tables : Table setup s' ∧ Polled s'

section
variable {setup : Setup ι} {s s' : State ι} {es : List (Event ι)} {i n : Nat} {p : Pollfd}

/-- What is known when the entry `i` is dispatched. -/
structure Dispatching (setup : Setup ι) (s : State ι) (i n : Nat) (p : Pollfd) : Prop where
  table : Table setup s
  polled : Polled s
  pc : s.pc = .dispatch i n
  lt : i < n
  entry : s.server.pollfds[i]? = some p

/-- A dispatched client has a session, which does not wait for its result, and a connection. -/
theorem Dispatching.client (hd : Dispatching setup s i n p) (hfd : p.fd ≠ setup.sockfd)
    (hev : p.revents.pollin = true ∨ p.revents.pollout = true) :
    ∃ x c, s.server.sessions p.fd = some x ∧ s.conns p.fd = some c ∧
      x.state ≠ .inferencePending := by
  obtain ⟨x, c, hx, hc⟩ := hd.table.client hd.entry hfd
  refine ⟨x, c, hx, hc, fun hst => ?_⟩
  obtain ⟨hi, hpi⟩ := List.getElem?_eq_some_iff.1 hd.entry
  have hmem : p ∈ s.server.pollfds.drop i := by
    rw [List.drop_eq_getElem_cons hi, hpi]
    exact List.mem_cons_self
  rw [hd.polled.told i n hd.pc p hmem ⟨x, hx, hst⟩] at hev
  rcases hev with h | h <;> cases h

theorem session_eq {x : ClientSession} {fd : Fd} (h : s.server.sessions fd = some x) :
    s.server.session fd = x := by
  rw [TCPServer.session, h]
  rfl

/-- `sessions[fd]` finds the session. -/
theorem setSession_eq_self {x : ClientSession} {fd : Fd} (h : s.server.sessions fd = some x) :
    s.server.setSession fd x = s.server := by
  rw [TCPServer.setSession, ← h, Function.update_eq_self]

/-- The step goes on to the next entry; only the session of `p` and the pool change. -/
theorem Dispatching.advance (hd : Dispatching setup s i n p) {x x' : ClientSession}
    (hx : s.server.sessions p.fd = some x) (hpc : s'.pc = .dispatch (i + 1) n)
    (hpoll : s'.server.pollfds = s.server.pollfds)
    (hsess : s'.server.sessions = Function.update s.server.sessions p.fd (some x'))
    (hconns : s'.conns = s.conns) (hnext : s'.nextConn = s.nextConn)
    (hsock : s'.server.sockfd = s.server.sockfd) : Table setup s' ∧ Polled s' := by
  refine ⟨hd.table.setSession (by rw [hx]; rfl) hpoll hsess hconns hnext hsock,
    hd.polled.next hd.table hd.pc hd.lt hd.entry hpc hpoll fun fd hfd => ?_⟩
  rw [hsess, Function.update_of_ne hfd]

/-- The step closes the entry. -/
theorem Dispatching.remove (hd : Dispatching setup s i n p) (hfd : p.fd ≠ setup.sockfd)
    (hpc : s'.pc = .dispatch i (n - 1))
    (hpoll : s'.server.pollfds = swapRemove s.server.pollfds i)
    (hsess : s'.server.sessions = Function.update s.server.sessions p.fd none)
    (hsock : s'.server.sockfd = s.server.sockfd)
    (hconns : s'.conns = Function.update s.conns p.fd none) (hnext : s'.nextConn = s.nextConn) :
    Table setup s' ∧ Polled s' := by
  refine ⟨hd.table.closed hd.entry hfd hpoll hsess hsock hconns hnext,
    hd.polled.removed hd.table hd.pc hd.lt hd.entry hpc hpoll fun fd hfd => ?_⟩
  rw [hsess, Function.update_of_ne hfd]

variable [DecidableEq ι]

theorem read_steps (hd : Dispatching setup s i n p) (hfd : p.fd ≠ setup.sockfd)
    (hev : p.revents.pollin = true) {recv : Recv} {memory : Bool} {now : Rat}
    (hs : read setup s i n p.fd recv memory now = some (es, s')) : Steps setup s es s' := by
  obtain ⟨x, c, hx, hc, hw⟩ := hd.client hfd (.inl hev)
  have hconn : s.conn p.fd = c := by
    rw [State.conn, hc]
    rfl
  simp only [read, Option.map_eq_some_iff] at hs
  obtain ⟨h, hh, hs⟩ := hs
  rw [session_eq hx] at hh
  rw [hconn] at hs
  cases htask : h.task with
  | some task =>
    obtain ⟨hret, hthrown, -⟩ := handleClientData_task hh htask
    simp only [handled, htask, hthrown, hret, hconn, Bool.false_eq_true, if_false,
      show ¬ (1 : Int) ≤ 0 by decide] at hs
    cases hs
    exact ⟨.submitted hx hc hw hh htask ⟨rfl, rfl, rfl, rfl⟩,
      hd.advance hx rfl rfl rfl rfl rfl rfl⟩
  | none =>
    simp only [handled, htask, hconn] at hs
    split at hs
    · rename_i hthrown
      cases hs
      exact ⟨.read hx hc hw hh htask (fun _ => hthrown) (fun _ => rfl) ⟨rfl, rfl, rfl, rfl⟩,
        hd.table.setSession (by rw [hx]; rfl) rfl rfl rfl rfl rfl,
        .away (fun h => by cases h) fun _ _ h => by cases h⟩
    · rename_i hthrown
      split at hs <;> rename_i hret
      · cases hs
        rw [State.close, State.conn, hc]
        exact ⟨.readClosed hx hc hw hh htask hret ⟨Function.update_idem _ _ _, rfl, rfl, rfl⟩,
          hd.remove hfd rfl rfl (Function.update_idem _ _ _) rfl rfl rfl⟩
      · cases hs
        exact ⟨.read hx hc hw hh htask (fun h => absurd h hret) (fun h => absurd h hthrown)
            ⟨rfl, rfl, rfl, rfl⟩,
          hd.advance hx rfl rfl rfl rfl rfl rfl⟩

theorem send_steps (hd : Dispatching setup s i n p) (hfd : p.fd ≠ setup.sockfd)
    (hev : p.revents.pollout = true) {r : Send} (hs : send s i n p.fd r = some (es, s')) :
    Steps setup s es s' := by
  obtain ⟨x, c, hx, hc, hw⟩ := hd.client hfd (.inr hev)
  have hconn : s.conn p.fd = c := by
    rw [State.conn, hc]
    rfl
  have hset : (s.server.setSession p.fd x).sessions = s.server.sessions :=
    congrArg TCPServer.sessions (setSession_eq_self hx)
  simp only [send, session_eq hx, hconn] at hs
  split at hs <;> rename_i hfits
  · cases r with
    | sent k =>
      simp only at hs
      split at hs <;> rename_i hk
      · obtain ⟨hle, -⟩ := hfits
        split at hs <;> rename_i hall <;> cases hs
        · exact ⟨.completed hx hc hw hk hall ⟨Function.update_idem _ _ _, rfl, rfl, rfl⟩,
            hd.advance hx rfl rfl (Function.update_idem _ _ _) rfl rfl rfl⟩
        · exact ⟨.sent hx hc hw hk (by omega) ⟨Function.update_idem _ _ _, rfl, rfl, rfl⟩,
            hd.advance hx rfl rfl (Function.update_idem _ _ _) rfl rfl rfl⟩
      · cases hs
        exact ⟨.idle ⟨hset, rfl, rfl, rfl⟩, hd.advance hx rfl rfl rfl rfl rfl rfl⟩
    | again =>
      cases hs
      exact ⟨.idle ⟨hset, rfl, rfl, rfl⟩, hd.advance hx rfl rfl rfl rfl rfl rfl⟩
    | error =>
      cases hs
      rw [State.close, State.conn, hc]
      exact ⟨.sendClosed hx hc hw ⟨Function.update_idem _ _ _, rfl, rfl, rfl⟩,
        hd.remove hfd rfl rfl (Function.update_idem _ _ _) rfl rfl rfl⟩
    | pipe =>
      cases hs
      exact ⟨.idle ⟨hset, rfl, rfl, rfl⟩,
        hd.table.setSession (by rw [hx]; rfl) rfl rfl rfl rfl rfl,
        .away (fun h => by cases h) fun _ _ h => by cases h⟩
  · cases hs

theorem accept_steps (hd : Dispatching setup s i n p) {fd : Option (Fd × PollBits)}
    (hs : accept setup s i n fd = some (es, s')) : Steps setup s es s' := by
  cases fd with
  | none =>
    cases hs
    exact ⟨.idle ⟨rfl, rfl, rfl, rfl⟩,
      hd.table.same rfl hd.table.listener (fun _ => rfl) rfl rfl rfl,
      hd.polled.next hd.table hd.pc hd.lt hd.entry rfl rfl fun _ _ => rfl⟩
  | some r =>
    obtain ⟨fd, revents⟩ := r
    simp only [accept] at hs
    split at hs <;> rename_i hfree
    · obtain ⟨hc, hfd⟩ := hfree
      cases hs
      have hx : s.server.sessions fd = none := by
        rw [← Option.not_isSome_iff_eq_none, hd.table.sessions, ← hd.table.conns, hc]
        simp
      exact ⟨.opened hc hx rfl rfl rfl rfl, hd.table.opened hc hfd rfl rfl rfl,
        hd.polled.opened hd.pc hd.lt rfl rfl⟩
    · cases hs

theorem dispatch_steps (ht : Table setup s) (hp : Polled s) (hpc : s.pc = .dispatch i n)
    {choice : Choice} (hs : dispatch setup s i n choice = some (es, s')) : Steps setup s es s' := by
  simp only [dispatch] at hs
  split at hs <;> rename_i hi
  · split at hs
    · cases hs
    · rename_i p hentry
      have hd : Dispatching setup s i n p := ⟨ht, hp, hpc, hi, hentry⟩
      split at hs <;> rename_i hin
      · split at hs <;> rename_i hfd
        · split at hs
          · exact accept_steps hd hs
          · cases hs
        · rw [ht.sockfd] at hfd
          split at hs
          · exact read_steps hd hfd hin hs
          · cases hs
      · split at hs <;> rename_i hout
        · have hfd : p.fd ≠ setup.sockfd := fun hfd => by
            rw [(ht.listener p (List.mem_of_getElem? hentry) hfd).2] at hout
            cases hout
          split at hs
          · exact send_steps hd hfd hout hs
          · cases hs
        · cases hs
          exact ⟨.idle ⟨rfl, rfl, rfl, rfl⟩, ht.same rfl ht.listener (fun _ => rfl) rfl rfl rfl,
            hp.next ht hpc hi hentry rfl rfl fun _ _ => rfl⟩
  · cases hs
    exact ⟨.idle ⟨rfl, rfl, rfl, rfl⟩, ht.same rfl ht.listener (fun _ => rfl) rfl rfl rfl,
      .away (fun h => by cases h) fun _ _ h => by cases h⟩

omit [DecidableEq ι] in
/-- Selecting the events finds every session. -/
theorem Table.selectEvents_sessions (ht : Table setup s) :
    s.server.selectEvents.sessions = s.server.sessions := by
  unfold TCPServer.selectEvents
  split
  · rfl
  · rename_i listener clients hpoll
    have hall : ∀ q ∈ clients, (s.server.sessions q.fd).isSome = true := fun q hq => by
      have hnd := ht.nodup
      have hhead := ht.head
      rw [State.fds, hpoll, List.map_cons] at hnd hhead
      refine (ht.sessions q.fd).2 ⟨?_, fun he => ?_⟩
      · rw [State.fds, hpoll]
        exact List.mem_map_of_mem (List.mem_cons_of_mem _ hq)
      · rw [List.head?_cons, Option.some.injEq] at hhead
        exact (List.nodup_cons.1 hnd).1 (hhead ▸ he ▸ List.mem_map_of_mem hq)
    clear hpoll
    simp only
    induction clients with
    | nil => rfl
    | cons q clients ih =>
      obtain ⟨x, hx⟩ := Option.isSome_iff_exists.1 (hall q List.mem_cons_self)
      rw [List.foldl_cons, hx, Option.getD_some, ← hx, Function.update_eq_self]
      exact ih fun q' hq' => hall q' (List.mem_cons_of_mem _ hq')

omit [DecidableEq ι] in
theorem selectEvents_fds (server : TCPServer) :
    server.selectEvents.pollfds.map (·.fd) = server.pollfds.map (·.fd) := by
  unfold TCPServer.selectEvents
  split
  · rfl
  · rename_i listener clients hpoll
    rw [hpoll]
    simp

omit [DecidableEq ι] in
/-- The first entry stays; another has the events of the state of its session. -/
theorem mem_selectEvents {server : TCPServer} (hp : p ∈ server.selectEvents.pollfds) :
    server.pollfds.head? = some p ∨ ∃ q ∈ server.pollfds.tail,
      p = { q with events := TCPServer.eventsOf (server.session q.fd).state } := by
  unfold TCPServer.selectEvents at hp
  split at hp
  · rename_i hpoll
    rw [hpoll] at hp
    cases hp
  · rename_i listener clients hpoll
    rw [hpoll]
    rcases List.mem_cons.1 hp with rfl | hp
    · exact .inl rfl
    · obtain ⟨q, hq, rfl⟩ := List.mem_map.1 hp
      exact .inr ⟨q, hq, rfl⟩

omit [DecidableEq ι] in
/-- The listener is the first entry. -/
theorem Table.tail_fd_ne (ht : Table setup s) (hp : p ∈ s.server.pollfds.tail) :
    p.fd ≠ setup.sockfd := by
  have hnd := ht.nodup
  have hhead := ht.head
  unfold State.fds at hnd hhead
  cases hpoll : s.server.pollfds with
  | nil =>
    rw [hpoll] at hp
    cases hp
  | cons listener clients =>
    rw [hpoll] at hp hnd hhead
    rw [List.map_cons] at hnd hhead
    rw [List.head?_cons, Option.some.injEq] at hhead
    intro he
    exact (List.nodup_cons.1 hnd).1 (hhead ▸ he ▸ List.mem_map_of_mem hp)

theorem handleResponses_steps (ht : Table setup s) {now : Rat} (hpc : s.pc = .handleResponses) :
    Steps setup s (handleResponses setup s now).1 (handleResponses setup s now).2 := by
  have haway : ∀ {s' : State ι}, s'.pc = .handleResponses → Polled s' := fun h =>
    .away (by simp [h]) (by simp [h])
  unfold handleResponses
  split
  · rename_i hres
    refine ⟨.popped (by simp [hres]) ⟨ht.selectEvents_sessions, rfl, rfl, rfl⟩, ?_, ?_⟩
    · refine ht.same (selectEvents_fds _) (fun q hq hqfd => ?_) (fun fd => ?_) rfl rfl ?_
      · rcases mem_selectEvents hq with hq | ⟨q', hq', rfl⟩
        · exact ht.listener q (List.mem_of_mem_head? hq) hqfd
        · have hne := ht.tail_fd_ne hq'
          exact absurd hqfd hne
      · rw [ht.selectEvents_sessions]
      · unfold TCPServer.selectEvents
        split <;> rfl
    · refine .polling rfl fun q hq ⟨x, hx, hst⟩ => ?_
      simp only [ht.selectEvents_sessions] at hx
      rcases mem_selectEvents hq with hq | ⟨q', hq', rfl⟩
      · have hh := ht.head
        rw [State.fds, List.head?_map, hq, Option.map_some, Option.some.injEq] at hh
        have := (ht.sessions q.fd).1 (by rw [hx]; rfl)
        exact absurd hh this.2
      · have hsess : s.server.session q'.fd = x := session_eq hx
        simp only [hsess, hst, TCPServer.eventsOf]
  · rename_i job res results hres
    cases hx : s.server.sessions res.clientFd with
    | none =>
      simp only [TCPServer.handleResponse, hx, Option.isSome_none, Bool.false_eq_true, if_false,
        Option.map_none, Option.toList_none, List.append_nil]
      refine ⟨.popped (by simp [hres, hx]) ⟨rfl, rfl, rfl, rfl⟩, ?_, haway hpc⟩
      exact ht.same rfl ht.listener (fun _ => rfl) rfl rfl rfl
    | some x =>
      obtain ⟨c, hc⟩ : ∃ c, s.conns res.clientFd = some c := by
        rw [← Option.isSome_iff_exists, ht.conns, ← ht.sessions, hx]
        rfl
      simp only [TCPServer.handleResponse, hx, Option.isSome_some, if_true, session_eq hx,
        State.conn, hc, Option.getD_some]
      exact ⟨.installed hres hx hc ⟨rfl, rfl, rfl, rfl⟩,
        ht.setSession (by rw [hx]; rfl) rfl rfl rfl rfl rfl, haway hpc⟩

omit [DecidableEq ι] in
/-- The entries with what `poll` has written. -/
theorem mem_zipWith_revents {pollfds : List Pollfd} {revents : List PollBits}
    (hr : List.Forall₂ Pollfd.Asked pollfds revents) :
    (pollfds.zipWith (fun pfd r => { pfd with revents := r }) revents).map (·.fd) =
        pollfds.map (·.fd) ∧
      ∀ p ∈ pollfds.zipWith (fun pfd r => ({ pfd with revents := r } : Pollfd)) revents,
        ∃ q ∈ pollfds, ∃ r, p = { q with revents := r } ∧
          (r.pollin = true → q.events.pollin = true) ∧
            (r.pollout = true → q.events.pollout = true) := by
  induction hr with
  | nil => exact ⟨rfl, fun p hp => by cases hp⟩
  | @cons q r qs rs hqr _ ih =>
    refine ⟨by rw [List.zipWith_cons_cons, List.map_cons, ih.1, List.map_cons], fun p hp => ?_⟩
    rw [List.zipWith_cons_cons] at hp
    rcases List.mem_cons.1 hp with rfl | hp
    · exact ⟨q, List.mem_cons_self, r, rfl, hqr⟩
    · obtain ⟨q', hq', h'⟩ := ih.2 p hp
      exact ⟨q', List.mem_cons_of_mem _ hq', h'⟩

theorem poll_steps (ht : Table setup s) (hp : Polled s) (hpc : s.pc = .poll)
    {revents : Option (List PollBits)} (hs : poll s revents = some s') : Steps setup s [] s' := by
  cases revents with
  | none =>
    cases hs
    exact ⟨.idle ⟨rfl, rfl, rfl, rfl⟩, ht.same rfl ht.listener (fun _ => rfl) rfl rfl rfl,
      .away (fun h => by cases h) fun _ _ h => by cases h⟩
  | some revents =>
    simp only [poll] at hs
    split at hs <;> rename_i hr
    · cases hs
      obtain ⟨hfds, hmem⟩ := mem_zipWith_revents hr
      refine ⟨.idle ⟨rfl, rfl, rfl, rfl⟩, ht.same hfds (fun q hq hqfd => ?_) (fun _ => rfl) rfl rfl
        rfl, .reported ?_ fun q hq hw => ?_⟩
      · obtain ⟨q', hq', r, rfl, -, hout⟩ := hmem q hq
        obtain ⟨h1, -⟩ := ht.listener q' hq' hqfd
        refine ⟨h1, ?_⟩
        rw [Bool.eq_false_iff]
        exact fun h => by simp [hout h] at h1
      · have hlen := congrArg List.length hfds
        simp only [List.length_map] at hlen
        simp only [TCPServer.setRevents, hlen]
      · obtain ⟨q', hq', r, rfl, hin, hout⟩ := hmem q hq
        have hnone : q'.events = .none := hp.asked hpc q' hq' hw
        rw [hnone] at hin hout
        obtain ⟨rin, rout⟩ := r
        have h1 : rin = false := by
          rw [Bool.eq_false_iff]
          exact fun h => nomatch hin h
        have h2 : rout = false := by
          rw [Bool.eq_false_iff]
          exact fun h => nomatch hout h
        rw [h1, h2]
        rfl
    · cases hs

/-- **Every step** is one of the effects and keeps the tables. -/
theorem step_effect (ht : Table setup s) (hp : Polled s) {l : Label ι}
    (hs : step setup s l = some (es, s')) : Steps setup s es s' := by
  cases l with
  | worker i act =>
    simp only [step] at hs
    split at hs <;> rename_i hmay
    · obtain ⟨⟨es', pool⟩, hstep, he⟩ := Option.map_eq_some_iff.1 hs
      cases he
      exact ⟨.worker hmay hstep ⟨rfl, rfl, rfl, rfl⟩,
        ht.same rfl ht.listener (fun _ => rfl) rfl rfl rfl, hp.current, hp.asked, hp.told⟩
    · cases hs
  | signal =>
    cases hs
    exact ⟨.idle ⟨rfl, rfl, rfl, rfl⟩, ht.same rfl ht.listener (fun _ => rfl) rfl rfl rfl,
      hp.current, hp.asked, hp.told⟩
  | server choice =>
    simp only [step, serve] at hs
    split at hs <;> rename_i hpc
    · cases hs
      refine ⟨.idle ⟨rfl, rfl, rfl, rfl⟩, ht.same rfl ht.listener (fun _ => rfl) rfl rfl rfl,
        .away ?_ ?_⟩ <;> simp only <;> split <;> simp
    · split at hs
      · rename_i now
        obtain ⟨rfl, rfl⟩ := Prod.mk.inj (Option.some.inj hs)
        exact handleResponses_steps ht hpc
      · cases hs
    · split at hs
      · obtain ⟨s1, hs1, he⟩ := Option.map_eq_some_iff.1 hs
        cases he
        exact poll_steps ht hp hpc hs1
      · cases hs
    · exact dispatch_steps ht hp hpc hs
    · cases hs

/-- Once the server has left its loop only the workers move. -/
theorem step_left {exit : Exit} (hpc : s.pc = .left exit) {l : Label ι}
    (hs : step setup s l = some (es, s')) :
    s'.pc = .left exit ∧ s'.nextConn = s.nextConn ∧
      ∃ es' : List (ThreadPool.Event ι ConnId), es = es'.map .pool := by
  cases l with
  | worker i act =>
    simp only [step] at hs
    split at hs
    · obtain ⟨⟨es', pool⟩, -, he⟩ := Option.map_eq_some_iff.1 hs
      cases he
      exact ⟨hpc, rfl, es', rfl⟩
    · cases hs
  | signal =>
    cases hs
    exact ⟨hpc, rfl, [], rfl⟩
  | server choice =>
    simp only [step, serve, hpc] at hs
    cases hs

/-- The tables of every state that is reached. -/
theorem tables {h : List (Event ι)} (hr : (lts setup).Reach h s) : Table setup s ∧ Polled s := by
  refine hr.inv (I := fun _ s => Table setup s ∧ Polled s) (fun s h0 => ?_)
    fun h s l es s' ⟨ht, hp⟩ hs => (step_effect ht hp hs).tables
  obtain rfl : s = State.init setup := h0
  exact ⟨.init, .away (fun h => by cases h) fun _ _ h => by cases h⟩

end

end Lumen.Network
