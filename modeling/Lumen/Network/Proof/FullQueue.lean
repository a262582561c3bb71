import Lumen.Network.Proof.Dropped

/-!
# More clients than slots

With the SPSC queue and workers that do not move, each of 1024 clients connects, sends a header and
sends a payload: the ring has no slot for the last one. The run is built client by client
(`Stage.next`), each of them in three rounds of the server in which `poll` reports one event
(`event`).
-/

set_option autoImplicit false

namespace Lumen.Network

open Lumen.Lib Lumen.Core Lumen.Concurrency

variable {ι : Type*} [DecidableEq ι] {setup : Setup ι} {s s' : State ι} {i n m : Nat}

/-- `s` is reached by some run. -/
def Reached (setup : Setup ι) (s : State ι) : Prop := ∃ h, (lts setup).Reach h s

theorem Reached.step (hr : Reached setup s) {l : Label ι}
    (hs : (Network.step setup s l).map Prod.snd = some s') : Reached setup s' := by
  obtain ⟨h, hr⟩ := hr
  obtain ⟨⟨es, s'⟩, hst, rfl⟩ := Option.map_eq_some_iff.1 hs
  exact ⟨h ++ es, hr.step hst⟩

/-! ## Rounds -/

/-- The entries from `i` to `m` have nothing to report. -/
theorem Reached.skip (hr : Reached setup s) (hpc : s.pc = .dispatch i n) (hi : i ≤ m) (hm : m ≤ n)
    (hnone : ∀ j, i ≤ j → j < m → ∃ p, s.server.pollfds[j]? = some p ∧ p.revents = .none) :
    Reached setup { s with pc := .dispatch m n } := by
  induction hi with
  | refl =>
    rw [← hpc]
    exact hr
  | @step m hi ih =>
    have hr' := ih (by omega) fun j hj hjm => hnone j hj (by omega)
    obtain ⟨p, hp, hrev⟩ := hnone m hi (Nat.lt_succ_self m)
    refine hr'.step (l := .server .none) ?_
    simp only [Network.step, serve, dispatch, hp, hrev, PollBits.none, if_pos (show m < n by omega),
      Bool.false_eq_true, if_false, Option.map_some]

/-- The end of a round. -/
theorem Reached.finish (hr : Reached setup s) (hpc : s.pc = .dispatch i n) (hi : i ≤ n)
    (hnone : ∀ j, i ≤ j → j < n → ∃ p, s.server.pollfds[j]? = some p ∧ p.revents = .none) :
    Reached setup { s with pc := .loopTest } := by
  refine (hr.skip hpc hi (Nat.le_refl n) hnone).step (l := .server .none) ?_
  simp only [Network.step, serve, dispatch, if_neg (Nat.lt_irrefl n), Option.map_some]

/-- What stays as it is in a round: the listener is polled, and there are no results. -/
structure Quiet (s : State ι) : Prop where
  running : s.running = true
  results : s.pool.mem.results = []
  listener : s.server.pollfds.head?.map (·.events) = some .pollIn

/-- The events selected for an entry. -/
def selected (s : State ι) (i : Nat) (p : Pollfd) : PollBits :=
  if i = 0 then p.events else TCPServer.eventsOf (s.server.session p.fd).state

omit [DecidableEq ι] in
theorem selectEvents_getElem? {p : Pollfd} (hp : s.server.pollfds[i]? = some p) :
    s.server.selectEvents.pollfds[i]? = some { p with events := selected s i p } := by
  unfold TCPServer.selectEvents selected
  split
  · rename_i hnil
    rw [hnil] at hp
    cases hp
  · rename_i listener clients hcons
    rw [hcons] at hp
    cases i with
    | zero => exact hp
    | succ i =>
      simp only [List.getElem?_cons_succ, List.getElem?_map] at hp ⊢
      rw [hp]
      rfl

/-- `poll` reports that the entry `i` is readable, and nothing else. -/
def oneReadable (i n : Nat) : List PollBits :=
  (List.range n).map fun j => if j = i then .pollIn else .none

theorem oneReadable_getElem? {j : Nat} (hj : j < n) :
    (oneReadable i n)[j]? = some (if j = i then .pollIn else .none) := by
  rw [oneReadable, List.getElem?_map, List.getElem?_range hj]
  rfl

omit [DecidableEq ι] in
theorem popImmediate_nil (hres : s.pool.mem.results = []) :
    (popImmediate setup s.pool).2 = s.pool := by
  simp only [popImmediate, ThreadPool.popImmediate, hres]

/-- A round up to the entry `i`, which is readable. -/
structure AtEvent (s s' : State ι) (i : Nat) (p : Pollfd) : Prop where
  quiet : Quiet s'
  pc : s'.pc = .dispatch i s.server.pollfds.length
  length : s'.server.pollfds.length = s.server.pollfds.length
  entry : ∃ q, s'.server.pollfds[i]? = some q ∧ q.fd = p.fd ∧ q.revents.pollin = true
  others : ∀ j, j ≠ i → j < s.server.pollfds.length →
    ∃ q, s'.server.pollfds[j]? = some q ∧ q.revents = .none
  sockfd : s'.server.sockfd = s.server.sockfd
  sessions : s'.server.sessions = s.server.sessions
  conns : s'.conns = s.conns
  pool : s'.pool = s.pool

theorem Reached.event (hr : Reached setup s) (hq : Quiet s) (hpc : s.pc = .loopTest) {p : Pollfd}
    (hp : s.server.pollfds[i]? = some p) (hsel : (selected s i p).pollin = true) :
    ∃ s', Reached setup s' ∧ AtEvent s s' i p := by
  obtain ⟨h, hreach⟩ := hr
  have ht := (tables hreach).1
  have hi := (List.getElem?_eq_some_iff.1 hp).1
  -- the loop test, the results, the selection of the events
  have h1 : Reached setup { s with pc := .handleResponses } := by
    refine Reached.step ⟨h, hreach⟩ (l := .server .none) ?_
    simp only [Network.step, serve, hpc, hq.running, if_true, Option.map_some]
  have h2 : Reached setup { s with server := s.server.selectEvents, pc := .poll } := by
    refine h1.step (l := .server (.clock 0)) ?_
    simp only [Network.step, serve, handleResponses, hq.results, Option.map_some,
      popImmediate_nil hq.results]
  have hlen : s.server.selectEvents.pollfds.length = s.server.pollfds.length := by
    have := congrArg List.length (selectEvents_fds s.server)
    simpa using this
  have hget : ∀ j (hj : j < s.server.pollfds.length), s.server.selectEvents.pollfds[j]? =
      some { s.server.pollfds[j] with events := selected s j s.server.pollfds[j] } := fun j hj =>
    selectEvents_getElem? (List.getElem?_eq_getElem hj)
  have hentry : ∀ j (hj : j < s.server.pollfds.length),
      (s.server.selectEvents.setRevents (oneReadable i s.server.pollfds.length)).pollfds[j]? =
        some { s.server.pollfds[j] with
          events := selected s j s.server.pollfds[j],
          revents := if j = i then .pollIn else .none } := fun j hj => by
    rw [TCPServer.setRevents, List.getElem?_zipWith, hget j hj, oneReadable_getElem? hj]
  have h3 : Reached setup { s with
      server := s.server.selectEvents.setRevents (oneReadable i s.server.pollfds.length),
      pc := .dispatch 0 s.server.pollfds.length } := by
    refine h2.step (l := .server (.poll (some (oneReadable i s.server.pollfds.length)))) ?_
    have hfit : List.Forall₂ Pollfd.Asked s.server.selectEvents.pollfds
        (oneReadable i s.server.pollfds.length) := by
      refine List.forall₂_of_length_eq_of_get ?_ fun j h1 h2 => ?_
      · rw [hlen, oneReadable, List.length_map, List.length_range]
      · have hj : j < s.server.pollfds.length := hlen ▸ h1
        have hleft := (List.getElem?_eq_some_iff.1 (hget j hj)).2
        have hright := (List.getElem?_eq_some_iff.1 (oneReadable_getElem? (i := i) hj)).2
        rw [List.get_eq_getElem, List.get_eq_getElem, hleft, hright]
        by_cases hji : j = i
        · subst hji
          rw [if_pos rfl, (List.getElem?_eq_some_iff.1 hp).2]
          exact ⟨fun _ => hsel, fun h => absurd h Bool.false_ne_true⟩
        · rw [if_neg hji]
          exact ⟨fun h => absurd h Bool.false_ne_true, fun h => absurd h Bool.false_ne_true⟩
    simp only [Network.step, serve, poll, if_pos hfit, hlen, Option.map_some]
  have h4 := h3.skip rfl (Nat.zero_le i) (Nat.le_of_lt hi) fun j _ hj =>
    ⟨_, hentry j (by omega), by rw [if_neg (by omega)]⟩
  have hpi : s.server.pollfds[i] = p := (List.getElem?_eq_some_iff.1 hp).2
  refine ⟨_, h4, ⟨hq.running, hq.results, ?_⟩, rfl, ?_, ⟨_, hentry i hi, ?_, ?_⟩,
    fun j hji hj => ⟨_, hentry j hj, if_neg hji⟩, ?_, ?_, rfl, rfl⟩
  · have hhead := hq.listener
    rw [List.head?_eq_getElem?, List.getElem?_eq_getElem (by omega), Option.map_some] at hhead
    rw [List.head?_eq_getElem?, hentry 0 (by omega), Option.map_some]
    exact hhead
  · simp only [TCPServer.setRevents, List.length_zipWith, hlen, oneReadable, List.length_map,
      List.length_range, Nat.min_self]
  · rw [hpi]
  · rw [if_pos rfl]
    rfl
  · simp only [TCPServer.setRevents, TCPServer.selectEvents]
    split <;> rfl
  · exact ht.selectEvents_sessions

/-! ## Clients -/

/-- So many requests are in the task queue, and no worker is at a slot of it. -/
structure Stage (setup : Setup ι) (k : Nat) (s : State ι) : Prop where
  reached : Reached setup s
  quiet : Quiet s
  pc : s.pc = .loopTest
  tasks : s.pool.mem.queue.tasks.length = k
  unreleased : s.pool.mem.queue.unreleased = []

/-- The last entry is of a client, whose session is `x`. -/
structure Last (setup : Setup ι) (s : State ι) (x : ClientSession) (i : Nat) (fd : Fd) : Prop where
  pos : 0 < i
  length : i + 1 = s.server.pollfds.length
  entry : ∃ p, s.server.pollfds[i]? = some p ∧ p.fd = fd
  client : fd ≠ setup.sockfd
  session : s.server.sessions fd = some x

/-- Some descriptor is not in use. -/
theorem exists_fresh (fds : List Fd) : ∃ fd : Fd, ∀ fd' ∈ fds, fd' < fd := by
  induction fds with
  | nil => exact ⟨0, fun _ h => nomatch h⟩
  | cons fd fds ih =>
    obtain ⟨fd', hfd'⟩ := ih
    refine ⟨max (fd + 1) fd', fun a ha => ?_⟩
    rcases List.mem_cons.1 ha with rfl | ha
    · exact Int.lt_of_lt_of_le (Int.lt_succ a) (Int.le_max_left _ _)
    · exact Int.lt_of_lt_of_le (hfd' a ha) (Int.le_max_right _ _)

/-- A client connects. -/
theorem Stage.connect {k : Nat} (hs : Stage setup k s) :
    ∃ s' i fd, Stage setup k s' ∧ Last setup s' {} i fd := by
  obtain ⟨hr, hq, hpc, htasks, hrel⟩ := hs
  obtain ⟨h, hreach⟩ := id hr
  have ht := (tables hreach).1
  obtain ⟨p, hp, hev⟩ := Option.map_eq_some_iff.1 hq.listener
  have hpfd : p.fd = setup.sockfd := by
    have hhead := ht.head
    rw [State.fds, List.head?_map, hp] at hhead
    exact Option.some.inj hhead
  rw [List.head?_eq_getElem?] at hp
  have hlen := (List.getElem?_eq_some_iff.1 hp).1
  obtain ⟨s1, hr1, he⟩ := hr.event hq hpc hp (by rw [selected, if_pos rfl, hev]; rfl)
  obtain ⟨q, hqe, hqfd, hqin⟩ := he.entry
  obtain ⟨fd, hfresh⟩ := exists_fresh (setup.sockfd :: s.fds)
  have hfd : fd ∉ s.fds := fun h =>
    absurd (hfresh fd (List.mem_cons_of_mem _ h)) (Int.lt_irrefl fd)
  have hne : fd ≠ setup.sockfd := (Int.ne_of_lt (hfresh _ List.mem_cons_self)).symm
  have hfree : s1.conns fd = none := by
    rw [he.conns, ← Option.not_isSome_iff_eq_none, ht.conns]
    exact fun h => hfd h.1
  have hr2 : Reached setup { s1 with
      server := s1.server.handleNewConnection fd .none
      conns := Function.update s1.conns fd (some s1.nextConn), nextConn := s1.nextConn + 1
      pc := .dispatch 1 s.server.pollfds.length } := by
    refine hr1.step (l := .server (.accept (some (fd, .none)))) ?_
    simp only [Network.step, serve, he.pc, dispatch, if_pos hlen, hqe, hqin, if_true, hqfd, hpfd,
      he.sockfd, ht.sockfd, accept, hfree, ne_eq, hne, not_false_eq_true, and_self,
      Option.map_some]
  have hr3 := hr2.finish rfl hlen fun j hj hjn => by
    obtain ⟨q, hq, hrev⟩ := he.others j (by omega) hjn
    exact ⟨q, by
      rw [TCPServer.handleNewConnection, List.getElem?_append_left (by rw [he.length]; exact hjn)]
      exact hq, hrev⟩
  have hhead : (s1.server.handleNewConnection fd .none).pollfds.head? =
      s1.server.pollfds.head? := by
    rw [TCPServer.handleNewConnection, List.head?_append, List.head?_eq_getElem?, hqe]
    rfl
  refine ⟨_, s.server.pollfds.length, fd,
    ⟨hr3, ⟨he.quiet.running, he.quiet.results, ?_⟩, rfl, ?_, ?_⟩, hlen, ?_,
    ⟨{ fd := fd, events := .pollIn, revents := .none }, ?_, rfl⟩, hne, ?_⟩
  · rw [hhead]
    exact he.quiet.listener
  · simp only [he.pool, htasks]
  · simp only [he.pool, hrel]
  · simp only [TCPServer.handleNewConnection, List.length_append, he.length, List.length_singleton]
  · simp only [TCPServer.handleNewConnection, ← he.length, List.getElem?_concat_length]
  · simp only [TCPServer.handleNewConnection, Function.update_self]

/-- A client whose session is `x` has sent something. -/
structure Sent (setup : Setup ι) (k : Nat) (s : State ι) (x : ClientSession) (i : Nat) (fd : Fd) :
    Prop where
  reached : Reached setup s
  quiet : Quiet s
  length : i + 1 = s.server.pollfds.length
  entry : ∃ p, s.server.pollfds[i]? = some p ∧ p.fd = fd
  session : s.server.sessions fd = some x
  tasks : s.pool.mem.queue.tasks.length = k
  unreleased : s.pool.mem.queue.unreleased = []
  step : ∀ recv memory now, Network.step setup s (.server (.recv recv memory now)) =
    read setup s i (i + 1) fd recv memory now
  finalizing : ∀ recv memory now, finalizing s (.server (.recv recv memory now)) =
    x.finalizes recv

/-- A round up to the last client, which has sent something. -/
theorem Stage.readable {k : Nat} (hs : Stage setup k s) {x : ClientSession} {fd : Fd}
    (hl : Last setup s x i fd) (hev : (TCPServer.eventsOf x.state).pollin = true) :
    ∃ s1, Sent setup k s1 x i fd := by
  have hi : i ≠ 0 := Nat.pos_iff_ne_zero.1 hl.pos
  obtain ⟨p, hp, rfl⟩ := hl.entry
  obtain ⟨s1, hr1, he⟩ := hs.reached.event hs.quiet hs.pc hp (by
    rw [selected, if_neg hi, session_eq hl.session]
    exact hev)
  obtain ⟨q, hqe, hqfd, hqin⟩ := he.entry
  obtain ⟨h, hreach⟩ := hs.reached
  have hpc := he.pc
  rw [← hl.length] at hpc
  have hx1 : s1.server.sessions p.fd = some x := by rw [he.sessions, hl.session]
  have hsock : s1.server.sockfd = setup.sockfd := he.sockfd.trans (tables hreach).1.sockfd
  refine ⟨s1, hr1, he.quiet, hl.length.trans he.length.symm, ⟨q, hqe, hqfd⟩, hx1, ?_, ?_,
    fun recv memory now => ?_, fun recv memory now => ?_⟩
  · rw [he.pool, hs.tasks]
  · rw [he.pool, hs.unreleased]
  · simp only [Network.step, serve, hpc, dispatch, if_pos (Nat.lt_succ_self i), hqe, hqin, if_true,
      hqfd, hsock, if_neg hl.client]
  · simp only [Network.finalizing, hpc, hqe, hqin, hqfd, hsock, session_eq hx1, ne_eq, hl.client,
      not_false_eq_true, decide_true, Nat.lt_succ_self, Bool.true_and]

/-- The session of a client that has sent the header of a payload of one byte. -/
def announced : ClientSession :=
  { state := .bodyPending, expectedSize := 1, bodyBuffer := [0], headerBuffer := [0, 0, 0, 1],
    headerBytesReceived := 4 }

/-- The last client sends the header. -/
theorem Stage.announce {k : Nat} (hs : Stage setup k s) {fd : Fd} (hl : Last setup s {} i fd) :
    ∃ s', Stage setup k s' ∧ Last setup s' announced i fd := by
  obtain ⟨s1, hsent⟩ := hs.readable hl rfl
  have hr2 : Reached setup { s1 with
      server := s1.server.setSession fd announced, pc := .dispatch (i + 1) (i + 1) } := by
    refine hsent.reached.step (l := .server (.recv (.data [0, 0, 0, 1]) true 0)) ?_
    rw [hsent.step, read, session_eq hsent.session]
    rfl
  have hr3 := hr2.finish rfl (Nat.le_refl _) fun j hj hjn => absurd hjn (Nat.not_lt.2 hj)
  exact ⟨_, ⟨hr3, ⟨hsent.quiet.running, hsent.quiet.results, hsent.quiet.listener⟩, rfl,
    hsent.tasks, hsent.unreleased⟩, hl.pos, hsent.length, hsent.entry, hl.client,
    Function.update_self _ _ _⟩

/-- The last byte of the payload completes the request. -/
theorem Sent.completes {k : Nat} {fd : Fd} (hs : Sent setup k s announced i fd) :
    Network.finalizing s (.server (.recv (.data [7]) true 0)) = true ∧
      ∃ task es s', Network.step setup s (.server (.recv (.data [7]) true 0)) = some (es, s') ∧
        s'.pc = .dispatch (i + 1) (i + 1) ∧ s'.running = s.running ∧
        s'.server.pollfds = s.server.pollfds ∧
        s'.pool = (push setup s.pool { task := task, tag := s.conn fd }).2.2 := by
  refine ⟨(hs.finalizing _ _ _).trans rfl, ?_⟩
  rw [hs.step, read, session_eq hs.session]
  exact ⟨_, _, _, rfl, rfl, rfl, rfl, rfl⟩

/-- One more request is accepted. -/
theorem Stage.next {k : Nat} (hs : Stage setup k s) (hkind : setup.pool.kind = .spsc)
    (hk : k < 1023) : ∃ s', Stage setup (k + 1) s' := by
  obtain ⟨s1, i, fd, hs1, hl1⟩ := hs.connect
  obtain ⟨s2, hs2, hl2⟩ := hs1.announce hl1
  obtain ⟨s3, hsent⟩ := hs2.readable hl2 rfl
  obtain ⟨hf, task, es, s4, hstep, hpc, hrun, hpoll, hpool⟩ := hsent.completes
  obtain ⟨h, hreach⟩ := hsent.reached
  have hopen := (served hreach).linked.opened
  have hpush : s3.pool.mem.queue.push setup.pool.kind { task := task, tag := s3.conn fd } =
      (true, { s3.pool.mem.queue with
        tasks := s3.pool.mem.queue.tasks ++ [{ task := task, tag := s3.conn fd }]
        accepted := s3.pool.mem.queue.accepted + 1 }) := by
    have hroom : ¬ 1023 ≤ s3.pool.mem.queue.tasks.length + s3.pool.mem.queue.unreleased.length := by
      rw [hsent.tasks, hsent.unreleased, List.length_nil]
      omega
    simp [TaskQueue.push, TaskQueue.full, TaskQueue.closed, hkind, hopen, hroom]
  have hr4 : Reached setup s4 := hsent.reached.step (by rw [hstep]; rfl)
  have hr5 := hr4.finish hpc (Nat.le_refl _) fun j hj hjn => absurd hjn (Nat.not_lt.2 hj)
  refine ⟨_, hr5, ⟨hrun.trans hsent.quiet.running, ?_, ?_⟩, rfl, ?_, ?_⟩
  · simp only [hpool, push, ThreadPool.push, hpush]
    exact hsent.quiet.results
  · simp only [hpoll]
    exact hsent.quiet.listener
  · simp only [hpool, push, ThreadPool.push, hpush, List.length_append, hsent.tasks,
      List.length_singleton]
  · simp only [hpool, push, ThreadPool.push, hpush]
    exact hsent.unreleased

theorem Stage.init : Stage setup 0 (State.init setup) :=
  ⟨⟨[], .init rfl⟩, ⟨rfl, rfl, rfl⟩, rfl, rfl, rfl⟩

theorem exists_stage (hkind : setup.pool.kind = .spsc) {k : Nat} (hk : k ≤ 1023) :
    ∃ s, Stage setup k s := by
  induction k with
  | zero => exact ⟨_, .init⟩
  | succ k ih =>
    obtain ⟨s, hs⟩ := ih (Nat.le_of_succ_le hk)
    exact hs.next hkind hk

/-- With the SPSC queue some run drops a request. -/
theorem exists_dropped (setup : Setup ι) (hkind : setup.pool.kind = .spsc) :
    ∃ h s fd, (lts setup).Reach h s ∧ s.Waiting fd ∧
      ∀ job ∈ outstanding setup s, job.task.clientFd ≠ fd := by
  obtain ⟨s, hs⟩ := exists_stage hkind (Nat.le_refl 1023)
  obtain ⟨s1, i, fd, hs1, hl1⟩ := hs.connect
  obtain ⟨s2, hs2, hl2⟩ := hs1.announce hl1
  obtain ⟨s3, hsent⟩ := hs2.readable hl2 rfl
  obtain ⟨hf, task, es, s4, hstep, -⟩ := hsent.completes
  obtain ⟨h, hreach⟩ := hsent.reached
  have hroom : ¬ Room setup s3 (.server (.recv (.data [7]) true 0)) := fun hroom => by
    have hfull := hroom hf
    simp [TaskQueue.full, hkind, hsent.tasks] at hfull
  obtain ⟨fd', hw, hnot⟩ := not_kept (served hreach) hroom hstep
  obtain ⟨h', hreach'⟩ : Reached setup s4 := hsent.reached.step (by rw [hstep]; rfl)
  exact ⟨h', s4, fd', hreach', hw, hnot⟩

/-- The pool with one worker, with the SPSC queue. -/
def spscPod : Setup (Fin 2) := { onePod with pool := { onePod.pool with kind := .spsc } }

/-- A request that waits with no job outstanding for it. -/
theorem droppedRequest : ∃ h s, (lts spscPod).Reach h s ∧ ¬ NoneDropped spscPod s ∧
    ∃ fd, s.Waiting fd ∧ ∀ job ∈ outstanding spscPod s, job.task.clientFd ≠ fd := by
  obtain ⟨h, s, fd, hr, hw, hnot⟩ := exists_dropped spscPod rfl
  refine ⟨h, s, hr, fun hn => ?_, fd, hw, hnot⟩
  obtain ⟨job, hjob, hfd⟩ := hn.kept fd hw
  exact hnot job hjob hfd

/-- One request finds room. -/
theorem undropped_request : ∃ h s, (lts spscPod).ReachIf (fun _ s l => Room spscPod s l) h s ∧
    s.Waiting 4 ∧ NoneDropped spscPod s := by
  have hC : (lts spscPod).Along (fun _ s l => Room spscPod s l) [] (State.init spscPod)
      (header ++ readRound [9, 8, 7]) := by decide +kernel
  have he : ((lts spscPod).exec (State.init spscPod) (header ++ readRound [9, 8, 7])).map (fun p =>
      (p.2.server.sessions 4).map (·.state)) = some (some .inferencePending) := by decide +kernel
  obtain ⟨⟨h, s⟩, he, hx⟩ := Option.map_eq_some_iff.1 he
  obtain ⟨x, hx, hst⟩ := Option.map_eq_some_iff.1 hx
  have hr := Lts.ReachIf.along (.init rfl) hC he
  exact ⟨h, s, hr, ⟨x, hx, hst⟩, (undropped hr).1⟩

end Lumen.Network
