import Lumen.Network.Proof.Responses

/-!
# The dispatch loop

`Visits` says what the dispatch of one entry does to the entries: the loop goes on to the next one,
a new one comes to the end, or the last one takes the place of the closed one. From it follows that
`pollfds` and `sessions` agree in every run, and that a connection is closed at its own entry, once
(`correspondence`).
-/

set_option autoImplicit false

namespace Lumen.Network

open Lumen.Lib Lumen.Core Lumen.Concurrency

variable {ι : Type*}

/-- What the dispatch of the entry `p` at `i`, of the first `n`, does. -/
inductive Visits (setup : Setup ι) (s : State ι) (i n : Nat) (p : Pollfd) (es : List (Event ι))
    (s' : State ι) : Prop
  | next : s'.pc = .dispatch (i + 1) n → s'.server.pollfds = s.server.pollfds →
      (∀ c, .closed c ∉ es) → Visits setup s i n p es s'
  | accepted (q : Pollfd) : p.fd = setup.sockfd → s'.pc = .dispatch (i + 1) n →
      s'.server.pollfds = s.server.pollfds ++ [q] → q.fd ∉ s.fds → (∀ c, .closed c ∉ es) →
      Visits setup s i n p es s'
  | closed (c : ConnId) (front : List (Event ι)) : p.fd ≠ setup.sockfd →
      s.conns p.fd = some c → s'.pc = .dispatch i (n - 1) →
      s'.server.pollfds = swapRemove s.server.pollfds i →
      s'.server.sessions = Function.update s.server.sessions p.fd none →
      s'.conns = Function.update s.conns p.fd none → es = front ++ [.closed c] →
      (∀ c', .closed c' ∉ front) → Visits setup s i n p es s'
  | left (exit : Exit) : s'.pc = .left exit → (∀ c, .closed c ∉ es) → Visits setup s i n p es s'

section
variable {setup : Setup ι} {h es : List (Event ι)} {s s' : State ι} {i n : Nat} {p : Pollfd}

@[simp] theorem closed_notMem (c c' : ConnId) (bs : List UInt8) :
    .closed c ∉ (receivedEvents c' bs : List (Event ι)) := by
  unfold receivedEvents
  split <;> simp

theorem accept_visits (hd : Dispatching setup s i n p) (hfd : p.fd = setup.sockfd)
    {fd : Option (Fd × PollBits)} (hs : accept setup s i n fd = some (es, s')) :
    Visits setup s i n p es s' := by
  unfold accept at hs
  split at hs
  · cases hs
    exact .next rfl rfl fun c => by simp
  · rename_i fd revents
    split at hs
    · rename_i hfree
      cases hs
      refine .accepted _ hfd rfl rfl ?_ fun c => by simp
      intro hmem
      have := (hd.table.conns fd).2 ⟨hmem, hfree.2⟩
      rw [hfree.1] at this
      cases this
    · cases hs

theorem read_visits (hd : Dispatching setup s i n p) (hfd : p.fd ≠ setup.sockfd)
    {recv : Recv} {memory : Bool} {now : Rat}
    (hs : read setup s i n p.fd recv memory now = some (es, s')) : Visits setup s i n p es s' := by
  obtain ⟨x, c, hx, hc⟩ := hd.table.client hd.entry hfd
  have hconn : s.conn p.fd = c := by
    rw [State.conn, hc]
    rfl
  simp only [read, Option.map_eq_some_iff] at hs
  obtain ⟨h, hh, hs⟩ := hs
  rw [hconn] at hs
  cases htask : h.task with
  | some task =>
    obtain ⟨hret, hthrown, -⟩ := handleClientData_task hh htask
    simp only [handled, htask, hthrown, hret, hconn, Bool.false_eq_true, if_false,
      show ¬ (1 : Int) ≤ 0 by decide] at hs
    cases hs
    exact .next rfl rfl fun c' => by simp
  | none =>
    simp only [handled, htask, hconn] at hs
    split at hs
    · cases hs
      exact .left _ rfl fun c' => by simp
    · split at hs
      · cases hs
        refine .closed c (.readable c :: receivedEvents c h.received) hfd hc rfl rfl
          (Function.update_idem _ _ _) rfl ?_ fun c' => by simp
        rw [State.close, State.conn, hc]
        rfl
      · cases hs
        exact .next rfl rfl fun c' => by simp

theorem send_visits (hd : Dispatching setup s i n p) (hfd : p.fd ≠ setup.sockfd)
    {r : Send} (hs : send s i n p.fd r = some (es, s')) : Visits setup s i n p es s' := by
  obtain ⟨x, c, hx, hc⟩ := hd.table.client hd.entry hfd
  unfold send at hs
  simp only [session_eq hx] at hs
  split at hs
  · split at hs
    · split at hs
      · split at hs <;> cases hs <;> exact .next rfl rfl fun c' => by simp
      · cases hs
        exact .next rfl rfl fun c' => by simp
    · cases hs
      exact .next rfl rfl fun c' => by simp
    · cases hs
      refine .closed c [] hfd hc rfl rfl (Function.update_idem _ _ _) rfl ?_ fun c' => by simp
      rw [State.close, State.conn, hc]
      rfl
    · cases hs
      exact .left _ rfl fun c' => by simp
  · cases hs

variable [DecidableEq ι]

/-- What the dispatch of an entry does. -/
theorem dispatch_visits (ht : Table setup s) (hp : Polled s) (hpc : s.pc = .dispatch i n)
    (hi : i < n) {choice : Choice} (hs : step setup s (.server choice) = some (es, s')) :
    ∃ p, s.server.pollfds[i]? = some p ∧ Visits setup s i n p es s' := by
  simp only [step, serve, hpc, dispatch, if_pos hi] at hs
  split at hs
  · cases hs
  · rename_i p hentry
    refine ⟨p, hentry, ?_⟩
    have hd : Dispatching setup s i n p := ⟨ht, hp, hpc, hi, hentry⟩
    split at hs
    · split at hs <;> rename_i hfd
      · rw [ht.sockfd] at hfd
        split at hs
        · exact accept_visits hd hfd hs
        · cases hs
      · rw [ht.sockfd] at hfd
        split at hs
        · exact read_visits hd hfd hs
        · cases hs
    · split at hs <;> rename_i hout
      · have hfd : p.fd ≠ setup.sockfd := by
          intro hfd
          rw [(ht.listener p (List.mem_of_getElem? hentry) hfd).2] at hout
          cases hout
        split at hs
        · exact send_visits hd hfd hs
        · cases hs
      · cases hs
        exact .next rfl rfl fun c => by simp

/-- A connection is closed only by the dispatch of its entry. -/
theorem step_closed (ht : Table setup s) (hp : Polled s) {l : Label ι}
    (hs : step setup s l = some (es, s')) {c : ConnId} (hmem : .closed c ∈ es) :
    ∃ i n p, s.pc = .dispatch i n ∧ i < n ∧ s.server.pollfds[i]? = some p ∧
      p.fd ≠ setup.sockfd ∧ s.conns p.fd = some c ∧ s'.pc = .dispatch i (n - 1) ∧
      s'.server.pollfds = swapRemove s.server.pollfds i ∧
      s'.server.sessions = Function.update s.server.sessions p.fd none ∧
      s'.conns = Function.update s.conns p.fd none ∧
      ∃ front, es = front ++ [.closed c] ∧ ∀ c', .closed c' ∉ front := by
  cases l with
  | worker i act =>
    simp only [step] at hs
    split at hs
    · obtain ⟨⟨es', pool⟩, -, he⟩ := Option.map_eq_some_iff.1 hs
      cases he
      simp at hmem
    · cases hs
  | signal =>
    cases hs
    cases hmem
  | server choice =>
    by_cases hdisp : ∃ i n, s.pc = .dispatch i n ∧ i < n
    · obtain ⟨i, n, hpc, hi⟩ := hdisp
      obtain ⟨p, hentry, hvis⟩ := dispatch_visits ht hp hpc hi hs
      cases hvis with
      | next _ _ hno => exact absurd hmem (hno c)
      | accepted q _ _ _ _ hno => exact absurd hmem (hno c)
      | left exit _ hno => exact absurd hmem (hno c)
      | closed c' front hfd hc hpc' hpoll hsess hconns hes hfront =>
        rw [hes] at hmem
        rcases List.mem_append.1 hmem with hmem | hmem
        · exact absurd hmem (hfront c)
        · cases List.mem_singleton.1 hmem
          exact ⟨i, n, p, hpc, hi, hentry, hfd, hc, hpc', hpoll, hsess, hconns, front, hes, hfront⟩
    · simp only [step, serve] at hs
      split at hs <;> rename_i hpc
      · cases hs
        cases hmem
      · split at hs
        · obtain ⟨rfl, -⟩ := Prod.mk.inj (Option.some.inj hs)
          split at hmem
          · simp at hmem
          · simp only [TCPServer.handleResponse] at hmem
            split at hmem <;> simp at hmem
        · cases hs
      · split at hs
        · obtain ⟨s1, -, he⟩ := Option.map_eq_some_iff.1 hs
          cases he
          cases hmem
        · cases hs
      · rename_i i n
        have hi : ¬ i < n := fun hi => hdisp ⟨i, n, hpc, hi⟩
        simp only [dispatch, if_neg hi] at hs
        cases hs
        cases hmem
      · cases hs

/-! ## The entries and the sessions -/

/-- A session comes only with a connection. -/
theorem Effect.keys (he : Effect setup s es s') {fd : Fd}
    (hfd : (s'.server.sessions fd).isSome = true) :
    (s.server.sessions fd).isSome = true ∨ ∃ c, .opened c fd ∈ es := by
  have hupd : ∀ {fd' : Fd} {x : ClientSession} {y : Option ClientSession},
      s.server.sessions fd' = some x →
        s'.server.sessions = Function.update s.server.sessions fd' y →
      (s.server.sessions fd).isSome = true := by
    intro fd' x y hx hsess
    rw [hsess] at hfd
    by_cases h : fd = fd'
    · rw [h, hx]
      rfl
    · rwa [Function.update_of_ne h] at hfd
  cases he with
  | idle hb => exact .inl (hb.sessions ▸ hfd)
  | worker _ _ hb => exact .inl (hb.sessions ▸ hfd)
  | popped _ hb => exact .inl (hb.sessions ▸ hfd)
  | installed _ hx _ hb => exact .inl (hupd hx hb.sessions)
  | @opened _ fd' _ _ hsess _ _ _ =>
    rw [hsess] at hfd
    rcases isSome_update_some.1 hfd with h | rfl
    · exact .inl h
    · exact .inr ⟨_, List.mem_cons_self⟩
  | read hx _ _ _ _ _ _ hb => exact .inl (hupd hx hb.sessions)
  | readClosed hx _ _ _ _ _ hb => exact .inl (hupd hx hb.sessions)
  | submitted hx _ _ _ _ hb => exact .inl (hupd hx hb.sessions)
  | sent hx _ _ _ _ hb => exact .inl (hupd hx hb.sessions)
  | completed hx _ _ _ _ hb => exact .inl (hupd hx hb.sessions)
  | sendClosed hx _ _ hb => exact .inl (hupd hx hb.sessions)

/-- A connection comes with a new number. -/
theorem Effect.conns (he : Effect setup s es s') : s.nextConn ≤ s'.nextConn ∧
    ∀ fd c, s'.conns fd = some c → s.conns fd = some c ∨ (c = s.nextConn ∧ c < s'.nextConn) := by
  have hsame : s'.conns = s.conns → s'.nextConn = s.nextConn → s.nextConn ≤ s'.nextConn ∧
      ∀ fd c, s'.conns fd = some c → s.conns fd = some c ∨ (c = s.nextConn ∧ c < s'.nextConn) := by
    intro hc hn
    exact ⟨Nat.le_of_eq hn.symm, fun fd c h => .inl (hc ▸ h)⟩
  have hclosed : ∀ fd', s'.conns = Function.update s.conns fd' none → s'.nextConn = s.nextConn →
      s.nextConn ≤ s'.nextConn ∧ ∀ fd c, s'.conns fd = some c →
        s.conns fd = some c ∨ (c = s.nextConn ∧ c < s'.nextConn) := by
    intro fd' hc hn
    refine ⟨Nat.le_of_eq hn.symm, fun fd c h => .inl ?_⟩
    rw [hc] at h
    exact (update_none_eq_some.1 h).2
  cases he with
  | idle hb => exact hsame hb.conns hb.nextConn
  | worker _ _ hb => exact hsame hb.conns hb.nextConn
  | popped _ hb => exact hsame hb.conns hb.nextConn
  | installed _ _ _ hb => exact hsame hb.conns hb.nextConn
  | @opened _ fd' _ _ _ hc hn _ =>
    refine ⟨hn ▸ Nat.le_succ _, ?_⟩
    intro fd c h
    rw [hc] at h
    rcases update_some_eq_some.1 h with ⟨-, rfl⟩ | ⟨-, h⟩
    · exact .inr ⟨rfl, hn ▸ Nat.lt_succ_self _⟩
    · exact .inl h
  | read _ _ _ _ _ _ _ hb => exact hsame hb.conns hb.nextConn
  | readClosed _ _ _ _ _ _ hb => exact hclosed _ hb.conns hb.nextConn
  | submitted _ _ _ _ _ hb => exact hsame hb.conns hb.nextConn
  | sent _ _ _ _ _ hb => exact hsame hb.conns hb.nextConn
  | completed _ _ _ _ _ hb => exact hsame hb.conns hb.nextConn
  | sendClosed _ _ _ hb => exact hclosed _ hb.conns hb.nextConn

/-- No connection is closed twice. -/
structure ClosedOnce (h : List (Event ι)) (s : State ι) : Prop where
  numbered : ∀ c, .closed c ∈ h → c < s.nextConn
  gone : ∀ fd c, s.conns fd = some c → .closed c ∉ h
  once : Past (fun h e => ∀ c, e = .closed c → .closed c ∉ h) h

theorem ClosedOnce.step (hc : ClosedOnce h s) (hv : Served setup h s) {l : Label ι}
    (hs : Network.step setup s l = some (es, s')) : ClosedOnce (h ++ es) s' := by
  obtain ⟨hnext, hconns⟩ := (hv.step hs).1.conns
  -- an event of this step is of a connection that has been open so far
  have hopen : ∀ c, .closed c ∈ es → ∃ fd, s.conns fd = some c := by
    intro c hmem
    obtain ⟨i, n, p, -, -, -, -, hfd, -⟩ := step_closed hv.table hv.polled hs hmem
    exact ⟨p.fd, hfd⟩
  refine ⟨?_, ?_, ?_⟩
  · intro c hmem
    rcases List.mem_append.1 hmem with hold | hnew
    · exact Nat.lt_of_lt_of_le (hc.numbered c hold) hnext
    · obtain ⟨fd, hfd⟩ := hopen c hnew
      exact Nat.lt_of_lt_of_le (hv.table.conn_lt fd c hfd) hnext
  · intro fd c hfd hmem
    rcases List.mem_append.1 hmem with hold | hnew
    · rcases hconns fd c hfd with h | ⟨h, -⟩
      · exact hc.gone fd c h hold
      · exact absurd (hc.numbered c hold) (h ▸ Nat.lt_irrefl _)
    · obtain ⟨i, n, p, -, -, -, -, hpc, -, -, -, hupd, -⟩ :=
        step_closed hv.table hv.polled hs hnew
      rw [hupd] at hfd
      have hsame := hv.table.conn_inj _ _ _ (update_none_eq_some.1 hfd).2 hpc
      rw [hsame, Function.update_self] at hfd
      cases hfd
  · refine hc.once.append ?_
    rintro es1 e es2 heq c rfl hmem
    have hnew : .closed c ∈ es := heq ▸ List.mem_append_right _ List.mem_cons_self
    rcases List.mem_append.1 hmem with hold | hmem
    · obtain ⟨fd, hfd⟩ := hopen c hnew
      exact hc.gone fd c hfd hold
    · obtain ⟨i, n, p, -, -, -, -, -, -, -, -, -, front, hes, hfront⟩ :=
        step_closed hv.table hv.polled hs hnew
      rw [heq] at hes
      rcases List.append_eq_append_iff.1 hes with ⟨a, rfl, -⟩ | ⟨a, rfl, ha⟩
      · exact hfront c (List.mem_append_left _ hmem)
      · cases a with
        | nil => exact hfront c (by simpa using hmem)
        | cons e a => simp at ha

/-- **`pollfds` and `sessions`** agree: the first entry is the listener, the others are the clients,
each once, and they have the sessions. A connection is closed by the dispatch of its entry, which is
not the first, while it is open; it is closed once. A session is made only by `accept`. -/
structure Correspondence (setup : Setup ι) (h : List (Event ι)) (s : State ι) : Prop where
  listener : s.server.pollfds.head?.map (·.fd) = some setup.sockfd
  nodup : (s.server.pollfds.tail.map (·.fd)).Nodup
  clients : ∀ p ∈ s.server.pollfds.tail, p.fd ≠ setup.sockfd
  keys : ∀ fd, (s.server.sessions fd).isSome = true ↔ fd ∈ s.server.pollfds.tail.map (·.fd)
  created : ∀ l es s' fd, Network.step setup s l = some (es, s') →
    (s'.server.sessions fd).isSome = true →
      (s.server.sessions fd).isSome = true ∨ ∃ c, .opened c fd ∈ es
  close : ∀ l es s' c, Network.step setup s l = some (es, s') → .closed c ∈ es →
    ∃ i n p, s.pc = .dispatch i n ∧ 1 ≤ i ∧ i < n ∧ s.server.pollfds[i]? = some p ∧
      s.conns p.fd = some c ∧ s'.pc = .dispatch i (n - 1) ∧
      s'.server.pollfds = swapRemove s.server.pollfds i ∧
      s'.server.sessions = Function.update s.server.sessions p.fd none
  once : Past (fun h e => ∀ c, e = .closed c → .closed c ∉ h) h

theorem correspondence (hr : (lts setup).Reach h s) : Correspondence setup h s := by
  have hv := served hr
  have ht := hv.table
  have hnd := ht.nodup
  have hhead := ht.head
  have hsplit : s.fds = setup.sockfd :: s.server.pollfds.tail.map (·.fd) := by
    unfold State.fds at hhead ⊢
    cases hpoll : s.server.pollfds with
    | nil =>
      rw [hpoll] at hhead
      cases hhead
    | cons listener clients =>
      rw [hpoll] at hhead
      rw [List.map_cons, List.tail_cons, show listener.fd = setup.sockfd from Option.some.inj hhead]
  rw [hsplit, List.nodup_cons] at hnd
  refine ⟨?_, hnd.2, fun p hp => ht.tail_fd_ne hp, ?_, ?_, ?_, ?_⟩
  · rw [← List.head?_map]
    exact hhead
  · intro fd
    rw [ht.sessions, hsplit, List.mem_cons]
    constructor
    · rintro ⟨h | h, hne⟩
      · exact absurd h hne
      · exact h
    · intro hmem
      exact ⟨.inr hmem, fun he => hnd.1 (he ▸ hmem)⟩
  · intro l es s' fd hs hfd
    exact (hv.step hs).1.keys hfd
  · intro l es s' c hs hmem
    obtain ⟨i, n, p, hpc, hi, hp, hfd, hc, hpc', hpoll, hsess, -⟩ :=
      step_closed ht hv.polled hs hmem
    exact ⟨i, n, p, hpc, ht.pos hp hfd, hi, hp, hc, hpc', hpoll, hsess⟩
  · refine (hr.inv_of_reach (I := fun h s => ClosedOnce h s) ?_
      fun h s l es s' hr hc _ hs => hc.step (served hr) hs).once
    intro s h0
    obtain rfl : s = State.init setup := h0
    exact ⟨fun _ h => (nomatch h), fun _ _ h => (nomatch h), .nil⟩

end

/-- Two clients connect, and the first closes its end. -/
def closing : List (Label (Fin 2)) :=
  round 0 [.pollIn] [.accept (some (4, .none))] ++
    (round 0 [.pollIn, .none] [.accept (some (5, .none)), .none] ++
      round 0 [.none, .pollIn, .none] [.none, .recv .eof true 0, .none])

theorem correspondence_closing : ∃ h s, (lts onePod).Reach h s ∧
    s.server.pollfds.map (·.fd) = [3, 5] ∧ Correspondence onePod h s := by
  have he : ((lts onePod).exec (State.init onePod) closing).map (fun p =>
      p.2.server.pollfds.map (·.fd)) = some [3, 5] := by decide +kernel
  obtain ⟨⟨h, s⟩, he, hfds⟩ := Option.map_eq_some_iff.1 he
  have hr : (lts onePod).Reach h s := .of_exec rfl he
  exact ⟨h, s, hr, hfds, correspondence hr⟩

end Lumen.Network
