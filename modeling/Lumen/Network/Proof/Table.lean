import Lumen.Lib.PartialMap
import Lumen.Network.System
import Mathlib.Data.List.Nodup

/-!
# The tables of the server

`Table`: the first entry of `pollfds` is the listening socket; the other descriptors are distinct,
and they are those of the sessions and of the open connections. `Polled`: a session that waits for
its result is not polled, and has no event in the entries that are still to be dispatched, also when
the last entry has taken the place of a closed one and when a new entry holds stale bits.
-/

set_option autoImplicit false

namespace Lumen.Network

open Lumen.Lib Lumen.Core Lumen.Concurrency

variable {ι : Type*}

namespace State

/-- The descriptors of `pollfds`. -/
def fds (s : State ι) : List Fd := s.server.pollfds.map (·.fd)

/-- The session of `fd` waits for its result. -/
def Waiting (s : State ι) (fd : Fd) : Prop :=
  ∃ x, s.server.sessions fd = some x ∧ x.state = .inferencePending

end State

structure Table (setup : Setup ι) (s : State ι) : Prop where
  sockfd : s.server.sockfd = setup.sockfd
  head : s.fds.head? = some setup.sockfd
  nodup : s.fds.Nodup
  listener : ∀ p ∈ s.server.pollfds, p.fd = setup.sockfd →
    p.events.pollout = false ∧ p.revents.pollout = false
  sessions : ∀ fd, (s.server.sessions fd).isSome = true ↔ fd ∈ s.fds ∧ fd ≠ setup.sockfd
  conns : ∀ fd, (s.conns fd).isSome = true ↔ fd ∈ s.fds ∧ fd ≠ setup.sockfd
  conn_lt : ∀ fd c, s.conns fd = some c → c < s.nextConn
  conn_inj : ∀ fd fd' c, s.conns fd = some c → s.conns fd' = some c → fd = fd'

structure Polled (s : State ι) : Prop where
  current : ∀ i n, s.pc = .dispatch i n → i ≤ n ∧ n ≤ s.server.pollfds.length
  asked : s.pc = .poll → ∀ p ∈ s.server.pollfds, s.Waiting p.fd → p.events = .none
  told : ∀ i n, s.pc = .dispatch i n →
    ∀ p ∈ s.server.pollfds.drop i, s.Waiting p.fd → p.revents = .none

namespace Table

variable {setup : Setup ι} {s s' : State ι}

theorem init [DecidableEq ι] : Table setup (State.init setup) where
  sockfd := rfl
  head := rfl
  nodup := List.nodup_singleton _
  listener p hp _ := by
    obtain rfl := List.mem_singleton.1 hp
    exact ⟨rfl, rfl⟩
  sessions fd := by simp [State.init, TCPServer.new, State.fds]
  conns fd := by simp [State.init, TCPServer.new, State.fds]
  conn_lt _ _ h := by cases h
  conn_inj _ _ _ h := by cases h

/-- The descriptors stay. -/
theorem same (ht : Table setup s) (hfds : s'.fds = s.fds)
    (hlist : ∀ p ∈ s'.server.pollfds, p.fd = setup.sockfd →
      p.events.pollout = false ∧ p.revents.pollout = false)
    (hsess : ∀ fd, (s'.server.sessions fd).isSome = (s.server.sessions fd).isSome)
    (hconns : s'.conns = s.conns) (hnext : s'.nextConn = s.nextConn)
    (hsock : s'.server.sockfd = s.server.sockfd) : Table setup s' where
  sockfd := hsock.trans ht.sockfd
  head := hfds ▸ ht.head
  nodup := hfds ▸ ht.nodup
  listener := hlist
  sessions fd := by rw [hsess, hfds, ht.sessions]
  conns fd := by rw [hconns, hfds, ht.conns]
  conn_lt := by rw [hconns, hnext]; exact ht.conn_lt
  conn_inj := by rw [hconns]; exact ht.conn_inj

theorem mem_fds {i : Nat} {p : Pollfd} (hp : s.server.pollfds[i]? = some p) : p.fd ∈ s.fds :=
  List.mem_map_of_mem (List.mem_of_getElem? hp)

/-- A client entry has its session and its connection. -/
theorem client (ht : Table setup s) {i : Nat} {p : Pollfd} (hp : s.server.pollfds[i]? = some p)
    (hfd : p.fd ≠ setup.sockfd) :
    ∃ x c, s.server.sessions p.fd = some x ∧ s.conns p.fd = some c := by
  have hmem : p.fd ∈ s.fds ∧ p.fd ≠ setup.sockfd := ⟨mem_fds hp, hfd⟩
  obtain ⟨x, hx⟩ := Option.isSome_iff_exists.1 ((ht.sessions p.fd).2 hmem)
  obtain ⟨c, hc⟩ := Option.isSome_iff_exists.1 ((ht.conns p.fd).2 hmem)
  exact ⟨x, c, hx, hc⟩

/-- Some session of an open descriptor changes. -/
theorem setSession (ht : Table setup s) {fd : Fd} {x : ClientSession}
    (hfd : (s.server.sessions fd).isSome = true) (hpoll : s'.server.pollfds = s.server.pollfds)
    (hsess : s'.server.sessions = Function.update s.server.sessions fd (some x))
    (hconns : s'.conns = s.conns) (hnext : s'.nextConn = s.nextConn)
    (hsock : s'.server.sockfd = s.server.sockfd) : Table setup s' := by
  refine ht.same ?_ ?_ ?_ hconns hnext hsock
  · rw [State.fds, hpoll, State.fds]
  · rw [hpoll]
    exact ht.listener
  · intro fd'
    rw [hsess, isSome_update_of_isSome hfd]

/-- An entry with another descriptor than the listener is not the first. -/
theorem pos (ht : Table setup s) {p : Pollfd} {i : Nat} (hp : s.server.pollfds[i]? = some p)
    (hfd : p.fd ≠ setup.sockfd) : 0 < i := by
  rcases Nat.eq_zero_or_pos i with rfl | hi
  · have hh := ht.head
    rw [State.fds, List.head?_map, List.head?_eq_getElem?, hp] at hh
    exact absurd (Option.some.inj hh) hfd
  · exact hi

/-- A new connection. -/
theorem opened (ht : Table setup s) {fd : Fd} {revents : PollBits} (hc : s.conns fd = none)
    (hfd : fd ≠ setup.sockfd) (hserver : s'.server = s.server.handleNewConnection fd revents)
    (hconns : s'.conns = Function.update s.conns fd (some s.nextConn))
    (hnext : s'.nextConn = s.nextConn + 1) : Table setup s' := by
  have hnot : fd ∉ s.fds := by
    intro hm
    have := (ht.conns fd).2 ⟨hm, hfd⟩
    rw [hc] at this
    cases this
  have hfds : s'.fds = s.fds ++ [fd] := by
    rw [State.fds, hserver, TCPServer.handleNewConnection, List.map_append]
    rfl
  have hmem : ∀ fd', (fd' ∈ s.fds ∧ fd' ≠ setup.sockfd) ∨ fd' = fd ↔
      fd' ∈ s'.fds ∧ fd' ≠ setup.sockfd := by
    intro fd'
    rw [hfds, List.mem_append, List.mem_singleton]
    constructor
    · rintro (⟨h, h'⟩ | rfl)
      · exact ⟨.inl h, h'⟩
      · exact ⟨.inr rfl, hfd⟩
    · rintro ⟨h | h, h'⟩
      · exact .inl ⟨h, h'⟩
      · exact .inr h
  refine ⟨?_, ?_, ?_, ?_, ?_, ?_, ?_, ?_⟩
  · rw [hserver]
    exact ht.sockfd
  · rw [hfds, List.head?_append, ht.head]
    rfl
  · rw [hfds]
    exact List.concat_eq_append ▸ ht.nodup.concat hnot
  · intro p hp hpfd
    rw [hserver] at hp
    rcases List.mem_append.1 hp with hp | hp
    · exact ht.listener p hp hpfd
    · obtain rfl := List.mem_singleton.1 hp
      exact absurd hpfd hfd
  · intro fd'
    rw [hserver, TCPServer.handleNewConnection, isSome_update_some, ht.sessions]
    exact hmem fd'
  · intro fd'
    rw [hconns, isSome_update_some, ht.conns]
    exact hmem fd'
  · intro fd' c h
    rw [hconns] at h
    rw [hnext]
    rcases update_some_eq_some.1 h with ⟨-, rfl⟩ | ⟨-, h⟩
    · exact Nat.lt_succ_self _
    · exact Nat.lt_succ_of_lt (ht.conn_lt fd' c h)
  · -- the number of the new connection is not in use
    intro fd1 fd2 c h1 h2
    rw [hconns] at h1 h2
    rcases update_some_eq_some.1 h1 with ⟨rfl, rfl⟩ | ⟨-, hold1⟩ <;>
      rcases update_some_eq_some.1 h2 with ⟨rfl, hc2⟩ | ⟨-, hold2⟩
    · rfl
    · exact absurd (ht.conn_lt _ _ hold2) (Nat.lt_irrefl _)
    · exact absurd (hc2 ▸ ht.conn_lt _ _ hold1) (Nat.lt_irrefl _)
    · exact ht.conn_inj fd1 fd2 c hold1 hold2

/-- A connection is closed. -/
theorem closed (ht : Table setup s) {p : Pollfd} {i : Nat}
    (hp : s.server.pollfds[i]? = some p) (hfd : p.fd ≠ setup.sockfd)
    (hpoll : s'.server.pollfds = swapRemove s.server.pollfds i)
    (hsess : s'.server.sessions = Function.update s.server.sessions p.fd none)
    (hsock : s'.server.sockfd = s.server.sockfd)
    (hconns : s'.conns = Function.update s.conns p.fd none) (hnext : s'.nextConn = s.nextConn) :
    Table setup s' := by
  have hperm : s.fds.Perm (p.fd :: s'.fds) := by
    have := (swapRemove_perm hp).map (·.fd)
    rw [State.fds, State.fds, hpoll]
    exact this
  obtain ⟨hnot, hnodup⟩ := List.nodup_cons.1 (hperm.nodup_iff.1 ht.nodup)
  have hmem : ∀ fd', (fd' ∈ s.fds ∧ fd' ≠ setup.sockfd) ∧ fd' ≠ p.fd ↔
      fd' ∈ s'.fds ∧ fd' ≠ setup.sockfd := by
    intro fd'
    rw [hperm.mem_iff, List.mem_cons]
    constructor
    · rintro ⟨⟨h, h'⟩, hne⟩
      exact ⟨h.resolve_left hne, h'⟩
    · rintro ⟨h, h'⟩
      exact ⟨⟨.inr h, h'⟩, fun he => hnot (he ▸ h)⟩
  have hold : ∀ {fd' c}, s'.conns fd' = some c → s.conns fd' = some c := by
    intro fd' c h
    rw [hconns] at h
    exact (update_none_eq_some.1 h).2
  refine ⟨hsock.trans ht.sockfd, ?_, hnodup, ?_, ?_, ?_, ?_, ?_⟩
  · have hh := ht.head
    rw [State.fds, List.head?_map] at hh ⊢
    rw [hpoll, swapRemove_head? hp (ht.pos hp hfd)]
    exact hh
  · intro q hq hqfd
    rw [hpoll] at hq
    exact ht.listener q ((swapRemove_perm hp).mem_iff.2 (List.mem_cons_of_mem _ hq)) hqfd
  · intro fd'
    rw [hsess, isSome_update_none, ht.sessions]
    exact hmem fd'
  · intro fd'
    rw [hconns, isSome_update_none, ht.conns]
    exact hmem fd'
  · intro fd' c h
    rw [hnext]
    exact ht.conn_lt fd' c (hold h)
  · intro fd1 fd2 c h1 h2
    exact ht.conn_inj fd1 fd2 c (hold h1) (hold h2)

/-- The entries that follow `i` are of other descriptors. -/
theorem fd_ne (ht : Table setup s) {p q : Pollfd} {i : Nat} (hp : s.server.pollfds[i]? = some p)
    (hq : q ∈ s.server.pollfds.drop (i + 1)) : q.fd ≠ p.fd := by
  obtain ⟨hi, hpi⟩ := List.getElem?_eq_some_iff.1 hp
  have hnd := ht.nodup
  rw [State.fds, ← List.take_append_drop i s.server.pollfds, List.drop_eq_getElem_cons hi, hpi,
    List.map_append, List.map_cons] at hnd
  have hcons := (List.nodup_append.1 hnd).2.1
  rintro he
  exact (List.nodup_cons.1 hcons).1 (he ▸ List.mem_map_of_mem hq)

end Table

namespace Polled

variable {setup : Setup ι} {s s' : State ι} {i n : Nat} {p : Pollfd}

/-- Outside `poll` and the dispatch there is nothing to say. -/
theorem away (hpoll : s'.pc ≠ .poll) (hdisp : ∀ i n, s'.pc ≠ .dispatch i n) : Polled s' :=
  ⟨fun i n h => absurd h (hdisp i n), fun h => absurd h hpoll, fun i n h => absurd h (hdisp i n)⟩

/-- Before `poll`. -/
theorem polling (hpc : s'.pc = .poll)
    (h : ∀ p ∈ s'.server.pollfds, s'.Waiting p.fd → p.events = .none) : Polled s' := by
  refine ⟨fun i n h' => ?_, fun _ => h, fun i n h' => ?_⟩ <;>
  · rw [hpc] at h'
    cases h'

/-- After `poll`. -/
theorem reported (hpc : s'.pc = .dispatch 0 s'.server.pollfds.length)
    (h : ∀ p ∈ s'.server.pollfds, s'.Waiting p.fd → p.revents = .none) : Polled s' := by
  refine ⟨fun i n h' => ?_, fun h' => ?_, fun i n h' p hp => ?_⟩ <;> rw [hpc] at h' <;> cases h'
  · exact ⟨Nat.zero_le _, Nat.le_refl _⟩
  · exact h p hp

theorem waiting_congr {fd : Fd} (h : s'.server.sessions fd = s.server.sessions fd)
    (hw : s'.Waiting fd) : s.Waiting fd := by
  obtain ⟨x, hx, hs⟩ := hw
  exact ⟨x, h ▸ hx, hs⟩

/-- The entry `i` has been dispatched; only its session has changed. -/
theorem next (hs : Polled s) (ht : Table setup s) (hpc : s.pc = .dispatch i n) (hi : i < n)
    (hp : s.server.pollfds[i]? = some p) (hpc' : s'.pc = .dispatch (i + 1) n)
    (hpoll : s'.server.pollfds = s.server.pollfds)
    (hsess : ∀ fd, fd ≠ p.fd → s'.server.sessions fd = s.server.sessions fd) : Polled s' := by
  refine ⟨fun j m h => ?_, fun h => ?_, fun j m h q hq hw => ?_⟩
  · rw [hpc'] at h
    cases h
    rw [hpoll]
    exact ⟨hi, (hs.current i n hpc).2⟩
  · rw [hpc'] at h
    cases h
  · rw [hpc'] at h
    cases h
    rw [hpoll] at hq
    refine hs.told i n hpc q ?_ (waiting_congr (hsess q.fd (ht.fd_ne hp hq)) hw)
    rw [← List.drop_drop] at hq
    exact List.mem_of_mem_drop hq

/-- The entry `i` has been closed; the last entry has taken its place. -/
theorem removed (hs : Polled s) (ht : Table setup s) (hpc : s.pc = .dispatch i n) (hi : i < n)
    (hp : s.server.pollfds[i]? = some p) (hpc' : s'.pc = .dispatch i (n - 1))
    (hpoll : s'.server.pollfds = swapRemove s.server.pollfds i)
    (hsess : ∀ fd, fd ≠ p.fd → s'.server.sessions fd = s.server.sessions fd) : Polled s' := by
  have hlen := (swapRemove_perm hp).length_eq
  rw [List.length_cons] at hlen
  refine ⟨fun j m h => ?_, fun h => ?_, fun j m h q hq hw => ?_⟩
  · rw [hpc'] at h
    cases h
    have := (hs.current i n hpc).2
    rw [hpoll]
    exact ⟨by omega, by omega⟩
  · rw [hpc'] at h
    cases h
  · rw [hpc'] at h
    cases h
    rw [hpoll] at hq
    have hq' := swapRemove_drop hp q hq
    refine hs.told i n hpc q ?_ (waiting_congr (hsess q.fd (ht.fd_ne hp hq')) hw)
    rw [← List.drop_drop] at hq'
    exact List.mem_of_mem_drop hq'

/-- A new entry, whatever its bits, is of a session that does not wait. -/
theorem opened (hs : Polled s) {fd : Fd} {revents : PollBits} (hpc : s.pc = .dispatch i n)
    (hi : i < n) (hpc' : s'.pc = .dispatch (i + 1) n)
    (hserver : s'.server = s.server.handleNewConnection fd revents) : Polled s' := by
  have hn := (hs.current i n hpc).2
  have hsess : ∀ fd', fd' ≠ fd → s'.server.sessions fd' = s.server.sessions fd' := fun fd' h => by
    rw [hserver]
    exact Function.update_of_ne h _ _
  have hnew : s'.server.sessions fd = some {} := by
    rw [hserver]
    exact Function.update_self ..
  refine ⟨fun j m h => ?_, fun h => ?_, fun j m h q hq hw => ?_⟩
  · rw [hpc'] at h
    cases h
    rw [hserver]
    simp only [TCPServer.handleNewConnection, List.length_append]
    omega
  · rw [hpc'] at h
    cases h
  · rw [hpc'] at h
    cases h
    by_cases hqfd : q.fd = fd
    · obtain ⟨x, hx, hst⟩ := hw
      rw [hqfd, hnew] at hx
      cases hx
      cases hst
    · rw [hserver, TCPServer.handleNewConnection,
        List.drop_append_of_le_length (by omega)] at hq
      rcases List.mem_append.1 hq with hq | hq
      · refine hs.told i n hpc q ?_ (waiting_congr (hsess q.fd hqfd) hw)
        rw [← List.drop_drop] at hq
        exact List.mem_of_mem_drop hq
      · obtain rfl := List.mem_singleton.1 hq
        exact absurd rfl hqfd

end Polled

end Lumen.Network
