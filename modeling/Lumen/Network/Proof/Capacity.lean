import Lumen.Concurrency.Proof.PoolSlots
import Lumen.Network.Proof.FullQueue
import Mathlib.Data.List.Perm.Subperm

/-!
# How many connections the server can bear

A connection has at most one request in the pool. So the ring of 1024 slots is never full while at
most 1023 connections are open, and no request is dropped (`never_dropped`): with the SPSC queue,
and with the MPMC queue where one worker serves it.
-/

set_option autoImplicit false

namespace Lumen.Network

open Lumen.Lib Lumen.Core Lumen.Concurrency

variable {ι : Type*}

/-- At most 1023 connections are open beside the listening socket; the naive queue needs no
bound. -/
def Few (setup : Setup ι) (s : State ι) : Prop :=
  setup.pool.kind ≠ .naive → s.server.pollfds.length ≤ 1024

instance (setup : Setup ι) (s : State ι) : Decidable (Few setup s) :=
  inferInstanceAs (Decidable (_ → _))

/-- A step that finalizes a request does it for a session that does not wait. -/
theorem finalizing_session {s : State ι} {l : Label ι} (hf : finalizing s l = true) :
    ∃ fd, (s.server.session fd).state ≠ .inferencePending ∧ fd ≠ s.server.sockfd ∧ fd ∈ s.fds := by
  unfold finalizing at hf
  split at hf
  · rename_i recv memory now
    split at hf
    · split at hf
      · rename_i p hp
        simp only [Bool.and_eq_true, decide_eq_true_eq] at hf
        obtain ⟨-, -, hfd, hfin⟩ := hf
        refine ⟨p.fd, fun hst => ?_, hfd, Table.mem_fds hp⟩
        simp only [ClientSession.finalizes, hst] at hfin
        cases hfin
      · cases hf
    · cases hf
  · cases hf

section
variable [DecidableEq ι] {setup : Setup ι} {h : List (Event ι)} {s : State ι} {fd : Fd}
  {x : ClientSession} {l : Label ι}

/-- Each outstanding job has a connection of its own, beside one that does not wait and the
listening socket. -/
theorem Served.outstanding_le (hv : Served setup h s) (hx : s.server.sessions fd = some x)
    (hw : x.state ≠ .inferencePending) :
    (outstanding setup s).length + 2 ≤ s.server.pollfds.length := by
  have hfd := (hv.table.sessions fd).1 (by rw [hx]; rfl)
  have hjob : ∀ job ∈ outstanding setup s,
      job.task.clientFd ∈ s.fds ∧ job.task.clientFd ≠ setup.sockfd := fun job hjob =>
    (hv.table.conns _).1 (by rw [hv.owned.conn job hjob]; rfl)
  have hnodup : (setup.sockfd :: fd ::
      (outstanding setup s).map fun job => job.task.clientFd).Nodup := by
    refine List.nodup_cons.2 ⟨fun hmem => ?_, List.nodup_cons.2 ⟨fun hmem => ?_, hv.owned.nodup⟩⟩
    · rcases List.mem_cons.1 hmem with he | hmem
      · exact hfd.2 he.symm
      · obtain ⟨job, hmem, he⟩ := List.mem_map.1 hmem
        exact (hjob job hmem).2 he
    · obtain ⟨job, hmem, he⟩ := List.mem_map.1 hmem
      exact hv.owned.fd_ne hx hw job hmem he
  have hsub : setup.sockfd :: fd :: ((outstanding setup s).map fun job => job.task.clientFd) ⊆
      s.fds := by
    refine List.cons_subset.2 ⟨List.mem_of_mem_head? hv.table.head,
      List.cons_subset.2 ⟨hfd.1, fun fd' hmem => ?_⟩⟩
    obtain ⟨job, hjm, he⟩ := List.mem_map.1 hmem
    exact he ▸ (hjob job hjm).1
  have hle := (hnodup.subperm hsub).length_le
  simp only [State.fds, List.length_cons, List.length_map] at hle
  omega

/-- Then the queue has room at every finalized request. -/
theorem Served.room (hv : Served setup h s)
    (hsingle : setup.pool.kind = .mpmc → setup.pool.workers.length ≤ 1) (hfew : Few setup s) :
    Room setup s l := by
  intro hf
  obtain ⟨fd, hw, hsock, hfd⟩ := finalizing_session hf
  rw [hv.table.sockfd] at hsock
  obtain ⟨x, hx⟩ := Option.isSome_iff_exists.1 ((hv.table.sessions fd).2 ⟨hfd, hsock⟩)
  rw [session_eq hx] at hw
  have hle := hv.outstanding_le hx hw
  refine (ThreadPool.slots hv.linked.reach).not_full hsingle fun hkind => ?_
  have hfew := hfew hkind
  simp only [outstanding, List.length_append] at hle
  omega

/-- **No request is dropped** in a run in which at most 1023 connections are open at a time: each
waiting session has its job, and every push has been accepted. -/
theorem never_dropped (hsingle : setup.pool.kind = .mpmc → setup.pool.workers.length ≤ 1)
    (hr : (lts setup).ReachIf (fun _ s _ => Few setup s) h s) : NoneDropped setup s ∧
      ∀ c payload accepted, .pushed c payload accepted ∈ h → accepted = true := by
  have hroom : (lts setup).ReachIf (fun _ s l => Room setup s l) h s := by
    refine hr.inv_of_reach (I := (lts setup).ReachIf fun _ s l => Room setup s l) (fun s h0 => ?_)
      fun h s l es s' hr hi hfew hs => ?_
    · exact .init h0
    · exact hi.step ((served hr.reach).room hsingle hfew) hs
  refine ⟨(served hr.reach).owned.noneDropped (kept hroom), ?_⟩
  refine hroom.inv_of_reach (I := fun h _ => ∀ c payload accepted,
    .pushed c payload accepted ∈ h → accepted = true) (fun s h0 c payload accepted hmem => ?_)
    fun h s l es s' hr hi hroom hs c payload accepted hmem => ?_
  · cases hmem
  rcases List.mem_append.1 hmem with hold | hnew
  · exact hi c payload accepted hold
  have hv := served hr.reach
  have hfull := hroom (finalizing_of_pushed hs hnew)
  cases (hv.step hs).1 with
  | @submitted _ fd x c' recv memory now hd task hx hc hw hh htask hb =>
    have hpush : accepted = (push setup s.pool { task := task, tag := c' }).1 := by
      simp [receivedEvents] at hnew
      exact hnew.2.2
    rw [hpush]
    simp [push, TaskQueue.push, TaskQueue.closed_eq_false _ hv.linked.opened, hfull]
  | @installed _ job res results x c trace hres hx hc hb => cases trace <;> simp at hnew
  | _ => simp [receivedEvents] at hnew

end

/-- One request with the SPSC queue: its session waits, and its job is outstanding. -/
theorem never_dropped_request : ∃ h s, (lts spscPod).ReachIf (fun _ s _ => Few spscPod s) h s ∧
    s.Waiting 4 ∧ NoneDropped spscPod s := by
  have hC : (lts spscPod).Along (fun _ s _ => Few spscPod s) [] (State.init spscPod)
      (header ++ readRound [9, 8, 7]) := by decide +kernel
  have he : ((lts spscPod).exec (State.init spscPod) (header ++ readRound [9, 8, 7])).map (fun p =>
      (p.2.server.sessions 4).map (·.state)) = some (some .inferencePending) := by decide +kernel
  obtain ⟨⟨h, s⟩, he, hx⟩ := Option.map_eq_some_iff.1 he
  obtain ⟨x, hx, hst⟩ := Option.map_eq_some_iff.1 hx
  have hr := Lts.ReachIf.along (.init rfl) hC he
  have hone : spscPod.pool.kind = .mpmc → spscPod.pool.workers.length ≤ 1 := fun h => by cases h
  exact ⟨h, s, hr, ⟨x, hx, hst⟩, (never_dropped hone hr).1⟩

end Lumen.Network
