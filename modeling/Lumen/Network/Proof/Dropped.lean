import Lumen.Network.Proof.Responses

/-!
# Requests that are dropped

`finalize_request` does not look at what `push` answers: the session waits for its result in any
case. In every run in which the queue has room whenever a request is finalized, exactly one job is
outstanding for each waiting session; a request that is finalized when there is no room leaves its
session waiting for nothing (`undropped`).
-/

set_option autoImplicit false

namespace Lumen.Network

open Lumen.Lib Lumen.Core Lumen.Concurrency

variable {ι : Type*}

/-- The step calls `finalize_request`. -/
def finalizing (s : State ι) : Label ι → Bool
  | .server (.recv recv _ _) =>
    match s.pc with
    | .dispatch i n =>
      match s.server.pollfds[i]? with
      | some pfd => decide (i < n) && (pfd.revents.pollin && (decide (pfd.fd ≠ s.server.sockfd) &&
          (s.server.session pfd.fd).finalizes recv))
      | none => false
    | _ => false
  | _ => false

/-- If the step finalizes a request, the queue has room for it. -/
def Room (setup : Setup ι) (s : State ι) (l : Label ι) : Prop :=
  finalizing s l = true → s.pool.mem.queue.full setup.pool.kind = false

instance (setup : Setup ι) (s : State ι) (l : Label ι) : Decidable (Room setup s l) :=
  inferInstanceAs (Decidable (_ → _))

/-- For each waiting session exactly one job is outstanding, the one of its connection. -/
def NoneDropped (setup : Setup ι) (s : State ι) : Prop :=
  ∀ fd, s.Waiting fd → ∃ job, (outstanding setup s).filter (fun job => job.task.clientFd = fd) =
    [job] ∧ s.conns fd = some job.tag

/-- Some job is outstanding for each waiting session. -/
def Kept (setup : Setup ι) (s : State ι) : Prop :=
  ∀ fd, s.Waiting fd → ∃ job ∈ outstanding setup s, job.task.clientFd = fd

variable {setup : Setup ι} {h es : List (Event ι)} {s s' : State ι}

/-- At most one job is outstanding for a descriptor. -/
theorem Owned.noneDropped (ho : Owned setup h s) (hk : Kept setup s) : NoneDropped setup s := by
  intro fd hw
  obtain ⟨job, hjob, hfd⟩ := hk fd hw
  refine ⟨job, ?_, hfd ▸ ho.conn job hjob⟩
  have hnd := ho.nodup
  obtain ⟨l1, l2, hl⟩ := List.append_of_mem hjob
  rw [hl] at hnd ⊢
  rw [List.map_append, List.map_cons, List.nodup_append, List.nodup_cons] at hnd
  obtain ⟨-, ⟨hnot, -⟩, hdisj⟩ := hnd
  have h1 : l1.filter (fun job => job.task.clientFd = fd) = [] :=
    List.filter_eq_nil_iff.2 fun job' hjob' he =>
      hdisj _ (List.mem_map_of_mem hjob') _ List.mem_cons_self
        ((of_decide_eq_true he).trans hfd.symm)
  have h2 : l2.filter (fun job => job.task.clientFd = fd) = [] :=
    List.filter_eq_nil_iff.2 fun job' hjob' he => hnot
      ((hfd.trans (of_decide_eq_true he).symm) ▸ List.mem_map_of_mem hjob')
  rw [List.filter_append, h1, List.filter_cons, if_pos (decide_eq_true hfd), h2]
  rfl

theorem NoneDropped.kept (hn : NoneDropped setup s) : Kept setup s := fun fd hw => by
  obtain ⟨job, hjob, -⟩ := hn fd hw
  have hmem : job ∈ (outstanding setup s).filter (fun job => job.task.clientFd = fd) := by
    rw [hjob]
    exact List.mem_cons_self
  exact ⟨job, (List.mem_filter.1 hmem).1, of_decide_eq_true (List.mem_filter.1 hmem).2⟩

/-- A session that did not wait does so only once its request is passed on. -/
theorem handleClientData_waits {env : ReadEnv} {x : ClientSession} {hd : Handled}
    (hh : handleClientData env x = some hd) (hw : x.state ≠ .inferencePending)
    (htask : hd.task = none) : hd.session.state ≠ .inferencePending := by
  unfold handleClientData at hh
  split at hh <;> rename_i hst
  · simp only [processHeader] at hh
    (repeat' split at hh) <;> cases hh <;> first | exact hw | (intro h; cases h)
  · simp only [processBody, finalizeRequest] at hh
    (repeat' split at hh) <;> cases hh <;> first | exact hw | cases htask
  · cases hh
    cases htask
  · cases hh
    exact hw
  · cases hh
    exact hw

variable [DecidableEq ι]

/-- A step that finalizes a request passes its payload on. -/
theorem pushed_of_finalizing {l : Label ι} (hf : finalizing s l = true)
    (hs : step setup s l = some (es, s')) :
    ∃ c payload accepted, .pushed c payload accepted ∈ es := by
  unfold finalizing at hf
  split at hf
  · split at hf
    · rename_i i n hpc
      split at hf
      · rename_i p hp
        simp only [Bool.and_eq_true, decide_eq_true_eq] at hf
        obtain ⟨hi, hin, hfd, hfin⟩ := hf
        simp only [step, serve, hpc, dispatch, hp, if_pos hi, hin, if_true, if_neg hfd, read,
          Option.map_eq_some_iff] at hs
        obtain ⟨hd, hh, hs⟩ := hs
        obtain ⟨task, htask⟩ := Option.isSome_iff_exists.1
          ((handleClientData_finalizes hh).trans hfin)
        obtain ⟨hret, hthrown, -⟩ := handleClientData_task hh htask
        simp only [handled, htask, hthrown, hret, Bool.false_eq_true, if_false,
          show ¬ (1 : Int) ≤ 0 by decide] at hs
        cases hs
        exact ⟨_, _, _, List.mem_cons_of_mem _
          (List.mem_append_right _ (List.mem_append_right _ List.mem_cons_self))⟩
      · cases hf
    · cases hf
  · cases hf

omit [DecidableEq ι] in
/-- A read event without a task passes nothing on. -/
theorem read_pushed {i n : Nat} {fd : Fd} {recv : Recv} {memory : Bool} {now : Rat}
    (hs : read setup s i n fd recv memory now = some (es, s')) {c : ConnId}
    {payload : List UInt8} {accepted : Bool} (hmem : .pushed c payload accepted ∈ es) :
    (s.server.session fd).finalizes recv = true := by
  simp only [read, Option.map_eq_some_iff] at hs
  obtain ⟨hd, hh, hs⟩ := hs
  refine (handleClientData_finalizes hh).symm.trans ?_
  cases htask : hd.task with
  | some task => rfl
  | none =>
    have hno : .pushed c payload accepted ∉ (receivedEvents (s.conn fd) hd.received :
        List (Event ι)) := by
      unfold receivedEvents
      split <;> simp
    simp only [handled, htask] at hs
    (repeat' split at hs) <;> cases hs <;> simp [State.close, hno] at hmem

/-- Only such a step passes a payload on. -/
theorem finalizing_of_pushed {l : Label ι} (hs : step setup s l = some (es, s')) {c : ConnId}
    {payload : List UInt8} {accepted : Bool} (hmem : .pushed c payload accepted ∈ es) :
    finalizing s l = true := by
  cases l with
  | worker i act =>
    simp only [step] at hs
    split at hs
    · obtain ⟨⟨es', pool⟩, -, he⟩ := Option.map_eq_some_iff.1 hs
      cases he
      simp at hmem
    · cases hs
  | signal =>
    cases hs
    cases hmem
  | server choice =>
    simp only [step, serve] at hs
    split at hs <;> rename_i hpc
    · cases hs
      cases hmem
    · split at hs
      · obtain ⟨rfl, -⟩ := Prod.mk.inj (Option.some.inj hs)
        split at hmem
        · simp at hmem
        · simp only [TCPServer.handleResponse] at hmem
          split at hmem <;> simp at hmem
      · cases hs
    · split at hs
      · obtain ⟨s1, -, he⟩ := Option.map_eq_some_iff.1 hs
        cases he
        cases hmem
      · cases hs
    · rename_i i n
      simp only [dispatch] at hs
      split at hs <;> rename_i hi
      · split at hs
        · cases hs
        · rename_i p hp
          split at hs <;> rename_i hin
          · split at hs <;> rename_i hfd
            · split at hs
              · unfold accept at hs
                (repeat' split at hs) <;> cases hs <;> simp at hmem
              · cases hs
            · split at hs
              · simp [finalizing, hpc, hp, hi, hin, hfd, read_pushed hs hmem]
              · cases hs
          · split at hs
            · split at hs
              · simp only [send] at hs
                (repeat' split at hs) <;> cases hs <;> simp [State.close] at hmem
              · cases hs
            · cases hs
              cases hmem
      · cases hs
        cases hmem
    · cases hs

/-! ## The invariant -/

omit [DecidableEq ι] in
theorem Kept.init [DecidableEq ι] : Kept setup (State.init setup) := by
  rintro fd ⟨x, hx, -⟩
  cases hx

omit [DecidableEq ι] in
/-- What is outstanding stays; no further session waits. -/
theorem Kept.keep (hk : Kept setup s) (hw : ∀ fd, s'.Waiting fd → s.Waiting fd)
    (hout : ∀ job ∈ outstanding setup s, s'.Waiting job.task.clientFd →
      job ∈ outstanding setup s') : Kept setup s' := by
  intro fd hfd
  obtain ⟨job, hjob, rfl⟩ := hk fd (hw fd hfd)
  exact ⟨job, hout job hjob hfd, rfl⟩

omit [DecidableEq ι] in
/-- One session changes, to one that does not wait. -/
theorem waiting_of_update {fd : Fd} {x : Option ClientSession}
    (hsess : s'.server.sessions = Function.update s.server.sessions fd x)
    (hx : ∀ y ∈ x, y.state ≠ .inferencePending) : ∀ fd', s'.Waiting fd' → s.Waiting fd' := by
  rintro fd' ⟨y, hy, hst⟩
  rw [hsess] at hy
  by_cases hfd : fd' = fd
  · rw [hfd, Function.update_self] at hy
    exact absurd hst (hx y hy)
  · rw [Function.update_of_ne hfd] at hy
    exact ⟨y, hy, hst⟩

omit [DecidableEq ι] in
theorem waiting_of_eq (hsess : s'.server.sessions = s.server.sessions) :
    ∀ fd, s'.Waiting fd → s.Waiting fd := fun _ ⟨x, hx, hst⟩ => ⟨x, hsess ▸ hx, hst⟩

theorem Kept.step (hk : Kept setup s) (hv : Served setup h s) {l : Label ι}
    (hroom : Room setup s l) (hs : Network.step setup s l = some (es, s')) : Kept setup s' := by
  obtain ⟨he, hv'⟩ := hv.step hs
  have hl := hv.linked
  have hl' := hv'.linked
  cases he with
  | idle hb =>
    exact hk.keep (waiting_of_eq hb.sessions) fun job hjob _ => by
      rwa [outstanding_congr hb.pool]
  | worker hmay hstep hb =>
    exact hk.keep (waiting_of_eq hb.sessions) fun job hjob _ =>
      (outstanding_worker hl hmay hstep hb.pool).mem_iff.2 hjob
  | popped hnone hb =>
    refine hk.keep (waiting_of_eq hb.sessions) fun job hjob hw => ?_
    rcases List.mem_append.1 ((outstanding_pop hl hl' (poolEvents_map _)).mem_iff.1 hjob) with
      hhead | hrest
    · -- the session of a result that is popped is open
      obtain ⟨y, hy, rfl⟩ := Option.map_eq_some_iff.1 (Option.mem_toList.1 hhead)
      obtain ⟨x, hx, -⟩ := hv.owned.waiting y.1 hjob
      have hcar := (hl.made y (List.mem_of_mem_head? hy)).carries.1
      rw [← hcar, hnone y hy] at hx
      cases hx
    · exact hrest
  | @installed _ job res _ x c trace hres hx hc hb =>
    have hcar : res.clientFd = job.task.clientFd :=
      (hl.made (job, res) (by rw [hres]; exact List.mem_cons_self)).carries.1
    refine hk.keep (waiting_of_update hb.sessions fun y hy => ?_) fun job' hjob hw => ?_
    · cases hy
      intro h
      cases h
    · have hpop := outstanding_pop hl hl' (poolEvents_installed _ _ _ _ _)
      rw [hres] at hpop
      rcases List.mem_cons.1 (hpop.mem_iff.1 hjob) with rfl | hrest
      · obtain ⟨y, hy, hst⟩ := hw
        rw [hb.sessions, hcar, Function.update_self] at hy
        cases hy
        cases hst
      · exact hrest
  | opened hfree hx hsess hc hn hp =>
    refine hk.keep (waiting_of_update hsess fun y hy => ?_) fun job hjob _ => ?_
    · cases hy
      intro h
      cases h
    · rwa [outstanding_congr hp]
  | read hx hc hw hh htask hret hthrown hb =>
    refine hk.keep (waiting_of_update hb.sessions fun y hy => ?_) fun job hjob _ => ?_
    · cases hy
      exact handleClientData_waits hh hw htask
    · rwa [outstanding_congr hb.pool]
  | readClosed hx hc hw hh htask hret hb =>
    refine hk.keep (waiting_of_update hb.sessions fun y hy => ?_) fun job hjob _ => ?_
    · cases hy
    · rwa [outstanding_congr hb.pool]
  | @submitted _ fd x c recv memory now hd task hx hc hw hh htask hb =>
    have hfull := hroom (finalizing_of_pushed hs (List.mem_cons_of_mem _
      (List.mem_append_right _ (List.mem_append_right _ List.mem_cons_self))))
    have hpush : (push setup s.pool { task := task, tag := c }).1 = true := by
      simp [push, TaskQueue.push, TaskQueue.closed_eq_false _ hl.opened, hfull]
    have hperm := outstanding_push hl hl' (poolEvents_submitted c hd.received _ task.data _)
    rw [if_pos hpush] at hperm
    intro fd' hwait
    by_cases hfd : fd' = fd
    · obtain ⟨-, -, htfd, -⟩ := handleClientData_task hh htask
      exact ⟨_, hperm.mem_iff.2 (List.mem_append_right _ List.mem_cons_self), htfd.trans hfd.symm⟩
    · obtain ⟨y, hy, hst⟩ := hwait
      rw [hb.sessions, Function.update_of_ne hfd] at hy
      obtain ⟨job, hjob, hjfd⟩ := hk fd' ⟨y, hy, hst⟩
      exact ⟨job, hperm.mem_iff.2 (List.mem_append_left _ hjob), hjfd⟩
  | @sent _ fd x c k hx hc hw hk' hlt hb =>
    refine hk.keep (waiting_of_update hb.sessions fun y hy => ?_) fun job hjob _ => ?_
    · cases hy
      exact hw
    · rwa [outstanding_congr hb.pool]
  | completed hx hc hw hk' hlt hb =>
    refine hk.keep (waiting_of_update hb.sessions fun y hy => ?_) fun job hjob _ => ?_
    · cases hy
      intro h
      cases h
    · rwa [outstanding_congr hb.pool]
  | sendClosed hx hc hw hb =>
    refine hk.keep (waiting_of_update hb.sessions fun y hy => ?_) fun job hjob _ => ?_
    · cases hy
    · rwa [outstanding_congr hb.pool]

theorem kept (hr : (lts setup).ReachIf (fun _ s l => Room setup s l) h s) : Kept setup s := by
  refine hr.inv_of_reach (I := fun _ s => Kept setup s) (fun s h0 => ?_)
    fun h s l es s' hr hk hroom hs => hk.step (served hr.reach) hroom hs
  obtain rfl : s = State.init setup := h0
  exact .init

/-- A request that is finalized while the queue has no room leaves its session waiting, with no job
outstanding for it. -/
theorem not_kept (hv : Served setup h s) {l : Label ι} (hroom : ¬ Room setup s l)
    (hs : step setup s l = some (es, s')) :
    ∃ fd, s'.Waiting fd ∧ ∀ job ∈ outstanding setup s', job.task.clientFd ≠ fd := by
  obtain ⟨hf, hfull⟩ : finalizing s l = true ∧ s.pool.mem.queue.full setup.pool.kind = true := by
    simpa [Room] using hroom
  obtain ⟨c, payload, accepted, hmem⟩ := pushed_of_finalizing hf hs
  obtain ⟨he, hv'⟩ := hv.step hs
  cases he with
  | @submitted _ fd x c recv memory now hd task hx hc hw hh htask hb =>
    obtain ⟨-, -, -, hst⟩ := handleClientData_task hh htask
    have hperm := outstanding_push hv.linked hv'.linked
      (poolEvents_submitted c hd.received _ task.data _)
    have hpush : (push setup s.pool { task := task, tag := c }).1 = false := by
      simp [push, TaskQueue.push, hfull]
    rw [hpush, if_neg Bool.false_ne_true, List.append_nil] at hperm
    refine ⟨fd, ⟨hd.session, ?_, hst⟩, fun job hjob => ?_⟩
    · rw [hb.sessions, Function.update_self]
    · exact hv.owned.fd_ne hx hw job (hperm.mem_iff.1 hjob)
  | @read _ fd x c recv memory now hd hx hc hw hh htask hret hthrown hb =>
    simp [receivedEvents] at hmem
  | @readClosed _ fd x c recv memory now hd hx hc hw hh htask hret hb =>
    simp [receivedEvents] at hmem
  | @installed _ job res results x c trace hres hx hc hb => cases trace <;> simp at hmem
  | idle hb => simp at hmem
  | worker hmay hstep hb => simp at hmem
  | popped hnone hb => simp at hmem
  | opened hfree hx hs hc hn hp => simp at hmem
  | sent hx hc hw hk hlt hb => simp at hmem
  | completed hx hc hw hk hlt hb => simp at hmem
  | sendClosed hx hc hw hb => simp at hmem

/-- **Nothing is dropped** in a run in which the queue has room at every finalized request, and its
next step drops a request exactly if it finalizes one without room. -/
theorem undropped (hr : (lts setup).ReachIf (fun _ s l => Room setup s l) h s) :
    NoneDropped setup s ∧ ∀ l es s', step setup s l = some (es, s') →
      (NoneDropped setup s' ↔ Room setup s l) := by
  have hv := served hr.reach
  refine ⟨hv.owned.noneDropped (kept hr), fun l es s' hs => ⟨fun hn => ?_, fun hroom => ?_⟩⟩
  · refine Decidable.byContradiction fun hroom => ?_
    obtain ⟨fd, hw, hnot⟩ := not_kept hv hroom hs
    obtain ⟨job, hjob, hfd⟩ := hn.kept fd hw
    exact hnot job hjob hfd
  · exact (hv.step hs).2.owned.noneDropped (kept (hr.step hroom hs))

end Lumen.Network
