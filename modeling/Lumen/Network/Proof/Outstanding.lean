import Lumen.Network.Proof.Effect
import Lumen.Network.Proof.Session
import Lumen.Concurrency.Proof.PoolJobs

/-!
# The requests under way

`outstanding` are the jobs in the task queue, with the workers, or with a result in the response
queue. The pool of the system runs as the pool of the workers does, with the server's thread as the
one that pushes and pops (`Linked`), so what holds of every run of the pool holds of it: a step of a
worker keeps the outstanding jobs, an accepted push adds its job, and a pop removes the one whose
result it returns (`Linked.change`).
-/

set_option autoImplicit false

namespace Lumen.Network

open Lumen.Lib Lumen.Lib.Shared Lumen.Core Lumen.Concurrency

variable {ι : Type*}

/-- The events of the pool. -/
def poolEvents (h : List (Event ι)) : List (ThreadPool.Event ι ConnId) :=
  h.filterMap fun
    | .pool e => some e
    | _ => none

@[simp] theorem poolEvents_append (h h' : List (Event ι)) :
    poolEvents (h ++ h') = poolEvents h ++ poolEvents h' := List.filterMap_append

@[simp] theorem poolEvents_map (es : List (ThreadPool.Event ι ConnId)) :
    poolEvents (es.map .pool) = es := by
  simp [poolEvents, List.filterMap_map]

theorem poolEvents_receivedEvents (c : ConnId) (bytes : List UInt8) :
    poolEvents (receivedEvents c bytes : List (Event ι)) = [] := by
  unfold receivedEvents
  split <;> rfl

theorem poolEvents_readClosed (c : ConnId) (bytes : List UInt8) :
    poolEvents (.readable c :: (receivedEvents c bytes ++ [.closed c]) : List (Event ι)) = [] := by
  rw [← List.singleton_append, poolEvents_append, poolEvents_append, poolEvents_receivedEvents]
  rfl

theorem poolEvents_submitted (c : ConnId) (bytes : List UInt8)
    (es : List (ThreadPool.Event ι ConnId)) (payload : List UInt8) (accepted : Bool) :
    poolEvents (.readable c :: (receivedEvents c bytes ++ (es.map .pool ++
      [.pushed c payload accepted]))) = es := by
  rw [← List.singleton_append, poolEvents_append, poolEvents_append, poolEvents_append,
    poolEvents_map, poolEvents_receivedEvents]
  exact List.append_nil es

theorem poolEvents_installed (es : List (ThreadPool.Event ι ConnId)) (c : ConnId)
    (job : Job ConnId) (res : InferenceResult) (trace : Option InferenceTrace) :
    poolEvents (es.map .pool ++ ([.installed c job res] ++ (trace.map .traced).toList)) = es := by
  rw [poolEvents_append, poolEvents_map]
  cases trace <;> exact List.append_nil es

/-- The jobs that have been accepted and whose results have not been popped. -/
def outstanding (setup : Setup ι) (s : State ι) : List (Job ConnId) :=
  s.pool.mem.queue.tasks ++ (heldBy ThreadPool.Pc.hand setup.pool.workers s.pool.pc ++
    s.pool.mem.results.map Prod.fst)

section
variable [DecidableEq ι] {setup : Setup ι} {h es : List (Event ι)} {s s' : State ι}

/-- The pool of the system, with what it has shown, is a pool in a run of its own. -/
structure Linked (setup : Setup ι) (h : List (Event ι)) (s : State ι) : Prop where
  reach : (ThreadPool.lts ConnId setup.pool setup.allocator).ReachIf
    (fun _ s => ThreadPool.Roles setup.pool setup.server s) (poolEvents h) s.pool
  server : s.pool.pc setup.server = .idle
  worker : ∀ i, (s.pool.pc i).working = true ∨ s.pool.pc i = .idle
  opened : s.pool.mem.queue.stopped = false

namespace Linked

theorem init : Linked setup [] (State.init setup) :=
  ⟨.init rfl, rfl, fun _ => .inr rfl, rfl⟩

theorem congr (hl : Linked setup h s) (hes : poolEvents es = []) (hp : s'.pool = s.pool) :
    Linked setup (h ++ es) s' := by
  obtain ⟨h1, h2, h3, h4⟩ := hl
  refine ⟨?_, hp ▸ h2, hp ▸ h3, hp ▸ h4⟩
  rw [poolEvents_append, hes, List.append_nil, hp]
  exact h1

/-- The server's thread calls an operation of a queue and returns from it. -/
theorem call (hl : Linked setup h s) (op : ThreadPool.Op ConnId)
    {o : ThreadPool.Outcome ι ConnId}
    (hop : ThreadPool.Roles setup.pool setup.server s.pool (setup.server, .call op))
    (ho : ThreadPool.run setup.pool setup.server s.pool.mem .none (ThreadPool.entry op) = some o)
    (hpc : o.pc = .idle) (hopen : o.mem.queue.stopped = false)
    (hes : poolEvents es = .call setup.server op :: o.events setup.server)
    (hp : s'.pool = { s.pool with mem := o.mem }) : Linked setup (h ++ es) s' := by
  refine ⟨?_, ?_, ?_, ?_⟩
  · have h1 := Lts.ReachIf.step hl.reach hop (Impl.step_call.2 ⟨hl.server, rfl, rfl⟩)
    have hrun : (ThreadPool.impl ConnId setup.pool setup.allocator).step
        ⟨s.pool.mem, Function.update s.pool.pc setup.server (ThreadPool.entry op)⟩
        (setup.server, .run .none) = some (o.events setup.server, ⟨o.mem, Function.update
          (Function.update s.pool.pc setup.server (ThreadPool.entry op)) setup.server o.pc⟩) :=
      Impl.step_run.2 ⟨o, by simp only [Function.update_self]; exact ho, rfl, rfl⟩
    have hrole : ∀ pool : ThreadPool.State ι ConnId,
        ThreadPool.Roles setup.pool setup.server pool (setup.server, .run .none) := fun _ => trivial
    have h2 := Lts.ReachIf.step h1 (hrole _) hrun
    rw [poolEvents_append, hes, hp]
    have hpc' : Function.update (Function.update s.pool.pc setup.server
        (ThreadPool.entry op)) setup.server o.pc = s.pool.pc := by
      rw [Function.update_idem, hpc, ← hl.server, Function.update_eq_self]
    simpa [List.append_assoc, hpc'] using h2
  · rw [hp]
    exact hl.server
  · rw [hp]
    exact hl.worker
  · rw [hp]
    exact hopen

omit [DecidableEq ι] in
theorem popImmediate_mem (m : ThreadPool.Mem ι ConnId) :
    (ThreadPool.popImmediate m : ThreadPool.Outcome ι ConnId).pc = .idle ∧
      (ThreadPool.popImmediate m : ThreadPool.Outcome ι ConnId).mem.queue = m.queue := by
  unfold ThreadPool.popImmediate
  split <;> exact ⟨rfl, rfl⟩

theorem popImmediate (hl : Linked setup h s) (hes : poolEvents es = (popImmediate setup s.pool).1)
    (hp : s'.pool = (Network.popImmediate setup s.pool).2) : Linked setup (h ++ es) s' := by
  obtain ⟨hpc, hq⟩ := popImmediate_mem s.pool.mem
  refine hl.call .popImmediate trivial rfl hpc ?_ hes hp
  rw [hq]
  exact hl.opened

theorem push (hl : Linked setup h s) {job : Job ConnId}
    (hes : poolEvents es = (push setup s.pool job).2.1)
    (hp : s'.pool = (Network.push setup s.pool job).2.2) : Linked setup (h ++ es) s' := by
  refine hl.call (.push job) trivial rfl rfl ?_ hes hp
  exact (TaskQueue.push_stopped _ _ job).trans hl.opened

/-- A worker runs by itself; it is not the server's thread. -/
theorem workerStep (hl : Linked setup h s) {i : ι}
    {act : Shared.Act (ThreadPool.Op ConnId) ThreadPool.Choice}
    {es : List (ThreadPool.Event ι ConnId)} {pool : ThreadPool.State ι ConnId}
    (hmay : workerMay setup s i act = true)
    (hs : (ThreadPool.impl ConnId setup.pool setup.allocator).step s.pool (i, act) =
      some (es, pool)) (hp : s'.pool = pool) : Linked setup (h ++ es.map .pool) s' := by
  subst hp
  have hroles : i ∈ setup.pool.workers ∧
      ThreadPool.Roles setup.pool setup.server s.pool (i, act) := by
    cases act with
    | run c => exact ⟨of_decide_eq_true hmay, trivial⟩
    | call op =>
      cases op with
      | workerLoop => exact ⟨(of_decide_eq_true hmay).1, of_decide_eq_true hmay⟩
      | shutdown => cases hmay
      | push => cases hmay
      | popImmediate => cases hmay
  obtain ⟨hi, hrole⟩ := hroles
  have hne : setup.server ≠ i := fun he => setup.server_notMem (he ▸ hi)
  have hreach := Lts.ReachIf.step hl.reach hrole hs
  rw [← poolEvents_map es, ← poolEvents_append] at hreach
  cases act with
  | call op =>
    obtain ⟨-, -, hpool⟩ := Impl.step_call.1 hs
    cases op with
    | workerLoop =>
      refine ⟨hreach, ?_, ?_, ?_⟩ <;> rw [hpool]
      · simpa only [Function.update_of_ne hne] using hl.server
      · exact forall_update
          (P := fun _ (p : ThreadPool.Pc ι ConnId) => p.working = true ∨ p = .idle)
          (.inl rfl) fun j _ => hl.worker j
      · exact hl.opened
    | shutdown => cases hmay
    | push => cases hmay
    | popImmediate => cases hmay
  | run c =>
    obtain ⟨o, ho, -, hpool⟩ := Impl.step_run.1 hs
    have hwork : (s.pool.pc i).working = true := by
      refine (hl.worker i).resolve_right fun hidle => ?_
      rw [hidle] at ho
      cases ho
    obtain ⟨-, -, hstop, hpc⟩ := ThreadPool.run_working ho hwork
    refine ⟨hreach, ?_, ?_, ?_⟩ <;> rw [hpool]
    · simpa only [Function.update_of_ne hne] using hl.server
    · exact forall_update (P := fun _ (p : ThreadPool.Pc ι ConnId) => p.working = true ∨ p = .idle)
        hpc fun j _ => hl.worker j
    · exact hstop.trans hl.opened

theorem step (hl : Linked setup h s) (he : Effect setup s es s') : Linked setup (h ++ es) s' := by
  cases he with
  | idle hb => exact hl.congr rfl hb.pool
  | worker hmay hstep hb => exact hl.workerStep hmay hstep hb.pool
  | popped _ hb => exact hl.popImmediate (poolEvents_map _) hb.pool
  | installed _ _ _ hb => exact hl.popImmediate (poolEvents_installed _ _ _ _ _) hb.pool
  | opened _ _ _ _ _ hp => exact hl.congr rfl hp
  | read _ _ _ _ _ _ _ hb =>
    exact hl.congr (poolEvents_receivedEvents _ _) hb.pool
  | readClosed _ _ _ _ _ _ hb => exact hl.congr (poolEvents_readClosed _ _) hb.pool
  | submitted _ _ _ _ _ hb => exact hl.push (poolEvents_submitted _ _ _ _ _) hb.pool
  | sent _ _ _ _ _ hb => exact hl.congr rfl hb.pool
  | completed _ _ _ _ _ hb => exact hl.congr rfl hb.pool
  | sendClosed _ _ _ hb => exact hl.congr rfl hb.pool

end Linked

/-! ## The outstanding jobs -/

/-- What is accepted becomes outstanding, until its result is popped. -/
theorem Linked.change (hl : Linked setup h s) (hl' : Linked setup (h ++ es) s') :
    (outstanding setup s ++ ThreadPool.accepted (poolEvents es)).Perm
      (outstanding setup s' ++ (ThreadPool.popped (poolEvents es)).map Prod.fst) := by
  obtain ⟨-, hj⟩ := ThreadPool.inv hl.reach
  obtain ⟨-, hj'⟩ := ThreadPool.inv hl'.reach
  have h1 := hj.jobs
  have h2 := hj'.jobs
  rw [hj.results] at h1
  rw [hj'.results, poolEvents_append] at h2
  simp only [ThreadPool.accepted, ThreadPool.popped, ThreadPool.observed_append,
    List.filterMap_append, List.map_append] at h1 h2 ⊢
  rw [List.perm_iff_count] at h1 h2 ⊢
  intro job
  have h1 := h1 job
  have h2 := h2 job
  simp only [outstanding, List.count_append] at h1 h2 ⊢
  omega

omit [DecidableEq ι] in
theorem outstanding_congr (hp : s'.pool = s.pool) : outstanding setup s' = outstanding setup s := by
  rw [outstanding, hp, outstanding]

theorem outstanding_worker (hl : Linked setup h s) {i : ι}
    {act : Shared.Act (ThreadPool.Op ConnId) ThreadPool.Choice}
    {es : List (ThreadPool.Event ι ConnId)} {pool : ThreadPool.State ι ConnId}
    (hmay : workerMay setup s i act = true)
    (hs : (ThreadPool.impl ConnId setup.pool setup.allocator).step s.pool (i, act) =
      some (es, pool)) (hp : s'.pool = pool) :
    (outstanding setup s').Perm (outstanding setup s) := by
  have hchange := hl.change (hl.workerStep hmay hs hp)
  rw [poolEvents_map] at hchange
  have hnone : ThreadPool.accepted es = [] ∧ ThreadPool.popped es = [] := by
    cases act with
    | call op =>
      obtain ⟨-, rfl, -⟩ := Impl.step_call.1 hs
      exact ⟨rfl, rfl⟩
    | run c =>
      obtain ⟨o, ho, rfl, -⟩ := Impl.step_run.1 hs
      have hwork : (s.pool.pc i).working = true := by
        refine (hl.worker i).resolve_right fun hidle => ?_
        rw [hidle] at ho
        cases ho
      obtain ⟨h1, h2, -⟩ := ThreadPool.run_working ho hwork
      have hobs := ThreadPool.observed_events i o
      exact ⟨(congrArg _ hobs).trans h1, (congrArg _ hobs).trans h2⟩
  rw [hnone.1, hnone.2, List.map_nil, List.append_nil, List.append_nil] at hchange
  exact hchange.symm

/-- The result that is popped is of an outstanding job, which is not outstanding any more. -/
theorem outstanding_pop (hl : Linked setup h s) (hl' : Linked setup (h ++ es) s')
    (hes : poolEvents es = (popImmediate setup s.pool).1) :
    (outstanding setup s).Perm
      ((s.pool.mem.results.head?.map Prod.fst).toList ++ outstanding setup s') := by
  have hchange := hl.change hl'
  have hev : ThreadPool.accepted (poolEvents es) = [] ∧
      (ThreadPool.popped (poolEvents es)).map Prod.fst =
        (s.pool.mem.results.head?.map Prod.fst).toList := by
    rw [hes]
    simp only [popImmediate, ThreadPool.accepted, ThreadPool.popped, ThreadPool.observed_operation]
    unfold ThreadPool.popImmediate
    split <;> rename_i hres <;> rw [hres] <;> exact ⟨rfl, rfl⟩
  rw [hev.1, hev.2, List.append_nil] at hchange
  exact hchange.trans List.perm_append_comm

/-- An accepted job is outstanding. -/
theorem outstanding_push (hl : Linked setup h s) (hl' : Linked setup (h ++ es) s')
    {job : Job ConnId} (hes : poolEvents es = (push setup s.pool job).2.1) :
    (outstanding setup s').Perm
      (outstanding setup s ++ if (push setup s.pool job).1 = true then [job] else []) := by
  have hchange := hl.change hl'
  have hev : ThreadPool.accepted (poolEvents es) =
      (if (push setup s.pool job).1 = true then [job] else []) ∧
      ThreadPool.popped (poolEvents es) = [] := by
    rw [hes]
    simp only [push, ThreadPool.accepted, ThreadPool.popped, ThreadPool.observed_operation,
      ThreadPool.push]
    by_cases hp : (s.pool.mem.queue.push setup.pool.kind job).1 = true
    · simp only [if_pos hp]
      exact ⟨(if_pos hp).symm, rfl⟩
    · simp only [if_neg hp]
      exact ⟨(if_neg hp).symm, rfl⟩
  rw [hev.1, hev.2, List.map_nil, List.append_nil] at hchange
  exact hchange.symm

/-- The results in the response queue were made from their jobs. -/
theorem Linked.made (hl : Linked setup h s) : ∀ x ∈ s.pool.mem.results,
    ThreadPool.Made setup.pool x.1 x.2 := fun x hx => by
  obtain ⟨-, hj⟩ := ThreadPool.inv hl.reach
  refine hj.made x ?_
  rw [hj.results]
  exact List.mem_append_right _ hx

/-! ## Their owners -/

/-- No two outstanding jobs are for one descriptor. The connection that sent the request is open
under the descriptor of the job, and its session waits for the result; the request is the last one
of the connection. -/
structure Owned (setup : Setup ι) (h : List (Event ι)) (s : State ι) : Prop where
  nodup : ((outstanding setup s).map fun job => job.task.clientFd).Nodup
  waiting : ∀ job ∈ outstanding setup s, s.Waiting job.task.clientFd
  conn : ∀ job ∈ outstanding setup s, s.conns job.task.clientFd = some job.tag
  last : ∀ job ∈ outstanding setup s, (payloads h job.tag).getLast? = some job.task.data

namespace Owned

theorem init : Owned setup [] (State.init setup) := by
  have hnone : outstanding setup (State.init setup) = [] := by
    have hheld : heldBy ThreadPool.Pc.hand setup.pool.workers (State.init setup).pool.pc = [] :=
      List.flatMap_eq_nil_iff.2 fun _ _ => rfl
    rw [outstanding, hheld]
    rfl
  refine ⟨?_, ?_, ?_, ?_⟩ <;> rw [hnone]
  · exact List.nodup_nil
  all_goals exact fun _ h => nomatch h

variable {fd : Fd} {x : ClientSession} {c : ConnId} {r : List (Job ConnId)}

omit [DecidableEq ι] in
/-- A session that does not wait has nothing outstanding. -/
theorem fd_ne (ho : Owned setup h s) (hx : s.server.sessions fd = some x)
    (hw : x.state ≠ .inferencePending) : ∀ job ∈ outstanding setup s, job.task.clientFd ≠ fd := by
  rintro job hjob rfl
  obtain ⟨x', hx', hst⟩ := ho.waiting job hjob
  rw [hx] at hx'
  cases hx'
  exact hw hst

omit [DecidableEq ι] in
/-- The jobs `r` are not outstanding any more; what the others need stays. -/
theorem keep (ho : Owned setup h s)
    (hperm : (outstanding setup s).Perm (r ++ outstanding setup s'))
    (hkeep : ∀ job ∈ outstanding setup s,
      (∀ job' ∈ r, job'.task.clientFd ≠ job.task.clientFd) →
      s'.server.sessions job.task.clientFd = s.server.sessions job.task.clientFd ∧
        s'.conns job.task.clientFd = s.conns job.task.clientFd ∧ payloads es job.tag = []) :
    Owned setup (h ++ es) s' := by
  have hnd := (hperm.map fun job => job.task.clientFd).nodup_iff.1 ho.nodup
  rw [List.map_append, List.nodup_append] at hnd
  have hmem : ∀ job ∈ outstanding setup s', job ∈ outstanding setup s := fun job hjob =>
    hperm.mem_iff.2 (List.mem_append_right _ hjob)
  have hrest : ∀ job ∈ outstanding setup s',
      ∀ job' ∈ r, job'.task.clientFd ≠ job.task.clientFd := fun job hjob job' hjob' =>
    hnd.2.2 _ (List.mem_map_of_mem hjob') _ (List.mem_map_of_mem hjob)
  refine ⟨hnd.2.1, fun job hjob => ?_, fun job hjob => ?_, fun job hjob => ?_⟩ <;>
    obtain ⟨hsess, hconn, hpay⟩ := hkeep job (hmem job hjob) (hrest job hjob)
  · obtain ⟨x, hx, hst⟩ := ho.waiting job (hmem job hjob)
    exact ⟨x, hsess.trans hx, hst⟩
  · exact hconn.trans (ho.conn job (hmem job hjob))
  · rw [payloads_append, hpay, List.append_nil]
    exact ho.last job (hmem job hjob)

omit [DecidableEq ι] in
/-- Only a connection changes that has nothing outstanding. -/
theorem change (ho : Owned setup h s) (hx : s.server.sessions fd = some x)
    (hw : x.state ≠ .inferencePending) (hpool : s'.pool = s.pool)
    (hsess : ∀ fd', fd' ≠ fd → s'.server.sessions fd' = s.server.sessions fd')
    (hconns : ∀ fd', fd' ≠ fd → s'.conns fd' = s.conns fd')
    (hpay : ∀ c, payloads es c = []) : Owned setup (h ++ es) s' := by
  refine ho.keep (r := []) (by rw [outstanding_congr hpool]; rfl) fun job hjob _ => ?_
  have hne := ho.fd_ne hx hw job hjob
  exact ⟨hsess _ hne, hconns _ hne, hpay _⟩

omit [DecidableEq ι] in
/-- A request is completed: its job, if it is accepted, is the one of its connection. -/
theorem submit (ho : Owned setup h s) (ht : Table setup s) (job : Job ConnId) {accepted : Bool}
    (hx : s.server.sessions fd = some x) (hc : s.conns fd = some c)
    (hw : x.state ≠ .inferencePending) (hfd : job.task.clientFd = fd) (htag : job.tag = c)
    (hperm : (outstanding setup s').Perm
      (outstanding setup s ++ if accepted = true then [job] else []))
    (hsess : ∀ fd', fd' ≠ fd → s'.server.sessions fd' = s.server.sessions fd')
    (hwait : s'.Waiting fd) (hconns : s'.conns = s.conns)
    (hpay : ∀ c', payloads es c' = if c = c' then [job.task.data] else []) :
    Owned setup (h ++ es) s' := by
  have hne := ho.fd_ne hx hw
  have hmem : ∀ job' ∈ outstanding setup s', job' ∈ outstanding setup s ∨ job' = job :=
    fun job' hjob => by
      rcases List.mem_append.1 (hperm.mem_iff.1 hjob) with h | h
      · exact .inl h
      · split at h
        · exact .inr (List.mem_singleton.1 h)
        · cases h
  refine ⟨?_, fun job' hjob => ?_, fun job' hjob => ?_, fun job' hjob => ?_⟩
  · refine (hperm.map fun job => job.task.clientFd).nodup_iff.2 ?_
    rw [List.map_append, List.nodup_append]
    refine ⟨ho.nodup, ?_, fun a ha b hb => ?_⟩
    · split
      · exact List.nodup_singleton _
      · exact List.nodup_nil
    · obtain ⟨job', hjob', rfl⟩ := List.mem_map.1 ha
      split at hb
      · obtain rfl := List.mem_singleton.1 hb
        exact fun he => hne job' hjob' (he.trans hfd)
      · cases hb
  · rcases hmem job' hjob with hold | rfl
    · obtain ⟨x', hx', hst⟩ := ho.waiting job' hold
      exact ⟨x', (hsess _ (hne job' hold)).trans hx', hst⟩
    · exact hfd ▸ hwait
  · rw [hconns]
    rcases hmem job' hjob with hold | rfl
    · exact ho.conn job' hold
    · rw [hfd, htag, hc]
  · rw [payloads_append, hpay]
    rcases hmem job' hjob with hold | rfl
    · have htag' : c ≠ job'.tag := fun he =>
        hne job' hold (ht.conn_inj _ _ _ (ho.conn job' hold) (he ▸ hc))
      rw [if_neg htag', List.append_nil]
      exact ho.last job' hold
    · rw [if_pos htag.symm, List.getLast?_concat]

theorem step (ho : Owned setup h s) (ht : Table setup s) (hl : Linked setup h s)
    (he : Effect setup s es s') : Owned setup (h ++ es) s' := by
  have hl' := hl.step he
  cases he with
  | idle hb =>
    refine ho.keep (r := []) (by rw [outstanding_congr hb.pool]; rfl) fun job _ _ => ?_
    exact ⟨by rw [hb.sessions], by rw [hb.conns], rfl⟩
  | worker hmay hstep hb =>
    refine ho.keep (r := []) (outstanding_worker hl hmay hstep hb.pool).symm fun job _ _ => ?_
    refine ⟨by rw [hb.sessions], by rw [hb.conns], ?_⟩
    exact (append_silent [] (silent_pool _) _).2.1
  | popped hnone hb =>
    refine ho.keep (outstanding_pop hl hl' (poolEvents_map _)) fun job _ _ => ?_
    refine ⟨by rw [hb.sessions], by rw [hb.conns], ?_⟩
    exact (append_silent [] (silent_pool _) _).2.1
  | @installed _ job res _ x c trace hres hx hc hb =>
    have hfd : res.clientFd = job.task.clientFd :=
      (hl.made (job, res) (by rw [hres]; exact List.mem_cons_self)).carries.1
    refine ho.keep (r := [job]) ?_ fun job' _ hne => ?_
    · have := outstanding_pop hl hl' (poolEvents_installed _ _ _ _ _)
      rwa [hres] at this
    · have hne' := hne job List.mem_cons_self
      refine ⟨?_, by rw [hb.conns], ?_⟩
      · rw [hb.sessions, hfd, Function.update_of_ne hne'.symm]
      · exact (append_silent [] (silent_installed _ _ _ _ _) _).2.1
  | @opened _ fd hfree hx hs hc hn hp =>
    refine ho.keep (r := []) (by rw [outstanding_congr hp]; rfl) fun job hjob _ => ?_
    have hne : job.task.clientFd ≠ fd := fun he => by
      have := ho.conn job hjob
      rw [he, hfree] at this
      cases this
    exact ⟨by rw [hs, Function.update_of_ne hne], by rw [hc, Function.update_of_ne hne], rfl⟩
  | read hx hc hw hh htask _ _ hb =>
    refine ho.change hx hw hb.pool (fun fd' hne => ?_) (fun fd' _ => by rw [hb.conns]) fun c' => ?_
    · rw [hb.sessions, Function.update_of_ne hne]
    · rw [((Shows.receivedEvents _ _).readable).payloads, ite_self]
  | readClosed hx hc hw hh htask _ hb =>
    refine ho.change hx hw hb.pool (fun fd' hne => ?_) (fun fd' hne => ?_) fun c' => ?_
    · rw [hb.sessions, Function.update_of_ne hne]
    · rw [hb.conns, Function.update_of_ne hne]
    · rw [((Shows.receivedEvents _ _).closed.readable).payloads, ite_self]
  | @submitted _ fd x c recv memory now hd task hx hc hw hh htask hb =>
    obtain ⟨-, -, hfd, hst⟩ := handleClientData_task hh htask
    refine ho.submit ht { task := task, tag := c } hx hc hw hfd rfl
      (outstanding_push hl hl' (poolEvents_submitted _ _ _ _ _)) (fun fd' hne => ?_)
      ⟨hd.session, ?_, hst⟩ hb.conns fun c' => ?_
    · rw [hb.sessions, Function.update_of_ne hne]
    · rw [hb.sessions, Function.update_self]
    · rw [(Shows.submitted c hd.received _ task.data _).payloads]
  | sent hx hc hw hk hlt hb =>
    refine ho.change hx hw hb.pool (fun fd' hne => ?_) (fun fd' _ => by rw [hb.conns]) fun _ => rfl
    rw [hb.sessions, Function.update_of_ne hne]
  | completed hx hc hw hk hlt hb =>
    refine ho.change hx hw hb.pool (fun fd' hne => ?_) (fun fd' _ => by rw [hb.conns]) fun _ => rfl
    rw [hb.sessions, Function.update_of_ne hne]
  | sendClosed hx hc hw hb =>
    refine ho.change hx hw hb.pool (fun fd' hne => ?_) (fun fd' hne => ?_) fun _ => rfl
    · rw [hb.sessions, Function.update_of_ne hne]
    · rw [hb.conns, Function.update_of_ne hne]

end Owned

/-- What holds of every state that is reached. -/
structure Served (setup : Setup ι) (h : List (Event ι)) (s : State ι) : Prop where
  table : Table setup s
  polled : Polled s
  linked : Linked setup h s
  owned : Owned setup h s

theorem Served.step (hv : Served setup h s) {l : Label ι}
    (hs : Network.step setup s l = some (es, s')) :
    Effect setup s es s' ∧ Served setup (h ++ es) s' := by
  obtain ⟨he, ht, hp⟩ := step_effect hv.table hv.polled hs
  exact ⟨he, ht, hp, hv.linked.step he, hv.owned.step hv.table hv.linked he⟩

/-- The first result was made from an outstanding job, and its session waits for it. -/
theorem Served.result (hv : Served setup h s) {job : Job ConnId} {res : InferenceResult}
    {results : List (Job ConnId × InferenceResult)} {x : ClientSession}
    (hres : s.pool.mem.results = (job, res) :: results)
    (hx : s.server.sessions res.clientFd = some x) : ThreadPool.Made setup.pool job res ∧
      job ∈ outstanding setup s ∧ x.state = .inferencePending := by
  have hmade := hv.linked.made (job, res) (by rw [hres]; exact List.mem_cons_self)
  have hjob : job ∈ outstanding setup s := by
    rw [outstanding, hres]
    simp
  obtain ⟨x', hx', hwait⟩ := hv.owned.waiting job hjob
  rw [← hmade.carries.1, hx, Option.some.injEq] at hx'
  exact ⟨hmade, hjob, hx' ▸ hwait⟩

theorem served (hr : (lts setup).Reach h s) : Served setup h s := by
  refine hr.inv (fun s h0 => ?_) fun h s l es s' hv hs => (hv.step hs).2
  obtain rfl : s = State.init setup := h0
  exact ⟨.init, .away (fun h => nomatch h) (fun _ _ h => nomatch h), .init, .init⟩

end

end Lumen.Network
