import Lumen.Concurrency.Proof.PoolFollows
import Lumen.Concurrency.Proof.PoolTags
import Lumen.Network.OnQueues
import Lumen.Network.Proof.Outstanding

/-!
# The server beside its pool

What a step of the server does if it calls no queue (`serve_pool`), if it pushes a task
(`serve_submission`) and if it pops a result (`serve_pop`); and what the workers do in the pool of
plain jobs, done in the pool of the server (`Tagged`).
-/

set_option autoImplicit false

namespace Lumen.Network

open Lumen.Lib Lumen.Lib.Shared Lumen.Core Lumen.Concurrency

/-! ## The steps that do not use the pool -/

section
variable {ι : Type*} {setup : Setup ι} {s : State ι} {choice : Choice} {sub : Submission}

theorem submission_some (h : submission setup s choice = some sub) :
    ∃ recv memory now pfd, choice = .recv recv memory now ∧ s.pc = .dispatch sub.i sub.n ∧
      sub.i < sub.n ∧ s.server.pollfds[sub.i]? = some pfd ∧ pfd.revents.pollin = true ∧
      pfd.fd ≠ s.server.sockfd ∧ sub.fd = pfd.fd ∧
      handleClientData (readEnv setup s pfd.fd recv memory now) (s.server.session pfd.fd) =
        some sub.handled ∧ sub.handled.task = some sub.task := by
  unfold submission at h
  split at h
  · rename_i i n recv memory now hpc
    simp only [Option.bind_eq_bind, Option.bind_eq_some_iff, Option.guard_eq_some'] at h
    obtain ⟨-, hlt, pfd, hpfd, -, ⟨hin, hfd⟩, hd, hhd, task, htask, hsub⟩ := h
    cases hsub
    exact ⟨recv, memory, now, pfd, rfl, hpc, hlt, hpfd, hin, hfd, rfl, hhd, htask⟩
  · cases h

/-- A read event for which `finalize_request` is not called. -/
theorem task_none {i n : Nat} {pfd : Pollfd} {recv : Recv} {memory : Bool} {now : Rat}
    {hd : Handled} (h : submission setup s (.recv recv memory now) = none)
    (hpc : s.pc = .dispatch i n) (hlt : i < n) (hpfd : s.server.pollfds[i]? = some pfd)
    (hin : pfd.revents.pollin = true) (hfd : pfd.fd ≠ s.server.sockfd)
    (hhd : handleClientData (readEnv setup s pfd.fd recv memory now)
      (s.server.session pfd.fd) = some hd) : hd.task = none := by
  cases htask : hd.task with
  | none => rfl
  | some task =>
    simp [submission, hpc, hlt, hpfd, hin, hfd, hhd, htask, guard] at h

/-- A step of the server that calls no queue does not look at the pool. -/
theorem serve_pool (hpc : s.pc ≠ .handleResponses) (hsub : submission setup s choice = none)
    (pool : ThreadPool.State ι ConnId) : serve setup { s with pool := pool } choice =
      (serve setup s choice).map fun (es, s') => (es, { s' with pool := pool }) := by
  cases hs : s.pc with
  | loopTest => simp [serve, hs]
  | handleResponses => exact absurd hs hpc
  | left exit => simp [serve, hs]
  | poll =>
    cases choice with
    | poll revents =>
      cases revents with
      | none => simp [serve, poll, hs]
      | some revents =>
        simp only [serve, poll, hs]
        split <;> rfl
    | _ => simp [serve, hs]
  | dispatch i n =>
    simp only [serve, dispatch, hs]
    split <;> rename_i hlt
    · cases hpfd : s.server.pollfds[i]? with
      | none => rfl
      | some pfd =>
        simp only
        split <;> rename_i hin
        · split <;> rename_i hfd
          · cases choice with
            | accept fd =>
              cases fd with
              | none => rfl
              | some fd =>
                simp only [accept]
                split <;> rfl
            | _ => rfl
          · cases choice with
            | recv recv memory now =>
              cases hhd : handleClientData (readEnv setup s pfd.fd recv memory now)
                  (s.server.session pfd.fd) with
              | none =>
                simp only [read, readEnv] at hhd ⊢
                rw [hhd]
                rfl
              | some hd =>
                have htask := task_none hsub hs hlt hpfd hin hfd hhd
                simp only [read, readEnv] at hhd ⊢
                rw [hhd]
                simp only [Option.map_some, handled, htask]
                split
                · rfl
                · split <;> rfl
            | _ => rfl
        · split
          · cases choice with
            | send r =>
              simp only [send]
              split
              · cases r with
                | sent k =>
                  simp only
                  split
                  · split <;> rfl
                  · rfl
                | _ => rfl
              · rfl
            | _ => rfl
          · rfl
    · rfl

/-! ## The steps that do -/

@[simp] theorem wire_pool (es : List (ThreadPool.Event ι ConnId)) :
    (es.map (.pool : _ → Event ι)).filterMap Event.wire = [] :=
  List.filterMap_eq_nil_iff.2 fun e he => by
    obtain ⟨x, -, rfl⟩ := List.mem_map.1 he
    rfl

/-- The step in which a task is pushed. -/
theorem serve_submission (h : submission setup s choice = some sub) {accepted : Bool}
    {es : List (ThreadPool.Event ι ConnId)} {pool : ThreadPool.State ι ConnId}
    (hpush : push setup s.pool { task := sub.task, tag := s.conn sub.fd } = (accepted, es, pool)) :
    ∃ es', serve setup s choice = some (es', { sub.leave (sub.enter s) with pool := pool }) ∧
      es'.filterMap Event.wire = sub.shown (s.conn sub.fd) accepted := by
  obtain ⟨recv, memory, now, pfd, rfl, hpc, hlt, hpfd, hin, hfd, hsub, hhd, htask⟩ :=
    submission_some h
  obtain ⟨hret, hthrown, -, -⟩ := handleClientData_task hhd htask
  rw [hsub] at hpush
  refine ⟨.readable (s.conn pfd.fd) :: (receivedEvents (s.conn pfd.fd) sub.handled.received ++
    (es.map .pool ++ [.pushed (s.conn pfd.fd) sub.task.data accepted])), ?_, ?_⟩
  · simp only [serve, hpc, dispatch, if_pos hlt, hpfd, if_pos hin, if_neg hfd, read, hhd,
      Option.map_some, handled, htask, hpush, hthrown, hret, Bool.false_eq_true, if_false]
    rw [if_neg (by decide)]
    simp only [Submission.enter, Submission.leave, hsub]
  · simp only [Submission.shown, hsub, receivedEvents]
    split <;> simp [Event.wire]

/-- The step in which a result is popped. -/
theorem serve_pop (hpc : s.pc = .handleResponses) (now : Rat) :
    serve setup s (.clock now) = some (handleResponses setup s now) := by
  simp only [serve, hpc]

end
/-! ## The pools -/

/-- The pool of `s` is `t` without the tags; it has the results `ahead` still to pop. -/
structure Tagged {ι : Type*} (setup : Setup ι) (ahead : List (Job Unit × InferenceResult))
    (s : State ι) (t : ThreadPool.State ι Unit) : Prop where
  untags : ThreadPool.Untags ahead s.pool.mem t.mem
  pcs : ∀ i, i ≠ setup.server → t.pc i = (s.pool.pc i).untag
  running : t.mem.stop = false

namespace Tagged

variable {ι : Type} {setup : Setup ι} {i : ι}

theorem ne_server (hi : i ∈ setup.pool.workers) : i ≠ setup.server := fun he =>
  setup.server_notMem (he ▸ hi)

variable [DecidableEq ι] {h : List (Event ι)} {s : State ι} {t : ThreadPool.State ι Unit}
  {ahead : List (Job Unit × InferenceResult)}

theorem init : Tagged setup [] (State.init setup)
    (ThreadPool.impl Unit setup.pool setup.allocator).init :=
  ⟨.init _ _, fun _ _ => rfl, rfl⟩

theorem pcs_moved (ht : Tagged setup ahead s t) {m : ThreadPool.Mem ι ConnId}
    {n : ThreadPool.Mem ι Unit} {p : ThreadPool.Pc ι ConnId} {q : ThreadPool.Pc ι Unit}
    (hpq : q = p.untag) (j : ι) (hj : j ≠ setup.server) :
    (t.moved i n q).pc j = ((s.pool.moved i m p).pc j).untag := by
  by_cases hji : j = i
  · subst hji
    simpa using hpq
  · rw [State.moved_pc_ne hji, State.moved_pc_ne hji]
    exact ht.pcs j hj

/-- A step of a worker. -/
theorem step (ht : Tagged setup ahead s t) (hr : (lts setup).Reach h s)
    (hi : i ∈ setup.pool.workers) {c : ThreadPool.Choice} {o : ThreadPool.Outcome ι Unit}
    (ho : ThreadPool.run setup.pool i t.mem c (t.pc i) = some o) : ∃ h' pool,
      (lts setup).Reach h' { s with pool := pool } ∧
      h'.filterMap Event.wire = h.filterMap Event.wire ∧
      Tagged setup ahead { s with pool := pool } (t.moved i o.mem o.pc) := by
  have hpc := ht.pcs i (ne_server hi)
  have hwork : (s.pool.pc i).working = true := by
    rcases (served hr).linked.worker i with hwork | hidle
    · exact hwork
    · rw [hpc, hidle] at ho
      cases ho
  obtain ⟨-, -, -, hstop⟩ := ThreadPool.run_gate ho
  rw [hpc] at ho hstop
  obtain ⟨o', ho', hpc', huntags⟩ := ht.untags.run hwork ho
  have hrun : (ThreadPool.impl ConnId setup.pool setup.allocator).step s.pool (i, .run c) =
      some (o'.events i, s.pool.moved i o'.mem o'.pc) := Impl.step_run.2 ⟨o', ho', rfl, rfl⟩
  have hs : (lts setup).step s (.worker i (.run c)) =
      some ((o'.events i).map .pool, { s with pool := s.pool.moved i o'.mem o'.pc }) := by
    simp only [lts, Network.step, workerMay, hi, decide_true, if_true, hrun, Option.map_some]
  refine ⟨_, s.pool.moved i o'.mem o'.pc, hr.step hs,
    by rw [List.filterMap_append, wire_pool, List.append_nil], huntags,
    ht.pcs_moved hpc'.symm, ?_⟩
  rcases hstop with hsame | hstoring
  · exact hsame.trans ht.running
  · rw [← ThreadPool.Pc.working_untag] at hwork
    generalize (s.pool.pc i).untag = p at hwork hstoring
    cases p <;> simp [ThreadPool.Pc.working, ThreadPool.Pc.storing] at hwork hstoring

/-- Steps of a worker. -/
theorem moves {m m' : ThreadPool.Mem ι Unit} {p p' : ThreadPool.Pc ι Unit}
    {os : List (ThreadPool.Obs Unit)} {r : Option ThreadPool.Ret}
    (hm : (ThreadPool.impl Unit setup.pool setup.allocator).Moves i m p os r m' p')
    (hi : i ∈ setup.pool.workers) (hr : (lts setup).Reach h s) (ht : Tagged setup ahead s t)
    (htm : t.mem = m) (htp : t.pc i = p) : ∃ h' pool,
      (lts setup).Reach h' { s with pool := pool } ∧
      h'.filterMap Event.wire = h.filterMap Event.wire ∧
      Tagged setup ahead { s with pool := pool } (t.moved i m' p') := by
  induction hm generalizing h s t with
  | stay =>
    subst htm htp
    exact ⟨h, s.pool, hr, rfl, by rwa [State.moved_self]⟩
  | ret ho =>
    subst htm htp
    exact ht.step hr hi ho
  | next ho _ _ ih =>
    subst htm htp
    obtain ⟨h1, pool1, hr1, hw1, ht1⟩ := ht.step hr hi ho
    obtain ⟨h2, pool2, hr2, hw2, ht2⟩ := ih hr1 ht1 rfl State.moved_pc
    rw [State.moved_moved] at ht2
    exact ⟨h2, pool2, hr2, hw2.trans hw1, ht2⟩

/-- A worker begins its loop. -/
theorem call (ht : Tagged setup ahead s t) (hr : (lts setup).Reach h s)
    (hi : i ∈ setup.pool.workers) (hended : i ∉ t.mem.ended) (hidle : t.pc i = .idle) :
    ∃ h' pool, (lts setup).Reach h' { s with pool := pool } ∧
      h'.filterMap Event.wire = h.filterMap Event.wire ∧
      Tagged setup ahead { s with pool := pool }
        (t.moved i t.mem (ThreadPool.entry .workerLoop)) := by
  have hpc : s.pool.pc i = .idle := by
    have huntag := (ht.pcs i (ne_server hi)).symm.trans hidle
    cases hp : s.pool.pc i <;> rw [hp] at huntag <;> cases huntag
  have hmay : workerMay setup s i (.call .workerLoop) = true := by
    rw [ht.untags.ended] at hended
    exact decide_eq_true ⟨hi, hended⟩
  have hcall : (ThreadPool.impl ConnId setup.pool setup.allocator).step s.pool
      (i, .call .workerLoop) = some ([.call i .workerLoop],
        s.pool.moved i s.pool.mem (ThreadPool.entry .workerLoop)) :=
    Impl.step_call.2 ⟨hpc, rfl, rfl⟩
  have hs : (lts setup).step s (.worker i (.call .workerLoop)) = some
      (([.call i .workerLoop] : List (ThreadPool.Event ι ConnId)).map .pool, { s with
        pool := s.pool.moved i s.pool.mem (ThreadPool.entry .workerLoop) }) := by
    simp only [lts, Network.step, hmay, if_true, hcall, Option.map_some]
  exact ⟨_, s.pool.moved i s.pool.mem (ThreadPool.entry .workerLoop), hr.step hs,
    by rw [List.filterMap_append, wire_pool, List.append_nil], ht.untags, ht.pcs_moved rfl,
    ht.running⟩

/-- A step of the server. -/
theorem server (ht : Tagged setup ahead s t) {ahead' : List (Job Unit × InferenceResult)}
    {s' : State ι} {n : ThreadPool.Mem ι Unit} {p : ThreadPool.Pc ι Unit}
    (hu : ThreadPool.Untags ahead' s'.pool.mem n) (hpc : s'.pool.pc = s.pool.pc)
    (hstop : n.stop = t.mem.stop) : Tagged setup ahead' s' (t.moved setup.server n p) where
  untags := hu
  pcs j hj := by
    rw [State.moved_pc_ne hj, hpc]
    exact ht.pcs j hj
  running := hstop.trans ht.running

end Tagged

end Lumen.Network
