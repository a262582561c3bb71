import Mathlib.Algebra.BigOperators.Ring.List
import Lumen.Lib.Potential
import Lumen.Concurrency.Proof.Failures

/-!
# The pool shuts down

Once `m_stop` is set a worker only finishes the batch it has: it makes a bounded number of steps
(`work`), whatever the other threads push and pop. When the queue is closed, no worker waits for a
task any more, and a join waits for a worker that can move. So `shutdown` ends after a bounded
number of steps of the threads of the pool, unless an engine fails (`shutdown_ends`).
-/

set_option autoImplicit false

namespace Lumen.Concurrency.ThreadPool

open Lumen.Lib Lumen.Lib.Shared Lumen.Core

variable {ι κ : Type*}

/-! ## The work that is left -/

/-- The steps that a thread makes, once `m_stop` is set, up to the end of its operation. A task that
is still to be taken costs six, and four once it is in the batch. -/
def work (setup : Setup ι) : Pc ι κ → Nat
  | .idle => 0
  | .push _ | .popImmediate => 1
  | .loopTest => 2
  | .popBatch batch => 6 * (setup.batchSize - batch.length) + 4 * batch.length + 4
  | .popRelease _ _ batch =>
    6 * (setup.batchSize - (batch.length + 1)) + 4 * (batch.length + 1) + 5
  | .forEach batch => 4 * batch.length + 3
  | .engineRun _ _ batch => 4 * batch.length + 6
  | .arenaReset _ _ batch => 4 * batch.length + 5
  | .pushResult _ _ batch => 4 * batch.length + 4
  | .loopEnd => 1
  | .stopTest => 1
  | .stopStore => setup.workers.length + 3
  | .stopQueue => setup.workers.length + 2
  | .stopJoin workers => workers.length + 1

theorem work_entry (setup : Setup ι) (op : Op κ) : work setup (entry op : Pc ι κ) ≤ 2 := by
  cases op <;> simp [entry, work]

/-- What a worker has left to do. -/
theorem work_le {setup : Setup ι} {p : Pc ι κ} (hp : p.stopping = false)
    (hfits : p.hand.length ≤ setup.batchSize) : work setup p ≤ 6 * setup.batchSize + 4 := by
  cases p <;> simp only [Pc.stopping, reduceCtorEq] at hp <;>
    simp only [Pc.hand, Pc.currentRun, Pc.batchBuffer, List.length_append, List.length_cons,
      List.length_nil] at hfits <;> simp only [work] <;> omega

section
variable [DecidableEq ι] {setup : Setup ι} {i : ι} {m : Mem ι κ} {c : Choice} {p : Pc ι κ}
  {o : Outcome ι κ}

/-- Once `m_stop` is set, every step is progress. -/
theorem run_work (ho : run setup i m c p = some o) (hstop : m.stop = true) :
    o.mem.stop = true ∧ 1 + work setup o.pc ≤ work setup p := by
  cases p <;> simp only [run, push, popImmediate, popBatch, forEach, engineRun, stopJoin] at ho
  case popBatch batch =>
    split at ho
    · split at ho <;> rename_i hlt
      · split at ho <;> cases ho
        refine ⟨hstop, ?_⟩
        simp only [work]
        omega
      · cases ho
    · split at ho <;> cases ho
      refine ⟨hstop, ?_⟩
      split <;> simp only [work] <;> omega
    · cases ho
  case popRelease ticket job batch =>
    cases ho
    refine ⟨hstop, ?_⟩
    simp only [work, List.length_append, List.length_singleton]
    omega
  case loopTest =>
    cases ho
    refine ⟨hstop, ?_⟩
    rw [if_pos hstop]
    exact Nat.le_refl _
  all_goals
    (repeat' split at ho) <;> cases ho <;> refine ⟨by first | exact hstop | rfl, ?_⟩ <;>
      simp only [work, List.length_cons] <;> omega

/-- A batch never grows beyond the batch size. -/
theorem run_fits (ho : run setup i m c p = some o) (hfits : p.hand.length ≤ setup.batchSize) :
    o.pc.hand.length ≤ setup.batchSize := by
  cases p <;> simp only [run, push, popImmediate, popBatch, forEach, engineRun, stopJoin] at ho
  case popBatch batch =>
    split at ho
    · split at ho <;> rename_i hlt
      · split at ho <;> cases ho
        simpa [Pc.hand, Pc.currentRun, Pc.batchBuffer] using Nat.succ_le_of_lt hlt
      · cases ho
    · split at ho <;> cases ho
      simp only
      split
      · exact Nat.zero_le _
      · exact hfits
    · cases ho
  case loopTest =>
    cases ho
    simp only
    split <;> exact Nat.zero_le _
  case forEach batch =>
    split at ho
    · cases ho
      exact Nat.zero_le _
    · split at ho <;> cases ho
      exact hfits
  case pushResult job result batch =>
    cases ho
    exact Nat.le_of_succ_le hfits
  all_goals
    (repeat' split at ho) <;> cases ho <;> exact hfits

/-- A worker thread that is waited for is one of the pool, and a queue once closed stays so. -/
theorem run_joins (ho : run setup i m c p = some o) :
    (∀ w, w ∈ o.mem.joinable → w ∈ m.joinable) ∧
      (m.queue.stopped = true ∨ p = .stopQueue → o.mem.queue.stopped = true) ∧
      (o.mem.stop = true → m.stop = true ∨ o.pc = .stopQueue) ∧
      (∀ ws, o.pc = .stopJoin ws → ws = setup.workers ∨ ∃ w, p = .stopJoin (w :: ws)) := by
  cases p <;> simp only [run, push, popImmediate, popBatch, forEach, engineRun, stopJoin] at ho
  case popBatch batch =>
    split at ho
    · split at ho
      · split at ho <;> rename_i htake <;> cases ho
        refine ⟨fun w => id, fun hs => ?_, .inl, fun ws hw => by cases hw⟩
        rw [(TaskQueue.take_some htake).2.2.1]
        exact hs.resolve_right (by simp)
      · cases ho
    · split at ho <;> cases ho
      refine ⟨fun w => id, fun hs => hs.resolve_right (by simp), .inl, fun ws hw => ?_⟩
      simp only at hw
      split at hw <;> cases hw
    · cases ho
  case loopTest =>
    cases ho
    refine ⟨fun w => id, fun hs => hs.resolve_right (by simp), .inl, fun ws hw => ?_⟩
    simp only at hw
    split at hw <;> cases hw
  case stopJoin workers =>
    split at ho
    · cases ho
      exact ⟨fun w => id, fun hs => hs.resolve_right (by simp), .inl, fun ws hw => by cases hw⟩
    · rename_i w ws
      split at ho
      · split at ho <;> cases ho
        refine ⟨fun w => List.mem_of_mem_erase, fun hs => hs.resolve_right (by simp), .inl,
          fun ws hw => ?_⟩
        cases hw
        exact .inr ⟨_, rfl⟩
      · cases ho
        refine ⟨fun w => id, fun hs => hs.resolve_right (by simp), .inl, fun ws hw => ?_⟩
        cases hw
        exact .inr ⟨_, rfl⟩
  case push job =>
    cases ho
    refine ⟨fun w => id, fun hs => ?_, .inl, fun ws hw => by cases hw⟩
    exact (TaskQueue.push_stopped _ _ job).trans (hs.resolve_right (by simp))
  all_goals
    (repeat' split at ho) <;> cases ho <;>
      simp [TaskQueue.shutdown, TaskQueue.release]

end

/-! ## The invariant -/

/-- The batches of the workers, and the threads that `shutdown` waits for. -/
structure Winding (setup : Setup ι) (mn : ι) (s : State ι κ) : Prop where
  fits : ∀ i, (s.pc i).hand.length ≤ setup.batchSize
  joinable : ∀ w ∈ s.mem.joinable, w ∈ setup.workers
  joins : ∀ i ws, s.pc i = .stopJoin ws → ws.length ≤ setup.workers.length
  closed : s.mem.stop = true → s.mem.queue.stopped = true ∨ s.pc mn = .stopQueue

section
variable [DecidableEq ι] [DecidableEq κ] {setup : Setup ι} {allocator : ι → Allocator} {mn i : ι}
  {h : List (Event ι κ)} {s : State ι κ}

theorem winding (hr : (lts κ setup allocator).ReachIf (fun _ => Roles setup mn) h s) :
    Winding setup mn s := by
  refine hr.inv_of_reach (I := fun _ s => Winding setup mn s) (fun s h0 => ?_)
    fun h s l es s' hreach hw _ hs => ?_
  · obtain rfl : s = (impl κ setup allocator).init := h0
    exact ⟨fun _ => Nat.zero_le _, fun w => id, fun i ws hp => (by cases hp),
      fun hs => (by cases hs)⟩
  obtain ⟨ht, -⟩ := inv hreach
  obtain ⟨i, op | c⟩ := l
  · obtain ⟨hpc, rfl, rfl⟩ := Impl.step_call.1 hs
    refine ⟨?_, hw.joinable, ?_, fun hstop => (hw.closed hstop).imp_right fun hp => ?_⟩
    · exact forall_update (P := fun _ (p : Pc ι κ) => p.hand.length ≤ setup.batchSize)
        (by cases op <;> exact Nat.zero_le _) fun j _ => hw.fits j
    · exact forall_update (P := fun _ (p : Pc ι κ) => ∀ ws, p = .stopJoin ws →
        ws.length ≤ setup.workers.length) (fun ws hp => by cases op <;> cases hp)
          fun j _ => hw.joins j
    · have hne : mn ≠ i := by
        rintro rfl
        rw [hpc] at hp
        cases hp
      exact (Function.update_of_ne hne ..).trans hp
  · obtain ⟨o, ho, rfl, rfl⟩ := Impl.step_run.1 hs
    replace ho : run setup i s.mem c (s.pc i) = some o := ho
    obtain ⟨hjoinable, hclosed, hstop, hjoins⟩ := run_joins ho
    refine ⟨?_, fun w hm => hw.joinable w (hjoinable w hm), ?_, fun hs => ?_⟩
    · exact forall_update (P := fun _ (p : Pc ι κ) => p.hand.length ≤ setup.batchSize)
        (run_fits ho (hw.fits i)) fun j _ => hw.fits j
    · refine forall_update (P := fun _ (p : Pc ι κ) => ∀ ws, p = .stopJoin ws →
        ws.length ≤ setup.workers.length) (fun ws hp => ?_) fun j _ => hw.joins j
      rcases hjoins ws hp with rfl | ⟨w, hp⟩
      · exact Nat.le_refl _
      · exact Nat.le_of_succ_le (hw.joins i _ hp)
    · change o.mem.queue.stopped = true ∨ Function.update s.pc i o.pc mn = .stopQueue
      by_cases hmn : mn = i
      · subst hmn
        rw [Function.update_self]
        rcases hstop hs with hs | hp
        · exact .inl (hclosed (hw.closed hs))
        · exact .inr hp
      · rw [Function.update_of_ne hmn]
        rcases hstop hs with hs | hp
        · exact (hw.closed hs).imp_left fun h => hclosed (.inl h)
        · refine absurd (ht.stopper i ?_).symm hmn
          exact (run_class ho).2.1 (by rw [hp]; rfl)

/-! ## No thread of the pool is stuck -/

/-- A thread that neither waits for a task nor for another thread can move, or its engine fails. -/
theorem exists_step (allocator : ι → Allocator) (hpc : s.pc i ≠ .idle)
    (hclosed : s.mem.queue.stopped = true)
    (hfits : (s.pc i).hand.length ≤ setup.batchSize)
    (hjoin : ∀ w ws, s.pc i = .stopJoin (w :: ws) → w ∈ s.mem.joinable → w ∈ s.mem.ended) :
    ∃ c, ((process κ setup allocator).step (.ok s) (i, .run c)).isSome := by
  have hsome : ∀ c, (run setup i s.mem c (s.pc i)).isSome →
      ∃ c, ((process κ setup allocator).step (.ok s) (i, .run c)).isSome := fun c hc => by
    obtain ⟨o, ho⟩ := Option.isSome_iff_exists.1 hc
    refine ⟨c, ?_⟩
    have hs : (impl κ setup allocator).step s (i, .run c) =
        some (o.events i, ⟨o.mem, Function.update s.pc i o.pc⟩) := Impl.step_run.2 ⟨o, ho, rfl, rfl⟩
    simp only [process, hs]
    split <;> rfl
  cases hp : s.pc i with
  | idle => exact absurd hp hpc
  | popBatch batch =>
    rw [hp] at hfits
    change batch.length ≤ setup.batchSize at hfits
    by_cases htake : batch.length < setup.batchSize ∧ s.mem.queue.tasks ≠ []
    · obtain ⟨hlt, hne⟩ := htake
      obtain ⟨job, rest, hq⟩ := List.exists_cons_of_ne_nil hne
      exact hsome .take (by simp [hp, run, popBatch, hlt, TaskQueue.take, hq])
    · have hend : s.mem.queue.mayEnd setup.kind batch.length setup.batchSize = true := by
        have hcase : batch.length = setup.batchSize ∨ s.mem.queue.tasks = [] := by
          by_cases hq : s.mem.queue.tasks = []
          · exact .inr hq
          · exact .inl (Nat.le_antisymm hfits (Nat.le_of_not_lt fun hlt => htake ⟨hlt, hq⟩))
        cases hk : setup.kind with
        | mpmc => rfl
        | spsc => exact decide_eq_true hcase
        | naive => exact decide_eq_true (hcase.imp_right fun hq => ⟨hq, .inr hclosed⟩)
      exact hsome .none (by simp [hp, run, popBatch, hend])
  | forEach batch =>
    cases batch with
    | nil => exact hsome .none (by rw [hp]; rfl)
    | cons job batch => exact hsome (.clock 0) (by rw [hp]; rfl)
  | engineRun job task batch =>
    cases hrun : (setup.engine i).run {} task (s.mem.allocator i) with
    | ok x => exact hsome (.engine {}) (by simp [hp, run, engineRun, hrun])
    | error f =>
      refine ⟨.engine {}, ?_⟩
      simp only [process, failure, hp, hrun]
      rfl
  | stopTest =>
    refine hsome .none ?_
    simp only [hp, run]
    split <;> rfl
  | stopJoin workers =>
    cases workers with
    | nil => exact hsome .none (by rw [hp]; rfl)
    | cons w ws =>
      by_cases hj : w ∈ s.mem.joinable
      · exact hsome .none (by simp [hp, run, stopJoin, hj, hjoin w ws hp hj])
      · exact hsome .none (by simp [hp, run, stopJoin, hj])
  | _ => exact hsome .none (by rw [hp]; rfl)

/-! ## The steps of the process -/

/-- The threads of the pool: the workers, and the one that shuts it down. -/
def own (setup : Setup ι) (mn : ι) : Finset ι := insert mn setup.workers.toFinset

/-- What the threads of the pool do by themselves: a worker thread that has not ended starts its
loop, and a thread goes on with its operation. -/
def Proceeds (setup : Setup ι) (ended : List ι) {χ : Type*} :
    ι × Shared.Act (Op κ) χ → Prop
  | (_, .run _) => True
  | (i, .call .workerLoop) => i ∈ setup.workers ∧ i ∉ ended
  | (_, .call _) => False

/-- A step of a thread of the pool, and a call that one of them makes. -/
def access (setup : Setup ι) (mn : ι) : Label ι κ → Nat
  | (i, .run _) => if i ∈ own setup mn then 1 else 0
  | (_, .call _) => 0

def called (setup : Setup ι) (mn : ι) : Label ι κ → Nat
  | (i, .call _) => if i ∈ own setup mn then 1 else 0
  | (_, .run _) => 0

/-- `m_stop` is set, unless the process has ended. -/
def Stopped : Except Failure (State ι κ) → Prop
  | .ok s => s.mem.stop = true
  | .error _ => True

/-- What the threads of the pool have left to do. -/
def remaining (setup : Setup ι) (mn : ι) : Except Failure (State ι κ) → Nat
  | .ok s => s.total (fun _ => work setup) (own setup mn)
  | .error _ => 0

theorem remaining_le (hmn : mn ∉ setup.workers)
    (hr : (lts κ setup allocator).ReachIf (fun _ => Roles setup mn) h s) :
    remaining setup mn (.ok s) ≤
      (6 * setup.batchSize + 4) * setup.workers.length + (setup.workers.length + 3) := by
  obtain ⟨ht, -⟩ := inv hr
  have hw := winding hr
  have hmain : work setup (s.pc mn) ≤ setup.workers.length + 3 := by
    have hidle : (s.pc mn).working = false := by
      rw [Bool.eq_false_iff]
      exact fun h => hmn (ht.worker mn h)
    cases hp : s.pc mn <;> rw [hp] at hidle <;> simp only [Pc.working, reduceCtorEq] at hidle <;>
      simp only [work] <;> try omega
    have := hw.joins mn _ hp
    omega
  have hworkers : ∑ i ∈ setup.workers.toFinset, work setup (s.pc i) ≤
      (6 * setup.batchSize + 4) * setup.workers.length := by
    refine (Finset.sum_le_sum (g := fun _ => 6 * setup.batchSize + 4) fun i hi => ?_).trans ?_
    · refine work_le ?_ (hw.fits i)
      rw [Bool.eq_false_iff]
      intro hs
      rw [ht.stopper i hs, List.mem_toFinset] at hi
      exact hmn hi
    · rw [Finset.sum_const_nat fun _ _ => rfl, Nat.mul_comm]
      exact Nat.mul_le_mul_left _ (List.toFinset_card_le _)
  change ∑ i ∈ insert mn setup.workers.toFinset, work setup (s.pc i) ≤ _
  rw [Finset.sum_insert (by rwa [List.mem_toFinset])]
  omega

omit [DecidableEq ι] [DecidableEq κ] in
/-- Only a thread that is to call its engine can fail. -/
theorem engineRun_of_failure {c : Choice} {f : Failure}
    (hf : failure setup s (i, .run c) = some f) :
    ∃ job task batch, s.pc i = .engineRun job task batch := by
  cases c <;> simp only [failure, reduceCtorEq] at hf
  split at hf
  · exact ⟨_, _, _, by assumption⟩
  · cases hf

/-- Once `m_stop` is set, a step of a thread of the pool leaves it less to do. -/
theorem step_work {r r' : Except Failure (State ι κ)} {l : Label ι κ} {es : List (Event ι κ)}
    (hstop : Stopped r) (hs : (process κ setup allocator).step r l = some (es, r')) :
    Stopped r' ∧
      access setup mn l + remaining setup mn r' ≤ remaining setup mn r + 2 * called setup mn l := by
  cases r with
  | error f => cases hs
  | ok s =>
    cases r' with
    | error f =>
      have hf := process_error hs
      obtain ⟨i, op | c⟩ := l
      · cases hf
      · refine ⟨trivial, ?_⟩
        simp only [access, called, remaining]
        split
        · rename_i hi
          have hle := State.work_le_total (w := fun _ => work setup) (s := s) hi
          obtain ⟨job, task, batch, hp⟩ := engineRun_of_failure hf
          rw [hp] at hle
          simp only [work] at hle
          omega
        · omega
    | ok s' =>
      obtain ⟨-, hst⟩ := process_ok.1 hs
      obtain ⟨i, op | c⟩ := l
      · obtain ⟨hpc, rfl, rfl⟩ := Impl.step_call.1 hst
        refine ⟨hstop, ?_⟩
        have hentry := work_entry (ι := ι) setup op
        simp only [access, called, remaining]
        change 0 + (s.moved i s.mem (entry op)).total (fun _ => work setup) _ ≤ _
        split
        · rename_i hi
          have hmoved := State.total_moved (w := fun _ => work setup) (s := s) (m := s.mem)
            (p := entry op) (k := 0) hi fun j _ _ => Nat.le_refl _
          omega
        · rename_i hi
          rw [State.total_congr hi fun j _ => rfl]
          omega
      · obtain ⟨o, ho, rfl, rfl⟩ := Impl.step_run.1 hst
        obtain ⟨hstop', hwork⟩ := run_work ho hstop
        refine ⟨hstop', ?_⟩
        simp only [access, called, remaining]
        change _ + (s.moved i o.mem o.pc).total (fun _ => work setup) _ ≤ _
        split
        · rename_i hi
          have hmoved := State.total_moved (w := fun _ => work setup) (s := s) (m := o.mem)
            (p := o.pc) (k := 0) hi fun j _ _ => Nat.le_refl _
          omega
        · rename_i hi
          rw [State.total_congr (m := o.mem) hi fun j _ => rfl]
          omega

/-! ## The theorem -/

/-- As long as `shutdown` has not returned, a thread of the pool can move. -/
theorem never_stuck (hmn : mn ∉ setup.workers)
    (hr : (lts κ setup allocator).ReachIf (fun _ => Roles setup mn) h s)
    (hstop : s.mem.stop = true) (hj : (s.pc mn).joining = true) :
    ∃ l, l.1 ∈ own setup mn ∧ Proceeds setup s.mem.ended l ∧
      ((process κ setup allocator).step (.ok s) l).isSome := by
  obtain ⟨ht, -⟩ := inv hr
  have hw := winding hr
  have hmain : mn ∈ own setup mn := Finset.mem_insert_self ..
  cases hp : s.pc mn <;> rw [hp] at hj <;> simp only [Pc.joining, reduceCtorEq] at hj
  case stopQueue =>
    refine ⟨(mn, .run .none), hmain, trivial, ?_⟩
    simp [process, failure, impl, Impl.step, run, hp]
  case stopJoin ws =>
    have hclosed : s.mem.queue.stopped = true := by
      refine (hw.closed hstop).resolve_right fun h => ?_
      rw [hp] at h
      cases h
    by_cases hwait : ∃ w ws', ws = w :: ws' ∧ w ∈ s.mem.joinable ∧ w ∉ s.mem.ended
    · -- the worker that is waited for starts its loop, or goes on with it
      obtain ⟨w, ws', rfl, hjoinable, hended⟩ := hwait
      have hworker := hw.joinable w hjoinable
      have hown : w ∈ own setup mn := Finset.mem_insert_of_mem (List.mem_toFinset.2 hworker)
      by_cases hidle : s.pc w = .idle
      · refine ⟨(w, .call .workerLoop), hown, ⟨hworker, hended⟩, ?_⟩
        simp [process, failure, impl, Impl.step, hidle]
      · obtain ⟨c, hc⟩ := exists_step allocator hidle hclosed (hw.fits w)
          fun v vs hv _ => absurd (ht.stopper w (by rw [hv]; rfl)) fun h => hmn (h ▸ hworker)
        exact ⟨(w, .run c), hown, trivial, hc⟩
    · obtain ⟨c, hc⟩ := exists_step allocator (i := mn) (by simp [hp]) hclosed
        (hw.fits mn) fun w ws' hws hjoinable => by
          rw [hp] at hws
          cases hws
          by_contra hended
          exact hwait ⟨w, ws', rfl, hjoinable, hended⟩
      exact ⟨(mn, .run c), hmain, trivial, hc⟩

/-- **Shutdown.** From a state in which `m_stop` is set, the threads of the pool make at most
`6 * batchSize + 4` steps for each worker and `3` for each join and two more for each call they
make, whatever the other threads do. Until then one of them can move, unless an engine has failed;
and when the call of `shutdown` has returned, every worker has ended. -/
theorem shutdown_ends (hmn : mn ∉ setup.workers) {ls : List (Label ι κ)} {es : List (Event ι κ)}
    {r : Except Failure (State ι κ)}
    (hr : (process κ setup allocator).ReachIf (fun _ => Under (Roles setup mn)) h (.ok s))
    (hstop : s.mem.stop = true)
    (hC : (process κ setup allocator).Along (fun _ => Under (Roles setup mn)) h (.ok s) ls)
    (he : (process κ setup allocator).exec (.ok s) ls = some (es, r)) :
    (ls.map (access setup mn)).sum ≤ (6 * setup.batchSize + 4) * setup.workers.length +
        (setup.workers.length + 3) + 2 * (ls.map (called setup mn)).sum ∧
      ∀ s', r = .ok s' → (AllEnded setup s' ∧ (s'.pc mn).joining = false) ∨
        ∃ l, l.1 ∈ own setup mn ∧ Proceeds setup s'.mem.ended l ∧
          ((process κ setup allocator).step (.ok s') l).isSome := by
  have hkeep : ∀ r (l : Label ι κ) es r', Stopped r →
      (process κ setup allocator).step r l = some (es, r') → Stopped r' := by
    intro r l es r' hstop hs
    have hstep : Stopped r' ∧ access setup mn l + remaining setup mn r' ≤
        remaining setup mn r + 2 * called setup mn l := step_work hstop hs
    exact hstep.1
  replace hstop : Stopped (.ok s) := hstop
  constructor
  · have hpaid : (ls.map (access setup mn)).sum + remaining setup mn r ≤
        remaining setup mn (.ok s) + (ls.map fun l => 2 * called setup mn l).sum +
          (es.map fun _ => 0).sum := by
      refine hr.amortized (fun h r l hd => hd.1) (fun h r l es r' _ hd hs => ?_)
        (Lts.along_inv hkeep hstop hC) he
      refine (step_work hd.2 hs).2.trans ?_
      omega
    rw [List.sum_map_mul_left] at hpaid
    have hle := remaining_le hmn (reach_of_process hr rfl)
    have hzero : (es.map fun _ => 0).sum = 0 := by simp
    omega
  · rintro s' rfl
    have hreach := reach_of_process (hr.along hC he) rfl
    have hstop' : Stopped (.ok s') := Lts.exec_inv (I := Stopped) (s := .ok s) hkeep hstop he
    cases hj : (s'.pc mn).joining with
    | true => exact .inr (never_stuck hmn hreach hstop' hj)
    | false =>
      refine .inl ⟨((inv hreach).1.stopped hstop').resolve_left ?_, rfl⟩
      rw [hj]
      exact Bool.false_ne_true

end

/-- `m_stop` is set in the middle of a batch of two. -/
theorem shutdown_ends_halfBatch : ∃ h s es s', (process Nat onePod fun _ => .standardOrt).ReachIf
      (fun _ => Under (Roles onePod 0)) h (.ok s) ∧ s.mem.stop = true ∧
    s.pc onePod.worker = .forEach [job 5] ∧
    (process Nat onePod fun _ => .standardOrt).exec (.ok s) (stopPool.drop 3) = some (es, .ok s') ∧
    10 ≤ (6 * 2 + 4) * 1 + (1 + 3) + 2 * 0 ∧ (AllEnded onePod s' ∧ (s'.pc 0).joining = false ∨
      ∃ l, l.1 ∈ own onePod 0 ∧ Proceeds onePod s'.mem.ended l ∧
        ((process Nat onePod fun _ => .standardOrt).step (.ok s') l).isSome) := by
  let T := process Nat onePod fun _ => .standardOrt
  let init : Except Failure (State (Fin 2) Nat) := .ok (impl Nat onePod fun _ => .standardOrt).init
  obtain ⟨h, s, he, hstop, hpc⟩ : ∃ h s, T.exec init
      (pushJob 4 ++ pushJob 5 ++ halfBatch ++ stopPool.take 3) = some (h, .ok s) ∧
      s.mem.stop = true ∧ s.pc onePod.worker = .forEach [job 5] := ⟨_, _, rfl, rfl, rfl⟩
  have hr := Lts.ReachIf.along (C := fun _ => Under (Roles onePod 0)) (.init rfl) (by decide) he
  obtain ⟨k, s', hk⟩ : ∃ k s', T.exec init
      ((pushJob 4 ++ pushJob 5 ++ halfBatch ++ stopPool.take 3) ++ stopPool.drop 3) =
        some (k, .ok s') := ⟨_, _, rfl⟩
  rw [Lts.exec_append, he, Option.bind_some] at hk
  obtain ⟨⟨es, r⟩, hes, heq⟩ := Option.map_eq_some_iff.1 hk
  obtain ⟨rfl, rfl⟩ := Prod.mk.inj heq
  have hruns : (stopPool.drop 3).all (fun l => match l.2 with | .run _ => true | .call _ => false) =
      true := rfl
  have hC : T.Along (fun _ => Under (Roles onePod 0)) h (.ok s) (stopPool.drop 3) := by
    refine Lts.along_of_forall fun l hl _ r => ?_
    have hrun := List.all_eq_true.1 hruns l hl
    obtain ⟨i, op | c⟩ := l
    · cases hrun
    · cases r <;> trivial
  obtain ⟨hsteps, hend⟩ := shutdown_ends (by decide) hr hstop hC hes
  exact ⟨h, s, es, s', hr, hstop, hpc, hes, hsteps, hend s' rfl⟩

end Lumen.Concurrency.ThreadPool
