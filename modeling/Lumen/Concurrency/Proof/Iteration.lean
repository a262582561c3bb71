import Lumen.Concurrency.ITaskQueue
import Lumen.Concurrency.Proof.Failures

/-!
# An iteration of `worker_loop`

The worker reserves room for a batch, pops a batch from an implementation of the task queue, and
runs the loop over it, while nothing else happens. The loop over the batch ends, with one result for
each task, exactly if the calls of the engine are answerable one after the other (`processes_iff`);
and a worker in front of tasks takes and processes some of them exactly if it also asks for at least
one and gets the room (`takesWork_iff`). The other threads may be anywhere, as long as the queue
offers the worker its tasks: `Offers` of the implementation says when it does.
-/

set_option autoImplicit false

namespace Lumen.Core.InferenceEngine

/-- The calls of the engine for the tasks are answerable one after the other, with a reset of the
allocator after each; `env k` is what the `k`-th of them meets. -/
def AnswerableAll (engine : InferenceEngine) : (Nat → RunEnv) → Allocator → List InferenceTask → Prop
  | _, _, [] => True
  | env, allocator, task :: tasks =>
    engine.Answerable (env 0) task allocator ∧ AnswerableAll engine (fun k => env (k + 1))
      (engine.used (env 0) task allocator).reset tasks

end Lumen.Core.InferenceEngine

namespace Lumen.Concurrency.ThreadPool

open Lumen.Lib Lumen.Lib.Shared Lumen.Core

theorem Heap.reserve_ok {heap : Heap} {n : Nat} :
    heap.reserve n = .ok () ↔ n ≤ heap.maxSize ∧ heap.available n = true := by
  unfold reserve
  (repeat' split) <;> simp_all

variable {ι κ : Type*}

/-! ## The loop over the batch -/

/-- For each task of a batch, what the clock says and what the call of the engine meets. -/
abbrev Envs := Nat → Rat × RunEnv

def Envs.next (env : Envs) : Envs := fun k => env (k + 1)

def Envs.run (env : Envs) : Nat → RunEnv := fun k => (env k).2

/-- The steps of the loop over a batch of `n` tasks. -/
def loopOver (i : ι) : Envs → Nat → List (Label ι κ)
  | _, 0 => [(i, .run .none)]
  | env, n + 1 =>
    (i, .run (.clock (env 0).1)) :: (answering i (env 0).2 ++ loopOver i env.next n)

section
variable [DecidableEq ι] [DecidableEq κ] {setup : Setup ι} {allocator : ι → Allocator} {i : ι}
  {s s' : State ι κ} {job : Job κ} {batch : List (Job κ)}

/-- The loop of worker `i` over the batch ends, and has pushed one result for each task, in their
order. -/
def Processes (setup : Setup ι) (allocator : ι → Allocator) (s : State ι κ) (i : ι) (env : Envs)
    (batch : List (Job κ)) : Prop :=
  ∃ h s',
    (process κ setup allocator).exec (.ok s) (loopOver i env batch.length) = some (h, .ok s') ∧
      s'.pc i = .loopTest ∧ (produced h).map Prod.fst = batch ∧
      ∀ x ∈ produced h, Carries x.1 x.2

/-- The task as it is passed to the engine. -/
def Job.waited (job : Job κ) (now : Rat) : InferenceTask :=
  { job.task with
    trace := job.task.trace.map fun trace => { trace with queueWaitMs := trace.getElapsedMs now } }

/-- The worker has set the waiting time of the next task of its batch. -/
def waited (s : State ι κ) (i : ι) (now : Rat) (job : Job κ) (batch : List (Job κ)) :
    State ι κ where
  mem := s.mem
  pc := Function.update s.pc i (.engineRun job (Job.waited job now) batch)

theorem step_waited (now : Rat) (hpc : s.pc i = .forEach (job :: batch)) :
    (process κ setup allocator).step (.ok s) (i, .run (.clock now)) =
      some ([], .ok (waited s i now job batch)) := by
  refine process_run (o := { mem := s.mem, pc := .engineRun job (Job.waited job now) batch }) rfl ?_
  rw [hpc]
  rfl

omit [DecidableEq κ] in
theorem waited_pc (s : State ι κ) (i : ι) (now : Rat) (job : Job κ) (batch : List (Job κ)) :
    (waited s i now job batch).pc i = .engineRun job (Job.waited job now) batch :=
  Function.update_self ..

omit [DecidableEq κ] in
theorem waited_ok (now : Rat) : ((waited s i now job batch).pc i).Ok setup := by
  rw [waited_pc s i now job batch]
  refine ⟨rfl, ?_⟩
  simp only [Job.waited, SameTrace, Option.map_map]
  rfl

/-- The steps for one task of the batch, and those that follow them. -/
theorem exec_task (allocator : ι → Allocator) (now : Rat) (env : RunEnv)
    (hpc : s.pc i = .forEach (job :: batch))
    (ha : (setup.engine i).Answerable env job.task (s.mem.allocator i)) :
    ∃ result, Carries job result ∧ ∀ ls, (process κ setup allocator).exec (.ok s)
        ((i, .run (.clock now)) :: (answering i env ++ ls)) =
      ((process κ setup allocator).exec
        (.ok (answer setup (waited s i now job batch) i env job batch result)) ls).map fun p =>
          (.obs i (.produced job result) :: p.1, p.2) := by
  obtain ⟨result, hcarries, he⟩ :=
    exec_answering allocator env (waited_pc s i now job batch) (waited_ok now) ha
  refine ⟨result, hcarries, fun ls => ?_⟩
  simp only [Lts.exec, step_waited now hpc, Option.bind_some, Lts.exec_append, he, List.nil_append,
    List.singleton_append, Prod.mk.eta, Option.map_id']

theorem answerable_of_task {now : Rat} {env : RunEnv} {ls : List (Label ι κ)}
    {h : List (Event ι κ)} {r : Except Failure (State ι κ)} (hpc : s.pc i = .forEach (job :: batch))
    (he : (process κ setup allocator).exec (.ok s)
      ((i, .run (.clock now)) :: (answering i env ++ ls)) = some (h, r)) :
    (setup.engine i).Answerable env job.task (s.mem.allocator i) := by
  simp only [Lts.exec, step_waited now hpc, Option.bind_some, Lts.exec_append] at he
  cases hcall : (process κ setup allocator).exec (.ok (waited s i now job batch))
      (answering i env) with
  | none => simp [hcall] at he
  | some p =>
    have ha := answerable_of_exec (waited_pc s i now job batch) (waited_ok now) hcall
    exact ha

omit [DecidableEq ι] [DecidableEq κ] in
theorem produced_cons (job : Job κ) (result : InferenceResult) (h : List (Event ι κ)) :
    produced (.obs i (.produced job result) :: h) = (job, result) :: produced h := rfl

theorem processes_nil (env : Envs) (hpc : s.pc i = .forEach []) :
    Processes setup allocator s i env [] := by
  have hrun : run setup i s.mem .none (s.pc i) = some { mem := s.mem, pc := .loopTest } := by
    rw [hpc]
    rfl
  refine ⟨[], _, Lts.exec_cons.2 ⟨_, _, _, process_run rfl hrun, Lts.exec_nil, rfl⟩, ?_, rfl, ?_⟩
  · exact Function.update_self ..
  · intro x hx
    cases hx

/-- The loop over a batch, by induction on the batch: each task leaves the worker at the rest. -/
theorem processes_iff {env : Envs} (hpc : s.pc i = .forEach batch) :
    Processes setup allocator s i env batch ↔
      (setup.engine i).AnswerableAll env.run (s.mem.allocator i) (batch.map Job.task) := by
  induction batch generalizing s env with
  | nil => exact iff_of_true (processes_nil env hpc) trivial
  | cons job batch ih =>
    have hrest : ∀ result, Processes setup allocator
        (answer setup (waited s i (env 0).1 job batch) i (env 0).2 job batch result) i env.next
          batch ↔
          (setup.engine i).AnswerableAll env.next.run
            ((setup.engine i).used (env 0).2 job.task (s.mem.allocator i)).reset
            (batch.map Job.task) := by
      intro result
      rw [ih (Function.update_self ..), answer_allocator]
      exact Iff.rfl
    constructor
    · intro ⟨h, s', he, hloop, hjobs, hcarry⟩
      have ha := answerable_of_task hpc he
      obtain ⟨result, -, hexec⟩ := exec_task allocator (env 0).1 (env 0).2 hpc ha
      refine ⟨ha, (hrest result).1 ?_⟩
      rw [List.length_cons, loopOver, hexec] at he
      obtain ⟨⟨h', r⟩, he', heq⟩ := Option.map_eq_some_iff.1 he
      cases heq
      rw [produced_cons] at hjobs hcarry
      exact ⟨h', s', he', hloop, (List.cons.inj hjobs).2, fun x hx =>
        hcarry x (List.mem_cons_of_mem _ hx)⟩
    · intro ⟨ha, hall⟩
      obtain ⟨result, hcarries, hexec⟩ := exec_task allocator (env 0).1 (env 0).2 hpc ha
      obtain ⟨h, s', he, hloop, hjobs, hcarry⟩ := (hrest result).2 hall
      refine ⟨.obs i (.produced job result) :: h, s', ?_, hloop, ?_, ?_⟩
      · rw [List.length_cons, loopOver, hexec, he]
        rfl
      · rw [produced_cons, List.map_cons, hjobs]
      · rw [produced_cons]
        exact List.forall_mem_cons.2 ⟨hcarries, hcarry⟩

/-! ## The iteration -/

/-- The worker at the loop over the batch it has popped. -/
def atBatch (p : ThreadPool.State ι κ) (i : ι) (batch : List (Job κ)) : ThreadPool.State ι κ where
  mem := p.mem
  pc := Function.update p.pc i (.forEach batch)

section
variable {μ π χ ε : Type*} [DecidableEq π]

/-- The worker `i` in front of the queue `M`, which offers `q`, while no other thread moves: it gets
the room for a batch; its call of `pop_batch` returns, and whatever it returns are tasks that it has
removed from the queue, at least one, each of which it then processes. -/
structure TakesWork (M : Impl ι μ π χ ITaskQueue.Op ITaskQueue.Ret ε) (c : χ)
    (Offers : Fifo → μ → Prop) (setup : Setup ι) (allocator : ι → Allocator) (heap : Heap)
    (env : Envs) (q : Fifo) (s : Shared.State ι μ π) (p : ThreadPool.State ι κ) (i : ι) : Prop where
  reserves : heap.reserve setup.batchSize = .ok ()
  returns : Finishes M c s i (.popBatch setup.batchSize)
  takes : ∀ r s', SoloBy M i s (.popBatch setup.batchSize) r s' →
    ∃ batch q', r = .batch batch ∧ batch ≠ [] ∧ q.tasks = batch ++ q'.tasks ∧ Offers q' s'.mem ∧
      ∀ jobs : List (Job κ), jobs.map Job.task = batch →
        Processes setup allocator (atBatch p i jobs) i env jobs

/-- The batch size is at least one, there is room for so many tasks, and the calls of the engine for
the first so many of `tasks` are answerable. -/
structure Takes (setup : Setup ι) (heap : Heap) (env : Envs) (allocator : Allocator) (i : ι)
    (tasks : List InferenceTask) : Prop where
  pos : 0 < setup.batchSize
  le : setup.batchSize ≤ heap.maxSize
  available : heap.available setup.batchSize = true
  answerable : (setup.engine i).AnswerableAll env.run allocator (tasks.take setup.batchSize)

variable {M : Impl ι μ π χ ITaskQueue.Op ITaskQueue.Ret ε} {c : χ} {cap : Option Nat}
  {ok : Fifo → ITaskQueue.Op → Prop} {Offers : Fifo → μ → Prop} {heap : Heap} {env : Envs}
  {q : Fifo} {t : Shared.State ι μ π} {p : ThreadPool.State ι κ}

/-- A worker in front of the tasks of `q`, for any implementation of the queue. -/
theorem takesWork_iff [Nonempty κ] (hM : Alone M c (Fifo.apply cap) ok Offers) (hR : Offers q t.mem)
    (hidle : t.pc i = M.idle) (hok : ok q (.popBatch setup.batchSize)) (hne : q.tasks ≠ []) :
    TakesWork M c Offers setup allocator heap env q t p i ↔
      Takes setup heap env (p.mem.allocator i) i q.tasks := by
  have hproc : ∀ jobs : List (Job κ), Processes setup allocator (atBatch p i jobs) i env jobs ↔
      (setup.engine i).AnswerableAll env.run (p.mem.allocator i) (jobs.map Job.task) :=
    fun jobs => processes_iff (Function.update_self ..)
  have htotal := hM.total hidle hR hok
  constructor
  · intro h
    obtain ⟨hle, havail⟩ := Heap.reserve_ok.1 h.reserves
    obtain ⟨r, s', hsolo⟩ := htotal.soloBy
    obtain ⟨rfl, -⟩ := hM.sound hR hok hsolo.solo
    obtain ⟨batch, q', hbatch, hnonempty, -, -, hjobs⟩ := h.takes _ _ hsolo
    cases hbatch
    obtain ⟨tag⟩ := ‹Nonempty κ›
    have hmap : ((q.tasks.take setup.batchSize).map fun task => Job.mk task tag).map Job.task =
        q.tasks.take setup.batchSize := by
      rw [List.map_map]
      exact List.map_id _
    refine ⟨Nat.pos_of_ne_zero fun hzero => hnonempty ?_, hle, havail, ?_⟩
    · rw [hzero, List.take_zero]
    · rw [← hmap]
      exact (hproc _).1 (hjobs _ hmap)
  · intro h
    refine ⟨Heap.reserve_ok.2 ⟨h.le, h.available⟩, htotal, fun r s' hsolo => ?_⟩
    obtain ⟨rfl, hR', -⟩ := hM.sound hR hok hsolo.solo
    refine ⟨_, _, rfl, ?_, (List.take_append_drop setup.batchSize q.tasks).symm, hR',
      fun jobs hjobs => (hproc jobs).2 ?_⟩
    · -- at least one of them
      have hpos := h.pos
      have hlen := List.length_pos_iff.2 hne
      intro hnil
      have := congrArg List.length hnil
      simp only [List.length_take, List.length_nil] at this
      omega
    · rw [hjobs]
      exact h.answerable

/-- A worker that asks for no tasks takes none: its call returns, and it comes back to a queue that
offers what it did. -/
theorem spins [Nonempty κ] (hM : Alone M c (Fifo.apply cap) ok Offers) (hR : Offers q t.mem)
    (hidle : t.pc i = M.idle) (hok : ok q (.popBatch setup.batchSize)) (hne : q.tasks ≠ [])
    (hzero : setup.batchSize = 0) :
    ¬ TakesWork M c Offers setup allocator heap env q t p i ∧
      Finishes M c t i (.popBatch setup.batchSize) ∧
      ∀ r t', SoloBy M i t (.popBatch setup.batchSize) r t' →
        r = .batch [] ∧ Offers q t'.mem ∧ t'.pc = t.pc := by
  refine ⟨fun h => ?_, hM.total hidle hR hok, fun r t' hsolo => ?_⟩
  · have hpos := ((takesWork_iff hM hR hidle hok hne).1 h).pos
    omega
  · obtain ⟨rfl, hR', hpc⟩ := hM.sound hR hok hsolo.solo
    rw [hzero] at hR' ⊢
    exact ⟨rfl, hR', hpc⟩

end

end
end Lumen.Concurrency.ThreadPool
