import Lumen.Concurrency.Proof.Agree
import Lumen.Concurrency.Proof.Iteration
import Lumen.Concurrency.Proof.MPMCOffers
import Lumen.Main
import Lumen.Utils.Proof.Rejected

/-!
# A worker that finds work takes work

Whatever the configuration file holds and whatever the implementation of the task queue, a worker
in front of tasks removes and processes some of them exactly if the batch size is at least one, the
room for a batch can be had and the engine fails for none of them (`takes_work_iff`). A file may set
the batch size to zero, and then the workers go round their loop in front of the tasks
(`takes_work_zero`).
-/

set_option autoImplicit false

namespace Lumen

open Lumen.Lib Lumen.Lib.Shared Lumen.Core Lumen.Concurrency Lumen.Concurrency.ThreadPool
  Lumen.Network Lumen.Utils

/-- **A worker takes work**, for every file, every implementation of the queue, and every state of
it that offers a task to a thread which is in no call, wherever the other threads are. -/
theorem takes_work_iff (host : Host) (outOfRange : Rat → Nat) (file : ConfigManager.File)
    (heap : Heap) (env : Envs) (p : ThreadPool.State Thread ConnId) (i : Thread) :
    (∀ q s, MPMCTaskQueue.Offers q s.mem → s.pc i = .idle → q.tasks ≠ [] →
      (TakesWork (MPMCTaskQueue.impl Thread) false MPMCTaskQueue.Offers
          (main host (config outOfRange file)).pool (main host (config outOfRange file)).allocator
          heap env q s p i ↔
        Takes (main host (config outOfRange file)).pool heap env (p.mem.allocator i) i q.tasks)) ∧
    (∀ q s, SPSCTaskQueue.Rep q s.mem → s.pc i = .idle → q.tasks ≠ [] →
      (TakesWork (SPSCTaskQueue.impl Thread) () SPSCTaskQueue.Rep
          (main host (config outOfRange file)).pool (main host (config outOfRange file)).allocator
          heap env q s p i ↔
        Takes (main host (config outOfRange file)).pool heap env (p.mem.allocator i) i q.tasks)) ∧
    (∀ q s, NaiveTaskQueue.Offers q s.mem → s.pc i = .idle → q.tasks ≠ [] →
      (TakesWork (NaiveTaskQueue.impl Thread) none NaiveTaskQueue.Offers
          (main host (config outOfRange file)).pool (main host (config outOfRange file)).allocator
          heap env q s p i ↔
        Takes (main host (config outOfRange file)).pool heap env (p.mem.allocator i) i
          q.tasks)) := by
  refine ⟨fun q s hR hpc hne => ?_, fun q s hR hpc hne => ?_, fun q s hR hpc hne => ?_⟩
  · exact takesWork_iff (MPMCTaskQueue.alone none) hR hpc (.inr ⟨_, rfl⟩) hne
  · exact takesWork_iff SPSCTaskQueue.alone hR hpc trivial hne
  · exact takesWork_iff NaiveTaskQueue.alone hR hpc ⟨hne, .inr ⟨_, rfl⟩⟩ hne

/-! ## One task -/

section
variable {ι μ π χ ε : Type*} [DecidableEq ι] [DecidableEq π]
  {M : Impl ι μ π χ ITaskQueue.Op ITaskQueue.Ret ε} {cap : Option Nat}
  {ok : Fifo → ITaskQueue.Op → Prop} {Rep : Fifo → μ → Prop}

/-- The value of a queue after the first push. -/
def oneTask : Fifo := { tasks := [(job 4).task], pushed := 1 }

/-- The queue after a first push. -/
theorem reach_oneTask {c : χ} (hM : Implements M c (Fifo.apply cap) ok Rep) (h0 : Rep {} M.start)
    (hok : ok {} (.push (job 4).task)) (hcap : ¬ Fifo.Full cap {}) (i : ι) :
    ∃ h s, M.lts.Reach h s ∧ M.Quiescent s ∧ Rep oneTask s.mem := by
  have hq : M.Quiescent M.init := fun _ => rfl
  have htotal : Finishes M c M.init i (.push (job 4).task) := hM.total h0 hq hok
  obtain ⟨r, s, hsolo⟩ := htotal.soloBy
  obtain ⟨-, hR, hq'⟩ := hM.sound h0 hq hok hsolo.solo
  rw [Fifo.apply_push rfl hcap] at hR
  obtain ⟨h, hr, -⟩ := (SeqRun.cons hsolo.solo (.nil s)).reach (.init rfl)
  exact ⟨h, s, hr, hq', hR⟩

end

theorem reach_mpmc : ∃ h s, (MPMCTaskQueue.lts Thread).Reach h s ∧
    (MPMCTaskQueue.impl Thread).Quiescent s ∧ MPMCTaskQueue.Offers oneTask s.mem := by
  obtain ⟨h, s, hr, hq, hR⟩ := reach_oneTask (MPMCTaskQueue.implements (ι := Thread))
    MPMCTaskQueue.Rep.init (fun _ => by decide) (by decide) .main
  exact ⟨h, s, hr, hq, hR.offers⟩

theorem reach_spsc : ∃ h s, (SPSCTaskQueue.lts Thread).Reach h s ∧
    (SPSCTaskQueue.impl Thread).Quiescent s ∧ SPSCTaskQueue.Rep oneTask s.mem :=
  reach_oneTask SPSCTaskQueue.implements SPSCTaskQueue.Rep.init trivial (by decide) .main

theorem reach_naive : ∃ h s, (NaiveTaskQueue.lts Thread).Reach h s ∧
    (NaiveTaskQueue.impl Thread).Quiescent s ∧ NaiveTaskQueue.Offers oneTask s.mem := by
  obtain ⟨h, s, hr, hq, hR⟩ := reach_oneTask (NaiveTaskQueue.implements_fifo (ι := Thread))
    NaiveTaskQueue.Rep.init rfl (by decide) .main
  exact ⟨h, s, hr, hq, hR.offers⟩

def pixelHost : Host where
  hardwareConcurrency := 2
  engine _ := pixelEngine
  arena _ := { arenaPtr := 64, capacity := 64 * 1024 * 1024, offset := 0 }
  sockfd := 3
  pre := 0
  post := 0

/-- The section `engine` with a batch size. -/
def batchFile (n : Number) : ConfigManager.File :=
  .document (.object [("engine", .object [("batch_size", .number n)])])

def batchSetup (n : Number) : Network.Setup Thread :=
  main pixelHost (config (fun _ => 0) (batchFile n))

/-- The pool as it is built. -/
def batchPool (n : Number) : ThreadPool.State Thread ConnId :=
  (ThreadPool.impl ConnId (batchSetup n).pool (batchSetup n).allocator).init

/-- Up to a million tasks fit into a vector. -/
def million : Heap := { maxSize := 2 ^ 59, available := fun n => decide (n ≤ 1000000) }

/-- Every call of an engine finds memory. -/
def clockless : Envs := fun _ => (0, {})

/-- A batch size of four, and one task in the queue. -/
theorem takes_work_four :
    (∃ q s, q.tasks = [(job 4).task] ∧ TakesWork (MPMCTaskQueue.impl Thread) false MPMCTaskQueue.Offers
      (batchSetup (.unsigned 4)).pool (batchSetup (.unsigned 4)).allocator million clockless q s
      (batchPool (.unsigned 4)) (.worker 0)) ∧
    (∃ q s, q.tasks = [(job 4).task] ∧ TakesWork (SPSCTaskQueue.impl Thread) () SPSCTaskQueue.Rep
      (batchSetup (.unsigned 4)).pool (batchSetup (.unsigned 4)).allocator million clockless q s
      (batchPool (.unsigned 4)) (.worker 0)) ∧
    ∃ q s, q.tasks = [(job 4).task] ∧ TakesWork (NaiveTaskQueue.impl Thread) none NaiveTaskQueue.Offers
      (batchSetup (.unsigned 4)).pool (batchSetup (.unsigned 4)).allocator million clockless q s
      (batchPool (.unsigned 4)) (.worker 0) := by
  have hne : oneTask.tasks ≠ [] := by decide
  have htakes : Takes (batchSetup (.unsigned 4)).pool million clockless
      ((batchPool (.unsigned 4)).mem.allocator (.worker 0)) (.worker 0) oneTask.tasks :=
    ⟨by decide, by decide, by decide, by decide, trivial⟩
  obtain ⟨hmpmc, hspsc, hnaive⟩ := takes_work_iff pixelHost (fun _ => 0) (batchFile (.unsigned 4))
    million clockless (batchPool (.unsigned 4)) (.worker 0)
  obtain ⟨-, s, -, hq, hR⟩ := reach_mpmc
  obtain ⟨-, t, -, hq', hR'⟩ := reach_spsc
  obtain ⟨-, u, -, hq'', hR''⟩ := reach_naive
  exact ⟨⟨_, s, rfl, (hmpmc _ s hR (hq _) hne).2 htakes⟩,
    ⟨_, t, rfl, (hspsc _ t hR' (hq' _) hne).2 htakes⟩,
    _, u, rfl, (hnaive _ u hR'' (hq'' _) hne).2 htakes⟩

/-- The worker is in front of a task; its call returns, but without the task, and it comes back to
it. -/
def Spins {μ π χ ε : Type} [DecidableEq π]
    (M : Impl Thread μ π χ ITaskQueue.Op ITaskQueue.Ret ε) (c : χ) (Offers : Fifo → μ → Prop)
    (setup : Network.Setup Thread) (heap : Heap) (p : ThreadPool.State Thread ConnId) : Prop :=
  ∃ h s, M.lts.Reach h s ∧ M.Quiescent s ∧ Offers oneTask s.mem ∧
    (∀ env, ¬ TakesWork M c Offers setup.pool setup.allocator heap env oneTask s p (.worker 0)) ∧
    Finishes M c s (.worker 0) (.popBatch setup.pool.batchSize) ∧
    ∀ r s', SoloBy M (.worker 0) s (.popBatch setup.pool.batchSize) r s' →
      r = .batch [] ∧ Offers oneTask s'.mem ∧ s'.pc = s.pc

section
variable {μ π χ ε : Type} [DecidableEq π] {M : Impl Thread μ π χ ITaskQueue.Op ITaskQueue.Ret ε}
  {c : χ} {cap : Option Nat} {ok : Fifo → ITaskQueue.Op → Prop} {Offers : Fifo → μ → Prop}

theorem spins_zero (hM : Alone M c (Fifo.apply cap) ok Offers)
    (hreach : ∃ h s, M.lts.Reach h s ∧ M.Quiescent s ∧ Offers oneTask s.mem)
    (hok : ok oneTask (.popBatch 0)) :
    Spins M c Offers (batchSetup (.unsigned 0)) million (batchPool (.unsigned 0)) := by
  obtain ⟨h, s, hr, hq, hR⟩ := hreach
  have hspins : ∀ env, ¬ TakesWork M c Offers (batchSetup (.unsigned 0)).pool
        (batchSetup (.unsigned 0)).allocator million env oneTask s (batchPool (.unsigned 0))
          (.worker 0) ∧
      Finishes M c s (.worker 0) (.popBatch 0) ∧
      ∀ r s', SoloBy M (.worker 0) s (.popBatch 0) r s' →
        r = .batch [] ∧ Offers oneTask s'.mem ∧ s'.pc = s.pc :=
    fun env => spins hM hR (hq _) hok (by decide) rfl
  exact ⟨h, s, hr, hq, hR, fun env => (hspins env).1, (hspins clockless).2⟩

end

/-- A batch size of zero is accepted, and no implementation of the queue takes a task. With a batch
size of minus one the worker does not come to its first iteration. -/
theorem takes_work_zero :
    ¬ ConfigManager.Caught (fun _ => 0) {} (batchFile (.unsigned 0)) ∧
    Spins (MPMCTaskQueue.impl Thread) false MPMCTaskQueue.Offers (batchSetup (.unsigned 0)) million
      (batchPool (.unsigned 0)) ∧
    Spins (SPSCTaskQueue.impl Thread) () SPSCTaskQueue.Rep (batchSetup (.unsigned 0)) million
      (batchPool (.unsigned 0)) ∧
    Spins (NaiveTaskQueue.impl Thread) none NaiveTaskQueue.Offers (batchSetup (.unsigned 0)) million
      (batchPool (.unsigned 0)) ∧
    ¬ ConfigManager.Caught (fun _ => 0) {} (batchFile (.integer (-1))) ∧
    million.reserve (batchSetup (.integer (-1))).pool.batchSize = .error .lengthError := by
  have hload : ∀ n, ¬ ConfigManager.Caught (fun _ => 0) {} (batchFile n) := by
    intro n ⟨e, config', h⟩
    cases h
  refine ⟨hload _, ?_, ?_, ?_, hload _, by decide⟩
  · exact spins_zero (MPMCTaskQueue.alone none) reach_mpmc (.inr ⟨_, rfl⟩)
  · exact spins_zero SPSCTaskQueue.alone reach_spsc trivial
  · exact spins_zero NaiveTaskQueue.alone reach_naive ⟨by decide, .inr ⟨_, rfl⟩⟩

end Lumen
