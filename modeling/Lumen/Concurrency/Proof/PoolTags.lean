import Lumen.Concurrency.Proof.PoolInv

/-!
# The tags of the jobs

No code reads the tag of a job: the pool of tagged jobs takes the steps of the pool of plain ones.
The results it has not yet popped may be more (`Untags`).
-/

set_option autoImplicit false

namespace Lumen.Concurrency

open Lumen.Lib Lumen.Core

variable {ι κ : Type*}

def Job.untag (job : Job κ) : Job Unit := .plain job.task

namespace TaskQueue

def untag (q : TaskQueue κ) : TaskQueue Unit :=
  { tasks := q.tasks.map .untag, accepted := q.accepted, unreleased := q.unreleased,
    stopped := q.stopped }

variable {q : TaskQueue κ} {kind : QueueKind}

theorem full_untag : q.untag.full kind = q.full kind := by
  cases kind <;> simp [full, untag]

theorem closed_untag : q.untag.closed kind = q.closed kind := rfl

theorem mayEnd_untag {n max : Nat} : q.untag.mayEnd kind n max = q.mayEnd kind n max := by
  cases kind <;> simp [mayEnd, untag]

/-- A push is accepted whatever the tag. -/
theorem push_untag {job : Job κ} : q.untag.push kind job.untag =
    ((q.push kind job).1, (q.push kind job).2.untag) := by
  simp only [push, full_untag, closed_untag]
  split
  · rfl
  · simp [untag]

theorem take_untag : q.untag.take =
    q.take.map fun x => (x.1, x.2.1.untag, x.2.2.untag) := by
  obtain ⟨tasks, accepted, unreleased, stopped⟩ := q
  cases tasks <;> simp [take, untag]

end TaskQueue

namespace ThreadPool

namespace Pc

def untag : Pc ι κ → Pc ι Unit
  | .idle => .idle
  | .push job => .push job.untag
  | .popImmediate => .popImmediate
  | .loopTest => .loopTest
  | .popBatch batch => .popBatch (batch.map .untag)
  | .popRelease ticket job batch => .popRelease ticket job.untag (batch.map .untag)
  | .forEach batch => .forEach (batch.map .untag)
  | .engineRun job task batch => .engineRun job.untag task (batch.map .untag)
  | .arenaReset job result batch => .arenaReset job.untag result (batch.map .untag)
  | .pushResult job result batch => .pushResult job.untag result (batch.map .untag)
  | .loopEnd => .loopEnd
  | .stopTest => .stopTest
  | .stopStore => .stopStore
  | .stopQueue => .stopQueue
  | .stopJoin workers => .stopJoin workers

theorem working_untag {p : Pc ι κ} : p.untag.working = p.working := by
  cases p <;> rfl

end Pc

def untagResult (x : Job κ × InferenceResult) : Job Unit × InferenceResult := (x.1.untag, x.2)

/-- The pool `n` of plain jobs is the pool `m` without the tags; `m` has the results `ahead` still
to pop. -/
structure Untags (ahead : List (Job Unit × InferenceResult)) (m : Mem ι κ) (n : Mem ι Unit) :
    Prop where
  stop : n.stop = m.stop
  queue : n.queue = m.queue.untag
  results : m.results.map untagResult = ahead ++ n.results
  allocator : n.allocator = m.allocator
  ended : n.ended = m.ended
  joinable : n.joinable = m.joinable

theorem Untags.init (setup : Setup ι) (allocator : ι → Allocator) :
    Untags [] (.init setup allocator : Mem ι κ) (.init setup allocator) :=
  ⟨rfl, rfl, rfl, rfl, rfl, rfl⟩

section
variable [DecidableEq ι] {setup : Setup ι} {i : ι} {ahead : List (Job Unit × InferenceResult)}
  {m : Mem ι κ} {n : Mem ι Unit} {c : Choice} {p : Pc ι κ} {o : Outcome ι Unit}

/-- A step of a worker. -/
theorem Untags.run (h : Untags ahead m n) (hp : p.working = true)
    (ho : run setup i n c p.untag = some o) : ∃ o' : Outcome ι κ,
      run setup i m c p = some o' ∧ o'.pc.untag = o.pc ∧ Untags ahead o'.mem o.mem := by
  obtain ⟨hstop, hqueue, hresults, halloc, hended, hjoin⟩ := h
  obtain ⟨stop, queue, results, allocator, ended, joinable⟩ := n
  simp only at hstop hqueue hresults halloc hended hjoin
  subst hstop hqueue halloc hended hjoin
  cases p <;> simp only [Pc.working, Bool.false_eq_true] at hp <;>
    simp only [Pc.untag, ThreadPool.run] at ho ⊢
  case loopTest =>
    cases ho
    refine ⟨_, rfl, ?_, ⟨rfl, rfl, hresults, rfl, rfl, rfl⟩⟩
    cases m.stop <;> rfl
  case popBatch batch =>
    cases c <;> simp only [popBatch, reduceCtorEq, List.length_map] at ho ⊢
    case none =>
      rw [TaskQueue.mayEnd_untag] at ho
      split at ho <;> rename_i hend <;> cases ho
      rw [if_pos hend]
      refine ⟨_, rfl, ?_, ⟨rfl, rfl, hresults, rfl, rfl, rfl⟩⟩
      cases batch <;> rfl
    case take =>
      split at ho <;> rename_i hlt <;> try cases ho
      rw [if_pos hlt]
      rw [TaskQueue.take_untag] at ho
      cases htake : m.queue.take with
      | none =>
        rw [htake] at ho
        cases ho
      | some x =>
        rw [htake] at ho
        cases ho
        exact ⟨_, rfl, rfl, ⟨rfl, rfl, hresults, rfl, rfl, rfl⟩⟩
  case popRelease ticket job batch =>
    cases ho
    refine ⟨_, rfl, ?_, ⟨rfl, rfl, hresults, rfl, rfl, rfl⟩⟩
    simp
  case forEach batch =>
    cases batch with
    | nil =>
      cases ho
      exact ⟨_, rfl, rfl, ⟨rfl, rfl, hresults, rfl, rfl, rfl⟩⟩
    | cons job batch =>
      cases c <;> simp only [List.map_cons, forEach, reduceCtorEq] at ho ⊢
      cases ho
      exact ⟨_, rfl, rfl, ⟨rfl, rfl, hresults, rfl, rfl, rfl⟩⟩
  case engineRun job task batch =>
    cases c <;> simp only [engineRun, reduceCtorEq] at ho ⊢
    split at ho <;> cases ho
    exact ⟨_, rfl, rfl, ⟨rfl, rfl, hresults, rfl, rfl, rfl⟩⟩
  case pushResult job result batch =>
    cases ho
    refine ⟨_, rfl, rfl, ⟨rfl, rfl, ?_, rfl, rfl, rfl⟩⟩
    simp [hresults, untagResult]
  all_goals
    cases ho
    exact ⟨_, rfl, rfl, ⟨rfl, rfl, hresults, rfl, rfl, rfl⟩⟩

end

/-- A task is pushed. -/
theorem Untags.push {ahead : List (Job Unit × InferenceResult)} {m : Mem ι κ} {n : Mem ι Unit}
    (h : Untags ahead m n) (setup : Setup ι) (job : Job κ) :
    (push setup n job.untag).ret = some (.pushed (m.queue.push setup.kind job).1) ∧
      Untags ahead (push setup m job).mem (push setup n job.untag).mem := by
  obtain ⟨hstop, hqueue, hresults, halloc, hended, hjoin⟩ := h
  simp only [ThreadPool.push, hqueue, TaskQueue.push_untag]
  exact ⟨trivial, hstop, rfl, hresults, halloc, hended, hjoin⟩

end ThreadPool
end Lumen.Concurrency
