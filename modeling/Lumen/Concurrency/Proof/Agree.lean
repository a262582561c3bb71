import Lumen.Concurrency.Proof.MPMCSeq
import Lumen.Concurrency.Proof.NaiveSeq
import Lumen.Concurrency.Proof.SPSCSeq

/-!
# The three task queues agree when used sequentially

Each queue returns what its list returns (`sequential`), and where a sequence fits into all three
(`Fits`) the lists return the same (`results_eq`).
-/

set_option autoImplicit false

namespace Lumen.Concurrency

open Lumen.Lib Lumen.Lib.Shared Lumen.Core ITaskQueue

variable {q : Fifo} {op : Op} {ops : List Op} {cap : Option Nat} {n : Nat}

namespace Fifo

theorem pushed_le_apply (cap : Option Nat) (q : Fifo) (op : Op) :
    q.pushed ≤ (q.apply cap op).2.pushed := by
  cases op <;> simp only [apply]
  case push => split <;> simp
  all_goals exact Nat.le_refl _

theorem pushed_le_after (cap : Option Nat) (q : Fifo) (ops : List Op) :
    q.pushed ≤ (Spec.after (apply cap) q ops).pushed := by
  induction ops generalizing q with
  | nil => exact Nat.le_refl _
  | cons op ops ih => exact Nat.le_trans (pushed_le_apply cap q op) (ih _)

/-- The operation leaves at most 1023 tasks stored, pops nothing from an empty queue and does not
shut the queue down. -/
structure Fits (q : Fifo) (op : Op) : Prop where
  le : (q.apply none op).2.tasks.length ≤ 1023
  pop : op = .pop ∨ (∃ max, op = .popBatch max) → q.tasks ≠ []
  not_shutdown : op ≠ .shutdown

/-- A bound that is not met makes no difference. -/
theorem Fits.apply_eq (h : q.Fits op) (hs : q.stopped = false) (hn : 1023 ≤ n) :
    q.apply (some n) op = q.apply none op := by
  cases op with
  | push task =>
    have hle := h.le
    rw [apply_push hs not_full_none] at hle ⊢
    refine apply_push hs ?_
    rw [full_some]
    simp only [List.length_append, List.length_singleton] at hle
    omega
  | _ => rfl

theorem Fits.stopped (h : q.Fits op) (hs : q.stopped = false) :
    (q.apply none op).2.stopped = false := by
  cases op with
  | push task => rw [apply_push hs not_full_none]; exact hs
  | shutdown => exact absurd rfl h.not_shutdown
  | _ => exact hs

theorem results_eq (h : Allowed (apply none) Fits q ops) (hs : q.stopped = false) (hn : 1023 ≤ n) :
    Spec.results (apply (some n)) q ops = Spec.results (apply none) q ops ∧
      Spec.after (apply (some n)) q ops = Spec.after (apply none) q ops := by
  induction ops generalizing q with
  | nil => exact ⟨rfl, rfl⟩
  | cons op ops ih =>
    have heq := h.1.apply_eq hs hn
    obtain ⟨h1, h2⟩ := ih h.2 (h.1.stopped hs)
    simp only [Spec.results, Spec.after, heq, h1, h2, and_self]

end Fifo

theorem MPMCTaskQueue.allowed
    (hb : (Spec.after (Fifo.apply (some 1024)) q ops).pushed < 2 ^ 64) :
    Allowed (Fifo.apply (some 1024)) MPMCTaskQueue.Ok q ops := by
  induction ops generalizing q with
  | nil => trivial
  | cons op ops ih =>
    exact ⟨fun _ => Nat.lt_of_le_of_lt (Fifo.pushed_le_after _ _ (op :: ops)) hb, ih hb⟩

theorem SPSCTaskQueue.allowed :
    Allowed (Fifo.apply (some 1023)) (fun _ _ => True) q ops := by
  induction ops generalizing q with
  | nil => trivial
  | cons op ops ih => exact ⟨trivial, ih⟩

theorem NaiveTaskQueue.allowed (h : Allowed (Fifo.apply none) Fifo.Fits q ops)
    (hs : q.stopped = false) : Allowed (Fifo.apply none) NaiveTaskQueue.Ok q ops := by
  induction ops generalizing q with
  | nil => trivial
  | cons op ops ih =>
    refine ⟨?_, ih h.2 (h.1.stopped hs)⟩
    cases op with
    | push task => exact hs
    | pop => exact .inl (h.1.pop (.inl rfl))
    | popBatch max => exact .inl (h.1.pop (.inr ⟨max, rfl⟩))
    | _ => trivial

/-- **The hot-swappable queues**, called one operation at a time: `MPMCTaskQueue` returns what a
list of capacity `1024` returns while its counters stay below `2 ^ 64`, `SPSCTaskQueue` what one of
capacity `1023` returns, `NaiveTaskQueue` what an unbounded list returns where it need not wait; and
where nothing more than 1023 tasks are stored and nothing is popped from an empty queue, the three
return the same. No call relies on a spurious failure or wakeup: each comes to its return when there
is none. -/
theorem sequential (ι : Type*) [DecidableEq ι] (ops : List Op) :
    ((Spec.after (Fifo.apply (some 1024)) {} ops).pushed < 2 ^ 64 →
      Returns (MPMCTaskQueue.impl ι) false ops (Spec.results (Fifo.apply (some 1024)) {} ops)) ∧
    Returns (SPSCTaskQueue.impl ι) () ops (Spec.results (Fifo.apply (some 1023)) {} ops) ∧
    (Allowed (Fifo.apply none) NaiveTaskQueue.Ok {} ops →
      Returns (NaiveTaskQueue.impl ι) none ops (Spec.results (Fifo.apply none) {} ops)) ∧
    (Allowed (Fifo.apply none) Fifo.Fits {} ops →
      (Spec.after (Fifo.apply none) {} ops).pushed < 2 ^ 64 →
      Returns (MPMCTaskQueue.impl ι) false ops (Spec.results (Fifo.apply none) {} ops) ∧
        Returns (SPSCTaskQueue.impl ι) () ops (Spec.results (Fifo.apply none) {} ops) ∧
        Returns (NaiveTaskQueue.impl ι) none ops (Spec.results (Fifo.apply none) {} ops)) := by
  have hm (hb : (Spec.after (Fifo.apply (some 1024)) {} ops).pushed < 2 ^ 64) :
      Returns (MPMCTaskQueue.impl ι) false ops (Spec.results (Fifo.apply (some 1024)) {} ops) :=
    MPMCTaskQueue.implements.returns MPMCTaskQueue.Rep.init (MPMCTaskQueue.allowed hb)
  have hs : Returns (SPSCTaskQueue.impl ι) () ops (Spec.results (Fifo.apply (some 1023)) {} ops) :=
    SPSCTaskQueue.implements.returns SPSCTaskQueue.Rep.init SPSCTaskQueue.allowed
  have hn (ha : Allowed (Fifo.apply none) NaiveTaskQueue.Ok {} ops) :
      Returns (NaiveTaskQueue.impl ι) none ops (Spec.results (Fifo.apply none) {} ops) :=
    NaiveTaskQueue.implements_fifo.returns NaiveTaskQueue.Rep.init ha
  refine ⟨hm, hs, hn, fun hf hb => ⟨?_, ?_, hn (NaiveTaskQueue.allowed hf rfl)⟩⟩
  · obtain ⟨h1, h2⟩ := Fifo.results_eq (n := 1024) hf rfl (by decide)
    rw [← h1]
    exact hm (by rwa [h2])
  · rw [← (Fifo.results_eq (n := 1023) hf rfl (by decide)).1]
    exact hs

/-- Both are pushed, one is popped, the other one is the batch that follows. -/
def twoTasks : List Op := [.push (client 4), .push (client 5), .size, .pop, .popBatch 8, .empty]

theorem sequential_twoTasks :
    Returns (MPMCTaskQueue.impl (Fin 2)) false twoTasks [.bool true, .bool true, .size 2,
      .task (some (client 4)), .batch [client 5], .bool true] ∧
    Returns (SPSCTaskQueue.impl (Fin 2)) () twoTasks [.bool true, .bool true, .size 2,
      .task (some (client 4)), .batch [client 5], .bool true] ∧
    Returns (NaiveTaskQueue.impl (Fin 2)) none twoTasks [.bool true, .bool true, .size 2,
      .task (some (client 4)), .batch [client 5], .bool true] := by
  refine (sequential (Fin 2) twoTasks).2.2.2 ?_ (by decide)
  refine ⟨⟨by decide, by simp, nofun⟩, ⟨by decide, by simp, nofun⟩, ⟨by decide, by simp, nofun⟩,
    ⟨by decide, fun _ => by decide, nofun⟩, ⟨by decide, fun _ => by decide, nofun⟩,
    ⟨by decide, by simp, nofun⟩, trivial⟩

end Lumen.Concurrency
