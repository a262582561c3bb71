import Lumen.Concurrency.ITaskQueue

/-!
# `pop` alone and in the loop of `pop_batch`

A lone call of `op` begins at the value `q`. `ctx.At q op q1` says how far its pops have come: the
batch taken so far and the value `q1` that is left make up `q`.
-/

set_option autoImplicit false

namespace Lumen.Concurrency

open Lumen.Core ITaskQueue

def Fifo.Taken (q : Fifo) (batch : List InferenceTask) (q1 : Fifo) : Prop :=
  q = { q1 with tasks := batch ++ q1.tasks }

def ITaskQueue.PopCtx.At (q : Fifo) (op : Op) (q1 : Fifo) : PopCtx → Prop
  | .pop => op = .pop ∧ q1 = q
  | .batch taken max => op = .popBatch max ∧ q.Taken taken q1 ∧ taken.length ≤ max

/-- The batch is not yet as long as asked for. -/
def ITaskQueue.PopCtx.More : PopCtx → Prop
  | .pop => True
  | .batch taken max => taken.length < max

/-- Eight accesses for each pop that the loop of `pop_batch` may still make. -/
def popRank : PopCtx → Nat
  | .pop => 0
  | .batch batch max => 8 * (max - batch.length)

variable {q q1 : Fifo} {op : Op} {ctx : PopCtx} {cap : Option Nat} {batch rest : List InferenceTask}
  {task : InferenceTask} {max : Nat}

namespace Fifo

theorem Taken.refl (q : Fifo) : q.Taken [] q := rfl

theorem Taken.next (h : q.Taken batch q1) (hq : q1.tasks = task :: rest) :
    q.Taken (batch ++ [task]) { q1 with tasks := rest } := by
  unfold Taken at h ⊢
  rw [h, hq, List.append_assoc]
  rfl

/-- A batch is complete when it is as long as asked for or nothing is left. -/
theorem Taken.apply_popBatch (h : q.Taken batch q1)
    (hm : batch.length = max ∨ (batch.length ≤ max ∧ q1.tasks = [])) :
    Fifo.apply cap q (.popBatch max) = (.batch batch, q1) := by
  unfold Taken at h
  subst h
  simp only [Fifo.apply]
  rcases hm with rfl | ⟨hle, he⟩
  · rw [List.take_left, List.drop_left]
  · rw [he, List.append_nil, List.take_of_length_le hle, List.drop_eq_nil_of_le hle]
    simp only [Prod.mk.injEq, true_and]
    rw [← he]

theorem apply_pop (hq : q.tasks = task :: rest) :
    Fifo.apply cap q .pop = (.task (some task), { q with tasks := rest }) := by
  simp [Fifo.apply, hq]

end Fifo

namespace ITaskQueue.PopCtx

/-- A pop that finds nothing ends the call. -/
theorem At.apply_none (cap : Option Nat) (h : ctx.At q op q1) (he : q1.tasks = []) :
    Fifo.apply cap q op = (ctx.none, q1) := by
  cases ctx with
  | pop =>
    obtain ⟨rfl, rfl⟩ := h
    simp only [Fifo.apply, he, List.head?_nil, List.tail_nil, PopCtx.none, Prod.mk.injEq, true_and]
    rw [← he]
  | batch taken max =>
    obtain ⟨rfl, ht, hle⟩ := h
    exact ht.apply_popBatch (.inr ⟨hle, he⟩)

end ITaskQueue.PopCtx
end Lumen.Concurrency
