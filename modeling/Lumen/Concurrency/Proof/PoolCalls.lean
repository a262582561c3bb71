import Lumen.Concurrency.PoolSystem
import Lumen.Concurrency.Proof.PoolInv

/-!
# Who calls the queues of the pool

For the pool over any two queues, used as `main` uses it: only the worker threads take tasks and
push results, and only the main thread pushes tasks, which it does before it stops the pool.
-/

set_option autoImplicit false

namespace Lumen.Concurrency.ThreadPool

open Lumen.Lib Lumen.Lib.Shared Lumen.Core

section
variable {ι : Type*}

/-- The thread is in `task_queue->push`. -/
def Pc.pushing : Pc ι Unit → Bool
  | .push _ => true
  | _ => false

/-- The thread closes the task queue. -/
def Pc.closing : Pc ι Unit → Bool
  | .stopQueue => true
  | _ => false

/-- The thread sets `stop`. -/
def Pc.storing : Pc ι Unit → Bool
  | .stopStore => true
  | _ => false

variable {setup : Setup ι} {m : Mem ι Unit} {p : Pc ι Unit}

/-- An answer of a queue leaves the fields of the pool alone. -/
theorem resume_mem (r : ITaskQueue.Ret ⊕ ResultQueue.Ret) : (resume setup m p r).mem = m := by
  unfold resume
  split <;> rfl

/-- A thread stays in the operation it performs when its queue answers. -/
theorem resume_class (r : ITaskQueue.Ret ⊕ ResultQueue.Ret) :
    ((resume setup m p r).pc.working = true → p.working = true) ∧
      ((resume setup m p r).pc.stopping = true → p.stopping = true) ∧
      ((resume setup m p r).pc.pushing = true → p.pushing = true) ∧
      ((resume setup m p r).pc.closing = true → p.closing = true) := by
  unfold resume
  split <;> try (simp [Pc.working, Pc.stopping, Pc.pushing, Pc.closing]; done)
  split <;> simp [Pc.working, Pc.stopping, Pc.pushing, Pc.closing]

variable [DecidableEq ι]

/-- `stop` is set by `shutdown`, which closes the task queue after it. -/
theorem run_gate {i : ι} {c : Choice} {o : Outcome ι Unit} (ho : run setup i m c p = some o) :
    o.pc.pushing = false ∧ (o.pc.closing = true → o.mem.stop = true) ∧
      (m.stop = true → o.mem.stop = true) ∧ (o.mem.stop = m.stop ∨ p.storing = true) := by
  cases p <;> simp only [run, push, popImmediate, popBatch, forEach, engineRun, stopJoin] at ho
  all_goals
    (repeat' split at ho) <;> cases ho <;> simp [Pc.pushing, Pc.closing, Pc.storing]

/-! ## The invariant -/

structure Callers {μ' π' : Type*} (setup : Setup ι) (mn : ι)
    (s : Shared.State ι (Mem ι Unit × μ') (Impl.Site (Pc ι Unit) π')) : Prop where
  worker : ∀ i, (site (s.pc i)).working = true → i ∈ setup.workers
  stopper : ∀ i, (site (s.pc i)).stopping = true → i = mn
  pushing : ∀ i, (site (s.pc i)).pushing = true → i = mn ∧ s.mem.1.stop = false
  closing : ∀ i, (site (s.pc i)).closing = true → s.mem.1.stop = true

variable {μ' π' χ' ε' : Type*}
  {O : Impl ι μ' π' χ' (ITaskQueue.Op ⊕ ResultQueue.Op) (ITaskQueue.Ret ⊕ ResultQueue.Ret) ε'}
  {allocator : ι → Allocator} {mn i : ι}
  {s : Shared.State ι (Mem ι Unit × μ') (Impl.Site (Pc ι Unit) π')}

omit [DecidableEq ι] in
theorem stopping_of_storing (h : p.storing = true) : p.stopping = true := by
  cases p <;> first | rfl | cases h

/-- A step of `i` after which it is at `x`. -/
theorem Callers.moved (hc : Callers setup mn s) {m : Mem ι Unit × μ'}
    {x : Impl.Site (Pc ι Unit) π'}
    (hwork : (site x).working = true → (site (s.pc i)).working = true)
    (hstop : (site x).stopping = true → (site (s.pc i)).stopping = true)
    (hpush : (site x).pushing = true → (site (s.pc i)).pushing = true)
    (hclose : (site x).closing = true → m.1.stop = true)
    (hmono : s.mem.1.stop = true → m.1.stop = true)
    (hgate : m.1.stop = s.mem.1.stop ∨
      ((site (s.pc i)).storing = true ∧ (site x).pushing = false)) :
    Callers setup mn (s.moved i m x) where
  worker := forall_update (P := fun j (y : Impl.Site (Pc ι Unit) π') =>
    (site y).working = true → j ∈ setup.workers) (fun h => hc.worker i (hwork h))
    fun j _ => hc.worker j
  stopper := forall_update (P := fun j (y : Impl.Site (Pc ι Unit) π') =>
    (site y).stopping = true → j = mn) (fun h => hc.stopper i (hstop h)) fun j _ => hc.stopper j
  pushing := by
    refine forall_update (P := fun j (y : Impl.Site (Pc ι Unit) π') =>
      (site y).pushing = true → j = mn ∧ m.1.stop = false) (fun h => ?_) fun j hj h => ?_
    · obtain ⟨hi, hs⟩ := hc.pushing i (hpush h)
      refine ⟨hi, ?_⟩
      rcases hgate with he | ⟨-, hp⟩
      · rw [he, hs]
      · rw [h] at hp
        cases hp
    · obtain ⟨hjm, hs⟩ := hc.pushing j h
      refine ⟨hjm, ?_⟩
      rcases hgate with he | ⟨hst, -⟩
      · rw [he, hs]
      · exact absurd (hjm.trans (hc.stopper i (stopping_of_storing hst)).symm) hj
  closing := forall_update (P := fun _ (y : Impl.Site (Pc ι Unit) π') =>
    (site y).closing = true → m.1.stop = true) hclose fun j _ h => hmono (hc.closing j h)

theorem callers [DecidableEq π'] {h : List (Shared.Event ι (Op Unit) Ret (Obs Unit))}
    (hr : ((impl Unit setup allocator).atop (queues setup allocator) O).lts.ReachIf
      (fun _ => Use setup mn) h s) : Callers setup mn s := by
  refine hr.inv (I := fun _ s => Callers setup mn s) (fun s h0 => ?_)
    fun h s l es s' hc hl hs => ?_
  · obtain rfl := h0
    exact ⟨fun i hi => (by cases hi), fun i hi => (by cases hi), fun i hi => (by cases hi),
      fun i hi => (by cases hi)⟩
  obtain ⟨i, op | c⟩ := l
  · obtain ⟨hpc, -, rfl⟩ := Impl.step_call.1 hs
    refine ⟨forall_update (P := fun j (y : Impl.Site (Pc ι Unit) π') =>
      (site y).working = true → j ∈ setup.workers) (fun h => ?_) fun j _ => hc.worker j,
      forall_update (P := fun j (y : Impl.Site (Pc ι Unit) π') =>
      (site y).stopping = true → j = mn) (fun h => ?_) fun j _ => hc.stopper j,
      forall_update (P := fun j (y : Impl.Site (Pc ι Unit) π') =>
      (site y).pushing = true → j = mn ∧ s.mem.1.stop = false) (fun h => ?_) fun j _ =>
        hc.pushing j,
      forall_update (P := fun j (y : Impl.Site (Pc ι Unit) π') =>
      (site y).closing = true → s.mem.1.stop = true) (fun h => ?_) fun j _ => hc.closing j⟩
    · cases op <;> first | exact hl.1 | cases h
    · cases op <;> first | exact hl | cases h
    · cases op <;> first | exact hl | cases h
    · cases op <;> cases h
  · obtain ⟨o, ho, -, rfl⟩ := Impl.step_run.1 hs
    cases hpc : s.pc i with
    | own p =>
      have hsite : site (s.pc i) = p := by rw [hpc]; rfl
      rw [hpc] at ho
      cases hinv : (queues setup allocator).invoke p with
      | some op =>
        obtain ⟨rfl, rfl⟩ := (Impl.atop_call hinv).1 ho
        refine hc.moved (by rw [hsite]; exact id) (by rw [hsite]; exact id)
          (by rw [hsite]; exact id) (fun h => ?_) id (.inl rfl)
        exact hc.closing i (by rw [hsite]; exact h)
      | none =>
        obtain ⟨c, o, rfl, ho', rfl⟩ := (Impl.atop_own hinv).1 ho
        obtain ⟨hwork, hstop, -⟩ := run_class ho'
        obtain ⟨hpush, hclose, hmono, hgate⟩ := run_gate ho'
        refine hc.moved (by rw [hsite]; exact hwork) (by rw [hsite]; exact hstop) (fun h => ?_)
          hclose hmono ?_
        · exact absurd (hpush.symm.trans h) (by simp)
        · rw [hsite]
          exact hgate.imp_right fun h => ⟨h, hpush⟩
    | inside p q =>
      have hsite : site (s.pc i) = p := by rw [hpc]; rfl
      rw [hpc] at ho
      obtain ⟨c, o, rfl, -, rfl⟩ := Impl.atop_inside.1 ho
      cases hret : o.ret with
      | none =>
        rw [Impl.calleeOutcome_none hret]
        refine hc.moved (by rw [hsite]; exact id) (by rw [hsite]; exact id)
          (by rw [hsite]; exact id) (fun h => ?_) id (.inl rfl)
        exact hc.closing i (by rw [hsite]; exact h)
      | some r =>
        rw [Impl.calleeOutcome_some hret]
        obtain ⟨h1, h2, h3, h4⟩ := resume_class (m := s.mem.1) (p := p) r
        have hmem : (resume setup s.mem.1 p r).mem = s.mem.1 := resume_mem r
        refine hc.moved (by rw [hsite]; exact h1) (by rw [hsite]; exact h2)
          (by rw [hsite]; exact h3) (fun h => ?_) (fun h => ?_) (.inl ?_)
        · exact (congrArg Mem.stop hmem).trans (hc.closing i (by rw [hsite]; exact h4 h))
        · exact (congrArg Mem.stop hmem).trans h
        · exact congrArg Mem.stop hmem

end
end Lumen.Concurrency.ThreadPool
