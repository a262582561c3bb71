import Lumen.Concurrency.Callers
import Lumen.Concurrency.MPMCTaskQueue
import Lumen.Concurrency.SPSCTaskQueue

/-!
# A push that is refused

On the side of the queue nothing happens: until it commits to a slot a push only loads, and a push
that has committed returns `true` (`Refusing`). On the side of the caller the object is gone, for
the move was made before the queue was asked (`refused_keeps`).
-/

set_option autoImplicit false

namespace Lumen.Concurrency

open Lumen.Lib Lumen.Lib.Shared Lumen.Core ITaskQueue

section
variable {ι μ π χ ε : Type*} [DecidableEq ι] [DecidableEq π] (M : Impl ι μ π χ Op Ret ε)

/-- An access of `i` leaves the memory as it is. -/
def Untouched (i : ι) (_ : List (Event ι ε)) (s : Callers.State ι μ π) (l : Callers.Label ι χ) :
    Prop :=
  ∀ c es s', l = .queue (i, .run c) → Callers.step M s l = some (es, s') →
    s'.queue.mem = s.queue.mem

/-- The label is not a call of `i`, and `i` does not make a new object. -/
def Foreign (i : ι) : Callers.Label ι χ → Prop
  | .make j _ | .queue (j, .call _) => j ≠ i
  | .queue (_, .run _) => True

/-- In some run thread `i` calls `push` with its object, which is `task`; the call leads to `s0`,
and then the run `ls`, in which `i` calls nothing else, to `s`; the push returns `false`. -/
def Refused (i : ι) (task : InferenceTask) (s0 : Callers.State ι μ π)
    (ls : List (Callers.Label ι χ)) (s : Callers.State ι μ π) : Prop :=
  ∃ h s1 es k, (Callers.lts M).Reach h s1 ∧
    Callers.step M s1 (.queue (i, .call (.push task))) = some (es, s0) ∧
    (∀ l ∈ ls, Foreign i l) ∧ (Callers.lts M).exec s0 ls = some (k, s) ∧ .ret i (.bool false) ∈ k

/-- The call has left everything as it was: no access of it has touched the memory, the object is
what it was, and a push of it is a push of `task`. -/
structure Kept (i : ι) (task : InferenceTask) (s0 : Callers.State ι μ π)
    (ls : List (Callers.Label ι χ)) (s : Callers.State ι μ π) : Prop where
  untouched : (Callers.lts M).Along (Untouched M i) [] s0 ls
  object : s.object i = task
  retry : ∀ task' es s', Callers.step M s (.queue (i, .call (.push task'))) = some (es, s') →
    task' = task

/-- The accesses of a push: at `undecided` points they only load, and the push returns or goes on,
or commits itself; at `committed` points it goes on or returns `true`. -/
structure Refusing (undecided committed : π → Prop) : Prop where
  entry : ∀ task, undecided (M.entry (.push task))
  idle : ∀ i m c, M.run i m c M.idle = none
  undecided : ∀ i m c p o, undecided p → M.run i m c p = some o →
    (o.mem = m ∧ ((o.ret = none ∧ undecided o.pc) ∨ o.pc = M.idle)) ∨
      (o.ret = none ∧ committed o.pc)
  committed : ∀ i m c p o, committed p → M.run i m c p = some o →
    (o.ret = none ∧ committed o.pc) ∨ (o.ret = some (.bool true) ∧ o.pc = M.idle)

end

section
variable {ι μ π χ ε : Type*} [DecidableEq ι] [DecidableEq π] {M : Impl ι μ π χ Op Ret ε}
  {i : ι} {s s' : Callers.State ι μ π} {l : Callers.Label ι χ} {ls : List (Callers.Label ι χ)}
  {es k : List (Event ι ε)}

/-- What such a label does to thread `i`: nothing, or it is its next access. -/
theorem step_foreign (hf : Foreign i l) (hs : Callers.step M s l = some (es, s')) :
    s'.object i = s.object i ∧
      ((s'.queue.pc i = s.queue.pc i ∧ (∀ r, .ret i r ∉ es) ∧ ∀ c, l ≠ .queue (i, .run c)) ∨
        ∃ c o, l = .queue (i, .run c) ∧ M.run i s.queue.mem c (s.queue.pc i) = some o ∧
          es = o.events i ∧ s'.queue = ⟨o.mem, Function.update s.queue.pc i o.pc⟩) := by
  rcases l with ⟨j, task⟩ | ⟨j, op | c⟩
  · have hj : i ≠ j := Ne.symm hf
    simp only [Callers.step] at hs
    split at hs <;> cases hs
    refine ⟨Function.update_of_ne hj _ _, .inl ⟨rfl, fun r => List.not_mem_nil, ?_⟩⟩
    intro c h
    cases h
  · have hj : i ≠ j := Ne.symm hf
    have hcall : ∀ {q}, M.step s.queue (j, .call op) = some (es, q) →
        q.pc i = s.queue.pc i ∧ (∀ r, .ret i r ∉ es) ∧
          ∀ c, (.queue (j, .call op) : Callers.Label ι χ) ≠ .queue (i, .run c) := by
      intro q hq
      obtain ⟨-, rfl, rfl⟩ := Impl.step_call.1 hq
      exact ⟨Function.update_of_ne hj _ _, fun r => by simp, fun c => by simp⟩
    cases op with
    | push task =>
      simp only [Callers.step] at hs
      split at hs
      · obtain ⟨⟨es', q⟩, hq, heq⟩ := Option.map_eq_some_iff.1 hs
        cases heq
        exact ⟨Function.update_of_ne hj _ _, .inl (hcall hq)⟩
      · cases hs
    | _ =>
      obtain ⟨⟨es', q⟩, hq, heq⟩ := Option.map_eq_some_iff.1 hs
      cases heq
      exact ⟨rfl, .inl (hcall hq)⟩
  · obtain ⟨⟨es', q⟩, hq, heq⟩ := Option.map_eq_some_iff.1 hs
    cases heq
    obtain ⟨o, ho, rfl, rfl⟩ := Impl.step_run.1 hq
    refine ⟨rfl, ?_⟩
    by_cases hj : i = j
    · subst hj
      exact .inr ⟨c, o, rfl, ho, rfl, rfl⟩
    · refine .inl ⟨Function.update_of_ne hj _ _, ?_, ?_⟩
      · intro r hmem
        exact hj (Outcome.ret_mem.1 hmem).1
      · intro c' h
        cases h
        exact hj rfl

theorem exec_object (hf : ∀ l ∈ ls, Foreign i l)
    (he : (Callers.lts M).exec s ls = some (k, s')) : s'.object i = s.object i := by
  induction ls generalizing s k with
  | nil =>
    cases he
    rfl
  | cons l ls ih =>
    obtain ⟨es, s1, k', hs, he', -⟩ := Lts.exec_cons.1 he
    rw [List.forall_mem_cons] at hf
    exact (ih hf.2 he').trans (step_foreign hf.1 hs).1

variable {undecided committed : π → Prop} (hM : Refusing M undecided committed)
include hM

/-- A thread that is back from its call does nothing. -/
theorem exec_idle (hf : ∀ l ∈ ls, Foreign i l) (hi : s.queue.pc i = M.idle)
    (he : (Callers.lts M).exec s ls = some (k, s')) (h : List (Event ι ε)) :
    (Callers.lts M).Along (Untouched M i) h s ls ∧ ∀ r, .ret i r ∉ k := by
  induction ls generalizing s k h with
  | nil =>
    cases he
    exact ⟨trivial, fun r => List.not_mem_nil⟩
  | cons l ls ih =>
    obtain ⟨es, s1, k', hs, he', rfl⟩ := Lts.exec_cons.1 he
    rw [List.forall_mem_cons] at hf
    rcases (step_foreign hf.1 hs).2 with ⟨hpc, hret, hl⟩ | ⟨c, o, rfl, ho, -⟩
    · obtain ⟨h1, h2⟩ := ih hf.2 (hpc.trans hi) he' (h ++ es)
      refine ⟨⟨fun c es s' heq => absurd heq (hl c), ?_⟩, ?_⟩
      · rw [hs]
        exact h1
      · intro r hmem
        rcases List.mem_append.1 hmem with hmem | hmem
        · exact hret r hmem
        · exact h2 r hmem
    · rw [hi, hM.idle] at ho
      cases ho

/-- A push that has committed itself is not refused. -/
theorem exec_committed (hf : ∀ l ∈ ls, Foreign i l) (hi : committed (s.queue.pc i))
    (he : (Callers.lts M).exec s ls = some (k, s')) : .ret i (.bool false) ∉ k := by
  induction ls generalizing s k with
  | nil =>
    cases he
    exact List.not_mem_nil
  | cons l ls ih =>
    obtain ⟨es, s1, k', hs, he', rfl⟩ := Lts.exec_cons.1 he
    rw [List.forall_mem_cons] at hf
    rw [List.mem_append, not_or]
    rcases (step_foreign hf.1 hs).2 with ⟨hpc, hret, -⟩ | ⟨c, o, rfl, ho, rfl, hq⟩
    · exact ⟨hret _, ih hf.2 (hpc ▸ hi) he'⟩
    · have hpc : s1.queue.pc i = o.pc := by simp [hq]
      rcases hM.committed i _ c _ o hi ho with ⟨hr, hc⟩ | ⟨hr, hidle⟩
      · refine ⟨by simp [Outcome.ret_mem, hr], ih hf.2 (hpc ▸ hc) he'⟩
      · refine ⟨by simp [Outcome.ret_mem, hr], ?_⟩
        exact (exec_idle hM hf.2 (hpc.trans hidle) he' []).2 _

/-- The accesses of a push that is refused only load. -/
theorem exec_undecided (hf : ∀ l ∈ ls, Foreign i l) (hi : undecided (s.queue.pc i))
    (he : (Callers.lts M).exec s ls = some (k, s')) (hret : .ret i (.bool false) ∈ k)
    (h : List (Event ι ε)) : (Callers.lts M).Along (Untouched M i) h s ls := by
  induction ls generalizing s k h with
  | nil => trivial
  | cons l ls ih =>
    obtain ⟨es, s1, k', hs, he', rfl⟩ := Lts.exec_cons.1 he
    rw [List.forall_mem_cons] at hf
    have hstep : (Callers.lts M).step s l = some (es, s1) := hs
    rw [List.mem_append] at hret
    rcases (step_foreign hf.1 hs).2 with ⟨hpc, hnot, hl⟩ | ⟨c, o, rfl, ho, rfl, hq⟩
    · refine ⟨fun c es s' heq => absurd heq (hl c), ?_⟩
      rw [hstep]
      exact ih hf.2 (hpc ▸ hi) he' (hret.resolve_left (hnot _)) _
    · have hpc : s1.queue.pc i = o.pc := by simp [hq]
      rcases hM.undecided i _ c _ o hi ho with ⟨hmem, hnext⟩ | ⟨hr, hc⟩
      · refine ⟨?_, ?_⟩
        · intro c' es' s2 heq hs2
          cases hs.symm.trans hs2
          rw [hq, ← hmem]
        · rw [hstep]
          rcases hnext with ⟨hr, hu⟩ | hidle
          · refine ih hf.2 (hpc ▸ hu) he' (hret.resolve_left ?_) _
            simp [Outcome.ret_mem, hr]
          · exact (exec_idle hM hf.2 (hpc.trans hidle) he' _).1
      · refine absurd (hret.resolve_left ?_) (exec_committed hM hf.2 (hpc ▸ hc) he')
        simp [Outcome.ret_mem, hr]

/-- A push that is refused leaves everything as it was exactly if the task is hollow. -/
theorem Refusing.kept_iff {task : InferenceTask} (hr : Refused M i task s ls s') :
    Kept M i task s ls s' ↔ task.Hollow := by
  obtain ⟨h, s1, es, k, -, hcall, hf, he, hret⟩ := hr
  simp only [Callers.step] at hcall
  split at hcall
  · obtain ⟨⟨es', q⟩, hq, heq⟩ := Option.map_eq_some_iff.1 hcall
    cases heq
    obtain ⟨-, -, rfl⟩ := Impl.step_call.1 hq
    have hobject : s'.object i = task.movedFrom := by
      rw [exec_object hf he]
      exact Function.update_self _ _ _
    rw [← InferenceTask.movedFrom_eq]
    refine ⟨fun hkept => hobject.symm.trans hkept.object, fun heq => ⟨?_, hobject.trans heq, ?_⟩⟩
    · refine exec_undecided hM hf ?_ he hret []
      simpa using hM.entry task
    · intro task' es' s2 hs2
      simp only [Callers.step] at hs2
      split at hs2
      · rename_i hsame
        exact hsame.trans (hobject.trans heq)
      · cases hs2
  · cases hcall

end

/-! ## The bounded queues -/

theorem MPMCTaskQueue.refusing {ι : Type*} : Refusing (MPMCTaskQueue.impl ι)
    (fun
      | .pushStop _ | .pushTail _ | .pushSeq .. | .pushCas .. => True
      | _ => False)
    (fun
      | .pushData .. | .pushPublish _ => True
      | _ => False) where
  entry _ := trivial
  idle _ _ _ := rfl
  undecided i m c p o hp ho := by
    change MPMCTaskQueue.run m c p = some o at ho
    cases p <;> first | exact hp.elim | skip
    all_goals
      simp only [run] at ho
      (repeat' split at ho) <;> cases ho
    all_goals simp
  committed i m c p o hp ho := by
    change MPMCTaskQueue.run m c p = some o at ho
    cases p <;> first | exact hp.elim | skip
    all_goals
      cases ho
      simp

theorem SPSCTaskQueue.refusing {ι : Type*} : Refusing (SPSCTaskQueue.impl ι)
    (fun
      | .pushStop _ | .pushTail _ | .pushHead .. => True
      | _ => False)
    (fun
      | .pushWrite .. | .pushStore .. => True
      | _ => False) where
  entry _ := trivial
  idle _ _ _ := rfl
  undecided i m c p o hp ho := by
    change SPSCTaskQueue.run m p = some o at ho
    cases p <;> first | exact hp.elim | skip
    all_goals
      simp only [run] at ho
      (repeat' split at ho) <;> cases ho
    all_goals simp
  committed i m c p o hp ho := by
    change SPSCTaskQueue.run m p = some o at ho
    cases p <;> first | exact hp.elim | skip
    all_goals
      cases ho
      simp

/-- **A push that is refused** by a bounded queue, in any run of its callers, touches nothing in the
queue; but the caller's object is what it was, and can be pushed again, exactly if the task was
hollow. -/
theorem refused_keeps (ι : Type*) [DecidableEq ι] (i : ι) (task : InferenceTask) :
    (∀ s ls s', Refused (MPMCTaskQueue.impl ι) i task s ls s' →
      (Kept (MPMCTaskQueue.impl ι) i task s ls s' ↔ task.Hollow)) ∧
    ∀ s ls s', Refused (SPSCTaskQueue.impl ι) i task s ls s' →
      (Kept (SPSCTaskQueue.impl ι) i task s ls s' ↔ task.Hollow) :=
  ⟨fun _ _ _ => MPMCTaskQueue.refusing.kept_iff, fun _ _ _ => SPSCTaskQueue.refusing.kept_iff⟩

/-- Thread `0` shuts the queue down, makes its object and pushes it. -/
theorem exists_refused (task : InferenceTask) :
    (∃ s ls s', Refused (MPMCTaskQueue.impl (Fin 2)) 0 task s ls s') ∧
    ∃ s ls s', Refused (SPSCTaskQueue.impl (Fin 2)) 0 task s ls s' := by
  have hobject : task = Function.update (fun _ => InferenceTask.empty) (0 : Fin 2) task 0 := by simp
  constructor
  · have hr := (((Lts.Reach.init (T := Callers.lts (MPMCTaskQueue.impl (Fin 2))) rfl).step
      (l := .queue (0, .call .shutdown)) rfl).step (l := .queue (0, .run false)) rfl).step
      (l := .make 0 task) rfl
    refine ⟨_, [.queue (0, .run false)], _, _, _, _, _, hr, if_pos hobject, ?_, rfl,
      List.mem_append_left _ (List.mem_append_right _ List.mem_cons_self)⟩
    intro l hl
    obtain rfl := List.mem_singleton.1 hl
    trivial
  · have hr := (((Lts.Reach.init (T := Callers.lts (SPSCTaskQueue.impl (Fin 2))) rfl).step
      (l := .queue (0, .call .shutdown)) rfl).step (l := .queue (0, .run ())) rfl).step
      (l := .make 0 task) rfl
    refine ⟨_, [.queue (0, .run ())], _, _, _, _, _, hr, if_pos hobject, ?_, rfl,
      List.mem_append_left _ (List.mem_append_right _ List.mem_cons_self)⟩
    intro l hl
    obtain rfl := List.mem_singleton.1 hl
    trivial

/-- A task with a payload is refused, and lost. -/
theorem refused_payload : ∃ task s ls s', task.data = [7] ∧
    Refused (MPMCTaskQueue.impl (Fin 2)) 0 task s ls s' ∧
    ¬ Kept (MPMCTaskQueue.impl (Fin 2)) 0 task s ls s' := by
  obtain ⟨s, ls, s', hr⟩ := (exists_refused { InferenceTask.empty with data := [7] }).1
  refine ⟨_, s, ls, s', rfl, hr, ?_⟩
  intro hkept
  have hdata := ((MPMCTaskQueue.refusing.kept_iff hr).1 hkept).1
  cases hdata

/-- A task without payload, processors and trace is as before. -/
theorem refused_keeps_empty : ∃ s ls s', Refused (SPSCTaskQueue.impl (Fin 2)) 0 .empty s ls s' ∧
    Kept (SPSCTaskQueue.impl (Fin 2)) 0 .empty s ls s' := by
  obtain ⟨s, ls, s', hr⟩ := (exists_refused .empty).2
  exact ⟨s, ls, s', hr, ((refused_keeps (Fin 2) 0 .empty).2 s ls s' hr).2 ⟨rfl, rfl, rfl, rfl⟩⟩

end Lumen.Concurrency
