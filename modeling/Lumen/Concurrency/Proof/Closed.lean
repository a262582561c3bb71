import Lumen.Concurrency.Proof.Agree

/-!
# A task queue that has been shut down

What is asked of it (`Closed`): a push is refused, and the pops return what was left, in order, and
then nothing, without waiting. `MPMCTaskQueue` and `SPSCTaskQueue` do so; `NaiveTaskQueue` does in
the runs in which nothing is pushed to it any more (`closed_to_producers`), because its `push` does
not look at `stop`.
-/

set_option autoImplicit false

namespace Lumen.Concurrency

open Lumen.Lib Lumen.Lib.Shared Lumen.Core ITaskQueue

namespace ITaskQueue

/-- The calls that exchange tasks, and `shutdown`. -/
def Op.Exchanges : Op → Prop
  | .push _ | .pop | .shutdown => True
  | .popBatch max => 1 ≤ max
  | .size | .empty => False

/-- The tasks that a sequence of calls has put into the queue. -/
def accepted (tr : List (Op × Ret)) : List InferenceTask :=
  tr.flatMap fun
    | (.push task, .bool true) => [task]
    | _ => []

/-- The tasks that it has returned. -/
def popped (tr : List (Op × Ret)) : List InferenceTask :=
  tr.flatMap fun
    | (_, .task task) => task.toList
    | (_, .batch batch) => batch
    | _ => []

theorem accepted_cons (x : Op × Ret) (tr : List (Op × Ret)) :
    accepted (x :: tr) = accepted [x] ++ accepted tr := by
  rw [← List.singleton_append, accepted, List.flatMap_append]
  rfl

theorem popped_cons (x : Op × Ret) (tr : List (Op × Ret)) :
    popped (x :: tr) = popped [x] ++ popped tr := by
  rw [← List.singleton_append, popped, List.flatMap_append]
  rfl

/-- What is left in a closed queue goes out in order, and nothing comes in. -/
def drain : Spec (List InferenceTask) Op Ret
  | queued, .push _ => (.bool false, queued)
  | queued, .pop => (.task queued.head?, queued.tail)
  | queued, .popBatch max => (.batch (queued.take max), queued.drop max)
  | queued, .size => (.size queued.length, queued)
  | queued, .empty => (.bool (queued.length == 0), queued)
  | queued, .shutdown => (.unit, queued)

/-- After the calls `tr`, made one at a time, which have led to `s`: since each `shutdown` that has
returned the calls have drained the tasks accepted before it and not yet popped; if the last one is
a push after a `shutdown`, it has not touched the memory; and after a `shutdown` every call, of any
thread, finishes: nothing blocks it, and nothing has to wake it. -/
structure Closed {ι μ π χ ε : Type*} [DecidableEq ι] [DecidableEq π] (M : Impl ι μ π χ Op Ret ε)
    (c : χ) (tr : List (Op × Ret)) (s : Shared.State ι μ π) : Prop where
  drains : ∀ before after, tr = before ++ (.shutdown, .unit) :: after → ∃ queued left,
    accepted before = popped before ++ queued ∧ Spec.Legal drain queued after left
  refused : ∀ before task r s1, tr = before ++ [(.push task, r)] → SeqRun M M.init before s1 →
    Solo M s1 (.push task) r s → (.shutdown, .unit) ∈ before → s.mem = s1.mem
  finishes : (.shutdown, .unit) ∈ tr → ∀ i op, op.Exchanges → Finishes M c s i op

end ITaskQueue

/-! ## Sequences of results -/

section
variable {cap : Option Nat} {q q' : Fifo} {tr : List (Op × Ret)} {op : Op} {r : Ret}
  {task : InferenceTask}

namespace Fifo

theorem legal_stopped (h : Spec.Legal (apply cap) q tr q') :
    q'.stopped = true ↔ q.stopped = true ∨ (.shutdown, .unit) ∈ tr := by
  induction tr generalizing q with
  | nil =>
    obtain rfl : q = q' := h.2
    simp
  | cons x tr ih =>
    obtain ⟨op, r⟩ := x
    obtain ⟨rfl, hl⟩ := Spec.legal_cons.1 h
    rw [ih hl]
    cases op with
    | push task =>
      simp only [apply]
      split <;> simp
    | shutdown => simp [apply]
    | _ => simp [apply]

theorem apply_stopped (hs : q.stopped = true) (op : Op) : (q.apply cap op).2.stopped = true := by
  cases op with
  | push task =>
    rw [apply_push_stopped hs]
    exact hs
  | shutdown => rfl
  | _ => exact hs

/-- A closed list is drained. -/
theorem legal_drain (hs : q.stopped = true) (h : Spec.Legal (apply cap) q tr q') :
    Spec.Legal drain q.tasks tr q'.tasks := by
  induction tr generalizing q with
  | nil =>
    obtain rfl : q = q' := h.2
    exact Spec.legal_nil
  | cons x tr ih =>
    obtain ⟨op, r⟩ := x
    obtain ⟨rfl, hl⟩ := Spec.legal_cons.1 h
    have ih := ih (apply_stopped hs op) hl
    rw [Spec.legal_cons]
    cases op with
    | push task =>
      rw [apply_push_stopped hs] at ih ⊢
      exact ⟨rfl, ih⟩
    | _ => exact ⟨rfl, ih⟩

/-- One call: what comes out, and then what is left, is what was there and what came in. -/
theorem apply_tasks (cap : Option Nat) (q : Fifo) (op : Op) :
    q.tasks ++ accepted [(op, (q.apply cap op).1)] =
      popped [(op, (q.apply cap op).1)] ++ (q.apply cap op).2.tasks := by
  cases op with
  | push task =>
    simp only [apply]
    split <;> simp [accepted, popped]
  | pop =>
    cases htasks : q.tasks <;> simp [apply, accepted, popped, htasks]
  | popBatch max => simp [apply, accepted, popped, List.take_append_drop]
  | _ => simp [apply, accepted, popped]

theorem legal_tasks (h : Spec.Legal (apply cap) q tr q') :
    q.tasks ++ accepted tr = popped tr ++ q'.tasks := by
  induction tr generalizing q with
  | nil =>
    obtain rfl : q = q' := h.2
    simp [accepted, popped]
  | cons x tr ih =>
    obtain ⟨op, r⟩ := x
    obtain ⟨rfl, hl⟩ := Spec.legal_cons.1 h
    calc q.tasks ++ accepted ((op, (q.apply cap op).1) :: tr)
        = (q.tasks ++ accepted [(op, (q.apply cap op).1)]) ++ accepted tr := by
          rw [accepted_cons, List.append_assoc]
      _ = popped [(op, (q.apply cap op).1)] ++ ((q.apply cap op).2.tasks ++ accepted tr) := by
          rw [apply_tasks, List.append_assoc]
      _ = popped ((op, (q.apply cap op).1) :: tr) ++ q'.tasks := by
          rw [ih hl, popped_cons (op, (q.apply cap op).1) tr, List.append_assoc]

theorem legal_drains (h : Spec.Legal (apply cap) {} tr q') {before after : List (Op × Ret)}
    (htr : tr = before ++ (.shutdown, .unit) :: after) : ∃ queued left,
      accepted before = popped before ++ queued ∧ Spec.Legal drain queued after left := by
  subst htr
  obtain ⟨q1, h1, h2⟩ := Spec.legal_append.1 h
  obtain ⟨-, h2⟩ := Spec.legal_cons.1 h2
  refine ⟨q1.tasks, _, ?_, legal_drain (q := { q1 with stopped := true }) rfl h2⟩
  simpa using legal_tasks h1

end Fifo

end

/-! ## The queues -/

section
variable {ι μ π χ ε : Type*} [DecidableEq ι] [DecidableEq π] {M : Impl ι μ π χ Op Ret ε} {c : χ}
  {cap : Option Nat} {ok : Fifo → Op → Prop} {Rep : Fifo → μ → Prop}
  {tr : List (Op × Ret)} {s : Shared.State ι μ π}

theorem Closed.of_implements (hM : Implements M c (Fifo.apply cap) ok Rep) (h0 : Rep {} M.start)
    (hok : ∀ q op, op.Exchanges → ok q op)
    (hpush : ∀ {q s task r s'}, Rep q s.mem → q.stopped = true → Solo M s (.push task) r s' →
      s'.mem = s.mem)
    (htr : ∀ x ∈ tr, x.1.Exchanges) (hrun : SeqRun M M.init tr s) : Closed M c tr s := by
  have hlegal : ∀ {tr s}, (∀ x ∈ tr, x.1.Exchanges) → SeqRun M M.init tr s →
      ∃ q, Spec.Legal (Fifo.apply cap) {} tr q ∧ Rep q s.mem ∧ M.Quiescent s := by
    intro tr s htr hrun
    exact hM.legal_of (P := Op.Exchanges) (fun hP _ _ _ => hok _ _ hP) hrun h0 (fun _ => rfl) htr
  obtain ⟨q, hl, hR, hq⟩ := hlegal htr hrun
  refine ⟨fun before after heq => Fifo.legal_drains hl heq, ?_, ?_⟩
  · rintro before task r s1 rfl hrun1 hsolo hstop
    obtain ⟨q1, hl1, hR1, -⟩ := hlegal (fun x hx => htr x (List.mem_append_left _ hx)) hrun1
    exact hpush hR1 ((Fifo.legal_stopped hl1).2 (.inr hstop)) hsolo
  · intro _ i op hop
    exact hM.total hR hq (hok q op hop)

end

/-- Something is pushed after a `shutdown` has returned. -/
def PushedClosed (tr : List (Op × Ret)) : Prop :=
  ∃ before task r after, tr = before ++ (.push task, r) :: after ∧ (.shutdown, .unit) ∈ before

namespace NaiveTaskQueue

/-- Where nothing is pushed to it any more the list might as well be closed. -/
theorem legal_fifo {q q' : Fifo} {tr : List (Op × Ret)} (h : Spec.Legal apply q tr q')
    (hpush : ∀ before task r after, tr = before ++ (.push task, r) :: after →
      q.stopped = false ∧ (.shutdown, .unit) ∉ before) :
    Spec.Legal (Fifo.apply none) q tr q' := by
  induction tr generalizing q with
  | nil => exact h
  | cons x tr ih =>
    obtain ⟨op, r⟩ := x
    obtain ⟨rfl, hl⟩ := Spec.legal_cons.1 h
    have heq : apply q op = q.apply none op := by
      cases op with
      | push task =>
        exact (Fifo.apply_push (hpush [] task _ tr rfl).1 Fifo.not_full_none).symm
      | _ => rfl
    rw [heq] at hl hpush ⊢
    refine Spec.legal_cons.2 ⟨rfl, ih hl ?_⟩
    intro before task r after htr
    obtain ⟨hstop, hnot⟩ := hpush (_ :: before) task r after (by rw [htr, List.cons_append])
    rw [List.mem_cons, not_or] at hnot
    refine ⟨?_, hnot.2⟩
    cases op with
    | push task =>
      rw [Fifo.apply_push hstop Fifo.not_full_none]
      exact hstop
    | shutdown => exact absurd rfl hnot.1
    | _ => exact hstop

variable {ι : Type*} [DecidableEq ι] {tr : List (Op × Ret)} {s : State ι}

theorem closed_iff (htr : ∀ x ∈ tr, x.1.Exchanges) (hrun : SeqRun (impl ι) (impl ι).init tr s) :
    Closed (impl ι) none tr s ↔ ¬ PushedClosed tr := by
  have h0 : Rep {} (impl ι).init.mem := Rep.init
  obtain ⟨q, hl, hR, hq⟩ := implements.legal_of (P := Op.Exchanges) (fun _ hR _ => ready hR) hrun h0
    (fun _ => rfl) htr
  constructor
  · rintro hclosed ⟨before, task, r, after, rfl, hstop⟩
    -- the push has been accepted, and the drained list refuses it
    have htrue : r = .bool true := hl.result_eq (.push task) (fun _ => rfl) (by simp)
    obtain ⟨b1, b2, rfl⟩ := List.append_of_mem hstop
    obtain ⟨queued, left, -, hdrain⟩ := hclosed.drains b1 (b2 ++ (.push task, r) :: after) (by simp)
    have hfalse : r = .bool false := hdrain.result_eq (.push task) (fun _ => rfl) (by simp)
    rw [htrue] at hfalse
    cases hfalse
  · intro hpush
    have hl' : Spec.Legal (Fifo.apply none) {} tr q := by
      refine legal_fifo hl fun before task r after heq => ⟨rfl, ?_⟩
      intro hstop
      exact hpush ⟨before, task, r, after, heq, hstop⟩
    refine ⟨fun before after heq => Fifo.legal_drains hl' heq, ?_, ?_⟩
    · intro before task r s1 heq _ _ hstop
      exact absurd ⟨before, task, r, [], heq, hstop⟩ hpush
    · intro hstop i op hop
      have hstopped := (Fifo.legal_stopped hl').2 (.inr hstop)
      refine implements.total hR hq ?_
      cases op with
      | pop => exact .inr hstopped
      | popBatch max => exact .inr hstopped
      | _ => trivial

end NaiveTaskQueue

/-- **After `shutdown`** the MPMC and the SPSC queue are closed to producers and drain, whatever
calls are made, one at a time; the naive queue does exactly in the runs in which nothing is pushed
to it any more. -/
theorem closed_to_producers (ι : Type*) [DecidableEq ι] (tr : List (Op × Ret))
    (htr : ∀ x ∈ tr, x.1.Exchanges) :
    (∀ s, SeqRun (MPMCTaskQueue.impl ι) (MPMCTaskQueue.impl ι).init tr s →
      Closed (MPMCTaskQueue.impl ι) false tr s) ∧
    (∀ s, SeqRun (SPSCTaskQueue.impl ι) (SPSCTaskQueue.impl ι).init tr s →
      Closed (SPSCTaskQueue.impl ι) () tr s) ∧
    ∀ s, SeqRun (NaiveTaskQueue.impl ι) (NaiveTaskQueue.impl ι).init tr s →
      (Closed (NaiveTaskQueue.impl ι) none tr s ↔ ¬ PushedClosed tr) := by
  refine ⟨?_, ?_, fun s hrun => NaiveTaskQueue.closed_iff htr hrun⟩
  · intro s hrun
    refine Closed.of_implements MPMCTaskQueue.implements MPMCTaskQueue.Rep.init ?_ ?_ htr hrun
    · rintro q op hop (rfl | rfl)
      · exact hop.elim
      · exact hop.elim
    · intro q s task r s' hR hstop hs
      exact MPMCTaskQueue.push_stopped (hR.stop.trans hstop) hs
  · intro s hrun
    refine Closed.of_implements SPSCTaskQueue.implements SPSCTaskQueue.Rep.init
      (fun _ _ _ => trivial) ?_ htr hrun
    intro q s task r s' hR hstop hs
    exact SPSCTaskQueue.push_stopped (hR.stop.trans hstop) hs

/-- A task is pushed to a naive queue that has been shut down, and is accepted. -/
theorem pushed_closed : ∃ s, SeqRun (NaiveTaskQueue.impl (Fin 2)) (NaiveTaskQueue.impl (Fin 2)).init
      [(.shutdown, .unit), (.push .empty, .bool true)] s ∧
    ¬ Closed (NaiveTaskQueue.impl (Fin 2)) none
      [(.shutdown, .unit), (.push .empty, .bool true)] s := by
  obtain ⟨s, hrun⟩ := NaiveTaskQueue.implements.seqRun (ι := Fin 2) [.shutdown, .push .empty]
    (s := (NaiveTaskQueue.impl (Fin 2)).init) NaiveTaskQueue.Rep.init (fun _ => rfl)
    ⟨trivial, trivial, trivial⟩
  refine ⟨s, hrun, ?_⟩
  intro hclosed
  obtain ⟨queued, left, -, hdrain⟩ := hclosed.drains [] [(.push .empty, .bool true)] rfl
  have hfalse : Ret.bool true = .bool false :=
    hdrain.result_eq (.push .empty) (fun _ => rfl) List.mem_cons_self
  cases hfalse

/-- Two tasks are left in a queue that is shut down; they are popped, and nothing else. -/
def drained : List (Op × Ret) :=
  [(.push (client 4), .bool true), (.push (client 5), .bool true), (.shutdown, .unit),
    (.push (client 6), .bool false), (.pop, .task (some (client 4))),
    (.popBatch 8, .batch [client 5]), (.pop, .task none)]

theorem closed_run : ∃ s, SeqRun (MPMCTaskQueue.impl (Fin 2)) (MPMCTaskQueue.impl (Fin 2)).init
    drained s ∧ Closed (MPMCTaskQueue.impl (Fin 2)) false drained s := by
  obtain ⟨s, hrun⟩ := MPMCTaskQueue.implements.seqRun (ι := Fin 2) (drained.map Prod.fst)
    (s := (MPMCTaskQueue.impl (Fin 2)).init) MPMCTaskQueue.Rep.init (fun _ => rfl)
    (MPMCTaskQueue.allowed (by decide))
  have hx : ∀ x ∈ drained, x.1.Exchanges := by
    simp [drained, Op.Exchanges]
  exact ⟨s, hrun, (closed_to_producers (Fin 2) drained hx).1 s hrun⟩

end Lumen.Concurrency
