import Lumen.Concurrency.Proof.SPSCInv

/-!
# `SPSCTaskQueue` is a linearizable FIFO of capacity 1023

An operation takes effect at one access: an accepted push at its store of `tail`, a popped task at
the store of `head`, a refusal at the load of the other thread's counter. `linear` reads these
points off a history; `legal` replays them on a bounded list, and `calls` ties every return to the
points of its own call.
-/

set_option autoImplicit false

namespace Lumen.Concurrency.SPSCTaskQueue

open Lumen.Lib Lumen.Lib.Shared Lumen.Core ITaskQueue

variable {ι : Type*}

/-! ## Calls and their points -/

/-- What a call of `op` whose accesses have shown `os` may return: a push one answer, a pop one
task or none, a batch the tasks popped, fewer than asked for only after a pop that found none. -/
def Answers : Op → List Obs → Ret → Prop
  | .push task, os, r => (os = [.pushed task] ∧ r = .bool true) ∨
      (os = [.full task] ∧ r = .bool false) ∨ (os = [.stopped] ∧ r = .bool false)
  | .pop, os, r => (∃ task, os = [.popped task] ∧ r = .task (some task)) ∨
      (os = [.none] ∧ r = .task none)
  | .popBatch max, os, r => ∃ batch, r = .batch batch ∧
      ((os = batch.map .popped ∧ max ≤ batch.length) ∨
        (os = batch.map .popped ++ [.none] ∧ batch.length < max))
  | _, os, _ => os = []

/-- The `pop` that runs in a call of `op` that has shown `os`. -/
def PopDuring (op : Op) (os : List Obs) : PopCtx → Prop
  | .pop => op = .pop ∧ os = []
  | .batch batch max => op = .popBatch max ∧ os = batch.map .popped ∧ batch.length < max

/-- The call of `op` that has shown `os` is at this point. -/
def During : Pc → Op → List Obs → Prop
  | .idle, _, _ => True
  | .pushStop task, op, os | .pushTail task, op, os | .pushHead task _, op, os
  | .pushWrite task _, op, os | .pushStore task _, op, os => op = .push task ∧ os = []
  | .popHead ctx, op, os | .popTail ctx _, op, os | .popMove ctx _, op, os
  | .popStore ctx _ _, op, os => PopDuring op os ctx
  | .batchTest batch max, op, os => op = .popBatch max ∧ os = batch.map .popped
  | .sizeTail e, op, os | .sizeHead e _, op, os => op = (if e then .empty else .size) ∧ os = []
  | .stopStore, op, os => op = .shutdown ∧ os = []

theorem calls : (impl ι).Calls During Answers where
  idle _ _ _ := rfl
  entry op := by cases op <;> simp [During, PopDuring, entry]
  run := by
    intro i m _ q o op os ho hd
    replace ho : run m q = some o := ho
    cases q <;> simp only [run] at ho <;> simp only [During] at hd
    case idle => cases ho
    case pushStop task =>
      obtain ⟨rfl, rfl⟩ := hd
      split at ho <;> cases ho
      · exact .inr ⟨_, rfl, rfl, .inr (.inr ⟨rfl, rfl⟩)⟩
      · exact .inl ⟨rfl, rfl, rfl⟩
    case pushHead task t =>
      obtain ⟨rfl, rfl⟩ := hd
      split at ho <;> cases ho
      · exact .inr ⟨_, rfl, rfl, .inr (.inl ⟨rfl, rfl⟩)⟩
      · exact .inl ⟨rfl, rfl, rfl⟩
    case pushStore task t =>
      obtain ⟨rfl, rfl⟩ := hd
      cases ho
      exact .inr ⟨_, rfl, rfl, .inl ⟨rfl, rfl⟩⟩
    case popTail ctx h =>
      split at ho <;> cases ho
      · cases ctx with
        | pop =>
          obtain ⟨rfl, rfl⟩ := hd
          exact .inr ⟨_, rfl, rfl, .inr ⟨rfl, rfl⟩⟩
        | batch batch max =>
          obtain ⟨rfl, rfl, hlt⟩ := hd
          exact .inr ⟨_, rfl, rfl, batch, rfl, .inr ⟨rfl, hlt⟩⟩
      · exact .inl ⟨rfl, by simpa [During] using hd⟩
    case popStore ctx h task =>
      cases ho
      cases ctx with
      | pop =>
        obtain ⟨rfl, rfl⟩ := hd
        exact .inr ⟨_, rfl, rfl, .inl ⟨task, rfl, rfl⟩⟩
      | batch batch max =>
        obtain ⟨rfl, rfl, -⟩ := hd
        exact .inl ⟨rfl, rfl, by simp [popSome]⟩
    case batchTest batch max =>
      obtain ⟨rfl, rfl⟩ := hd
      split at ho <;> rename_i hc <;> cases ho
      · exact .inl ⟨rfl, rfl, by simp, hc⟩
      · exact .inr ⟨_, rfl, rfl, batch, rfl, .inl ⟨by simp, by omega⟩⟩
    case sizeHead e t =>
      obtain ⟨rfl, rfl⟩ := hd
      cases ho
      exact .inr ⟨_, rfl, rfl, by cases e <;> rfl⟩
    case stopStore =>
      obtain ⟨rfl, rfl⟩ := hd
      cases ho
      exact .inr ⟨_, rfl, rfl, rfl⟩
    all_goals
      cases ho
      exact .inl ⟨rfl, by simpa [During] using hd⟩

/-! ## The points -/

/-- What the points of a history do to the queue, in order. -/
def linear (h : List (Event ι Obs)) : List (Op × Ret) :=
  h.filterMap fun
    | .obs _ (.pushed task) => some (.push task, .bool true)
    | .obs _ (.full task) => some (.push task, .bool false)
    | .obs _ (.popped task) => some (.pop, .task (some task))
    | .obs _ .none => some (.pop, .task none)
    | _ => none

@[simp] theorem linear_append (h h' : List (Event ι Obs)) :
    linear (h ++ h') = linear h ++ linear h' := List.filterMap_append

/-- The bounded list. -/
def spec : Spec Fifo Op Ret := Fifo.apply (some 1023)

/-- The list that the ring stands for. -/
def fifo (W R : List InferenceTask) : Fifo := { tasks := W.drop R.length, pushed := W.length }

/-- What is so at the instant of a point: a push refuses with 1023 tasks stored, or after a call of
`shutdown`, and a pop finds none when every accepted task has been popped. -/
def PointOk (h : List (Event ι Obs)) : Event ι Obs → Prop
  | .obs _ (.full _) => (pushed h).length = (popped h).length + 1023
  | .obs _ .none => popped h = pushed h
  | .obs _ .stopped => ∃ j, .call j .shutdown ∈ h
  | _ => True

section
variable {W R : List InferenceTask} {task : InferenceTask}

theorem spec_push (hlt : W.length < R.length + 1023) (hle : R.length ≤ W.length) :
    spec (fifo W R) (.push task) = (.bool true, fifo (W ++ [task]) R) := by
  have hf : ¬ (fifo W R).Full (some 1023) := by
    simp only [Fifo.full_some, fifo, List.length_drop]
    omega
  rw [spec, Fifo.apply_push rfl hf]
  simp only [fifo, List.drop_append_of_le_length hle, List.length_append, List.length_singleton]

theorem spec_push_full (task : InferenceTask) (h : W.length = R.length + 1023) :
    spec (fifo W R) (.push task) = (.bool false, fifo W R) := by
  refine Fifo.apply_push_full ?_
  simp only [Fifo.full_some, fifo, List.length_drop]
  omega

theorem spec_pop (hw : W[R.length]? = some task) :
    spec (fifo W R) .pop = (.task (some task), fifo W (R ++ [task])) := by
  simp only [spec, Fifo.apply, fifo, List.head?_drop, hw, List.tail_drop, List.length_append,
    List.length_singleton]

theorem spec_pop_none (h : W.length ≤ R.length) :
    spec (fifo W R) .pop = (.task none, fifo W R) := by
  simp only [spec, Fifo.apply, fifo, List.drop_eq_nil_of_le h, List.head?_nil, List.tail_nil]

end

section
variable {p c i : ι} {W R : List InferenceTask} {s : State ι} {h : List (Event ι Obs)}

/-- One access takes the list from what the ring stood for to what it stands for. -/
theorem run_legal (hi : Inv p c W R s) {o : Outcome} (ho : run s.mem (s.pc i) = some o) :
    spec.Legal (fifo W R) (linear (o.events i : List (Event ι Obs)))
      (fifo (W ++ pushed (o.events i)) (R ++ popped (o.events i))) := by
  have hok := hi.thread i
  -- what an access shows, if anything, is one operation on the list
  have hnone : linear (o.events i) = [] ∧ pushed (o.events i) = [] ∧ popped (o.events i) = [] →
      spec.Legal (fifo W R) (linear (o.events i : List (Event ι Obs)))
        (fifo (W ++ pushed (o.events i)) (R ++ popped (o.events i))) := by
    rintro ⟨h1, h2, h3⟩
    rw [h1, h2, h3, List.append_nil, List.append_nil]
    exact Spec.legal_nil
  have hone : ∀ W' R' {op r}, spec (fifo W R) op = (r, fifo (W ++ W') (R ++ R')) →
      linear (o.events i) = [(op, r)] ∧ pushed (o.events i) = W' ∧ popped (o.events i) = R' →
      spec.Legal (fifo W R) (linear (o.events i : List (Event ι Obs)))
        (fifo (W ++ pushed (o.events i)) (R ++ popped (o.events i))) := by
    rintro W' R' op r hspec ⟨h1, h2, h3⟩
    rw [h1, h2, h3]
    exact Spec.legal_single hspec
  cases hpc : s.pc i <;> simp only [hpc, ThreadOk] at hok <;> simp only [hpc, run] at ho
  case pushHead task t =>
    obtain ⟨rfl, rfl⟩ := hok
    split at ho <;> rename_i hc <;> cases ho
    · have hfull := spec_push_full task (hi.ring.full_iff.1 hc)
      exact hone [] [] (by simpa using hfull) ⟨rfl, rfl, rfl⟩
    · exact hnone ⟨rfl, rfl, rfl⟩
  case pushStore task t =>
    cases ho
    have hpush : spec (fifo W R) (.push task) = _ := spec_push hok.2.2.1 hi.ring.le
    exact hone [task] [] (by simpa using hpush) ⟨rfl, rfl, rfl⟩
  case popTail ctx h =>
    obtain ⟨rfl, rfl⟩ := hok
    split at ho <;> rename_i hc <;> cases ho
    · have hempty := spec_pop_none (Nat.le_of_eq (hi.ring.empty_iff.1 hc))
      exact hone [] [] (by simpa using hempty) ⟨rfl, rfl, rfl⟩
    · exact hnone ⟨rfl, rfl, rfl⟩
  case popStore ctx h task =>
    cases ho
    have hpop := spec_pop hok.2.2.2
    cases ctx <;> exact hone [] [task] (by simpa using hpop) ⟨rfl, rfl, rfl⟩
  all_goals
    (repeat' split at ho) <;> cases ho <;> exact hnone ⟨rfl, rfl, rfl⟩

/-- An access shows at most one point. -/
theorem run_obs_le {m : Mem} {q : Pc} {o : Outcome} (ho : run m q = some o) : o.obs.length ≤ 1 := by
  cases q <;> simp only [run] at ho
  case popStore ctx k task =>
    cases ho
    cases ctx <;> exact Nat.le_refl 1
  all_goals
    (repeat' split at ho) <;> cases ho <;> simp

/-- The points of one access are right. -/
theorem run_points (hi : Inv p c (pushed h) (popped h) s)
    (hstop : s.mem.stopFlag = true → ∃ j, .call j .shutdown ∈ h) (hp : Past PointOk h) {o : Outcome}
    (ho : run s.mem (s.pc i) = some o) : Past PointOk (h ++ o.events i) := by
  have hok := hi.thread i
  refine past_events_one hp (run_obs_le ho) (fun x hx => ?_) fun r _ => trivial
  cases hpc : s.pc i <;> simp only [hpc, ThreadOk] at hok <;> simp only [hpc, run] at ho
  case pushStop task =>
    split at ho <;> rename_i hc <;> cases ho
    · obtain rfl := List.mem_singleton.1 hx
      exact hstop hc
    · cases hx
  case pushHead task t =>
    obtain ⟨rfl, rfl⟩ := hok
    split at ho <;> rename_i hc <;> cases ho
    · obtain rfl := List.mem_singleton.1 hx
      exact hi.ring.full_iff.1 hc
    · cases hx
  case popTail ctx k =>
    obtain ⟨rfl, rfl⟩ := hok
    split at ho <;> rename_i hc <;> cases ho
    · obtain rfl := List.mem_singleton.1 hx
      have hpopped := hi.popped_eq
      rw [← hi.ring.empty_iff.1 hc, List.take_length] at hpopped
      exact hpopped
    · cases hx
  case pushStore task t =>
    cases ho
    obtain rfl := List.mem_singleton.1 hx
    trivial
  case popStore ctx k task =>
    cases ho
    cases ctx <;> obtain rfl := List.mem_singleton.1 hx <;> trivial
  all_goals
    (repeat' split at ho) <;> cases ho <;> cases hx

end

/-! ## The theorem -/

section
variable {p c : ι} {s : State ι} {h : List (Event ι Obs)}

/-- What the points of a history and the stop flag say. -/
structure Points (h : List (Event ι Obs)) (s : State ι) : Prop where
  legal : spec.Legal {} (linear h) (fifo (pushed h) (popped h))
  point : Past PointOk h
  stop : s.mem.stopFlag = true → ∃ j, .call j .shutdown ∈ h

theorem run_stop [DecidableEq ι] (hs : s.mem.stopFlag = true → ∃ j, .call j .shutdown ∈ h)
    (hd : ∀ i, (impl ι).Doing During h i (s.pc i)) {i : ι} {o : Outcome}
    (ho : run s.mem (s.pc i) = some o) (hf : o.mem.stopFlag = true) :
    ∃ j, .call j .shutdown ∈ h := by
  by_cases hpc : s.pc i = .stopStore
  · obtain ⟨op, hl, rfl, -⟩ := by simpa [hpc] using hd i (by simp [hpc])
    exact ⟨i, mem_of_lastCall hl⟩
  · refine hs ?_
    cases hq : s.pc i <;> simp only [hq, run] at ho
    case stopStore => exact absurd hq hpc
    case popStore ctx k task =>
      cases ho
      cases ctx <;> exact hf
    all_goals
      (repeat' split at ho) <;> cases ho <;> exact hf

/-- The slot a producer writes or is about to publish. -/
def Pc.writing : Pc → Option Nat
  | .pushWrite _ t | .pushStore _ t => some t
  | _ => none

/-- The slot a consumer moves a task out of or is about to release. -/
def Pc.moving : Pc → Option Nat
  | .popMove _ h | .popStore _ h _ => some h
  | _ => none

theorem Inv.slots_ne {W R : List InferenceTask} (hi : Inv p c W R s) {i j : ι} {t k : Nat}
    (ht : (s.pc i).writing = some t) (hk : (s.pc j).moving = some k) : t &&& mask ≠ k &&& mask := by
  have hring := hi.ring
  have h1 : t = s.mem.tail ∧ W.length < R.length + 1023 := by
    have hok := hi.thread i
    cases hpc : s.pc i <;> simp only [hpc, Pc.writing, Option.some.injEq, reduceCtorEq] at ht
    all_goals
      subst ht
      simp only [hpc, ThreadOk] at hok
      exact ⟨hok.2.1, by omega⟩
  have h2 : k = s.mem.head ∧ R.length < W.length := by
    have hok := hi.thread j
    cases hpc : s.pc j <;> simp only [hpc, Pc.moving, Option.some.injEq, reduceCtorEq] at hk
    all_goals
      subst hk
      simp only [hpc, ThreadOk] at hok
      exact ⟨hok.2.1, by omega⟩
  rw [h1.1, h2.1, hring.tail_slot, hring.head_slot]
  omega

variable [DecidableEq ι]

theorem points (hr : (lts ι).ReachIf (Roles p c) h s) : Points h s := by
  refine hr.inv_of_reach (fun s h0 => ?_) fun h s l es s' hr hi hc hs => ?_
  · obtain rfl : s = (impl ι).init := h0
    exact ⟨Spec.legal_nil, .nil, nofun⟩
  obtain ⟨i, op | u⟩ := l
  · obtain ⟨-, rfl, rfl⟩ := Impl.step_call.1 hs
    refine ⟨?_, hi.point.append_one trivial, fun hf => ?_⟩
    · simpa [linear, pushed, popped] using hi.legal
    · obtain ⟨j, hj⟩ := hi.stop hf
      exact ⟨j, List.mem_append_left _ hj⟩
  · obtain ⟨o, ho, rfl, rfl⟩ := Impl.step_run.1 hs
    have hinv := inv hr
    refine ⟨?_, run_points hinv hi.stop hi.point ho, fun hf => ?_⟩
    · rw [linear_append, pushed_append, popped_append]
      exact hi.legal.append (run_legal hinv ho)
    · obtain ⟨j, hj⟩ := run_stop hi.stop (calls.reach hr.reach).1 ho hf
      exact ⟨j, List.mem_append_left _ hj⟩

/-- **A linearizable FIFO of capacity 1023**, for one thread `p` that pushes and one thread `c`
that pops. What is popped is a prefix of what was accepted; a refusal is right at the instant of
its load (`PointOk`); the two threads never use the same slot; and the points of the history are a
run of the bounded list, each return being the answer of the points of its own call. -/
theorem linearizable (hr : (lts ι).ReachIf (Roles p c) h s) :
    popped h <+: pushed h ∧ Past PointOk h ∧
    (∀ i j t k, (s.pc i).writing = some t → (s.pc j).moving = some k → t &&& mask ≠ k &&& mask) ∧
    spec.Legal {} (linear h) (fifo (pushed h) (popped h)) ∧ Past (Justified Answers) h := by
  have hi := inv hr
  have hp := points hr
  refine ⟨?_, hp.point, fun i j t k => hi.slots_ne, hp.legal, (calls.reach hr.reach).2⟩
  rw [hi.popped_eq]
  exact List.take_prefix _ _

/-- The consumer finds nothing; then the producer pushes two tasks, the second while the consumer
takes the first. -/
theorem linearizable_run : ∃ h s, (lts Bool).ReachIf (Roles false true) h s ∧
    linear h = [(.pop, .task none), (.push (client 4), .bool true),
      (.push (client 5), .bool true), (.pop, .task (some (client 4))),
      (.pop, .task (some (client 5)))] ∧
    popped h = [client 4, client 5] ∧ popped h <+: pushed h ∧
    spec.Legal {} (linear h) (fifo (pushed h) (popped h)) := by
  have hrun : ((lts Bool).exec (impl Bool).init
      ([(true, .call .pop), (true, .run ()), (false, .call (.push (client 4))), (true, .run ())] ++
        List.replicate 5 (false, .run ()) ++ (true, .call .pop) :: List.replicate 3 (true, .run ()) ++
        (false, .call (.push (client 5))) :: List.replicate 5 (false, .run ()) ++ [(true, .run ())] ++
        (true, .call (.popBatch 1)) :: List.replicate 5 (true, .run ()))).map
          (fun r => (linear r.1, popped r.1)) =
      some ([(.pop, .task none), (.push (client 4), .bool true), (.push (client 5), .bool true),
        (.pop, .task (some (client 4))), (.pop, .task (some (client 5)))],
        [client 4, client 5]) := rfl
  obtain ⟨⟨h, s⟩, he, heq⟩ := Option.map_eq_some_iff.1 hrun
  obtain ⟨hlinear, hpopped⟩ := Prod.mk.inj heq
  have hr := Lts.ReachIf.along (C := Roles false true) (.init rfl) (by decide) he
  obtain ⟨hfifo, -, -, hlegal, -⟩ := linearizable hr
  exact ⟨h, s, hr, hlinear, hpopped, hfifo, hlegal⟩

end
end Lumen.Concurrency.SPSCTaskQueue
