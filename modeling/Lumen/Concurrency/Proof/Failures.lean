import Lumen.Concurrency.Proof.PoolJobs

/-!
# Failures inside inference

`run` has no result for what fails in it: a null buffer, a null processor, or an exception of a
tensor, the session or a processor. `Answerable` says when nothing does. Only then the worker pushes
a result for the task, resets its arena and goes on with its batch (`answered_iff`); otherwise the
process ends, with the rest of the batch and whatever the other workers have.
-/

set_option autoImplicit false

namespace Lumen.Core.InferenceEngine

variable {engine : InferenceEngine} {env : RunEnv} {task : InferenceTask}
  {allocator allocator' : Allocator} {result : InferenceResult}

/-- The sizes of the two buffers. -/
def inputBytes (engine : InferenceEngine) : Nat :=
  Lib.mul64 (elementCount engine.inputShape) sizeofFloat

def outputBytes (engine : InferenceEngine) : Nat :=
  Lib.mul64 (elementCount engine.outputShape) sizeofFloat

/-- The allocator with both buffers, `none` where one of them is not to be had. -/
def buffers (engine : InferenceEngine) (env : RunEnv) (allocator : Allocator) : Option Allocator :=
  (allocator.alloc (env.room 0) engine.inputBytes).bind fun allocator =>
    allocator.alloc (env.room 1) engine.outputBytes

/-- The input tensor: there are the two dimensions that are read and a preprocessor, which does not
throw. -/
def input (engine : InferenceEngine) (env : RunEnv) (task : InferenceTask) : Option Tensor :=
  engine.inputShape[3]?.bind fun width => engine.inputShape[2]?.bind fun height =>
    task.pre.bind fun pre =>
      engine.transform pre task.data (env.inputBuffer (elementCount engine.inputShape)) width height

/-- The output of the session and the allocator that it leaves: what it asks for after the buffers
is enough for it, and it does not throw. -/
def output (engine : InferenceEngine) (env : RunEnv) (task : InferenceTask)
    (allocator : Allocator) : Option (Tensor × Allocator) :=
  (engine.buffers env allocator).bind fun allocator => (engine.input env task).bind fun input =>
    (engine.sessionRun env.session input).exec env.room 2 allocator

/-- The response: there is a postprocessor, which does not throw. -/
def response (engine : InferenceEngine) (env : RunEnv) (task : InferenceTask)
    (allocator : Allocator) : Option (List UInt8) :=
  (engine.output env task allocator).bind fun out => task.post.bind fun post =>
    engine.handleResults post out.1 (elementCount engine.outputShape)

/-- Nothing fails: onnxruntime makes both tensors, and there is a response. -/
structure Unfailing (engine : InferenceEngine) (env : RunEnv) (task : InferenceTask)
    (allocator : Allocator) : Prop where
  createInput : engine.createTensor (elementCount engine.inputShape) engine.inputShape = true
  createOutput : engine.createTensor (elementCount engine.outputShape) engine.outputShape = true
  response : (engine.response env task allocator).isSome = true

instance : Decidable (engine.Unfailing env task allocator) :=
  decidable_of_iff
    (engine.createTensor (elementCount engine.inputShape) engine.inputShape = true ∧
      engine.createTensor (elementCount engine.outputShape) engine.outputShape = true ∧
      (engine.response env task allocator).isSome = true)
    ⟨fun ⟨hi, ho, hr⟩ => ⟨hi, ho, hr⟩, fun h => ⟨h.1, h.2, h.3⟩⟩

/-- The payload is refused by the guard, or nothing fails. -/
def Answerable (engine : InferenceEngine) (env : RunEnv) (task : InferenceTask)
    (allocator : Allocator) : Prop :=
  task.data.length < elementCount engine.inputShape ∨ engine.Unfailing env task allocator

instance : Decidable (engine.Answerable env task allocator) := inferInstanceAs (Decidable (_ ∨ _))

/-- The trace of the task plays no part. -/
theorem answerable_trace (trace : Option InferenceTrace) :
    engine.Answerable env { task with trace := trace } allocator ↔
      engine.Answerable env task allocator :=
  or_congr_right
    ⟨fun h => ⟨h.createInput, h.createOutput, h.response⟩,
      fun h => ⟨h.createInput, h.createOutput, h.response⟩⟩

/-- The allocator that a call leaves. -/
def used (engine : InferenceEngine) (env : RunEnv) (task : InferenceTask) (allocator : Allocator) :
    Allocator :=
  if task.data.length < elementCount engine.inputShape then allocator
  else ((engine.output env task allocator).map Prod.snd).getD allocator

/-- A call that returns is answerable. -/
theorem answerable_of_run (h : engine.run env task allocator = .ok (result, allocator')) :
    engine.Answerable env task allocator ∧ allocator' = engine.used env task allocator := by
  unfold run at h
  simp only at h
  split at h <;> rename_i hguard
  · cases h
    exact ⟨.inl hguard, (if_pos hguard).symm⟩
  · simp only [require_bind] at h
    obtain ⟨a, ha, width, hw, height, hht, pre, hpre, input, hin, _, hci, b, hb, _, hco,
      ⟨out, c⟩, hout, post, hpost, response, hresponse, hr⟩ := h
    cases hr
    have hinput : engine.input env task = some input := by
      rw [InferenceEngine.input, hw, hht, hpre]
      exact hin
    have houtput : engine.output env task allocator = some (out, c) := by
      rw [InferenceEngine.output, buffers, inputBytes, ha, Option.bind_some, outputBytes, hb,
        Option.bind_some, hinput]
      exact hout
    refine ⟨.inr ⟨?_, ?_, ?_⟩, ?_⟩
    · split at hci
      · assumption
      · cases hci
    · split at hco
      · assumption
      · cases hco
    · rw [InferenceEngine.response, houtput, Option.bind_some, hpost, Option.bind_some, hresponse]
      rfl
    · rw [used, if_neg hguard, houtput]
      rfl

/-- A call that is answerable returns. -/
theorem run_of_answerable (h : engine.Answerable env task allocator) :
    ∃ result, engine.run env task allocator = .ok (result, engine.used env task allocator) := by
  by_cases hguard : task.data.length < elementCount engine.inputShape
  · refine ⟨payloadMismatch task, ?_⟩
    rw [used, if_pos hguard]
    simp only [run, if_pos hguard]
  · have h := h.resolve_left hguard
    obtain ⟨response, hres⟩ := Option.isSome_iff_exists.1 h.response
    obtain ⟨⟨out, c⟩, houtput, hres⟩ := Option.bind_eq_some_iff.1 hres
    obtain ⟨post, hpost, hresponse⟩ := Option.bind_eq_some_iff.1 hres
    obtain ⟨b, hbuf, hout⟩ := Option.bind_eq_some_iff.1 houtput
    obtain ⟨a, ha, hb⟩ := Option.bind_eq_some_iff.1 hbuf
    obtain ⟨input, hinput, hout⟩ := Option.bind_eq_some_iff.1 hout
    simp only [InferenceEngine.input, Option.bind_eq_some_iff] at hinput
    obtain ⟨width, hw, height, hh, pre, hpre, hin⟩ := hinput
    refine ⟨{ clientFd := task.clientFd, response := response,
              trace := task.trace.map fun trace =>
                { trace with preprocessMs := env.times.preprocessMs,
                             inferenceMs := env.times.inferenceMs,
                             postprocessMs := env.times.postprocessMs } }, ?_⟩
    rw [used, if_neg hguard, houtput]
    simp only [run, if_neg hguard, require_bind]
    refine ⟨a, ha, width, hw, height, hh, pre, hpre, input, hin, (), ?_, b, hb, (), ?_, (out, c),
      hout, post, hpost, response, hresponse, rfl⟩
    · rw [h.createInput]
      rfl
    · rw [h.createOutput]
      rfl

end Lumen.Core.InferenceEngine

namespace Lumen.Concurrency.ThreadPool

open Lumen.Lib Lumen.Lib.Shared Lumen.Memory Lumen.Core

variable {ι κ : Type*}

/-- The engine has returned, and the arena has not been reset since. -/
def Pc.toReset : Pc ι κ → Bool
  | .arenaReset _ _ _ => true
  | _ => false

section
variable {setup : Setup ι} {allocator : ι → Allocator} {mn i : ι} {h : List (Event ι κ)}
  {s s' : State ι κ} {l : Label ι κ} {es : List (Event ι κ)}
  {job : Job κ} {task : InferenceTask} {batch : List (Job κ)}

/-! ## The process and its pool -/

/-- What a condition on the steps of the pool says of the process. -/
def Under (C : State ι κ → Label ι κ → Prop) : Except Failure (State ι κ) → Label ι κ → Prop
  | .ok s, l => C s l
  | .error _, _ => True

instance (C : State ι κ → Label ι κ → Prop) [∀ s l, Decidable (C s l)] :
    ∀ r l, Decidable (Under C r l)
  | .ok s, l => inferInstanceAs (Decidable (C s l))
  | .error _, _ => .isTrue trivial

/-- If thread `i` is to call its engine, the call, which meets `env`, is answerable. -/
def Pc.Unharmed (setup : Setup ι) (i : ι) (env : RunEnv) (m : Mem ι κ) : Pc ι κ → Prop
  | .engineRun job _ _ => (setup.engine i).Answerable env job.task (m.allocator i)
  | _ => True

instance (setup : Setup ι) (i : ι) (env : RunEnv) (m : Mem ι κ) :
    ∀ p : Pc ι κ, Decidable (p.Unharmed setup i env m)
  | .engineRun job _ _ =>
    inferInstanceAs (Decidable ((setup.engine i).Answerable env job.task (m.allocator i)))
  | .idle | .push _ | .popImmediate | .loopTest | .popBatch _ | .popRelease _ _ _ | .forEach _
  | .arenaReset _ _ _ | .pushResult _ _ _ | .loopEnd | .stopTest | .stopStore | .stopQueue
  | .stopJoin _ => .isTrue trivial

/-- The step does not call an engine in vain. -/
def Unharmed (setup : Setup ι) (s : State ι κ) : Label ι κ → Prop
  | (i, .run (.engine env)) => (s.pc i).Unharmed setup i env s.mem
  | (_, .run .none) | (_, .run .take) | (_, .run (.clock _)) | (_, .call _) => True

instance (setup : Setup ι) (s : State ι κ) : ∀ l, Decidable (Unharmed setup s l)
  | (i, .run (.engine env)) => inferInstanceAs (Decidable ((s.pc i).Unharmed setup i env s.mem))
  | (_, .run .none) | (_, .run .take) | (_, .run (.clock _)) | (_, .call _) => .isTrue trivial

theorem failure_of_answerable (env : RunEnv) (hpc : s.pc i = .engineRun job task batch)
    (hok : (s.pc i).Ok setup) :
    failure setup s (i, .run (.engine env)) = none ↔
      (setup.engine i).Answerable env job.task (s.mem.allocator i) := by
  rw [hpc] at hok
  have htask : (setup.engine i).Answerable env task (s.mem.allocator i) ↔
      (setup.engine i).Answerable env job.task (s.mem.allocator i) := by
    rw [hok.1]
    exact InferenceEngine.answerable_trace task.trace
  rw [← htask]
  simp only [failure, hpc]
  constructor
  · intro hf
    split at hf
    · rename_i hrun
      exact (InferenceEngine.answerable_of_run hrun).1
    · cases hf
  · intro ha
    obtain ⟨result, hrun⟩ := InferenceEngine.run_of_answerable ha
    rw [hrun]

/-- Nothing fails exactly if the call that is made is answerable. -/
theorem unharmed_iff (hok : ∀ i, (s.pc i).Ok setup) :
    Unharmed setup s l ↔ failure setup s l = none := by
  obtain ⟨i, op | c⟩ := l
  · exact iff_of_true trivial rfl
  · cases c with
    | engine env =>
      cases hpc : s.pc i with
      | engineRun job task batch =>
        rw [failure_of_answerable env hpc (hok i), Unharmed, hpc]
        rfl
      | _ => simp only [Unharmed, failure, hpc, Pc.Unharmed]
    | _ => exact iff_of_true trivial rfl

variable [DecidableEq ι] [DecidableEq κ]

theorem process_ok : (process κ setup allocator).step (.ok s) l = some (es, .ok s') ↔
    failure setup s l = none ∧ (impl κ setup allocator).step s l = some (es, s') := by
  simp only [process]
  cases failure setup s l with
  | none =>
    simp only [Option.map_eq_some_iff, Prod.mk.injEq, Except.ok.injEq, true_and]
    constructor
    · intro ⟨p, hp, h1, h2⟩
      rw [hp, ← h1, ← h2]
    · intro hp
      exact ⟨_, hp, rfl, rfl⟩
  | some f => simp

theorem process_run {c : Choice} {o : Outcome ι κ} (hf : failure setup s (i, .run c) = none)
    (ho : run setup i s.mem c (s.pc i) = some o) :
    (process κ setup allocator).step (.ok s) (i, .run c) =
      some (o.events i, .ok ⟨o.mem, Function.update s.pc i o.pc⟩) :=
  process_ok.2 ⟨hf, Impl.step_run.2 ⟨o, ho, rfl, rfl⟩⟩

theorem process_error {f : Failure}
    (hs : (process κ setup allocator).step (.ok s) l = some (es, .error f)) :
    failure setup s l = some f := by
  simp only [process] at hs
  cases hf : failure setup s l with
  | none => simp [hf] at hs
  | some g =>
    rw [hf] at hs
    cases hs
    rfl

/-- As long as nothing has failed, a run of the process is a run of the pool. -/
theorem reach_of_process {C : State ι κ → Label ι κ → Prop} {r : Except Failure (State ι κ)}
    (hr : (process κ setup allocator).ReachIf (fun _ => Under C) h r) (hs : r = .ok s) :
    (lts κ setup allocator).ReachIf (fun _ => C) h s := by
  induction hr generalizing s with
  | init h0 =>
    cases h0.symm.trans hs
    exact .init rfl
  | @step h r l es r' _ hc hst ih =>
    subst hs
    cases r with
    | ok s0 => exact (ih rfl).step hc (process_ok.1 hst).2
    | error f => cases hst

/-- Where every call of an engine is answerable, nothing fails. -/
theorem ok_of_unharmed {C : State ι κ → Label ι κ → Prop} {r : Except Failure (State ι κ)}
    (hC : ∀ s l, C s l → Roles setup mn s l ∧ Unharmed setup s l)
    (hr : (process κ setup allocator).ReachIf (fun _ => Under C) h r) : ∃ s, r = .ok s := by
  induction hr with
  | init h0 => exact ⟨_, h0⟩
  | @step h r l es r' hr hc hst ih =>
    obtain ⟨s, rfl⟩ := ih
    cases r' with
    | ok s' => exact ⟨s', rfl⟩
    | error f =>
      have hpool := reach_of_process hr rfl
      have hok := (inv (hpool.mono fun _ s l hc => (hC s l hc).1)).2.ok
      have hf := (unharmed_iff hok).1 (hC s l hc).2
      rw [process_error hst] at hf
      cases hf

/-! ## One task -/

/-- The worker `i`, which was to call its engine for `job`, has pushed `result` and reset its
allocator, and is at the rest of its batch. -/
def answer (setup : Setup ι) (s : State ι κ) (i : ι) (env : RunEnv) (job : Job κ)
    (batch : List (Job κ)) (result : InferenceResult) : State ι κ where
  mem := { s.mem with
    allocator := Function.update s.mem.allocator i
      ((setup.engine i).used env job.task (s.mem.allocator i)).reset
    results := s.mem.results ++ [(job, result)] }
  pc := Function.update s.pc i (.forEach batch)

omit [DecidableEq κ] in
theorem answer_allocator (s : State ι κ) (env : RunEnv) (job : Job κ) (batch : List (Job κ))
    (result : InferenceResult) : (answer setup s i env job batch result).mem.allocator i =
      ((setup.engine i).used env job.task (s.mem.allocator i)).reset := Function.update_self ..

/-- The steps from the call of the engine to the rest of the batch. -/
def answering (i : ι) (env : RunEnv) : List (Label ι κ) :=
  [(i, .run (.engine env)), (i, .run .none), (i, .run .none)]

theorem exec_answering (allocator : ι → Allocator) (env : RunEnv)
    (hpc : s.pc i = .engineRun job task batch) (hok : (s.pc i).Ok setup)
    (ha : (setup.engine i).Answerable env job.task (s.mem.allocator i)) :
    ∃ result, Carries job result ∧
      (process κ setup allocator).exec (.ok s) (answering i env) =
        some ([.obs i (.produced job result)], .ok (answer setup s i env job batch result)) := by
  have hfail := (failure_of_answerable env hpc hok).2 ha
  rw [hpc] at hok
  have ha' : (setup.engine i).Answerable env task (s.mem.allocator i) := by
    rw [hok.1]
    exact (InferenceEngine.answerable_trace task.trace).2 ha
  obtain ⟨result, hrun⟩ := InferenceEngine.run_of_answerable ha'
  have hmade : Made setup job result :=
    ⟨i, env, task.trace, _, _, hok.2, by rw [← hok.1]; exact hrun⟩
  have hused : (setup.engine i).used env task (s.mem.allocator i) =
      (setup.engine i).used env job.task (s.mem.allocator i) := by
    rw [hok.1]
    rfl
  rw [hused] at hrun
  refine ⟨result, hmade.carries, ?_⟩
  have hcall : run setup i s.mem (.engine env) (s.pc i) = some
      { mem := { s.mem with
          allocator := Function.update s.mem.allocator i
            ((setup.engine i).used env job.task (s.mem.allocator i)) }
        pc := .arenaReset job result batch } := by
    simp only [hpc, run, engineRun, hrun]
  -- after the call come the reset and the push, which cannot fail
  simp only [answering, Lts.exec, process_run hfail hcall, Option.bind_some]
  simp [process, failure, impl, Impl.step, run, Shared.Outcome.events, answer]

/-- After a call that fails there is no reset. -/
theorem answerable_of_exec {env : RunEnv} {r : Except Failure (State ι κ)}
    (hpc : s.pc i = .engineRun job task batch) (hok : (s.pc i).Ok setup)
    (he : (process κ setup allocator).exec (.ok s) (answering i env) = some (es, r)) :
    (setup.engine i).Answerable env job.task (s.mem.allocator i) := by
  obtain ⟨es, r1, _, hst, he', -⟩ := Lts.exec_cons.1 he
  cases r1 with
  | ok s1 => exact (failure_of_answerable env hpc hok).1 (process_ok.1 hst).1
  | error f => cases he'

/-- Worker `i`, whose call of the engine meets `env`, pushes one result for its job, which goes to
the client of the job with its trace; then its allocator has been reset, and it is at the rest of
its batch. -/
def Answered (setup : Setup ι) (allocator : ι → Allocator) (s : State ι κ) (i : ι) (env : RunEnv)
    (job : Job κ) (batch : List (Job κ)) : Prop :=
  ∃ result s',
    (process κ setup allocator).exec (.ok s) (answering i env) =
      some ([.obs i (.produced job result)], .ok s') ∧
    Carries job result ∧ s'.mem.results = s.mem.results ++ [(job, result)] ∧
    s'.pc i = .forEach batch ∧ ∃ a : Allocator, s'.mem.allocator i = a.reset

theorem answered_of_ok (env : RunEnv) (hpc : s.pc i = .engineRun job task batch)
    (hok : (s.pc i).Ok setup) :
    Answered setup allocator s i env job batch ↔
      (setup.engine i).Answerable env job.task (s.mem.allocator i) := by
  constructor
  · intro ⟨result, s', he, _⟩
    exact answerable_of_exec hpc hok he
  · intro ha
    obtain ⟨result, hcarries, he⟩ := exec_answering allocator env hpc hok ha
    exact ⟨result, _, he, hcarries, rfl, Function.update_self .., _, Function.update_self ..⟩

/-! ## Whole runs -/

omit [DecidableEq κ] in
/-- What a step does with the allocators: the engine of the pod uses its own, or it is reset. -/
theorem run_allocator {m : Mem ι κ} {c : Choice} {p : Pc ι κ} {o : Outcome ι κ}
    (ho : run setup i m c p = some o) :
    (∀ j, j ≠ i → o.mem.allocator j = m.allocator j) ∧
      (o.pc.toReset = true ∨ o.mem.allocator i = (m.allocator i).reset ∨
        p.toReset = false ∧ o.mem.allocator i = m.allocator i) := by
  cases p <;> simp only [run, push, popImmediate, popBatch, forEach, engineRun, stopJoin] at ho
  all_goals
    (repeat' split at ho) <;> cases ho <;> simp +contextual [Pc.toReset]

/-- A pod that is not in the middle of a task has its allocator as it was built, or reset. -/
def Rested (built now : Allocator) (p : Pc ι κ) : Prop :=
  p.toReset = false → now = built ∨ ∃ a : Allocator, now = a.reset

theorem rested_of_reach {C : List (Event ι κ) → State ι κ → Label ι κ → Prop}
    (hr : (lts κ setup allocator).ReachIf C h s) (i : ι) :
    Rested (allocator i) (s.mem.allocator i) (s.pc i) := by
  refine hr.inv (I := fun _ s => ∀ i, Rested (allocator i) (s.mem.allocator i) (s.pc i))
    (fun s h0 i _ => ?_) (fun h s l es s' hi _ hs => ?_) i
  · obtain rfl : s = (impl κ setup allocator).init := h0
    exact .inl rfl
  · obtain ⟨i, op | c⟩ := l
    · obtain ⟨hpc, -, rfl⟩ := Impl.step_call.1 hs
      refine forall_update (P := fun j => Rested (allocator j) (s.mem.allocator j))
        (fun _ => hi i ?_) fun j _ => hi j
      rw [hpc]
      rfl
    · obtain ⟨o, ho, -, rfl⟩ := Impl.step_run.1 hs
      obtain ⟨hother, hself⟩ := run_allocator ho
      refine forall_update (P := fun j => Rested (allocator j) (o.mem.allocator j))
        (fun hreset => ?_) fun j hj => ?_
      · rcases hself with h1 | h1 | ⟨h1, h2⟩
        · rw [hreset] at h1
          cases h1
        · exact .inr ⟨_, h1⟩
        · rw [h2]
          exact hi i h1
      · rw [hother j hj]
        exact hi j

/-- Every accepted task has its one result or will have it, and every arena has been reset. -/
structure AllAnswered (setup : Setup ι) (allocator : ι → Allocator) (h : List (Event ι κ))
    (s : State ι κ) : Prop where
  conserved : Conserved setup h s
  rested : ∀ i, Rested (allocator i) (s.mem.allocator i) (s.pc i)

/-- **Failures inside inference.** In a run in which every call of an engine is answerable nothing
fails, and every task is answered. In any run, a task that a worker is about to process is answered
exactly if the call of the engine is answerable, whatever it meets. -/
theorem answered_iff (setup : Setup ι) (allocator : ι → Allocator) (mn : ι) :
    (∀ (h : List (Event ι κ)) r,
      (process κ setup allocator).ReachIf
        (fun _ => Under fun s l => Roles setup mn s l ∧ Unharmed setup s l) h r →
      ∃ s, r = .ok s ∧ AllAnswered setup allocator h s) ∧
    ∀ (h : List (Event ι κ)) s i job task batch,
      (process κ setup allocator).ReachIf (fun _ => Under (Roles setup mn)) h (.ok s) →
      s.pc i = .engineRun job task batch →
      ∀ env, (Answered setup allocator s i env job batch ↔
        (setup.engine i).Answerable env job.task (s.mem.allocator i)) := by
  refine ⟨fun h r hr => ?_, fun h s i job task batch hr hpc env => ?_⟩
  · obtain ⟨s, rfl⟩ := ok_of_unharmed (fun s l hl => hl) hr
    have hpool := reach_of_process hr rfl
    exact ⟨s, rfl, conserved (hpool.mono fun _ _ _ hl => hl.1), rested_of_reach hpool⟩
  · exact answered_of_ok env hpc ((inv (reach_of_process hr rfl)).2.ok i)

end

/-- An arena with room for one pixel, its answer and a block of the session. -/
def smallArena : LumenArena := { arenaPtr := 0, capacity := 192, offset := 0, warmedUp := true }

/-- `onePod` has answered the first of two tasks, and is about to process the second. -/
theorem answered_onePod : ∃ h s,
    (process Nat onePod fun _ => .lumenArena smallArena).ReachIf
        (fun _ => Under fun s l => Roles onePod 0 s l ∧ Unharmed onePod s l) h (.ok s) ∧
      produced h = [(job 4, result 4)] ∧ s.pc onePod.worker = .engineRun (job 5) (job 5).task [] ∧
      AllAnswered onePod (fun _ => .lumenArena smallArena) h s ∧
      Answered onePod (fun _ => .lumenArena smallArena) s onePod.worker {} (job 5) [] := by
  obtain ⟨h, s, he, hp, hpc, ha⟩ : ∃ h s, (process Nat onePod fun _ => .lumenArena smallArena).exec
      (.ok (impl Nat onePod fun _ => .lumenArena smallArena).init)
      (pushJob 4 ++ pushJob 5 ++ halfBatch ++ [(1, .run (.clock 0))]) = some (h, .ok s) ∧
      produced h = [(job 4, result 4)] ∧
      s.pc onePod.worker = .engineRun (job 5) (job 5).task [] ∧
      s.mem.allocator onePod.worker = .lumenArena smallArena := ⟨_, _, rfl, rfl, rfl, rfl⟩
  have hr := Lts.ReachIf.along
    (C := fun _ => Under fun s l => Roles onePod 0 s l ∧ Unharmed onePod s l) (.init rfl)
    (by decide) he
  obtain ⟨hall, hone⟩ := answered_iff (κ := Nat) onePod (fun _ => .lumenArena smallArena) 0
  obtain ⟨s', hs', hanswered⟩ := hall _ _ hr
  cases hs'
  refine ⟨h, s, hr, hp, hpc, hanswered,
    (hone h s _ _ _ _ (hr.mono fun _ r l hl => ?_) hpc {}).2 ?_⟩
  · cases r with
    | ok s => exact hl.1
    | error f => trivial
  · rw [ha]
    decide

/-- A model with a dynamic height: onnxruntime makes no tensor of a negative dimension. -/
def dynamicEngine : InferenceEngine := { pixelEngine with inputShape := [1, 3, -1, 1] }

def dynamicPod : Setup (Fin 2) := { onePod with engine := fun _ => dynamicEngine }

/-- The worker takes both jobs and is about to process the first. -/
def takeBoth : List (Label (Fin 2) Nat) := halfBatch.take 7 ++ [(onePod.worker, .run (.clock 0))]

/-- The tensor of the first task throws: the process ends, with the second task in its batch. -/
theorem answered_dynamicPod : ∃ h s,
    (process Nat dynamicPod fun _ => .standardOrt).ReachIf
        (fun _ => Under (Roles dynamicPod 0)) h (.ok s) ∧
      accepted h = [job 4, job 5] ∧ produced h = [] ∧
      s.pc onePod.worker = .engineRun (job 4) (job 4).task [job 5] ∧
      (process Nat dynamicPod fun _ => .standardOrt).step (.ok s)
        (onePod.worker, .run (.engine {})) = some ([], .error .createInput) ∧
      ¬ Answered dynamicPod (fun _ => .standardOrt) s onePod.worker {} (job 4) [job 5] := by
  obtain ⟨h, s, he, ha, hp, hpc, hstep⟩ : ∃ h s, (process Nat dynamicPod fun _ => .standardOrt).exec
      (.ok (impl Nat dynamicPod fun _ => .standardOrt).init)
      (pushJob 4 ++ pushJob 5 ++ takeBoth) = some (h, .ok s) ∧
      accepted h = [job 4, job 5] ∧ produced h = [] ∧
      s.pc onePod.worker = .engineRun (job 4) (job 4).task [job 5] ∧
      (process Nat dynamicPod fun _ => .standardOrt).step (.ok s)
        (onePod.worker, .run (.engine {})) = some ([], .error .createInput) :=
    ⟨_, _, rfl, rfl, rfl, rfl, rfl⟩
  have hr := Lts.ReachIf.along (C := fun _ => Under (Roles dynamicPod 0)) (.init rfl) (by decide) he
  refine ⟨h, s, hr, ha, hp, hpc, hstep, fun ⟨result, s', he', _⟩ => ?_⟩
  obtain ⟨es, r, _, hst, hrest, -⟩ := Lts.exec_cons.1 he'
  rw [hstep] at hst
  cases hst
  cases hrest

end Lumen.Concurrency.ThreadPool
