import Lumen.Concurrency.ThreadPool

/-!
# The steps of the pool

What a step does with the jobs is one of five moves (`Moves`, `run_moves`): a job is accepted, taken
by a worker, made into a result that is pushed or popped, or nothing happens. That a result carries
the descriptor and the trace of its job is what a worker keeps while it holds the job (`Pc.Ok`).

`Threads` says which threads are at work, when the worker threads run their loops once and one
thread shuts the pool down: when a call of `shutdown` has returned, every worker thread has ended.
-/

set_option autoImplicit false

namespace Lumen.Concurrency.ThreadPool

open Lumen.Lib Lumen.Lib.Shared Lumen.Core

variable {ι κ : Type*}

/-! ## Histories -/

namespace Obs

def acceptedJob : Obs κ → Option (Job κ)
  | .accepted job => some job
  | _ => none

def producedResult : Obs κ → Option (Job κ × InferenceResult)
  | .produced job result => some (job, result)
  | _ => none

def poppedResult : Obs κ → Option (Job κ × InferenceResult)
  | .popped job result => some (job, result)
  | _ => none

end Obs

/-- What is observed, in order. -/
def observed (h : List (Event ι κ)) : List (Obs κ) :=
  h.filterMap fun
    | .obs _ o => some o
    | _ => none

/-- The jobs whose push was accepted. -/
def accepted (h : List (Event ι κ)) : List (Job κ) := (observed h).filterMap Obs.acceptedJob

/-- The results pushed to the response queue, with their jobs. -/
def produced (h : List (Event ι κ)) : List (Job κ × InferenceResult) :=
  (observed h).filterMap Obs.producedResult

/-- The results popped from the response queue, with their jobs. -/
def popped (h : List (Event ι κ)) : List (Job κ × InferenceResult) :=
  (observed h).filterMap Obs.poppedResult

@[simp] theorem observed_append (h h' : List (Event ι κ)) :
    observed (h ++ h') = observed h ++ observed h' := List.filterMap_append

@[simp] theorem observed_call (i : ι) (op : Op κ) :
    observed [(.call i op : Event ι κ)] = [] := rfl

@[simp] theorem observed_events (i : ι) (o : Outcome ι κ) : observed (o.events i) = o.obs := by
  cases hr : o.ret <;>
    simp [observed, Shared.Outcome.events, hr, List.filterMap_append, List.filterMap_map]

theorem observed_operation (i : ι) (op : Op κ) (o : Outcome ι κ) :
    observed (.call i op :: o.events i) = o.obs := by
  rw [← List.singleton_append, observed_append, observed_call, observed_events, List.nil_append]

/-! ## Program counters -/

/-- The result is what an engine of the pool has returned for the task of the job, with the trace of
the job; only the waiting time of the trace is set before. -/
def Made (setup : Setup ι) (job : Job κ) (result : InferenceResult) : Prop :=
  ∃ i env trace allocator allocator', SameTrace trace job.task.trace ∧
    (setup.engine i).run env { job.task with trace := trace } allocator = .ok (result, allocator')

/-- The result goes to the client of the job, with the trace of the job. -/
def Carries (job : Job κ) (result : InferenceResult) : Prop :=
  result.clientFd = job.task.clientFd ∧ SameTrace result.trace job.task.trace

theorem Made.carries {setup : Setup ι} {job : Job κ} {result : InferenceResult}
    (hm : Made setup job result) : Carries job result := by
  obtain ⟨i, env, trace, allocator, allocator', ht, hrun⟩ := hm
  rcases InferenceEngine.run_ok hrun with rfl | ⟨_, _, _, response, -, rfl⟩
  · exact ⟨rfl, ht⟩
  · refine ⟨rfl, Eq.trans ?_ ht⟩
    simp only [Option.map_map]
    rfl

namespace Pc

/-- `m_stop` is set by this call of `shutdown`, which has not returned. -/
def joining : Pc ι κ → Bool
  | .stopQueue | .stopJoin _ => true
  | _ => false

/-- The tasks of the batch that the worker has not yet passed to the engine. -/
def batchBuffer : Pc ι κ → List (Job κ)
  | .popBatch batch | .forEach batch | .engineRun _ _ batch | .arenaReset _ _ batch
  | .pushResult _ _ batch => batch
  | .popRelease _ job batch => batch ++ [job]
  | _ => []

/-- The task whose run is not yet over. -/
def currentRun : Pc ι κ → List (Job κ)
  | .engineRun job _ _ | .arenaReset job _ _ | .pushResult job _ _ => [job]
  | _ => []

/-- The tasks in the hands of the worker. -/
def hand (p : Pc ι κ) : List (Job κ) := p.currentRun ++ p.batchBuffer

def working : Pc ι κ → Bool
  | .loopTest | .popBatch _ | .popRelease _ _ _ | .forEach _ | .engineRun _ _ _ | .arenaReset _ _ _
  | .pushResult _ _ _ | .loopEnd => true
  | _ => false

def stopping : Pc ι κ → Bool
  | .stopTest | .stopStore | .stopQueue | .stopJoin _ => true
  | _ => false

/-- The worker has with it what belongs to its job. -/
def Ok (setup : Setup ι) : Pc ι κ → Prop
  | .engineRun job task _ =>
    task = { job.task with trace := task.trace } ∧ SameTrace task.trace job.task.trace
  | .arenaReset job result _ | .pushResult job result _ => Made setup job result
  | _ => True

theorem stopping_of_joining {p : Pc ι κ} (h : p.joining = true) : p.stopping = true := by
  cases p <;> first | rfl | cases h

theorem hand_of_working {p : Pc ι κ} (h : p.working = false) : p.hand = [] := by
  cases p <;> first | rfl | cases h

end Pc

/-! ## The steps -/

/-- What a step of a thread, from `h0` in its hands to `h1`, does with the jobs: nothing, or one of
them moves on. -/
inductive Moves (setup : Setup ι) (h0 h1 : List (Job κ)) (m m' : Mem ι κ) : List (Obs κ) → Prop
  | stay : h1 = h0 → m'.queue.tasks = m.queue.tasks → m'.results = m.results →
      Moves setup h0 h1 m m' []
  | accept (job : Job κ) : h1 = h0 → m'.queue.tasks = m.queue.tasks ++ [job] →
      m'.results = m.results → Moves setup h0 h1 m m' [.accepted job]
  | take (job : Job κ) : h1 = h0 ++ [job] → m.queue.tasks = job :: m'.queue.tasks →
      m'.results = m.results → Moves setup h0 h1 m m' []
  | produce (job : Job κ) (result : InferenceResult) : h0 = job :: h1 → Made setup job result →
      m'.queue.tasks = m.queue.tasks → m'.results = m.results ++ [(job, result)] →
      Moves setup h0 h1 m m' [.produced job result]
  | pop (job : Job κ) (result : InferenceResult) : h1 = h0 → m'.queue.tasks = m.queue.tasks →
      m.results = (job, result) :: m'.results → Moves setup h0 h1 m m' [.popped job result]

namespace Moves

variable {setup : Setup ι} {h0 h1 : List (Job κ)} {m m' : Mem ι κ} {os : List (Obs κ)}

/-- No job appears or gets lost. -/
theorem jobs (hm : Moves setup h0 h1 m m' os) :
    (m.queue.tasks ++ (h0 ++ os.filterMap Obs.acceptedJob)).Perm
      (m'.queue.tasks ++ (h1 ++ (os.filterMap Obs.producedResult).map Prod.fst)) := by
  cases hm with
  | stay hh hq =>
    rw [hh, hq]
    exact .refl _
  | accept job hh hq =>
    rw [hh, hq, List.append_assoc]
    refine .append_left _ ?_
    simp [List.filterMap_cons, Obs.acceptedJob, Obs.producedResult]
  | take job hh hq =>
    rw [hh, hq]
    simpa [Obs.acceptedJob] using
      (List.perm_append_singleton job (m'.queue.tasks ++ h0)).symm
  | produce job result hh _ hq =>
    rw [hh, hq]
    refine .append_left _ ?_
    simpa [List.filterMap_cons, Obs.acceptedJob, Obs.producedResult] using
      (List.perm_append_singleton job h1).symm
  | pop job result hh hq =>
    rw [hh, hq]
    exact .refl _

/-- The results leave in the order in which they come. -/
theorem results (hm : Moves setup h0 h1 m m' os) :
    m.results ++ os.filterMap Obs.producedResult =
      os.filterMap Obs.poppedResult ++ m'.results := by
  cases hm <;> simp [*, List.filterMap_cons, Obs.producedResult, Obs.poppedResult]

theorem made (hm : Moves setup h0 h1 m m' os) :
    ∀ x ∈ os.filterMap Obs.producedResult, Made setup x.1 x.2 := by
  cases hm <;> simp [*, List.filterMap_cons, Obs.producedResult]

end Moves

section
variable {setup : Setup ι} {i : ι} {m : Mem ι κ} {c : Choice} {p : Pc ι κ} {o : Outcome ι κ}
  {batch : List (Job κ)}

theorem push_moves (job : Job κ) :
    Moves setup [] [] m (push setup m job).mem (push setup m job).obs := by
  simp only [push, TaskQueue.push]
  split
  · exact .stay rfl rfl rfl
  · exact .accept job rfl rfl rfl

theorem popImmediate_moves : Moves setup [] (popImmediate m : Outcome ι κ).pc.hand m
    (popImmediate m).mem (popImmediate m).obs ∧ (popImmediate m : Outcome ι κ).pc.Ok setup := by
  unfold popImmediate
  split
  · exact ⟨.stay rfl rfl rfl, trivial⟩
  · exact ⟨.pop _ _ rfl rfl (by assumption), trivial⟩

theorem popBatch_moves (ho : popBatch setup m c batch = some o) :
    Moves setup batch o.pc.hand m o.mem o.obs ∧ o.pc.Ok setup := by
  unfold popBatch at ho
  split at ho
  · split at ho
    · split at ho
      · rename_i ticket job queue htake
        cases ho
        exact ⟨.take job rfl (TaskQueue.take_some htake).1 rfl, trivial⟩
      · cases ho
    · cases ho
  · split at ho
    · cases ho
      refine ⟨.stay ?_ rfl rfl, ?_⟩
      · split
        · exact (List.length_eq_zero_iff.1 (by assumption)).symm
        · rfl
      · split <;> trivial
    · cases ho
  · cases ho

theorem forEach_moves (ho : forEach m c batch = some o) :
    Moves setup batch o.pc.hand m o.mem o.obs ∧ o.pc.Ok setup := by
  unfold forEach at ho
  split at ho
  · cases ho
    exact ⟨.stay rfl rfl rfl, trivial⟩
  · split at ho
    · cases ho
      refine ⟨.stay rfl rfl rfl, rfl, ?_⟩
      simp only [SameTrace, Option.map_map]
      rfl
    · cases ho

variable [DecidableEq ι]

theorem engineRun_moves {job : Job κ} {task : InferenceTask}
    (ho : engineRun setup i m c job task batch = some o)
    (hok : (Pc.engineRun job task batch : Pc ι κ).Ok setup) :
    Moves setup (job :: batch) o.pc.hand m o.mem o.obs ∧ o.pc.Ok setup := by
  unfold engineRun at ho
  split at ho
  · split at ho
    · rename_i result allocator hrun
      cases ho
      exact ⟨.stay rfl rfl rfl, i, _, task.trace, _, _, hok.2, hok.1 ▸ hrun⟩
    · cases ho
  · cases ho

omit [DecidableEq ι] in
theorem stopJoin_moves [DecidableEq ι] {workers : List ι} (ho : stopJoin m workers = some o) :
    Moves setup [] o.pc.hand m o.mem o.obs ∧ o.pc.Ok setup := by
  unfold stopJoin at ho
  (repeat' split at ho) <;> cases ho <;> exact ⟨.stay rfl rfl rfl, trivial⟩

/-- What a step of any thread does with the jobs. -/
theorem run_moves (ho : run setup i m c p = some o) (hok : p.Ok setup) :
    Moves setup p.hand o.pc.hand m o.mem o.obs ∧ o.pc.Ok setup := by
  cases p <;> simp only [run] at ho
  case idle => cases ho
  case push job =>
    cases ho
    exact ⟨push_moves job, trivial⟩
  case popImmediate =>
    cases ho
    exact popImmediate_moves
  case loopTest =>
    cases ho
    refine ⟨.stay ?_ rfl rfl, ?_⟩ <;> simp only <;> split <;> trivial
  case popBatch batch => exact popBatch_moves ho
  case popRelease ticket job batch =>
    cases ho
    exact ⟨.stay rfl rfl rfl, trivial⟩
  case forEach batch => exact forEach_moves ho
  case engineRun job task batch => exact engineRun_moves ho hok
  case arenaReset job result batch =>
    cases ho
    exact ⟨.stay rfl rfl rfl, hok⟩
  case pushResult job result batch =>
    cases ho
    exact ⟨.produce job result rfl hok rfl rfl, trivial⟩
  case stopTest =>
    split at ho <;> cases ho <;> exact ⟨.stay rfl rfl rfl, trivial⟩
  case stopJoin workers => exact stopJoin_moves ho
  all_goals
    cases ho
    exact ⟨.stay rfl rfl rfl, trivial⟩

/-- A thread stays in the operation it performs; a worker thread ends with it. -/
theorem run_class (ho : run setup i m c p = some o) :
    (o.pc.working = true → p.working = true) ∧ (o.pc.stopping = true → p.stopping = true) ∧
      (o.mem.ended = m.ended ∨
        (p.working = true ∧ o.pc.working = false ∧ o.mem.ended = i :: m.ended)) := by
  cases p <;> simp only [run, push, popImmediate, popBatch, forEach, engineRun, stopJoin] at ho
  all_goals
    (repeat' split at ho) <;> cases ho <;> simp [Pc.working, Pc.stopping]

/-- A worker neither pushes tasks nor pops results nor closes the queue; it works on or ends. -/
theorem run_working (ho : run setup i m c p = some o) (hp : p.working = true) :
    o.obs.filterMap Obs.acceptedJob = [] ∧ o.obs.filterMap Obs.poppedResult = [] ∧
      o.mem.queue.stopped = m.queue.stopped ∧ (o.pc.working = true ∨ o.pc = .idle) := by
  cases p <;> simp only [Pc.working, Bool.false_eq_true] at hp <;>
    simp only [run, popBatch, forEach, engineRun] at ho
  case popBatch batch =>
    split at ho
    · split at ho
      · split at ho
        · rename_i htake
          cases ho
          exact ⟨rfl, rfl, (TaskQueue.take_some htake).2.2.1, .inl rfl⟩
        · cases ho
      · cases ho
    · split at ho
      · cases ho
        refine ⟨rfl, rfl, rfl, ?_⟩
        simp only
        split <;> exact .inl rfl
      · cases ho
    · cases ho
  all_goals
    (repeat' split at ho) <;> cases ho <;>
      simp [Pc.working, Obs.acceptedJob, Obs.poppedResult, TaskQueue.release]

/-- Who changes the flags, and when `shutdown` returns. -/
theorem run_flags (ho : run setup i m c p = some o) :
    (o.mem.stop = true → m.stop = true ∨ o.pc.joining = true) ∧
      (p.joining = true → o.pc.joining = true ∨ p = .stopJoin []) ∧
      (∀ w, w ∈ m.joinable → w ∈ o.mem.joinable ∨ w ∈ m.ended) ∧
      (∀ ws, o.pc = .stopJoin ws → ws = setup.workers ∨
        ∃ w, p = .stopJoin (w :: ws) ∧ (w ∉ m.joinable ∨ w ∈ m.ended)) ∧
      (o.ret = some .stopped → (p = .stopTest ∧ m.stop = true) ∨ p = .stopJoin []) := by
  cases p <;> simp only [run, push, popImmediate, popBatch, forEach, engineRun, stopJoin] at ho
  case stopJoin workers =>
    split at ho
    · cases ho
      exact ⟨.inl, fun _ => .inr rfl, fun w => .inl, fun ws hw => (by cases hw), fun _ => .inr rfl⟩
    · rename_i w ws
      split at ho <;> rename_i hj
      · split at ho <;> rename_i he
        · cases ho
          refine ⟨.inl, fun _ => .inl rfl, fun v hv => ?_, fun ws' hw => ?_, fun hr => by cases hr⟩
          · by_cases hvw : v = w
            · exact .inr (hvw ▸ he)
            · exact .inl ((List.mem_erase_of_ne hvw).2 hv)
          · cases hw
            exact .inr ⟨w, rfl, .inr he⟩
        · cases ho
      · cases ho
        refine ⟨.inl, fun _ => .inl rfl, fun v => .inl, fun ws' hw => ?_, fun hr => by cases hr⟩
        cases hw
        exact .inr ⟨w, rfl, .inl hj⟩
  all_goals
    (repeat' split at ho) <;> cases ho <;> simp_all [Pc.joining]

end

/-! ## The threads -/

/-- Every worker thread has ended. -/
def AllEnded (setup : Setup ι) (s : State ι κ) : Prop := ∀ w ∈ setup.workers, w ∈ s.mem.ended

structure Threads (setup : Setup ι) (mn : ι) (h : List (Event ι κ)) (s : State ι κ) : Prop where
  worker : ∀ i, (s.pc i).working = true → i ∈ setup.workers
  stopper : ∀ i, (s.pc i).stopping = true → i = mn
  ended : ∀ i ∈ s.mem.ended, (s.pc i).working = false
  joinable : ∀ w ∈ setup.workers, w ∈ s.mem.joinable ∨ w ∈ s.mem.ended
  joining : ∀ i ws, s.pc i = .stopJoin ws → ∀ w ∈ setup.workers, w ∈ ws ∨ w ∈ s.mem.ended
  stopped : s.mem.stop = true → (s.pc mn).joining = true ∨ AllEnded setup s
  returned : ∀ i, .ret i .stopped ∈ h → AllEnded setup s

namespace Threads

variable [DecidableEq ι] {setup : Setup ι} {allocator : ι → Allocator} {mn i : ι}
  {h : List (Event ι κ)} {s s' : State ι κ}

theorem init : Threads setup mn [] (impl κ setup allocator).init where
  worker i hw := by cases hw
  stopper i hs := by cases hs
  ended i hi := by cases hi
  joinable w hw := .inl hw
  joining i ws hj := by cases hj
  stopped hs := by cases hs
  returned i hi := by cases hi

theorem call (ht : Threads setup mn h s) {op : Op κ} (hpc : s.pc i = .idle)
    (hop : Roles setup mn s (i, .call op)) :
    Threads setup mn (h ++ [.call i op]) ⟨s.mem, Function.update s.pc i (entry op)⟩ where
  worker := forall_update (P := fun j (p : Pc ι κ) => p.working = true → j ∈ setup.workers)
    (fun hw => by cases op <;> first | exact hop.1 | cases hw) fun j _ => ht.worker j
  stopper := forall_update (P := fun j (p : Pc ι κ) => p.stopping = true → j = mn)
    (fun hs => by cases op <;> first | exact hop | cases hs) fun j _ => ht.stopper j
  ended := by
    intro j hj
    by_cases hji : j = i
    · subst hji
      simp only [Function.update_self]
      cases op with
      | workerLoop => exact absurd hj hop.2
      | shutdown => rfl
      | push => rfl
      | popImmediate => rfl
    · simpa only [Function.update_of_ne hji] using ht.ended j hj
  joinable := ht.joinable
  joining := forall_update (P := fun j (p : Pc ι κ) => ∀ ws, p = .stopJoin ws →
      ∀ w ∈ setup.workers, w ∈ ws ∨ w ∈ s.mem.ended)
    (fun ws hp => by cases op <;> cases hp) fun j _ => ht.joining j
  stopped hs := by
    refine (ht.stopped hs).imp_left fun hj => ?_
    have hmn : mn ≠ i := by
      rintro rfl
      rw [hpc] at hj
      cases hj
    simpa only [Function.update_of_ne hmn] using hj
  returned j hj := ht.returned j ((List.mem_append.1 hj).resolve_right (by simp))

theorem run (ht : Threads setup mn h s) {c : Choice} {o : Outcome ι κ}
    (ho : ThreadPool.run setup i s.mem c (s.pc i) = some o) :
    Threads setup mn (h ++ o.events i) ⟨o.mem, Function.update s.pc i o.pc⟩ := by
  obtain ⟨hwork, hstop, hended⟩ := run_class ho
  obtain ⟨hflag, hjoining, hjoinable, hrest, hret⟩ := run_flags ho
  have hmono : ∀ j, j ∈ s.mem.ended → j ∈ o.mem.ended := fun j hj => by
    rcases hended with he | ⟨-, -, he⟩
    · exact he ▸ hj
    · exact he ▸ List.mem_cons_of_mem _ hj
  have hall : AllEnded setup s → ∀ w ∈ setup.workers, w ∈ o.mem.ended := fun ha w hw =>
    hmono w (ha w hw)
  have hlast : s.pc i = .stopJoin [] → AllEnded setup s := fun hp w hw =>
    (ht.joining i [] hp w hw).resolve_left (List.not_mem_nil)
  refine ⟨?_, ?_, fun j hj => ?_, fun w hw => ?_, ?_, fun hs => ?_, fun j hj => ?_⟩
  · exact forall_update (P := fun j (p : Pc ι κ) => p.working = true → j ∈ setup.workers)
      (fun h' => ht.worker i (hwork h')) fun j _ => ht.worker j
  · exact forall_update (P := fun j (p : Pc ι κ) => p.stopping = true → j = mn)
      (fun h' => ht.stopper i (hstop h')) fun j _ => ht.stopper j
  · have hcase : (j ∈ s.mem.ended) ∨ (j = i ∧ (s.pc i).working = true ∧ o.pc.working = false) := by
      rcases hended with he | ⟨hp, hp', he⟩
      · exact .inl (he ▸ hj)
      · rcases List.mem_cons.1 (he ▸ hj) with rfl | hj
        · exact .inr ⟨rfl, hp, hp'⟩
        · exact .inl hj
    rcases hcase with he | ⟨rfl, hp, hp'⟩
    · have hw := ht.ended j he
      by_cases hji : j = i
      · subst hji
        simp only [Function.update_self]
        rw [Bool.eq_false_iff] at hw ⊢
        exact fun h' => hw (hwork h')
      · simpa only [Function.update_of_ne hji] using hw
    · simpa only [Function.update_self] using hp'
  · rcases ht.joinable w hw with hj | he
    · exact (hjoinable w hj).imp_right (hmono w)
    · exact .inr (hmono w he)
  · refine forall_update (P := fun j (p : Pc ι κ) => ∀ ws, p = .stopJoin ws →
      ∀ w ∈ setup.workers, w ∈ ws ∨ w ∈ o.mem.ended) (fun ws hp w hw => ?_) fun j _ ws hp w hw =>
        (ht.joining j ws hp w hw).imp_right (hmono w)
    rcases hrest ws hp with rfl | ⟨v, hpv, hv⟩
    · exact .inl hw
    · rcases ht.joining i _ hpv w hw with hmem | he
      · rcases List.mem_cons.1 hmem with rfl | hmem
        · rcases hv with hv | hv
          · exact .inr (hmono w ((ht.joinable w hw).resolve_left hv))
          · exact .inr (hmono w hv)
        · exact .inl hmem
      · exact .inr (hmono w he)
  · change (Function.update s.pc i o.pc mn).joining = true ∨ _
    by_cases hmn : mn = i
    · subst hmn
      rw [Function.update_self]
      rcases hflag hs with hs | hj
      · rcases ht.stopped hs with hj | ha
        · exact (hjoining hj).imp_right fun hp => hall (hlast hp)
        · exact .inr (hall ha)
      · exact .inl hj
    · rw [Function.update_of_ne hmn]
      rcases hflag hs with hs | hj
      · exact (ht.stopped hs).imp_right hall
      · exact absurd (ht.stopper i (hstop (Pc.stopping_of_joining hj))).symm hmn
  · rcases List.mem_append.1 hj with hj | hj
    · exact hall (ht.returned j hj)
    · have hr : o.ret = some .stopped := (Shared.Outcome.ret_mem.1 hj).2
      rcases hret hr with ⟨hp, hs⟩ | hp
      · refine hall ((ht.stopped hs).resolve_left ?_)
        rw [← ht.stopper i (by rw [hp]; rfl), hp]
        exact Bool.false_ne_true
      · exact hall (hlast hp)

end Threads

end Lumen.Concurrency.ThreadPool
