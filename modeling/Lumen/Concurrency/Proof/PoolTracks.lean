import Lumen.Concurrency.AtomicTaskQueue
import Lumen.Concurrency.Proof.PoolCalls
import Lumen.Lib.Lagging

/-!
# The pool over its queues, and the pool that has them inside

The pool over the task queue and the result queue as objects, whose operations take effect at one
point between their call and their return, against `ThreadPool.run`, where they are one step: this
pool moves at that point, and is ahead until the operation has returned.
-/

set_option autoImplicit false

namespace Lumen.Concurrency.ThreadPool

open Lumen.Lib Lumen.Lib.Shared Lumen.Core

section
variable {ι : Type*}

/-! ## The relation -/

/-- The pool `m` with a task queue and a response queue. -/
def Mem.join {κ κ' : Type*} (m : Mem ι κ) (queue : TaskQueue κ')
    (results : List (Job κ' × InferenceResult)) : Mem ι κ' :=
  { stop := m.stop, queue := queue, results := results, allocator := m.allocator,
    ended := m.ended, joinable := m.joinable }

/-- The points at which a thread of the pool is in its own code. -/
def Pc.Own : Pc ι Unit → Prop
  | .popBatch (_ :: _) | .popRelease .. => False
  | _ => True

/-- A thread over the queues. -/
abbrev ObjectSite (ι : Type*) := Impl.Site (Pc ι Unit)
  (Impl.Side AtomicTaskQueue.Pc (Impl.AtomicPc ResultQueue.Op ResultQueue.Ret))

/-- Where the thread of the pool is when a thread over its queues is at a point. -/
inductive At (setup : Setup ι) : ObjectSite ι → Pc ι Unit → Prop
  | own {p : Pc ι Unit} : p.Own → At setup (.own p) p
  | pushTest (job : Job Unit) :
      At setup (.inside (.push job) (.fst (.pushTest job.task))) (.push job)
  | push (job : Job Unit) : At setup (.inside (.push job) (.fst (.push job.task))) (.push job)
  | pushed (job : Job Unit) (accepted : Bool) :
      At setup (.inside (.push job) (.fst (.answer (.bool accepted)))) .idle
  | pop (taken : List InferenceTask) :
      At setup (.inside (.popBatch []) (.fst (.pop (.batch taken setup.batchSize))))
        (.popBatch (taken.map .plain))
  | release (taken : List InferenceTask) (ticket : Nat) (task : InferenceTask) :
      At setup (.inside (.popBatch []) (.fst (.release (.batch taken setup.batchSize) ticket task)))
        (.popRelease ticket (.plain task) (taken.map .plain))
  | batch (batch : List InferenceTask) :
      At setup (.inside (.popBatch []) (.fst (.answer (.batch batch))))
        (if batch.length = 0 then .loopTest else .forEach (batch.map .plain))
  | result (job : Job Unit) (result : InferenceResult) (batch : List (Job Unit)) :
      At setup (.inside (.pushResult job result batch) (.snd (.call (.push result))))
        (.pushResult job result batch)
  | produced (job : Job Unit) (result : InferenceResult) (batch : List (Job Unit)) :
      At setup (.inside (.pushResult job result batch) (.snd (.answer .unit))) (.forEach batch)
  | immediate : At setup (.inside .popImmediate (.snd (.call .popImmediate))) .popImmediate
  | popped (result : Option InferenceResult) :
      At setup (.inside .popImmediate (.snd (.answer (.result result)))) .idle
  | close : At setup (.inside .stopQueue (.fst .shutdown)) .stopQueue
  | closed : At setup (.inside .stopQueue (.fst (.answer .unit))) (.stopJoin setup.workers)

/-- What a thread over the queues is yet to show: an operation has taken effect. -/
def pending : ObjectSite ι → List (Obs Unit ⊕ Ret)
  | .inside (.push job) (.fst (.answer (.bool accepted))) =>
    (if accepted then [.inl (.accepted job)] else []) ++ [.inr (.pushed accepted)]
  | .inside (.pushResult job result _) (.snd (.answer _)) => [.inl (.produced job result)]
  | .inside .popImmediate (.snd (.answer (.result result))) => [.inr (.popped result)]
  | _ => []

/-- What both show: the thread that pops a result does not see its job. -/
def Obs.seen : Obs Unit → Option (Obs Unit)
  | .popped .. => none
  | o => some o

/-- The state of a pool over its queues. -/
abbrev ObjectState (ι : Type*) :=
  Shared.State ι (Mem ι Unit × (TaskQueue Unit × ResultQueue.Value)) (ObjectSite ι)

structure Tracks (setup : Setup ι) (s : ObjectState ι) (t : State ι Unit) : Prop where
  mem : ∃ results, t.mem = s.mem.1.join s.mem.2.1 results ∧
    results.map Prod.snd = s.mem.2.2.results
  pc : ∀ i, At setup (s.pc i) (t.pc i)
  closed : s.mem.2.1.stopped = true → s.mem.1.stop = true

/-! ## The own code of the pool -/

variable [DecidableEq ι] {setup : Setup ι} {i : ι} {m : Mem ι Unit} {c : Choice} {p : Pc ι Unit}

/-- Outside its calls the pool does not look at the queues. -/
theorem run_own (queue : TaskQueue Unit) (results : List (Job Unit × InferenceResult))
    {o : Outcome ι Unit} (hinv : invoke setup p = none) (hown : p.Own)
    (ho : run setup i m c p = some o) :
    run setup i (m.join queue results) c p = some { o with mem := o.mem.join queue results } ∧
      o.pc.Own ∧ (m.stop = true → o.mem.stop = true) := by
  cases p <;> simp only [invoke, reduceCtorEq] at hinv <;>
    simp only [run, forEach, engineRun, stopJoin] at ho ⊢
  case popBatch batch =>
    cases batch with
    | nil => cases hinv
    | cons => cases hown
  case popRelease => cases hown
  case loopTest =>
    cases ho
    refine ⟨rfl, ?_, id⟩
    simp only
    split <;> trivial
  case forEach batch =>
    cases batch with
    | nil =>
      cases ho
      exact ⟨rfl, trivial, id⟩
    | cons job batch =>
      cases c <;> simp only [reduceCtorEq] at ho
      cases ho
      exact ⟨rfl, trivial, id⟩
  case engineRun job task batch =>
    cases c <;> simp only [reduceCtorEq] at ho
    split at ho <;> rename_i hrun <;> cases ho
    refine ⟨?_, trivial, id⟩
    simp only [Mem.join, hrun]
  case stopTest =>
    split at ho <;> rename_i hs <;> cases ho
    · exact ⟨by simp [Mem.join, hs], trivial, id⟩
    · exact ⟨by simp [Mem.join, hs], trivial, id⟩
  case stopJoin workers =>
    cases workers with
    | nil =>
      cases ho
      exact ⟨rfl, trivial, id⟩
    | cons w ws =>
      simp only at ho
      split at ho <;> rename_i hj
      · split at ho <;> rename_i he <;> cases ho
        exact ⟨by simp [Mem.join, hj, he], trivial, id⟩
      · cases ho
        exact ⟨by simp [Mem.join, hj], trivial, id⟩
  all_goals cases ho
  all_goals
    first
      | exact ⟨rfl, trivial, id⟩
      | exact ⟨rfl, trivial, fun _ => rfl⟩

/-! ## The steps -/

variable {allocator : ι → Allocator} {mn : ι} {s : ObjectState ι} {t : State ι Unit}

theorem Tracks.move (ht : Tracks setup s t) {m : Mem ι Unit × (TaskQueue Unit × ResultQueue.Value)}
    {x : ObjectSite ι} {p : Pc ι Unit} (results : List (Job Unit × InferenceResult))
    (hres : results.map Prod.snd = m.2.2.results) (hx : At setup x p)
    (hclosed : m.2.1.stopped = true → m.1.stop = true) :
    Tracks setup (s.moved i m x) (t.moved i (m.1.join m.2.1 results) p) :=
  ⟨⟨results, rfl, hres⟩, State.pcs_moved (P := fun _ => At setup) hx fun j _ => ht.pc j, hclosed⟩

/-- The pool over a task queue and a result queue as objects. -/
abbrev objects (setup : Setup ι) (allocator : ι → Allocator) :=
  overQueues setup allocator (AtomicTaskQueue.impl ι setup.kind) (ResultQueue.impl ι)

/-- What a step of a thread over the queues does in the pool. -/
def Matches (setup : Setup ι) (allocator : ι → Allocator) (i : ι) (s : ObjectState ι)
    (t : State ι Unit)
    (o : Shared.Outcome (Mem ι Unit × (TaskQueue Unit × ResultQueue.Value)) Ret (Obs Unit)
      (.own .idle : ObjectSite ι)) : Prop :=
  ∃ os r n p, (impl Unit setup allocator).Moves i t.mem (t.pc i) os r n p ∧
    pending (s.pc i) ++ shown (os.filterMap Obs.seen) r =
      shown (o.obs.filterMap Obs.seen) o.ret ++ pending o.pc ∧
    Tracks setup (s.moved i o.mem o.pc) (t.moved i n p)

/-- A step of the own code: a call of a queue, or a step of the pool. -/
theorem Tracks.own (ht : Tracks setup s t) {p : Pc ι Unit} (hown : p.Own) (hs : s.pc i = .own p)
    (hp : t.pc i = p) {c : Impl.Turn Choice (AtomicTaskQueue.Choice ⊕ Unit)}
    {o : Shared.Outcome _ Ret (Obs Unit) (objects setup allocator).idle}
    (ho : (objects setup allocator).run i s.mem c (.own p) = some o) :
    Matches setup allocator i s t o := by
  obtain ⟨results, hmem, hres⟩ := ht.mem
  have hpend : pending (s.pc i) = [] := by rw [hs]; rfl
  cases hinv : invoke setup p with
  | some op =>
    obtain ⟨-, rfl⟩ := (Impl.atop_call hinv).1 ho
    have hat : At setup (.inside p ((AtomicTaskQueue.impl ι setup.kind).pair
        (ResultQueue.impl ι) |>.entry op)) p ∧
        pending (.inside p ((AtomicTaskQueue.impl ι setup.kind).pair
          (ResultQueue.impl ι) |>.entry op)) = [] := by
      cases p <;> simp only [invoke, reduceCtorEq] at hinv
      case popBatch batch =>
        cases batch with
        | nil =>
          cases hinv
          exact ⟨.pop [], rfl⟩
        | cons => cases hinv
      all_goals cases hinv
      · exact ⟨.pushTest _, rfl⟩
      · exact ⟨.immediate, rfl⟩
      · exact ⟨.result _ _ _, rfl⟩
      · exact ⟨.close, rfl⟩
    refine ⟨[], none, _, _, .stay, ?_, ?_⟩
    · rw [hpend, hat.2]
      rfl
    · rw [hmem, hp]
      exact ht.move results hres hat.1 ht.closed
  | none =>
    obtain ⟨c, o, -, ho', rfl⟩ := (Impl.atop_own hinv).1 ho
    obtain ⟨hrun, hown', hstop⟩ := run_own s.mem.2.1 results hinv hown ho'
    refine ⟨o.obs, o.ret, _, _, ?_, ?_, ht.move results hres (.own hown') fun h => ?_⟩
    · rw [hmem, hp]
      exact .one (A := impl Unit setup allocator) (c := c) hrun
    · rw [hpend]
      simp [Impl.ownOutcome, pending]
    · exact hstop (ht.closed h)

/-- A step with which nothing happens in the pool. -/
theorem Tracks.stays (ht : Tracks setup s t) {m : Mem ι Unit × (TaskQueue Unit × ResultQueue.Value)}
    {x : ObjectSite ι} {results : List (Job Unit × InferenceResult)}
    (hmem : t.mem = m.1.join m.2.1 results) (hres : results.map Prod.snd = m.2.2.results)
    (hpend : pending (s.pc i) = pending x) (hat : At setup x (t.pc i))
    (hclosed : m.2.1.stopped = true → m.1.stop = true) :
    Matches setup allocator i s t { mem := m, pc := x } := by
  refine ⟨[], none, _, _, .stay, ?_, ?_⟩
  · rw [hpend]
    exact List.append_nil _
  · rw [hmem]
    exact ht.move results hres hat hclosed

/-- A step with which an operation takes effect. -/
theorem Tracks.acts (ht : Tracks setup s t) {m : Mem ι Unit × (TaskQueue Unit × ResultQueue.Value)}
    {x : ObjectSite ι} {results results' : List (Job Unit × InferenceResult)} {p : Pc ι Unit}
    {o : Outcome ι Unit} (hmem : t.mem = s.mem.1.join s.mem.2.1 results) (hp : t.pc i = p)
    (hrun : run setup i (s.mem.1.join s.mem.2.1 results) c p = some o)
    (hmem' : o.mem = m.1.join m.2.1 results') (hres : results'.map Prod.snd = m.2.2.results)
    (hpend : pending (s.pc i) ++ shown (o.obs.filterMap Obs.seen) o.ret = pending x)
    (hat : At setup x o.pc) (hclosed : m.2.1.stopped = true → m.1.stop = true) :
    Matches setup allocator i s t { mem := m, pc := x } := by
  refine ⟨o.obs, o.ret, o.mem, o.pc, ?_, ?_, ?_⟩
  · rw [hp, hmem]
    exact .one (A := impl Unit setup allocator) hrun
  · rw [hpend]
    rfl
  · rw [hmem']
    exact ht.move results' hres hat hclosed

omit [DecidableEq ι] in
theorem push_refused {m : Mem ι Unit} {job : Job Unit}
    (h : m.queue.closed setup.kind ∨ m.queue.full setup.kind) :
    push setup m job = { obs := [], ret := some (.pushed false), mem := m } := by
  simp [push, TaskQueue.push, h]

omit [DecidableEq ι] in
theorem push_accepted {m : Mem ι Unit} {job : Job Unit} (hs : m.queue.closed setup.kind = false)
    (hf : m.queue.full setup.kind = false) : push setup m job =
      { obs := [.accepted job], ret := some (.pushed true),
        mem := { m with queue := { m.queue with tasks := m.queue.tasks ++ [job],
                                                accepted := m.queue.accepted + 1 } } } := by
  simp [push, TaskQueue.push, hs, hf]

/-- An operation of the task queue goes on. -/
theorem Tracks.queueStep (ht : Tracks setup s t) (hcall : Callers setup mn s) {p : Pc ι Unit}
    {q : AtomicTaskQueue.Pc} (hs : s.pc i = .inside p (.fst q)) {c : AtomicTaskQueue.Choice}
    {o : AtomicTaskQueue.Outcome} (ho : AtomicTaskQueue.run setup.kind s.mem.2.1 c q = some o)
    (hr : o.ret = none) :
    Matches setup allocator i s t
      { mem := (s.mem.1, (o.mem, s.mem.2.2)), pc := .inside p (.fst o.pc) } := by
  obtain ⟨results, hmem, hres⟩ := ht.mem
  have hat := ht.pc i
  rw [hs] at hat
  have hclosed := ht.closed
  generalize hp : t.pc i = p' at hat
  cases hat with
  | pushTest job =>
    simp only [AtomicTaskQueue.run, Option.some.injEq] at ho
    subst ho
    cases hc : s.mem.2.1.closed setup.kind with
    | true =>
      have hrun : run setup i (s.mem.1.join s.mem.2.1 results) .none (.push job) = some _ :=
        congrArg some (push_refused (.inl hc))
      exact ht.acts hmem hp hrun rfl hres (by rw [hs]; rfl) (.pushed job false) hclosed
    | false =>
      exact ht.stays hmem hres (by rw [hs]; rfl) (by rw [hp]; exact .push job) hclosed
  | push job =>
    simp only [AtomicTaskQueue.run] at ho
    split at ho <;> rename_i hf <;> cases ho
    · have hrun : run setup i (s.mem.1.join s.mem.2.1 results) .none (.push job) = some _ :=
        congrArg some (push_refused (.inr hf))
      exact ht.acts hmem hp hrun rfl hres (by rw [hs]; rfl) (.pushed job false) hclosed
    · -- the thread that closes the queue is this one
      have hopen : s.mem.2.1.stopped = false := by
        rw [Bool.eq_false_iff]
        intro hst
        have := (hcall.pushing i (by rw [hs]; rfl)).2
        rw [hclosed hst] at this
        cases this
      rw [Bool.not_eq_true] at hf
      have hrun : run setup i (s.mem.1.join s.mem.2.1 results) .none (.push job) = some _ :=
        congrArg some (push_accepted (TaskQueue.closed_eq_false _ hopen) hf)
      exact ht.acts hmem hp hrun rfl hres (by rw [hs]; rfl) (.pushed job true) hclosed
  | pop taken =>
    cases c with
    | take =>
      simp only [AtomicTaskQueue.run] at ho
      split at ho <;> rename_i hlt <;> try cases ho
      obtain ⟨⟨ticket, job, queue'⟩, htake, rfl⟩ := Option.map_eq_some_iff.1 ho
      have hrun : run setup i (s.mem.1.join s.mem.2.1 results) .take
          (.popBatch (taken.map .plain)) =
            some { mem := s.mem.1.join queue' results,
                   pc := .popRelease ticket job (taken.map .plain) } := by
        have hlt' : (taken.map Job.plain).length < setup.batchSize := by
          rw [List.length_map]
          exact hlt
        simp only [run, popBatch, if_pos hlt', Mem.join, htake]
      refine ht.acts hmem hp hrun rfl hres (by rw [hs]; rfl) (.release taken ticket job.task)
        fun h => hclosed ?_
      rwa [← (TaskQueue.take_some htake).2.2.1]
    | none =>
      simp only [AtomicTaskQueue.run] at ho
      split at ho <;> rename_i hend <;> cases ho
      have hrun : run setup i (s.mem.1.join s.mem.2.1 results) .none
          (.popBatch (taken.map .plain)) =
            some { mem := s.mem.1.join s.mem.2.1 results,
                   pc := if taken.length = 0 then .loopTest else .forEach (taken.map .plain) } := by
        have hend' : s.mem.2.1.mayEnd setup.kind taken.length setup.batchSize = true := hend
        simp [run, popBatch, Mem.join, hend']
      exact ht.acts hmem hp hrun rfl hres (by rw [hs]; rfl) (.batch taken) hclosed
    | size n => cases ho
  | release taken ticket task =>
    cases ho
    have hrun : run setup i (s.mem.1.join s.mem.2.1 results) .none
        (.popRelease ticket (.plain task) (taken.map .plain)) =
          some { mem := s.mem.1.join (s.mem.2.1.release ticket) results,
                 pc := .popBatch ((taken ++ [task]).map .plain) } := by
      rw [List.map_append]
      rfl
    exact ht.acts hmem hp hrun rfl hres (by rw [hs]; rfl) (.pop (taken ++ [task])) hclosed
  | close =>
    cases ho
    have hrun : run setup i (s.mem.1.join s.mem.2.1 results) .none .stopQueue = some _ := rfl
    exact ht.acts hmem hp hrun rfl hres (by rw [hs]; rfl) .closed
      fun _ => hcall.closing i (by rw [hs]; rfl)
  | pushed | batch | closed =>
    cases ho
    cases hr

/-- An operation of the response queue goes on. -/
theorem Tracks.responseStep (ht : Tracks setup s t) {p : Pc ι Unit}
    {q : Impl.AtomicPc ResultQueue.Op ResultQueue.Ret} (hs : s.pc i = .inside p (.snd q))
    {o : Shared.Outcome ResultQueue.Value ResultQueue.Ret Empty
      (.idle : Impl.AtomicPc ResultQueue.Op ResultQueue.Ret)}
    (ho : (ResultQueue.impl ι).run i s.mem.2.2 () q = some o) (hr : o.ret = none) :
    Matches setup allocator i s t
      { mem := (s.mem.1, (s.mem.2.1, o.mem)), pc := .inside p (.snd o.pc) } := by
  obtain ⟨results, hmem, hres⟩ := ht.mem
  have hat := ht.pc i
  rw [hs] at hat
  generalize hp : t.pc i = p' at hat
  cases hat with
  | result job result batch =>
    obtain rfl := Option.some.inj ho
    have hrun : run setup i (s.mem.1.join s.mem.2.1 results) .none
        (.pushResult job result batch) = some _ := rfl
    refine ht.acts hmem hp hrun rfl ?_ (by rw [hs]; rfl) (.produced job result batch) ht.closed
    simp [Mem.join, hres]
  | immediate =>
    obtain rfl := Option.some.inj ho
    have hrun : run setup i (s.mem.1.join s.mem.2.1 results) .none .popImmediate =
        some (popImmediate (s.mem.1.join s.mem.2.1 results)) := rfl
    cases hresults : results with
    | nil =>
      subst hresults
      rw [← hres]
      exact ht.acts hmem hp hrun rfl rfl (by rw [hs]; rfl) (.popped none) ht.closed
    | cons x rest =>
      subst hresults
      rw [← hres]
      exact ht.acts hmem hp hrun rfl rfl (by rw [hs]; rfl) (.popped (some x.2)) ht.closed
  | produced | popped =>
    cases ho
    cases hr

/-- An operation of a queue returns. -/
theorem Tracks.returns (ht : Tracks setup s t) {p : Pc ι Unit}
    {q : Impl.Side AtomicTaskQueue.Pc (Impl.AtomicPc ResultQueue.Op ResultQueue.Ret)}
    {r : ITaskQueue.Ret ⊕ ResultQueue.Ret} (hs : s.pc i = .inside p q)
    (hq : (∃ r', r = .inl r' ∧ q = .fst (.answer r')) ∨ ∃ r', r = .inr r' ∧ q = .snd (.answer r')) :
    Matches setup allocator i s t (Impl.ownOutcome (P := impl Unit setup allocator) s.mem.2
      (resume setup s.mem.1 p r)) := by
  obtain ⟨results, hmem, hres⟩ := ht.mem
  have hat := ht.pc i
  rw [hs] at hat
  -- the pool is where the thread goes on
  have hstay : ∀ {o : Outcome ι Unit}, o.mem = s.mem.1 → o.pc = t.pc i → o.pc.Own →
      pending (.inside p q : ObjectSite ι) = shown (o.obs.filterMap Obs.seen) o.ret →
      Matches setup allocator i s t (Impl.ownOutcome (P := impl Unit setup allocator) s.mem.2 o) :=
    fun {o} hm hpc hown hpend => by
      obtain ⟨obs, ret, mem, pc⟩ := o
      simp only at hm hpc hown
      subst hm hpc
      refine ⟨[], none, t.mem, t.pc i, .stay, ?_, ?_⟩
      · rw [hs, hpend]
        rfl
      · rw [hmem]
        exact ht.move (m := (s.mem.1, s.mem.2)) results hres (.own hown) ht.closed
  generalize hp : t.pc i = p' at hat hstay
  cases hat with
  | pushed job accepted =>
    obtain ⟨r', rfl, he⟩ | ⟨r', -, he⟩ := hq <;> cases he
    exact hstay rfl rfl trivial (by cases accepted <;> rfl)
  | batch batch =>
    obtain ⟨r', rfl, he⟩ | ⟨r', -, he⟩ := hq <;> cases he
    refine hstay rfl rfl ?_ rfl
    simp only [resume]
    split <;> trivial
  | closed =>
    obtain ⟨r', rfl, he⟩ | ⟨r', -, he⟩ := hq <;> cases he
    exact hstay rfl rfl trivial rfl
  | produced job result batch =>
    obtain ⟨r', -, he⟩ | ⟨r', rfl, he⟩ := hq <;> cases he
    exact hstay rfl rfl trivial rfl
  | popped result =>
    obtain ⟨r', -, he⟩ | ⟨r', rfl, he⟩ := hq <;> cases he
    exact hstay rfl rfl trivial rfl
  | _ => obtain ⟨r', -, he⟩ | ⟨r', -, he⟩ := hq <;> cases he

/-! ## The simulation -/

theorem tracks_run (hcall : Callers setup mn s) (ht : Tracks setup s t)
    {c : Impl.Turn Choice (AtomicTaskQueue.Choice ⊕ Unit)}
    {o : Shared.Outcome _ Ret (Obs Unit) (objects setup allocator).idle}
    (ho : (objects setup allocator).run i s.mem c (s.pc i) = some o) :
    Matches setup allocator i s t o := by
  cases hs : s.pc i with
  | own p =>
    rw [hs] at ho
    have hat := ht.pc i
    rw [hs] at hat
    generalize hp : t.pc i = p' at hat
    cases hat with
    | own hown => exact ht.own hown hs hp ho
  | inside p q =>
    rw [hs] at ho
    obtain ⟨c, o, -, ho', rfl⟩ := Impl.atop_inside.1 ho
    cases q with
    | idle => cases ho'
    | fst q =>
      obtain ⟨c, o, -, hq, rfl⟩ := Impl.pair_fst.1 ho'
      cases hr : o.ret with
      | none => exact ht.queueStep hcall hs hq hr
      | some r =>
        obtain ⟨rfl, rfl⟩ := AtomicTaskQueue.run_ret hq hr
        exact ht.returns hs (.inl ⟨r, rfl, rfl⟩)
    | snd q =>
      obtain ⟨c, o, -, hq, rfl⟩ := Impl.pair_snd.1 ho'
      cases hr : o.ret with
      | none => exact ht.responseStep hs hq hr
      | some r =>
        obtain ⟨rfl, rfl⟩ := Impl.atomic_ret hq hr
        exact ht.returns hs (.inr ⟨r, rfl, rfl⟩)

theorem tracks (setup : Setup ι) (allocator : ι → Allocator) (mn : ι) :
    (objects setup allocator).Lags (impl Unit setup allocator) Obs.seen Obs.seen (Use setup mn)
      (Roles setup mn) pending (Tracks setup) where
  init := ⟨⟨[], rfl, rfl⟩, fun _ => .own trivial, id⟩
  idle := rfl
  free _ _ _ := trivial
  call := by
    intro s t i op ht hu hpc
    have hat := ht.pc i
    rw [hpc] at hat
    obtain ⟨results, hmem, hres⟩ := ht.mem
    have hidle : t.pc i = .idle := by
      generalize t.pc i = p at hat
      cases hat
      rfl
    refine ⟨hidle, ?_, rfl, ?_⟩
    · cases op with
      | workerLoop =>
        refine ⟨hu.1, ?_⟩
        rw [hmem]
        exact hu.2
      | shutdown => exact hu
      | push job => trivial
      | popImmediate => trivial
    · rw [hmem]
      exact ht.move results hres (.own (by cases op <;> trivial)) ht.closed
  run := by
    intro h s t i c o hr ht _ ho
    exact tracks_run (callers hr) ht ho

end
end Lumen.Concurrency.ThreadPool
