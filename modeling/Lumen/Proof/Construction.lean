import Lumen.Construction
import Lumen.Concurrency.Proof.PoolInv

/-!
# The pool that the constructor builds

While no exception leaves the constructor its loop keeps `Phase`: a worker for every pod, all of
them joinable. The started workers run all the while; the pool is nevertheless the one of
`ThreadPool`, in which every worker is there from the start (`complete_reach`).
-/

set_option autoImplicit false

/-! ## Steps of a thread that does not stop the pool -/

namespace Lumen.Concurrency.ThreadPool

open Lumen.Lib Lumen.Core

variable {ι κ : Type*} [DecidableEq ι] {setup : Setup ι} {i : ι} {m : Mem ι κ} {c : Choice}
  {p : Pc ι κ} {o : Outcome ι κ}

def Mem.withJoinable (m : Mem ι κ) (ws : List ι) : Mem ι κ := { m with joinable := ws }

/-- Only `shutdown` looks at the threads that are joinable. -/
theorem run_withJoinable (hp : p.stopping = false) (ws : List ι) :
    run setup i (m.withJoinable ws) c p =
      (run setup i m c p).map fun o => { o with mem := o.mem.withJoinable ws } := by
  cases p <;> simp only [Pc.stopping, Bool.true_eq_false] at hp
  case popBatch batch =>
    simp only [run, popBatch, Mem.withJoinable]
    cases c with
    | none => by_cases hend : m.queue.mayEnd setup.kind batch.length setup.batchSize <;> simp [hend]
    | take =>
      by_cases hlt : batch.length < setup.batchSize <;> simp only [hlt, if_true, if_false]
      · cases m.queue.take <;> rfl
      · rfl
    | clock now => rfl
    | engine env => rfl
  case forEach batch =>
    simp only [run, forEach]
    (repeat' split) <;> rfl
  case engineRun job task batch =>
    simp only [run, engineRun, Mem.withJoinable]
    (repeat' split) <;> rfl
  case popImmediate =>
    simp only [run, popImmediate, Mem.withJoinable]
    split <;> rfl
  all_goals rfl

theorem run_joinable (ho : run setup i m c p = some o) (hp : p.stopping = false) :
    o.mem.joinable = m.joinable := by
  have heq : run setup i m c p =
      (run setup i m c p).map fun o => { o with mem := o.mem.withJoinable m.joinable } :=
    run_withJoinable hp m.joinable
  rw [ho, Option.map_some, Option.some.injEq] at heq
  exact congrArg (fun o => o.mem.joinable) heq

theorem run_stop (ho : run setup i m c p = some o) (hp : p.stopping = false) :
    o.mem.stop = m.stop := by
  cases p <;> simp only [Pc.stopping, Bool.true_eq_false] at hp <;>
    simp only [run, push, popImmediate, popBatch, forEach, engineRun] at ho
  all_goals
    (repeat' split at ho) <;> cases ho <;> rfl

theorem step_withJoinable [DecidableEq κ] {allocator : ι → Allocator} {s s' : State ι κ}
    {act : Shared.Act (Op κ) Choice} {es : List (Event ι κ)} (hpc : (s.pc i).stopping = false)
    (hs : (impl κ setup allocator).step s (i, act) = some (es, s')) (ws : List ι) :
    (impl κ setup allocator).step ⟨s.mem.withJoinable ws, s.pc⟩ (i, act) =
      some (es, ⟨s'.mem.withJoinable ws, s'.pc⟩) := by
  cases act with
  | call op =>
    obtain ⟨hidle, rfl, rfl⟩ := Shared.Impl.step_call.1 hs
    exact Shared.Impl.step_call.2 ⟨hidle, rfl, rfl⟩
  | run c =>
    obtain ⟨o, ho, rfl, rfl⟩ := Shared.Impl.step_run.1 hs
    refine Shared.Impl.step_run.2 ⟨{ o with mem := o.mem.withJoinable ws }, ?_, rfl, rfl⟩
    exact (run_withJoinable hpc ws).trans (congrArg (Option.map _) ho)

/-- What a thread that does not stop the pool leaves as it is. -/
structure Same (j : ι) (s s' : State ι κ) : Prop where
  joinable : s'.mem.joinable = s.mem.joinable
  stop : s'.mem.stop = s.mem.stop
  ended : ∀ w ∈ s.mem.ended, w ∈ s'.mem.ended
  pc : s'.pc j = s.pc j

/-- A step of a worker. -/
theorem same_step [DecidableEq κ] {allocator : ι → Allocator} {j : ι} {s s' : State ι κ}
    {act : Shared.Act (Op κ) Choice} {es : List (Event ι κ)} (hj : j ≠ i)
    (hpc : (s.pc i).stopping = false) (hact : act ≠ .call .shutdown)
    (hs : (impl κ setup allocator).step s (i, act) = some (es, s')) :
    Same j s s' ∧ (s'.pc i).stopping = false ∧ ∀ k, k ≠ i → s'.pc k = s.pc k := by
  cases act with
  | call op =>
    obtain ⟨-, -, rfl⟩ := Shared.Impl.step_call.1 hs
    refine ⟨⟨rfl, rfl, fun w hw => hw, Function.update_of_ne hj _ _⟩, ?_,
      fun k hk => Function.update_of_ne hk _ _⟩
    simp only [Function.update_self]
    cases op with
    | shutdown => exact absurd rfl hact
    | workerLoop => rfl
    | push => rfl
    | popImmediate => rfl
  | run c =>
    obtain ⟨o, ho, -, rfl⟩ := Shared.Impl.step_run.1 hs
    obtain ⟨-, hstop, hended⟩ := run_class ho
    refine ⟨⟨run_joinable ho hpc, run_stop ho hpc, fun w hw => ?_,
      Function.update_of_ne hj _ _⟩, ?_,
      fun k hk => Function.update_of_ne hk _ _⟩
    · rcases hended with he | ⟨-, -, he⟩
      · exact he ▸ hw
      · exact he ▸ List.mem_cons_of_mem _ hw
    · simp only [Function.update_self]
      rw [Bool.eq_false_iff] at hpc ⊢
      exact fun h => hpc (hstop h)

end Lumen.Concurrency.ThreadPool

namespace Lumen.Construction

open Lumen.Lib Lumen.Lib.Shared Lumen.Core Lumen.Concurrency Lumen.Utils

variable {host : Host} {config : ConfigManager} {κ : Type*}

/-! ## The phases of a run without an exception in the constructor -/

/-- The loop has started `k` workers and created `pods` pods. -/
structure Building (s : State κ) (k pods : Nat) : Prop where
  workers : s.workers = (List.range k).map .worker
  workerPods : s.workerPods = List.range pods
  joinable : s.pool.mem.joinable = s.workers
  stop : s.pool.mem.stop = false

/-- `shutdown` has joined the workers that it has come to, one after the other. -/
def Stopping (s : State κ) : ThreadPool.Pc Thread κ → Prop
  | .stopTest | .stopStore => s.pool.mem.stop = false ∧ s.pool.mem.joinable = s.workers
  | .stopQueue => s.pool.mem.stop = true ∧ s.pool.mem.joinable = s.workers
  | .stopJoin ws => s.pool.mem.stop = true ∧ s.pool.mem.joinable = ws ∧
      ∀ w ∈ s.workers, w ∈ ws ∨ w ∈ s.pool.mem.ended
  | _ => False

/-- Every worker is stopped and joined. -/
structure Joined (s : State κ) : Prop where
  stop : s.pool.mem.stop = true
  joinable : s.pool.mem.joinable = []
  ended : ∀ w ∈ s.workers, w ∈ s.pool.mem.ended

/-- What holds in each phase, for `n` threads. -/
def Phase (n : Nat) (s : State κ) : Prop :=
  match s.pc with
  | .allocator k | .engine k => Building s k k ∧ k < n
  | .start k => Building s k (k + 1) ∧ k < n
  | .built | .destructor => Building s n n
  | .shutdown => s.workers = (List.range n).map .worker ∧ s.workerPods = List.range n ∧
      Stopping s (s.pool.pc .main)
  | .workers _ => s.workerPods = List.range n ∧ s.workers = (List.range n).map .worker ∧ Joined s
  | .workerPods | .caught => Joined s
  | .terminated => False

/-- No worker stops the pool. -/
def Quiet (s : State κ) : Prop := ∀ i, (s.pool.pc (.worker i)).stopping = false

variable {n : Nat} {s s' : State κ}

/-- The main thread goes on with nothing changed. -/
theorem Building.goto {k pods : Nat} (hb : Building s k pods) (pc : Pc) :
    Building { s with pc := pc } k pods := ⟨hb.workers, hb.workerPods, hb.joinable, hb.stop⟩

theorem Joined.goto (hj : Joined s) (pc : Pc) (pods : List Nat) :
    Joined ⟨pc, pods, s.workers, s.pool⟩ := ⟨hj.stop, hj.joinable, hj.ended⟩

theorem Building.worker {k pods : Nat} (hb : Building s k pods) {p : ThreadPool.State Thread κ}
    (hs : ThreadPool.Same .main s.pool p) (pc : Pc) :
    Building ⟨pc, s.workerPods, s.workers, p⟩ k pods :=
  ⟨hb.workers, hb.workerPods, hs.joinable.trans hb.joinable, hs.stop.trans hb.stop⟩

theorem Stopping.worker {q : ThreadPool.Pc Thread κ} (hq : Stopping s q)
    {p : ThreadPool.State Thread κ} (hs : ThreadPool.Same .main s.pool p) (pc : Pc) :
    Stopping ⟨pc, s.workerPods, s.workers, p⟩ q := by
  have hj := hs.joinable
  have hst := hs.stop
  cases q <;> simp only [Stopping] at hq ⊢
  case stopTest => exact ⟨hst.trans hq.1, hj.trans hq.2⟩
  case stopStore => exact ⟨hst.trans hq.1, hj.trans hq.2⟩
  case stopQueue => exact ⟨hst.trans hq.1, hj.trans hq.2⟩
  case stopJoin ws =>
    exact ⟨hst.trans hq.1, hj.trans hq.2.1, fun w hw => (hq.2.2 w hw).imp_right (hs.ended w)⟩

theorem Joined.worker (hj : Joined s) {p : ThreadPool.State Thread κ}
    (hs : ThreadPool.Same .main s.pool p) (pc : Pc) : Joined ⟨pc, s.workerPods, s.workers, p⟩ :=
  ⟨hs.stop.trans hj.stop, hs.joinable.trans hj.joinable, fun w hw => hs.ended w (hj.ended w hw)⟩

/-- A worker moves. -/
theorem Phase.worker (hp : Phase n s) {p : ThreadPool.State Thread κ}
    (hs : ThreadPool.Same .main s.pool p) : Phase n { s with pool := p } := by
  cases hpc : s.pc <;> simp only [Phase, hpc] at hp ⊢
  case allocator => exact ⟨hp.1.worker hs _, hp.2⟩
  case engine => exact ⟨hp.1.worker hs _, hp.2⟩
  case start => exact ⟨hp.1.worker hs _, hp.2⟩
  case built => exact hp.worker hs _
  case destructor => exact hp.worker hs _
  case shutdown =>
    rw [hs.pc]
    exact ⟨hp.1, hp.2.1, hp.2.2.worker hs _⟩
  case workers => exact ⟨hp.1, hp.2.1, hp.2.2.worker hs _⟩
  case workerPods => exact hp.worker hs _
  case caught => exact hp.worker hs _

theorem Quiet.update_main (hq : Quiet s) {pc : Pc} {pods : List Nat} {workers : List Thread}
    {m : ThreadPool.Mem Thread κ} (p : ThreadPool.Pc Thread κ) :
    Quiet ⟨pc, pods, workers, ⟨m, Function.update s.pool.pc .main p⟩⟩ := fun i => by
  simp only [Function.update_of_ne (show Thread.worker i ≠ .main by simp)]
  exact hq i

/-! ## The steps of the main thread -/

namespace Pc

/-- In the constructor. -/
def constructing : Pc → Bool
  | .allocator _ | .engine _ | .start _ => true
  | _ => false

/-- The pod whose allocator or engine is created next. -/
def creating : Pc → Option Nat
  | .allocator i | .engine i => some i
  | _ => none

/-- The members are being destroyed, or the process is past that. -/
def unwinding : Pc → Bool
  | .workers _ | .workerPods | .caught | .terminated => true
  | _ => false

end Pc

/-- No exception in the constructor. -/
def NoThrow (_ : List (Event κ)) (s : State κ) : Label κ → Prop
  | .main throws => throws = true → s.pc.constructing = false
  | .worker _ _ => True

theorem phase_init : Phase (threadCount host config) (State.init host config : State κ) := by
  have hbuild : ∀ pc, Building
      { (State.init host config : State κ) with pc := pc } 0 0 := fun _ => ⟨rfl, rfl, rfl, rfl⟩
  change Phase _ { (State.init host config : State κ) with pc := loop host config 0 }
  unfold loop
  split <;> rename_i h
  · exact ⟨hbuild _, h⟩
  · have h0 : threadCount host config = 0 := by omega
    rw [h0]
    exact hbuild _

/-- The worker of the next pod is started. -/
theorem Building.start {k : Nat} (hb : Building s k (k + 1)) (hk : k < threadCount host config) :
    Phase (threadCount host config) { s.startWorker k with pc := loop host config (k + 1) } := by
  have hbuild : ∀ pc, Building { s.startWorker k with pc := pc } (k + 1) (k + 1) := fun pc => by
    refine ⟨?_, hb.workerPods, ?_, hb.stop⟩
    · simp only [State.startWorker, hb.workers, List.range_succ,
        List.map_append, List.map_singleton]
    · simp only [State.startWorker, hb.joinable]
  unfold loop
  split <;> rename_i h
  · exact ⟨hbuild _, h⟩
  · have hn : threadCount host config = k + 1 := by omega
    rw [hn]
    exact hbuild _

/-- `shutdown` moves in the main thread. -/
theorem Stopping.run {c : ThreadPool.Choice} {o : ThreadPool.Outcome Thread κ}
    (hs : Stopping s (s.pool.pc .main)) (hw : s.workers = (threadPool host config).workers)
    (ho : ThreadPool.run (threadPool host config) .main s.pool.mem c (s.pool.pc .main) = some o)
    (pc : Pc) :
    (o.pc ≠ .idle ∧ Stopping ⟨pc, s.workerPods, s.workers,
      ⟨o.mem, Function.update s.pool.pc .main o.pc⟩⟩ o.pc) ∨
    (o.pc = .idle ∧ Joined ⟨pc, s.workerPods, s.workers,
      ⟨o.mem, Function.update s.pool.pc .main o.pc⟩⟩) := by
  cases hq : s.pool.pc .main <;> simp only [hq, Stopping] at hs <;>
    simp only [hq, ThreadPool.run, ThreadPool.stopJoin] at ho
  case stopTest =>
    rw [hs.1] at ho
    cases ho
    exact .inl ⟨by simp, hs⟩
  case stopStore =>
    cases ho
    exact .inl ⟨by simp, rfl, hs.2⟩
  case stopQueue =>
    cases ho
    exact .inl ⟨by simp, hs.1, hs.2.trans hw, fun w hm => .inl (hw ▸ hm)⟩
  case stopJoin ws =>
    obtain ⟨hstop, hj, hend⟩ := hs
    cases ws with
    | nil =>
      cases ho
      exact .inr ⟨rfl, hstop, hj, fun w hm => (hend w hm).resolve_left List.not_mem_nil⟩
    | cons w ws =>
      simp only [hj, List.mem_cons, true_or, if_true] at ho
      split at ho <;> rename_i he <;> cases ho
      refine .inl ⟨by simp, hstop, by simp, fun v hm => ?_⟩
      rcases hend v hm with hv | hv
      · rcases List.mem_cons.1 hv with rfl | hv
        · exact .inr he
        · exact .inl hv
      · exact .inr hv

variable [DecidableEq κ]

theorem poolStep_some {l : ThreadPool.Label Thread κ} {es : List (Event κ)}
    {p : ThreadPool.State Thread κ} (h : poolStep host config s l = some (es, p)) :
    ∃ es', es = es'.map .pool ∧
      (ThreadPool.impl κ (threadPool host config) (allocator host config)).step s.pool l =
        some (es', p) := by
  obtain ⟨⟨es', p'⟩, hs, heq⟩ := Option.map_eq_some_iff.1 h
  cases heq
  exact ⟨es', rfl, hs⟩

/-- What a step of the main thread is; in it an exception is thrown, or not. -/
inductive Moves (host : Host) (config : ConfigManager) (s : State κ) (throws : Bool) :
    List (Event κ) → State κ → Prop
  | threw : s.pc.constructing = true → throws = true → Moves host config s throws [.threw] s.unwind
  | allocator {k : Nat} : s.pc = .allocator k → throws = false →
      Moves host config s throws [] { s with pc := .engine k }
  | engine {k : Nat} : s.pc = .engine k → throws = false →
      Moves host config s throws [] { s.pushPod k with pc := .start k }
  | start {k : Nat} : s.pc = .start k → throws = false → Moves host config s throws [.started k]
      { s.startWorker k with pc := loop host config (k + 1) }
  | built : s.pc = .built → Moves host config s throws [.threw] { s with pc := .destructor }
  | destructor {es : List (ThreadPool.Event Thread κ)} {p : ThreadPool.State Thread κ} :
      s.pc = .destructor → (ThreadPool.impl κ (threadPool host config) (allocator host config)).step
        s.pool (.main, .call .shutdown) = some (es, p) →
      Moves host config s throws (es.map .pool) { s with pc := .shutdown, pool := p }
  | shutdown {es : List (ThreadPool.Event Thread κ)} {p : ThreadPool.State Thread κ} :
      s.pc = .shutdown → (ThreadPool.impl κ (threadPool host config) (allocator host config)).step
        s.pool (.main, .run .none) = some (es, p) → Moves host config s throws (es.map .pool)
        { s with pc := if p.pc .main = .idle then .workers s.workers else .shutdown, pool := p }
  | thread {w : Thread} {rest : List Thread} : s.pc = .workers (w :: rest) →
      w ∉ s.pool.mem.joinable → Moves host config s throws [] { s with pc := .workers rest }
  | terminated {w : Thread} {rest : List Thread} : s.pc = .workers (w :: rest) →
      w ∈ s.pool.mem.joinable → Moves host config s throws [.terminated]
      { s with pc := .terminated }
  | threads : s.pc = .workers [] → Moves host config s throws [] { s with pc := .workerPods }
  | pod {k : Nat} {pods : List Nat} : s.pc = .workerPods → s.workerPods = k :: pods →
      Moves host config s throws [.destroyed k] { s with pc := .workerPods, workerPods := pods }
  | pods : s.pc = .workerPods → s.workerPods = [] →
      Moves host config s throws [.caught] { s with pc := .caught }

theorem main_moves {throws : Bool} {es : List (Event κ)}
    (hs : mainStep host config s throws = some (es, s')) : Moves host config s throws es s' := by
  cases hpc : s.pc <;> simp only [mainStep, hpc] at hs
  case allocator k =>
    split at hs <;> rename_i ht <;> cases hs
    · exact .threw (by rw [hpc]; rfl) ht
    · exact .allocator hpc (Bool.eq_false_iff.2 ht)
  case engine k =>
    split at hs <;> rename_i ht <;> cases hs
    · exact .threw (by rw [hpc]; rfl) ht
    · exact .engine hpc (Bool.eq_false_iff.2 ht)
  case start k =>
    split at hs <;> rename_i ht <;> cases hs
    · exact .threw (by rw [hpc]; rfl) ht
    · exact .start hpc (Bool.eq_false_iff.2 ht)
  case built =>
    split at hs <;> cases hs
    exact .built hpc
  case destructor =>
    obtain ⟨⟨es', p⟩, hstep, heq⟩ := Option.map_eq_some_iff.1 hs
    cases heq
    obtain ⟨es', rfl, hcall⟩ := poolStep_some hstep
    exact .destructor hpc hcall
  case shutdown =>
    obtain ⟨⟨es', p⟩, hstep, heq⟩ := Option.map_eq_some_iff.1 hs
    cases heq
    obtain ⟨es', rfl, hrun⟩ := poolStep_some hstep
    exact .shutdown hpc hrun
  case workers rest =>
    cases rest with
    | nil =>
      cases hs
      exact .threads hpc
    | cons w rest =>
      simp only at hs
      split at hs <;> rename_i hw <;> cases hs
      · exact .terminated hpc hw
      · exact .thread hpc hw
  case workerPods =>
    split at hs <;> rename_i hpods <;> cases hs
    · exact .pods hpc hpods
    · exact .pod hpc hpods
  case caught => cases hs
  case terminated => cases hs

theorem main_step {throws : Bool} {es : List (Event κ)} (hp : Phase (threadCount host config) s)
    (hq : Quiet s) (hc : throws = true → s.pc.constructing = false)
    (hm : Moves host config s throws es s') : Phase (threadCount host config) s' ∧ Quiet s' := by
  cases hm with
  | threw hcon ht => exact absurd ((hc ht).symm.trans hcon) Bool.false_ne_true
  | allocator hpc =>
    simp only [Phase, hpc] at hp
    exact ⟨⟨hp.1.goto _, hp.2⟩, hq⟩
  | engine hpc =>
    simp only [Phase, hpc] at hp
    obtain ⟨⟨hw, hpods, hj, hstop⟩, hk⟩ := hp
    refine ⟨⟨⟨hw, ?_, hj, hstop⟩, hk⟩, hq⟩
    simp only [State.pushPod, hpods, List.range_succ]
  | start hpc =>
    simp only [Phase, hpc] at hp
    exact ⟨hp.1.start hp.2, hq⟩
  | built hpc =>
    simp only [Phase, hpc] at hp
    exact ⟨hp.goto _, hq⟩
  | destructor hpc hcall =>
    simp only [Phase, hpc] at hp
    obtain ⟨-, -, rfl⟩ := Impl.step_call.1 hcall
    refine ⟨⟨hp.workers, hp.workerPods, ?_⟩, hq.update_main _⟩
    simp only [Function.update_self]
    exact ⟨hp.stop, hp.joinable⟩
  | shutdown hpc hrun =>
    simp only [Phase, hpc] at hp
    obtain ⟨o, ho, -, rfl⟩ := Impl.step_run.1 hrun
    refine ⟨?_, hq.update_main _⟩
    simp only [Function.update_self]
    rcases hp.2.2.run hp.1 ho (if o.pc = .idle then .workers s.workers else .shutdown) with
      ⟨hne, hstop⟩ | ⟨hidle, hjoined⟩
    · rw [if_neg hne] at hstop ⊢
      exact ⟨hp.1, hp.2.1, by simpa using hstop⟩
    · rw [if_pos hidle] at hjoined ⊢
      exact ⟨hp.2.1, hp.1, hjoined⟩
  | thread hpc =>
    simp only [Phase, hpc] at hp
    exact ⟨⟨hp.1, hp.2.1, hp.2.2.goto _ _⟩, hq⟩
  | terminated hpc hw =>
    simp only [Phase, hpc] at hp
    rw [hp.2.2.joinable] at hw
    cases hw
  | threads hpc =>
    simp only [Phase, hpc] at hp
    exact ⟨hp.2.2.goto _ _, hq⟩
  | pod hpc =>
    simp only [Phase, hpc] at hp
    exact ⟨hp.goto _ _, hq⟩
  | pods hpc =>
    simp only [Phase, hpc] at hp
    exact ⟨hp.goto _ _, hq⟩

omit [DecidableEq κ] in
theorem workerMay_ne_shutdown {i : Nat} {act : Act (ThreadPool.Op κ) ThreadPool.Choice}
    (hmay : workerMay s i act = true) : act ≠ .call .shutdown := by
  rintro rfl
  cases hmay

/-- What a step of a worker is. -/
theorem worker_some {i : Nat} {act : Act (ThreadPool.Op κ) ThreadPool.Choice} {es : List (Event κ)}
    (hs : (lts host config κ).step s (.worker i act) = some (es, s')) :
    workerMay s i act = true ∧ ∃ es' p, es = es'.map .pool ∧ s' = { s with pool := p } ∧
      (ThreadPool.impl κ (threadPool host config) (allocator host config)).step s.pool
        (.worker i, act) = some (es', p) := by
  change (if _ then _ else _) = _ at hs
  split at hs <;> rename_i hmay
  · obtain ⟨⟨es', p⟩, hstep, heq⟩ := Option.map_eq_some_iff.1 hs
    cases heq
    obtain ⟨es', hes, hmove⟩ := poolStep_some hstep
    exact ⟨hmay.2, es', p, hes, rfl, hmove⟩
  · cases hs

theorem worker_step {i : Nat} {act : Act (ThreadPool.Op κ) ThreadPool.Choice} {es : List (Event κ)}
    (hq : Quiet s) (hs : (lts host config κ).step s (.worker i act) = some (es, s')) :
    ∃ p, s' = { s with pool := p } ∧ ThreadPool.Same .main s.pool p ∧
      Quiet { s with pool := p } := by
  obtain ⟨hmay, es', p, -, rfl, hmove⟩ := worker_some hs
  obtain ⟨hsame, hi, hother⟩ :=
    ThreadPool.same_step (j := .main) (by simp) (hq i) (workerMay_ne_shutdown hmay) hmove
  refine ⟨p, rfl, hsame, fun k => ?_⟩
  by_cases hk : k = i
  · exact hk ▸ hi
  · change (p.pc (.worker k)).stopping = false
    rw [hother (.worker k) (by simpa using hk)]
    exact hq k

theorem phase_step {h : List (Event κ)} {l : Label κ} {es : List (Event κ)}
    (hp : Phase (threadCount host config) s) (hq : Quiet s) (hc : NoThrow h s l)
    (hs : (lts host config κ).step s l = some (es, s')) :
    Phase (threadCount host config) s' ∧ Quiet s' := by
  cases l with
  | main throws => exact main_step hp hq hc (main_moves hs)
  | worker i act =>
    obtain ⟨p, rfl, hsame, hq'⟩ := worker_step hq hs
    exact ⟨hp.worker hsame, hq'⟩

/-- **The phases** of a run without an exception in the constructor. -/
theorem phase {h : List (Event κ)} (hr : (lts host config κ).ReachIf NoThrow h s) :
    Phase (threadCount host config) s ∧ Quiet s := by
  refine hr.inv (I := fun _ s => Phase (threadCount host config) s ∧ Quiet s) (fun s h0 => ?_)
    fun h s l es s' ⟨hp, hq⟩ hc hs => phase_step hp hq hc hs
  obtain rfl : s = .init host config := h0
  exact ⟨phase_init, fun _ => rfl⟩

/-! ## The pool that is built -/

def poolEvents (h : List (Event κ)) : List (ThreadPool.Event Thread κ) :=
  h.filterMap fun
    | .pool e => some e
    | _ => none

omit [DecidableEq κ] in
theorem poolEvents_append (h h' : List (Event κ)) :
    poolEvents (h ++ h') = poolEvents h ++ poolEvents h' := List.filterMap_append

omit [DecidableEq κ] in
theorem poolEvents_map (es : List (ThreadPool.Event Thread κ)) :
    poolEvents (es.map .pool) = es := by
  simp [poolEvents, List.filterMap_map]

/-- The threads that are joinable, with those that the constructor has still to start. -/
def full (host : Host) (config : ConfigManager) (s : State κ) : List Thread :=
  if s.pc.constructing then (threadPool host config).workers else s.pool.mem.joinable

/-- The pool with all of its workers. -/
def complete (host : Host) (config : ConfigManager) (s : State κ) : ThreadPool.State Thread κ :=
  ⟨s.pool.mem.withJoinable (full host config s), s.pool.pc⟩

omit [DecidableEq κ] in
theorem complete_of_built (hpc : s.pc.constructing = false) : complete host config s = s.pool := by
  rw [complete, full, hpc]
  rfl

omit [DecidableEq κ] in
theorem complete_eq (hp : Phase (threadCount host config) s)
    (hpc : s.pc.constructing = true ∨ s.pc = .built) : complete host config s =
      ⟨s.pool.mem.withJoinable (threadPool host config).workers, s.pool.pc⟩ := by
  rcases hpc with hpc | hpc
  · rw [complete, full, if_pos hpc]
  · simp only [Phase, hpc] at hp
    have hall : full host config s = (threadPool host config).workers := by
      rw [full, hpc, if_neg (by simp [Pc.constructing]), hp.joinable, hp.workers]
      rfl
    rw [complete, hall]

omit [DecidableEq κ] in
theorem loop_constructing (k : Nat) :
    (loop host config k).constructing = true ∨ loop host config k = .built := by
  unfold loop
  split
  · exact .inl rfl
  · exact .inr rfl

/-- A step of the main thread builds on, or is one of the pool. -/
theorem complete_main {throws : Bool} {es : List (Event κ)}
    (hp : Phase (threadCount host config) s) (hp' : Phase (threadCount host config) s')
    (hc : throws = true → s.pc.constructing = false) (hm : Moves host config s throws es s') :
    (poolEvents es = [] ∧ complete host config s' = complete host config s) ∨
    ∃ l, ThreadPool.Roles (threadPool host config) .main (complete host config s) l ∧
      (ThreadPool.impl κ (threadPool host config) (allocator host config)).step
        (complete host config s) l = some (poolEvents es, complete host config s') := by
  -- past the constructor a step that is not one of the pool leaves it
  have hbuilt : s.pc.constructing = false → s'.pc.constructing = false → s'.pool = s.pool →
      complete host config s' = complete host config s := fun h h' heq => by
    rw [complete_of_built h, complete_of_built h', heq]
  cases hm with
  | threw hcon ht => exact absurd ((hc ht).symm.trans hcon) Bool.false_ne_true
  | allocator hpc =>
    exact .inl ⟨rfl, by rw [complete_eq hp (.inl (by rw [hpc]; rfl)), complete_eq hp' (.inl rfl)]⟩
  | engine hpc =>
    refine .inl ⟨rfl, ?_⟩
    rw [complete_eq hp (.inl (by rw [hpc]; rfl)), complete_eq hp' (.inl rfl)]
    rfl
  | start hpc =>
    refine .inl ⟨rfl, ?_⟩
    rw [complete_eq hp (.inl (by rw [hpc]; rfl)), complete_eq hp' (loop_constructing _)]
    rfl
  | destructor hpc hcall =>
    refine .inr ⟨(.main, .call .shutdown), rfl, ?_⟩
    rw [poolEvents_map, complete_of_built (by rw [hpc]; rfl), complete_of_built rfl]
    exact hcall
  | shutdown hpc hrun =>
    refine .inr ⟨(.main, .run .none), trivial, ?_⟩
    rw [poolEvents_map, complete_of_built (by rw [hpc]; rfl), complete_of_built (by split <;> rfl)]
    exact hrun
  | built hpc => exact .inl ⟨rfl, hbuilt (by rw [hpc]; rfl) rfl rfl⟩
  | thread hpc => exact .inl ⟨rfl, hbuilt (by rw [hpc]; rfl) rfl rfl⟩
  | terminated hpc => exact .inl ⟨rfl, hbuilt (by rw [hpc]; rfl) rfl rfl⟩
  | threads hpc => exact .inl ⟨rfl, hbuilt (by rw [hpc]; rfl) rfl rfl⟩
  | pod hpc => exact .inl ⟨rfl, hbuilt (by rw [hpc]; rfl) rfl rfl⟩
  | pods hpc => exact .inl ⟨rfl, hbuilt (by rw [hpc]; rfl) rfl rfl⟩

omit [DecidableEq κ] in
/-- A worker that may start its loop is one of the pool. -/
theorem Phase.mem_workers (hp : Phase (threadCount host config) s) {i : Nat}
    (hi : .worker i ∈ s.workers) (hend : .worker i ∉ s.pool.mem.ended) :
    .worker i ∈ (threadPool host config).workers := by
  have hbuild : ∀ {k}, s.workers = (List.range k).map .worker → k ≤ threadCount host config →
      .worker i ∈ (threadPool host config).workers := fun hw hk => by
    rw [hw, List.mem_map] at hi
    obtain ⟨j, hj, heq⟩ := hi
    exact List.mem_map.2 ⟨j, List.mem_range.2 ((List.mem_range.1 hj).trans_le hk), heq⟩
  cases hpc : s.pc <;> simp only [Phase, hpc] at hp
  case allocator => exact hbuild hp.1.workers hp.2.le
  case engine => exact hbuild hp.1.workers hp.2.le
  case start => exact hbuild hp.1.workers hp.2.le
  case built => exact hbuild hp.workers (Nat.le_refl _)
  case destructor => exact hbuild hp.workers (Nat.le_refl _)
  case shutdown => exact hbuild hp.1 (Nat.le_refl _)
  case workers => exact hbuild hp.2.1 (Nat.le_refl _)
  case workerPods => exact absurd (hp.ended _ hi) hend
  case caught => exact absurd (hp.ended _ hi) hend

/-- **The pool that is built** is the one of `ThreadPool`, where a worker that is not started yet is
one that has not moved. -/
theorem complete_reach {h : List (Event κ)} (hr : (lts host config κ).ReachIf NoThrow h s) :
    (ThreadPool.impl κ (threadPool host config) (allocator host config)).lts.ReachIf
      (fun _ => ThreadPool.Roles (threadPool host config) .main) (poolEvents h)
      (complete host config s) := by
  induction hr with
  | init h0 =>
    obtain rfl := h0
    rw [complete_eq phase_init (loop_constructing 0)]
    exact .init rfl
  | @step h s l es s' hr hc hs ih =>
    obtain ⟨hp, hq⟩ := phase hr
    obtain ⟨hp', -⟩ := phase_step hp hq hc hs
    rw [poolEvents_append]
    cases l with
    | main throws =>
      rcases complete_main hp hp' hc (main_moves hs) with ⟨hes, heq⟩ | ⟨l, hroles, hmove⟩
      · rwa [hes, List.append_nil, heq]
      · exact ih.step hroles hmove
    | worker i act =>
      obtain ⟨hmay, es', p, rfl, rfl, hmove⟩ := worker_some hs
      have hsame :=
        (ThreadPool.same_step (j := .main) (by simp) (hq i) (workerMay_ne_shutdown hmay) hmove).1
      have hfull : full host config { s with pool := p } = full host config s := by
        rw [full, full, hsame.joinable]
      have hroles : ThreadPool.Roles (threadPool host config) .main (complete host config s)
          (.worker i, act) := by
        cases act with
        | run c => trivial
        | call op =>
          cases op with
          | workerLoop =>
            have hi := of_decide_eq_true hmay
            exact ⟨hp.mem_workers hi.1 hi.2, hi.2⟩
          | shutdown => cases hmay
          | push => cases hmay
          | popImmediate => cases hmay
      have hmove' := ThreadPool.step_withJoinable (hq i) hmove (full host config s)
      rw [poolEvents_map, complete, hfull]
      exact ih.step hroles hmove'

end Lumen.Construction
