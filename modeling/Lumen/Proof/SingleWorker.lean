import Lumen.Main
import Lumen.Network.Proof.Outstanding
import Lumen.Utils.Proof.Selected

/-!
# One producer and one consumer

The SPSC queue relies on one thread that pushes and one that pops. Whatever the configuration file
holds, the pool that `main` builds for this queue has one worker, and no other thread pops tasks,
nor pushes them but the one that runs the server (`single_worker`).
-/

set_option autoImplicit false

namespace Lumen

open Lumen.Lib Lumen.Lib.Shared Lumen.Core Lumen.Concurrency Lumen.Network Lumen.Utils

namespace Network

variable {ι : Type*}

/-- The thread is one that makes this call of the pool or of its queues. -/
def Caller (setup : Setup ι) (i : ι) : ThreadPool.Op ConnId → Prop
  | .workerLoop => i ∈ setup.pool.workers
  | .push _ | .popImmediate => i = setup.server
  | .shutdown => False

/-- Every call that has been made is made by a thread for which it is meant. -/
def Callers (setup : Setup ι) (es : List (ThreadPool.Event ι ConnId)) : Prop :=
  ∀ i op, Event.call i op ∈ es → Caller setup i op

variable {setup : Setup ι} {h es : List (Event ι)} {s s' : State ι}

theorem Callers.operation (op : ThreadPool.Op ConnId) {i : ι} (hc : Caller setup i op)
    (o : ThreadPool.Outcome ι ConnId) : Callers setup (.call i op :: o.events i) := by
  intro j op' hm
  rcases List.mem_cons.1 hm with he | hm
  · cases he
    exact hc
  · exact absurd hm (o.call_notMem i j op')

theorem Callers.popImmediate (pool : ThreadPool.State ι ConnId) :
    Callers setup (Network.popImmediate setup pool).1 := .operation .popImmediate rfl _

theorem Callers.push (pool : ThreadPool.State ι ConnId) (job : Job ConnId) :
    Callers setup (Network.push setup pool job).2.1 := .operation (.push job) rfl _

theorem Callers.worker [DecidableEq ι] {i : ι}
    {act : Shared.Act (ThreadPool.Op ConnId) ThreadPool.Choice}
    {es : List (ThreadPool.Event ι ConnId)} {pool pool' : ThreadPool.State ι ConnId}
    (hmay : workerMay setup s i act = true)
    (hs : (ThreadPool.impl ConnId setup.pool setup.allocator).step pool (i, act) =
      some (es, pool')) : Callers setup es := by
  cases act with
  | run c =>
    obtain ⟨o, -, rfl, -⟩ := Impl.step_run.1 hs
    exact fun j op hm => absurd hm (o.call_notMem i j op)
  | call op =>
    obtain ⟨-, rfl, -⟩ := Impl.step_call.1 hs
    intro j op' hm
    cases List.mem_singleton.1 hm
    cases op with
    | workerLoop => exact (of_decide_eq_true hmay).1
    | shutdown => cases hmay
    | push => cases hmay
    | popImmediate => cases hmay

theorem callers_step [DecidableEq ι] (he : Effect setup s es s') :
    Callers setup (poolEvents es) := by
  have hnil : Callers setup ([] : List (ThreadPool.Event ι ConnId)) := by
    intro _ _ hm
    cases hm
  cases he with
  | idle => exact hnil
  | worker hmay hstep =>
    rw [poolEvents_map]
    exact .worker hmay hstep
  | popped =>
    rw [poolEvents_map]
    exact .popImmediate _
  | installed =>
    rw [poolEvents_installed]
    exact .popImmediate _
  | opened => exact hnil
  | read =>
    intro i op hm
    exact hnil i op ((poolEvents_receivedEvents _ _) ▸ hm)
  | readClosed =>
    rw [poolEvents_readClosed]
    exact hnil
  | submitted =>
    rw [poolEvents_submitted]
    exact .push _ _
  | sent => exact hnil
  | completed => exact hnil
  | sendClosed => exact hnil

/-- Who calls what, in every run. -/
theorem callers [DecidableEq ι] (hr : (lts setup).Reach h s) :
    Served setup h s ∧ Callers setup (poolEvents h) := by
  refine hr.inv_of_reach (I := fun h s => Served setup h s ∧ Callers setup (poolEvents h))
    (fun s h0 => ?_) fun h s l es s' hr ⟨hv, hc⟩ _ hs => ?_
  · exact ⟨served (.init h0), fun _ _ hm => nomatch hm⟩
  · obtain ⟨he, hv'⟩ := hv.step hs
    refine ⟨hv', ?_⟩
    intro i op hm
    rw [poolEvents_append] at hm
    rcases List.mem_append.1 hm with hm | hm
    · exact hc i op hm
    · exact callers_step he i op hm

end Network

/-- The thread is in `pop_batch`. -/
def popping {ι κ : Type} : ThreadPool.Pc ι κ → Bool
  | .popBatch _ | .popRelease _ _ _ => true
  | _ => false

theorem working_of_popping {ι κ : Type} {p : ThreadPool.Pc ι κ} (h : popping p = true) :
    p.working = true := by
  cases p <;> first | rfl | cases h

/-- The queue is the SPSC queue, it has one consumer and, while the server runs, one producer. The
last field is about runs of the pool up to the end of its shutdown. -/
structure SingleWorker (setup : Network.Setup Thread) : Prop where
  kind : setup.pool.kind = .spsc
  workers : setup.pool.workers = [.worker 0]
  popping : ∀ h s, (Network.lts setup).Reach h s →
    ∀ i, popping (s.pool.pc i) = true → i = .worker 0
  pushing : ∀ h s, (Network.lts setup).Reach h s →
    ∀ i job, Event.pool (.call i (.push job)) ∈ h → i = .main
  shutdown : ∀ h s, (ThreadPool.lts ConnId setup.pool setup.allocator).ReachIf
    (fun _ s => ThreadPool.Roles setup.pool .main s) h s →
    ∀ i, Lumen.popping (s.pc i) = true → i = .worker 0

/-- A pool with one worker is all that the roles of the threads need. -/
theorem SingleWorker.of_workers {setup : Network.Setup Thread} (hkind : setup.pool.kind = .spsc)
    (hworkers : setup.pool.workers = [.worker 0]) (hserver : setup.server = .main) :
    SingleWorker setup := by
  have honly : ∀ h s, (ThreadPool.lts ConnId setup.pool setup.allocator).ReachIf
      (fun _ s => ThreadPool.Roles setup.pool .main s) h s →
      ∀ i, Lumen.popping (s.pc i) = true → i = .worker 0 := by
    intro h s hr i hpop
    have hmem := (ThreadPool.inv hr).1.worker i (working_of_popping hpop)
    rw [hworkers] at hmem
    exact List.mem_singleton.1 hmem
  refine ⟨hkind, hworkers, ?_, ?_, honly⟩
  · intro h s hr
    have hlink := (Network.served hr).linked.reach
    rw [hserver] at hlink
    exact honly _ _ hlink
  · intro h s hr i job hm
    have hcall := (Network.callers hr).2 i (.push job) (List.mem_filterMap.2 ⟨_, hm, rfl⟩)
    exact hserver ▸ hcall

/-- **SPSC means one worker**, whatever the file holds; and BATCHED means batches of several. -/
theorem single_worker (host : Host) (outOfRange : Rat → Nat) (file : ConfigManager.File) :
    ((config outOfRange file).queueType = .batched → 1 < (config outOfRange file).batchSize) ∧
    ((config outOfRange file).queueType = .spsc → (config outOfRange file).threadCount = 1 ∧
      SingleWorker (main host (config outOfRange file))) := by
  have hsel := ConfigManager.selected_loadFromFile outOfRange file
  refine ⟨hsel.batched, ?_⟩
  intro hspsc
  have hcount : (config outOfRange file).threadCount = 1 := hsel.spsc hspsc
  refine ⟨hcount, .of_workers ?_ ?_ rfl⟩
  · show taskQueue (config outOfRange file) = .spsc
    rw [taskQueue, hspsc]
  · show (List.range (threadCount host (config outOfRange file))).map Thread.worker = _
    rw [threadCount, hcount]
    rfl

/-- A document that asks for SPSC and for eight threads, on which the load throws right after. -/
def spscFile : ConfigManager.File :=
  .document (.object [("engine", .object [("thread_count", .number (.unsigned 8)),
    ("queue_type", .string "spsc"), ("allocator_type", .null)])])

def eightThreads : Host where
  hardwareConcurrency := 8
  engine _ := ThreadPool.pixelEngine
  arena _ := { arenaPtr := 64, capacity := 64 * 1024 * 1024, offset := 0 }
  sockfd := 3
  pre := 0
  post := 0

theorem single_worker_spsc : (config (fun _ => 0) spscFile).queueType = .spsc ∧
    (config (fun _ => 0) spscFile).threadCount = 1 ∧
      SingleWorker (main eightThreads (config (fun _ => 0) spscFile)) :=
  ⟨rfl, (single_worker eightThreads (fun _ => 0) spscFile).2 rfl⟩

end Lumen
