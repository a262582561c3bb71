import Lumen.Concurrency.Proof.MPMCRefines
import Lumen.Concurrency.Proof.NaiveRefines
import Lumen.Concurrency.Proof.PoolJobs
import Lumen.Concurrency.Proof.PoolTracks
import Lumen.Concurrency.Proof.ResultQueueRefines
import Lumen.Concurrency.Proof.SPSCRefines

/-!
# The pool with its queues is the pool

Each queue may stand for the object that it refines (`Refines.atop`), and the pool over the objects
is the pool that has them inside (`tracks`): `pool_mirrors`. What holds of the pool then holds of
the system, with what the selected queue stores for the tasks that are left: `system_conserves`.
-/

set_option autoImplicit false

namespace Lumen.Concurrency

open Lumen.Lib Lumen.Lib.Shared Lumen.Core

/-! ## The queue that is selected -/

namespace QueueKind

variable {ι : Type} [DecidableEq ι]

abbrev State (kind : QueueKind) (ι : Type) := Shared.State ι (kind.Mem ι) kind.Pc

/-- What a queue relies on: the SPSC queue on the one producer `p` and the one consumer `c`. -/
def Within (kind : QueueKind) (p c : ι) :
    kind.State ι → ι × Act (kind.Choice ι) → Prop :=
  match kind with
  | .spsc => SPSCTaskQueue.Roles p c []
  | .mpmc => fun s : MPMCTaskQueue.State ι => MPMCTaskQueue.Below s
  | .naive => fun _ _ => True

def StandsFor (kind : QueueKind) (p c : ι) :
    kind.State ι → AtomicTaskQueue.State ι → Prop :=
  match kind with
  | .spsc => SPSCTaskQueue.StandsFor p c
  | .mpmc => MPMCTaskQueue.StandsFor
  | .naive => NaiveTaskQueue.StandsFor

/-- The tasks that a queue stores, oldest first. -/
def contents (kind : QueueKind) : kind.Mem ι → List InferenceTask :=
  match kind with
  | .spsc => SPSCTaskQueue.Mem.ring
  | .mpmc => MPMCTaskQueue.Mem.ring
  | .naive => NaiveTaskQueue.Mem.data

theorem refines (kind : QueueKind) (p c : ι) : (kind.queue ι).Refines (AtomicTaskQueue.impl ι kind)
    (fun _ => none) (kind.Within p c) (kind.StandsFor p c) :=
  match kind with
  | .spsc => SPSCTaskQueue.refines p c
  | .mpmc => MPMCTaskQueue.refines ι
  | .naive => NaiveTaskQueue.refines ι

theorem returns (kind : QueueKind) : (kind.queue ι).Returns :=
  match kind with
  | .spsc => SPSCTaskQueue.returns
  | .mpmc => MPMCTaskQueue.returns
  | .naive => NaiveTaskQueue.returns

section
variable {kind : QueueKind} {p c i : ι} {s : kind.State ι}

omit [DecidableEq ι] in
theorem within_call {op : ITaskQueue.Op} (hb : kind.Below s.mem)
    (hpush : ∀ task, op = .push task → i = p)
    (hpop : kind = .spsc → op = .pop ∨ (∃ n, op = .popBatch n) → i = c) :
    kind.Within p c s (i, .call op) := by
  cases kind with
  | spsc =>
    cases op with
    | push task => exact hpush task rfl
    | pop => exact hpop rfl (.inl rfl)
    | popBatch n => exact hpop rfl (.inr ⟨n, rfl⟩)
    | size | empty | shutdown => trivial
  | mpmc => exact hb
  | naive => trivial

omit [DecidableEq ι] in
theorem within_run {x : kind.Choice ι} (hb : kind.Below s.mem) :
    kind.Within p c s (i, .run x) := by
  cases kind with
  | spsc => trivial
  | mpmc => exact hb
  | naive => trivial

end

/-- Between its operations the queue holds what it stores. -/
theorem StandsFor.contents {kind : QueueKind} {p c : ι} {s : kind.State ι}
    {t : AtomicTaskQueue.State ι} (h : kind.StandsFor p c s t)
    (hq : ∀ i, s.pc i = (kind.queue ι).idle) : t.mem.tasks = (kind.contents s.mem).map .plain := by
  cases kind with
  | spsc => exact SPSCTaskQueue.StandsFor.ring h (hq c)
  | mpmc => exact MPMCTaskQueue.StandsFor.ring h hq
  | naive => exact NaiveTaskQueue.StandsFor.tasks h

end QueueKind

namespace ThreadPool

variable {ι : Type} [DecidableEq ι] {setup : Setup ι} {allocator : ι → Allocator} {mn : ι}
  {h : List (Shared.Event ι (Op Unit) Ret (Obs Unit))} {s : SystemState setup}

/-- With the SPSC queue there is one worker. -/
def Single (setup : Setup ι) (c : ι) : Prop :=
  setup.kind = .spsc → ∀ w ∈ setup.workers, w = c

/-- What a step of the system has to meet for the queues. -/
def Within (setup : Setup ι) (allocator : ι → Allocator) (mn c : ι) (s : SystemState setup)
    (l : SystemLabel setup) : Prop :=
  Use setup mn s l ∧ (queues setup allocator).Within ((setup.kind.queue ι).pair
    (NaiveResultQueue.impl ι)) (Impl.PairWithin (setup.kind.queue ι) (NaiveResultQueue.impl ι)
      (setup.kind.Within mn c) fun _ _ => True) s l

omit [DecidableEq ι] in
/-- The calls of the task queue. -/
theorem invoke_inl {p : Pc ι Unit} {op : ITaskQueue.Op} (h : invoke setup p = some (.inl op)) :
    (p.pushing = true ∧ ∃ task, op = .push task) ∨
      (p.working = true ∧ op = .popBatch setup.batchSize) ∨ op = .shutdown := by
  unfold invoke at h
  split at h <;> cases h
  · exact .inl ⟨rfl, _, rfl⟩
  · exact .inr (.inl ⟨rfl, rfl⟩)
  · exact .inr (.inr rfl)

theorem within {c : ι} (hone : Single setup c) (hc : Callers setup mn s) {l : SystemLabel setup}
    (hl : InUse setup mn s l) : Within setup allocator mn c s l := by
  refine ⟨hl.1, ?_⟩
  obtain ⟨i, op | x⟩ := l
  · trivial
  refine ⟨fun p op hpc hinv => ?_, fun p q y _ _ => ?_⟩
  · cases op with
    | inr op => trivial
    | inl op =>
      have hsite : site (s.pc i) = p := by rw [hpc]; rfl
      refine QueueKind.within_call hl.2 (fun task he => ?_) fun hk he => ?_ <;>
        obtain ⟨hp, task', rfl⟩ | ⟨hp, rfl⟩ | rfl := invoke_inl hinv
      · exact (hc.pushing i (by rw [hsite]; exact hp)).1
      · cases he
      · cases he
      · simp at he
      · exact hone hk i (hc.worker i (by rw [hsite]; exact hp))
      · simp at he
  · cases y with
    | inl y => exact QueueKind.within_run hl.2
    | inr y => trivial

/-! ## The system and the pool -/

/-- The queues of the system stand for objects. -/
def SystemRel (setup : Setup ι) (mn c : ι) : SystemState setup → ObjectState ι → Prop :=
  Impl.AtopRel ((setup.kind.queue ι).pair (NaiveResultQueue.impl ι))
    ((AtomicTaskQueue.impl ι setup.kind).pair (ResultQueue.impl ι))
    (Impl.PairRel (setup.kind.queue ι) (NaiveResultQueue.impl ι)
      (AtomicTaskQueue.impl ι setup.kind) (ResultQueue.impl ι) (setup.kind.StandsFor mn c)
      NaiveResultQueue.StandsFor)

theorem system_refines {c : ι} : (system setup allocator).Refines (objects setup allocator) some
    (Within setup allocator mn c) (SystemRel setup mn c) :=
  (Impl.Refines.atop (impl Unit setup allocator) (queues setup allocator)
    ((setup.kind.refines mn c).pair (NaiveResultQueue.refines ι) setup.kind.returns
      NaiveResultQueue.returns (AtomicTaskQueue.returns ι setup.kind) Impl.atomic_returns)
    (Impl.pair_returns _ _) (Impl.pair_returns _ _)).weaken fun _ _ h => h.2

/-- The pool `t`, which has shown `h'`, is the system `s`, which has shown `h`; it may be ahead by
an operation of a queue that has taken effect and has not returned. -/
structure Mirrors (setup : Setup ι) (mn c : ι) (h : List (Shared.Event ι (Op Unit) Ret (Obs Unit)))
    (s : SystemState setup) (h' : List (Event ι Unit)) (t : State ι Unit) : Prop where
  events : ∀ i, ∃ rest, eventsBy i (h'.filterMap (Shared.Event.through Obs.seen)) =
    eventsBy i (h.filterMap (Shared.Event.through Obs.seen)) ++ rest ∧
      ∀ p, s.pc i = .own p → rest = []
  own : ∀ i p, s.pc i = .own p → t.pc i = p
  working : ∀ i, (t.pc i).working = (site (s.pc i)).working
  fields : t.mem.stop = s.mem.1.stop ∧ t.mem.allocator = s.mem.1.allocator ∧
    t.mem.ended = s.mem.1.ended ∧ t.mem.joinable = s.mem.1.joinable
  queue : ∃ q, setup.kind.StandsFor mn c
    (Impl.left (setup.kind.queue ι) (Impl.callee ((setup.kind.queue ι).pair
      (NaiveResultQueue.impl ι)) s)) q ∧ q.mem = t.mem.queue
  results : t.mem.results.map Prod.snd = s.mem.2.2.data

omit [DecidableEq ι] in
theorem site_caller {π : Type*} (x : Impl.Site (Pc ι Unit) π) : site x.caller = site x := by
  cases x <;> rfl

omit [DecidableEq ι] in
/-- A worker over the queues is a worker of the pool. -/
theorem At.working {x : ObjectSite ι} {p : Pc ι Unit} (h : At setup x p) :
    p.working = (site x).working := by
  cases h <;> try rfl
  case batch => split <;> rfl

/-- The threads, the fields and the contents of the queues of the pool `t` and of the system `s`. -/
structure Backs (setup : Setup ι) (mn c : ι) (s : SystemState setup) (t : State ι Unit) : Prop where
  own : ∀ i p, s.pc i = .own p → t.pc i = p
  working : ∀ i, (t.pc i).working = (site (s.pc i)).working
  fields : t.mem.stop = s.mem.1.stop ∧ t.mem.allocator = s.mem.1.allocator ∧
    t.mem.ended = s.mem.1.ended ∧ t.mem.joinable = s.mem.1.joinable
  queue : ∃ q, setup.kind.StandsFor mn c
    (Impl.left (setup.kind.queue ι) (Impl.callee ((setup.kind.queue ι).pair
      (NaiveResultQueue.impl ι)) s)) q ∧ q.mem = t.mem.queue
  results : t.mem.results.map Prod.snd = s.mem.2.2.data

theorem backs {c : ι} {b : ObjectState ι} {t : State ι Unit} (hrel : SystemRel setup mn c s b)
    (htr : Tracks setup b t) : Backs setup mn c s t := by
  obtain ⟨results, hmem, hres⟩ := htr.mem
  have hown := hrel.own
  refine ⟨fun i p hp => ?_, fun i => ?_, ?_, ?_, ?_⟩
  · have hat := htr.pc i
    rw [hrel.own_eq hp] at hat
    generalize t.pc i = p' at hat
    cases hat
    rfl
  · refine (htr.pc i).working.trans (congrArg Pc.working ?_)
    rw [← site_caller (b.pc i), hrel.caller i, site_caller]
  · rw [hmem, ← hown]
    exact ⟨rfl, rfl, rfl, rfl⟩
  · exact ⟨_, hrel.callee.left, by rw [hmem]; rfl⟩
  · rw [hmem]
    have hv := hrel.callee.right.value
    exact hres.trans (congrArg ResultQueue.Value.results hv)

/-- The system uses its queues as they rely on. -/
theorem within_of_reach {c : ι} (hone : Single setup c) {l : SystemLabel setup}
    (hr : (system setup allocator).lts.ReachIf (fun _ => InUse setup mn) h s)
    (hl : InUse setup mn s l) : Within setup allocator mn c s l :=
  within hone (callers (hr.mono fun _ _ _ h => h.1)) hl

/-- A call of the system is one of the pool over the objects. -/
theorem use_objects {c i : ι} {op : Op Unit} {b : ObjectState ι} {χ χ' : Type*}
    (hrel : SystemRel setup mn c s b)
    (hu : Use setup mn s (i, (.call op : Shared.Act (Op Unit) χ))) :
    Use setup mn b (i, (.call op : Shared.Act (Op Unit) χ')) := by
  cases op with
  | workerLoop =>
    refine ⟨hu.1, ?_⟩
    rw [hrel.own]
    exact hu.2
  | shutdown => exact hu
  | popImmediate => exact hu
  | push job =>
    refine ⟨hu.1, ?_⟩
    rw [hrel.own]
    exact hu.2

/-- The pool over the objects that the system stands for, and the pool that has them inside. -/
theorem exists_tracked {c : ι} (hone : Single setup c)
    (hr : (system setup allocator).lts.ReachIf (fun _ => InUse setup mn) h s) :
    ∃ b h' t, SystemRel setup mn c s b ∧ Tracks setup b t ∧
      (lts Unit setup allocator).ReachIf (fun _ => Roles setup mn) h' t ∧
      Impl.Agrees Obs.seen Obs.seen pending b.pc h h' := by
  have hr' : (system setup allocator).lts.ReachIf (fun _ => Within setup allocator mn c) h s := by
    refine hr.inv_of_reach (I := fun h s => (system setup allocator).lts.ReachIf
      (fun _ => Within setup allocator mn c) h s) (fun s h0 => .init h0)
      fun h s l es s' hreach hi hl hs => hi.step ?_ hs
    exact within_of_reach hone hreach hl
  obtain ⟨b, hb, hrel⟩ := system_refines.reachIf (D := Use setup mn) (fun _ _ _ => trivial)
    (fun s t i op hrel hl => use_objects hrel hl.1) hr'
  rw [Impl.filterMap_through_some] at hb
  obtain ⟨h', t, ht, htr, hag⟩ := (tracks setup allocator mn).reach hb
  exact ⟨b, h', t, hrel, htr, ht, hag⟩

/-- **The pool with its queues is the pool**, for each of the queues that `main` selects. -/
theorem pool_mirrors {c : ι} (hone : Single setup c)
    (hr : (system setup allocator).lts.ReachIf (fun _ => InUse setup mn) h s) :
    ∃ h' t, (lts Unit setup allocator).ReachIf (fun _ => Roles setup mn) h' t ∧
      Mirrors setup mn c h s h' t := by
  obtain ⟨b, h', t, hrel, htr, ht, hag⟩ := exists_tracked hone hr
  obtain ⟨hown, hworking, hfields, hqueue, hresults⟩ := backs hrel htr
  refine ⟨h', t, ht, fun i => ⟨_, hag i, fun p hp => ?_⟩, hown, hworking, hfields, hqueue,
    hresults⟩
  rw [hrel.own_eq hp]
  rfl

/-! ## Conservation -/

/-- The results that have been returned to the threads that popped them. -/
def delivered {ε : Type*} (h : List (Shared.Event ι (Op Unit) Ret ε)) : List InferenceResult :=
  h.filterMap fun
    | .ret _ (.popped result) => result
    | _ => none

/-- No thread is in an operation of a queue. -/
def Quiet (s : SystemState setup) : Prop := ∀ i, ∃ p, s.pc i = .own p

/-- What is popped is returned. -/
theorem delivered_eq {h : List (Event ι Unit)} {t : State ι Unit}
    (hr : (lts Unit setup allocator).ReachIf (fun _ => Roles setup mn) h t) :
    delivered h = (popped h).map Prod.snd := by
  refine hr.inv (I := fun h _ => delivered h = (popped h).map Prod.snd) (fun _ _ => rfl)
    fun h s l es s' hi _ hs => ?_
  have hes : delivered es = (popped es).map Prod.snd := by
    obtain ⟨i, op | c⟩ := l
    · obtain ⟨-, rfl, -⟩ := Impl.step_call.1 hs
      rfl
    · obtain ⟨o, ho, rfl, -⟩ := Impl.step_run.1 hs
      replace ho : run setup i s.mem c (s.pc i) = some o := ho
      generalize s.pc i = p at ho
      cases p <;> simp only [run, push, popImmediate, popBatch, forEach, engineRun, stopJoin] at ho
      all_goals
        (repeat' split at ho) <;> cases ho <;>
          simp [delivered, popped, Outcome.events, observed, Obs.poppedResult]
  simp only [delivered, List.filterMap_append, popped, observed_append, List.map_append] at hi hes ⊢
  rw [hi, hes]

omit [DecidableEq ι] in
/-- What the two show of the jobs is seen. -/
theorem seen_eq (h : List (Shared.Event ι (Op Unit) Ret (Obs Unit))) :
    accepted (h.filterMap (Shared.Event.through Obs.seen)) = accepted h ∧
      produced (h.filterMap (Shared.Event.through Obs.seen)) = produced h ∧
      delivered (h.filterMap (Shared.Event.through Obs.seen)) = delivered h := by
  simp only [accepted, produced, observed, delivered, List.filterMap_filterMap]
  refine ⟨List.filterMap_congr fun e _ => ?_, List.filterMap_congr fun e _ => ?_,
    List.filterMap_congr fun e _ => ?_⟩ <;>
    cases e with
    | obs i o => cases o <;> rfl
    | _ => rfl

omit [DecidableEq ι] in
theorem mem_produced {h : List (Event ι Unit)} {x : Job Unit × InferenceResult} :
    x ∈ produced h ↔ ∃ i, .obs i (.produced x.1 x.2) ∈ h := by
  simp only [produced, observed, List.mem_filterMap]
  constructor
  · rintro ⟨o, ⟨e, he, ho⟩, hx⟩
    cases o with
    | produced job result =>
      cases hx
      cases e with
      | obs i o =>
        cases ho
        exact ⟨i, he⟩
      | _ => cases ho
    | _ => cases hx
  · rintro ⟨i, hi⟩
    exact ⟨_, ⟨_, hi, rfl⟩, rfl⟩

omit [DecidableEq ι] in
theorem accepted_perm {h h' : List (Event ι Unit)} (hp : h.Perm h') :
    (accepted h).Perm (accepted h') ∧ (produced h).Perm (produced h') ∧
      (delivered h).Perm (delivered h') :=
  ⟨(hp.filterMap _).filterMap _, (hp.filterMap _).filterMap _, hp.filterMap _⟩

theorem Mirrors.mem {c : ι} {h' : List (Event ι Unit)} {t : State ι Unit}
    (hm : Mirrors setup mn c h s h' t) {e : Event ι Unit}
    (he : e ∈ h.filterMap (Shared.Event.through Obs.seen)) :
    e ∈ h'.filterMap (Shared.Event.through Obs.seen) :=
  mem_of_eventsBy (fun i => (hm.events i).choose_spec.1) he

/-- Every accepted task is in one place, and every result is one that an engine has made of its
task. -/
structure SystemConserved (setup : Setup ι)
    (h : List (Shared.Event ι (Op Unit) Ret (Obs Unit))) (s : SystemState setup) : Prop where
  made : ∀ x ∈ produced h, Made setup x.1 x.2
  jobs : Quiet s → (accepted h).Perm ((setup.kind.contents s.mem.2.1).map .plain ++
    ((setup.workers.flatMap fun i => (site (s.pc i)).hand) ++ (produced h).map Prod.fst))
  results : Quiet s → ((produced h).map Prod.snd).Perm (delivered h ++ s.mem.2.2.data)
  stopped : ∀ i, .ret i .stopped ∈ h → (∀ w ∈ setup.workers, w ∈ s.mem.1.ended) ∧
    (Quiet s → (accepted h).Perm ((setup.kind.contents s.mem.2.1).map .plain ++
      (produced h).map Prod.fst))

/-- **Conservation** in the pool with its queues. -/
theorem system_conserves {c : ι} (hone : Single setup c)
    (hr : (system setup allocator).lts.ReachIf (fun _ => InUse setup mn) h s) :
    SystemConserved setup h s := by
  obtain ⟨h', t, ht, hm⟩ := pool_mirrors hone hr
  obtain ⟨hthreads, hjobs⟩ := inv ht
  obtain ⟨ha, hp, hd⟩ := seen_eq h
  obtain ⟨ha', hp', hd'⟩ := seen_eq h'
  have hperm : Quiet s → (accepted h').Perm (accepted h) ∧ (produced h').Perm (produced h) ∧
      (delivered h').Perm (delivered h) := fun hq => by
    rw [← ha, ← hp, ← hd, ← ha', ← hp', ← hd']
    refine accepted_perm (perm_of_eventsBy fun i => ?_)
    obtain ⟨rest, hrest, hnil⟩ := hm.events i
    obtain ⟨p, hpc⟩ := hq i
    rw [hrest, hnil p hpc, List.append_nil]
  have hqueue : Quiet s → t.mem.queue.tasks = (setup.kind.contents s.mem.2.1).map .plain :=
    fun hq => by
      obtain ⟨q, hstands, hqueue⟩ := hm.queue
      rw [← hqueue]
      refine QueueKind.StandsFor.contents hstands fun i => ?_
      obtain ⟨p, hpc⟩ := hq i
      simp only [Impl.left, Impl.callee, hpc, Impl.Site.callee]
      rfl
  have hhand : Quiet s → heldBy Pc.hand setup.workers t.pc =
      setup.workers.flatMap fun i => (site (s.pc i)).hand := fun hq =>
    List.flatMap_congr fun i _ => by
      obtain ⟨p, hpc⟩ := hq i
      rw [hm.own i p hpc, hpc]
      rfl
  have hjob : Quiet s → (accepted h).Perm ((setup.kind.contents s.mem.2.1).map .plain ++
      ((setup.workers.flatMap fun i => (site (s.pc i)).hand) ++ (produced h).map Prod.fst)) :=
    fun hq => by
      obtain ⟨h1, h2, -⟩ := hperm hq
      have h3 := h1.symm.trans hjobs.jobs
      rw [hqueue hq, hhand hq] at h3
      exact h3.trans (((h2.map _).append_left _).append_left _)
  refine ⟨fun x hx => hjobs.made x ?_, hjob, fun hq => ?_, fun i hi => ?_⟩
  · rw [← hp, mem_produced] at hx
    rw [← hp', mem_produced]
    exact hx.imp fun i hi => hm.mem hi
  · obtain ⟨-, h2, h3⟩ := hperm hq
    have h4 := (h2.symm.map Prod.snd)
    rw [hjobs.results, List.map_append, hm.results, ← delivered_eq ht] at h4
    exact h4.trans (h3.append_right _)
  · have hret : .ret i .stopped ∈ h' := by
      have hmem : (.ret i .stopped : Event ι Unit) ∈ h'.filterMap (Shared.Event.through Obs.seen) :=
        hm.mem (List.mem_filterMap.2 ⟨_, hi, rfl⟩)
      obtain ⟨e, he, hte⟩ := List.mem_filterMap.1 hmem
      cases e with
      | call => cases hte
      | ret =>
        cases hte
        exact he
      | obs j o => cases o <;> cases hte
    have hended := hthreads.returned i hret
    refine ⟨fun w hw => hm.fields.2.2.1 ▸ hended w hw, fun hq => ?_⟩
    have hnone : (setup.workers.flatMap fun i => (site (s.pc i)).hand) = [] :=
      List.flatMap_eq_nil_iff.2 fun w hw => by
        refine Pc.hand_of_working ?_
        rw [← hm.working]
        exact hthreads.ended w (hended w hw)
    simpa [hnone] using hjob hq

/-- A pool with the SPSC queue and one worker, and a task for it. -/
def spscPod : Setup Bool where
  workers := [true]
  nodup := List.nodup_singleton true
  batchSize := 2
  kind := .spsc
  engine _ := pixelEngine

def pixelTask : Job Unit :=
  { task := { clientFd := 4, data := [1, 2, 3], pre := some 0, post := some 1, trace := none },
    tag := () }

/-- Steps of `i` in its own code: it calls a queue last, if `enter`. -/
def spscOwn (i : Bool) (cs : List Choice) (enter : Bool) : List (SystemLabel spscPod) :=
  cs.map (fun c => (i, .run (.own c))) ++ if enter then [(i, .run .call)] else []

/-- Steps of `i` inside a queue. -/
def spscInside (i : Bool) (c : Unit ⊕ Option Bool) (n : Nat) : List (SystemLabel spscPod) :=
  List.replicate n (i, .run (.inside c))

def spscCall (i : Bool) (op : Op Unit) : List (SystemLabel spscPod) :=
  [(i, .call op)]

/-- The worker takes the task and shuts down only when it has pushed its result. -/
def spscRun : List (SystemLabel spscPod) :=
  [spscCall false (.push pixelTask), spscOwn false [] true, spscInside false (.inl ()) 5,
    spscCall true .workerLoop, spscOwn true [.none] true, spscInside true (.inl ()) 8,
    spscOwn true [.clock 0, .engine {}, .none] true, spscInside true (.inr none) 2,
    spscCall false .shutdown, spscOwn false [.none, .none] true, spscInside false (.inl ()) 1,
    spscInside true (.inr none) 2, spscOwn true [.none, .none, .none] false,
    spscOwn false [.none, .none] false].flatten

/-- What the run shows. -/
def spscShown : List (Shared.Event Bool (Op Unit) Ret (Obs Unit)) :=
  [.call false (.push pixelTask), .obs false (.accepted pixelTask), .ret false (.pushed true),
    .call true .workerLoop, .call false .shutdown,
    .obs true (.produced pixelTask ⟨4, [1, 2, 3], none, true, []⟩), .ret true .exited,
    .ret false .stopped]

theorem spscRun_reach : ∃ s, (system spscPod fun _ => .standardOrt).lts.ReachIf
      (fun _ => InUse spscPod false) spscShown s ∧ Quiet s := by
  let T := (system spscPod fun _ => .standardOrt).lts
  obtain ⟨s, he⟩ : ∃ s, T.exec (system spscPod fun _ => .standardOrt).init spscRun =
      some (spscShown, s) := ⟨_, rfl⟩
  have hidle : (T.exec (system spscPod fun _ => .standardOrt).init spscRun).map
      (fun r => (r.2.pc false, r.2.pc true)) = some (.own .idle, .own .idle) := rfl
  rw [he] at hidle
  obtain ⟨hmain, hworker⟩ := Prod.mk.inj (Option.some.inj hidle)
  refine ⟨s, Lts.ReachIf.along (C := fun _ => InUse spscPod false) (.init rfl)
    (by decide +kernel) he, ?_⟩
  intro i
  match i with
  | false => exact ⟨_, hmain⟩
  | true => exact ⟨_, hworker⟩

theorem spscPod_single : Single spscPod true := fun _ w hw => by simpa [spscPod] using hw

theorem pool_mirrors_run : ∃ h s h' t, (system spscPod fun _ => .standardOrt).lts.ReachIf
      (fun _ => InUse spscPod false) h s ∧ .ret false .stopped ∈ h ∧
    (lts Unit spscPod fun _ => .standardOrt).ReachIf (fun _ => Roles spscPod false) h' t ∧
      Mirrors spscPod false true h s h' t := by
  obtain ⟨s, hr, -⟩ := spscRun_reach
  obtain ⟨h', t, ht, hm⟩ := pool_mirrors spscPod_single hr
  exact ⟨_, s, h', t, hr, by simp [spscShown], ht, hm⟩

theorem system_conserves_run : ∃ h s, (system spscPod fun _ => .standardOrt).lts.ReachIf
      (fun _ => InUse spscPod false) h s ∧ .ret false .stopped ∈ h ∧ Quiet s ∧
      SystemConserved spscPod h s := by
  obtain ⟨s, hr, hq⟩ := spscRun_reach
  exact ⟨_, s, hr, by simp [spscShown], hq, system_conserves spscPod_single hr⟩

end ThreadPool
end Lumen.Concurrency
