import Lumen.Concurrency.Proof.PoolShutdown
import Lumen.Concurrency.Proof.QueueMoves

/-!
# The pool with its queues shuts down

`PoolShutdown` has an operation of a queue as one step. In the pool with its queues, each access of
which is a step, a thread inside an operation can move as soon as the queue lets it, or the thread
that it waits for can (`QueueKind.exists_move`). So from the time that `m_stop` is set until
`shutdown` has returned, the threads of the pool never all wait (`system_never_stuck`).
-/

set_option autoImplicit false

namespace Lumen.Concurrency.ThreadPool

open Lumen.Lib Lumen.Lib.Shared Lumen.Core

variable {ι : Type} [DecidableEq ι] {setup : Setup ι} {allocator : ι → Allocator} {mn c : ι}
  {h : List (Shared.Event ι (Op Unit) Ret (Obs Unit))} {s : SystemState setup}

/-! ## What can be done -/

/-- No compare-exchange of the step fails spuriously, and its thread does not wake by itself. -/
def Willed (setup : Setup ι) : SystemLabel setup → Prop
  | (i, .run (.inside (.inl x))) => setup.kind.Willed i x
  | (i, .run (.inside (.inr x))) => x ≠ some i
  | _ => True

/-- The engine fails in the call that the step makes. -/
def Fails (s : SystemState setup) : SystemLabel setup → Prop
  | (i, .run (.own (.engine env))) => ∃ job task batch f,
    s.pc i = .own (.engineRun job task batch) ∧
      (setup.engine i).run env task (s.mem.1.allocator i) = .error f
  | _ => False

/-- A thread of the pool can move, or it calls its engine, which fails. -/
def CanMove (setup : Setup ι) (allocator : ι → Allocator) (mn : ι) (s : SystemState setup) : Prop :=
  ∃ l, l.1 ∈ own setup mn ∧ Proceeds setup s.mem.1.ended l ∧ Willed setup l ∧
    (((system setup allocator).step s l).isSome ∨ Fails s l)

/-- Only the threads of the pool use it. -/
theorem own_of_busy (hr : (system setup allocator).lts.ReachIf (fun _ => InUse setup mn) h s)
    {i : ι} (hi : s.pc i ≠ .own .idle) : i ∈ own setup mn := by
  have hall : ∀ i, s.pc i ≠ .own .idle → i ∈ own setup mn := by
    refine hr.inv (I := fun _ s => ∀ i, s.pc i ≠ .own .idle → i ∈ own setup mn)
      (fun s h0 i hi => ?_) fun h s l es s' hown hl hs => ?_
    · obtain rfl : s = (system setup allocator).init := h0
      exact absurd rfl hi
    · obtain ⟨i, op | x⟩ := l
      · obtain ⟨-, -, rfl⟩ := Impl.step_call.1 hs
        refine forall_update (P := fun j (x : Impl.Site (Pc ι Unit) _) => x ≠ .own .idle →
          j ∈ own setup mn) (fun _ => ?_) fun j _ => hown j
        cases op with
        | workerLoop => exact Finset.mem_insert_of_mem (List.mem_toFinset.2 hl.1.1)
        | shutdown => exact hl.1 ▸ Finset.mem_insert_self ..
        | push job => exact hl.1.1 ▸ Finset.mem_insert_self ..
        | popImmediate => exact hl.1 ▸ Finset.mem_insert_self ..
      · obtain ⟨o, ho, -, rfl⟩ := Impl.step_run.1 hs
        refine forall_update (P := fun j (x : Impl.Site (Pc ι Unit) _) => x ≠ .own .idle →
          j ∈ own setup mn) (fun _ => hown i fun hidle => ?_) fun j _ => hown j
        rw [hidle] at ho
        obtain ⟨c, o, -, ho, -⟩ := (Impl.atop_own rfl).1 ho
        cases ho
  exact hall i hi

/-! ## Inside a queue -/

/-- The task queue of the system. -/
abbrev taskQueue (s : SystemState setup) : setup.kind.State ι :=
  Impl.left (setup.kind.queue ι) (Impl.callee ((setup.kind.queue ι).pair
    (NaiveResultQueue.impl ι)) s)

/-- The result queue of the system. -/
abbrev responseQueue (s : SystemState setup) : NaiveResultQueue.State ι :=
  Impl.right (NaiveResultQueue.impl ι) (Impl.callee ((setup.kind.queue ι).pair
    (NaiveResultQueue.impl ι)) s)

omit [DecidableEq ι] in
/-- The calls of the result queue. -/
theorem invoke_inr {p : Pc ι Unit} {op : ResultQueue.Op} (h : invoke setup p = some (.inr op)) :
    (∃ result, op = .push result) ∨ op = .popImmediate := by
  unfold invoke at h
  split at h <;> cases h
  · exact .inl ⟨_, rfl⟩
  · exact .inr rfl

/-- The runs of the queues in a run of the system. -/
theorem queues_reach (hr : (system setup allocator).lts.ReachIf (fun _ => InUse setup mn) h s) :
    (∃ h', (setup.kind.queue ι).lts.Reach h' (taskQueue s)) ∧
      ∃ h', (NaiveResultQueue.impl ι).lts.ReachIf (fun _ => NaiveResultQueue.Serving) h'
        (responseQueue s) := by
  have hin : (system setup allocator).lts.ReachIf (fun _ => (queues setup allocator).Within
      ((setup.kind.queue ι).pair (NaiveResultQueue.impl ι))
      (Impl.PairWithin (setup.kind.queue ι) (NaiveResultQueue.impl ι) (fun _ _ => True)
        NaiveResultQueue.Serving)) h s := by
    refine hr.mono fun h s l _ => ?_
    obtain ⟨i, op | x⟩ := l
    · trivial
    refine ⟨fun p op hpc hinv => ?_, fun p q y _ _ => ?_⟩
    · cases op with
      | inl op => trivial
      | inr op => obtain ⟨result, rfl⟩ | rfl := invoke_inr hinv <;> trivial
    · cases y <;> trivial
  obtain ⟨h', hc⟩ := Impl.callee_reach (Impl.pair_returns _ _) hin
  exact ⟨Impl.left_reach setup.kind.returns hc, Impl.right_reach NaiveResultQueue.returns hc⟩

variable {b : ObjectState ι} {t : State ι Unit} {i : ι} {p : Pc ι Unit}

omit [DecidableEq ι] in
/-- A thread that has called a queue is in an operation of it, and takes tasks only for a batch. -/
theorem At.inside {x : Impl.Side AtomicTaskQueue.Pc (Impl.AtomicPc ResultQueue.Op ResultQueue.Ret)}
    {p' : Pc ι Unit} (h : At setup (.inside p x) p') :
    (∃ q, x = .fst q ∧ q ≠ .idle ∧ ((∃ ctx, q = .pop ctx) → p = .popBatch [])) ∨
      ∃ q, x = .snd q ∧ q ≠ .idle := by
  cases h
  case pop => exact .inl ⟨_, rfl, by simp, fun _ => rfl⟩
  case result => exact .inr ⟨_, rfl, by simp⟩
  case produced => exact .inr ⟨_, rfl, by simp⟩
  case immediate => exact .inr ⟨_, rfl, by simp⟩
  case popped => exact .inr ⟨_, rfl, by simp⟩
  all_goals exact .inl ⟨_, rfl, by simp, by simp⟩

/-- A thread inside an operation can move, or the one that it waits for. -/
theorem inside_moves (hr : (system setup allocator).lts.ReachIf (fun _ => InUse setup mn) h s)
    (hrel : SystemRel setup mn c s b) (htr : Tracks setup b t)
    {q : Impl.Side setup.kind.Pc NaiveResultQueue.Pc} (hs : s.pc i = .inside p q)
    (hwait : t.mem.queue.stopped = true ∨ p ≠ .popBatch []) : CanMove setup allocator mn s := by
  obtain ⟨⟨k, htask⟩, ⟨k', hresponse⟩⟩ := queues_reach hr
  obtain ⟨y, hb⟩ := hrel.inside_eq hs
  have hat := htr.pc i
  rw [hb] at hat
  have hbusy : ∀ {j}, (Impl.callee ((setup.kind.queue ι).pair (NaiveResultQueue.impl ι)) s).pc j ≠
      ((setup.kind.queue ι).pair (NaiveResultQueue.impl ι)).idle → j ∈ own setup mn := by
    intro j hj
    refine own_of_busy hr fun hidle => hj ?_
    simp only [Impl.callee, hidle, Impl.Site.callee]
  obtain ⟨q', rfl, hq', hpop⟩ | ⟨q', rfl, hq'⟩ := hat.inside
  · have hpc : (Impl.left (AtomicTaskQueue.impl ι setup.kind) (Impl.callee
        ((AtomicTaskQueue.impl ι setup.kind).pair (ResultQueue.impl ι)) b)).pc i = q' := by
      simp only [Impl.left, Impl.callee, hb, Impl.Site.callee, Impl.Side.left]
    have hclosed : b.mem.2.1.stopped = true ∨ ∀ ctx, q' ≠ .pop ctx := by
      obtain ⟨results, hmem, -⟩ := htr.mem
      rw [hmem] at hwait
      exact hwait.imp_right fun hp ctx hctx => hp (hpop ⟨ctx, hctx⟩)
    obtain ⟨j, x, hj, hx, hrun⟩ := QueueKind.exists_move htask hrel.callee.left (i := i)
      (by rwa [hpc]) (by rwa [hpc])
    obtain ⟨hne, hpair⟩ := Impl.left_enabled (NaiveResultQueue.impl ι) hj hrun
    exact ⟨(j, .run (.inside (.inl x))), hbusy hne, trivial, hx,
      .inl (Impl.callee_enabled hne hpair)⟩
  · have hpc : (responseQueue s).pc i ≠ .idle := by
      intro hidle
      have hf := hrel.callee.right.pc i
      rw [hidle] at hf
      have hq : NaiveResultQueue.Follows s.mem.2.2 .idle q' := by
        simpa only [Impl.right, Impl.callee, hb, Impl.Site.callee, Impl.Side.right] using hf
      exact hq' hq
    obtain ⟨j, hj, hrun⟩ := NaiveResultQueue.exists_move (NaiveResultQueue.guarded hresponse) hpc
    obtain ⟨hne, hpair⟩ := Impl.right_enabled (setup.kind.queue ι) (c := none) hj hrun
    exact ⟨(j, .run (.inside (.inr none))), hbusy hne, trivial, by simp [Willed],
      .inl (Impl.callee_enabled hne hpair)⟩

/-! ## In the code of the pool -/

/-- The engine fails in the system as in the pool. -/
theorem fails_of_failure (hb : Backs setup mn c s t) (hs : s.pc i = .own p) {x : Choice}
    {f : Failure} (hf : failure setup t (i, .run x) = some f) : Fails s (i, .run (.own x)) := by
  have hp := hb.own i p hs
  cases x with
  | engine env =>
    obtain ⟨job, task, batch, he⟩ := engineRun_of_failure hf
    rw [hp] at he
    subst he
    refine ⟨job, task, batch, f, hs, ?_⟩
    simp only [failure, hp, hb.fields.2.1] at hf
    split at hf <;> rename_i hrun <;> cases hf
    exact hrun
  | _ => cases hf

/-- A thread in the code of the pool can move if it can in the pool. -/
theorem own_moves (hrel : SystemRel setup mn c s b) (htr : Tracks setup b t)
    (hi : i ∈ own setup mn) (hs : s.pc i = .own p) {x : Choice}
    (hstep : ((process Unit setup allocator).step (.ok t) (i, .run x)).isSome) :
    CanMove setup allocator mn s := by
  have hb := backs hrel htr
  have hp : t.pc i = p := hb.own i p hs
  have hat := htr.pc i
  rw [hrel.own_eq hs] at hat
  have hown : p.Own := by
    cases hat
    assumption
  obtain ⟨results, hmem, -⟩ := htr.mem
  rw [hrel.own] at hmem
  cases hinv : invoke setup p with
  | some op =>
    refine ⟨(i, .run .call), hi, trivial, trivial, .inl ?_⟩
    rw [Impl.step_isSome, hs]
    exact Option.isSome_iff_exists.2 ⟨_, (Impl.atop_call hinv).2 ⟨rfl, rfl⟩⟩
  | none =>
    refine ⟨(i, .run (.own x)), hi, trivial, trivial, ?_⟩
    obtain ⟨⟨es, r⟩, hr⟩ := Option.isSome_iff_exists.1 hstep
    cases r with
    | ok t' =>
      obtain ⟨o, ho, -, -⟩ := Impl.step_run.1 (process_ok.1 hr).2
      replace ho : run setup i t.mem x (t.pc i) = some o := ho
      rw [hp, hmem] at ho
      -- the step does not look at the queues
      have hback := (run_own s.mem.1.queue s.mem.1.results hinv hown ho).1
      refine .inl ?_
      rw [Impl.step_isSome, hs]
      exact Option.isSome_iff_exists.2 ⟨_, (Impl.atop_own hinv).2 ⟨x, _, rfl, hback, rfl⟩⟩
    | error f => exact .inr (fails_of_failure hb hs (process_error hr))

/-- A worker thread can start its loop if it can in the pool. -/
theorem call_moves (hrel : SystemRel setup mn c s b) (htr : Tracks setup b t)
    (hi : i ∈ own setup mn) (hs : s.pc i = .own p) {op : Op Unit}
    (hgo : Proceeds setup t.mem.ended ((i, .call op) : Label ι Unit))
    (hstep : ((process Unit setup allocator).step (.ok t) (i, .call op)).isSome) :
    CanMove setup allocator mn s := by
  have hb := backs hrel htr
  cases op with
  | workerLoop =>
    obtain ⟨⟨es, r⟩, hr⟩ := Option.isSome_iff_exists.1 hstep
    cases r with
    | error f => cases process_error hr
    | ok t' =>
      obtain ⟨hidle, -, -⟩ := Impl.step_call.1 (process_ok.1 hr).2
      rw [hb.own i p hs] at hidle
      refine ⟨(i, .call .workerLoop), hi, ⟨hgo.1, hb.fields.2.2.1 ▸ hgo.2⟩, trivial, .inl ?_⟩
      exact Option.isSome_iff_exists.2
        ⟨_, Impl.step_call.2 ⟨hs.trans (congrArg Impl.Site.own hidle), rfl, rfl⟩⟩
  | _ => cases hgo

/-! ## The theorem -/

omit [DecidableEq ι] in
theorem At.joining {x : ObjectSite ι} {p : Pc ι Unit} (h : At setup x p) :
    p.joining = (site x).joining := by
  cases h <;> try rfl
  case batch => split <;> rfl

/-- **No deadlock.** Once `m_stop` is set, every worker has ended and `shutdown` no longer waits
for them, or a thread of the pool can move: none of the three queues keeps all of them waiting. -/
theorem system_never_stuck (hone : Single setup c) (hmn : mn ∉ setup.workers)
    (hr : (system setup allocator).lts.ReachIf (fun _ => InUse setup mn) h s)
    (hstop : s.mem.1.stop = true) :
    ((∀ w ∈ setup.workers, w ∈ s.mem.1.ended) ∧ (site (s.pc mn)).joining = false) ∨
      CanMove setup allocator mn s := by
  obtain ⟨b, h', t, hrel, htr, ht, -⟩ := exists_tracked hone hr
  have hb := backs hrel htr
  have hstop' : t.mem.stop = true := hb.fields.1.trans hstop
  have hjoining : (t.pc mn).joining = (site (s.pc mn)).joining := by
    rw [(htr.pc mn).joining, ← site_caller (b.pc mn), hrel.caller mn, site_caller]
  cases hj : (t.pc mn).joining with
  | false =>
    refine .inl ⟨?_, hjoining ▸ hj⟩
    rw [← hb.fields.2.2.1]
    exact ((inv ht).1.stopped hstop').resolve_left (by simp [hj])
  | true =>
    right
    rcases (winding ht).closed hstop' with hclosed | hmain
    · obtain ⟨⟨i, a⟩, hi, hgo, hstep⟩ := never_stuck hmn ht hstop' hj
      cases hs : s.pc i with
      | inside p q => exact inside_moves hr hrel htr hs (.inl hclosed)
      | own p =>
        cases a with
        | run x => exact own_moves hrel htr hi hs hstep
        | call op => exact call_moves hrel htr hi hs hgo hstep
    · -- the main thread is to close the queue, or closes it
      have hi : mn ∈ own setup mn := Finset.mem_insert_self ..
      cases hs : s.pc mn with
      | own p =>
        refine own_moves hrel htr hi hs (x := .none) ?_
        simp [process, failure, impl, Impl.step, run, hmain]
      | inside p q =>
        refine inside_moves hr hrel htr hs (.inr fun hp => ?_)
        obtain ⟨y, hy⟩ := hrel.inside_eq hs
        have hat := htr.pc mn
        rw [hy, hmain, hp] at hat
        exact absurd hat.joining (by simp [Pc.joining, site])

/-- The pool with the queue on which a worker waits. -/
def naivePod : Setup Bool := { spscPod with kind := .naive }

/-- The worker waits for a task, and the main thread closes the queue: it is yet to notify. -/
def waitingRun : List (SystemLabel naivePod) :=
  [(true, .call .workerLoop), (true, .run (.own .none)), (true, .run .call)] ++
    List.replicate 2 (true, .run (.inside (.inl none))) ++
    [(false, .call .shutdown), (false, .run (.own .none)), (false, .run (.own .none)),
      (false, .run .call)] ++ List.replicate 3 (false, .run (.inside (.inl none)))

theorem system_never_stuck_waiting : ∃ h s, (system naivePod fun _ => .standardOrt).lts.ReachIf
      (fun _ => InUse naivePod false) h s ∧ s.mem.1.stop = true ∧
    NaiveTaskQueue.Mem.waiters s.mem.2.1 = [true] ∧ (site (s.pc false)).joining = true ∧
    CanMove naivePod (fun _ => .standardOrt) false s := by
  let T := (system naivePod fun _ => .standardOrt).lts
  obtain ⟨h, s, he, hstop, hwaits, hj⟩ : ∃ h s,
      T.exec (system naivePod fun _ => .standardOrt).init waitingRun = some (h, s) ∧
      s.mem.1.stop = true ∧ NaiveTaskQueue.Mem.waiters s.mem.2.1 = [true] ∧
      (site (s.pc false)).joining = true := ⟨_, _, rfl, rfl, rfl, rfl⟩
  have hr := Lts.ReachIf.along (C := fun _ => InUse naivePod false) (.init rfl)
    (by decide +kernel) he
  have hone : Single naivePod true := fun hk => by cases hk
  have hmove := system_never_stuck hone (by decide) hr hstop
  exact ⟨h, s, hr, hstop, hwaits, hj, hmove.resolve_left fun h => by simp [hj] at h⟩

end Lumen.Concurrency.ThreadPool
