import Lumen.Concurrency.AtomicTaskQueue
import Lumen.Concurrency.Proof.NaiveWakeup

/-!
# `NaiveTaskQueue` refines the task queue

What a thread does while it has the mutex, one access at a time, as single changes of the queue. A
pop that waits has not begun: it takes its front, or gives up, with the mutex it has after its wait.
-/

set_option autoImplicit false

namespace Lumen.Concurrency.NaiveTaskQueue

open Lumen.Lib Lumen.Lib.Shared Lumen.Core ITaskQueue

variable {ι : Type*}

/-- Where the task queue is when a thread of the deque `m` is at its step. -/
def Follows (m : Mem ι) : Pc → AtomicTaskQueue.Pc → Prop
  | .idle, q => q = .idle
  | .pushLock task, q => q = .pushTest task
  | .pushData task, q => q = .push task
  | .pushUnlock, q | .pushNotify, q => q = .answer (.bool true)
  | .popLock ctx, q | .popTest ctx, q | .popWait ctx, q => q = .pop ctx ∧ ctx.taken = []
  -- the predicate of the wait holds as long as no task has been taken
  | .popTake ctx, q => q = .pop ctx ∧ ctx.taken.length ≤ ctx.max ∧
      (ctx.taken = [] → m.data ≠ [] ∨ m.stop = true)
  | .sizeLock e, q | .sizeRead e, q => q = .size e
  | .unlock r, q => q = .answer r
  | .stopLock, q | .stopSet, q => q = .shutdown
  | .stopUnlock, q | .stopNotify, q => q = .answer .unit

/-- The deque stands for the queue. -/
structure StandsFor (s : State ι) (t : AtomicTaskQueue.State ι) : Prop where
  held : ∀ i, (s.pc i).critical = true → s.mem.guard = some i
  tasks : t.mem.tasks = s.mem.data.map Job.plain
  stopped : t.mem.stopped = s.mem.stop
  pc : ∀ i, Follows s.mem (s.pc i) (t.pc i)

section
variable [DecidableEq ι] {s : State ι} {t : AtomicTaskQueue.State ι} {i : ι} {c : Option ι}
  {o : Outcome ι} {n : TaskQueue Unit} {q : AtomicTaskQueue.Pc}

omit [DecidableEq ι] in
/-- What a thread waits for with the mutex is not changed without it. -/
theorem Follows.other {m m' : Mem ι} {p : Pc} (h : Follows m p q)
    (hm : (m'.data = m.data ∧ m'.stop = m.stop) ∨ p.critical = false) : Follows m' p q := by
  cases p <;> try exact h
  case popTake ctx =>
    obtain ⟨hd, hs⟩ := hm.resolve_right (by simp [Pc.critical])
    exact ⟨h.1, h.2.1, fun hc => by rw [hd, hs]; exact h.2.2 hc⟩

/-- A step: only the thread that has the mutex changes the deque. -/
theorem StandsFor.move (hf : StandsFor s t) (ho : run i s.mem c (s.pc i) = some o)
    (hm : (o.mem.data = s.mem.data ∧ o.mem.stop = s.mem.stop) ∨ (s.pc i).critical = true)
    (htasks : n.tasks = o.mem.data.map Job.plain) (hstop : n.stopped = o.mem.stop)
    (hq : Follows o.mem o.pc q) : StandsFor (s.moved i o.mem o.pc) (t.moved i n q) := by
  refine ⟨?_, htasks, hstop,
    State.pcs_moved (P := fun _ => Follows o.mem) hq fun j hj => (hf.pc j).other ?_⟩
  · refine forall_update (P := fun j (p : Pc) => p.critical = true → o.mem.guard = some j)
      (fun hcrit => ?_) fun j hj hcrit => ?_
    · rcases run_guard ho with ⟨hg, hc⟩ | ⟨-, hg, -⟩ | ⟨-, -, hc⟩
      · rw [hg]
        exact hf.held i (hc ▸ hcrit)
      · exact hg
      · rw [hc] at hcrit
        cases hcrit
    · have hgj := hf.held j hcrit
      rcases run_guard ho with ⟨hg, -⟩ | ⟨hg, -⟩ | ⟨hc, -⟩
      · rw [hg, hgj]
      · rw [hg] at hgj
        cases hgj
      · rw [hf.held i hc, Option.some.injEq] at hgj
        exact absurd hgj.symm hj
  · refine hm.imp_right fun hc => Bool.eq_false_iff.2 fun hcj => hj ?_
    have := hf.held j hcj
    rw [hf.held i hc, Option.some.injEq] at this
    exact this.symm

/-! ## After the wait -/

/-- A pop takes the front or ends, with the mutex. -/
theorem StandsFor.popTake (hf : StandsFor s t) {ctx : PopCtx} (hpc : s.pc i = .popTake ctx)
    (ho : run i s.mem c (s.pc i) = some o) :
    ∃ m q, (AtomicTaskQueue.impl ι .naive).Moves i t.mem (t.pc i) [] o.ret m q ∧
      StandsFor (s.moved i o.mem o.pc) (t.moved i m q) := by
  have hpos := hf.pc i
  rw [hpc] at hpos
  obtain ⟨hpop, hlen, hwait⟩ := hpos
  have hcrit : (s.pc i).critical = true := by rw [hpc]; rfl
  have hout : o = take s.mem ctx := by
    rw [hpc] at ho
    exact (Option.some.inj ho).symm
  rw [hpop]
  -- the pop ends, with what it has taken
  have hend : o = { mem := s.mem, pc := .unlock ctx.none } →
      t.mem.mayEnd .naive ctx.taken.length ctx.max = true →
      ∃ m q, (AtomicTaskQueue.impl ι .naive).Moves i t.mem (.pop ctx) [] o.ret m q ∧
        StandsFor (s.moved i o.mem o.pc) (t.moved i m q) := fun he hmay => by
    have hm : (AtomicTaskQueue.impl ι .naive).Moves i t.mem (.pop ctx) [] o.ret t.mem
        (.answer ctx.none) := by
      rw [he]
      exact AtomicTaskQueue.moves_give_up hmay
    exact ⟨_, _, hm, hf.move ho (.inr hcrit) (by rw [he]; exact hf.tasks)
      (by rw [he]; exact hf.stopped) (by rw [he]; exact rfl)⟩
  have hempty : s.mem.data = [] → t.mem.mayEnd .naive ctx.taken.length ctx.max = true := by
    intro hd
    have htasks : t.mem.tasks = [] := by rw [hf.tasks, hd, List.map_nil]
    simp only [TaskQueue.mayEnd, decide_eq_true_eq, htasks, true_and, hf.stopped]
    refine .inr ?_
    by_cases hc : ctx.taken = []
    · exact .inr ((hwait hc).resolve_left fun h => h hd)
    · exact .inl (mt List.eq_nil_of_length_eq_zero hc)
  cases hdata : s.mem.data with
  | nil =>
    refine hend ?_ (hempty hdata)
    rw [hout]
    cases ctx <;> simp only [take, hdata] <;> rfl
  | cons task data =>
    -- the pop takes the front, and gives its slot back
    have htasks : t.mem.tasks = .plain task :: data.map .plain := by
      rw [hf.tasks, hdata, List.map_cons]
    have htake := TaskQueue.take_cons htasks
    have hfront : ctx.taken.length < ctx.max →
        o = { mem := { s.mem with data := data }, pc := o.pc } →
        Follows o.mem o.pc (AtomicTaskQueue.popSome task ctx) →
        ∃ m q, (AtomicTaskQueue.impl ι .naive).Moves i t.mem (.pop ctx) [] o.ret m q ∧
          StandsFor (s.moved i o.mem o.pc) (t.moved i m q) := fun hlt he hfol => by
      have hret : o.ret = none := by rw [he]
      rw [hret]
      exact ⟨_, _, AtomicTaskQueue.moves_front hlt htake, hf.move ho (.inr hcrit)
        (by rw [he]; exact rfl) (by rw [he]; exact hf.stopped) hfol⟩
    cases ctx with
    | pop =>
      simp only [take, hdata] at hout
      exact hfront Nat.zero_lt_one (by rw [hout]) (by rw [hout]; exact rfl)
    | batch batch max =>
      simp only [take, hdata] at hout
      split at hout <;> rename_i hlt
      · refine hfront hlt (by rw [hout]) ?_
        rw [hout]
        refine ⟨rfl, ?_, fun h => absurd h (by simp [PopCtx.taken])⟩
        simpa [PopCtx.taken, PopCtx.max] using Nat.succ_le_of_lt hlt
      · refine hend hout (decide_eq_true (.inl ?_))
        exact Nat.le_antisymm hlen (Nat.le_of_not_lt hlt)

/-! ## Every step -/

theorem run_refines (hf : StandsFor s t) (ho : run i s.mem c (s.pc i) = some o) :
    ∃ m q, (AtomicTaskQueue.impl ι .naive).Moves i t.mem (t.pc i) [] o.ret m q ∧
      StandsFor (s.moved i o.mem o.pc) (t.moved i m q) := by
  have hpos := hf.pc i
  -- a step that leaves the deque alone
  have keep : ∀ {q q'}, t.pc i = q →
      (AtomicTaskQueue.impl ι .naive).Moves i t.mem q [] o.ret t.mem q' →
      o.mem.data = s.mem.data ∧ o.mem.stop = s.mem.stop → Follows o.mem o.pc q' →
      ∃ m q, (AtomicTaskQueue.impl ι .naive).Moves i t.mem (t.pc i) [] o.ret m q ∧
        StandsFor (s.moved i o.mem o.pc) (t.moved i m q) := fun hq hm he hfol => by
    rw [hq]
    exact ⟨t.mem, _, hm, hf.move ho (.inl he) (by rw [he.1]; exact hf.tasks)
      (by rw [he.2]; exact hf.stopped) hfol⟩
  -- a step that changes it with the mutex
  have change : ∀ {q n q'}, t.pc i = q → (s.pc i).critical = true →
      (AtomicTaskQueue.impl ι .naive).Moves i t.mem q [] o.ret n q' →
      n.tasks = o.mem.data.map Job.plain → n.stopped = o.mem.stop →
      Follows o.mem o.pc q' →
      ∃ m q, (AtomicTaskQueue.impl ι .naive).Moves i t.mem (t.pc i) [] o.ret m q ∧
        StandsFor (s.moved i o.mem o.pc) (t.moved i m q) := fun hq hc hm h1 h2 hfol => by
    rw [hq]
    exact ⟨_, _, hm, hf.move ho (.inr hc) h1 h2 hfol⟩
  have hrun := ho
  cases hpc : s.pc i <;> simp only [hpc, run] at ho <;> simp only [hpc, Follows] at hpos
  case idle => cases ho
  case pushLock task =>
    obtain ⟨-, rfl⟩ := lock_some ho
    exact keep hpos (AtomicTaskQueue.moves_open rfl) ⟨rfl, rfl⟩ rfl
  case pushData task =>
    cases ho
    refine change hpos (by rw [hpc]; rfl) (AtomicTaskQueue.moves_push rfl) ?_ hf.stopped rfl
    simp [hf.tasks]
  case pushUnlock =>
    cases ho
    exact keep hpos .stay ⟨rfl, rfl⟩ rfl
  case pushNotify =>
    (repeat' split at ho) <;> cases ho <;>
      exact keep hpos AtomicTaskQueue.moves_return ⟨rfl, rfl⟩ rfl
  case popLock ctx =>
    obtain ⟨-, rfl⟩ := lock_some ho
    exact keep hpos.1 .stay ⟨rfl, rfl⟩ ⟨rfl, hpos.2⟩
  case popTest ctx =>
    split at ho <;> rename_i hwait <;> cases ho
    · refine keep hpos.1 .stay ⟨rfl, rfl⟩ ⟨rfl, ?_, fun _ => hwait⟩
      rw [hpos.2]
      exact Nat.zero_le _
    · exact keep hpos.1 .stay ⟨rfl, rfl⟩ ⟨rfl, hpos.2⟩
  case popWait ctx =>
    (repeat' split at ho) <;> cases ho <;> exact keep hpos.1 .stay ⟨rfl, rfl⟩ ⟨rfl, hpos.2⟩
  case popTake ctx => exact hf.popTake hpc hrun
  case sizeLock e =>
    obtain ⟨-, rfl⟩ := lock_some ho
    exact keep hpos .stay ⟨rfl, rfl⟩ rfl
  case sizeRead e =>
    cases ho
    refine keep hpos (AtomicTaskQueue.moves_measure s.mem.data.length) ⟨rfl, rfl⟩ ?_
    cases e
    · rfl
    · cases s.mem.data <;> simp [Follows]
  case unlock r =>
    cases ho
    exact keep hpos AtomicTaskQueue.moves_return ⟨rfl, rfl⟩ rfl
  case stopLock =>
    obtain ⟨-, rfl⟩ := lock_some ho
    exact keep hpos .stay ⟨rfl, rfl⟩ rfl
  case stopSet =>
    cases ho
    exact change hpos (by rw [hpc]; rfl) AtomicTaskQueue.moves_stop hf.tasks rfl rfl
  case stopUnlock =>
    cases ho
    exact keep hpos .stay ⟨rfl, rfl⟩ rfl
  case stopNotify =>
    cases ho
    exact keep hpos AtomicTaskQueue.moves_return ⟨rfl, rfl⟩ rfl

theorem refines (ι : Type*) [DecidableEq ι] : (impl ι).Refines (AtomicTaskQueue.impl ι .naive)
    (fun _ => none) (fun _ _ => True) StandsFor where
  init := by
    refine ⟨fun i hi => ?_, rfl, rfl, fun i => rfl⟩
    cases hi
  call := by
    intro s t i op hf _ hpc
    have hidle := hf.pc i
    rw [hpc] at hidle
    have hentry : (entry op).critical = false ∧
        Follows s.mem (entry op) (AtomicTaskQueue.entry op) := by
      cases op <;> refine ⟨rfl, ?_⟩ <;>
        simp [Follows, entry, AtomicTaskQueue.entry, PopCtx.taken]
    refine ⟨hidle, ?_, hf.tasks, hf.stopped,
      State.pcs_moved (P := fun _ => Follows s.mem) hentry.2 fun j _ => hf.pc j⟩
    refine forall_update (P := fun j (p : Pc) => p.critical = true → s.mem.guard = some j)
      (fun hcrit => ?_) fun j _ => hf.held j
    rw [impl_entry, hentry.1] at hcrit
    cases hcrit
  run s t i c o hrel _ ho := by
    rw [show o.obs.filterMap (fun _ => (none : Option Empty)) = [] from
      List.filterMap_eq_nil_iff.2 fun _ _ => rfl]
    exact run_refines hrel ho

theorem returns : (impl ι).Returns := by
  intro i m c p o r ho hr
  replace ho : run i m c p = some o := ho
  have hlock : ∀ {p'}, lock i m p' = some o → o.ret = none := fun h => by rw [(lock_some h).2]
  cases p <;> simp only [run] at ho
  case pushLock | popLock | sizeLock | stopLock =>
    rw [hlock ho] at hr
    cases hr
  case popTake ctx =>
    cases ho
    cases ctx <;> simp only [take] at hr <;> (repeat' split at hr) <;> cases hr
  all_goals
    (repeat' split at ho) <;> cases ho <;> first | rfl | cases hr

/-! ## The theorem -/

/-- **The deque is a task queue**, for any threads that call it. -/
theorem deque_atomic {h : List (Event ι Empty)} (hr : (lts ι).Reach h s) :
    ∃ t, (AtomicTaskQueue.lts ι .naive).Reach (h.filterMap (Event.through fun _ => none)) t ∧
      StandsFor s t :=
  (refines ι).reach hr

/-- The consumer that has been woken takes its task. -/
theorem deque_atomic_run : ∃ s t, (lts (Fin 3)).Reach [.call 1 .pop, .call 2 (.popBatch 4),
      .call 0 (.push .empty), .ret 0 (.bool true), .ret 1 (.task (some .empty))] s ∧
    (AtomicTaskQueue.lts (Fin 3) .naive).Reach [.call 1 .pop, .call 2 (.popBatch 4),
      .call 0 (.push .empty), .ret 0 (.bool true), .ret 1 (.task (some .empty))] t ∧
    t.mem.tasks = [] := by
  obtain ⟨s, he, hd⟩ : ∃ s, (lts (Fin 3)).exec (impl (Fin 3)).init
      (wakeOne 0 1 2 .empty ++ List.replicate 5 (1, .run none)) =
        some ([.call 1 .pop, .call 2 (.popBatch 4), .call 0 (.push .empty), .ret 0 (.bool true),
          .ret 1 (.task (some .empty))], s) ∧ s.mem.data = [] := ⟨_, rfl, rfl⟩
  have hr := Lts.Reach.of_exec rfl he
  obtain ⟨t, ht, hs⟩ := deque_atomic hr
  exact ⟨s, t, hr, ht, by rw [hs.tasks, hd, List.map_nil]⟩

end
end Lumen.Concurrency.NaiveTaskQueue
