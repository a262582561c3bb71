import Lumen.Concurrency.Proof.FifoPop
import Lumen.Concurrency.NaiveTaskQueue

/-!
# `NaiveTaskQueue` called by one thread at a time

A lone call never waits as long as it is not asked to pop from an empty open queue (`Ready`); then
it does what an unbounded list does that accepts tasks whether or not it is closed (`implements`).
`implements_fifo` is the case in which it is not closed when it is pushed to.
-/

set_option autoImplicit false

namespace Lumen.Concurrency.NaiveTaskQueue

open Lumen.Lib Lumen.Lib.Shared Lumen.Core ITaskQueue

variable {ι : Type*}

/-- The deque is `q`, with nobody waiting. -/
structure Holds (q : Fifo) (m : Mem ι) : Prop where
  data : m.data = q.tasks
  stop : m.stop = q.stopped
  waiters : m.waiters = []

/-- Between calls the mutex is free. -/
def Rep (q : Fifo) (m : Mem ι) : Prop := Holds q m ∧ m.guard = none

/-- The list without the closing: `push` does not look at `stop`. -/
def apply : Spec Fifo Op Ret
  | q, .push task => (.bool true, { q with tasks := q.tasks ++ [task], pushed := q.pushed + 1 })
  | q, op => q.apply none op

/-- The calls that a lone thread can complete. -/
def Ready (q : Fifo) : Op → Prop
  | .pop | .popBatch _ => q.tasks ≠ [] ∨ q.stopped = true
  | _ => True

/-- The calls that a lone thread can complete, and that respect `shutdown`. -/
def Ok (q : Fifo) : Op → Prop
  | .push _ => q.stopped = false
  | .pop | .popBatch _ => q.tasks ≠ [] ∨ q.stopped = true
  | _ => True

variable {q : Fifo} {m : Mem ι}

theorem Holds.guard (h : Holds q m) (g : Option ι) : Holds q { m with guard := g } :=
  ⟨h.data, h.stop, h.waiters⟩

theorem Rep.init : Rep {} (Mem.init : Mem ι) := ⟨⟨rfl, rfl, rfl⟩, rfl⟩

/-! ## The stages of a call -/

def Stage (q : Fifo) (op : Op) (m : Mem ι) : Pc → Prop
  | .idle | .popWait _ => False
  | .pushLock task => op = .push task ∧ Rep q m
  | .pushData task => op = .push task ∧ Holds q m
  | .pushUnlock => ∃ task, op = .push task ∧ Holds (apply q op).2 m
  | .pushNotify => ∃ task, op = .push task ∧ Rep (apply q op).2 m
  | .popLock ctx => ctx.At q op q ∧ (q.tasks ≠ [] ∨ q.stopped = true) ∧ Rep q m
  | .popTest ctx => ctx.At q op q ∧ (q.tasks ≠ [] ∨ q.stopped = true) ∧ Holds q m
  | .popTake ctx => ∃ q1, ctx.At q op q1 ∧ Holds q1 m
  | .sizeLock e => op = (if e then .empty else .size) ∧ Rep q m
  | .sizeRead e => op = (if e then .empty else .size) ∧ Holds q m
  | .unlock r => r = (apply q op).1 ∧ Holds (apply q op).2 m
  | .stopLock => op = .shutdown ∧ Rep q m
  | .stopSet => op = .shutdown ∧ Holds q m
  | .stopUnlock => op = .shutdown ∧ Holds (apply q op).2 m
  | .stopNotify => op = .shutdown ∧ Rep (apply q op).2 m

/-- A bound on the accesses that are left. -/
def rank : Pc → Nat
  | .idle | .popWait _ | .pushNotify | .stopNotify | .unlock _ => 0
  | .pushUnlock | .stopUnlock | .sizeRead _ => 1
  | .pushData _ | .stopSet | .sizeLock _ => 2
  | .pushLock _ | .stopLock => 3
  | .popTake ctx => popRank ctx + 1
  | .popTest ctx => popRank ctx + 2
  | .popLock ctx => popRank ctx + 3

theorem apply_eq {ctx : PopCtx} {q1 : Fifo} {op : Op} (hctx : ctx.At q op q1) :
    apply q op = q.apply none op := by
  cases ctx with
  | pop =>
    obtain ⟨rfl, -⟩ := hctx
    rfl
  | batch taken max =>
    obtain ⟨rfl, -⟩ := hctx
    rfl

theorem stage_entry {op : Op} (h : Rep q m) (hok : Ready q op) : Stage q op m (entry op) := by
  cases op with
  | push task => exact ⟨rfl, h⟩
  | pop => exact ⟨⟨rfl, rfl⟩, hok, h⟩
  | popBatch max => exact ⟨⟨rfl, .refl q, Nat.zero_le max⟩, hok, h⟩
  | _ => exact ⟨rfl, h⟩

/-- What is taken from the deque: a further round of the loop, or the answer of the list. -/
theorem take_spec {op : Op} {ctx : PopCtx} {q1 : Fifo} (hctx : ctx.At q op q1)
    (hd : m.data = q1.tasks) :
    (take m ctx).ret = none ∧ rank (take m ctx).pc < rank (.popTake ctx) ∧
      ∃ q2, q2.stopped = q1.stopped ∧ (take m ctx).mem = { m with data := q2.tasks } ∧
        ((∃ ctx', (take m ctx).pc = .popTake ctx' ∧ ctx'.At q op q2) ∨
          (take m ctx).pc = .unlock (q.apply none op).1 ∧ q2 = (q.apply none op).2) := by
  cases hq : q1.tasks with
  | nil =>
    rw [hq] at hd
    have hmem : m = { m with data := q1.tasks } := by rw [hq, ← hd]
    rw [hctx.apply_none none hq]
    cases ctx <;> simp only [take, hd] <;>
      exact ⟨trivial, by simp [rank], q1, rfl, hmem, .inr ⟨rfl, rfl⟩⟩
  | cons task rest =>
    have hmem : m = { m with data := q1.tasks } := by rw [← hd]
    rw [hq] at hd
    cases ctx with
    | pop =>
      obtain ⟨rfl, rfl⟩ := hctx
      simp only [take, hd]
      rw [Fifo.apply_pop hq]
      exact ⟨trivial, by simp [rank], { q1 with tasks := rest }, rfl, rfl, .inr ⟨rfl, rfl⟩⟩
    | batch taken max =>
      obtain ⟨rfl, ht, hle⟩ := hctx
      simp only [take, hd]
      split
      · rename_i hlt
        refine ⟨rfl, ?_, { q1 with tasks := rest }, rfl, rfl,
          .inl ⟨_, rfl, rfl, ht.next hq, by rwa [List.length_append]⟩⟩
        simp only [rank, popRank, List.length_append, List.length_singleton]
        omega
      · rw [ht.apply_popBatch (.inl (by omega))]
        exact ⟨rfl, by simp [rank], q1, rfl, hmem, .inr ⟨rfl, rfl⟩⟩

/-- What a lone call takes from the deque. -/
theorem stage_take {op : Op} {ctx : PopCtx} {q1 : Fifo} (hctx : ctx.At q op q1)
    (hm : Holds q1 m) :
    (take m ctx).ret = none ∧ Stage q op (take m ctx).mem (take m ctx).pc ∧
      rank (take m ctx).pc < rank (.popTake ctx) := by
  obtain ⟨hret, hrank, q2, hstop, hmem, hnext⟩ := take_spec hctx hm.data
  have hm' : Holds q2 { m with data := q2.tasks } := ⟨rfl, hm.stop.trans hstop.symm, hm.waiters⟩
  refine ⟨hret, ?_, hrank⟩
  rw [hmem]
  rcases hnext with ⟨ctx', hpc, hctx'⟩ | ⟨hpc, rfl⟩
  · rw [hpc]
    exact ⟨q2, hctx', hm'⟩
  · rw [hpc, Stage, apply_eq hctx]
    exact ⟨rfl, hm'⟩

variable [DecidableEq ι]

/-- One step of a lone call: the next stage, or the answer of the list. -/
theorem stage_run {op : Op} {p : Pc} {i : ι} {c : Option ι} {o : Outcome ι}
    (hst : Stage q op m p) (ho : run i m c p = some o) :
    (o.ret = none ∧ Stage q op o.mem o.pc ∧ rank o.pc < rank p) ∨
      (o.ret = some (apply q op).1 ∧ o.pc = .idle ∧ Rep (apply q op).2 o.mem) := by
  cases p <;> simp only [Stage] at hst <;> simp only [run] at ho
  case pushLock task =>
    obtain ⟨-, rfl⟩ := lock_some ho
    obtain ⟨rfl, hR⟩ := hst
    exact .inl ⟨rfl, ⟨rfl, hR.1.guard _⟩, by simp [rank]⟩
  case pushData task =>
    obtain ⟨rfl, hm⟩ := hst
    cases ho
    exact .inl ⟨rfl, ⟨task, rfl, by rw [apply, hm.data], hm.stop, hm.waiters⟩, by simp [rank]⟩
  case pushUnlock =>
    obtain ⟨task, rfl, hm⟩ := hst
    cases ho
    exact .inl ⟨rfl, ⟨task, rfl, hm.guard none, rfl⟩, by simp [rank]⟩
  case pushNotify =>
    obtain ⟨task, rfl, hR⟩ := hst
    have hw := hR.1.waiters
    cases c with
    | none =>
      simp only [hw, if_true] at ho
      cases ho
      exact .inr ⟨rfl, rfl, hR⟩
    | some j => simp [hw] at ho
  case popLock ctx =>
    obtain ⟨-, rfl⟩ := lock_some ho
    obtain ⟨hctx, hok, hR⟩ := hst
    exact .inl ⟨rfl, ⟨hctx, hok, hR.1.guard _⟩, by simp [rank]⟩
  case popTest ctx =>
    obtain ⟨hctx, hok, hm⟩ := hst
    rw [if_pos (by rwa [hm.data, hm.stop])] at ho
    cases ho
    exact .inl ⟨rfl, ⟨q, hctx, hm⟩, by simp [rank]⟩
  case popTake ctx =>
    obtain ⟨q1, hctx, hm⟩ := hst
    cases ho
    exact .inl (stage_take hctx hm)
  case sizeLock e =>
    obtain ⟨-, rfl⟩ := lock_some ho
    obtain ⟨rfl, hR⟩ := hst
    exact .inl ⟨rfl, ⟨rfl, hR.1.guard _⟩, by simp [rank]⟩
  case sizeRead e =>
    obtain ⟨rfl, hm⟩ := hst
    cases ho
    refine .inl ⟨rfl, ?_, by simp [rank]⟩
    cases e
    · exact ⟨by simp [apply, Fifo.apply, hm.data], hm⟩
    · refine ⟨?_, hm⟩
      cases hq : q.tasks <;> simp [apply, Fifo.apply, hm.data, hq]
  case unlock r =>
    obtain ⟨rfl, hm⟩ := hst
    cases ho
    exact .inr ⟨rfl, rfl, hm.guard none, rfl⟩
  case stopLock =>
    obtain ⟨-, rfl⟩ := lock_some ho
    obtain ⟨rfl, hR⟩ := hst
    exact .inl ⟨rfl, ⟨rfl, hR.1.guard _⟩, by simp [rank]⟩
  case stopSet =>
    obtain ⟨rfl, hm⟩ := hst
    cases ho
    exact .inl ⟨rfl, ⟨rfl, hm.data, rfl, hm.waiters⟩, by simp [rank]⟩
  case stopUnlock =>
    obtain ⟨rfl, hm⟩ := hst
    cases ho
    exact .inl ⟨rfl, ⟨rfl, hm.guard none, rfl⟩, by simp [rank]⟩
  case stopNotify =>
    obtain ⟨rfl, hm, hg⟩ := hst
    cases ho
    exact .inr ⟨rfl, rfl, ⟨hm.data, hm.stop, rfl⟩, hg⟩

/-- No step of a lone call blocks. -/
theorem stage_enabled {op : Op} {p : Pc} (i : ι) (hst : Stage q op m p) :
    ∃ o, run i m none p = some o := by
  have hlock : ∀ p', m.guard = none → ∃ o, lock i m p' = some o := by
    intro p' hg
    exact ⟨_, by rw [lock, hg]; rfl⟩
  cases p <;> simp only [Stage] at hst <;> simp only [run]
  case pushLock => exact hlock _ hst.2.2
  case pushNotify =>
    obtain ⟨task, -, hm, -⟩ := hst
    exact ⟨_, if_pos hm.waiters⟩
  case popLock => exact hlock _ hst.2.2.2
  case popTest => split <;> exact ⟨_, rfl⟩
  case sizeLock => exact hlock _ hst.2.2
  case stopLock => exact hlock _ hst.2.2
  all_goals exact ⟨_, rfl⟩

/-- Calls one at a time do what an unbounded list does that is never closed to producers. -/
theorem implements : Implements (impl ι) none apply Ready Rep := by
  have halone : Alone (impl ι) none apply Ready Rep :=
    .of_stages Stage rank (fun _ _ _ hR hok => stage_entry hR hok)
      (fun _ _ _ _ _ _ _ hst ho =>
        (stage_run hst ho).imp (fun h => ⟨h.1, h.2.1, fun _ => h.2.2⟩) id)
      fun i _ _ _ _ hst => stage_enabled i hst
  exact halone.implements

/-- A call that has returned was no pop from an empty open queue, which only goes round its wait. -/
theorem ready {s s' : State ι} {op : Op} {r : Ret} (hR : Rep q s.mem)
    (hs : Solo (impl ι) s op r s') : Ready q op := by
  obtain ⟨i, es, s1, hc, hrun⟩ := hs
  obtain ⟨-, -, rfl⟩ := Impl.step_call.1 hc
  have hwait : ¬ (q.tasks ≠ [] ∨ q.stopped = true) → ∀ ctx, entry op ≠ .popLock ctx := by
    intro hblock ctx hentry
    rw [not_or, not_not, Bool.not_eq_true] at hblock
    have hnil : s.mem.data = [] := hR.1.data.trans hblock.1
    have hopen : s.mem.stop = false := hR.1.stop.trans hblock.2
    refine (hrun.sound (P := fun m p => (m.data = [] ∧ m.stop = false) ∧ ∃ ctx, p = .popLock ctx ∨
      p = .popTest ctx ∨ p = .popWait ctx) (Q := fun _ _ => False) ?_ ?_).1
    · rintro m p c o ⟨⟨hd, hstop⟩, ctx, hp⟩ ho
      refine .inl ?_
      change run i m c p = some o at ho
      rcases hp with rfl | rfl | rfl
      · simp only [run, lock] at ho
        split at ho <;> cases ho
        exact ⟨rfl, ⟨hd, hstop⟩, ctx, .inr (.inl rfl)⟩
      · simp only [run, hd, hstop] at ho
        cases ho
        exact ⟨rfl, ⟨rfl, rfl⟩, ctx, .inr (.inr rfl)⟩
      · simp only [run] at ho
        split at ho
        · cases ho
          exact ⟨rfl, ⟨hd, hstop⟩, ctx, .inl rfl⟩
        · split at ho <;> cases ho
          exact ⟨rfl, ⟨hd, hstop⟩, ctx, .inl rfl⟩
    · refine ⟨⟨hnil, hopen⟩, ctx, .inl ?_⟩
      simpa using hentry
  cases op with
  | pop =>
    show q.tasks ≠ [] ∨ q.stopped = true
    exact Decidable.byContradiction fun h => hwait h .pop rfl
  | popBatch max =>
    show q.tasks ≠ [] ∨ q.stopped = true
    exact Decidable.byContradiction fun h => hwait h (.batch [] max) rfl
  | _ => trivial

theorem Ok.ready {op : Op} (h : Ok q op) : Ready q op ∧ apply q op = q.apply none op := by
  cases op with
  | push task => exact ⟨trivial, (Fifo.apply_push h Fifo.not_full_none).symm⟩
  | pop => exact ⟨h, rfl⟩
  | popBatch max => exact ⟨h, rfl⟩
  | size => exact ⟨trivial, rfl⟩
  | empty => exact ⟨trivial, rfl⟩
  | shutdown => exact ⟨trivial, rfl⟩

/-- While nothing is pushed to a closed queue, its calls are those of an unbounded list. -/
theorem implements_fifo : Implements (impl ι) none (Fifo.apply none) Ok Rep where
  sound hR hq hok hsolo := by
    obtain ⟨hready, heq⟩ := hok.ready
    rw [← heq]
    exact implements.sound hR hq hready hsolo
  total hR hq hok := implements.total hR hq hok.ready.1

/-! ## A consumer among other threads -/

/-- The deque is `q`, and the mutex is free. Threads may wait for a task. -/
def Offers (q : Fifo) (m : Mem ι) : Prop := m.data = q.tasks ∧ m.guard = none

omit [DecidableEq ι] in
theorem Rep.offers (h : Rep q m) : Offers q m := ⟨h.1.data, h.2⟩

/-- A pop from a queue that is not empty. -/
def Finds (q : Fifo) (op : Op) : Prop :=
  q.tasks ≠ [] ∧ (op = .pop ∨ ∃ max, op = .popBatch max)

def PopStage (q : Fifo) (op : Op) (m : Mem ι) : Pc → Prop
  | .popLock ctx => ctx.At q op q ∧ q.tasks ≠ [] ∧ Offers q m
  | .popTest ctx => ctx.At q op q ∧ q.tasks ≠ [] ∧ m.data = q.tasks
  | .popTake ctx => ∃ q1, ctx.At q op q1 ∧ m.data = q1.tasks
  | .unlock r => r = (q.apply none op).1 ∧ m.data = (q.apply none op).2.tasks
  | _ => False

theorem popStage_run {op : Op} {p : Pc} {i : ι} {c : Option ι} {o : Outcome ι}
    (hst : PopStage q op m p) (ho : run i m c p = some o) :
    (o.ret = none ∧ PopStage q op o.mem o.pc ∧ rank o.pc < rank p) ∨
      (o.ret = some (q.apply none op).1 ∧ o.pc = .idle ∧ Offers (q.apply none op).2 o.mem) := by
  cases p <;> simp only [PopStage] at hst <;> simp only [run] at ho
  case popLock ctx =>
    obtain ⟨hctx, hne, hd, -⟩ := hst
    obtain ⟨-, rfl⟩ := lock_some ho
    exact .inl ⟨rfl, ⟨hctx, hne, hd⟩, by simp [rank]⟩
  case popTest ctx =>
    obtain ⟨hctx, hne, hd⟩ := hst
    rw [if_pos (.inl (hd ▸ hne))] at ho
    cases ho
    exact .inl ⟨rfl, ⟨q, hctx, hd⟩, by simp [rank]⟩
  case popTake ctx =>
    obtain ⟨q1, hctx, hd⟩ := hst
    cases ho
    obtain ⟨hret, hrank, q2, -, hmem, hnext⟩ := take_spec hctx hd
    refine .inl ⟨hret, ?_, hrank⟩
    rw [hmem]
    rcases hnext with ⟨ctx', hpc, hctx'⟩ | ⟨hpc, rfl⟩
    · rw [hpc]
      exact ⟨q2, hctx', rfl⟩
    · rw [hpc]
      exact ⟨rfl, rfl⟩
  case unlock r =>
    obtain ⟨rfl, hd⟩ := hst
    cases ho
    exact .inr ⟨rfl, rfl, hd, rfl⟩

/-- A consumer that finds tasks and the mutex free takes what a list would give it. -/
theorem alone : Alone (impl ι) none (Fifo.apply none) Finds Offers := by
  refine .of_stages PopStage rank (fun q op m hR hok => ?_)
    (fun i q op m p c o hst ho =>
      (popStage_run hst ho).imp (fun h => ⟨h.1, h.2.1, fun _ => h.2.2⟩) id)
    fun i q op m p hst => ?_
  · obtain ⟨hne, rfl | ⟨max, rfl⟩⟩ := hok
    · exact ⟨⟨rfl, rfl⟩, hne, hR⟩
    · exact ⟨⟨rfl, .refl q, Nat.zero_le max⟩, hne, hR⟩
  · change ∃ o, run i m none p = some o
    cases p <;> simp only [PopStage] at hst <;> simp only [run]
    case popLock ctx => exact ⟨_, if_pos (Option.isNone_iff_eq_none.2 hst.2.2.2)⟩
    case popTest ctx => split <;> exact ⟨_, rfl⟩
    all_goals exact ⟨_, rfl⟩

end Lumen.Concurrency.NaiveTaskQueue
