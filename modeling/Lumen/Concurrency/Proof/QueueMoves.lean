import Lumen.Concurrency.Proof.MPMCProgress
import Lumen.Concurrency.Proof.PoolSystem

/-!
# The queues do not block for good

A thread inside an operation of a queue can move, or another one can that is inside an operation of
the same queue: in the rings every access can be made, and in the queues with a mutex the thread
that has it can go on. Only a consumer that waits on the condition variable of `NaiveTaskQueue`
cannot, before a notification; once the queue is closed none waits, or the thread that closes it is
about to notify.
-/

set_option autoImplicit false

namespace Lumen.Concurrency

open Lumen.Lib Lumen.Lib.Shared Lumen.Core

/-! ## `SPSCTaskQueue` -/

namespace SPSCTaskQueue

theorem never_blocked (m : Mem) {p : Pc} (hp : p ≠ .idle) : (run m p).isSome := by
  cases p <;> simp only [run]
  case idle => exact absurd rfl hp
  all_goals
    first
      | rfl
      | split <;> rfl

end SPSCTaskQueue

/-! ## `NaiveTaskQueue` -/

namespace NaiveTaskQueue

open ITaskQueue

variable {ι : Type*}

/-- The mutex, and who waits: once the queue is closed no thread does, or a notification of all is
pending. -/
structure Guarded (s : State ι) : Prop where
  guard : ∀ j, s.mem.guard = some j ↔ (s.pc j).critical = true
  nodup : s.mem.waiters.Nodup
  waiting : ∀ j ∈ s.mem.waiters, (s.pc j).waits = true
  closed : s.mem.stop = true → s.mem.waiters = [] ∨ ∃ j, (s.pc j).stopping = true

section
variable [DecidableEq ι] {i : ι} {m : Mem ι} {c : Option ι} {p : Pc} {o : Outcome ι}

/-- What an access of `i` changes for the threads that wait. -/
structure Waiting (i : ι) (m : Mem ι) (p : Pc) (o : Outcome ι) : Prop where
  nodup : o.mem.waiters.Nodup
  waits : ∀ j ∈ o.mem.waiters, (j ≠ i ∧ j ∈ m.waiters) ∨ (j = i ∧ o.pc.waits = true)
  closed : o.mem.stop = true → (m.stop = true ∧ (m.waiters = [] → o.mem.waiters = [])) ∨
    o.pc.stopping = true
  stopping : p.stopping = true → o.pc.stopping = true ∨ o.mem.waiters = []

omit [DecidableEq ι] in
/-- An access that leaves them alone. -/
theorem Waiting.keep (hn : m.waiters.Nodup) (hi : i ∉ m.waiters)
    (hwait : o.mem.waiters = m.waiters) (hstop : o.mem.stop = m.stop)
    (hp : p.stopping = true → o.pc.stopping = true) : Waiting i m p o := by
  refine ⟨by rwa [hwait], fun j hj => .inl ?_, fun h => .inl ?_, fun h => .inl (hp h)⟩
  · rw [hwait] at hj
    exact ⟨fun h => hi (h ▸ hj), hj⟩
  · rw [hstop] at h
    exact ⟨h, fun hnil => hwait.trans hnil⟩

/-- An access that wakes `k`. -/
theorem Waiting.wake {k : ι} (hn : m.waiters.Nodup) (hi : i ∈ m.waiters → k = i)
    (hwait : o.mem.waiters = m.waiters.erase k) (hstop : o.mem.stop = m.stop)
    (hp : p.stopping = false) : Waiting i m p o := by
  refine ⟨hwait ▸ hn.erase k, fun j hj => .inl ?_, fun h => .inl ?_, fun h => ?_⟩
  · rw [hwait, hn.mem_erase_iff] at hj
    refine ⟨?_, hj.2⟩
    rintro rfl
    exact hj.1 (hi hj.2).symm
  · rw [hstop] at h
    refine ⟨h, fun hnil => ?_⟩
    rw [hwait, hnil, List.erase_nil]
  · rw [hp] at h
    cases h

theorem run_waiters (ho : run i m c p = some o) (hn : m.waiters.Nodup)
    (hw : i ∈ m.waiters → p.waits = true) : Waiting i m p o := by
  have hi : p.waits = false → i ∉ m.waiters := fun hp h => by
    rw [hw h] at hp
    cases hp
  cases p <;> simp only [run] at ho
  case idle => cases ho
  case pushNotify =>
    cases c with
    | none =>
      simp only at ho
      split at ho <;> cases ho
      exact .keep hn (hi rfl) rfl rfl fun h => h
    | some k =>
      simp only at ho
      split at ho <;> cases ho
      exact .wake hn (fun h => absurd h (hi rfl)) rfl rfl rfl
  case popTest ctx =>
    split at ho <;> rename_i hd <;> cases ho
    · exact .keep hn (hi rfl) rfl rfl fun h => h
    · -- only an open queue is waited for
      refine ⟨List.nodup_cons.2 ⟨hi rfl, hn⟩, fun j hj => ?_, fun h => absurd (.inr h) hd,
        fun h => (by cases h)⟩
      rcases List.mem_cons.1 hj with rfl | hj
      · exact .inr ⟨rfl, rfl⟩
      · exact .inl ⟨fun h => hi rfl (h ▸ hj), hj⟩
  case popWait ctx =>
    split at ho <;> rename_i hwait
    · cases ho
      exact .keep hn hwait rfl rfl fun h => h
    · split at ho <;> cases ho
      exact .wake hn (fun _ => rfl) rfl rfl rfl
  case popTake ctx =>
    cases ho
    refine .keep hn (hi rfl) ?_ ?_ (fun h => by cases h) <;> cases ctx <;> simp only [take] <;>
      (repeat' split) <;> rfl
  case stopSet =>
    cases ho
    exact ⟨hn, fun j hj => .inl ⟨fun h => hi rfl (h ▸ hj), hj⟩, fun _ => .inr rfl,
      fun h => (by cases h)⟩
  case stopNotify =>
    cases ho
    exact ⟨.nil, fun j hj => (by cases hj), fun h => .inl ⟨h, fun _ => rfl⟩, fun _ => .inr rfl⟩
  all_goals
    first
      | obtain ⟨-, rfl⟩ := lock_some ho
      | cases ho
    exact .keep hn (hi rfl) rfl rfl (by simp [Pc.stopping])

theorem guarded {h : List (Event ι Empty)} {s : State ι} (hr : (lts ι).Reach h s) : Guarded s := by
  refine hr.inv (I := fun _ s => Guarded s) (fun s h0 => ?_) fun h s l es s' hg hs => ?_
  · obtain rfl : s = (impl ι).init := h0
    exact ⟨fun j => iff_of_false (by intro h; cases h) (by intro h; cases h), .nil,
      fun j hj => (by cases hj), fun h => (by cases h)⟩
  obtain ⟨i, op | c⟩ := l
  · obtain ⟨hpc, -, rfl⟩ := Impl.step_call.1 hs
    have hidle : ∀ {f : Pc → Bool} {j : ι}, f .idle = false → f (s.pc j) = true →
        f (Function.update s.pc i (entry op) j) = true := by
      intro f j hf hj
      have hji : j ≠ i := by
        rintro rfl
        rw [hpc, impl_idle, hf] at hj
        cases hj
      rwa [Function.update_of_ne hji]
    refine ⟨mutex_update hg.guard (.inl ⟨rfl, ?_⟩), hg.nodup,
      fun j hj => hidle rfl (hg.waiting j hj),
      fun hstop => (hg.closed hstop).imp_right fun ⟨j, hj⟩ => ⟨j, hidle rfl hj⟩⟩
    rw [hpc]
    cases op <;> rfl
  · obtain ⟨o, ho, -, rfl⟩ := Impl.step_run.1 hs
    obtain ⟨hn, hw, hstop, hstopping⟩ := run_waiters ho hg.nodup fun hi => hg.waiting i hi
    refine ⟨mutex_update hg.guard (run_guard ho), hn, fun j hj => ?_, fun hs => ?_⟩
    · show (Function.update s.pc i o.pc j).waits = true
      rcases hw j hj with ⟨hji, hj⟩ | ⟨rfl, hj⟩
      · rw [Function.update_of_ne hji]
        exact hg.waiting j hj
      · rwa [Function.update_self]
    · show o.mem.waiters = [] ∨ ∃ j, (Function.update s.pc i o.pc j).stopping = true
      rcases hstop hs with ⟨hs, hnil⟩ | hi
      · rcases hg.closed hs with h | ⟨j, hj⟩
        · exact .inl (hnil h)
        · by_cases hji : j = i
          · subst hji
            refine (hstopping hj).symm.imp_right fun h => ⟨j, ?_⟩
            rwa [Function.update_self]
          · exact .inr ⟨j, by rwa [Function.update_of_ne hji]⟩
      · exact .inr ⟨i, by rwa [Function.update_self]⟩

/-- The thread that has the mutex goes on. -/
theorem critical_moves (i : ι) (m : Mem ι) {p : Pc} (hp : p.critical = true) :
    (run i m none p).isSome := by
  cases p <;> simp only [Pc.critical, reduceCtorEq] at hp <;> simp only [run]
  case popTest => split <;> rfl
  all_goals rfl

/-- A thread inside an operation of a queue that is closed, or which does not wait for a task. -/
theorem exists_move {s : State ι} (hg : Guarded s) {i : ι} (hpc : s.pc i ≠ .idle)
    (hwait : s.mem.stop = true ∨ (s.pc i).waits = false) :
    ∃ j c, s.pc j ≠ .idle ∧ c ≠ some j ∧ (run j s.mem c (s.pc j)).isSome := by
  cases hguard : s.mem.guard with
  | some k =>
    have hk := (hg.guard k).1 hguard
    refine ⟨k, none, fun h => ?_, (by simp), critical_moves k s.mem hk⟩
    rw [h] at hk
    cases hk
  | none =>
    have hfree : ∀ {p}, (lock i s.mem p).isSome := by
      intro p
      simp only [lock, hguard, Option.isNone_none, if_true, Option.isSome_some]
    cases hp : s.pc i with
    | idle => exact absurd hp hpc
    | pushLock task => exact ⟨i, none, hpc, (by simp), by rw [hp]; exact hfree⟩
    | popLock ctx => exact ⟨i, none, hpc, (by simp), by rw [hp]; exact hfree⟩
    | sizeLock e => exact ⟨i, none, hpc, (by simp), by rw [hp]; exact hfree⟩
    | stopLock => exact ⟨i, none, hpc, (by simp), by rw [hp]; exact hfree⟩
    | stopNotify => exact ⟨i, none, hpc, (by simp), by rw [hp]; rfl⟩
    | pushNotify =>
      cases hw : s.mem.waiters with
      | nil => exact ⟨i, none, hpc, (by simp), by simp [hp, run, hw]⟩
      | cons k ws =>
        have hk : k ∈ s.mem.waiters := by rw [hw]; exact List.mem_cons_self
        refine ⟨i, some k, hpc, fun h => ?_, by simp [hp, run, hk]⟩
        have hwaits := hg.waiting k hk
        rw [Option.some.inj h, hp] at hwaits
        cases hwaits
    | popWait ctx =>
      by_cases hi : i ∈ s.mem.waiters
      · -- the queue is closed, and the thread that closes it has not yet notified
        have hstop := hwait.resolve_right (by simp [hp, Pc.waits])
        obtain ⟨k, hk⟩ := (hg.closed hstop).resolve_left (List.ne_nil_of_mem hi)
        refine ⟨k, none, fun h => ?_, (by simp), ?_⟩
        · rw [h] at hk
          cases hk
        · cases hp : s.pc k <;> rw [hp] at hk <;> first | rfl | cases hk
      · exact ⟨i, none, hpc, (by simp), by simp [hp, run, hi]⟩
    | _ =>
      have hcrit := (hg.guard i).2 (by rw [hp]; rfl)
      rw [hguard] at hcrit
      cases hcrit

end
end NaiveTaskQueue

/-! ## `NaiveResultQueue` -/

namespace NaiveResultQueue

open ResultQueue

variable {ι : Type*}

/-- The operations that the pool uses, neither of which waits for a result. -/
def Serving (_ : State ι) : ι × Shared.Act Op (Option ι) → Prop
  | (_, .call (.push _)) | (_, .call .popImmediate) | (_, .run _) => True
  | _ => False

/-- The thread is in such an operation. -/
def Pc.serving : Pc → Bool
  | .idle | .pushLock _ | .pushData _ | .pushNotify | .immediateLock | .immediateTake
  | .unlock _ => true
  | _ => false

/-- The mutex, and that no thread waits for a result. -/
structure Guarded (s : State ι) : Prop where
  guard : ∀ j, s.mem.guard = some j ↔ (s.pc j).critical = true
  waiters : s.mem.waiters = []
  serving : ∀ j, (s.pc j).serving = true

section
variable [DecidableEq ι] {i : ι} {m : Mem ι} {c : Option ι} {p : Pc} {o : Outcome ι}

theorem run_serving (ho : run i m c p = some o) (hp : p.serving = true) (hw : m.waiters = []) :
    o.pc.serving = true ∧ o.mem.waiters = [] := by
  cases p <;> simp only [Pc.serving, reduceCtorEq] at hp <;> simp only [run] at ho
  case idle => cases ho
  case pushLock =>
    obtain ⟨-, rfl⟩ := lock_some ho
    exact ⟨rfl, hw⟩
  case immediateLock =>
    obtain ⟨-, rfl⟩ := lock_some ho
    exact ⟨rfl, hw⟩
  case pushNotify =>
    cases c with
    | none =>
      simp only [hw, if_true] at ho
      cases ho
      exact ⟨rfl, hw⟩
    | some k => simp [hw] at ho
  case immediateTake =>
    cases ho
    rw [take_eq]
    exact ⟨rfl, hw⟩
  all_goals
    cases ho
    exact ⟨rfl, hw⟩

theorem guarded {h : List (Shared.Event ι Op Ret Empty)} {s : State ι}
    (hr : (lts ι).ReachIf (fun _ => Serving) h s) :
    Guarded s := by
  refine hr.inv (I := fun _ s => Guarded s) (fun s h0 => ?_) fun h s l es s' hg hl hs => ?_
  · obtain rfl : s = (impl ι).init := h0
    exact ⟨fun j => iff_of_false (by intro h; cases h) (by intro h; cases h), rfl, fun _ => rfl⟩
  obtain ⟨i, op | c⟩ := l
  · obtain ⟨hpc, -, rfl⟩ := Impl.step_call.1 hs
    refine ⟨mutex_update hg.guard (.inl ⟨rfl, ?_⟩), hg.waiters,
      forall_update (P := fun _ (p : Pc) => p.serving = true) ?_ fun j _ => hg.serving j⟩
    · rw [hpc]
      cases op <;> rfl
    · cases op <;> first | rfl | cases hl
  · obtain ⟨o, ho, -, rfl⟩ := Impl.step_run.1 hs
    obtain ⟨hp, hw⟩ := run_serving ho (hg.serving i) hg.waiters
    exact ⟨mutex_update hg.guard (run_guard ho), hw,
      forall_update (P := fun _ (p : Pc) => p.serving = true) hp fun j _ => hg.serving j⟩

theorem exists_move {s : State ι} (hg : Guarded s) {i : ι} (hpc : s.pc i ≠ .idle) :
    ∃ j, s.pc j ≠ .idle ∧ (run j s.mem none (s.pc j)).isSome := by
  have hserving := hg.serving
  cases hguard : s.mem.guard with
  | some k =>
    -- the thread that has the mutex goes on
    have hk := (hg.guard k).1 hguard
    refine ⟨k, fun h => ?_, ?_⟩
    · rw [h] at hk
      cases hk
    · have hs := hserving k
      cases hp : s.pc k <;> rw [hp] at hk hs <;>
        simp only [Pc.critical, Pc.serving, reduceCtorEq] at hk hs <;> simp [run, hg.waiters]
  | none =>
    refine ⟨i, hpc, ?_⟩
    have hs := hserving i
    have hcrit : (s.pc i).critical ≠ true := fun h => by
      rw [← hg.guard, hguard] at h
      cases h
    cases hp : s.pc i <;> rw [hp] at hpc hs hcrit <;>
      simp only [Pc.critical, Pc.serving, reduceCtorEq, ne_eq, not_true_eq_false] at hpc hs hcrit <;>
      simp [run, lock, hguard]

end
end NaiveResultQueue

/-! ## The queue that is selected -/

namespace QueueKind

variable {ι : Type}

/-- No compare-exchange fails spuriously, and no thread wakes by itself. -/
def Willed (kind : QueueKind) (i : ι) : kind.Choice ι → Prop :=
  match kind with
  | .spsc => fun _ => True
  | .mpmc => fun weak : Bool => weak = false
  | .naive => fun choice : Option ι => choice ≠ some i

variable [DecidableEq ι]

/-- A thread that the queue knows to be in an operation is in one. -/
theorem StandsFor.busy {kind : QueueKind} {p c i : ι} {s : kind.State ι}
    {t : AtomicTaskQueue.State ι} (h : kind.StandsFor p c s t) (ht : t.pc i ≠ .idle) :
    s.pc i ≠ (kind.queue ι).idle := by
  intro hpc
  refine ht ?_
  cases kind with
  | spsc =>
    obtain ⟨W, R, hf⟩ := h
    have hp := hf.pc i
    rw [show s.pc i = SPSCTaskQueue.Pc.idle from hpc] at hp
    exact hp
  | mpmc =>
    obtain ⟨W, H, hf⟩ := h
    have hp := hf.pc i
    rw [show s.pc i = MPMCTaskQueue.Pc.idle from hpc] at hp
    exact hp
  | naive =>
    have hp := NaiveTaskQueue.StandsFor.pc h i
    rw [show s.pc i = NaiveTaskQueue.Pc.idle from hpc] at hp
    exact hp

/-- A thread inside an operation, if the queue is closed or the operation does not take tasks. -/
theorem exists_move {kind : QueueKind} {p c i : ι} {h : List (Event ι kind.Obs)}
    {s : kind.State ι} {t : AtomicTaskQueue.State ι} (hr : (kind.queue ι).lts.Reach h s)
    (hst : kind.StandsFor p c s t) (hpc : t.pc i ≠ .idle)
    (hwait : t.mem.stopped = true ∨ ∀ ctx, t.pc i ≠ .pop ctx) :
    ∃ j x, s.pc j ≠ (kind.queue ι).idle ∧ kind.Willed j x ∧
      ((kind.queue ι).run j s.mem x (s.pc j)).isSome := by
  have hbusy := hst.busy hpc
  cases kind with
  | spsc => exact ⟨i, (), hbusy, trivial, SPSCTaskQueue.never_blocked s.mem hbusy⟩
  | mpmc => exact ⟨i, false, hbusy, rfl, MPMCTaskQueue.never_blocked s.mem false hbusy⟩
  | naive =>
    have hst : NaiveTaskQueue.StandsFor s t := hst
    refine NaiveTaskQueue.exists_move (NaiveTaskQueue.guarded hr) hbusy (hwait.imp ?_ ?_)
    · exact fun h => hst.stopped ▸ h
    · intro h
      have hp := hst.pc i
      cases hq : s.pc i <;> first | rfl | (rw [hq] at hp; exact absurd hp.1 (h _))

end QueueKind
end Lumen.Concurrency
