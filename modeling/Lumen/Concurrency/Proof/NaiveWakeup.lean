import Lumen.Concurrency.NaiveTaskQueue

/-!
# No lost wakeup in `NaiveTaskQueue`

The queue is watched together with the list of the consumers that a notification has woken and that
have since neither taken a task nor waited again. While a consumer waits there are at most as many
tasks as there are such consumers and pushes that have not yet notified (`Inv.count`): a task comes
with a notification, and a woken consumer that finds none left leaves an empty queue behind.
`no_lost_wakeup` is what follows for every run in which each `pop_batch` asks for a task at least.
-/

set_option autoImplicit false

namespace Lumen.Concurrency.NaiveTaskQueue

open Lumen.Lib Lumen.Lib.Shared Lumen.Core ITaskQueue

variable {ι : Type*}

/-! ## Where a thread is -/

namespace Pc

/-- The thread has the mutex. -/
def critical : Pc → Bool
  | .pushData _ | .pushUnlock | .popTest _ | .popTake _ | .sizeRead _ | .unlock _ | .stopSet
  | .stopUnlock => true
  | _ => false

/-- The task is in the queue, and its notification is pending. -/
def pushing : Pc → Bool
  | .pushUnlock | .pushNotify => true
  | _ => false

/-- `stop` is set, and its notification is pending. -/
def stopping : Pc → Bool
  | .stopUnlock | .stopNotify => true
  | _ => false

/-- A consumer that has not taken a task. -/
def retesting : Pc → Bool
  | .popWait _ | .popLock _ | .popTest _ | .popTake .pop | .popTake (.batch [] _) => true
  | _ => false

def waits : Pc → Bool
  | .popWait _ => true
  | _ => false

/-- A batch has room for a task, and no consumer returns what `shutdown` returns. -/
def Fits : Pc → Prop
  | .popLock (.batch batch max) | .popTest (.batch batch max) | .popWait (.batch batch max) =>
    batch = [] ∧ 1 ≤ max
  | .popTake (.batch _ max) => 1 ≤ max
  | .unlock r => r ≠ .unit
  | _ => True

end Pc

/-! ## The consumers that have been notified -/

/-- The queue, and the consumers that a notification has woken and that have since neither taken a
task nor waited again. -/
structure Watched (ι : Type*) where
  queue : State ι
  notified : List ι

/-- Every `pop_batch` asks for at least one task. -/
def AsksOne : ι × Act (Option ι) → Prop
  | (_, .call (.popBatch max)) => 1 ≤ max
  | _ => True

variable [DecidableEq ι]

/-- The notified consumers after an access of thread `i`. -/
def notify (i : ι) (m : Mem ι) (choice : Option ι) (notified : List ι) : Pc → List ι
  | .pushNotify => choice.toList ++ notified
  | .stopNotify => m.waiters ++ notified
  | .popTest _ => if m.data ≠ [] ∨ m.stop then notified else notified.erase i
  | .popTake _ => notified.erase i
  | _ => notified

def Watched.notify (w : Watched ι) : ι × Act (Option ι) → List ι
  | (_, .call _) => w.notified
  | (i, .run choice) =>
    NaiveTaskQueue.notify i w.queue.mem choice w.notified (w.queue.pc i)

/-- The queue of the threads `ι`, watched. -/
def watched (ι : Type*) [DecidableEq ι] : Lts (Watched ι) (ι × Act (Option ι)) (Event ι Empty) where
  init w := w = ⟨(impl ι).init, []⟩
  step w l := ((impl ι).step w.queue l).map fun (es, queue) => (es, ⟨queue, w.notify l⟩)

/-! ## What an access does -/

/-- What an access of thread `i` at `p` changes for the consumers that wait, with the notified
consumers before it and after it. -/
inductive Effect (i : ι) (m : Mem ι) (ns : List ι) (p : Pc) (o : Outcome ι) : List ι → Prop
  | quiet : o.mem.data = m.data → o.mem.waiters = m.waiters → o.mem.stop = m.stop →
      (p.waits = true → i ∉ m.waiters) → (p.retesting = true → o.pc.retesting = true) →
      (p.pushing = true → o.pc.pushing = true) → o.pc.stopping = p.stopping →
      o.ret ≠ some .unit → Effect i m ns p o ns
  | pushed {task : InferenceTask} : p = .pushData task → o.mem.data = m.data ++ [task] →
      o.mem.waiters = m.waiters → o.mem.stop = m.stop → o.pc = .pushUnlock → o.ret = none →
      Effect i m ns p o ns
  | notifyNone : p = .pushNotify → m.waiters = [] → o.mem = m → o.pc = .idle →
      o.ret ≠ some .unit → Effect i m ns p o ns
  | notifyOne {j : ι} : p = .pushNotify → j ∈ m.waiters → o.mem.data = m.data →
      o.mem.waiters = m.waiters.erase j → o.mem.stop = m.stop → o.pc = .idle →
      o.ret ≠ some .unit → Effect i m ns p o (j :: ns)
  | waited {ctx : PopCtx} : p = .popTest ctx → m.data = [] → m.stop = false → o.mem.data = [] →
      o.mem.waiters = i :: m.waiters → o.mem.stop = false → o.pc = .popWait ctx → o.ret = none →
      Effect i m ns p o (ns.erase i)
  | spurious {ctx : PopCtx} : p = .popWait ctx → o.mem.data = m.data →
      o.mem.waiters = m.waiters.erase i → o.mem.stop = m.stop → o.pc = .popLock ctx →
      o.ret = none → Effect i m ns p o ns
  | took {ctx : PopCtx} : p = .popTake ctx → o.mem.waiters = m.waiters → o.mem.stop = m.stop →
      (o.mem.data.length + 1 = m.data.length ∨
        o.mem.data = m.data ∧ (m.data = [] ∨ p.retesting = false)) →
      o.pc.retesting = false → o.pc.stopping = false → o.ret = none → Effect i m ns p o (ns.erase i)
  | stopped : p = .stopSet → o.mem.data = m.data → o.mem.waiters = m.waiters →
      o.mem.stop = true → o.pc = .stopUnlock → o.ret = none → Effect i m ns p o ns
  | notifyAll : p = .stopNotify → o.mem.data = m.data → o.mem.waiters = [] →
      o.mem.stop = m.stop → o.pc = .idle → Effect i m ns p o (m.waiters ++ ns)

variable {i : ι} {m : Mem ι} {c : Option ι} {p : Pc} {o : Outcome ι}

theorem take_effect {ctx : PopCtx} (hp : (Pc.popTake ctx).Fits) (ns : List ι) :
    Effect i m ns (.popTake ctx) (take m ctx) (ns.erase i) := by
  cases ctx with
  | pop =>
    unfold take
    cases hd : m.data with
    | nil => exact .took rfl rfl rfl (.inr ⟨rfl, .inl hd⟩) rfl rfl rfl
    | cons task data => exact .took rfl rfl rfl (.inl (by rw [hd]; rfl)) rfl rfl rfl
  | batch batch max =>
    unfold take
    cases hd : m.data with
    | nil => exact .took rfl rfl rfl (.inr ⟨rfl, .inl hd⟩) rfl rfl rfl
    | cons task data =>
      simp only
      split
      · refine .took rfl rfl rfl (.inl (by rw [hd]; rfl)) ?_ rfl rfl
        cases batch <;> rfl
      · rename_i hfull
        refine .took rfl rfl rfl (.inr ⟨rfl, .inr ?_⟩) rfl rfl rfl
        -- a batch without a task has room for one
        cases batch with
        | nil => exact absurd hp hfull
        | cons => rfl

theorem run_effect (ho : run i m c p = some o) (hp : p.Fits) (ns : List ι) :
    Effect i m ns p o (notify i m c ns p) := by
  cases p <;> simp only [run] at ho
  case idle => cases ho
  case pushLock task =>
    obtain ⟨-, rfl⟩ := lock_some ho
    exact .quiet rfl rfl rfl nofun nofun nofun rfl nofun
  case pushData task =>
    cases ho
    exact .pushed rfl rfl rfl rfl rfl rfl
  case pushUnlock =>
    cases ho
    exact .quiet rfl rfl rfl nofun nofun (fun _ => rfl) rfl nofun
  case pushNotify =>
    cases c with
    | none =>
      simp only at ho
      split at ho <;> rename_i hw
      · cases ho
        exact .notifyNone rfl hw rfl rfl nofun
      · cases ho
    | some j =>
      simp only at ho
      split at ho <;> rename_i hj
      · cases ho
        exact .notifyOne rfl hj rfl rfl rfl rfl nofun
      · cases ho
  case popLock ctx =>
    obtain ⟨-, rfl⟩ := lock_some ho
    exact .quiet rfl rfl rfl nofun (fun _ => rfl) nofun rfl nofun
  case popTest ctx =>
    unfold notify
    split at ho <;> rename_i hd
    · cases ho
      rw [if_pos hd]
      refine .quiet rfl rfl rfl nofun (fun _ => ?_) nofun rfl nofun
      cases ctx with
      | pop => rfl
      | batch batch max =>
        obtain ⟨rfl, -⟩ := hp
        rfl
    · cases ho
      rw [if_neg hd]
      simp only [not_or, not_not, Bool.not_eq_true] at hd
      exact .waited rfl hd.1 hd.2 hd.1 rfl hd.2 rfl rfl
  case popWait ctx =>
    split at ho <;> rename_i hi
    · cases ho
      exact .quiet rfl rfl rfl (fun _ => hi) (fun _ => rfl) nofun rfl nofun
    · split at ho
      · cases ho
        exact .spurious rfl rfl rfl rfl rfl rfl
      · cases ho
  case popTake ctx =>
    cases ho
    exact take_effect hp ns
  case sizeLock e =>
    obtain ⟨-, rfl⟩ := lock_some ho
    exact .quiet rfl rfl rfl nofun nofun nofun rfl nofun
  case sizeRead e =>
    cases ho
    exact .quiet rfl rfl rfl nofun nofun nofun rfl nofun
  case unlock r =>
    cases ho
    exact .quiet rfl rfl rfl nofun nofun nofun rfl fun h => hp (Option.some.inj h)
  case stopLock =>
    obtain ⟨-, rfl⟩ := lock_some ho
    exact .quiet rfl rfl rfl nofun nofun nofun rfl nofun
  case stopSet =>
    cases ho
    exact .stopped rfl rfl rfl rfl rfl rfl
  case stopUnlock =>
    cases ho
    exact .quiet rfl rfl rfl nofun nofun nofun rfl nofun
  case stopNotify =>
    cases ho
    exact .notifyAll rfl rfl rfl rfl rfl

/-- The mutex is taken by a thread that finds it free, and given back by the one that has it. -/
theorem run_guard (ho : run i m c p = some o) :
    (o.mem.guard = m.guard ∧ o.pc.critical = p.critical) ∨
      (m.guard = none ∧ o.mem.guard = some i ∧ o.pc.critical = true) ∨
      (p.critical = true ∧ o.mem.guard = none ∧ o.pc.critical = false) := by
  have hlock : ∀ {p'}, p'.critical = true → lock i m p' = some o →
      m.guard = none ∧ o.mem.guard = some i ∧ o.pc.critical = true := by
    intro p' hp h
    obtain ⟨hg, rfl⟩ := lock_some h
    exact ⟨hg, rfl, hp⟩
  cases p <;> simp only [run] at ho
  case pushLock => exact .inr (.inl (hlock rfl ho))
  case popLock => exact .inr (.inl (hlock rfl ho))
  case sizeLock => exact .inr (.inl (hlock rfl ho))
  case stopLock => exact .inr (.inl (hlock rfl ho))
  case popTake ctx =>
    cases ho
    refine .inl ?_
    cases ctx <;> simp only [take] <;> (repeat' split) <;> exact ⟨rfl, rfl⟩
  all_goals
    (repeat' split at ho) <;> cases ho <;> first
      | exact .inl ⟨rfl, rfl⟩
      | exact .inr (.inr ⟨rfl, rfl, rfl⟩)

/-- The local variables stay as they are meant to be. -/
theorem run_fits (ho : run i m c p = some o) (hp : p.Fits) : o.pc.Fits := by
  have hlock : ∀ {p'}, lock i m p' = some o → o.pc = p' := by
    intro p' h
    rw [(lock_some h).2]
  cases p <;> simp only [run] at ho
  case popLock ctx =>
    rw [hlock ho]
    cases ctx <;> exact hp
  case popTest ctx =>
    split at ho <;> cases ho
    · cases ctx with
      | pop => trivial
      | batch => exact hp.2
    · cases ctx <;> exact hp
  case popWait ctx =>
    have hctx : (Pc.popLock ctx).Fits := by cases ctx <;> exact hp
    (repeat' split at ho) <;> cases ho <;> exact hctx
  case popTake ctx =>
    cases ho
    cases ctx with
    | pop =>
      simp only [take]
      split <;> exact nofun
    | batch batch max =>
      simp only [take]
      split
      · exact nofun
      · split
        · exact hp
        · exact nofun
  case sizeRead e =>
    cases ho
    cases e <;> exact nofun
  case pushLock => rw [hlock ho]; trivial
  case sizeLock => rw [hlock ho]; trivial
  case stopLock => rw [hlock ho]; trivial
  all_goals (repeat' split at ho) <;> cases ho <;> trivial

/-! ## The invariant -/

theorem waits_retesting {p : Pc} (h : p.waits = true) : p.retesting = true := by
  cases p <;> first | rfl | cases h

namespace Effect

variable {ns ns' : List ι} (he : Effect i m ns p o ns')
include he

/-- Who waits after an access waited before it, or has begun to. -/
theorem waiters (hw : i ∈ m.waiters → p.waits = true) (hn : m.waiters.Nodup) :
    o.mem.waiters.Nodup ∧
      ∀ j ∈ o.mem.waiters, (j ≠ i ∧ j ∈ m.waiters) ∨ (j = i ∧ o.pc.waits = true) := by
  have hsame : p.waits = false → ∀ j ∈ m.waiters, j ≠ i ∧ j ∈ m.waiters := by
    rintro hp j hj
    refine ⟨?_, hj⟩
    rintro rfl
    rw [hw hj] at hp
    cases hp
  cases he with
  | quiet _ hwt _ hnot =>
    rw [hwt]
    refine ⟨hn, fun j hj => .inl ⟨?_, hj⟩⟩
    rintro rfl
    exact hnot (hw hj) hj
  | pushed hp _ hwt =>
    rw [hwt]
    exact ⟨hn, fun j hj => .inl (hsame (by rw [hp]; rfl) j hj)⟩
  | notifyNone hp _ hm =>
    rw [hm]
    exact ⟨hn, fun j hj => .inl (hsame (by rw [hp]; rfl) j hj)⟩
  | notifyOne hp _ _ hwt =>
    rw [hwt]
    exact ⟨hn.erase _, fun j hj => .inl (hsame (by rw [hp]; rfl) j (List.mem_of_mem_erase hj))⟩
  | waited hp _ _ _ hwt _ hpc =>
    have hni : i ∉ m.waiters := fun hi => (hsame (by rw [hp]; rfl) i hi).1 rfl
    rw [hwt, hpc]
    refine ⟨List.nodup_cons.2 ⟨hni, hn⟩, ?_⟩
    intro j hj
    rcases List.mem_cons.1 hj with rfl | hj
    · exact .inr ⟨rfl, rfl⟩
    · exact .inl (hsame (by rw [hp]; rfl) j hj)
  | spurious _ _ hwt =>
    rw [hwt]
    exact ⟨hn.erase _, fun j hj => .inl (hn.mem_erase_iff.1 hj)⟩
  | took hp hwt =>
    rw [hwt]
    exact ⟨hn, fun j hj => .inl (hsame (by rw [hp]; rfl) j hj)⟩
  | stopped hp _ hwt =>
    rw [hwt]
    exact ⟨hn, fun j hj => .inl (hsame (by rw [hp]; rfl) j hj)⟩
  | notifyAll _ _ hwt =>
    rw [hwt]
    exact ⟨.nil, nofun⟩

/-- Who is notified after an access was so before it and is still on its way, or waited. -/
theorem notified (hns : ∀ j ∈ ns, j ∉ m.waiters) (hn : ns.Nodup) (hw : m.waiters.Nodup)
    (hi : i ∈ ns → p.retesting = true) (hwi : i ∈ m.waiters → p.waits = true) :
    ns'.Nodup ∧ ∀ j ∈ ns', j ∉ o.mem.waiters ∧
      ((j ≠ i ∧ (j ∈ ns ∨ j ∈ m.waiters)) ∨ (j = i ∧ o.pc.retesting = true)) := by
  have hsame : p.retesting = false → ∀ j ∈ ns, j ≠ i ∧ (j ∈ ns ∨ j ∈ m.waiters) := by
    rintro hp j hj
    refine ⟨?_, .inl hj⟩
    rintro rfl
    rw [hi hj] at hp
    cases hp
  cases he with
  | quiet _ hwt _ _ hre =>
    rw [hwt]
    refine ⟨hn, fun j hj => ⟨hns j hj, ?_⟩⟩
    by_cases hji : j = i
    · subst hji
      exact .inr ⟨rfl, hre (hi hj)⟩
    · exact .inl ⟨hji, .inl hj⟩
  | pushed hp _ hwt =>
    rw [hwt]
    exact ⟨hn, fun j hj => ⟨hns j hj, .inl (hsame (by rw [hp]; rfl) j hj)⟩⟩
  | notifyNone hp _ hm =>
    rw [hm]
    exact ⟨hn, fun j hj => ⟨hns j hj, .inl (hsame (by rw [hp]; rfl) j hj)⟩⟩
  | @notifyOne k hp hj _ hwt =>
    rw [hwt]
    refine ⟨List.nodup_cons.2 ⟨fun hk => hns k hk hj, hn⟩, ?_⟩
    intro j hjn
    rcases List.mem_cons.1 hjn with rfl | hjn
    · refine ⟨hw.not_mem_erase, .inl ⟨?_, .inr hj⟩⟩
      rintro rfl
      rw [hp] at hwi
      cases hwi hj
    · exact ⟨fun hm => hns j hjn (List.mem_of_mem_erase hm), .inl (hsame (by rw [hp]; rfl) j hjn)⟩
  | waited _ _ _ _ hwt =>
    rw [hwt]
    refine ⟨hn.erase _, ?_⟩
    intro j hj
    obtain ⟨hji, hj⟩ := hn.mem_erase_iff.1 hj
    refine ⟨?_, .inl ⟨hji, .inl hj⟩⟩
    rw [List.mem_cons, not_or]
    exact ⟨hji, hns j hj⟩
  | spurious _ _ hwt _ hpc =>
    rw [hwt, hpc]
    refine ⟨hn, fun j hj => ⟨fun hm => hns j hj (List.mem_of_mem_erase hm), ?_⟩⟩
    by_cases hji : j = i
    · exact .inr ⟨hji, rfl⟩
    · exact .inl ⟨hji, .inl hj⟩
  | took _ hwt =>
    rw [hwt]
    refine ⟨hn.erase _, ?_⟩
    intro j hj
    obtain ⟨hji, hj⟩ := hn.mem_erase_iff.1 hj
    exact ⟨hns j hj, .inl ⟨hji, .inl hj⟩⟩
  | stopped hp _ hwt =>
    rw [hwt]
    exact ⟨hn, fun j hj => ⟨hns j hj, .inl (hsame (by rw [hp]; rfl) j hj)⟩⟩
  | notifyAll hp _ hwt =>
    rw [hwt]
    refine ⟨List.nodup_append.2 ⟨hw, hn, ?_⟩, fun j hj => ⟨nofun, .inl ?_⟩⟩
    · rintro j hj k hk rfl
      exact hns j hk hj
    · rcases List.mem_append.1 hj with hj | hj
      · refine ⟨?_, .inr hj⟩
        rintro rfl
        rw [hp] at hwi
        cases hwi hj
      · exact hsame (by rw [hp]; rfl) j hj

theorem stop_mono (hs : m.stop = true) : o.mem.stop = true := by
  cases he with
  | quiet _ _ h | pushed _ _ _ h | notifyOne _ _ _ _ h | spurious _ _ _ h | took _ _ h
  | notifyAll _ _ _ h => exact h.trans hs
  | notifyNone _ _ h => exact h ▸ hs
  | waited _ _ h =>
    rw [hs] at h
    cases h
  | stopped _ _ _ h => exact h

/-- Once `stop` is set nobody begins to wait. -/
theorem closed (hs : m.stop = true) (hw : m.waiters = []) : o.mem.waiters = [] := by
  cases he with
  | quiet _ h | pushed _ _ h | took _ h | stopped _ _ h => exact h.trans hw
  | notifyNone _ _ h => exact h ▸ hw
  | notifyOne _ _ _ h | spurious _ _ h =>
    rw [h, hw]
    rfl
  | waited _ _ h =>
    rw [hs] at h
    cases h
  | notifyAll _ _ h => exact h

/-- Whoever begins to wait has found the queue empty. -/
theorem emptied (hw : m.waiters = []) : o.mem.waiters = [] ∨ o.mem.data = [] := by
  cases he with
  | quiet _ h | pushed _ _ h | took _ h | stopped _ _ h => exact .inl (h.trans hw)
  | notifyNone _ _ h => exact .inl (h ▸ hw)
  | notifyOne _ _ _ h | spurious _ _ h =>
    rw [h, hw]
    exact .inl rfl
  | waited _ _ _ h => exact .inr h
  | notifyAll _ _ h => exact .inl h

/-- Whoever notifies all has set `stop` before. -/
theorem stopping (hp : p.stopping = true → m.stop = true) :
    (o.pc.stopping = true → o.mem.stop = true) ∧
      (o.mem.stop = true → m.stop = true ∨ o.pc.stopping = true) ∧
      (p.stopping = true → o.mem.waiters = [] ∨ o.pc.stopping = true) := by
  cases he with
  | quiet _ _ h _ _ _ hst =>
    rw [hst, h]
    exact ⟨hp, .inl, .inr⟩
  | pushed hp _ _ h hpc =>
    rw [hpc, h, hp]
    exact ⟨nofun, .inl, nofun⟩
  | notifyNone hp _ h hpc =>
    rw [hpc, h, hp]
    exact ⟨nofun, .inl, nofun⟩
  | notifyOne hp _ _ _ h hpc =>
    rw [hpc, h, hp]
    exact ⟨nofun, .inl, nofun⟩
  | waited hp _ _ _ _ h hpc =>
    rw [hpc, h, hp]
    exact ⟨nofun, nofun, nofun⟩
  | spurious hp _ _ h hpc =>
    rw [hpc, h, hp]
    exact ⟨nofun, .inl, nofun⟩
  | took hp _ h _ _ hst =>
    rw [hst, h, hp]
    exact ⟨nofun, .inl, nofun⟩
  | stopped hp _ _ h hpc =>
    rw [hpc, h, hp]
    exact ⟨fun _ => rfl, fun _ => .inr rfl, nofun⟩
  | notifyAll hp' _ hw h hpc =>
    rw [hpc, h, hw]
    exact ⟨nofun, .inl, fun _ => .inl rfl⟩

/-- Only `shutdown` returns this, once it has notified. -/
theorem returned (hr : o.ret = some .unit) : p = .stopNotify ∧ o.mem.waiters = [] := by
  cases he with
  | quiet _ _ _ _ _ _ _ h | notifyNone _ _ _ _ h | notifyOne _ _ _ _ _ _ h => exact absurd hr h
  | pushed _ _ _ _ _ h | waited _ _ _ _ _ _ _ h | spurious _ _ _ _ _ h | took _ _ _ _ _ _ h
  | stopped _ _ _ _ _ h =>
    rw [h] at hr
    cases hr
  | notifyAll hp _ h => exact ⟨hp, h⟩

end Effect

/-- The threads `pending` have put a task into the queue and have not yet notified. -/
def Pending (s : State ι) (pending : List ι) : Prop :=
  pending.Nodup ∧ ∀ i ∈ pending, (s.pc i).pushing = true

omit [DecidableEq ι] in
theorem Pending.mono {s : State ι} {ps : List ι} (hps : Pending s ps) {s' : State ι}
    (h : ∀ j ∈ ps, (s.pc j).pushing = true → (s'.pc j).pushing = true) : Pending s' ps :=
  ⟨hps.1, fun j hj => h j hj (hps.2 j hj)⟩

namespace Effect

variable {ns ns' : List ι} (he : Effect i m ns p o ns')
include he

/-- The tasks stay as few as the notified consumers and the notifications that are pending. -/
theorem count {pc : ι → Pc} {ps : List ι} (hpc : pc i = p) (hi : i ∈ ns → p.retesting = true)
    (hps : Pending (⟨m, pc⟩ : State ι) ps) (hle : m.data.length ≤ ns.length + ps.length)
    (hne : m.waiters ≠ []) :
    o.mem.waiters = [] ∨ ∃ ps', Pending ⟨o.mem, Function.update pc i o.pc⟩ ps' ∧
      o.mem.data.length ≤ ns'.length + ps'.length := by
  -- the threads that are about to notify stay so, but for `i` where it is none of them
  have hkeep : (p.pushing = true → o.pc.pushing = true) →
      Pending (⟨o.mem, Function.update pc i o.pc⟩ : State ι) ps := by
    intro hp
    refine hps.mono ?_
    intro j hj hpush
    refine forall_update (P := fun j (q : Pc) => (pc j).pushing = true → q.pushing = true)
      (fun h => hp (hpc ▸ h)) (fun _ _ => id) j hpush
  cases he with
  | quiet hd _ _ _ _ hpush =>
    rw [hd]
    exact .inr ⟨ps, hkeep hpush, hle⟩
  | pushed hp hd _ _ hpc' =>
    refine .inr ⟨i :: ps, ⟨List.nodup_cons.2 ⟨?_, hps.1⟩, ?_⟩, ?_⟩
    · intro hi
      have := hps.2 i hi
      simp [hpc, hp, Pc.pushing] at this
    · intro j hj
      rcases List.mem_cons.1 hj with rfl | hj
      · simp [hpc', Pc.pushing]
      · exact (hkeep fun h => by rw [hpc']; rfl).2 j hj
    · rw [hd, List.length_append, List.length_singleton, List.length_cons]
      omega
  | notifyNone _ hnil => exact absurd hnil hne
  | notifyOne hp _ hd =>
    refine .inr ⟨ps.erase i, ⟨hps.1.erase i, ?_⟩, ?_⟩
    · intro j hj
      obtain ⟨hji, hj⟩ := hps.1.mem_erase_iff.1 hj
      show (Function.update pc i o.pc j).pushing = true
      rw [Function.update_of_ne hji]
      exact hps.2 j hj
    · rw [hd, List.length_cons, List.length_erase]
      split <;> omega
  | waited hp _ _ hd =>
    rw [hd]
    exact .inr ⟨ps, hkeep (by rw [hp]; exact nofun), Nat.zero_le _⟩
  | spurious hp hd =>
    rw [hd]
    exact .inr ⟨ps, hkeep (by rw [hp]; exact nofun), hle⟩
  | took hp _ _ hd =>
    refine .inr ⟨ps, hkeep (by rw [hp]; exact nofun), ?_⟩
    rw [List.length_erase]
    rcases hd with hd | ⟨hd, hnil | hre⟩
    · split <;> omega
    · rw [hd, hnil]
      exact Nat.zero_le _
    · rw [hd, if_neg fun hin => Bool.false_ne_true (hre.symm.trans (hi hin))]
      exact hle
  | stopped hp hd =>
    rw [hd]
    exact .inr ⟨ps, hkeep (by rw [hp]; exact nofun), hle⟩
  | notifyAll _ _ hwt => exact .inl hwt

end Effect

structure Inv (h : List (Event ι Empty)) (w : Watched ι) : Prop where
  fits : ∀ i, (w.queue.pc i).Fits
  held : ∀ i, (w.queue.pc i).critical = true → w.queue.mem.guard = some i
  waiting : ∀ i ∈ w.queue.mem.waiters, (w.queue.pc i).waits = true
  nodup : w.queue.mem.waiters.Nodup
  notified : ∀ i ∈ w.notified, (w.queue.pc i).retesting = true ∧ i ∉ w.queue.mem.waiters
  notified_nodup : w.notified.Nodup
  count : w.queue.mem.waiters = [] ∨ ∃ pending, Pending w.queue pending ∧
    w.queue.mem.data.length ≤ w.notified.length + pending.length
  stop : w.queue.mem.stop = true →
    w.queue.mem.waiters = [] ∨ ∃ i, (w.queue.pc i).stopping = true
  stopping : ∀ i, (w.queue.pc i).stopping = true → w.queue.mem.stop = true
  stopped : ∀ i, .ret i .unit ∈ h → w.queue.mem.stop = true ∧ w.queue.mem.waiters = []

namespace Inv

variable {h : List (Event ι Empty)} {w : Watched ι}

theorem init : Inv [] (⟨(impl ι).init, []⟩ : Watched ι) where
  fits _ := trivial
  held _ hc := nomatch hc
  waiting _ hi := nomatch hi
  nodup := .nil
  notified _ hi := nomatch hi
  notified_nodup := .nil
  count := .inl rfl
  stop _ := .inl rfl
  stopping _ hi := nomatch hi
  stopped _ hi := nomatch hi

omit [DecidableEq ι] in
theorem entry_fits {op : Op} (hop : AsksOne (i, .call op)) : (entry op).Fits := by
  cases op with
  | popBatch max => exact ⟨rfl, hop⟩
  | _ => trivial

/-- A call is of a thread that neither waits nor is notified nor notifies. -/
theorem call (hi : Inv h w) {op : Op} (hpc : w.queue.pc i = .idle)
    (hop : AsksOne (i, .call op)) :
    Inv (h ++ [.call i op])
      ⟨⟨w.queue.mem, Function.update w.queue.pc i (entry op)⟩, w.notified⟩ := by
  have hother : ∀ {f : Pc → Bool}, f .idle = false → ∀ j, f (w.queue.pc j) = true → j ≠ i := by
    intro f hf j hj he
    rw [he, hpc, hf] at hj
    cases hj
  have hkeep : ∀ {f : Pc → Bool}, f .idle = false → ∀ j, f (w.queue.pc j) = true →
      f (Function.update w.queue.pc i (entry op) j) = true := by
    intro f hf j hj
    rwa [Function.update_of_ne (hother hf j hj)]
  refine ⟨?_, ?_, ?_, hi.nodup, ?_, hi.notified_nodup, ?_, ?_, ?_, ?_⟩
  · exact forall_update (P := fun _ (p : Pc) => p.Fits) (entry_fits hop) fun j _ => hi.fits j
  · refine forall_update (P := fun j (p : Pc) => p.critical = true → _ = some j) ?_
      fun j _ => hi.held j
    cases op <;> exact nofun
  · exact fun j hj => hkeep rfl j (hi.waiting j hj)
  · exact fun j hj => ⟨hkeep rfl j (hi.notified j hj).1, (hi.notified j hj).2⟩
  · exact hi.count.imp id fun ⟨ps, ⟨hn, hp⟩, hle⟩ =>
      ⟨ps, ⟨hn, fun j hj => hkeep rfl j (hp j hj)⟩, hle⟩
  · intro hs
    exact (hi.stop hs).imp id fun ⟨j, hj⟩ => ⟨j, hkeep rfl j hj⟩
  · refine forall_update (P := fun j (p : Pc) => p.stopping = true → _ = true) ?_
      fun j _ => hi.stopping j
    cases op <;> exact nofun
  · intro j hj
    exact hi.stopped j (by simpa using hj)

theorem run (hi : Inv h w) {c : Option ι} {o : Outcome ι}
    (ho : NaiveTaskQueue.run i w.queue.mem c (w.queue.pc i) = some o) :
    Inv (h ++ o.events i) ⟨⟨o.mem, Function.update w.queue.pc i o.pc⟩,
      notify i w.queue.mem c w.notified (w.queue.pc i)⟩ := by
  have he := run_effect ho (hi.fits i) w.notified
  have hns : ∀ j ∈ w.notified, j ∉ w.queue.mem.waiters := fun j hj => (hi.notified j hj).2
  have hre : i ∈ w.notified → (w.queue.pc i).retesting = true := fun hj => (hi.notified i hj).1
  obtain ⟨hwn, hw⟩ := he.waiters (hi.waiting i) hi.nodup
  obtain ⟨hnn, hn⟩ := he.notified hns hi.notified_nodup hi.nodup hre (hi.waiting i)
  obtain ⟨hset, hstop, hstopping⟩ := he.stopping (hi.stopping i)
  have hother : ∀ {f : Pc → Bool} {j : ι}, j ≠ i → f (w.queue.pc j) = true →
      f (Function.update w.queue.pc i o.pc j) = true := by
    intro f j hji hj
    rwa [Function.update_of_ne hji]
  have hself : ∀ {f : Pc → Bool}, f o.pc = true →
      f (Function.update w.queue.pc i o.pc i) = true := by
    intro f hf
    rwa [Function.update_self]
  refine ⟨?_, ?_, ?_, hwn, ?_, hnn, ?_, ?_, ?_, ?_⟩
  · exact forall_update (P := fun _ (p : Pc) => p.Fits) (run_fits ho (hi.fits i))
      fun j _ => hi.fits j
  · refine forall_update (P := fun j (p : Pc) => p.critical = true → o.mem.guard = some j) ?_
      fun j hji hc => ?_
    all_goals rcases run_guard ho with ⟨hg, hcr⟩ | ⟨hg, hg', -⟩ | ⟨hcr, hg, hcr'⟩
    · exact fun hc => hg.trans (hi.held i (hcr.symm.trans hc))
    · exact fun _ => hg'
    · exact fun hc => absurd (hcr'.symm.trans hc) Bool.false_ne_true
    · exact hg.trans (hi.held j hc)
    · exact nomatch hg.symm.trans (hi.held j hc)
    · exact absurd (Option.some.inj ((hi.held j hc).symm.trans (hi.held i hcr))) hji
  · intro j hj
    rcases hw j hj with ⟨hji, hj⟩ | ⟨rfl, hpc⟩
    · exact hother hji (hi.waiting j hj)
    · exact hself hpc
  · intro j hj
    obtain ⟨hnw, ⟨hji, hj | hj⟩ | ⟨rfl, hpc⟩⟩ := hn j hj
    · exact ⟨hother hji (hi.notified j hj).1, hnw⟩
    · exact ⟨hother hji (waits_retesting (hi.waiting j hj)), hnw⟩
    · exact ⟨hself hpc, hnw⟩
  · by_cases hnil : w.queue.mem.waiters = []
    · refine (he.emptied hnil).imp id fun hd => ⟨[], ⟨.nil, nofun⟩, ?_⟩
      show o.mem.data.length ≤ _
      rw [hd]
      exact Nat.zero_le _
    · obtain ⟨ps, hps, hle⟩ := hi.count.resolve_left hnil
      exact he.count rfl hre hps hle hnil
  · intro hs
    rcases hstop hs with hs | hpc
    · rcases hi.stop hs with hnil | ⟨j, hj⟩
      · exact .inl (he.closed hs hnil)
      · by_cases hji : j = i
        · subst hji
          exact (hstopping hj).imp id fun hpc => ⟨j, hself hpc⟩
        · exact .inr ⟨j, hother hji hj⟩
    · exact .inr ⟨i, hself hpc⟩
  · refine forall_update (P := fun _ (p : Pc) => p.stopping = true → o.mem.stop = true) hset
      fun j _ hj => he.stop_mono (hi.stopping j hj)
  · intro j hj
    rcases List.mem_append.1 hj with hj | hj
    · obtain ⟨hs, hnil⟩ := hi.stopped j hj
      exact ⟨he.stop_mono hs, he.closed hs hnil⟩
    · obtain ⟨hp, hnil⟩ := he.returned (Outcome.ret_mem.1 hj).2
      exact ⟨he.stop_mono (hi.stopping i (by rw [hp]; rfl)), hnil⟩

end Inv

variable {h : List (Event ι Empty)} {w : Watched ι}

theorem inv (hr : (watched ι).ReachIf (fun _ _ => AsksOne) h w) : Inv h w := by
  refine hr.inv ?_ ?_
  · intro w h0
    obtain rfl : w = ⟨(impl ι).init, []⟩ := h0
    exact .init
  · intro h w l es w' hi hl hs
    obtain ⟨⟨es', queue⟩, hq, he⟩ := Option.map_eq_some_iff.1 hs
    cases he
    obtain ⟨i, op | c⟩ := l
    · obtain ⟨hpc, rfl, rfl⟩ := Impl.step_call.1 hq
      exact hi.call hpc hl
    · obtain ⟨o, ho, rfl, rfl⟩ := Impl.step_run.1 hq
      exact hi.run ho

/-- Watching does not restrict the queue. -/
theorem watch {s : State ι} (hr : (lts ι).ReachIf (fun _ _ => AsksOne) h s) :
    ∃ notified, (watched ι).ReachIf (fun _ _ => AsksOne) h ⟨s, notified⟩ := by
  induction hr with
  | init h0 =>
    obtain rfl := h0
    exact ⟨[], .init rfl⟩
  | step _ hl hs ih =>
    rename_i l _ _ _
    obtain ⟨notified, hw⟩ := ih
    exact ⟨_, hw.step (l := l) hl (Option.map_eq_some_iff.2 ⟨_, hs, rfl⟩)⟩

/-! ## No lost wakeup -/

/-- The consumer is not blocked: it has yet to take the lock and to test again, or it has the lock
and has yet to test, or to take its first task. -/
def Awake (s : State ι) (i : ι) : Prop :=
  match s.pc i with
  | .popWait _ => i ∉ s.mem.waiters
  | .popLock _ => True
  | .popTest _ | .popTake .pop | .popTake (.batch [] _) => s.mem.guard = some i
  | _ => False

/-- No consumer is blocked without a reason. A `shutdown` that has returned has notified all. -/
structure NoLostWakeup (h : List (Event ι Empty)) (w : Watched ι) : Prop where
  notified : w.notified.Nodup ∧ ∀ i ∈ w.notified, Awake w.queue i
  woken : w.queue.mem.data ≠ [] ∨ w.queue.mem.stop = true → w.queue.mem.waiters = [] ∨
    (∃ i, (w.queue.pc i).pushing = true ∨ (w.queue.pc i).stopping = true) ∨
    ∃ i ∈ w.notified, Awake w.queue i
  counted : w.queue.mem.waiters = [] ∨ ∃ pending, Pending w.queue pending ∧
    w.queue.mem.data.length ≤ w.notified.length + pending.length
  closed : ∀ i, .ret i .unit ∈ h → w.queue.mem.stop = true ∧ w.queue.mem.waiters = []

omit [DecidableEq ι] in
theorem Inv.awake (hi : Inv h w) {i : ι} (hn : i ∈ w.notified) : Awake w.queue i := by
  obtain ⟨hre, hw⟩ := hi.notified i hn
  have hheld := hi.held i
  unfold Awake
  generalize w.queue.pc i = p at hre hheld ⊢
  cases p with
  | popWait => exact hw
  | popLock => trivial
  | popTest => exact hheld rfl
  | popTake ctx =>
    cases ctx with
    | pop => exact hheld rfl
    | batch batch max =>
      cases batch with
      | nil => exact hheld rfl
      | cons => cases hre
  | _ => cases hre

/-- **No wakeup is lost**, in any run in which each `pop_batch` asks for a task at least. -/
theorem no_lost_wakeup :
    (∀ h (w : Watched ι), (watched ι).ReachIf (fun _ _ => AsksOne) h w → NoLostWakeup h w) ∧
    ∀ h (s : State ι), (lts ι).ReachIf (fun _ _ => AsksOne) h s →
      ∃ notified, (watched ι).ReachIf (fun _ _ => AsksOne) h ⟨s, notified⟩ := by
  refine ⟨?_, fun h s hr => watch hr⟩
  intro h w hr
  have hi := inv hr
  refine ⟨⟨hi.notified_nodup, fun i hn => hi.awake hn⟩, ?_, hi.count, hi.stopped⟩
  intro hd
  rcases hd with hd | hs
  · refine hi.count.imp id fun ⟨ps, hps, hle⟩ => ?_
    cases ps with
    | cons i ps => exact .inl ⟨i, .inl (hps.2 i List.mem_cons_self)⟩
    | nil =>
      -- nothing is pending, so a task has its notified consumer
      have hpos : 0 < w.notified.length :=
        Nat.lt_of_lt_of_le (List.length_pos_iff.2 hd) hle
      obtain ⟨i, hn⟩ := List.exists_mem_of_length_pos hpos
      exact .inr ⟨i, hn, hi.awake hn⟩
  · exact (hi.stop hs).imp id fun ⟨i, h⟩ => .inl ⟨i, .inr h⟩

/-- `j` and `k` wait, `i` pushes a task and notifies `j`. -/
def wakeOne (i j k : ι) (task : InferenceTask) : List (ι × Act (Option ι)) :=
  [(j, .call .pop), (j, .run none), (j, .run none), (k, .call (.popBatch 4)), (k, .run none),
    (k, .run none), (i, .call (.push task)), (i, .run none), (i, .run none), (i, .run none),
    (i, .run (some j))]

theorem no_lost_wakeup_run : ∃ h w, (watched (Fin 3)).ReachIf (fun _ _ => AsksOne) h w ∧
    w.queue.mem.data = [.empty] ∧ w.queue.mem.waiters = [2] ∧ w.notified = [1] ∧
    NoLostWakeup h w := by
  have hC : ∀ l ∈ wakeOne (0 : Fin 3) 1 2 .empty,
      ∀ (_ : List (Event (Fin 3) Empty)) (_ : Watched (Fin 3)),
      AsksOne l := by
    intro l hl _ _
    simp only [wakeOne, List.mem_cons, List.not_mem_nil, or_false] at hl
    rcases hl with rfl | rfl | rfl | rfl | rfl | rfl | rfl | rfl | rfl | rfl | rfl <;>
      simp [AsksOne]
  have hr := Lts.ReachIf.exec (T := watched (Fin 3)) hC (.init rfl) rfl
  exact ⟨_, _, hr, rfl, rfl, rfl, no_lost_wakeup.1 _ _ hr⟩

end Lumen.Concurrency.NaiveTaskQueue
