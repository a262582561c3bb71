import Lumen.Concurrency.NaiveResultQueue

/-!
# `NaiveResultQueue` is a result queue

Only the thread that has the mutex changes the list, so an operation takes effect with its access
to it. A `pop` that waits has not begun; what it waits for is what it finds, since it has the mutex
from the test on.
-/

set_option autoImplicit false

namespace Lumen.Concurrency.NaiveResultQueue

open Lumen.Lib Lumen.Lib.Shared Lumen.Core ResultQueue

variable {ι : Type*}

/-! ## The mutex -/

/-- The thread has the mutex. -/
def Pc.critical : Pc → Bool
  | .pushData _ | .pushNotify | .popTest | .popTake | .immediateTake | .sizeRead _ | .unlock _
  | .stopSet | .stopUnlock => true
  | _ => false

section
variable [DecidableEq ι] {i : ι} {m : Mem ι} {c : Option ι} {p : Pc} {o : Outcome ι}

/-- The mutex is taken by a thread that finds it free, and given back by the one that has it. -/
theorem run_guard (ho : run i m c p = some o) :
    (o.mem.guard = m.guard ∧ o.pc.critical = p.critical) ∨
      (m.guard = none ∧ o.mem.guard = some i ∧ o.pc.critical = true) ∨
      (p.critical = true ∧ o.mem.guard = none ∧ o.pc.critical = false) := by
  have hlock : ∀ {p'}, p'.critical = true → lock i m p' = some o →
      m.guard = none ∧ o.mem.guard = some i ∧ o.pc.critical = true := by
    intro p' hp h
    obtain ⟨hg, rfl⟩ := lock_some h
    exact ⟨hg, rfl, hp⟩
  cases p <;> simp only [run, take] at ho
  case pushLock => exact .inr (.inl (hlock rfl ho))
  case popLock => exact .inr (.inl (hlock rfl ho))
  case immediateLock => exact .inr (.inl (hlock rfl ho))
  case sizeLock => exact .inr (.inl (hlock rfl ho))
  case stopLock => exact .inr (.inl (hlock rfl ho))
  all_goals
    (repeat' split at ho) <;> cases ho <;> first
      | exact .inl ⟨rfl, rfl⟩
      | exact .inr (.inr ⟨rfl, rfl, rfl⟩)

end

/-! ## The relation -/

/-- Where the result queue is when a thread of the list `m` is at its step. -/
def Follows (m : Mem ι) : Pc → Impl.AtomicPc Op Ret → Prop
  | .idle, q => q = .idle
  | .pushLock result, q | .pushData result, q => q = .call (.push result)
  | .pushNotify, q => q = .answer .unit
  | .popLock, q | .popTest, q | .popWait, q => q = .call .pop
  | .popTake, q => q = .call .pop ∧ (m.data ≠ [] ∨ m.stop = true)
  | .immediateLock, q | .immediateTake, q => q = .call .popImmediate
  | .sizeLock e, q | .sizeRead e, q => q = .call (if e then .empty else .size)
  | .unlock r, q => q = .answer r
  | .stopLock, q | .stopSet, q => q = .call .shutdown
  | .stopUnlock, q | .stopNotify, q => q = .answer .unit

/-- The value of the list. -/
def Mem.value (m : Mem ι) : Value := { results := m.data, stopped := m.stop }

/-- The list stands for the queue. -/
structure StandsFor (s : State ι) (t : Shared.State ι Value (Impl.AtomicPc Op Ret)) : Prop where
  held : ∀ i, (s.pc i).critical = true → s.mem.guard = some i
  value : t.mem = s.mem.value
  pc : ∀ i, Follows s.mem (s.pc i) (t.pc i)

section
variable [DecidableEq ι] {s : State ι} {t : Shared.State ι Value (Impl.AtomicPc Op Ret)} {i : ι}
  {c : Option ι} {o : Outcome ι} {q : Impl.AtomicPc Op Ret}

omit [DecidableEq ι] in
/-- What a thread waits for with the mutex is not changed without it. -/
theorem Follows.other {m m' : Mem ι} {p : Pc} (h : Follows m p q)
    (hm : m'.value = m.value ∨ p.critical = false) : Follows m' p q := by
  cases p <;> try exact h
  case popTake =>
    have hv := hm.resolve_right (by simp [Pc.critical])
    simp only [Mem.value, Value.mk.injEq] at hv
    exact ⟨h.1, by rw [hv.1, hv.2]; exact h.2⟩

/-- A step: only the thread that has the mutex changes the list. -/
theorem StandsFor.move (hf : StandsFor s t) (ho : run i s.mem c (s.pc i) = some o)
    (hm : o.mem.value = s.mem.value ∨ (s.pc i).critical = true) (hq : Follows o.mem o.pc q) :
    StandsFor (s.moved i o.mem o.pc) (t.moved i o.mem.value q) := by
  refine ⟨?_, rfl, State.pcs_moved (P := fun _ => Follows o.mem) hq fun j hj => (hf.pc j).other ?_⟩
  · refine forall_update (P := fun j (p : Pc) => p.critical = true → o.mem.guard = some j)
      (fun hcrit => ?_) fun j hj hcrit => ?_
    · rcases run_guard ho with ⟨hg, hc⟩ | ⟨-, hg, -⟩ | ⟨-, -, hc⟩
      · rw [hg]
        exact hf.held i (hc ▸ hcrit)
      · exact hg
      · rw [hc] at hcrit
        cases hcrit
    · have hgj := hf.held j hcrit
      rcases run_guard ho with ⟨hg, -⟩ | ⟨hg, -⟩ | ⟨hc, -⟩
      · rw [hg, hgj]
      · rw [hg] at hgj
        cases hgj
      · rw [hf.held i hc, Option.some.injEq] at hgj
        exact absurd hgj.symm hj
  · refine hm.imp_right fun hc => Bool.eq_false_iff.2 fun hcj => hj ?_
    have := hf.held j hcj
    rw [hf.held i hc, Option.some.injEq] at this
    exact this.symm

omit [DecidableEq ι] in
/-- A pop that has the mutex takes what is there. -/
theorem take_eq (m : Mem ι) : take m =
    { mem := { m with data := m.data.tail }, pc := .unlock (.result m.data.head?) } := by
  obtain ⟨data, guard, waiters, stop⟩ := m
  cases data <;> rfl

/-! ## Every step -/

theorem run_refines (hf : StandsFor s t) (ho : run i s.mem c (s.pc i) = some o) :
    ∃ m q, (ResultQueue.impl ι).Moves i t.mem (t.pc i) [] o.ret m q ∧
      StandsFor (s.moved i o.mem o.pc) (t.moved i m q) := by
  have hpos := hf.pc i
  -- a step that leaves the list alone
  have keep : ∀ {q q'}, t.pc i = q →
      (ResultQueue.impl ι).Moves i s.mem.value q [] o.ret s.mem.value q' →
      o.mem.value = s.mem.value → Follows o.mem o.pc q' →
      ∃ m q, (ResultQueue.impl ι).Moves i t.mem (t.pc i) [] o.ret m q ∧
        StandsFor (s.moved i o.mem o.pc) (t.moved i m q) := fun hq hm he hfol => by
    rw [hq, hf.value]
    exact ⟨_, _, he ▸ hm, hf.move ho (.inl he) hfol⟩
  -- an operation takes effect, with the mutex
  have effect : ∀ {op r}, t.pc i = .call op → (s.pc i).critical = true → o.ret = none →
      ResultQueue.effect s.mem.value op = some (r, o.mem.value) → Follows o.mem o.pc (.answer r) →
      ∃ m q, (ResultQueue.impl ι).Moves i t.mem (t.pc i) [] o.ret m q ∧
        StandsFor (s.moved i o.mem o.pc) (t.moved i m q) := fun hq hc hr he hfol => by
    rw [hq, hf.value, hr]
    exact ⟨_, _, Impl.Moves.takes he, hf.move ho (.inr hc) hfol⟩
  cases hpc : s.pc i <;> simp only [hpc, run] at ho <;> simp only [hpc, Follows] at hpos
  case idle => cases ho
  case pushLock result =>
    obtain ⟨-, rfl⟩ := lock_some ho
    exact keep hpos .stay rfl rfl
  case pushData result =>
    cases ho
    exact effect hpos (by rw [hpc]; rfl) rfl rfl rfl
  case pushNotify =>
    (repeat' split at ho) <;> cases ho <;> exact keep hpos .stay rfl rfl
  case popLock =>
    obtain ⟨-, rfl⟩ := lock_some ho
    exact keep hpos .stay rfl rfl
  case popTest =>
    split at ho <;> rename_i hwait <;> cases ho
    · exact keep hpos .stay rfl ⟨rfl, hwait⟩
    · exact keep hpos .stay rfl rfl
  case popWait =>
    (repeat' split at ho) <;> cases ho <;> exact keep hpos .stay rfl rfl
  case popTake =>
    cases ho
    rw [take_eq] at effect ⊢
    refine effect hpos.1 (by rw [hpc]; rfl) rfl ?_ rfl
    have hgo : ¬ (s.mem.data = [] ∧ s.mem.stop = false) := by
      rintro ⟨hd, hs⟩
      rcases hpos.2 with h | h
      · exact h hd
      · rw [hs] at h
        cases h
    exact if_neg hgo
  case immediateLock =>
    obtain ⟨-, rfl⟩ := lock_some ho
    exact keep hpos .stay rfl rfl
  case immediateTake =>
    cases ho
    rw [take_eq] at effect ⊢
    exact effect hpos (by rw [hpc]; rfl) rfl rfl rfl
  case sizeLock e =>
    obtain ⟨-, rfl⟩ := lock_some ho
    exact keep hpos .stay rfl rfl
  case sizeRead e =>
    cases ho
    cases e <;> exact effect hpos (by rw [hpc]; rfl) rfl rfl rfl
  case unlock r =>
    cases ho
    exact keep hpos Impl.Moves.returns rfl rfl
  case stopLock =>
    obtain ⟨-, rfl⟩ := lock_some ho
    exact keep hpos .stay rfl rfl
  case stopSet =>
    cases ho
    exact effect hpos (by rw [hpc]; rfl) rfl rfl rfl
  case stopUnlock =>
    cases ho
    exact keep hpos .stay rfl rfl
  case stopNotify =>
    cases ho
    exact keep hpos Impl.Moves.returns rfl rfl

theorem refines (ι : Type*) [DecidableEq ι] : (impl ι).Refines (ResultQueue.impl ι)
    (fun _ => none) (fun _ _ => True) StandsFor where
  init := by
    refine ⟨fun i hi => ?_, rfl, fun i => rfl⟩
    cases hi
  call := by
    intro s t i op hf _ hpc
    have hidle := hf.pc i
    rw [hpc] at hidle
    have hentry : (entry op).critical = false ∧ Follows s.mem (entry op) (.call op) := by
      cases op <;> exact ⟨rfl, rfl⟩
    refine ⟨hidle, ?_, hf.value,
      State.pcs_moved (P := fun _ => Follows s.mem) hentry.2 fun j _ => hf.pc j⟩
    refine forall_update (P := fun j (p : Pc) => p.critical = true → s.mem.guard = some j)
      (fun hcrit => ?_) fun j _ => hf.held j
    rw [impl_entry, hentry.1] at hcrit
    cases hcrit
  run s t i c o hrel _ ho := by
    rw [show o.obs.filterMap (fun _ => (none : Option Empty)) = [] from
      List.filterMap_eq_nil_iff.2 fun _ _ => rfl]
    exact run_refines hrel ho

theorem returns : (impl ι).Returns := by
  intro i m c p o r ho hr
  replace ho : run i m c p = some o := ho
  have hlock : ∀ {p'}, lock i m p' = some o → o.ret = none := fun h => by rw [(lock_some h).2]
  cases p <;> simp only [run] at ho
  case pushLock | popLock | immediateLock | sizeLock | stopLock =>
    rw [hlock ho] at hr
    cases hr
  case popTake | immediateTake =>
    cases ho
    rw [take_eq] at hr
    cases hr
  all_goals
    (repeat' split at ho) <;> cases ho <;> first | rfl | cases hr

/-! ## The theorem -/

/-- **The list is a result queue**, for any threads that call it. -/
theorem results_atomic {h : List (Shared.Event ι Op Ret Empty)} (hr : (lts ι).Reach h s) :
    ∃ t, (ResultQueue.impl ι).lts.Reach (h.filterMap (Event.through fun _ => none)) t ∧
      StandsFor s t :=
  (refines ι).reach hr

/-- `j` waits and `i` pushes; `k` takes the result, so `j` finds none and waits again. -/
def stolenResult (i j k : ι) (result : InferenceResult) :
    List (ι × Shared.Act Op (Option ι)) :=
  [(j, .call .pop), (j, .run none), (j, .run none), (i, .call (.push result)), (i, .run none),
    (i, .run none), (i, .run (some j)), (k, .call .popImmediate), (i, .run none), (k, .run none),
    (k, .run none), (k, .run none), (j, .run none), (j, .run none), (j, .run none)]

theorem results_atomic_run : ∃ s t, (lts (Fin 3)).Reach [.call 1 .pop,
      .call 0 (.push ⟨7, [], none, true, []⟩), .call 2 .popImmediate, .ret 0 .unit,
      .ret 2 (.result (some ⟨7, [], none, true, []⟩))] s ∧ s.pc 1 = .popWait ∧
    (ResultQueue.impl (Fin 3)).lts.Reach [.call 1 .pop,
      .call 0 (.push ⟨7, [], none, true, []⟩), .call 2 .popImmediate, .ret 0 .unit,
      .ret 2 (.result (some ⟨7, [], none, true, []⟩))] t ∧ t.pc 1 = .call .pop := by
  obtain ⟨s, he, hw⟩ : ∃ s, (lts (Fin 3)).exec (impl (Fin 3)).init
      (stolenResult 0 1 2 ⟨7, [], none, true, []⟩) =
        some ([.call 1 .pop, .call 0 (.push ⟨7, [], none, true, []⟩), .call 2 .popImmediate,
          .ret 0 .unit, .ret 2 (.result (some ⟨7, [], none, true, []⟩))], s) ∧
      s.pc 1 = .popWait := ⟨_, rfl, rfl⟩
  have hr := Lts.Reach.of_exec rfl he
  obtain ⟨t, ht, hs⟩ := results_atomic hr
  have hpc := hs.pc 1
  rw [hw] at hpc
  exact ⟨s, t, hr, hw, ht, hpc⟩

end
end Lumen.Concurrency.NaiveResultQueue
