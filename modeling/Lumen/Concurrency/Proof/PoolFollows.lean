import Lumen.Concurrency.Proof.PoolSystem

/-!
# The pool behind the system, step by step

`pool_mirrors` for a single step, so that it can be used inside a larger program: the pool that a
state of the system stands for (`Follows`), and what a call and a step of a thread do in it. A
thread of the system owes what an operation has returned in the pool and not yet in the system.
-/

set_option autoImplicit false

namespace Lumen.Concurrency.ThreadPool

open Lumen.Lib Lumen.Lib.Shared Lumen.Core

section
variable {ι : Type*}

/-- What a thread over the queues is yet to return. -/
def owed (x : ObjectSite ι) : List Ret := (pending x).filterMap Sum.getRight?

@[simp] theorem owed_own (p : Pc ι Unit) : owed (.own p : ObjectSite ι) = [] := rfl

theorem shown_right {ε ρ : Type*} (os : List ε) (r : Option ρ) :
    (shown os r).filterMap Sum.getRight? = r.toList := by
  have hleft : (os.map (Sum.inl : ε → ε ⊕ ρ)).filterMap Sum.getRight? = [] :=
    List.filterMap_eq_nil_iff.2 fun e he => by
      obtain ⟨x, -, rfl⟩ := List.mem_map.1 he
      rfl
  rw [shown, List.filterMap_append, hleft]
  cases r <;> rfl

theorem run_idle [DecidableEq ι] {κ : Type*} (setup : Setup ι) (allocator : ι → Allocator) (i : ι)
    (m : Mem ι κ) (c : Choice) :
    (impl κ setup allocator).run i m c (impl κ setup allocator).idle = none := rfl

theorem impl_returns [DecidableEq ι] {κ : Type*} (setup : Setup ι) (allocator : ι → Allocator) :
    (impl κ setup allocator).Returns := by
  intro i m c p o r ho hr
  replace ho : run setup i m c p = some o := ho
  cases p <;> simp only [run, push, popImmediate, popBatch, forEach, engineRun, stopJoin] at ho
  all_goals
    (repeat' split at ho) <;> cases ho <;> first | rfl | cases hr

end

section
variable {ι : Type} [DecidableEq ι] {setup : Setup ι} {allocator : ι → Allocator} {mn c i : ι}
  {s : SystemState setup} {owes : ι → List Ret} {t : State ι Unit}

/-- Steps of the pool over the objects, in the pool. -/
theorem Tracks.moves {h : List (Shared.Event ι (Op Unit) Ret (Obs Unit))} {b : ObjectState ι}
    {m m' : Mem ι Unit × (TaskQueue Unit × ResultQueue.Value)} {x x' : ObjectSite ι}
    {os : List (Obs Unit)} {r : Option Ret}
    (hm : (objects setup allocator).Moves i m x os r m' x') (hbm : b.mem = m) (hbx : b.pc i = x)
    (hb : (objects setup allocator).lts.ReachIf (fun _ => Use setup mn) h b)
    (ht : Tracks setup b t) : ∃ os' r' n p,
      (impl Unit setup allocator).Moves i t.mem (t.pc i) os' r' n p ∧
      owed x ++ r'.toList = r.toList ++ owed x' ∧
      Tracks setup (b.moved i m' x') (t.moved i n p) ∧
      ∃ h', (objects setup allocator).lts.ReachIf (fun _ => Use setup mn) h' (b.moved i m' x') := by
  have hone : ∀ {h b t c o}, (objects setup allocator).lts.ReachIf (fun _ => Use setup mn) h b →
      Tracks setup b t → (objects setup allocator).run i b.mem c (b.pc i) = some o →
      ∃ os' r' n p, (impl Unit setup allocator).Moves i t.mem (t.pc i) os' r' n p ∧
        owed (b.pc i) ++ r'.toList = o.ret.toList ++ owed o.pc ∧
        Tracks setup (b.moved i o.mem o.pc) (t.moved i n p) ∧
        ∃ h', (objects setup allocator).lts.ReachIf (fun _ => Use setup mn) h'
          (b.moved i o.mem o.pc) := by
    intro h b t c o hb ht ho
    obtain ⟨os', r', n, p, hmoves, hpend, htr⟩ := tracks_run (callers hb) ht ho
    have hu : Use setup mn b (i, (.run c : Shared.Act (Op Unit) _)) := trivial
    refine ⟨os', r', n, p, hmoves, ?_, htr, _, hb.step hu (Impl.step_run.2 ⟨o, ho, rfl, rfl⟩)⟩
    have hright := congrArg (List.filterMap Sum.getRight?) hpend
    rwa [List.filterMap_append, List.filterMap_append, shown_right, shown_right] at hright
  induction hm generalizing h b t with
  | @stay m x =>
    subst hbm hbx
    refine ⟨[], none, t.mem, t.pc i, .stay, List.append_nil _, ?_, h, ?_⟩
    · rwa [State.moved_self, State.moved_self]
    · rwa [State.moved_self]
  | @ret m x c o r ho hr =>
    subst hbm hbx
    have hstep := hone hb ht ho
    rwa [hr] at hstep
  | @next m m' x x' c o os r ho hr _ ih =>
    subst hbm hbx
    obtain ⟨os1, r1, n1, p1, hm1, ho1, ht1, h1, hb1⟩ := hone hb ht ho
    obtain ⟨os2, r2, n2, p2, hm2, ho2, ht2, h2, hb2⟩ := ih rfl State.moved_pc hb1 ht1
    rw [State.moved_pc, State.moved_mem] at hm2
    obtain ⟨y, hm, hy⟩ := hm1.append (impl_returns setup allocator) (run_idle setup allocator) hm2
    rw [State.moved_moved] at ht2 hb2
    rw [State.moved_moved] at ht2
    refine ⟨_, y, n2, p2, hm, ?_, ht2, h2, hb2⟩
    rw [hr] at ho1
    rw [hy, ← List.append_assoc, ho1]
    exact ho2

/-- The system `s` is the pool `t`; the threads still owe `owes`. -/
def Follows (setup : Setup ι) (allocator : ι → Allocator) (mn c : ι) (s : SystemState setup)
    (owes : ι → List Ret) (t : State ι Unit) : Prop :=
  ∃ h h' b, (system setup allocator).lts.ReachIf (fun _ => InUse setup mn) h s ∧
    (objects setup allocator).lts.ReachIf (fun _ => Use setup mn) h' b ∧
    SystemRel setup mn c s b ∧ Tracks setup b t ∧ ∀ i, owes i = owed (b.pc i)

namespace Follows

theorem init : Follows setup allocator mn c (system setup allocator).init (fun _ => [])
    (impl Unit setup allocator).init :=
  ⟨[], [], (objects setup allocator).init, .init rfl, .init rfl, system_refines.init,
    (tracks setup allocator mn).init, fun _ => rfl⟩

theorem backs (hf : Follows setup allocator mn c s owes t) : Backs setup mn c s t := by
  obtain ⟨-, -, b, -, -, hrel, htr, -⟩ := hf
  exact ThreadPool.backs hrel htr

/-- A thread calls an operation of the pool. -/
theorem call (hf : Follows setup allocator mn c s owes t) {op : Op Unit}
    (hl : InUse setup mn s (i, .call op)) (hpc : s.pc i = .own .idle) :
    t.pc i = .idle ∧ Follows setup allocator mn c (s.moved i s.mem (.own (entry op))) owes
      (t.moved i t.mem (entry op)) := by
  obtain ⟨h, h', b, hs, hb, hrel, htr, howes⟩ := hf
  obtain ⟨hbpc, hrel'⟩ := system_refines.call s b i op hrel
    (show Within setup allocator mn c s (i, .call op) from ⟨hl.1, trivial⟩) hpc
  have hu : Use setup mn b (i, (.call op : Shared.Act (Op Unit)
      (Impl.Turn Choice (AtomicTaskQueue.Choice ⊕ Unit)))) := use_objects hrel hl.1
  obtain ⟨ht, -, -, htr'⟩ := (tracks setup allocator mn).call b t i op htr hu hbpc
  refine ⟨ht, _, _, _, hs.step hl (Impl.step_call.2 ⟨hpc, rfl, rfl⟩),
    hb.step hu (Impl.step_call.2 ⟨hbpc, rfl, rfl⟩), hrel', htr', fun j => ?_⟩
  rw [howes j]
  by_cases hj : j = i
  · subst hj
    rw [hbpc]
    simp
    rfl
  · exact congrArg owed (State.moved_pc_ne hj).symm

/-- A thread takes a step. -/
theorem run (hone : Single setup c) (hf : Follows setup allocator mn c s owes t)
    (hbelow : setup.kind.Below s.mem.2.1)
    {x : Impl.Turn Choice (setup.kind.Choice ι ⊕ Option ι)}
    {o : Shared.Outcome _ Ret (Obs Unit) (system setup allocator).idle}
    (ho : (system setup allocator).run i s.mem x (s.pc i) = some o) : ∃ os r n p rs,
      (impl Unit setup allocator).Moves i t.mem (t.pc i) os r n p ∧
      owes i ++ r.toList = o.ret.toList ++ rs ∧
      Follows setup allocator mn c (s.moved i o.mem o.pc) (Function.update owes i rs)
        (t.moved i n p) := by
  obtain ⟨h, h', b, hs, hb, hrel, htr, howes⟩ := hf
  have hl : InUse setup mn s (i, .run x) := ⟨trivial, hbelow⟩
  obtain ⟨m', x', hmoves, hrel'⟩ :=
    system_refines.run s b i x o hrel (within_of_reach hone hs hl) ho
  obtain ⟨os, r, n, p, hm, hret, htr', h'', hb'⟩ := htr.moves hmoves rfl rfl hb
  refine ⟨os, r, n, p, owed x', hm, by rw [howes i]; exact hret, _, h'', _,
    hs.step hl (Impl.step_run.2 ⟨o, ho, rfl, rfl⟩), hb', hrel', htr', fun j => ?_⟩
  by_cases hj : j = i
  · subst hj
    rw [Function.update_self, State.moved_pc]
  · rw [Function.update_of_ne hj, State.moved_pc_ne hj]
    exact howes j

end Follows
end
end Lumen.Concurrency.ThreadPool
