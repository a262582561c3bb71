import Lumen.Concurrency.Proof.MPMCInv

/-!
# The size of `MPMCTaskQueue`

No access compares `head` with `tail`; it is the cells that keep them at most a lap apart. `size`
loads `tail` first. Whatever the other threads do before it loads `head`, `tail` has not gone back,
so what `size` returns is never more than the lap (`occupancy`), and `0` where `head` has passed the
value of `tail` that it has.
-/

set_option autoImplicit false

namespace Lumen.Concurrency.MPMCTaskQueue

open Lumen.Lib Lumen.Lib.Shared Lumen.Core ITaskQueue

variable {ι : Type*}

/-- A `size()` that returns answers at most the capacity. -/
def SizeOk (_ : List (Event ι Obs)) (e : Event ι Obs) : Prop :=
  ∀ i n, e = .ret i (.size n) → n ≤ capacity

section
variable {W : List (ι × InferenceTask)} {H : List ι} {s : State ι} {i : ι}

theorem Inv.size_le (hi : Inv W H s) {t : Nat} (ht : t ≤ s.mem.tail) (hb : s.mem.tail < 2 ^ 63) :
    (if t > s.mem.head then sub64 t s.mem.head else 0) ≤ capacity := by
  have hle := hi.tail_le
  split
  · rw [sub64_of_le (by omega) (by omega)]
    omega
  · exact Nat.zero_le _

theorem run_size (hi : Inv W H s) (hb : s.mem.tail < 2 ^ 63) {weak : Bool} {o : Outcome}
    (ho : run s.mem weak (s.pc i) = some o) {n : Nat} (hret : o.ret = some (.size n)) :
    n ≤ capacity := by
  have hok := hi.thread i
  cases hpc : s.pc i <;> simp only [hpc, run] at ho
  case sizeHead empty t =>
    simp only [hpc, ThreadOk] at hok
    have hsize := hi.size_le hok hb
    cases ho
    cases empty <;> simp only [sizeRet, Option.some.injEq, Bool.false_eq_true, if_false, if_true,
      reduceCtorEq, Ret.size.injEq] at hret
    exact hret ▸ hsize
  case popSeq ctx h =>
    (repeat' split at ho) <;> cases ho <;> cases ctx <;> cases hret
  case popPublish ctx h task =>
    cases ho
    cases ctx <;> cases hret
  all_goals
    (repeat' split at ho) <;> cases ho <;> cases hret

end

section
variable [DecidableEq ι] {h : List (Event ι Obs)} {s : State ι}

/-- **Occupancy**, in every state of a run of fewer than `2 ^ 63` tickets. -/
theorem occupancy (hr : (lts ι).Reach h s) (hb : (tailWins h).length < 2 ^ 63) :
    s.mem.head ≤ s.mem.tail ∧ s.mem.tail ≤ s.mem.head + capacity ∧
      ∀ i n, .ret i (.size n) ∈ h → n ≤ capacity := by
  have hi := inv hr hb
  have hsizes : Past SizeOk h := by
    refine Lts.Reach.inv_while (I := fun h _ => Past SizeOk h)
      (B := fun h _ => (tailWins h).length < 2 ^ 63) (fun h s l es s' _ hb => ?_)
      (fun _ _ => .nil) (fun h s l es s' hreach hb hp hs => ?_) hr hb
    · rw [tailWins_append, List.length_append] at hb
      omega
    rw [tailWins_append, List.length_append] at hb
    have hi := inv hreach (by omega)
    have htl := hi.tail_eq
    obtain ⟨i, op | weak⟩ := l
    · obtain ⟨-, rfl, rfl⟩ := Impl.step_call.1 hs
      exact hp.append_one fun _ _ he => by cases he
    · obtain ⟨o, ho, rfl, rfl⟩ := Impl.step_run.1 hs
      refine past_events hp (fun _ _ _ _ _ _ he => by cases he) fun r hret j n he => ?_
      cases he
      exact run_size hi (by omega) ho hret
  refine ⟨hi.head_le, hi.tail_le, fun i n hm => ?_⟩
  obtain ⟨h1, h2, rfl⟩ := List.append_of_mem hm
  exact hsizes h1 _ h2 rfl i n rfl

/-- Two tasks are pushed and popped while `size` is between its loads. -/
theorem occupancy_run : ∃ h s, (lts Bool).Reach h s ∧ (tailWins h).length < 2 ^ 63 ∧
    .ret true (.size 0) ∈ h ∧ s.mem.head = 2 ∧ s.mem.tail ≤ s.mem.head + capacity := by
  have hrun : ((lts Bool).exec (impl Bool).init
      ((true, .call .size) :: (true, .run false) ::
        ((false, .call (.push .empty)) :: List.replicate 6 (false, .run false) ++
          (false, .call (.push .empty)) :: List.replicate 6 (false, .run false) ++
          (false, .call (.popBatch 2)) :: List.replicate 13 (false, .run false) ++
          [(true, .run false)]))).map (fun r => (tailWins r.1, r.2.mem.head,
            decide (.ret true (.size 0) ∈ r.1))) =
        some ([(false, .empty), (false, .empty)], 2, true) := by
    decide +kernel
  obtain ⟨⟨h, s⟩, he, heq⟩ := Option.map_eq_some_iff.1 hrun
  obtain ⟨htail, heq⟩ := Prod.mk.inj heq
  obtain ⟨hhead, hmem⟩ := Prod.mk.inj heq
  have hr : (lts Bool).Reach h s := .of_exec rfl he
  have hb : (tailWins h).length < 2 ^ 63 := by
    rw [show tailWins h = _ from htail]
    decide
  exact ⟨h, s, hr, hb, of_decide_eq_true hmem, hhead, (occupancy hr hb).2.1⟩

end
end Lumen.Concurrency.MPMCTaskQueue
