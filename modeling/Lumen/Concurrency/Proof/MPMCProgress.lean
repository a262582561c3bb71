import Mathlib.Algebra.BigOperators.Ring.List
import Lumen.Lib.Potential
import Lumen.Concurrency.Proof.MPMCRetry

/-!
# The ring is lock-free

A thread needs at most six accesses for an operation on one ticket, as long as its copy of the
counter is current (`work`). A stale copy costs two accesses more, and only a ticket that somebody
wins makes copies stale: so the accesses of any number of threads are paid by the operations they
call, the tickets they win and the compare-exchanges that fail spuriously (`lock_free`).
-/

set_option autoImplicit false

namespace Lumen.Concurrency.MPMCTaskQueue

open Lumen.Lib Lumen.Lib.Shared Lumen.Core ITaskQueue

variable {ι : Type*}

/-! ## What a run is charged for -/

/-- An access, the call of an operation, an access whose compare-exchange fails spuriously. -/
def access : ι × Act Bool → Nat
  | (_, .run _) => 1
  | (_, .call _) => 0

def called : ι × Act Bool → Nat
  | (_, .call _) => 1
  | (_, .run _) => 0

def spurious : ι × Act Bool → Nat
  | (_, .run weak) => weak.toNat
  | (_, .call _) => 0

/-- A ticket that is won. -/
def Obs.ticket : Obs → Nat
  | .tailWin _ _ | .headWin _ => 1
  | _ => 0

def won : Event ι Obs → Nat
  | .obs _ e => e.ticket
  | _ => 0

def tickets (h : List (Event ι Obs)) : Nat :=
  (h.map won).sum

/-! ## The work of a thread -/

/-- Two more accesses, where the copy of the counter is stale. -/
def late (current copy : Nat) : Nat := if current = copy then 0 else 2

/-- The accesses up to the end of the operation, or up to the next ticket of a batch, if nobody wins
a ticket and no compare-exchange fails spuriously. -/
def work (m : Mem) : Pc → Nat
  | .idle => 0
  | .pushStop _ => 6
  | .pushTail _ => 5
  | .pushSeq _ t => 4 + late m.tail t
  | .pushCas _ t => 3 + late m.tail t
  | .pushData _ _ => 2
  | .pushPublish _ => 1
  | .popHead _ => 5
  | .popSeq _ h => 4 + late m.head h
  | .popCas _ h => 3 + late m.head h
  | .popData .pop _ => 2
  | .popData (.batch _ _) _ => 8
  | .popPublish .pop _ _ => 1
  | .popPublish (.batch _ _) _ _ => 7
  | .batchTest _ _ => 6
  | .sizeTail _ => 2
  | .sizeHead _ _ => 1
  | .stopStore => 1

theorem late_le (current copy : Nat) : late current copy ≤ 2 := by
  unfold late
  split <;> omega

@[simp] theorem late_self (n : Nat) : late n n = 0 := if_pos rfl

theorem late_ne {current copy : Nat} (h : current ≠ copy) : late current copy = 2 := if_neg h

theorem work_le (m : Mem) (p : Pc) : work m p ≤ 8 := by
  have ht := late_le m.tail
  have hh := late_le m.head
  cases p with
  | pushSeq _ t | pushCas _ t =>
    have := ht t
    simp only [work]
    omega
  | popSeq _ h | popCas _ h =>
    have := hh h
    simp only [work]
    omega
  | popData ctx | popPublish ctx => cases ctx <;> simp [work]
  | _ => simp [work]

/-- A ticket that another thread wins makes the copy stale. -/
theorem work_other (m m' : Mem) (p : Pc) : work m' p ≤ work m p + 2 := by
  have ht := late_le m'.tail
  have hh := late_le m'.head
  cases p with
  | pushSeq _ t | pushCas _ t =>
    have := ht t
    simp only [work]
    omega
  | popSeq _ h | popCas _ h =>
    have := hh h
    simp only [work]
    omega
  | popData ctx | popPublish ctx => cases ctx <;> simp [work]
  | _ => simp [work]

theorem work_congr {m m' : Mem} (ht : m'.tail = m.tail) (hh : m'.head = m.head) (p : Pc) :
    work m' p = work m p := by
  cases p <;> simp only [work, ht, hh]

/-- The call of an operation. -/
theorem work_entry (m : Mem) (op : Op) : work m (entry op) ≤ 6 := by
  cases op <;> simp [entry, work]

/-- An access moves a counter only by a ticket. -/
theorem run_counters {m : Mem} {weak : Bool} {p : Pc} {o : Outcome} (ho : run m weak p = some o) :
    (o.mem.tail = m.tail ∧ o.mem.head = m.head) ∨ (o.obs.map Obs.ticket).sum = 1 := by
  cases p <;> simp only [run] at ho
  case popPublish ctx h task =>
    cases ho
    cases ctx <;> exact .inl ⟨rfl, rfl⟩
  all_goals
    (repeat' split at ho) <;> cases ho <;> first | exact .inl ⟨rfl, rfl⟩ | exact .inr rfl

/-- An access is paid by the work of its thread, by the ticket that it wins, or by its spurious
failure. -/
theorem run_work {m : Mem} (hm : Settled m) {weak : Bool} {p : Pc} {o : Outcome}
    (ho : run m weak p = some o) :
    1 + work o.mem o.pc ≤ work m p + 2 * weak.toNat + 6 * (o.obs.map Obs.ticket).sum := by
  have hticket : (([] : List Obs).map Obs.ticket).sum = 0 := rfl
  cases p <;> simp only [run] at ho
  case pushSeq task t =>
    split at ho
    · cases ho
      simp only [work]
      omega
    · split at ho <;> rename_i hneg <;> cases ho
      · simp only [work]
        omega
      · have hstale : m.tail ≠ t := by
          rintro rfl
          have := hm.tail
          omega
        simp only [work, late_ne hstale]
        omega
  case pushCas task t =>
    split at ho <;> rename_i hc <;> cases ho
    · simp only [work]
      omega
    · simp only [work, late_self]
      by_cases ht : m.tail = t
      · rw [Bool.eq_true_of_not_eq_false fun hw => hc ⟨ht, hw⟩, Bool.toNat_true]
        omega
      · rw [late_ne ht]
        omega
  case popSeq ctx h =>
    split at ho
    · cases ho
      simp only [work]
      omega
    · split at ho <;> rename_i hneg <;> cases ho
      · simp only [work]
        omega
      · have hstale : m.head ≠ h := by
          rintro rfl
          have := hm.head
          omega
        simp only [work, late_ne hstale]
        omega
  case popCas ctx h =>
    split at ho <;> rename_i hc <;> cases ho
    · have hone : ([Obs.headWin h].map Obs.ticket).sum = 1 := rfl
      cases ctx <;> simp only [work, hone] <;> omega
    · simp only [work, late_self]
      by_cases hh : m.head = h
      · rw [Bool.eq_true_of_not_eq_false fun hw => hc ⟨hh, hw⟩, Bool.toNat_true]
        omega
      · rw [late_ne hh]
        omega
  case popPublish ctx h task =>
    cases ho
    cases ctx <;> simp only [popSome, work] <;> omega
  case popData ctx h =>
    cases ho
    cases ctx <;> simp only [work] <;> omega
  all_goals
    (repeat' split at ho) <;> cases ho <;> simp only [work, late_self] <;> omega

/-! ## The theorem -/

section
variable [DecidableEq ι] {h es : List (Event ι Obs)} {s s' : State ι} {ls : List (ι × Act Bool)}

omit [DecidableEq ι] in
theorem tickets_events (o : Outcome) (i : ι) :
    tickets (o.events i) = (o.obs.map Obs.ticket).sum := by
  rw [tickets, Shared.Outcome.events, List.map_append, List.sum_append, List.map_map]
  cases o.ret <;> simp [Function.comp_def, won]

omit [DecidableEq ι] in
/-- A thread that is in an operation is never blocked. -/
theorem never_blocked (m : Mem) (weak : Bool) {p : Pc} (hp : p ≠ .idle) :
    (run m weak p).isSome := by
  cases p <;> simp only [run]
  case idle => exact absurd rfl hp
  case pushSeq => split <;> [rfl; split <;> rfl]
  case popSeq => split <;> [rfl; split <;> rfl]
  all_goals
    first
      | rfl
      | split <;> rfl

/-- What a step costs. -/
theorem step_work {T : Finset ι} {l : ι × Act Bool} (hr : (lts ι).Reach h s)
    (hb : (tailWins h).length < 2 ^ 63) (hl : l.1 ∈ T) (hs : (lts ι).step s l = some (es, s')) :
    access l + s'.total work T ≤
      s.total work T + (6 * called l + 2 * spurious l) + (2 * T.card + 6) * tickets es := by
  have hi := inv hr hb
  have htl := hi.tail_eq
  obtain ⟨i, op | weak⟩ := l
  · obtain ⟨hpc, rfl, rfl⟩ := Impl.step_call.1 hs
    have hmoved := State.total_moved (w := work) (s := s) (i := i) (m := s.mem) (p := entry op)
      (k := 0) hl fun j _ _ => Nat.le_refl _
    have hentry := work_entry s.mem op
    rw [hpc] at hmoved
    have hnone : tickets [(.call i op : Event ι Obs)] = 0 := rfl
    simp only [access, called, spurious, hnone, work] at *
    change 0 + (s.moved i s.mem (entry op)).total work T ≤ _
    omega
  · obtain ⟨o, ho, rfl, rfl⟩ := Impl.step_run.1 hs
    replace ho : run s.mem weak (s.pc i) = some o := ho
    have hwork := run_work (hi.settled (by omega)) ho
    have htick : tickets (o.events i : List (Event ι Obs)) = _ := tickets_events o i
    rw [htick]
    simp only [access, called, spurious]
    change 1 + (s.moved i o.mem o.pc).total work T ≤ _
    rcases run_counters ho with ⟨ht, hh⟩ | hone
    · have hmoved := State.total_moved (w := work) (s := s) (i := i) (m := o.mem) (p := o.pc)
        (k := 0) hl fun j _ _ => (work_congr ht hh _).le
      have hmul : 6 * (o.obs.map Obs.ticket).sum ≤
          (2 * T.card + 6) * (o.obs.map Obs.ticket).sum :=
        Nat.mul_le_mul_right _ (Nat.le_add_left ..)
      omega
    · have hmoved := State.total_moved (w := work) (s := s) (i := i) (m := o.mem) (p := o.pc)
        (k := 2) hl fun j _ _ => work_other _ _ _
      rw [hone] at hwork ⊢
      omega

/-- **Lock-freedom.** In any segment of a run of fewer than `2 ^ 63` tickets, in which the threads
`T` move, they make at most `8` accesses each, `6` for every operation that they call and `2` for
every spurious failure, as long as nobody wins a ticket; a ticket costs each of them at most two
more. No thread in an operation is ever blocked, so somebody wins a ticket or all operations
return. -/
theorem lock_free (hr : (lts ι).Reach h s) (he : (lts ι).exec s ls = some (es, s'))
    (hb : (tailWins (h ++ es)).length < 2 ^ 63) {T : Finset ι} (hT : ∀ l ∈ ls, l.1 ∈ T) :
    (ls.map access).sum ≤ 8 * T.card + 6 * (ls.map called).sum + 2 * (ls.map spurious).sum +
      (2 * T.card + 6) * tickets es ∧
    ∀ i weak, s'.pc i ≠ .idle → ((lts ι).step s' (i, .run weak)).isSome := by
  refine ⟨?_, fun i weak hp => ?_⟩
  · have hC : (lts ι).Along (fun h _ l => l.1 ∈ T ∧ (tailWins h).length < 2 ^ 63) h s ls := by
      refine Lts.along_while (B := fun h => (tailWins h).length < 2 ^ 63) (fun h h' hb => ?_)
        (fun l hl h s hb => ⟨hT l hl, hb⟩) he hb
      rw [tailWins_append, List.length_append] at hb
      omega
    have hpaid : (ls.map access).sum + s'.total work T ≤ s.total work T +
        (ls.map fun l => 6 * called l + 2 * spurious l).sum +
          (es.map fun e => (2 * T.card + 6) * won e).sum := by
      refine Lts.ReachIf.amortized (fun _ _ _ _ => trivial) (fun h s l es s' hr hd hs => ?_)
        hr hC he
      have hstep := step_work hr hd.2 hd.1 hs
      rwa [tickets, ← List.sum_map_mul_left] at hstep
    rw [List.sum_map_add, List.sum_map_mul_left, List.sum_map_mul_left, List.sum_map_mul_left]
      at hpaid
    have hle : s.total work T ≤ 8 * T.card := State.total_le work_le
    rw [tickets]
    omega
  · obtain ⟨o, ho⟩ := Option.isSome_iff_exists.1 (never_blocked s'.mem weak hp)
    exact Option.isSome_iff_exists.2 ⟨_, Impl.step_run.2 ⟨o, ho, rfl, rfl⟩⟩

end

/-- A push of thread `true`, while thread `false` sleeps on the ticket that it has won. -/
theorem lock_free_run : ∃ h s es s', (lts Bool).Reach h s ∧ s.pc false = .pushData .empty 0 ∧
    (lts Bool).exec s ((true, .call (.push .empty)) :: List.replicate 6 (true, .run false)) =
      some (es, s') ∧ tickets es = 1 ∧ 6 ≤ 8 * 1 + 6 * 1 + 2 * 0 + (2 * 1 + 6) * tickets es := by
  have hrun : (((lts Bool).exec (impl Bool).init
      ((false, .call (.push .empty)) :: List.replicate 4 (false, .run false))).bind fun r =>
        ((lts Bool).exec r.2
          ((true, .call (.push .empty)) :: List.replicate 6 (true, .run false))).map fun q =>
            (tailWins r.1 ++ tailWins q.1, r.2.pc false, tickets q.1)) =
      some ([(false, .empty), (true, .empty)], .pushData .empty 0, 1) := by
    decide +kernel
  obtain ⟨⟨h, s⟩, hs, hrun⟩ := Option.bind_eq_some_iff.1 hrun
  obtain ⟨⟨es, s'⟩, he, heq⟩ := Option.map_eq_some_iff.1 hrun
  obtain ⟨hwins, heq⟩ := Prod.mk.inj heq
  obtain ⟨hpc, htick⟩ := Prod.mk.inj heq
  have hb : (tailWins (h ++ es)).length < 2 ^ 63 := by
    rw [tailWins_append, show tailWins h ++ tailWins es = _ from hwins]
    decide
  have hr : (lts Bool).Reach h s := .of_exec rfl hs
  exact ⟨h, s, es, s', hr, hpc, he, htick, (lock_free (T := {true}) hr he hb (by decide)).1⟩

end Lumen.Concurrency.MPMCTaskQueue
