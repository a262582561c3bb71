import Mathlib.Algebra.BigOperators.Group.Finset.Basic
import Mathlib.Algebra.Order.BigOperators.Group.Finset
import Mathlib.Algebra.Order.Ring.Nat
import Lumen.Lib.Refinement

/-!
# What a run costs

* `Lts.ReachIf.amortized`: where each step is paid by the potential it takes and by what its label
  and its events add, a whole segment of a run is.
* `State.total`: the potential of threads that share a memory, and what the step of one of them
  makes of it.
-/

set_option autoImplicit false

namespace Lumen.Lib

namespace Lts

variable {σ ℓ ε : Type*} {T : Lts σ ℓ ε} {C D : List ε → σ → ℓ → Prop} {h es : List ε} {s s' : σ}
  {ls : List ℓ}

/-- A segment meets a condition that each of its labels meets while `B` holds. -/
theorem along_while {B : List ε → Prop} (hB : ∀ h h', B (h ++ h') → B h)
    (hC : ∀ l ∈ ls, ∀ h s, B h → C h s l) (he : T.exec s ls = some (es, s')) (hb : B (h ++ es)) :
    T.Along C h s ls := by
  induction ls generalizing h s es with
  | nil => trivial
  | cons l ls ih =>
    obtain ⟨es1, s1, es2, hst, he', rfl⟩ := exec_cons.1 he
    refine ⟨hC l List.mem_cons_self h s (hB _ _ hb), ?_⟩
    rw [hst]
    rw [← List.append_assoc] at hb
    exact ih (fun l hl => hC l (List.mem_cons_of_mem _ hl)) he' hb

/-- What every step keeps holds all along a segment. -/
theorem along_inv {I : σ → Prop} (hI : ∀ s l es s', I s → T.step s l = some (es, s') → I s')
    (hs : I s) (hC : T.Along C h s ls) : T.Along (fun h s l => C h s l ∧ I s) h s ls := by
  induction ls generalizing h s with
  | nil => trivial
  | cons l ls ih =>
    obtain ⟨hc, hC'⟩ := hC
    refine ⟨⟨hc, hs⟩, ?_⟩
    cases hst : T.step s l with
    | none => trivial
    | some p =>
      rw [hst] at hC'
      exact ih (hI s l p.1 p.2 hs hst) hC'

/-- A segment that meets `D` costs at most the potential it starts with and what is added on the
way. -/
theorem ReachIf.amortized {Φ : σ → Nat} {cost pay : ℓ → Nat} {gain : ε → Nat}
    (hDC : ∀ h s l, D h s l → C h s l)
    (hstep : ∀ h s l es s', T.ReachIf C h s → D h s l → T.step s l = some (es, s') →
      cost l + Φ s' ≤ Φ s + pay l + (es.map gain).sum)
    (hr : T.ReachIf C h s) (hD : T.Along D h s ls) (he : T.exec s ls = some (es, s')) :
    (ls.map cost).sum + Φ s' ≤ Φ s + (ls.map pay).sum + (es.map gain).sum := by
  induction ls generalizing h s es with
  | nil =>
    cases he
    simp
  | cons l ls ih =>
    obtain ⟨es1, s1, es2, hst, he', rfl⟩ := exec_cons.1 he
    obtain ⟨hd, hD'⟩ := hD
    rw [hst] at hD'
    have hone := hstep h s l es1 s1 hr hd hst
    have hrest := ih (hr.step (hDC h s l hd) hst) hD' he'
    simp only [List.map_cons, List.sum_cons, List.map_append, List.sum_append]
    omega

end Lts

namespace Shared.State

variable {ι μ π : Type*}

/-- The potential of the threads `T`. -/
def total (w : μ → π → Nat) (T : Finset ι) (s : State ι μ π) : Nat :=
  ∑ i ∈ T, w s.mem (s.pc i)

variable {w : μ → π → Nat} {T : Finset ι} {s : State ι μ π} {i : ι} {m : μ} {p : π} {k : Nat}

theorem total_le {b : Nat} (hb : ∀ m p, w m p ≤ b) : s.total w T ≤ b * T.card := by
  refine (Finset.sum_le_sum fun i _ => hb s.mem (s.pc i)).trans_eq ?_
  rw [Finset.sum_const_nat fun _ _ => rfl, Nat.mul_comm]

theorem work_le_total (hi : i ∈ T) : w s.mem (s.pc i) ≤ s.total w T :=
  Finset.single_le_sum (f := fun i => w s.mem (s.pc i)) (fun _ _ => Nat.zero_le _) hi

variable [DecidableEq ι]

/-- A step of one thread, by which each of the others gains at most `k`. -/
theorem total_moved (hi : i ∈ T) (hk : ∀ j ∈ T, j ≠ i → w m (s.pc j) ≤ w s.mem (s.pc j) + k) :
    (s.moved i m p).total w T + w s.mem (s.pc i) ≤
      s.total w T + w m p + k * T.card := by
  have hothers : ∑ j ∈ T.erase i, w m ((s.moved i m p).pc j) ≤
      ∑ j ∈ T.erase i, w s.mem (s.pc j) + k * T.card := by
    calc ∑ j ∈ T.erase i, w m ((s.moved i m p).pc j)
      _ ≤ ∑ j ∈ T.erase i, (w s.mem (s.pc j) + k) := Finset.sum_le_sum fun j hj => by
          obtain ⟨hne, hj⟩ := Finset.mem_erase.1 hj
          rw [moved_pc_ne hne]
          exact hk j hj hne
      _ = ∑ j ∈ T.erase i, w s.mem (s.pc j) + k * (T.erase i).card := by
          rw [Finset.sum_add_distrib, Finset.sum_const_nat fun _ _ => rfl, Nat.mul_comm k]
      _ ≤ _ := Nat.add_le_add_left
          (Nat.mul_le_mul_left k (Finset.card_le_card (Finset.erase_subset i T))) _
  have hone : s.total w T =
      w s.mem (s.pc i) + ∑ j ∈ T.erase i, w s.mem (s.pc j) :=
    (Finset.add_sum_erase T _ hi).symm
  have hone' : (s.moved i m p).total w T =
      w m p + ∑ j ∈ T.erase i, w m ((s.moved i m p).pc j) := by
    rw [total, ← Finset.add_sum_erase T _ hi, moved_pc, moved_mem]
  omega

/-- A step of a thread that is not counted, and that the others do not notice. -/
theorem total_congr (hi : i ∉ T) (hw : ∀ j ∈ T, w m (s.pc j) = w s.mem (s.pc j)) :
    (s.moved i m p).total w T = s.total w T := by
  refine Finset.sum_congr rfl fun j hj => ?_
  have hne : j ≠ i := fun h => hi (h ▸ hj)
  rw [moved_pc_ne hne, moved_mem, hw j hj]

end Shared.State
end Lumen.Lib
