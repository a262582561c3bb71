import Mathlib.Data.List.Pairwise
import Mathlib.Data.List.Sort

/-!
# Order statistics of a list

`IsNth l k v`: sorting `l` puts `v` at the place `k`, told without a sorted list: at most `k`
elements are below `v`, and more than `k` are not above it. `isNth_mergeSort` is what a selection by
sorting, or any algorithm that agrees with it on this place, gives.

`FirstMax l k v`: `v` is the maximum of `l` and `k` the first place where it stands. A search that
goes once through the list keeps it for the part it has seen (`FirstMax.append_le`,
`FirstMax.append_lt`).
-/

set_option autoImplicit false

namespace Lumen.Lib

variable {α : Type*} [LinearOrder α] {l l' : List α} {k : Nat} {v : α}

structure IsNth (l : List α) (k : Nat) (v : α) : Prop where
  mem : v ∈ l
  below : l.countP (· < v) ≤ k
  notAbove : k < l.countP (· ≤ v)

theorem IsNth.perm (h : IsNth l k v) (hp : l.Perm l') : IsNth l' k v :=
  ⟨hp.mem_iff.1 h.mem, hp.countP_eq _ ▸ h.below, hp.countP_eq _ ▸ h.notAbove⟩

/-- In a sorted list, the element at the place `k`. -/
theorem isNth_of_sorted (hl : l.Pairwise (· ≤ ·)) (hk : l[k]? = some v) : IsNth l k v := by
  obtain ⟨hlt, rfl⟩ := List.getElem?_eq_some_iff.1 hk
  have hmono : ∀ i j (hi : i < l.length) (hj : j < l.length), i ≤ j → l[i] ≤ l[j] :=
    fun i j hi hj hij => hl.rel_get_of_le (a := ⟨i, hi⟩) (b := ⟨j, hj⟩) hij
  refine ⟨List.getElem_mem hlt, ?_, ?_⟩
  · have hdrop : (l.drop k).countP (· < l[k]) = 0 := by
      rw [List.countP_eq_zero]
      intro x hx
      obtain ⟨j, hj, rfl⟩ := List.getElem_of_mem hx
      rw [List.getElem_drop, decide_eq_true_eq, not_lt]
      exact hmono k (k + j) hlt _ (Nat.le_add_right k j)
    calc l.countP (· < l[k]) = (l.take k ++ l.drop k).countP (· < l[k]) := by
          rw [List.take_append_drop]
      _ = (l.take k).countP (· < l[k]) := by rw [List.countP_append, hdrop, Nat.add_zero]
      _ ≤ (l.take k).length := List.countP_le_length
      _ ≤ k := List.length_take_le k l
  · have htake : (l.take (k + 1)).countP (· ≤ l[k]) = k + 1 := by
      rw [List.countP_eq_length.2, List.length_take, Nat.min_eq_left hlt]
      intro x hx
      obtain ⟨j, hj, rfl⟩ := List.getElem_of_mem hx
      rw [List.length_take] at hj
      rw [List.getElem_take, decide_eq_true_eq]
      exact hmono j k _ hlt (by omega)
    have hle : (l.take (k + 1)).countP (· ≤ l[k]) ≤ l.countP (· ≤ l[k]) :=
      (List.take_sublist (k + 1) l).countP_le
    rw [htake] at hle
    exact hle

theorem isNth_mergeSort (hk : (l.mergeSort fun a b => decide (a ≤ b))[k]? = some v) :
    IsNth l k v :=
  (isNth_of_sorted (l.pairwise_mergeSort' (· ≤ ·)) hk).perm (List.mergeSort_perm l _)

/-! ## The first maximum -/

structure FirstMax (l : List α) (k : Nat) (v : α) : Prop where
  get : l[k]? = some v
  le : ∀ x ∈ l, x ≤ v
  before : ∀ x ∈ l.take k, x < v

namespace FirstMax

variable {j : Nat} {w : α}

theorem lt_length (h : FirstMax l k v) : k < l.length := (List.getElem?_eq_some_iff.1 h.get).1

theorem singleton (v : α) : FirstMax [v] 0 v :=
  ⟨rfl, fun _ hx => (List.mem_singleton.1 hx).le, fun _ hx => absurd hx List.not_mem_nil⟩

theorem append_le (h : FirstMax l k v) (hw : w ≤ v) : FirstMax (l ++ [w]) k v := by
  refine ⟨by rw [List.getElem?_append_left h.lt_length, h.get], fun x hx => ?_, fun x hx => ?_⟩
  · rcases List.mem_append.1 hx with hx | hx
    · exact h.le x hx
    · rwa [List.mem_singleton.1 hx]
  · rw [List.take_append_of_le_length (Nat.le_of_lt h.lt_length)] at hx
    exact h.before x hx

theorem append_lt (h : FirstMax l k v) (hw : v < w) : FirstMax (l ++ [w]) l.length w := by
  refine ⟨List.getElem?_concat_length, fun x hx => ?_, fun x hx => ?_⟩
  · rcases List.mem_append.1 hx with hx | hx
    · exact (h.le x hx).trans hw.le
    · exact (List.mem_singleton.1 hx).le
  · rw [List.take_left] at hx
    exact (h.le x hx).trans_lt hw

/-- There is one first place. -/
theorem unique (h : FirstMax l k v) (h' : FirstMax l j w) : k = j ∧ v = w := by
  have hmem : ∀ {k v}, FirstMax l k v → v ∈ l := fun h => List.mem_of_getElem? h.get
  obtain rfl : v = w := (h'.le v (hmem h)).antisymm (h.le w (hmem h'))
  have hfirst : ∀ {i j}, FirstMax l i v → FirstMax l j v → ¬ i < j := by
    intro i j hi hj hij
    have hm : v ∈ l.take j := List.mem_of_getElem? (by rw [List.getElem?_take_of_lt hij, hi.get])
    exact lt_irrefl v (hj.before v hm)
  exact ⟨Nat.le_antisymm (Nat.le_of_not_lt (hfirst h' h)) (Nat.le_of_not_lt (hfirst h h')), rfl⟩

end FirstMax
end Lumen.Lib
