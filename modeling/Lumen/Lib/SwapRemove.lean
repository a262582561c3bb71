import Mathlib.Data.List.Basic
import Mathlib.Data.List.Induction

/-!
# Removal by moving the last element

`swapRemove l i` removes the element at `i` from a sequence whose order does not matter: the last
element takes its place. A loop that removes the element it is at stays at the same index, and what
it has still to visit is what it had, without that element (`swapRemove_drop`).
-/

set_option autoImplicit false

namespace Lumen.Lib

variable {α : Type*}

def swapRemove (l : List α) (i : Nat) : List α :=
  match l.getLast? with
  | some back => (l.set i back).dropLast
  | none => []

theorem swapRemove_last (l : List α) (a : α) : swapRemove (l ++ [a]) l.length = l := by
  simp [swapRemove]

theorem swapRemove_inner (l l' : List α) (a b : α) :
    swapRemove (l ++ a :: (l' ++ [b])) l.length = l ++ b :: l' := by
  have hlast : (l ++ a :: (l' ++ [b])).getLast? = some b := by
    rw [← List.cons_append, ← List.append_assoc, List.getLast?_concat]
  simp only [swapRemove, hlast, List.set_append_right _ _ (Nat.le_refl _), Nat.sub_self,
    List.set_cons_zero]
  rw [← List.cons_append, ← List.append_assoc, List.dropLast_concat]

variable {l : List α} {i : Nat} {a : α}

/-- What comes before `i` stays; what is still there comes from after `i`. -/
theorem swapRemove_split (h : l[i]? = some a) : ∃ l1 l2 l3, l = l1 ++ a :: l2 ∧ l1.length = i ∧
    swapRemove l i = l1 ++ l3 ∧ l2.Perm l3 := by
  obtain ⟨hi, ha⟩ := List.getElem?_eq_some_iff.1 h
  obtain ⟨l1, l2, rfl, rfl⟩ : ∃ l1 l2, l = l1 ++ a :: l2 ∧ l1.length = i := by
    refine ⟨l.take i, l.drop (i + 1), ?_, ?_⟩
    · rw [← ha, ← List.drop_eq_getElem_cons hi, List.take_append_drop]
    · rw [List.length_take]
      omega
  refine ⟨l1, l2, ?_⟩
  induction l2 using List.reverseRecOn with
  | nil => exact ⟨[], rfl, rfl, by rw [swapRemove_last, List.append_nil], .nil⟩
  | append_singleton l' b =>
    exact ⟨b :: l', rfl, rfl, swapRemove_inner l1 l' a b, List.perm_append_singleton b l'⟩

theorem swapRemove_perm (h : l[i]? = some a) : l.Perm (a :: swapRemove l i) := by
  obtain ⟨l1, l2, l3, rfl, -, hs, hp⟩ := swapRemove_split h
  rw [hs]
  exact (List.perm_middle).trans ((hp.append_left l1).cons a)

theorem swapRemove_drop (h : l[i]? = some a) :
    ∀ b ∈ (swapRemove l i).drop i, b ∈ l.drop (i + 1) := by
  obtain ⟨l1, l2, l3, rfl, rfl, hs, hp⟩ := swapRemove_split h
  intro b hb
  rw [hs, List.drop_left] at hb
  rw [← List.drop_drop, List.drop_left]
  exact hp.mem_iff.2 hb

theorem swapRemove_head? (h : l[i]? = some a) (hi : 0 < i) : (swapRemove l i).head? = l.head? := by
  obtain ⟨l1, l2, l3, rfl, rfl, hs, -⟩ := swapRemove_split h
  rw [hs]
  cases l1 with
  | nil => exact absurd hi (Nat.lt_irrefl 0)
  | cons b l1 => rfl

theorem map_swapRemove {β : Type*} (f : α → β) (l : List α) (i : Nat) :
    (swapRemove l i).map f = swapRemove (l.map f) i := by
  unfold swapRemove
  rw [List.getLast?_map]
  cases l.getLast? with
  | none => rfl
  | some back => simp only [Option.map_some, List.map_dropLast, List.map_set]

/-- From `i` on, the result depends on what is there from `i` on. -/
theorem drop_swapRemove (h : i < l.length) :
    (swapRemove l i).drop i = swapRemove (l.drop i) 0 := by
  obtain ⟨l1, l2, rfl, rfl⟩ : ∃ l1 l2, l = l1 ++ l2 ∧ l1.length = i :=
    ⟨l.take i, l.drop i, (List.take_append_drop i l).symm, List.length_take_of_le (Nat.le_of_lt h)⟩
  rw [List.drop_left]
  cases l2 with
  | nil =>
    rw [List.append_nil] at h
    exact absurd h (Nat.lt_irrefl _)
  | cons a l2 =>
    induction l2 using List.reverseRecOn with
    | nil =>
      rw [swapRemove_last, List.drop_length]
      exact (swapRemove_last [] a).symm
    | append_singleton l' b =>
      rw [swapRemove_inner, List.drop_left]
      exact (swapRemove_inner [] l' a b).symm

/-- Where an element that is still there comes from. -/
theorem swapRemove_getElem? {b : α} {j : Nat} (h : l[i]? = some a)
    (hj : (swapRemove l i)[j]? = some b) :
    (j = i ∧ l.getLast? = some b) ∨ (j ≠ i ∧ l[j]? = some b) := by
  have hlen := (swapRemove_perm h).length_eq
  have hjlt := (List.getElem?_eq_some_iff.1 hj).1
  rw [List.length_cons] at hlen
  unfold swapRemove at hj
  split at hj
  · rename_i back hback
    rw [List.getElem?_dropLast, List.length_set, if_pos (by omega)] at hj
    by_cases hji : j = i
    · subst hji
      rw [List.getElem?_set_self (by omega)] at hj
      exact .inl ⟨rfl, hback.trans hj⟩
    · rw [List.getElem?_set_ne (fun h => hji h.symm)] at hj
      exact .inr ⟨hji, hj⟩
  · simp at hj

end Lumen.Lib
