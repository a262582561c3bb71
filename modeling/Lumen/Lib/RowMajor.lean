import Mathlib.Data.List.Nodup
import Mathlib.Data.List.Perm.Basic

/-!
# Row-major indices and transposition

A loop nest over rows and columns runs through the row-major indices in order (`flatMap_range`). The
index of an element in a table of `m` columns goes to its index in the transposed table of `n`
columns (`transpose`); that is a permutation of the indices (`transpose_perm`). An array that is
written at distinct indices holds at each what was written there (`foldl_set_of_mem`).
-/

set_option autoImplicit false

namespace Lumen.Lib.RowMajor

/-- Two nested loops. -/
theorem flatMap_range (m n : Nat) :
    ((List.range m).flatMap fun i => (List.range n).map fun j => i * n + j) =
      List.range (m * n) := by
  induction m with
  | zero => simp
  | succ m ih =>
    rw [List.range_succ, List.flatMap_append, ih, Nat.succ_mul, List.range_add]
    simp

/-! ## Transposition -/

section
variable {m n i j : Nat}

/-- Row `i / m` and column `i % m`, exchanged. -/
def transpose (m n i : Nat) : Nat := i % m * n + i / m

theorem index_lt (hi : i < n) (hj : j < m) : i * m + j < n * m := by
  have hrow : (i + 1) * m ≤ n * m := Nat.mul_le_mul_right m hi
  rw [Nat.succ_mul] at hrow
  omega

theorem index_div (hj : j < m) : (i * m + j) / m = i := by
  rw [Nat.mul_comm, Nat.mul_add_div (by omega), Nat.div_eq_of_lt hj, Nat.add_zero]

theorem index_mod (hj : j < m) : (i * m + j) % m = j := by
  rw [Nat.mul_comm, Nat.mul_add_mod, Nat.mod_eq_of_lt hj]

theorem transpose_index (hj : j < m) : transpose m n (i * m + j) = j * n + i := by
  rw [transpose, index_div hj, index_mod hj]

theorem pos_of_lt_mul (hi : i < n * m) : 0 < n ∧ 0 < m := by
  constructor
  · refine Nat.pos_of_ne_zero fun h => ?_
    rw [h, Nat.zero_mul] at hi
    omega
  · refine Nat.pos_of_ne_zero fun h => ?_
    rw [h, Nat.mul_zero] at hi
    omega

theorem transpose_lt (hi : i < n * m) : transpose m n i < n * m := by
  have hm := (pos_of_lt_mul hi).2
  rw [Nat.mul_comm n m]
  exact index_lt (Nat.mod_lt i hm) ((Nat.div_lt_iff_lt_mul hm).2 hi)

/-- Transposing back gives the index again. -/
theorem transpose_transpose (hi : i < n * m) : transpose n m (transpose m n i) = i := by
  have hm := (pos_of_lt_mul hi).2
  rw [transpose, transpose, index_div ((Nat.div_lt_iff_lt_mul hm).2 hi),
    index_mod ((Nat.div_lt_iff_lt_mul hm).2 hi), Nat.mul_comm, Nat.div_add_mod]

theorem transpose_inj (hi : i < n * m) (hj : j < n * m) (h : transpose m n i = transpose m n j) :
    i = j := by
  rw [← transpose_transpose hi, h, transpose_transpose hj]

theorem transpose_nodup (m n : Nat) : ((List.range (n * m)).map (transpose m n)).Nodup := by
  refine List.Nodup.map_on (fun i hi j hj h => ?_) List.nodup_range
  exact transpose_inj (List.mem_range.1 hi) (List.mem_range.1 hj) h

/-- Every index is met once. -/
theorem transpose_perm (m n : Nat) :
    ((List.range (n * m)).map (transpose m n)).Perm (List.range (n * m)) := by
  refine (List.perm_ext_iff_of_nodup (transpose_nodup m n) List.nodup_range).2 fun j => ?_
  rw [List.mem_map, List.mem_range]
  constructor
  · intro ⟨i, hi, hij⟩
    exact hij ▸ transpose_lt (List.mem_range.1 hi)
  · intro hj
    rw [Nat.mul_comm] at hj
    have hback := transpose_lt hj
    rw [Nat.mul_comm m n] at hback
    exact ⟨transpose n m j, List.mem_range.2 hback, transpose_transpose hj⟩

end

/-! ## Writing at indices -/

section
variable {α : Type*} {l : List (Nat × α)} {t : List α} {i : Nat} {a : α}

@[simp] theorem length_foldl_set (l : List (Nat × α)) (t : List α) :
    (l.foldl (fun t p => t.set p.1 p.2) t).length = t.length := by
  induction l generalizing t with
  | nil => rfl
  | cons p l ih => rw [List.foldl_cons, ih, List.length_set]

theorem foldl_set_of_notMem (h : i ∉ l.map Prod.fst) :
    (l.foldl (fun t p => t.set p.1 p.2) t)[i]? = t[i]? := by
  induction l generalizing t with
  | nil => rfl
  | cons p l ih =>
    rw [List.map_cons, List.mem_cons, not_or] at h
    rw [List.foldl_cons, ih h.2, List.getElem?_set_ne (Ne.symm h.1)]

theorem foldl_set_of_mem (hd : (l.map Prod.fst).Nodup) (hm : (i, a) ∈ l) (hi : i < t.length) :
    (l.foldl (fun t p => t.set p.1 p.2) t)[i]? = some a := by
  induction l generalizing t with
  | nil => cases hm
  | cons p l ih =>
    rw [List.map_cons, List.nodup_cons] at hd
    rw [List.foldl_cons]
    rcases List.mem_cons.1 hm with hp | hm
    · obtain rfl := hp
      rw [foldl_set_of_notMem hd.1, List.getElem?_set_self hi]
    · exact ih hd.2 hm (by rwa [List.length_set])

end
end Lumen.Lib.RowMajor
