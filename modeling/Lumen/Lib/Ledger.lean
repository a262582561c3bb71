import Mathlib.Data.List.Nodup
import Mathlib.Data.List.Range

/-!
# Tickets

A counter hands out the tickets `0, 1, …`; a ticket is held until its holder is done with it.
`Ledger n held done` says that of the `n` tickets handed out each is either held or done, no
ticket is done twice and none is both. Handing out, finishing and moving among holders keep it;
with nothing held, what is done is exactly the tickets handed out (`Ledger.perm`).
-/

set_option autoImplicit false

namespace Lumen.Lib

structure Ledger (n : Nat) (held : Nat → Prop) (done : List Nat) : Prop where
  nodup : done.Nodup
  done_lt : ∀ t ∈ done, t < n ∧ ¬ held t
  held_lt : ∀ t, held t → t < n
  all : ∀ t, t < n → t ∈ done ∨ held t

namespace Ledger

variable {n : Nat} {held held' : Nat → Prop} {done : List Nat}

theorem init (h : ∀ t, ¬ held t) : Ledger 0 held [] :=
  ⟨List.nodup_nil, fun _ h => by simp at h, fun t ht => absurd ht (h t), fun _ h => by omega⟩

theorem congr (hl : Ledger n held done) (h : ∀ t, held' t ↔ held t) : Ledger n held' done := by
  obtain rfl : held' = held := funext fun t => propext (h t)
  exact hl

/-- The next ticket is handed out. -/
theorem issue (hl : Ledger n held done) (h : ∀ t, held' t ↔ held t ∨ t = n) :
    Ledger (n + 1) held' done := by
  refine ⟨hl.nodup, fun t ht => ?_, fun t ht => ?_, fun t ht => ?_⟩
  · obtain ⟨h1, h2⟩ := hl.done_lt t ht
    exact ⟨by omega, fun h3 => ((h t).1 h3).elim h2 (by omega)⟩
  · rcases (h t).1 ht with h1 | rfl
    · exact Nat.lt_succ_of_lt (hl.held_lt t h1)
    · exact Nat.lt_succ_self t
  · by_cases htn : t = n
    · exact .inr ((h t).2 (.inr htn))
    · exact (hl.all t (by omega)).imp id fun h1 => (h t).2 (.inl h1)

/-- The holder of `t` is done with it. -/
theorem finish (hl : Ledger n held done) {t : Nat} (ht : held t)
    (h : ∀ u, held' u ↔ held u ∧ u ≠ t) : Ledger n held' (done ++ [t]) := by
  refine ⟨?_, fun u hu => ?_, fun u hu => hl.held_lt u ((h u).1 hu).1, fun u hu => ?_⟩
  · rw [List.nodup_append]
    refine ⟨hl.nodup, List.nodup_singleton t, fun a ha b hb => ?_⟩
    rw [List.mem_singleton] at hb
    rintro rfl
    subst hb
    exact (hl.done_lt a ha).2 ht
  · rw [List.mem_append, List.mem_singleton] at hu
    rcases hu with hu | rfl
    · exact ⟨(hl.done_lt u hu).1, fun h1 => (hl.done_lt u hu).2 ((h u).1 h1).1⟩
    · exact ⟨hl.held_lt u ht, fun h1 => ((h u).1 h1).2 rfl⟩
  · rw [List.mem_append, List.mem_singleton]
    by_cases hut : u = t
    · exact .inl (.inr hut)
    · exact (hl.all u hu).imp .inl fun h1 => (h u).2 ⟨h1, hut⟩

theorem perm (hl : Ledger n held done) (h : ∀ t, ¬ held t) : done.Perm (List.range n) := by
  refine (List.perm_ext_iff_of_nodup hl.nodup List.nodup_range).2 fun t => ?_
  rw [List.mem_range]
  exact ⟨fun ht => (hl.done_lt t ht).1, fun ht => (hl.all t ht).resolve_right (h t)⟩

end Ledger
end Lumen.Lib
