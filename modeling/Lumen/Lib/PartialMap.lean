import Mathlib.Logic.Function.Basic

/-!
# Partial maps

A table is a function into `Option`. `Function.update f a (some b)` makes or replaces the entry of
`a`, and `Function.update f a none` removes it; the lemmas say which entries there are afterwards.
-/

set_option autoImplicit false

namespace Lumen.Lib

variable {α β : Type*} [DecidableEq α] {f : α → Option β} {a x : α} {b c : β}

theorem update_some_eq_some : Function.update f a (some b) x = some c ↔
    (x = a ∧ b = c) ∨ (x ≠ a ∧ f x = some c) := by
  by_cases h : x = a
  · subst h
    simp
  · simp [h]

theorem update_none_eq_some : Function.update f a none x = some c ↔ x ≠ a ∧ f x = some c := by
  by_cases h : x = a
  · subst h
    simp
  · simp [h]

theorem isSome_update_some : (Function.update f a (some b) x).isSome = true ↔
    (f x).isSome = true ∨ x = a := by
  by_cases h : x = a
  · subst h
    simp
  · simp [h]

theorem isSome_update_none : (Function.update f a none x).isSome = true ↔
    (f x).isSome = true ∧ x ≠ a := by
  by_cases h : x = a
  · subst h
    simp
  · simp [h]

/-- Replacing an entry keeps the domain. -/
theorem isSome_update_of_isSome (ha : (f a).isSome = true) :
    (Function.update f a (some b) x).isSome = (f x).isSome := by
  rw [Bool.eq_iff_iff, isSome_update_some, or_iff_left_iff_imp]
  rintro rfl
  exact ha

end Lumen.Lib
