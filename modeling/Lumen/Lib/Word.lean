import Mathlib.Data.Nat.Bitwise

/-!
# 64-bit words as natural numbers

`size_t` values are natural numbers below `2 ^ 64`; the operations that can leave the range wrap.
`sdiff64 a b` is `(intptr_t)a - (intptr_t)b` in two's complement: the representative of `a - b`
modulo `2 ^ 64` that is nearest to zero.
-/

set_option autoImplicit false

namespace Lumen.Lib

/-- Unsigned addition. -/
def add64 (a b : Nat) : Nat := (a + b) % 2 ^ 64

/-- Unsigned subtraction. -/
def sub64 (a b : Nat) : Nat := (a + (2 ^ 64 - b % 2 ^ 64)) % 2 ^ 64

/-- Unsigned multiplication. -/
def mul64 (a b : Nat) : Nat := a * b % 2 ^ 64

/-- Bitwise complement. -/
def not64 (a : Nat) : Nat := 2 ^ 64 - 1 - a % 2 ^ 64

/-- The signed difference of two unsigned words. -/
def sdiff64 (a b : Nat) : Int := Int.bmod ((a : Int) - b) (2 ^ 64)

theorem add64_of_lt {a b : Nat} (h : a + b < 2 ^ 64) : add64 a b = a + b := Nat.mod_eq_of_lt h

theorem sub64_of_le {a b : Nat} (ha : a < 2 ^ 64) (h : b ≤ a) : sub64 a b = a - b := by
  unfold sub64
  omega

theorem mul64_of_lt {a b : Nat} (h : a * b < 2 ^ 64) : mul64 a b = a * b := Nat.mod_eq_of_lt h

/-- Words less than `2 ^ 63` apart have their exact difference. -/
theorem sdiff64_eq {a b : Nat} (h1 : a < b + 2 ^ 63) (h2 : b < a + 2 ^ 63) :
    sdiff64 a b = (a : Int) - b := by
  unfold sdiff64
  rw [Int.bmod_eq_of_le] <;> omega

/-- A zero difference is equality modulo `2 ^ 64`, however far the words are apart. -/
theorem mod_eq_of_sdiff64 {a b : Nat} (h : sdiff64 a b = 0) : a % 2 ^ 64 = b % 2 ^ 64 := by
  simp only [sdiff64, Int.bmod] at h
  split at h <;> omega

theorem sdiff64_neg {a b : Nat} (h1 : a < b + 2 ^ 63) (h2 : b < a + 2 ^ 63) :
    sdiff64 a b < 0 ↔ a < b := by
  rw [sdiff64_eq h1 h2]
  omega

/-- The signed difference only depends on the words modulo `2 ^ 64`. -/
theorem sdiff64_mod (a b : Nat) : sdiff64 (a % 2 ^ 64) (b % 2 ^ 64) = sdiff64 a b := by
  have h : (((a % 2 ^ 64 : Nat) : Int) - (b % 2 ^ 64 : Nat)) % (2 ^ 64 : Nat)
      = ((a : Int) - b) % (2 ^ 64 : Nat) := by omega
  simp only [sdiff64, Int.bmod, h]

/-- Masking with `2 ^ k - 1` is the remainder modulo `2 ^ k`. -/
theorem and_mask (t k : Nat) : t &&& (2 ^ k - 1) = t % 2 ^ k := Nat.and_two_pow_sub_one_eq_mod t k

/-- Masking with the complement of `2 ^ k - 1` rounds down to a multiple of `2 ^ k`. -/
theorem and_not_mask {x k : Nat} (hx : x < 2 ^ 64) (hk : k ≤ 64) :
    x &&& not64 (2 ^ k - 1) = x / 2 ^ k * 2 ^ k := by
  have hpow : 2 ^ k ≤ 2 ^ 64 := Nat.pow_le_pow_right (by decide) hk
  have hpos : 0 < 2 ^ k := Nat.two_pow_pos k
  have hmul : 2 ^ (64 - k) * 2 ^ k = 2 ^ 64 := by rw [← Nat.pow_add, Nat.sub_add_cancel hk]
  have hnot : not64 (2 ^ k - 1) = (2 ^ (64 - k) - 1) * 2 ^ k := by
    rw [not64, Nat.mod_eq_of_lt (by omega), Nat.sub_mul, hmul]
    omega
  rw [hnot]
  refine Nat.eq_of_testBit_eq fun j => ?_
  rw [Nat.testBit_and, Nat.testBit_mul_two_pow, Nat.testBit_mul_two_pow, Nat.testBit_div_two_pow,
    Nat.testBit_two_pow_sub_one]
  by_cases hj : k ≤ j
  · rw [Nat.sub_add_cancel hj]
    by_cases hj' : j < 64
    · simp [hj, show j - k < 64 - k by omega]
    · have hb : x.testBit j = false :=
        Nat.testBit_lt_two_pow (Nat.lt_of_lt_of_le hx (Nat.pow_le_pow_right (by decide) (by omega)))
      simp [hb]
  · simp [hj]

end Lumen.Lib
