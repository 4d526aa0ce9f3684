import Mathlib.Data.Nat.Bitwise

/-!
# Rounding up to an alignment

`roundUp a x` is the first multiple of `a` from `x` on.  Machine code computes it with a mask when
`a` is a power of two: `and_two_pow_sub` says what the mask does to a word.
-/

namespace Costream.Align

variable {a k w x : Nat}

/-- The mask clears the last `k` bits of a word. -/
theorem and_two_pow_sub (hk : k ≤ w) (hx : x < 2 ^ w) : x &&& (2 ^ w - 2 ^ k) = x / 2 ^ k * 2 ^ k := by
  have hlt : 2 ^ k - 1 < 2 ^ w := by
    have hle := Nat.pow_le_pow_right (n := 2) (by omega) hk
    have hpos := Nat.two_pow_pos k
    omega
  have hmask : 2 ^ w - 2 ^ k = 2 ^ w - (2 ^ k - 1 + 1) := by
    rw [Nat.sub_add_cancel (Nat.two_pow_pos k)]
  refine Nat.eq_of_testBit_eq fun i => ?_
  rw [Nat.testBit_and, hmask, Nat.testBit_two_pow_sub_succ hlt, Nat.testBit_two_pow_sub_one,
    Nat.testBit_mul_two_pow, Nat.testBit_div_two_pow]
  by_cases hi : i < w
  · by_cases hik : i < k
    · simp [hik]
    · have hsum : i - k + k = i := by omega
      simp [hi, hik, hsum]
      omega
  · have hout : x.testBit i = false := by
      refine Nat.testBit_lt_two_pow (Nat.lt_of_lt_of_le hx ?_)
      exact Nat.pow_le_pow_right (by omega) (by omega)
    have hsum : k ≤ i → i - k + k = i := by omega
    simp [hout, hi]
    intro hki
    rw [hsum hki]
    exact hout

/-- The first multiple of `a` from `x` on. -/
def roundUp (a x : Nat) : Nat := (x + a - 1) / a * a

theorem dvd_roundUp (a x : Nat) : a ∣ roundUp a x := Nat.dvd_mul_left a _

theorem le_roundUp (ha : 0 < a) : x ≤ roundUp a x := by
  have hdiv := Nat.div_add_mod (x + a - 1) a
  have hmod := Nat.mod_lt (x + a - 1) ha
  unfold roundUp
  rw [Nat.mul_comm]
  omega

theorem roundUp_le (a x : Nat) : roundUp a x ≤ x + a - 1 := Nat.div_mul_le_self _ _

end Costream.Align
