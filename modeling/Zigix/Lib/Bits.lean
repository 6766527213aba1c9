import Mathlib.Algebra.Order.Group.Nat
import Mathlib.Tactic.Ring

/-!
# Fields of bits in a number

* `and_split` : a mask acts on the bits from `i` on and below `i` separately; `and_two` : a mask with two runs of ones;
* `or_shift` : a disjoint field is added;
* `mod_mul_add` : two adjacent fields are one;
* `field_mod` : a field of a field.
-/

namespace Bits

theorem and_split (x : Nat) {a : Nat} (b i : Nat) (ha : a < 2 ^ i) :
    x &&& (2 ^ i * b + a) = 2 ^ i * (x / 2 ^ i &&& b) + (x % 2 ^ i &&& a) := by
  have hlow : x % 2 ^ i &&& a < 2 ^ i := Nat.and_lt_two_pow _ ha
  apply Nat.eq_of_testBit_eq
  intro j
  rw [Nat.testBit_and, Nat.testBit_two_pow_mul_add _ ha, Nat.testBit_two_pow_mul_add _ hlow]
  by_cases hj : j < i
  · simp [hj, Nat.testBit_mod_two_pow]
  · have hsum : j - i + i = j := by omega
    simp [hj, Nat.testBit_div_two_pow, hsum]

/-- A mask of the low bits. -/
theorem and_low (x n : Nat) : x &&& (2 ^ n - 1) = x % 2 ^ n := Nat.and_two_pow_sub_one_eq_mod x n

theorem and_two (x : Nat) {a c : Nat} (b : Nat) (h : c ≤ a) :
    x &&& (2 ^ a * (2 ^ b - 1) + (2 ^ c - 1)) = 2 ^ a * (x / 2 ^ a % 2 ^ b) + x % 2 ^ c := by
  have hlow : 2 ^ c - 1 < 2 ^ a := by
    have := Nat.pow_le_pow_right (show 0 < 2 by decide) h
    have := Nat.two_pow_pos c
    omega
  rw [and_split _ _ _ hlow, and_low, and_low, Nat.mod_mod_of_dvd _ (Nat.pow_dvd_pow 2 h)]

theorem or_shift {a : Nat} (b : Nat) {i : Nat} (ha : a < 2 ^ i) : a ||| b <<< i = a + b * 2 ^ i := by
  rw [Nat.or_comm, Nat.shiftLeft_eq, Nat.mul_comm b, ← Nat.two_pow_add_eq_or_of_lt ha, Nat.add_comm]

theorem mod_mul_add (x a b : Nat) : x % 2 ^ a + 2 ^ a * (x / 2 ^ a % 2 ^ b) = x % 2 ^ (a + b) := by
  rw [Nat.pow_add, Nat.mod_mul]

theorem field_mod (x : Nat) {n s k : Nat} (h : s + k ≤ n) : x % 2 ^ n / 2 ^ s % 2 ^ k = x / 2 ^ s % 2 ^ k := by
  obtain ⟨d, rfl⟩ := Nat.exists_eq_add_of_le h
  rw [Nat.add_assoc, Nat.pow_add 2 s, Nat.mod_mul_right_div_self]
  exact Nat.mod_mod_of_dvd _ (Nat.pow_dvd_pow 2 (by omega))

end Bits
