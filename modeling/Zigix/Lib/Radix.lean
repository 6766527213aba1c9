import Mathlib.Algebra.BigOperators.Ring.Finset
import Mathlib.Algebra.Order.BigOperators.Group.Finset
import Mathlib.Algebra.Order.Ring.Int
import Mathlib.Tactic.Linarith
import Mathlib.Tactic.Positivity.Basic
import Mathlib.Tactic.Ring

/-!
# Numbers with signed limbs

`value B n a` is the number with the limbs `a 0`, …, `a (n - 1)` in base `B`.

* `value_update` : one limb is changed; `value_mul` : the product, limb by limb;
* `value_bounds` : digits, that is limbs in `[0, B)`, make a number below `B ^ n`;
* `div_mod_of_digits` : the digits below position `n` and the rest are the remainder and the quotient by `B ^ n`.
-/

namespace Radix

open Finset

/-- The number with the limbs `a` in base `B`. -/
def value (B : ℤ) (n : ℕ) (a : ℕ → ℤ) : ℤ := ∑ i ∈ range n, a i * B ^ i

section
variable {B : ℤ} {n : ℕ} {a b : ℕ → ℤ}

theorem value_zero : value B 0 a = 0 := rfl

theorem value_succ : value B (n + 1) a = value B n a + a n * B ^ n := sum_range_succ ..

theorem value_congr (h : ∀ i < n, a i = b i) : value B n a = value B n b :=
  sum_congr rfl fun i hi => by rw [h i (mem_range.1 hi)]

theorem value_update {i : ℕ} (hi : i < n) (x : ℤ) :
    value B n (Function.update a i x) = value B n a + (x - a i) * B ^ i := by
  induction n with
  | zero => omega
  | succ n ih =>
    rw [value_succ, value_succ]
    by_cases hn : i = n
    · subst hn
      have hlow : value B i (Function.update a i x) = value B i a :=
        value_congr fun j hj => Function.update_of_ne (by omega) ..
      rw [hlow, Function.update_self]
      ring
    · rw [ih (by omega), Function.update_of_ne (Ne.symm hn)]
      ring

theorem value_add (m : ℕ) : value B (n + m) a = value B n a + B ^ n * value B m fun k => a (n + k) := by
  induction m with
  | zero => rw [value_zero, mul_zero, add_zero, add_zero]
  | succ m ih =>
    rw [← add_assoc, value_succ, ih, value_succ, pow_add]
    ring

theorem value_mul : value B n a * value B n b = ∑ i ∈ range n, ∑ j ∈ range n, a i * b j * B ^ (i + j) := by
  unfold value
  rw [sum_mul_sum]
  refine sum_congr rfl fun i _ => sum_congr rfl fun j _ => ?_
  rw [pow_add]
  ring

theorem value_bounds (hB : 0 < B) (h : ∀ i < n, 0 ≤ a i ∧ a i < B) : 0 ≤ value B n a ∧ value B n a < B ^ n := by
  induction n with
  | zero => exact ⟨le_rfl, by rw [value_zero, pow_zero]; exact one_pos⟩
  | succ n ih =>
    obtain ⟨h0, h1⟩ := ih fun i hi => h i (by omega)
    obtain ⟨d0, d1⟩ := h n (by omega)
    have hpow : 0 < B ^ n := pow_pos hB n
    rw [value_succ, pow_succ]
    constructor
    · have := mul_nonneg d0 hpow.le
      linarith
    · have hmul : a n * B ^ n ≤ (B - 1) * B ^ n := mul_le_mul_of_nonneg_right (by omega) hpow.le
      linarith

/-- Digits and a rest: the remainder and the quotient. -/
theorem div_mod_of_digits (hB : 0 < B) (h : ∀ i < n, 0 ≤ a i ∧ a i < B) (q : ℤ) :
    (value B n a + B ^ n * q) / B ^ n = q ∧ (value B n a + B ^ n * q) % B ^ n = value B n a := by
  obtain ⟨h0, h1⟩ := value_bounds hB h
  constructor
  · rw [Int.add_mul_ediv_left _ _ (pow_pos hB n).ne', Int.ediv_eq_zero_of_lt h0 h1, zero_add]
  · rw [Int.add_mul_emod_self_left, Int.emod_eq_of_lt h0 h1]

end

end Radix
