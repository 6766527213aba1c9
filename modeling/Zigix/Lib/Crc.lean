import Mathlib.Logic.Function.Iterate
import Mathlib.Tactic.Common

/-!
# Remainders of a division, bit by bit

The remainder of a message by a polynomial over two elements, in the reflected form: bit 0 of a register of `w` bits is the
coefficient of the highest power.

* `step`, `divide` : one step of the division, and the division of a list of bits;
* `step_xor`, `divide_xor` : both are linear in the register;
* `step_injective`, `divide_injective` : with a constant term in the polynomial no step loses anything;
* `divide_bits` : the bits of a number can be added at once, and the steps done after that;
* `iterate_step_split` : `n` steps of a register from `n` steps of its low bits.
-/

namespace Crc

variable {w m n : Nat} (poly : BitVec w) {a b c d : BitVec w}

/-- One step of the division. -/
def step (c : BitVec w) : BitVec w := if c.getLsbD 0 then (c >>> 1) ^^^ poly else c >>> 1

/-- Each bit of the message is added to the lowest bit of the register. -/
def divide (c : BitVec w) (bits : List Bool) : BitVec w :=
  bits.foldl (fun c bit => step poly (c ^^^ (BitVec.ofBool bit).setWidth w)) c

/-- The bits of a number, the lowest one first. -/
def bits (x : BitVec m) : List Bool := (List.range m).map x.getLsbD

/-! ## One step -/

theorem xor_swap (a b c d : BitVec w) : (a ^^^ b) ^^^ (c ^^^ d) = (a ^^^ c) ^^^ (b ^^^ d) := by ac_rfl

theorem step_xor (a b : BitVec w) : step poly (a ^^^ b) = step poly a ^^^ step poly b := by
  have hpoly : ∀ x y : BitVec w, (x ^^^ poly) ^^^ (y ^^^ poly) = x ^^^ y := fun x y => by
    rw [xor_swap, BitVec.xor_self, BitVec.xor_zero]
  unfold step
  rw [BitVec.getLsbD_xor, BitVec.ushiftRight_xor_distrib]
  cases a.getLsbD 0 <;> cases b.getLsbD 0 <;> simp only [Bool.xor_self, Bool.xor_true, Bool.xor_false, Bool.not_false,
    Bool.false_eq_true, if_true, if_false]
  · rw [BitVec.xor_assoc]
  · ac_rfl
  · rw [hpoly]

@[simp] theorem step_zero : step poly 0#w = 0#w := by simp [step]

/-- A step that takes a register to zero took zero: the bit that leaves is seen at the top. -/
theorem eq_zero_of_step (htop : poly.getLsbD (w - 1) = true) (h : step poly c = 0#w) : c = 0#w := by
  have hbits : ∀ i, c.getLsbD (i + 1) = false ∧ (i = 0 → c.getLsbD 0 = false) := by
    have hlow : c.getLsbD 0 = false := by
      by_contra hset
      rw [Bool.not_eq_false] at hset
      have hbit := congrArg (fun x => x.getLsbD (w - 1)) h
      simp only [step, hset, if_true, BitVec.getLsbD_xor, BitVec.getLsbD_ushiftRight, htop, BitVec.getLsbD_zero] at hbit
      rw [BitVec.getLsbD_of_ge c _ (by omega)] at hbit
      cases hbit
    intro i
    refine ⟨?_, fun _ => hlow⟩
    have hbit := congrArg (fun x => x.getLsbD i) h
    simp only [step, hlow, Bool.false_eq_true, if_false, BitVec.getLsbD_ushiftRight, BitVec.getLsbD_zero] at hbit
    rwa [Nat.add_comm] at hbit
  apply BitVec.eq_of_getLsbD_eq
  intro i _
  rw [BitVec.getLsbD_zero]
  cases i with
  | zero => exact (hbits 0).2 rfl
  | succ i => exact (hbits i).1

theorem xor_left_cancel (h : a ^^^ b = a ^^^ c) : b = c := by
  rw [← BitVec.zero_xor (x := b), ← BitVec.xor_self (x := a), BitVec.xor_assoc, h, ← BitVec.xor_assoc, BitVec.xor_self,
    BitVec.zero_xor]

theorem xor_eq_zero (h : a ^^^ b = 0#w) : a = b := by
  rw [← BitVec.xor_zero (x := a), ← BitVec.xor_self (x := b), ← BitVec.xor_assoc, h, BitVec.zero_xor]

theorem step_injective (htop : poly.getLsbD (w - 1) = true) : Function.Injective (step poly) := by
  intro a b h
  apply xor_eq_zero
  apply eq_zero_of_step poly htop
  rw [step_xor, h, BitVec.xor_self]

/-! ## Several steps -/

theorem iterate_step_xor (n : Nat) (a b : BitVec w) :
    (step poly)^[n] (a ^^^ b) = (step poly)^[n] a ^^^ (step poly)^[n] b := by
  induction n generalizing a b with
  | zero => rfl
  | succ n ih => rw [Function.iterate_succ_apply, step_xor, ih, ← Function.iterate_succ_apply, ← Function.iterate_succ_apply]

/-- While the low bits are clear a register only moves down. -/
theorem iterate_step_of_low (h : ∀ i < n, c.getLsbD i = false) : (step poly)^[n] c = c >>> n := by
  induction n with
  | zero => simp
  | succ n ih =>
    have hlow : (c >>> n).getLsbD 0 = false := by
      rw [BitVec.getLsbD_ushiftRight]
      exact h n (Nat.lt_succ_self n)
    rw [Function.iterate_succ_apply', ih fun i hi => h i (by omega)]
    unfold step
    rw [hlow, if_neg Bool.false_ne_true, BitVec.shiftRight_add]

/-- `n` steps of a register: those of its low bits, and the rest of it moved down. -/
theorem iterate_step_split (n : Nat) (c : BitVec w) :
    (step poly)^[n] c = (step poly)^[n] ((c.setWidth n).setWidth w) ^^^ (c >>> n) := by
  have hsplit : c = (c.setWidth n).setWidth w ^^^ (c >>> n <<< n) := by
    apply BitVec.eq_of_getLsbD_eq
    intro i hi
    simp only [BitVec.getLsbD_xor, BitVec.getLsbD_setWidth, BitVec.getLsbD_shiftLeft, BitVec.getLsbD_ushiftRight, hi]
    by_cases hin : i < n
    · simp [hin]
    · simp [hin, show n + (i - n) = i by omega]
  have hhigh : (step poly)^[n] (c >>> n <<< n) = c >>> n := by
    rw [iterate_step_of_low]
    · apply BitVec.eq_of_getLsbD_eq
      intro i hi
      simp only [BitVec.getLsbD_shiftLeft, BitVec.getLsbD_ushiftRight]
      by_cases hin : n + i < w
      · simp [hin]
      · simp [hin, BitVec.getLsbD_of_ge c (n + i) (by omega)]
    · intro i hi
      simp [hi]
  conv_lhs => rw [hsplit]
  rw [iterate_step_xor, hhigh]

/-! ## Messages -/

theorem divide_append (c : BitVec w) (xs ys : List Bool) : divide poly c (xs ++ ys) = divide poly (divide poly c xs) ys :=
  List.foldl_append

/-- A difference of two registers is not touched by the message: it only moves on. -/
theorem divide_xor (c d : BitVec w) (xs : List Bool) :
    divide poly (c ^^^ d) xs = divide poly c xs ^^^ (step poly)^[xs.length] d := by
  induction xs generalizing c d with
  | nil => rfl
  | cons x xs ih =>
    have hbit : (c ^^^ d) ^^^ (BitVec.ofBool x).setWidth w = (c ^^^ (BitVec.ofBool x).setWidth w) ^^^ d := by ac_rfl
    show divide poly (step poly ((c ^^^ d) ^^^ (BitVec.ofBool x).setWidth w)) xs = _
    rw [hbit, step_xor, ih, List.length_cons, Function.iterate_succ_apply]
    rfl

/-- Different registers stay different. -/
theorem divide_injective (htop : poly.getLsbD (w - 1) = true) (xs : List Bool) :
    Function.Injective fun c => divide poly c xs := by
  intro c d h
  have hsplit : c = d ^^^ (d ^^^ c) := by rw [← BitVec.xor_assoc, BitVec.xor_self, BitVec.zero_xor]
  have hmoved : (step poly)^[xs.length] (d ^^^ c) = (step poly)^[xs.length] (d ^^^ d) := by
    have hc : divide poly (d ^^^ (d ^^^ c)) xs = divide poly (d ^^^ (d ^^^ d)) xs := by
      rw [← hsplit, BitVec.xor_self, BitVec.xor_zero]
      exact h
    rw [divide_xor, divide_xor] at hc
    exact xor_left_cancel hc
  have hzero := (step_injective poly htop).iterate xs.length hmoved
  rw [BitVec.xor_self] at hzero
  exact (xor_eq_zero hzero).symm

/-- The first `n` bits of a number added one by one are the number added at once. -/
theorem divide_range (x : BitVec m) (hn : n ≤ w) (c : BitVec w) :
    divide poly c ((List.range n).map x.getLsbD) = (step poly)^[n] (c ^^^ (x.setWidth n).setWidth w) := by
  induction n with
  | zero => simp [divide, BitVec.of_length_zero]
  | succ n ih =>
    have hsplit : (x.setWidth (n + 1)).setWidth w =
        (x.setWidth n).setWidth w ^^^ ((BitVec.ofBool (x.getLsbD n)).setWidth w <<< n) := by
      apply BitVec.eq_of_getLsbD_eq
      intro i hi
      simp only [BitVec.getLsbD_xor, BitVec.getLsbD_setWidth, BitVec.getLsbD_shiftLeft, BitVec.getLsbD_ofBool, hi]
      rcases Nat.lt_trichotomy i n with hlt | rfl | hgt
      · simp [hlt, show i < n + 1 by omega]
      · simp [show 0 < w by omega]
      · simp [show ¬ i < n + 1 by omega, show ¬ i < n by omega, show i - n ≠ 0 by omega]
    have hbit : (step poly)^[n] ((BitVec.ofBool (x.getLsbD n)).setWidth w <<< n) = (BitVec.ofBool (x.getLsbD n)).setWidth w := by
      rw [iterate_step_of_low]
      · apply BitVec.eq_of_getLsbD_eq
        intro i hi
        simp only [BitVec.getLsbD_ushiftRight, BitVec.getLsbD_shiftLeft, BitVec.getLsbD_setWidth, BitVec.getLsbD_ofBool]
        rcases Nat.eq_zero_or_pos i with rfl | hpos
        · simp [show n < w by omega]
        · simp [show i ≠ 0 by omega]
      · intro i hi
        simp [hi]
    rw [List.range_succ, List.map_append, divide_append, ih (by omega), hsplit, ← BitVec.xor_assoc,
      Function.iterate_succ_apply', iterate_step_xor poly n (c ^^^ _), hbit]
    rfl

theorem divide_bits (x : BitVec m) (hm : m ≤ w) (c : BitVec w) :
    divide poly c (bits x) = (step poly)^[m] (c ^^^ x.setWidth w) := by
  unfold bits
  rw [divide_range poly x hm, BitVec.setWidth_eq]

end Crc
