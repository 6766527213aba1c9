import Mathlib.Algebra.Group.Nat.Defs
import Mathlib.Data.Nat.Basic

/-!
# Serial numbers

Positions of a stream counted modulo `2 ^ w` from a base. The number determines the position within one round
(`num_inj`), and within half a round the signed difference orders positions (`after_num`).
-/

namespace Serial

variable {w : Nat}

/-- The number of position `k`. -/
def num (base : BitVec w) (k : Nat) : BitVec w := base + BitVec.ofNat w k

/-- `a` is later than `b`: the difference is positive as a signed number. -/
def after (a b : BitVec w) : Bool := decide (0 < (a - b).toInt)

variable {base : BitVec w} {k l : Nat}

@[simp] theorem num_zero (base : BitVec w) : num base 0 = base := by simp [num]

theorem num_add (base : BitVec w) (k l : Nat) : num base (k + l) = num base k + BitVec.ofNat w l := by
  unfold num
  rw [BitVec.ofNat_add, BitVec.add_assoc]

theorem num_num (base : BitVec w) (k l : Nat) : num (num base k) l = num base (k + l) := (num_add base k l).symm

theorem num_inj (hk : k < 2 ^ w) (hl : l < 2 ^ w) (h : num base k = num base l) : k = l := by
  have hn : BitVec.ofNat w k = BitVec.ofNat w l := by
    simpa [num] using h
  have := congrArg BitVec.toNat hn
  rwa [BitVec.toNat_ofNat, BitVec.toNat_ofNat, Nat.mod_eq_of_lt hk, Nat.mod_eq_of_lt hl] at this

/-- How far a number is behind its base. -/
theorem toNat_num_sub_base (hk : k < 2 ^ w) : (num base k - base).toNat = k := by
  have hsub : num base k - base = BitVec.ofNat w k := by
    unfold num
    rw [BitVec.add_comm, BitVec.add_sub_cancel]
  rw [hsub, BitVec.toNat_ofNat, Nat.mod_eq_of_lt hk]

/-- How far a number is behind a later one. -/
theorem toNat_num_sub_num (h : l ≤ k) (hk : k - l < 2 ^ w) : (num base k - num base l).toNat = k - l := by
  rw [← Nat.add_sub_cancel' h, ← num_num, toNat_num_sub_base (by omega), Nat.add_sub_cancel_left]

theorem num_eq_num (h : l ≤ k) (hk : k - l < 2 ^ w) : num base l = num base k ↔ l = k := by
  constructor
  · intro he
    have hsub : (num base k - num base l).toNat = k - l := toNat_num_sub_num h hk
    rw [he, BitVec.sub_self] at hsub
    simp at hsub
    omega
  · intro he
    rw [he]

/-- A number is its distance from any base, counted from there. -/
theorem num_toNat_sub (base x : BitVec w) : num base (x - base).toNat = x := by
  unfold num
  rw [BitVec.ofNat_toNat, BitVec.setWidth_eq, BitVec.add_comm, BitVec.sub_add_cancel]

theorem toInt_num_sub (hk : 2 * k < 2 ^ w) (hl : 2 * l < 2 ^ w) :
    (num base k - num base l).toInt = (k : Int) - l := by
  have hsub : num base k - num base l = BitVec.ofNat w k - BitVec.ofNat w l := by
    unfold num
    rw [BitVec.sub_eq_iff_eq_add, BitVec.add_comm base (BitVec.ofNat w l), ← BitVec.add_assoc,
      BitVec.sub_add_cancel, BitVec.add_comm]
  have toInt_small : ∀ n, 2 * n < 2 ^ w → (BitVec.ofNat w n).toInt = n := by
    intro n hn
    rw [BitVec.toInt_eq_toNat_of_lt] <;> rw [BitVec.toNat_ofNat, Nat.mod_eq_of_lt (by omega)]
    exact hn
  rw [hsub, BitVec.toInt_sub, toInt_small k hk, toInt_small l hl, Int.bmod_eq_of_le] <;> omega

theorem after_num (hk : 2 * k < 2 ^ w) (hl : 2 * l < 2 ^ w) : after (num base k) (num base l) = true ↔ l < k := by
  rw [after, decide_eq_true_iff, toInt_num_sub hk hl]
  omega

end Serial
