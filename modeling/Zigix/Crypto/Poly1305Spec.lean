import Mathlib.Algebra.BigOperators.Ring.Finset
import Mathlib.Data.Nat.ModEq
import Mathlib.Tactic.NormNum
import Mathlib.Tactic.Linarith
import Zigix.Crypto.Poly1305

/-!
# Poly1305 is the function of RFC 8439

* `clamp_value`, `loadBlock_value` : the key and the blocks are loaded as the numbers of the definition;
* `absorb_spec` : the loop does not overflow and leaves the polynomial modulo `2^130 - 5`;
* `poly1305_correct` : the tag.
-/

namespace Zigix.Crypto

open Bytes

/-- The number in five limbs of 26 bits. -/
def Limbs.value (h : Limbs) : Nat := h.l0 + 2 ^ 26 * h.l1 + 2 ^ 52 * h.l2 + 2 ^ 78 * h.l3 + 2 ^ 104 * h.l4

/-! ## Loading bytes -/

theorem load32le_eq (b : Buf) (off : Nat) : load32le b off = getLE b off 4 := by
  have h0 := (b off).isLt
  have h1 := (b (off + 1)).isLt
  have h2 := (b (off + 2)).isLt
  have e1 : (b off).toNat ||| (b (off + 1)).toNat <<< 8 = (b off).toNat + (b (off + 1)).toNat * 2 ^ 8 :=
    Bits.or_shift _ h0
  have e2 := Bits.or_shift (b (off + 2)).toNat (show (b off).toNat + (b (off + 1)).toNat * 2 ^ 8 < 2 ^ 16 by omega)
  have e3 := Bits.or_shift (b (off + 3)).toNat
    (show (b off).toNat + (b (off + 1)).toNat * 2 ^ 8 + (b (off + 2)).toNat * 2 ^ 16 < 2 ^ 24 by omega)
  unfold load32le
  rw [e1, e2, e3]
  simp only [getLE, Nat.add_zero]
  ring

theorem getLE_mod (b : Buf) (off : Nat) {k n : Nat} (h : k ≤ n) : getLE b off n % 256 ^ k = getLE b off k := by
  induction n with
  | zero =>
    obtain rfl : k = 0 := by omega
    rfl
  | succ n ih =>
    by_cases hk : k = n + 1
    · subst hk
      exact Nat.mod_eq_of_lt (getLE_lt b off _)
    · obtain ⟨j, rfl⟩ := Nat.exists_eq_add_of_le (show k ≤ n by omega)
      rw [getLE, Nat.pow_add, Nat.mul_left_comm, Nat.add_mul_mod_self_left, ih (by omega)]

theorem load32le_of_getLE (b : Buf) {k : Nat} (hk : k + 4 ≤ 16) :
    load32le b k = getLE b 0 16 / 256 ^ k % 2 ^ 32 := by
  have hdiv : getLE b 0 (k + 4) / 256 ^ k = getLE b k 4 := by
    have hadd : getLE b 0 (k + 4) = getLE b 0 k + 256 ^ k * getLE b k 4 := by
      simp only [getLE, Nat.zero_add, Nat.add_zero, ← Nat.add_assoc]
      ring
    rw [hadd, Nat.add_mul_div_left _ _ (by positivity), Nat.div_eq_of_lt (getLE_lt b 0 k), Nat.zero_add]
  rw [load32le_eq, ← hdiv, ← getLE_mod b 0 hk, Nat.pow_add, Nat.mod_mul_right_div_self]
  rfl

theorem load32le_shift (b : Buf) {k s i : Nat} (hk : k + 4 ≤ 16) (hs : s ≤ 32) (hi : 8 * k + s = i) :
    load32le b k >>> s = getLE b 0 16 / 2 ^ i % 2 ^ (32 - s) := by
  have h256 : 256 ^ k = 2 ^ (8 * k) := by rw [Nat.pow_mul]
  have hpow : (2 : Nat) ^ 32 = 2 ^ s * 2 ^ (32 - s) := by rw [← Nat.pow_add, Nat.add_sub_cancel' hs]
  rw [load32le_of_getLE b hk, Nat.shiftRight_eq_div_pow, h256, ← hi, Nat.pow_add, ← Nat.div_div_eq_div_mul, hpow,
    Nat.mod_mul_right_div_self]

theorem fields_eq (x : Nat) :
    x % 2 ^ 26 + 2 ^ 26 * (x / 2 ^ 26 % 2 ^ 26) + 2 ^ 52 * (x / 2 ^ 52 % 2 ^ 26) + 2 ^ 78 * (x / 2 ^ 78 % 2 ^ 26) +
      2 ^ 104 * (x / 2 ^ 104) = x := by
  have h1 := Bits.mod_mul_add x 26 26
  have h2 := Bits.mod_mul_add x 52 26
  have h3 := Bits.mod_mul_add x 78 26
  have h4 := Nat.mod_add_div x (2 ^ 104)
  rw [h1, h2, h3, h4]

/-! ## The key -/

theorem load32le_masked (b : Buf) {k s i : Nat} (a n c : Nat) (hk : k + 4 ≤ 16) (hs : s ≤ 32) (hi : 8 * k + s = i)
    (hc : c ≤ a) (hn : a + n + s ≤ 32) :
    load32le b k >>> s &&& (2 ^ a * (2 ^ n - 1) + (2 ^ c - 1)) =
      2 ^ a * (getLE b 0 16 / 2 ^ (i + a) % 2 ^ n) + getLE b 0 16 / 2 ^ i % 2 ^ c := by
  rw [load32le_shift b hk hs hi, Bits.and_two _ _ hc, Bits.field_mod _ (by omega), Nat.div_div_eq_div_mul, ← Nat.pow_add,
    Nat.mod_mod_of_dvd _ (Nat.pow_dvd_pow 2 (by omega))]

theorem load32le_low (b : Buf) {k s i : Nat} (c : Nat) (hk : k + 4 ≤ 16) (hs : s ≤ 32) (hi : 8 * k + s = i)
    (hc : c + s ≤ 32) : load32le b k >>> s &&& (2 ^ c - 1) = getLE b 0 16 / 2 ^ i % 2 ^ c := by
  rw [load32le_shift b hk hs hi, Bits.and_low, Nat.mod_mod_of_dvd _ (Nat.pow_dvd_pow 2 (by omega))]

theorem field_add (x i a b : Nat) : x / 2 ^ i % 2 ^ a + 2 ^ a * (x / 2 ^ (i + a) % 2 ^ b) = x / 2 ^ i % 2 ^ (a + b) := by
  rw [Nat.pow_add 2 i a, ← Nat.div_div_eq_div_mul, Bits.mod_mul_add]

theorem clamp_fields (key : Buf) :
    (clamp key).l0 = getLE key 0 16 % 2 ^ 26 ∧
      (clamp key).l1 = 2 ^ 8 * (getLE key 0 16 / 2 ^ 34 % 2 ^ 18) + getLE key 0 16 / 2 ^ 26 % 2 ^ 2 ∧
      (clamp key).l2 = 2 ^ 14 * (getLE key 0 16 / 2 ^ 66 % 2 ^ 12) + getLE key 0 16 / 2 ^ 52 % 2 ^ 8 ∧
      (clamp key).l3 = 2 ^ 20 * (getLE key 0 16 / 2 ^ 98 % 2 ^ 6) + getLE key 0 16 / 2 ^ 78 % 2 ^ 14 ∧
      (clamp key).l4 = getLE key 0 16 / 2 ^ 104 % 2 ^ 20 := by
  refine ⟨?_, load32le_masked key 8 18 2 (by decide) (by decide) rfl (by decide) (by decide),
    load32le_masked key 14 12 8 (by decide) (by decide) rfl (by decide) (by decide),
    load32le_masked key 20 6 14 (by decide) (by decide) rfl (by decide) (by decide), ?_⟩
  · rw [← Nat.div_one (getLE key 0 16)]
    exact load32le_low key 26 (by decide) (s := 0) (by decide) rfl (by decide)
  · exact load32le_low key 20 (by decide) (by decide) rfl (by decide)

theorem clamp_value (key : Buf) : (clamp key).value = Rfc8439.r key := by
  obtain ⟨hl0, hl1, hl2, hl3, hl4⟩ := clamp_fields key
  have hr : Rfc8439.r key = 2 ^ 98 * (getLE key 0 16 / 2 ^ 98 % 2 ^ 26) + (2 ^ 66 * (getLE key 0 16 / 2 ^ 66 % 2 ^ 26) +
      (2 ^ 34 * (getLE key 0 16 / 2 ^ 34 % 2 ^ 26) + getLE key 0 16 % 2 ^ 28)) := by
    have hmask : 0x0ffffffc0ffffffc0ffffffc0fffffff =
        2 ^ 98 * (2 ^ 26 - 1) + (2 ^ 66 * (2 ^ 26 - 1) + (2 ^ 34 * (2 ^ 26 - 1) + (2 ^ 28 - 1))) := by decide
    rw [Rfc8439.r, hmask, Bits.and_split _ _ _ (by decide), Bits.and_split _ _ _ (by decide), Bits.and_two _ _ (by decide),
      Bits.and_low, Bits.and_low, Bits.field_mod _ (by decide), Bits.field_mod _ (by decide), Bits.field_mod _ (by decide),
      Nat.mod_mod_of_dvd _ (Nat.pow_dvd_pow 2 (by decide)), Nat.mod_mod_of_dvd _ (Nat.pow_dvd_pow 2 (by decide))]
  generalize getLE key 0 16 = K at *
  rw [hr, Limbs.value, hl0, hl1, hl2, hl3, hl4, ← Bits.mod_mul_add K 26 2, ← field_add K 34 18 8, ← field_add K 66 12 14,
    ← field_add K 98 6 20]
  ring

theorem clamp_lt (key : Buf) : (clamp key).l0 < 2 ^ 26 ∧ (clamp key).l1 < 2 ^ 26 ∧ (clamp key).l2 < 2 ^ 26 ∧
    (clamp key).l3 < 2 ^ 26 ∧ (clamp key).l4 < 2 ^ 26 := by
  have hmask : ∀ x {m : Nat}, m < 2 ^ 26 → x &&& m < 2 ^ 26 := fun x _ hm => Nat.and_lt_two_pow x hm
  exact ⟨hmask _ (by decide), hmask _ (by decide), hmask _ (by decide), hmask _ (by decide), hmask _ (by decide)⟩

/-! ## The blocks -/

section Block
variable {chunk : List (BitVec 8)}

theorem getLE_append_one (chunk : List (BitVec 8)) {n : Nat} (hn : chunk.length < n) :
    getLE (block chunk) 0 n = Rfc8439.padded chunk := by
  induction n with
  | zero => omega
  | succ n ih =>
    rw [getLE]
    by_cases hlt : chunk.length < n
    · have hzero : block chunk (0 + n) = 0 := by
        unfold block
        rw [if_neg (by omega), if_neg (by omega)]
      rw [ih hlt, hzero]
      simp
    · obtain rfl : chunk.length = n := by omega
      have hone : block chunk (0 + chunk.length) = 1 := by
        unfold block
        rw [if_neg (by omega), if_pos (by omega)]
      have hlow : getLE (block chunk) 0 chunk.length = getLE (Rfc8439.bytesOf chunk) 0 chunk.length :=
        getLE_congr fun k hk => if_pos (by omega)
      rw [hone, hlow, Rfc8439.padded]
      simp

theorem loadBlock_value (h : chunk.length ≤ 16) : (loadBlock chunk).value = Rfc8439.padded chunk := by
  have hK := getLE_lt (block chunk) 0 16
  have h0 : (loadBlock chunk).l0 = getLE (block chunk) 0 16 % 2 ^ 26 := by
    rw [← Nat.div_one (getLE (block chunk) 0 16)]
    exact load32le_low _ 26 (by decide) (s := 0) (by decide) rfl (by decide)
  have h1 : (loadBlock chunk).l1 = getLE (block chunk) 0 16 / 2 ^ 26 % 2 ^ 26 :=
    load32le_low _ 26 (by decide) (by decide) rfl (by decide)
  have h2 : (loadBlock chunk).l2 = getLE (block chunk) 0 16 / 2 ^ 52 % 2 ^ 26 :=
    load32le_low _ 26 (by decide) (by decide) rfl (by decide)
  have h3 : (loadBlock chunk).l3 = getLE (block chunk) 0 16 / 2 ^ 78 % 2 ^ 26 :=
    load32le_low _ 26 (by decide) (by decide) rfl (by decide)
  have htop : load32le (block chunk) 12 >>> 8 = getLE (block chunk) 0 16 / 2 ^ 104 := by
    rw [load32le_shift (block chunk) (by decide) (by decide) rfl]
    exact Nat.mod_eq_of_lt (Nat.div_lt_of_lt_mul hK)
  have hlow := fields_eq (getLE (block chunk) 0 16)
  by_cases hfull : chunk.length = 16
  · -- the byte 1 is past the 16 bytes of the words, and is set in the last limb
    have h4 : (loadBlock chunk).l4 = getLE (block chunk) 0 16 / 2 ^ 104 + 2 ^ 24 := by
      have hlt : getLE (block chunk) 0 16 / 2 ^ 104 < 2 ^ 24 := Nat.div_lt_of_lt_mul hK
      unfold loadBlock
      dsimp only
      rw [if_pos hfull, htop, Bits.or_shift 1 hlt, Nat.one_mul]
    have hpad : Rfc8439.padded chunk = getLE (block chunk) 0 16 + 2 ^ 128 := by
      rw [← getLE_append_one chunk (n := 17) (by omega), getLE]
      have hone : block chunk (0 + 16) = 1 := by
        unfold block
        rw [if_neg (by omega), if_pos (by omega)]
      rw [hone]
      rfl
    rw [Limbs.value, h0, h1, h2, h3, h4, hpad, Nat.mul_add, ← Nat.add_assoc, hlow, ← Nat.pow_add]
  · have h4 : (loadBlock chunk).l4 = getLE (block chunk) 0 16 / 2 ^ 104 := by
      unfold loadBlock
      dsimp only
      rw [if_neg hfull, htop]
    rw [Limbs.value, h0, h1, h2, h3, h4, hlow, getLE_append_one chunk (by omega)]

theorem loadBlock_lt (h : chunk.length ≤ 16) : (loadBlock chunk).l0 < 2 ^ 26 ∧ (loadBlock chunk).l1 < 2 ^ 26 ∧
    (loadBlock chunk).l2 < 2 ^ 26 ∧ (loadBlock chunk).l3 < 2 ^ 26 ∧ (loadBlock chunk).l4 < 2 ^ 26 := by
  have hmask : ∀ x, x &&& 0x3ffffff < 2 ^ 26 := fun x => Nat.and_lt_two_pow x (by decide)
  refine ⟨hmask _, hmask _, hmask _, hmask _, ?_⟩
  have hval := loadBlock_value h
  have hpad : Rfc8439.padded chunk < 2 ^ 129 := by
    have hlow := getLE_lt (Rfc8439.bytesOf chunk) 0 chunk.length
    have hpow : 256 ^ chunk.length ≤ 256 ^ 16 := Nat.pow_le_pow_right (by decide) h
    unfold Rfc8439.padded
    omega
  unfold Limbs.value at hval
  omega

end Block

/-! ## Multiplication -/

theorem u64_of_lt {n : Nat} (h : n < 2 ^ 64) : u64 n = some n := if_pos h

theorem u128_of_lt {n : Nat} (h : n < 2 ^ 128) : u128 n = some n := if_pos h

theorem and_limb (x : Nat) : x &&& 0x3ffffff = x % 2 ^ 26 := Bits.and_low x 26

/-- All limbs are below `2^n`. -/
structure Limbs.Below (n : Nat) (h : Limbs) : Prop where
  l0 : h.l0 < 2 ^ n
  l1 : h.l1 < 2 ^ n
  l2 : h.l2 < 2 ^ n
  l3 : h.l3 < 2 ^ n
  l4 : h.l4 < 2 ^ n

structure Limbs.Carried (h : Limbs) : Prop where
  l0 : h.l0 < 2 ^ 26
  l1 : h.l1 < 2 ^ 26 + 2 ^ 14
  l2 : h.l2 < 2 ^ 26
  l3 : h.l3 < 2 ^ 26
  l4 : h.l4 < 2 ^ 26

theorem addLimbs_spec {h t : Limbs} (hh : h.Carried) (ht : t.Below 26) :
    ∃ h', addLimbs h t = some h' ∧ h'.Below 28 ∧ h'.value = h.value + t.value := by
  obtain ⟨h0, h1, h2, h3, h4⟩ := hh
  obtain ⟨t0, t1, t2, t3, t4⟩ := ht
  refine ⟨⟨h.l0 + t.l0, h.l1 + t.l1, h.l2 + t.l2, h.l3 + t.l3, h.l4 + t.l4⟩, ?_, ⟨?_, ?_, ?_, ?_, ?_⟩, ?_⟩
  · unfold addLimbs
    rw [u64_of_lt (by omega), u64_of_lt (by omega), u64_of_lt (by omega), u64_of_lt (by omega), u64_of_lt (by omega)]
    rfl
  all_goals simp only [Limbs.value]; omega

theorem dot_lt {a b : Limbs} (ha : a.Below 28) (hb : b.Below 29) :
    a.l0 * b.l0 + a.l1 * b.l1 + a.l2 * b.l2 + a.l3 * b.l3 + a.l4 * b.l4 < 2 ^ 60 := by
  have hmul : ∀ {x y : Nat}, x < 2 ^ 28 → y < 2 ^ 29 → x * y < 2 ^ 57 := by
    intro x y hx hy
    calc x * y < 2 ^ 28 * 2 ^ 29 := Nat.mul_lt_mul'' hx hy
      _ = 2 ^ 57 := by rw [← Nat.pow_add]
  have h0 := hmul ha.l0 hb.l0
  have h1 := hmul ha.l1 hb.l1
  have h2 := hmul ha.l2 hb.l2
  have h3 := hmul ha.l3 hb.l3
  have h4 := hmul ha.l4 hb.l4
  omega

def folded (h r : Limbs) : Limbs where
  l0 := h.l0 * r.l0 + h.l1 * (r.l4 * 5) + h.l2 * (r.l3 * 5) + h.l3 * (r.l2 * 5) + h.l4 * (r.l1 * 5)
  l1 := h.l0 * r.l1 + h.l1 * r.l0 + h.l2 * (r.l4 * 5) + h.l3 * (r.l3 * 5) + h.l4 * (r.l2 * 5)
  l2 := h.l0 * r.l2 + h.l1 * r.l1 + h.l2 * r.l0 + h.l3 * (r.l4 * 5) + h.l4 * (r.l3 * 5)
  l3 := h.l0 * r.l3 + h.l1 * r.l2 + h.l2 * r.l1 + h.l3 * r.l0 + h.l4 * (r.l4 * 5)
  l4 := h.l0 * r.l4 + h.l1 * r.l3 + h.l2 * r.l2 + h.l3 * r.l1 + h.l4 * r.l0

theorem folded_below {h r : Limbs} (hh : h.Below 28) (hr : r.Below 26) : (folded h r).Below 60 := by
  obtain ⟨r0, r1, r2, r3, r4⟩ := hr
  have hrow : ∀ b : Limbs, b.Below 29 → h.l0 * b.l0 + h.l1 * b.l1 + h.l2 * b.l2 + h.l3 * b.l3 + h.l4 * b.l4 < 2 ^ 60 :=
    fun b hb => dot_lt hh hb
  exact ⟨hrow ⟨r.l0, r.l4 * 5, r.l3 * 5, r.l2 * 5, r.l1 * 5⟩ (by constructor <;> dsimp only <;> omega),
    hrow ⟨r.l1, r.l0, r.l4 * 5, r.l3 * 5, r.l2 * 5⟩ (by constructor <;> dsimp only <;> omega),
    hrow ⟨r.l2, r.l1, r.l0, r.l4 * 5, r.l3 * 5⟩ (by constructor <;> dsimp only <;> omega),
    hrow ⟨r.l3, r.l2, r.l1, r.l0, r.l4 * 5⟩ (by constructor <;> dsimp only <;> omega),
    hrow ⟨r.l4, r.l3, r.l2, r.l1, r.l0⟩ (by constructor <;> dsimp only <;> omega)⟩

/-- The products of weight `2^130` and more count five times at `2^130` less. -/
theorem folded_value (h r : Limbs) :
    (folded h r).value + Rfc8439.prime * (h.l1 * r.l4 + h.l2 * r.l3 + h.l3 * r.l2 + h.l4 * r.l1 +
      2 ^ 26 * (h.l2 * r.l4 + h.l3 * r.l3 + h.l4 * r.l2) + 2 ^ 52 * (h.l3 * r.l4 + h.l4 * r.l3) +
      2 ^ 78 * (h.l4 * r.l4)) = h.value * r.value := by
  have hprime : Rfc8439.prime = 1361129467683753853853498429727072845819 := rfl
  rw [hprime]
  unfold Limbs.value folded
  ring

theorem mulLimbs_eq {h r : Limbs} (hh : h.Below 28) (hr : r.Below 26) : mulLimbs h r = some (folded h r) := by
  have hlt : ∀ {n : Nat}, n < 2 ^ 60 → u128 n = some n := fun hn => u128_of_lt (by omega)
  obtain ⟨d0, d1, d2, d3, d4⟩ := folded_below hh hr
  obtain ⟨r0, r1, r2, r3, r4⟩ := hr
  unfold folded at d0 d1 d2 d3 d4
  unfold mulLimbs
  rw [hlt (show r.l1 * 5 < 2 ^ 60 by omega), hlt (show r.l2 * 5 < 2 ^ 60 by omega),
    hlt (show r.l3 * 5 < 2 ^ 60 by omega), hlt (show r.l4 * 5 < 2 ^ 60 by omega)]
  simp only [Option.bind_eq_bind, Option.bind_some]
  rw [hlt d0, hlt d1, hlt d2, hlt d3, hlt d4]
  rfl

/-! ## Carries -/

theorem carryProduct_spec {d : Limbs} (hd : d.Below 60) :
    ∃ h, carryProduct d = some h ∧ h.Carried ∧ h.value % Rfc8439.prime = d.value % Rfc8439.prime := by
  obtain ⟨h0, h1, h2, h3, h4⟩ := hd
  have hprime : Rfc8439.prime = 2 ^ 130 - 5 := rfl
  -- the limbs with their carries, and what is carried out of each
  obtain ⟨c0, hc0⟩ : ∃ c, c = d.l0 / 2 ^ 26 := ⟨_, rfl⟩
  obtain ⟨c1, hc1⟩ : ∃ c, c = (d.l1 + c0) / 2 ^ 26 := ⟨_, rfl⟩
  obtain ⟨c2, hc2⟩ : ∃ c, c = (d.l2 + c1) / 2 ^ 26 := ⟨_, rfl⟩
  obtain ⟨c3, hc3⟩ : ∃ c, c = (d.l3 + c2) / 2 ^ 26 := ⟨_, rfl⟩
  obtain ⟨c4, hc4⟩ : ∃ c, c = (d.l4 + c3) / 2 ^ 26 := ⟨_, rfl⟩
  obtain ⟨c5, hc5⟩ : ∃ c, c = (d.l0 % 2 ^ 26 + c4 * 5) / 2 ^ 26 := ⟨_, rfl⟩
  refine ⟨⟨(d.l0 % 2 ^ 26 + c4 * 5) % 2 ^ 26, (d.l1 + c0) % 2 ^ 26 + c5, (d.l2 + c1) % 2 ^ 26, (d.l3 + c2) % 2 ^ 26,
    (d.l4 + c3) % 2 ^ 26⟩, ?_, ?_, ?_⟩
  · have e0 : d.l0 / 2 ^ 26 % 2 ^ 64 = c0 := by omega
    have e1 : (d.l1 + c0) / 2 ^ 26 % 2 ^ 64 = c1 := by omega
    have e2 : (d.l2 + c1) / 2 ^ 26 % 2 ^ 64 = c2 := by omega
    have e3 : (d.l3 + c2) / 2 ^ 26 % 2 ^ 64 = c3 := by omega
    have e4 : (d.l4 + c3) / 2 ^ 26 % 2 ^ 64 = c4 := by omega
    have u1 : u128 (d.l1 + c0) = some (d.l1 + c0) := u128_of_lt (by omega)
    have u2 : u128 (d.l2 + c1) = some (d.l2 + c1) := u128_of_lt (by omega)
    have u3 : u128 (d.l3 + c2) = some (d.l3 + c2) := u128_of_lt (by omega)
    have u4 : u128 (d.l4 + c3) = some (d.l4 + c3) := u128_of_lt (by omega)
    have u5 : u64 (c4 * 5) = some (c4 * 5) := u64_of_lt (by omega)
    have u6 : u64 (d.l0 % 2 ^ 26 + c4 * 5) = some (d.l0 % 2 ^ 26 + c4 * 5) := u64_of_lt (by omega)
    have u7 : u64 ((d.l1 + c0) % 2 ^ 26 + c5) = some ((d.l1 + c0) % 2 ^ 26 + c5) := u64_of_lt (by omega)
    unfold carryProduct
    simp only [Nat.shiftRight_eq_div_pow, and_limb, e0, e1, e2, e3, e4, u1, u2, u3, u4, u5, u6, u7, ← hc5,
      Option.bind_eq_bind, Option.bind_some]
    rfl
  · constructor <;> dsimp only <;> omega
  · have hsum : d.value = (d.l0 % 2 ^ 26 + c4 * 5) % 2 ^ 26 + 2 ^ 26 * ((d.l1 + c0) % 2 ^ 26 + c5) +
        2 ^ 52 * ((d.l2 + c1) % 2 ^ 26) + 2 ^ 78 * ((d.l3 + c2) % 2 ^ 26) + 2 ^ 104 * ((d.l4 + c3) % 2 ^ 26) +
        Rfc8439.prime * c4 := by
      rw [hprime]
      unfold Limbs.value
      omega
    rw [hsum, Nat.add_mul_mod_self_left]
    rfl

/-! ## The loop -/

theorem poly_concat (r c : Nat) (cs : List Nat) : Rfc8439.poly r (cs ++ [c]) = (Rfc8439.poly r cs + c) * r := by
  unfold Rfc8439.poly
  rw [List.length_append, List.length_singleton, Finset.sum_range_succ, Nat.add_mul, Finset.sum_mul]
  congr 1
  · refine Finset.sum_congr rfl fun i hi => ?_
    have hlt : i < cs.length := Finset.mem_range.1 hi
    rw [List.getD_eq_getElem?_getD, List.getElem?_append_left hlt, ← List.getD_eq_getElem?_getD, Nat.succ_sub hlt.le, Nat.pow_succ, Nat.mul_assoc]
  · simp

theorem absorb_spec {r h : Limbs} (hr : r.Below 26) (hh : h.Carried) (msg : List (BitVec 8)) (cs : List Nat)
    (hval : h.value % Rfc8439.prime = Rfc8439.poly r.value cs % Rfc8439.prime) :
    ∃ h', absorb r h msg = some h' ∧ h'.Carried ∧
      h'.value % Rfc8439.prime = Rfc8439.poly r.value (cs ++ Rfc8439.blocks msg) % Rfc8439.prime := by
  fun_induction Rfc8439.blocks msg generalizing h cs with
  | case1 =>
    rw [absorb, if_pos rfl, List.append_nil]
    exact ⟨h, rfl, hh, hval⟩
  | case2 msg hmsg ih =>
    have hlen : (msg.take 16).length ≤ 16 := List.length_take_le ..
    obtain ⟨t0, t1, t2, t3, t4⟩ := loadBlock_lt hlen
    obtain ⟨h₁, hadd, hbelow, hsum⟩ := addLimbs_spec hh ⟨t0, t1, t2, t3, t4⟩
    obtain ⟨h₂, hcarry, hcarried, hmod⟩ := carryProduct_spec (folded_below hbelow hr)
    have hnext : h₂.value % Rfc8439.prime =
        Rfc8439.poly r.value (cs ++ [Rfc8439.padded (msg.take 16)]) % Rfc8439.prime := by
      have hprod : (folded h₁ r).value % Rfc8439.prime = h₁.value * r.value % Rfc8439.prime := by
        rw [← folded_value, Nat.add_mul_mod_self_left]
      rw [hmod, hprod, hsum, loadBlock_value hlen, poly_concat, Nat.mul_mod, Nat.add_mod, hval, ← Nat.add_mod, ← Nat.mul_mod]
    obtain ⟨h', hrest, hcarried', hfinal⟩ := ih hcarried (cs ++ [Rfc8439.padded (msg.take 16)]) hnext
    refine ⟨h', ?_, hcarried', ?_⟩
    · rw [absorb, if_neg hmsg, hadd]
      simp only [Option.bind_eq_bind, Option.bind_some, mulLimbs_eq hbelow hr, hcarry, hrest]
    · rw [hfinal, List.append_assoc, List.singleton_append]

/-! ## The final reduction -/

theorem carryAll_spec {h : Limbs} (hh : h.Carried) :
    ∃ h', carryAll h = some h' ∧ h'.Below 26 ∧ h'.value % Rfc8439.prime = h.value % Rfc8439.prime := by
  obtain ⟨h0, h1, h2, h3, h4⟩ := hh
  have hprime : Rfc8439.prime = 2 ^ 130 - 5 := rfl
  obtain ⟨c1, hc1⟩ : ∃ c, c = h.l1 / 2 ^ 26 := ⟨_, rfl⟩
  obtain ⟨c2, hc2⟩ : ∃ c, c = (h.l2 + c1) / 2 ^ 26 := ⟨_, rfl⟩
  obtain ⟨c3, hc3⟩ : ∃ c, c = (h.l3 + c2) / 2 ^ 26 := ⟨_, rfl⟩
  obtain ⟨c4, hc4⟩ : ∃ c, c = (h.l4 + c3) / 2 ^ 26 := ⟨_, rfl⟩
  obtain ⟨c5, hc5⟩ : ∃ c, c = (h.l0 + c4 * 5) / 2 ^ 26 := ⟨_, rfl⟩
  refine ⟨⟨(h.l0 + c4 * 5) % 2 ^ 26, h.l1 % 2 ^ 26 + c5, (h.l2 + c1) % 2 ^ 26, (h.l3 + c2) % 2 ^ 26,
    (h.l4 + c3) % 2 ^ 26⟩, ?_, ?_, ?_⟩
  · have u2 : u64 (h.l2 + c1) = some (h.l2 + c1) := u64_of_lt (by omega)
    have u3 : u64 (h.l3 + c2) = some (h.l3 + c2) := u64_of_lt (by omega)
    have u4 : u64 (h.l4 + c3) = some (h.l4 + c3) := u64_of_lt (by omega)
    have u5 : u64 (c4 * 5) = some (c4 * 5) := u64_of_lt (by omega)
    have u6 : u64 (h.l0 + c4 * 5) = some (h.l0 + c4 * 5) := u64_of_lt (by omega)
    have u7 : u64 (h.l1 % 2 ^ 26 + c5) = some (h.l1 % 2 ^ 26 + c5) := u64_of_lt (by omega)
    unfold carryAll
    simp only [Nat.shiftRight_eq_div_pow, and_limb, ← hc1, u2, ← hc2, u3, ← hc3, u4, ← hc4, u5, u6, ← hc5, u7,
      Option.bind_eq_bind, Option.bind_some]
    rfl
  · -- a carry out of the last limb leaves little in the second one; without it the first limb carries nothing
    constructor <;> dsimp only <;> omega
  · have hsum : h.value = (h.l0 + c4 * 5) % 2 ^ 26 + 2 ^ 26 * (h.l1 % 2 ^ 26 + c5) + 2 ^ 52 * ((h.l2 + c1) % 2 ^ 26) +
        2 ^ 78 * ((h.l3 + c2) % 2 ^ 26) + 2 ^ 104 * ((h.l4 + c3) % 2 ^ 26) + Rfc8439.prime * c4 := by
      rw [hprime]
      unfold Limbs.value
      omega
    rw [hsum, Nat.add_mul_mod_self_left]
    rfl

theorem pick_zero {h g : Nat} (hh : h < 2 ^ 64) : pick 0 h g = h := by
  unfold pick
  rw [Nat.sub_zero, Bits.and_low, Nat.and_zero, Nat.or_zero, Nat.mod_eq_of_lt hh]

theorem pick_ones {h g : Nat} (hg : g < 2 ^ 64) : pick (2 ^ 64 - 1) h g = g := by
  unfold pick
  rw [Nat.sub_self, Bits.and_low, Nat.and_zero, Nat.zero_or, Nat.mod_eq_of_lt hg]

theorem reduce_spec {h : Limbs} (hh : h.Below 26) :
    ∃ g, minusPrime h = some g ∧ (select h g).Below 26 ∧ (select h g).value = h.value % Rfc8439.prime := by
  obtain ⟨h0, h1, h2, h3, h4⟩ := hh
  have hprime : Rfc8439.prime = 2 ^ 130 - 5 := rfl
  obtain ⟨c0, hc0⟩ : ∃ c, c = (h.l0 + 5) / 2 ^ 26 := ⟨_, rfl⟩
  obtain ⟨c1, hc1⟩ : ∃ c, c = (h.l1 + c0) / 2 ^ 26 := ⟨_, rfl⟩
  obtain ⟨c2, hc2⟩ : ∃ c, c = (h.l2 + c1) / 2 ^ 26 := ⟨_, rfl⟩
  obtain ⟨c3, hc3⟩ : ∃ c, c = (h.l3 + c2) / 2 ^ 26 := ⟨_, rfl⟩
  have hshift : 1 <<< 26 = 2 ^ 26 := rfl
  refine ⟨⟨(h.l0 + 5) % 2 ^ 26, (h.l1 + c0) % 2 ^ 26, (h.l2 + c1) % 2 ^ 26, (h.l3 + c2) % 2 ^ 26,
    (h.l4 + c3 + (2 ^ 64 - 2 ^ 26)) % 2 ^ 64⟩, ?_, ?_⟩
  · have u0 : u64 (h.l0 + 5) = some (h.l0 + 5) := u64_of_lt (by omega)
    have u1 : u64 (h.l1 + c0) = some (h.l1 + c0) := u64_of_lt (by omega)
    have u2 : u64 (h.l2 + c1) = some (h.l2 + c1) := u64_of_lt (by omega)
    have u3 : u64 (h.l3 + c2) = some (h.l3 + c2) := u64_of_lt (by omega)
    have u4 : u64 (h.l4 + c3) = some (h.l4 + c3) := u64_of_lt (by omega)
    unfold minusPrime
    simp only [Nat.shiftRight_eq_div_pow, and_limb, u0, ← hc0, u1, ← hc1, u2, ← hc2, u3, ← hc3, u4, hshift,
      Option.bind_eq_bind, Option.bind_some]
    rfl
  unfold select
  dsimp only
  rw [Nat.shiftRight_eq_div_pow]
  by_cases hge : 2 ^ 26 ≤ h.l4 + c3
  · have hmask : ((h.l4 + c3 + (2 ^ 64 - 2 ^ 26)) % 2 ^ 64 / 2 ^ 63 + (2 ^ 64 - 1)) % 2 ^ 64 = 2 ^ 64 - 1 := by omega
    rw [hmask, pick_ones (by omega), pick_ones (by omega), pick_ones (by omega), pick_ones (by omega),
      pick_ones (by omega)]
    refine ⟨by constructor <;> dsimp only <;> omega, ?_⟩
    have hsub : h.value % Rfc8439.prime = h.value - Rfc8439.prime := by
      rw [hprime, Nat.mod_eq_sub_mod (by unfold Limbs.value; omega), Nat.mod_eq_of_lt (by unfold Limbs.value; omega)]
    rw [hsub, hprime]
    unfold Limbs.value
    dsimp only
    omega
  · have hmask : ((h.l4 + c3 + (2 ^ 64 - 2 ^ 26)) % 2 ^ 64 / 2 ^ 63 + (2 ^ 64 - 1)) % 2 ^ 64 = 0 := by omega
    rw [hmask, pick_zero (by omega), pick_zero (by omega), pick_zero (by omega), pick_zero (by omega),
      pick_zero (by omega)]
    refine ⟨by constructor <;> dsimp only <;> omega, ?_⟩
    rw [hprime, Nat.mod_eq_of_lt (by unfold Limbs.value; omega)]

/-! ## The tag -/

theorem getLE_add (b : Buf) (off n k : Nat) : getLE b off (n + k) = getLE b off n + 256 ^ n * getLE b (off + n) k := by
  induction k with
  | zero => rfl
  | succ k ih =>
    rw [← Nat.add_assoc, getLE, ih, getLE, Nat.pow_add, Nat.add_assoc off]
    ring

theorem stored_words (f0 f1 f2 f3 : Nat) (h0 : f0 < 2 ^ 32) (h1 : f1 < 2 ^ 32) (h2 : f2 < 2 ^ 32) (h3 : f3 < 2 ^ 32) :
    getLE (store32le (store32le (store32le (store32le (fun _ => 0) 0 f0) 4 f1) 8 f2) 12 f3) 0 16 =
      f0 + 2 ^ 32 * f1 + 2 ^ 64 * f2 + 2 ^ 96 * f3 := by
  have hword : ∀ {b : Buf} {off v : Nat}, v < 2 ^ 32 → getLE (store32le b off v) off 4 = v := by
    intro b off v hv
    rw [store32le, getLE_putLE]
    exact Nat.mod_eq_of_lt hv
  have hother : ∀ {b : Buf} {off off' v : Nat}, off' + 4 ≤ off → getLE (store32le b off v) off' 4 = getLE b off' 4 :=
    fun h => getLE_congr fun k hk => putLE_of_notMem (by omega)
  rw [show 16 = 4 + 4 + 4 + 4 from rfl, getLE_add, getLE_add, getLE_add, hother (by decide), hother (by decide),
    hother (by decide), hword h0, hother (by decide), hother (by decide), hword h1, hother (by decide), hword h2, hword h3]
  norm_num

theorem words_value {h : Limbs} (hh : h.Below 26) :
    h.value % 2 ^ 128 = (h.l0 + h.l1 * 2 ^ 26) % 2 ^ 32 + 2 ^ 32 * ((h.l1 / 2 ^ 6 + h.l2 * 2 ^ 20) % 2 ^ 32) +
      2 ^ 64 * ((h.l2 / 2 ^ 12 + h.l3 * 2 ^ 14) % 2 ^ 32) + 2 ^ 96 * ((h.l3 / 2 ^ 18 + h.l4 * 2 ^ 8) % 2 ^ 32) := by
  obtain ⟨h0, h1, h2, h3, h4⟩ := hh
  have w0 : h.value % 2 ^ 32 = (h.l0 + h.l1 * 2 ^ 26) % 2 ^ 32 := by
    unfold Limbs.value
    clear h1 h2 h3 h4
    omega
  have w1 : h.value / 2 ^ 32 % 2 ^ 32 = (h.l1 / 2 ^ 6 + h.l2 * 2 ^ 20) % 2 ^ 32 := by
    unfold Limbs.value
    clear h2 h3 h4 w0
    omega
  have w2 : h.value / 2 ^ 64 % 2 ^ 32 = (h.l2 / 2 ^ 12 + h.l3 * 2 ^ 14) % 2 ^ 32 := by
    unfold Limbs.value
    clear h3 h4 w0 w1
    omega
  have w3 : h.value / 2 ^ 96 % 2 ^ 32 = (h.l3 / 2 ^ 18 + h.l4 * 2 ^ 8) % 2 ^ 32 := by
    unfold Limbs.value
    clear h4 w0 w1 w2
    omega
  rw [← w0, ← w1, ← w2, ← w3, Bits.mod_mul_add, Bits.mod_mul_add, Bits.mod_mul_add]

theorem assemble_spec (key : Buf) {h : Limbs} (hh : h.Below 26) :
    ∃ tag, assemble key h = some tag ∧ getLE tag 0 16 = (h.value + Rfc8439.s key) % 2 ^ 128 := by
  obtain ⟨h0, h1, h2, h3, h4⟩ := hh
  have hw : ∀ off, load32le key off < 2 ^ 32 := fun off => by rw [load32le_eq]; exact getLE_lt key off 4
  have hs : Rfc8439.s key =
      load32le key 16 + 2 ^ 32 * load32le key 20 + 2 ^ 64 * load32le key 24 + 2 ^ 96 * load32le key 28 := by
    rw [Rfc8439.s, show 16 = 4 + 4 + 4 + 4 from rfl, getLE_add, getLE_add, getLE_add]
    simp only [load32le_eq]
    norm_num
  have hand : ∀ x, x &&& 0xffffffff = x % 2 ^ 32 := fun x => Bits.and_low x 32
  have hshl : ∀ x k, x < 2 ^ 26 → k ≤ 26 → x <<< k % 2 ^ 64 = x <<< k := by
    intro x k hx hk
    rw [Nat.shiftLeft_eq]
    have hmul : x * 2 ^ k < 2 ^ 26 * 2 ^ 26 := Nat.mul_lt_mul_of_lt_of_le hx (Nat.pow_le_pow_right (by decide) hk) (by positivity)
    exact Nat.mod_eq_of_lt (by omega)
  -- the words of the number, then the words of the sum with the carries between them
  obtain ⟨f0, hf0⟩ : ∃ f, f = (h.l0 + h.l1 * 2 ^ 26) % 2 ^ 32 := ⟨_, rfl⟩
  obtain ⟨f1, hf1⟩ : ∃ f, f = (h.l1 / 2 ^ 6 + h.l2 * 2 ^ 20) % 2 ^ 32 := ⟨_, rfl⟩
  obtain ⟨f2, hf2⟩ : ∃ f, f = (h.l2 / 2 ^ 12 + h.l3 * 2 ^ 14) % 2 ^ 32 := ⟨_, rfl⟩
  obtain ⟨f3, hf3⟩ : ∃ f, f = (h.l3 / 2 ^ 18 + h.l4 * 2 ^ 8) % 2 ^ 32 := ⟨_, rfl⟩
  have e0 : (h.l0 ||| h.l1 <<< 26 % 2 ^ 64) &&& 0xffffffff = f0 := by
    rw [hand, hshl _ _ h1 le_rfl, Bits.or_shift _ h0, hf0]
  have e1 : (h.l1 >>> 6 ||| h.l2 <<< 20 % 2 ^ 64) &&& 0xffffffff = f1 := by
    rw [hand, hshl _ _ h2 (by decide), Nat.shiftRight_eq_div_pow, Bits.or_shift _ (by omega), hf1]
  have e2 : (h.l2 >>> 12 ||| h.l3 <<< 14 % 2 ^ 64) &&& 0xffffffff = f2 := by
    rw [hand, hshl _ _ h3 (by decide), Nat.shiftRight_eq_div_pow, Bits.or_shift _ (by omega), hf2]
  have e3 : (h.l3 >>> 18 ||| h.l4 <<< 8 % 2 ^ 64) &&& 0xffffffff = f3 := by
    rw [hand, hshl _ _ h4 (by decide), Nat.shiftRight_eq_div_pow, Bits.or_shift _ (by omega), hf3]
  have hwords : h.value % 2 ^ 128 = f0 + 2 ^ 32 * f1 + 2 ^ 64 * f2 + 2 ^ 96 * f3 := by
    rw [words_value ⟨h0, h1, h2, h3, h4⟩, hf0, hf1, hf2, hf3]
  have w0 := hw 16
  have w1 := hw 20
  have w2 := hw 24
  have w3 := hw 28
  have b0 : f0 < 2 ^ 32 := by omega
  have b1 : f1 < 2 ^ 32 := by omega
  have b2 : f2 < 2 ^ 32 := by omega
  have b3 : f3 < 2 ^ 32 := by omega
  clear hf0 hf1 hf2 hf3
  obtain ⟨a0, ha0⟩ : ∃ a, a = f0 + load32le key 16 := ⟨_, rfl⟩
  obtain ⟨a1, ha1⟩ : ∃ a, a = a0 / 2 ^ 32 + f1 + load32le key 20 := ⟨_, rfl⟩
  obtain ⟨a2, ha2⟩ : ∃ a, a = a1 / 2 ^ 32 + f2 + load32le key 24 := ⟨_, rfl⟩
  obtain ⟨a3, ha3⟩ : ∃ a, a = a2 / 2 ^ 32 + f3 + load32le key 28 := ⟨_, rfl⟩
  refine ⟨store32le (store32le (store32le (store32le (fun _ => 0) 0 (a0 % 2 ^ 32)) 4 (a1 % 2 ^ 32)) 8 (a2 % 2 ^ 32)) 12
    (a3 % 2 ^ 32), ?_, ?_⟩
  · have u0 : u64 a0 = some a0 := u64_of_lt (by omega)
    have u1 : u64 a1 = some a1 := u64_of_lt (by omega)
    have u2 : u64 a2 = some a2 := u64_of_lt (by omega)
    have u3 : u64 a3 = some a3 := u64_of_lt (by omega)
    unfold assemble
    simp only [e0, e1, e2, e3]
    simp only [hand, Nat.shiftRight_eq_div_pow, ← ha0, u0, ← ha1, u1, ← ha2, u2, ← ha3, u3,
      Option.bind_eq_bind, Option.bind_some]
    rfl
  · have hlt : ∀ x, x % 2 ^ 32 < 2 ^ 32 := fun x => Nat.mod_lt _ (by positivity)
    have d0 := Nat.mod_add_div a0 (2 ^ 32)
    have d1 := Nat.mod_add_div a1 (2 ^ 32)
    have d2 := Nat.mod_add_div a2 (2 ^ 32)
    have d3 := Nat.mod_add_div a3 (2 ^ 32)
    have hadd : h.value % 2 ^ 128 + Rfc8439.s key = a0 % 2 ^ 32 + 2 ^ 32 * (a1 % 2 ^ 32) + 2 ^ 64 * (a2 % 2 ^ 32) +
        2 ^ 96 * (a3 % 2 ^ 32) + 2 ^ 128 * (a3 / 2 ^ 32) := by
      rw [hwords, hs]
      linarith only [d0, d1, d2, d3, ha0, ha1, ha2, ha3]
    have hfits : a0 % 2 ^ 32 + 2 ^ 32 * (a1 % 2 ^ 32) + 2 ^ 64 * (a2 % 2 ^ 32) + 2 ^ 96 * (a3 % 2 ^ 32) < 2 ^ 128 := by
      have r0 := hlt a0
      have r1 := hlt a1
      have r2 := hlt a2
      have r3 := hlt a3
      linarith only [r0, r1, r2, r3]
    rw [stored_words _ _ _ _ (hlt _) (hlt _) (hlt _) (hlt _), ← Nat.mod_add_mod, hadd, Nat.add_mul_mod_self_left,
      Nat.mod_eq_of_lt hfits]

theorem poly1305Mac_eq (key : Buf) (msg : List (BitVec 8)) :
    ∃ h : Limbs, poly1305Mac msg key = assemble key h ∧ h.Below 26 ∧
      h.value = Rfc8439.poly (Rfc8439.r key) (Rfc8439.blocks msg) % Rfc8439.prime := by
  obtain ⟨k0, k1, k2, k3, k4⟩ := clamp_lt key
  have hzero : Limbs.Carried { l0 := 0, l1 := 0, l2 := 0, l3 := 0, l4 := 0 } := by constructor <;> decide
  obtain ⟨h₁, habsorb, hcarried, hpoly⟩ := absorb_spec ⟨k0, k1, k2, k3, k4⟩ hzero msg [] rfl
  obtain ⟨h₂, hall, hbelow, hmod⟩ := carryAll_spec hcarried
  obtain ⟨g, hminus, hsel, hval⟩ := reduce_spec hbelow
  refine ⟨select h₂ g, ?_, hsel, ?_⟩
  · unfold poly1305Mac
    simp only [habsorb, hall, hminus, Option.bind_eq_bind, Option.bind_some]
  · rw [hval, hmod, hpoly, clamp_value, List.nil_append]

theorem poly1305Mac_total (key : Buf) (msg : List (BitVec 8)) : ∃ tag, poly1305Mac msg key = some tag := by
  obtain ⟨h, hrun, hbelow, -⟩ := poly1305Mac_eq key msg
  obtain ⟨tag, htag, -⟩ := assemble_spec key hbelow
  exact ⟨tag, hrun.trans htag⟩

/-- **`poly1305_mac` is the function of RFC 8439**, for every key and every message, and nothing overflows on the way. -/
theorem poly1305_correct (key : Buf) (msg : List (BitVec 8)) :
    ∃ tag, poly1305Mac msg key = some tag ∧ getLE tag 0 16 = Rfc8439.mac key msg := by
  obtain ⟨h, hrun, hbelow, hval⟩ := poly1305Mac_eq key msg
  obtain ⟨tag, htag, hsum⟩ := assemble_spec key hbelow
  refine ⟨tag, hrun.trans htag, ?_⟩
  rw [hsum, hval, Rfc8439.mac]

end Zigix.Crypto
