import Mathlib.Algebra.Order.Ring.Abs
import Mathlib.Data.Int.ModEq
import Mathlib.Tactic.LinearCombination
import Mathlib.Tactic.Linarith
import Mathlib.Tactic.NormNum
import Mathlib.Tactic.Positivity
import Zigix.Crypto.Field25519
import Zigix.Lib.Loop
import Zigix.Lib.Radix

/-!
# Field arithmetic: bounds and values

* `feCarry_spec` : a carry pass takes the number apart at `2^256`; the limbs become digits, and the quotient is added
  38 times;
* `feMul_spec`, `feInv_spec` : products and inverses; `fePack_spec` : the canonical encoding.
-/

namespace Zigix.Crypto

open Bytes Radix

/-- The number that a field element represents. -/
def feValue (a : Fe) : ℤ := value (2 ^ 16) 16 a

/-- `2^255 - 19`. -/
def prime25519 : ℤ := 2 ^ 255 - 19

/-- Every limb is below `2^n` in absolute value. -/
def Below (n : ℕ) (a : Fe) : Prop := ∀ i < 16, |a i| < 2 ^ n

theorem i64_of_lt {x : ℤ} (h : -2 ^ 63 ≤ x ∧ x < 2 ^ 63) : i64 x = some x := if_pos h

/-! ## Carries -/

section Carry
variable {o : Fe} {i : ℕ}

theorem carryLimb_eq (hi : i < 16) (h : |o i| < 2 ^ 62 + 2 ^ 48)
    (h' : |o (if i < 15 then i + 1 else 0)| < 2 ^ 62 + 2 ^ 48) :
    carryLimb i o = some (Function.update (Function.update o i (o i % 2 ^ 16)) (if i < 15 then i + 1 else 0)
      (o (if i < 15 then i + 1 else 0) + if i = 15 then 38 * (o i / 2 ^ 16) else o i / 2 ^ 16)) := by
  obtain ⟨next, hnext⟩ : ∃ next, next = if i < 15 then i + 1 else 0 := ⟨_, rfl⟩
  have hne : next ≠ i := by
    rw [hnext]
    split <;> omega
  rw [← hnext] at h' ⊢
  rw [abs_lt] at h h'
  have hx : i64 (o i + 2 ^ 16) = some (o i + 2 ^ 16) := i64_of_lt (by omega)
  have hc : (o i + 2 ^ 16) / 2 ^ 16 = o i / 2 ^ 16 + 1 := by omega
  have hz : o i + 2 ^ 16 - (o i / 2 ^ 16 + 1) * 2 ^ 16 = o i % 2 ^ 16 := by omega
  obtain ⟨q, hq⟩ : ∃ q, q = o i / 2 ^ 16 := ⟨_, rfl⟩
  have hbound : -2 ^ 47 ≤ q ∧ q < 2 ^ 47 := by omega
  have h1 : i64 (q + 1 - 1) = some q := by
    rw [add_sub_cancel_right]
    exact i64_of_lt (by omega)
  have h37 : i64 (37 * q) = some (37 * q) := i64_of_lt (by omega)
  have hadd : i64 (q + if i = 15 then 37 * q else 0) = some (if i = 15 then 38 * q else q) := by
    split
    · rw [show q + 37 * q = 38 * q by ring]
      exact i64_of_lt (by omega)
    · rw [add_zero]
      exact i64_of_lt (by omega)
  have hy : i64 (o next + if i = 15 then 38 * q else q) = some (o next + if i = 15 then 38 * q else q) := by
    split <;> exact i64_of_lt (by omega)
  have hrem : i64 (o i % 2 ^ 16) = some (o i % 2 ^ 16) := i64_of_lt (by omega)
  unfold carryLimb
  rw [hx]
  simp only [Option.bind_eq_bind, Option.bind_some, Function.update_self, hc, ← hq, h1, h37, hadd, ← hnext,
    Function.update_of_ne hne, hy, Function.update_of_ne hne.symm]
  rw [hq, hz, hrem]
  refine congrArg some (funext fun j => ?_)
  by_cases hj : j = i
  · subst hj
    rw [Function.update_self, Function.update_of_ne hne.symm, Function.update_self]
  · by_cases hn : j = next
    · subst hn
      rw [Function.update_of_ne hj, Function.update_self, Function.update_self]
    · rw [Function.update_of_ne hj, Function.update_of_ne hn, Function.update_of_ne hj, Function.update_of_ne hn,
        Function.update_of_ne hj]

theorem forRange_succ (n : ℕ) (body : ℕ → Fe → Option Fe) (o : Fe) :
    forRange (n + 1) body o = (forRange n body o).bind (body n) := by
  unfold forRange
  rw [List.range_succ, List.foldlM_append]
  simp

/-- The result of a carry pass over limbs that represent `v`. -/
structure Passed (v : ℤ) (o : Fe) : Prop where
  digits : ∀ j, 0 < j → j < 16 → 0 ≤ o j ∧ o j < 2 ^ 16
  first : 0 ≤ o 0 - 38 * (v / 2 ^ 256) ∧ o 0 - 38 * (v / 2 ^ 256) < 2 ^ 16
  value : feValue o = v % 2 ^ 256 + 38 * (v / 2 ^ 256)

/-- The limbs after `k` turns of a carry pass: digits below position `k`, the carry at `k`. -/
structure Passing (o : Fe) (k : ℕ) (o' : Fe) : Prop where
  digits : ∀ j < k, 0 ≤ o' j ∧ o' j < 2 ^ 16
  carry : |o' k| < 2 ^ 62 + 2 ^ 48
  rest : ∀ j, k < j → o' j = o j
  value : feValue o' = feValue o

theorem Passing.step {o o' : Fe} {k : ℕ} (h : Below 62 o) (hp : Passing o k o') (hk : k < 15) :
    ∃ o'', carryLimb k o' = some o'' ∧ Passing o (k + 1) o'' := by
  have hnext : o' (k + 1) = o (k + 1) := hp.rest _ (by omega)
  have hlt := abs_lt.1 (h (k + 1) (by omega))
  have hcarry := abs_lt.1 hp.carry
  have heq := carryLimb_eq (i := k) (by omega) hp.carry (by
    rw [if_pos hk, hnext, abs_lt]
    omega)
  rw [if_pos hk, if_neg (by omega)] at heq
  refine ⟨_, heq, fun j hj => ?_, ?_, fun j hj => ?_, ?_⟩
  · rw [Function.update_of_ne (by omega)]
    by_cases hjk : j = k
    · subst hjk
      rw [Function.update_self]
      exact ⟨Int.emod_nonneg _ (by norm_num), Int.emod_lt_of_pos _ (by norm_num)⟩
    · rw [Function.update_of_ne hjk]
      exact hp.digits j (by omega)
  · rw [Function.update_self, hnext, abs_lt]
    omega
  · rw [Function.update_of_ne (by omega), Function.update_of_ne (by omega)]
    exact hp.rest j (by omega)
  · rw [feValue, value_update (by omega), value_update (by omega), Function.update_of_ne (by omega), ← hp.value, feValue,
      pow_succ (2 ^ 16 : ℤ) k]
    have hdm := Int.emod_add_mul_ediv (o' k) (2 ^ 16)
    linear_combination (2 ^ 16) ^ k * hdm

theorem forRange_rule {body : ℕ → Fe → Option Fe} (P : ℕ → Fe → Prop) (n : ℕ) {o : Fe} (h : P 0 o)
    (step : ∀ i o, i < n → P i o → ∃ o', body i o = some o' ∧ P (i + 1) o') :
    ∃ o', forRange n body o = some o' ∧ P n o' := Loop.foldlM_range P n h step

theorem feCarry_spec {o : Fe} (h : Below 62 o) : ∃ o', feCarry o = some o' ∧ Passed (feValue o) o' := by
  have hstart : Passing o 0 o := by
    refine ⟨fun j hj => absurd hj (Nat.not_lt_zero j), (h 0 (by omega)).trans (by norm_num), fun _ _ => rfl, rfl⟩
  obtain ⟨o₁, hrun, hp⟩ := forRange_rule (Passing o) 15 hstart fun i o' hi hp => hp.step h hi
  have h0 := hp.digits 0 (by omega)
  have hlast := carryLimb_eq (i := 15) (by omega) hp.carry (by
    rw [if_neg (by omega), abs_lt]
    omega)
  rw [if_neg (by omega), if_pos rfl] at hlast
  obtain ⟨q, hq⟩ : ∃ q, q = o₁ 15 / 2 ^ 16 := ⟨_, rfl⟩
  rw [← hq] at hlast
  -- the digits, before the quotient is added to the first one
  have hdigits : ∀ j < 16, 0 ≤ Function.update o₁ 15 (o₁ 15 % 2 ^ 16) j ∧
      Function.update o₁ 15 (o₁ 15 % 2 ^ 16) j < 2 ^ 16 := by
    intro j hj
    by_cases h15 : j = 15
    · subst h15
      rw [Function.update_self]
      exact ⟨Int.emod_nonneg _ (by norm_num), Int.emod_lt_of_pos _ (by norm_num)⟩
    · rw [Function.update_of_ne h15]
      exact hp.digits j (by omega)
  have hsplit : feValue o = value (2 ^ 16) 16 (Function.update o₁ 15 (o₁ 15 % 2 ^ 16)) + (2 ^ 16) ^ 16 * q := by
    have hdm := Int.emod_add_mul_ediv (o₁ 15) (2 ^ 16)
    rw [← hp.value, feValue, value_update (by omega), hq]
    linear_combination -(2 ^ 16) ^ 15 * hdm
  obtain ⟨hdiv, hmod⟩ := div_mod_of_digits (by norm_num) hdigits q
  rw [← hsplit, ← pow_mul] at hdiv hmod
  have hpass : feCarry o = some (Function.update (Function.update o₁ 15 (o₁ 15 % 2 ^ 16)) 0 (o₁ 0 + 38 * q)) := by
    rw [feCarry, forRange_succ, hrun]
    exact hlast
  refine ⟨_, hpass, fun j hj hj' => ?_, ?_, ?_⟩
  · rw [Function.update_of_ne (by omega)]
    exact hdigits j hj'
  · have hquot : feValue o / 2 ^ 256 = q := hdiv
    rw [hquot, Function.update_self, add_sub_cancel_right]
    exact h0
  · have hquot : feValue o / 2 ^ 256 = q := hdiv
    have hrem : feValue o % 2 ^ 256 = _ := hmod
    rw [hquot, hrem, feValue, value_update (by omega), Function.update_of_ne (by omega), pow_zero, mul_one,
      add_sub_cancel_left]

theorem modEq_fold (v q : ℤ) : v + 2 ^ 256 * q ≡ v + 38 * q [ZMOD prime25519] := by
  refine (Int.modEq_iff_dvd.2 ⟨-2 * q, ?_⟩)
  unfold prime25519
  ring

theorem Passed.modEq {v : ℤ} (h : Passed v o) : feValue o ≡ v [ZMOD prime25519] := by
  have hfold := modEq_fold (v % 2 ^ 256) (v / 2 ^ 256)
  rw [Int.emod_add_mul_ediv, ← h.value] at hfold
  exact hfold.symm

theorem Passed.below {v : ℤ} {n k : ℕ} (h : Passed v o) (hq : |38 * (v / 2 ^ 256)| ≤ 2 ^ k) (hn : 2 ^ 16 + 2 ^ k ≤ 2 ^ n) :
    Below n o := by
  have hpos : (0 : ℤ) < 2 ^ k := by positivity
  have hn' : (2 : ℤ) ^ 16 + 2 ^ k ≤ 2 ^ n := by exact_mod_cast hn
  have hq := abs_le.1 hq
  intro j hj
  rw [abs_lt]
  by_cases h0 : j = 0
  · subst h0
    obtain ⟨hlo, hhi⟩ := h.first
    constructor <;> linarith
  · obtain ⟨hlo, hhi⟩ := h.digits j (by omega) hj
    constructor <;> linarith

theorem feValue_abs {n : ℕ} (h : Below n o) : |feValue o| < 2 ^ n * 2 ^ 241 := by
  have hterm : ∀ i ∈ Finset.range 16, |o i * (2 ^ 16) ^ i| ≤ 2 ^ n * (2 ^ 16) ^ i := by
    intro i hi
    rw [abs_mul, abs_of_pos (show (0 : ℤ) < (2 ^ 16) ^ i by positivity)]
    exact mul_le_mul_of_nonneg_right (h i (Finset.mem_range.1 hi)).le (by positivity)
  have hsum : (∑ i ∈ Finset.range 16, ((2 : ℤ) ^ 16) ^ i) < 2 ^ 241 := by
    simp only [Finset.sum_range_succ, Finset.sum_range_zero]
    norm_num
  have htriangle : |feValue o| ≤ ∑ i ∈ Finset.range 16, |o i * (2 ^ 16) ^ i| := by
    unfold feValue value
    exact Finset.abs_sum_le_sum_abs _ _
  calc |feValue o| ≤ ∑ i ∈ Finset.range 16, |o i * (2 ^ 16) ^ i| := htriangle
    _ ≤ ∑ i ∈ Finset.range 16, 2 ^ n * (2 ^ 16) ^ i := Finset.sum_le_sum hterm
    _ = 2 ^ n * ∑ i ∈ Finset.range 16, (2 ^ 16) ^ i := (Finset.mul_sum ..).symm
    _ < 2 ^ n * 2 ^ 241 := mul_lt_mul_of_pos_left hsum (by positivity)

theorem quotient_abs {n : ℕ} (h : Below (n + 15) o) : |feValue o / 2 ^ 256| ≤ 2 ^ n := by
  have habs := abs_lt.1 (feValue_abs h)
  have hpow : (2 : ℤ) ^ (n + 15) * 2 ^ 241 = 2 ^ n * 2 ^ 256 := by rw [← pow_add, ← pow_add]
  rw [hpow] at habs
  generalize (2 : ℤ) ^ n = x at *
  rw [abs_le]
  omega

theorem Passed.quotient {v k : ℤ} (h : Passed v o) (hk : |38 * (v / 2 ^ 256)| ≤ k) (hlt : k < 2 ^ 256) :
    |feValue o / 2 ^ 256| ≤ 1 := by
  have hk := abs_le.1 hk
  have h0 := Int.emod_nonneg v (show (2 : ℤ) ^ 256 ≠ 0 by norm_num)
  have h1 := Int.emod_lt_of_pos v (show (0 : ℤ) < 2 ^ 256 by norm_num)
  rw [h.value, abs_le]
  generalize 38 * (v / 2 ^ 256) = y at *
  generalize v % 2 ^ 256 = z at *
  omega

end Carry

/-! ## Products -/

section Product
variable {a b t : Fe}

/-- Every limb is at most `n * 2^48` in absolute value, at all positions. -/
def Bounded (n : ℕ) (t : Fe) : Prop := ∀ k, |t k| ≤ n * 2 ^ 48

theorem accumulate_spec {n k : ℕ} {x : ℤ} (h : Bounded n t) (hn : n < 256) (hx : |x| ≤ 2 ^ 48) :
    accumulate k x t = some (Function.update t k (t k + x)) ∧ Bounded (n + 1) (Function.update t k (t k + x)) := by
  have hlt : (n : ℤ) < 256 := by exact_mod_cast hn
  have hk := abs_le.1 (h k)
  have hx := abs_le.1 hx
  refine ⟨?_, fun j => ?_⟩
  · unfold accumulate
    rw [i64_of_lt (by constructor <;> linarith)]
    rfl
  · push_cast
    by_cases hj : j = k
    · subst hj
      rw [Function.update_self, abs_le]
      constructor <;> linarith
    · rw [Function.update_of_ne hj]
      linarith [h j]

theorem mul_abs (ha : Below 24 a) (hb : Below 24 b) {i j : ℕ} (hi : i < 16) (hj : j < 16) : |a i * b j| ≤ 2 ^ 48 := by
  rw [abs_mul]
  calc |a i| * |b j| ≤ 2 ^ 24 * 2 ^ 24 := mul_le_mul (ha i hi).le (hb j hj).le (abs_nonneg _) (by norm_num)
    _ = 2 ^ 48 := by norm_num

theorem productRow_spec {i n : ℕ} (ha : Below 24 a) (hb : Below 24 b) (hi : i < 16) (h : Bounded n t) (hn : n + 16 ≤ 256) :
    ∃ t', forRange 16 (fun j t => do accumulate (i + j) (← i64 (a i * b j)) t) t = some t' ∧ Bounded (n + 16) t' ∧
      value (2 ^ 16) 31 t' = value (2 ^ 16) 31 t + ∑ j ∈ Finset.range 16, a i * b j * (2 ^ 16) ^ (i + j) := by
  refine forRange_rule (fun m t' => Bounded (n + m) t' ∧
    value (2 ^ 16) 31 t' = value (2 ^ 16) 31 t + ∑ j ∈ Finset.range m, a i * b j * (2 ^ 16) ^ (i + j)) 16
    ⟨h, by simp⟩ ?_
  rintro j t' hj ⟨hbound, hval⟩
  have hx := mul_abs ha hb hi hj
  obtain ⟨hacc, hnext⟩ := accumulate_spec (k := i + j) hbound (by omega) hx
  refine ⟨_, ?_, hnext, ?_⟩
  · have hx := abs_le.1 hx
    rw [i64_of_lt (by constructor <;> linarith)]
    exact hacc
  · rw [value_update (by omega), hval, Finset.sum_range_succ, add_sub_cancel_left, add_assoc]

theorem feProduct_spec (ha : Below 24 a) (hb : Below 24 b) :
    ∃ t, feProduct a b = some t ∧ Bounded 256 t ∧ value (2 ^ 16) 31 t = feValue a * feValue b := by
  have hzero : value (2 ^ 16) 31 feZero = 0 := Finset.sum_eq_zero fun i _ => zero_mul _
  rw [feValue, feValue, value_mul]
  refine forRange_rule (fun m t => Bounded (m * 16) t ∧
    value (2 ^ 16) 31 t = ∑ i ∈ Finset.range m, ∑ j ∈ Finset.range 16, a i * b j * (2 ^ 16) ^ (i + j)) 16
    ⟨fun k => by simp [feZero], by rw [hzero]; rfl⟩ ?_
  rintro i t hi ⟨hbound, hval⟩
  obtain ⟨t', hrow, hbound', hval'⟩ := productRow_spec ha hb hi hbound (by omega)
  refine ⟨t', hrow, ?_, ?_⟩
  · rwa [Nat.succ_mul]
  · rw [hval', hval]
    exact (Finset.sum_range_succ (fun i => ∑ j ∈ Finset.range 16, a i * b j * (2 ^ 16) ^ (i + j)) i).symm

/-- The limbs after `m` turns of the fold. -/
structure Folding (t : Fe) (m : ℕ) (t' : Fe) : Prop where
  rest : ∀ j, m ≤ j → t' j = t j
  bound : ∀ j < m, |t' j| ≤ 39 * 2 ^ 56
  value : value (2 ^ 16) 16 t' = value (2 ^ 16) 16 t + 38 * value (2 ^ 16) m fun k => t (16 + k)

theorem Folding.step {t' : Fe} {m : ℕ} (ht : Bounded 256 t) (h : Folding t m t') (hm : m < 15) :
    ∃ t'', (do accumulate m (← i64 (38 * t' (16 + m))) t') = some t'' ∧ Folding t (m + 1) t'' := by
  have hself : t' m = t m := h.rest m le_rfl
  have hhigh : t' (16 + m) = t (16 + m) := h.rest _ (by omega)
  have h0 := abs_le.1 (ht m)
  have h1 := abs_le.1 (ht (16 + m))
  push_cast at h0 h1
  have hrun : (do accumulate m (← i64 (38 * t' (16 + m))) t') =
      some (Function.update t' m (t m + 38 * t (16 + m))) := by
    rw [hhigh, i64_of_lt (by constructor <;> linarith)]
    unfold accumulate
    simp only [Option.bind_eq_bind, Option.bind_some]
    rw [hself, i64_of_lt (by constructor <;> linarith)]
    rfl
  refine ⟨_, hrun, fun j hj => ?_, fun j hj => ?_, ?_⟩
  · rw [Function.update_of_ne (by omega)]
    exact h.rest j (by omega)
  · by_cases hjm : j = m
    · subst hjm
      rw [Function.update_self, abs_le]
      constructor <;> linarith
    · rw [Function.update_of_ne hjm]
      exact h.bound j (by omega)
  · rw [value_update (by omega), h.value, hself, value_succ (n := m)]
    ring

theorem feFold_spec (ht : Bounded 256 t) :
    ∃ o, feFold t = some o ∧ Below 62 o ∧ feValue o ≡ value (2 ^ 16) 31 t [ZMOD prime25519] := by
  have hstart : Folding t 0 t := ⟨fun _ _ => rfl, fun j hj => absurd hj (Nat.not_lt_zero j), by simp [value_zero]⟩
  obtain ⟨o, hrun, hf⟩ := forRange_rule (Folding t) 15 hstart fun m t' hm h => h.step ht hm
  refine ⟨o, hrun, fun j hj => ?_, ?_⟩
  · by_cases hj' : j < 15
    · exact (hf.bound j hj').trans_lt (by norm_num)
    · rw [hf.rest j (by omega)]
      exact (ht j).trans_lt (by norm_num)
  · have hsplit : value (2 ^ 16) 31 t = value (2 ^ 16) 16 t + 2 ^ 256 * value (2 ^ 16) 15 fun k => t (16 + k) := by
      have h := value_add (B := 2 ^ 16) (n := 16) (a := t) 15
      rw [← pow_mul] at h
      exact h
    rw [feValue, hf.value, hsplit]
    exact (modEq_fold _ _).symm

/-- **Products** do not overflow and leave small limbs. -/
theorem feMul_spec (ha : Below 24 a) (hb : Below 24 b) :
    ∃ c, feMul a b = some c ∧ feValue c ≡ feValue a * feValue b [ZMOD prime25519] ∧ Below 17 c := by
  obtain ⟨t, hprod, hbound, hval⟩ := feProduct_spec ha hb
  obtain ⟨o, hfold, hbelow, hmod⟩ := feFold_spec hbound
  obtain ⟨o₁, hcarry₁, hpass₁⟩ := feCarry_spec hbelow
  have hq₁ : |38 * (feValue o / 2 ^ 256)| ≤ 2 ^ 53 := by
    have hq := quotient_abs (n := 47) hbelow
    rw [abs_mul, abs_of_pos (show (0 : ℤ) < 38 by norm_num)]
    linarith
  obtain ⟨o₂, hcarry₂, hpass₂⟩ := feCarry_spec (hpass₁.below hq₁ (n := 62) (by norm_num))
  have hq₂ : |38 * (feValue o₁ / 2 ^ 256)| ≤ 2 ^ 6 := by
    have hq := hpass₁.quotient hq₁ (by norm_num)
    rw [abs_mul, abs_of_pos (show (0 : ℤ) < 38 by norm_num)]
    linarith
  refine ⟨o₂, ?_, ?_, hpass₂.below hq₂ (by norm_num)⟩
  · exact Option.bind_eq_some_iff.2 ⟨t, hprod, Option.bind_eq_some_iff.2 ⟨o, hfold,
      Option.bind_eq_some_iff.2 ⟨o₁, hcarry₁, hcarry₂⟩⟩⟩
  · rw [← hval]
    exact (hpass₂.modEq.trans hpass₁.modEq).trans hmod

end Product

/-! ## Sums and inverses -/

section Sums
variable {a b : Fe}

theorem forRange_fill {f : ℕ → ℤ} (h : ∀ i < 16, i64 (f i) = some (f i)) :
    ∃ o, forRange 16 (fun i o => do return Function.update o i (← i64 (f i))) feZero = some o ∧ ∀ i < 16, o i = f i := by
  refine forRange_rule (fun k o => ∀ i < k, o i = f i) 16 (fun i hi => absurd hi (Nat.not_lt_zero i)) ?_
  intro k o hk ho
  refine ⟨Function.update o k (f k), by rw [h k hk]; rfl, fun i hi => ?_⟩
  by_cases hik : i = k
  · subst hik
    exact Function.update_self ..
  · rw [Function.update_of_ne hik]
    exact ho i (by omega)

theorem feAdd_spec {n : ℕ} (ha : Below n a) (hb : Below n b) (hn : n ≤ 62) :
    ∃ c, feAdd a b = some c ∧ feValue c = feValue a + feValue b ∧ Below (n + 1) c := by
  have hpow : (2 : ℤ) ^ n ≤ 2 ^ 62 := pow_le_pow_right₀ (by norm_num) hn
  have hlt : ∀ i < 16, -(2 ^ n + 2 ^ n) < a i + b i ∧ a i + b i < 2 ^ n + 2 ^ n := by
    intro i hi
    have h1 := abs_lt.1 (ha i hi)
    have h2 := abs_lt.1 (hb i hi)
    constructor <;> linarith
  obtain ⟨c, hrun, hc⟩ := forRange_fill fun i hi => i64_of_lt (x := a i + b i) (by
    have := hlt i hi
    constructor <;> linarith)
  refine ⟨c, hrun, ?_, fun i hi => ?_⟩
  · rw [feValue, value_congr hc, feValue, feValue]
    simp only [value, add_mul, Finset.sum_add_distrib]
  · rw [hc i hi, abs_lt, pow_succ, mul_two]
    exact hlt i hi

theorem feSub_spec {n : ℕ} (ha : Below n a) (hb : Below n b) (hn : n ≤ 62) :
    ∃ c, feSub a b = some c ∧ feValue c = feValue a - feValue b ∧ Below (n + 1) c := by
  have hpow : (2 : ℤ) ^ n ≤ 2 ^ 62 := pow_le_pow_right₀ (by norm_num) hn
  have hlt : ∀ i < 16, -(2 ^ n + 2 ^ n) < a i - b i ∧ a i - b i < 2 ^ n + 2 ^ n := by
    intro i hi
    have h1 := abs_lt.1 (ha i hi)
    have h2 := abs_lt.1 (hb i hi)
    constructor <;> linarith
  obtain ⟨c, hrun, hc⟩ := forRange_fill fun i hi => i64_of_lt (x := a i - b i) (by
    have := hlt i hi
    constructor <;> linarith)
  refine ⟨c, hrun, ?_, fun i hi => ?_⟩
  · rw [feValue, value_congr hc, feValue, feValue]
    simp only [value, sub_mul, Finset.sum_sub_distrib]
  · rw [hc i hi, abs_lt, pow_succ, mul_two]
    exact hlt i hi

theorem Below.mono {n k : ℕ} (h : Below n a) (hnk : n ≤ k) : Below k a :=
  fun i hi => (h i hi).trans_le (pow_le_pow_right₀ (by norm_num) hnk)

/-- The exponent after the turns from `k - 1` down to 0 of the loop of `fe_inv`. -/
def expAfter : ℕ → ℕ → ℕ
  | 0, e => e
  | i + 1, e => expAfter i (2 * e + if i ≠ 2 ∧ i ≠ 4 then 1 else 0)

theorem expAfter_eq : expAfter 254 1 = 2 ^ 255 - 21 := by decide +kernel

theorem invLoop_spec (ha : Below 24 a) (k e : ℕ) {c : Fe} (hc : Below 24 c)
    (hval : feValue c ≡ feValue a ^ e [ZMOD prime25519]) :
    ∃ c', invLoop a k c = some c' ∧ Below 24 c' ∧ feValue c' ≡ feValue a ^ expAfter k e [ZMOD prime25519] := by
  induction k generalizing c e with
  | zero => exact ⟨c, rfl, hc, hval⟩
  | succ i ih =>
    obtain ⟨c₁, hsq, hval₁, hb₁⟩ := feMul_spec hc hc
    have hpow₁ : feValue c₁ ≡ feValue a ^ (2 * e) [ZMOD prime25519] := by
      rw [two_mul, pow_add]
      exact hval₁.trans (hval.mul hval)
    by_cases hi : i ≠ 2 ∧ i ≠ 4
    · obtain ⟨c₂, hmul, hval₂, hb₂⟩ := feMul_spec (hb₁.mono (by norm_num)) ha
      have hpow₂ : feValue c₂ ≡ feValue a ^ (2 * e + 1) [ZMOD prime25519] := by
        rw [pow_succ]
        exact hval₂.trans (hpow₁.mul_right _)
      obtain ⟨c', hrun, hb', hval'⟩ := ih (2 * e + 1) (hb₂.mono (by norm_num)) hpow₂
      refine ⟨c', ?_, hb', ?_⟩
      · refine Option.bind_eq_some_iff.2 ⟨c₁, hsq, Option.bind_eq_some_iff.2 ⟨c₂, ?_, hrun⟩⟩
        rw [if_pos hi]
        exact hmul
      · rw [expAfter, if_pos hi]
        exact hval'
    · obtain ⟨c', hrun, hb', hval'⟩ := ih (2 * e) (hb₁.mono (by norm_num)) hpow₁
      refine ⟨c', ?_, hb', ?_⟩
      · refine Option.bind_eq_some_iff.2 ⟨c₁, hsq, Option.bind_eq_some_iff.2 ⟨c₁, ?_, hrun⟩⟩
        rw [if_neg hi]
      · rw [expAfter, if_neg hi]
        exact hval'

/-- **Inverses**: the power `2^255 - 21`. -/
theorem feInv_spec (ha : Below 24 a) :
    ∃ c, feInv a = some c ∧ feValue c ≡ feValue a ^ (2 ^ 255 - 21) [ZMOD prime25519] := by
  obtain ⟨c, hrun, -, hval⟩ := invLoop_spec ha 254 1 ha (by rw [pow_one])
  rw [expAfter_eq] at hval
  exact ⟨c, hrun, hval⟩

end Sums

/-! ## The canonical encoding -/

section Pack
variable {t : Fe}

def Digits (t : Fe) : Prop := ∀ j < 16, 0 ≤ t j ∧ t j < 2 ^ 16

theorem Digits.bounds (h : Digits t) : 0 ≤ feValue t ∧ feValue t < 2 ^ 256 := by
  have hb := value_bounds (by norm_num) h
  rw [← pow_mul] at hb
  exact hb

theorem threePasses_spec {n : Fe} (h : Below 24 n) : ∃ t₁ t₂ t, feCarry n = some t₁ ∧ feCarry t₁ = some t₂ ∧
    feCarry t₂ = some t ∧ Digits t ∧ feValue t ≡ feValue n [ZMOD prime25519] := by
  obtain ⟨t₁, hrun₁, hp₁⟩ := feCarry_spec (h.mono (by norm_num))
  have hq₁ : |38 * (feValue n / 2 ^ 256)| ≤ 2 ^ 15 := by
    have hq := quotient_abs (n := 9) h
    rw [abs_mul, abs_of_pos (show (0 : ℤ) < 38 by norm_num)]
    linarith
  obtain ⟨t₂, hrun₂, hp₂⟩ := feCarry_spec (hp₁.below hq₁ (n := 62) (by norm_num))
  have hq₂ := hp₁.quotient hq₁ (by norm_num)
  have hq₂' : |38 * (feValue t₁ / 2 ^ 256)| ≤ 2 ^ 15 := by
    rw [abs_mul, abs_of_pos (show (0 : ℤ) < 38 by norm_num)]
    linarith
  obtain ⟨t, hrun₃, hp₃⟩ := feCarry_spec (hp₂.below hq₂' (n := 62) (by norm_num))
  -- a quotient that is not zero leaves a number far from the other end
  have hrange : 0 ≤ feValue t₂ ∧ feValue t₂ < 2 ^ 256 := by
    have hv₁ := hp₁.value
    have hv₂ := hp₂.value
    have h0 := Int.emod_nonneg (feValue n) (show (2 : ℤ) ^ 256 ≠ 0 by norm_num)
    have h1 := Int.emod_lt_of_pos (feValue n) (show (0 : ℤ) < 2 ^ 256 by norm_num)
    have hdm := Int.emod_add_mul_ediv (feValue t₁) (2 ^ 256)
    have g0 := Int.emod_nonneg (feValue t₁) (show (2 : ℤ) ^ 256 ≠ 0 by norm_num)
    have g1 := Int.emod_lt_of_pos (feValue t₁) (show (0 : ℤ) < 2 ^ 256 by norm_num)
    rw [abs_le] at hq₁ hq₂
    generalize 38 * (feValue n / 2 ^ 256) = x at *
    generalize feValue n % 2 ^ 256 = y at *
    generalize feValue t₁ / 2 ^ 256 = q at *
    generalize feValue t₁ % 2 ^ 256 = z at *
    obtain rfl | rfl | rfl : q = -1 ∨ q = 0 ∨ q = 1 := by omega
    all_goals omega
  have hq₃ : feValue t₂ / 2 ^ 256 = 0 := Int.ediv_eq_zero_of_lt hrange.1 hrange.2
  refine ⟨t₁, t₂, t, hrun₁, hrun₂, hrun₃, fun j hj => ?_, ?_⟩
  · by_cases h0 : j = 0
    · subst h0
      have hf := hp₃.first
      rw [hq₃] at hf
      simpa using hf
    · exact hp₃.digits j (by omega) hj
  · exact (hp₃.modEq.trans hp₂.modEq).trans hp₁.modEq

theorem feCswap_fst {p q : Fe} {i : ℕ} (hp : -2 ^ 63 ≤ p i ∧ p i < 2 ^ 63) (hq : -2 ^ 63 ≤ q i ∧ q i < 2 ^ 63) :
    (feCswap p q 0).1 i = p i ∧ (feCswap p q 1).1 i = q i := by
  have hback : ∀ {x : ℤ}, -2 ^ 63 ≤ x ∧ x < 2 ^ 63 → (BitVec.ofInt 64 x).toInt = x := by
    intro x hx
    rw [BitVec.toInt_ofInt]
    exact Int.bmod_eq_of_le (by norm_num; omega) (by norm_num; omega)
  have hzero : ~~~(BitVec.ofInt 64 0 - 1) = 0#64 := by decide
  have hones : ~~~(BitVec.ofInt 64 1 - 1) = BitVec.allOnes 64 := by decide
  unfold feCswap
  dsimp only
  rw [hzero, hones, BitVec.zero_and, BitVec.xor_zero, BitVec.allOnes_and, ← BitVec.xor_assoc, BitVec.xor_self,
    BitVec.zero_xor]
  exact ⟨hback hp, hback hq⟩

def primeDigit (j : ℕ) : ℤ := if j = 0 then 0xffed else if j = 15 then 0x7fff else 0xffff

theorem value_primeDigit : value (2 ^ 16) 16 primeDigit = prime25519 := by
  unfold prime25519
  simp only [value, Finset.sum_range_succ, Finset.sum_range_zero, primeDigit]
  norm_num

/-- The limbs after `k` turns of the subtraction of the prime. -/
structure Borrowing (t : Fe) (k : ℕ) (m : Fe) : Prop where
  digits : ∀ j < k, 0 ≤ m j ∧ m j < 2 ^ 16
  raw : -2 ^ 16 ≤ m k ∧ m k < 2 ^ 16
  value : value (2 ^ 16) (k + 1) m = value (2 ^ 16) (k + 1) fun j => t j - primeDigit j

theorem Borrowing.step {m : Fe} {k : ℕ} (ht : Digits t) (h : Borrowing t k m) (hk : k < 15) :
    ∃ m', borrowLimb t k m = some m' ∧ Borrowing t (k + 1) m' := by
  obtain ⟨hraw, hraw'⟩ := h.raw
  obtain ⟨ht0, ht1⟩ := ht (k + 1) (by omega)
  have hdigit : primeDigit (k + 1) = if k + 1 = 15 then 0x7fff else 0xffff := by
    unfold primeDigit
    rw [if_neg (by omega)]
  have hp : 0 ≤ primeDigit (k + 1) ∧ primeDigit (k + 1) < 2 ^ 16 := by
    rw [hdigit]
    split <;> norm_num
  have hborrow : m k % 2 ^ 16 = m k + m k / 2 ^ 16 % 2 * 2 ^ 16 ∧ 0 ≤ m k / 2 ^ 16 % 2 ∧ m k / 2 ^ 16 % 2 ≤ 1 := by omega
  obtain ⟨w, hw⟩ : ∃ w, w = m k / 2 ^ 16 % 2 := ⟨_, rfl⟩
  rw [← hw] at hborrow
  have hrun : borrowLimb t k m = some (Function.update (Function.update m (k + 1) (t (k + 1) - primeDigit (k + 1) - w)) k
      (m k % 2 ^ 16)) := by
    unfold borrowLimb
    simp only [Nat.add_sub_cancel, ← hdigit, ← hw]
    rw [i64_of_lt (by constructor <;> linarith)]
    simp only [Option.bind_eq_bind, Option.bind_some]
    rw [i64_of_lt (by constructor <;> linarith)]
    simp only [Option.bind_some, Function.update_of_ne (show k ≠ k + 1 by omega)]
    rfl
  refine ⟨_, hrun, fun j hj => ?_, ?_, ?_⟩
  · by_cases hjk : j = k
    · subst hjk
      rw [Function.update_self]
      exact ⟨Int.emod_nonneg _ (by norm_num), Int.emod_lt_of_pos _ (by norm_num)⟩
    · rw [Function.update_of_ne hjk, Function.update_of_ne (by omega)]
      exact h.digits j (by omega)
  · rw [Function.update_of_ne (by omega), Function.update_self]
    constructor <;> linarith
  · have hlow : Radix.value (2 ^ 16) (k + 1)
        (Function.update (Function.update m (k + 1) (t (k + 1) - primeDigit (k + 1) - w)) k (m k % 2 ^ 16)) =
        Radix.value (2 ^ 16) (k + 1) m + w * 2 ^ 16 * (2 ^ 16) ^ k := by
      rw [value_update (by omega), Function.update_of_ne (by omega), hborrow.1,
        value_congr fun j hj => Function.update_of_ne (show j ≠ k + 1 by omega) _ m]
      ring
    rw [value_succ, hlow, h.value, value_succ (n := k + 1), Function.update_of_ne (by omega), Function.update_self,
      pow_succ (2 ^ 16 : ℤ) k]
    ring

theorem minusPrime25519_spec (ht : Digits t) : ∃ m, minusPrime25519 t = some m ∧ Borrowing t 15 m := by
  obtain ⟨h0, h1⟩ := ht 0 (by omega)
  have hfirst : i64 (t 0 - 0xffed) = some (t 0 - 0xffed) := i64_of_lt (by constructor <;> linarith)
  have hstart : Borrowing t 0 (Function.update feZero 0 (t 0 - 0xffed)) := by
    refine ⟨fun j hj => absurd hj (Nat.not_lt_zero j), ?_, ?_⟩
    · rw [Function.update_self]
      constructor <;> linarith
    · rw [value_succ, value_zero, value_succ, value_zero, Function.update_self]
      rfl
  obtain ⟨m, hrun, hm⟩ := forRange_rule (Borrowing t) 15 hstart fun k m hk h => h.step ht hk
  exact ⟨m, Option.bind_eq_some_iff.2 ⟨_, hfirst, hrun⟩, hm⟩

theorem reduceOnce_spec (ht : Digits t) : ∃ t', reduceOnce t = some t' ∧ Digits t' ∧
    feValue t' = if prime25519 ≤ feValue t then feValue t - prime25519 else feValue t := by
  obtain ⟨m, hrun, hm⟩ := minusPrime25519_spec ht
  obtain ⟨hraw, hraw'⟩ := hm.raw
  have hsub : value (2 ^ 16) 16 m = feValue t - prime25519 := by
    have hdiff : (value (2 ^ 16) 16 fun j => t j - primeDigit j) = feValue t - prime25519 := by
      rw [← value_primeDigit, feValue]
      simp only [value, sub_mul, Finset.sum_sub_distrib]
    rw [← hdiff]
    exact hm.value
  have hlow := value_bounds (show (0 : ℤ) < 2 ^ 16 by norm_num) hm.digits
  have htop : value (2 ^ 16) 16 m = value (2 ^ 16) 15 m + m 15 * (2 ^ 16) ^ 15 := value_succ
  have hlimb : ∀ j < 16, (-2 ^ 63 ≤ t j ∧ t j < 2 ^ 63) ∧ (-2 ^ 63 ≤ m j ∧ m j < 2 ^ 63) := by
    intro j hj
    have h := ht j hj
    refine ⟨by constructor <;> linarith, ?_⟩
    by_cases h15 : j = 15
    · subst h15
      constructor <;> linarith
    · have hd := hm.digits j (by omega)
      constructor <;> linarith
  have hres : reduceOnce t = some (feCswap t m (1 - m 15 / 2 ^ 16 % 2)).1 :=
    Option.bind_eq_some_iff.2 ⟨m, hrun, rfl⟩
  by_cases hneg : m 15 < 0
  · -- a borrow out of the top limb: the number is below the prime
    have hbit : 1 - m 15 / 2 ^ 16 % 2 = 0 := by omega
    rw [hbit] at hres
    have heq : ∀ j < 16, (feCswap t m 0).1 j = t j := fun j hj => (feCswap_fst (hlimb j hj).1 (hlimb j hj).2).1
    refine ⟨_, hres, fun j hj => by rw [heq j hj]; exact ht j hj, ?_⟩
    have hlt : ¬ prime25519 ≤ feValue t := by
      have hmul : m 15 * (2 ^ 16) ^ 15 ≤ -1 * (2 ^ 16) ^ 15 := mul_le_mul_of_nonneg_right (by omega) (by positivity)
      linarith [hlow.2]
    rw [if_neg hlt]
    exact value_congr heq
  · have hbit : 1 - m 15 / 2 ^ 16 % 2 = 1 := by omega
    rw [hbit] at hres
    have heq : ∀ j < 16, (feCswap t m 1).1 j = m j := fun j hj => (feCswap_fst (hlimb j hj).1 (hlimb j hj).2).2
    refine ⟨_, hres, fun j hj => ?_, ?_⟩
    · rw [heq j hj]
      by_cases h15 : j = 15
      · subst h15
        exact ⟨by omega, hraw'⟩
      · exact hm.digits j (by omega)
    · have hge : prime25519 ≤ feValue t := by
        have hmul : 0 ≤ m 15 * (2 ^ 16) ^ 15 := mul_nonneg (by omega) (by positivity)
        linarith [hlow.1]
      rw [if_pos hge, ← hsub]
      exact value_congr heq

def packBytes (t : Fe) : Buf := fun i =>
  if i % 2 = 0 then BitVec.ofInt 8 (t (i / 2)) else BitVec.ofInt 8 (t (i / 2) / 2 ^ 8)

theorem getLE_packBytes {n : ℕ} (h : ∀ j < n, 0 ≤ t j ∧ t j < 2 ^ 16) :
    (getLE (packBytes t) 0 (2 * n) : ℤ) = value (2 ^ 16) n t := by
  induction n with
  | zero => rfl
  | succ n ih =>
    obtain ⟨h0, h1⟩ := h n (by omega)
    have hlow : ((packBytes t (2 * n)).toNat : ℤ) = t n % 2 ^ 8 := by
      unfold packBytes
      rw [if_pos (by omega), show 2 * n / 2 = n by omega, BitVec.toNat_ofInt]
      norm_num
      omega
    have hhigh : ((packBytes t (2 * n + 1)).toNat : ℤ) = t n / 2 ^ 8 := by
      unfold packBytes
      rw [if_neg (by omega), show (2 * n + 1) / 2 = n by omega, BitVec.toNat_ofInt]
      norm_num
      omega
    have hpow : ((256 : ℤ)) ^ (2 * n) = (2 ^ 16) ^ n := by
      rw [pow_mul]
      norm_num
    rw [show 2 * (n + 1) = 2 * n + 1 + 1 by ring, getLE, getLE, value_succ, ← ih fun j hj => h j (by omega)]
    push_cast
    rw [Nat.zero_add, Nat.zero_add, hlow, hhigh, pow_succ (256 : ℤ), hpow]
    have hdm := Int.emod_add_mul_ediv (t n) (2 ^ 8)
    linear_combination (2 ^ 16) ^ n * hdm

/-- **Packing** gives the canonical encoding. -/
theorem fePack_spec {n : Fe} (h : Below 24 n) :
    ∃ o, fePack n = some o ∧ (getLE o 0 32 : ℤ) < prime25519 ∧ (getLE o 0 32 : ℤ) ≡ feValue n [ZMOD prime25519] := by
  obtain ⟨t₁, t₂, t₃, hrun₁, hrun₂, hrun₃, hd₃, hmod⟩ := threePasses_spec h
  obtain ⟨t₄, hrun₄, hd₄, hv₄⟩ := reduceOnce_spec hd₃
  obtain ⟨t₅, hrun₅, hd₅, hv₅⟩ := reduceOnce_spec hd₄
  have hvalue : (getLE (packBytes t₅) 0 32 : ℤ) = feValue t₅ := getLE_packBytes hd₅
  refine ⟨packBytes t₅, ?_, ?_, ?_⟩
  · exact Option.bind_eq_some_iff.2 ⟨t₁, hrun₁, Option.bind_eq_some_iff.2 ⟨t₂, hrun₂, Option.bind_eq_some_iff.2 ⟨t₃, hrun₃,
      Option.bind_eq_some_iff.2 ⟨t₄, hrun₄, Option.bind_eq_some_iff.2 ⟨t₅, hrun₅, rfl⟩⟩⟩⟩⟩
  · -- `2^256` is less than three times the prime
    obtain ⟨h0, h1⟩ := hd₃.bounds
    rw [hvalue, hv₅, hv₄]
    unfold prime25519
    split_ifs <;> omega
  · have hsub : ∀ {t t' : Fe}, feValue t' = (if prime25519 ≤ feValue t then feValue t - prime25519 else feValue t) →
        feValue t' ≡ feValue t [ZMOD prime25519] := by
      intro t t' heq
      rw [heq]
      split
      · exact Int.sub_modulus_modEq_iff.2 rfl
      · rfl
    rw [hvalue]
    exact (hsub hv₅).trans ((hsub hv₄).trans hmod)

theorem encoding_unique {o o' : Buf} (h : (getLE o 0 32 : ℤ) < prime25519) (h' : (getLE o' 0 32 : ℤ) < prime25519)
    (heq : (getLE o 0 32 : ℤ) ≡ getLE o' 0 32 [ZMOD prime25519]) (i : ℕ) (hi : i < 32) : o i = o' i := by
  have hnum : getLE o 0 32 = getLE o' 0 32 := by
    have hmod := heq
    rw [Int.ModEq, Int.emod_eq_of_lt (Int.natCast_nonneg _) h, Int.emod_eq_of_lt (Int.natCast_nonneg _) h'] at hmod
    exact_mod_cast hmod
  have hbyte := getLE_div o 0 hi
  have hbyte' := getLE_div o' 0 hi
  rw [hnum, hbyte', Nat.zero_add] at hbyte
  exact (BitVec.eq_of_toNat_eq hbyte).symm

end Pack

/-- **Field arithmetic**: on elements with limbs below `2^24`, products, squares and inverses do not overflow and
represent the product, the square and the power `p - 2`; products have limbs below `2^17`, small enough for their sums
and differences to be multiplied again; a carry pass keeps the value; the encoding is the canonical one. -/
theorem field_arithmetic (a b : Fe) (ha : Below 24 a) (hb : Below 24 b) :
    (∃ c, feMul a b = some c ∧ feValue c ≡ feValue a * feValue b [ZMOD prime25519] ∧ Below 17 c) ∧
    (∃ c, feSq a = some c ∧ feValue c ≡ feValue a * feValue a [ZMOD prime25519] ∧ Below 17 c) ∧
    (∀ c d, Below 17 c → Below 17 d →
      (∃ s, feAdd c d = some s ∧ feValue s = feValue c + feValue d ∧ Below 24 s) ∧
      ∃ s, feSub c d = some s ∧ feValue s = feValue c - feValue d ∧ Below 24 s) ∧
    (∃ c, feCarry a = some c ∧ feValue c ≡ feValue a [ZMOD prime25519]) ∧
    (∃ o, fePack a = some o ∧ (getLE o 0 32 : ℤ) < prime25519 ∧ (getLE o 0 32 : ℤ) ≡ feValue a [ZMOD prime25519] ∧
      ∀ o', (getLE o' 0 32 : ℤ) < prime25519 → (getLE o' 0 32 : ℤ) ≡ feValue a [ZMOD prime25519] →
        ∀ i < 32, o' i = o i) ∧
    ∃ c, feInv a = some c ∧ feValue c ≡ feValue a ^ (prime25519 - 2).toNat [ZMOD prime25519] := by
  refine ⟨feMul_spec ha hb, feMul_spec ha ha, fun c d hc hd => ⟨?_, ?_⟩, ?_, ?_, ?_⟩
  · obtain ⟨s, hrun, hval, hbelow⟩ := feAdd_spec hc hd (by norm_num)
    exact ⟨s, hrun, hval, hbelow.mono (by norm_num)⟩
  · obtain ⟨s, hrun, hval, hbelow⟩ := feSub_spec hc hd (by norm_num)
    exact ⟨s, hrun, hval, hbelow.mono (by norm_num)⟩
  · obtain ⟨c, hrun, hpass⟩ := feCarry_spec (ha.mono (by norm_num))
    exact ⟨c, hrun, hpass.modEq⟩
  · obtain ⟨o, hrun, hlt, hmod⟩ := fePack_spec ha
    exact ⟨o, hrun, hlt, hmod, fun o' hlt' hmod' => encoding_unique hlt' hlt (hmod'.trans hmod.symm)⟩
  · have hexp : (prime25519 - 2).toNat = 2 ^ 255 - 21 := by decide +kernel
    rw [hexp]
    exact feInv_spec ha

/-- The square of one. -/
theorem field_arithmetic_one : ∃ c, feMul feOne feOne = some c ∧ feValue c ≡ 1 * 1 [ZMOD prime25519] ∧ Below 17 c := by
  have hone : Below 24 feOne := by
    intro i _
    unfold feOne
    split <;> norm_num
  have hvalue : feValue feOne = 1 := by
    simp [feValue, value, feOne]
  have h := (field_arithmetic feOne feOne hone hone).1
  rw [hvalue] at h
  exact h


end Zigix.Crypto
