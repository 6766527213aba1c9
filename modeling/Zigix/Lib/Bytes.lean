import Mathlib.Algebra.Order.Group.Nat
import Mathlib.Tactic.Ring

/-!
# Numbers in a buffer of bytes

A buffer is a function from positions to bytes. `getLE`, `putLE` read and write a number of `n` bytes with the least
significant byte first, `getBE`, `putBE` with the most significant one first.

* `getLE_putLE`, `getBE_putBE` : what was written is read, reduced modulo `256 ^ n`;
* `putBytes` : a copy of a list of bytes;
* `getLE_congr`, `getBE_congr` : a number depends on its own bytes only; `putLE_of_lt`, `putBE_of_lt` and the like say
  which bytes a write leaves alone.
-/

namespace Bytes

abbrev Buf := Nat → BitVec 8

variable {b b' : Buf} {off n v i : Nat}

/-! ## Least significant byte first -/

/-- The number in the `n` bytes from `off` on. -/
def getLE (b : Buf) (off : Nat) : Nat → Nat
  | 0 => 0
  | n + 1 => getLE b off n + (b (off + n)).toNat * 256 ^ n

def putLE (b : Buf) (off n v : Nat) : Buf := fun i =>
  if off ≤ i ∧ i < off + n then BitVec.ofNat 8 (v / 256 ^ (i - off)) else b i

theorem getLE_congr (h : ∀ k, k < n → b (off + k) = b' (off + k)) : getLE b off n = getLE b' off n := by
  induction n with
  | zero => rfl
  | succ n ih => rw [getLE, getLE, ih fun k hk => h k (by omega), h n (by omega)]

theorem getLE_lt (b : Buf) (off n : Nat) : getLE b off n < 256 ^ n := by
  induction n with
  | zero => exact Nat.one_pos
  | succ n ih =>
    have hbyte : (b (off + n)).toNat * 256 ^ n ≤ 255 * 256 ^ n := Nat.mul_le_mul_right _ (by omega)
    rw [getLE, Nat.pow_succ]
    omega

theorem putLE_of_mem (h : off ≤ i) (h' : i < off + n) : putLE b off n v i = BitVec.ofNat 8 (v / 256 ^ (i - off)) :=
  if_pos ⟨h, h'⟩

theorem putLE_of_notMem (h : i < off ∨ off + n ≤ i) : putLE b off n v i = b i := if_neg (by omega)

theorem getLE_putLE (b : Buf) (off n v : Nat) : getLE (putLE b off n v) off n = v % 256 ^ n := by
  have hall : ∀ k, k ≤ n → getLE (putLE b off n v) off k = v % 256 ^ k := by
    intro k hk
    induction k with
    | zero => exact (Nat.mod_one v).symm
    | succ k ih =>
      have hbyte : (putLE b off n v (off + k)).toNat = v / 256 ^ k % 256 := by
        rw [putLE_of_mem (by omega) (by omega), BitVec.toNat_ofNat, Nat.add_sub_cancel_left]
      rw [getLE, ih (by omega), hbyte, Nat.pow_succ, Nat.mod_mul]
      ring
  exact hall n le_rfl

/-- A byte of a number. -/
theorem getLE_div {k : Nat} (b : Buf) (off : Nat) (h : k < n) : getLE b off n / 256 ^ k % 256 = (b (off + k)).toNat := by
  induction n with
  | zero => omega
  | succ n ih =>
    have hbyte := (b (off + n)).isLt
    rw [getLE]
    rcases Nat.lt_succ_iff_lt_or_eq.1 h with hk | rfl
    · obtain ⟨j, rfl⟩ := Nat.exists_eq_add_of_lt hk
      have hpow : (b (off + (k + j + 1))).toNat * 256 ^ (k + j + 1) = 256 ^ k * (256 * ((b (off + (k + j + 1))).toNat * 256 ^ j)) := by
        ring
      rw [hpow, Nat.add_mul_div_left _ _ (Nat.pow_pos (by decide)), Nat.add_mul_mod_self_left]
      exact ih hk
    · have hlt := getLE_lt b off k
      rw [Nat.add_mul_div_right _ _ (Nat.pow_pos (by decide)), Nat.div_eq_of_lt hlt, Nat.zero_add]
      exact Nat.mod_eq_of_lt hbyte

/-- A write to other bytes. -/
theorem getLE_putLE_of_disjoint {off' n' : Nat} (h : off + n ≤ off' ∨ off' + n' ≤ off) :
    getLE (putLE b off' n' v) off n = getLE b off n :=
  getLE_congr fun k hk => putLE_of_notMem (by omega)

/-! ## Copies -/

/-- The bytes `xs` are copied to `off`. -/
def putBytes (b : Buf) (off : Nat) (xs : List (BitVec 8)) : Buf := fun i =>
  if off ≤ i then (xs[i - off]?).getD (b i) else b i

theorem putBytes_of_notMem {xs : List (BitVec 8)} (h : i < off ∨ off + xs.length ≤ i) : putBytes b off xs i = b i := by
  unfold putBytes
  split
  · rw [List.getElem?_eq_none (by omega)]
    rfl
  · rfl

theorem putBytes_get {xs : List (BitVec 8)} (h : i < xs.length) : putBytes b off xs (off + i) = xs[i] := by
  unfold putBytes
  rw [if_pos (Nat.le_add_right _ _), Nat.add_sub_cancel_left, List.getElem?_eq_getElem h]
  rfl

/-! ## Most significant byte first -/

/-- The bytes `[off, off + n)` in reverse order. -/
def flip (b : Buf) (off n : Nat) : Buf := fun i => b (off + (n - 1 - i))

def getBE (b : Buf) (off n : Nat) : Nat := getLE (flip b off n) 0 n

def putBE (b : Buf) (off n v : Nat) : Buf := fun i =>
  if off ≤ i ∧ i < off + n then BitVec.ofNat 8 (v / 256 ^ (n - 1 - (i - off))) else b i

theorem getBE_congr (h : ∀ k, k < n → b (off + k) = b' (off + k)) : getBE b off n = getBE b' off n :=
  getLE_congr fun k hk => by
    rw [flip, flip]
    exact h _ (by omega)

theorem getBE_lt (b : Buf) (off n : Nat) : getBE b off n < 256 ^ n := getLE_lt _ _ _

theorem putBE_of_mem (h : off ≤ i) (h' : i < off + n) :
    putBE b off n v i = BitVec.ofNat 8 (v / 256 ^ (n - 1 - (i - off))) := if_pos ⟨h, h'⟩

theorem putBE_of_notMem (h : i < off ∨ off + n ≤ i) : putBE b off n v i = b i := if_neg (by omega)

theorem getBE_putBE (b : Buf) (off n v : Nat) : getBE (putBE b off n v) off n = v % 256 ^ n := by
  have hflip : getBE (putBE b off n v) off n = getLE (putLE b 0 n v) 0 n := by
    refine getLE_congr fun k hk => ?_
    rw [flip, putBE_of_mem (by omega) (by omega), putLE_of_mem (by omega) (by omega)]
    have hidx : n - 1 - (off + (n - 1 - (0 + k)) - off) = 0 + k - 0 := by omega
    rw [hidx]
  rw [hflip, getLE_putLE]

/-- Writing what is there changes nothing. -/
theorem putBE_getBE (b : Buf) (off n : Nat) : putBE b off n (getBE b off n) = b := by
  funext i
  by_cases h : off ≤ i ∧ i < off + n
  · obtain ⟨k, rfl⟩ := Nat.exists_eq_add_of_le h.1
    rw [putBE_of_mem h.1 h.2, getBE]
    apply BitVec.eq_of_toNat_eq
    rw [BitVec.toNat_ofNat, getLE_div _ _ (by omega), flip]
    have hidx : off + (n - 1 - (0 + (n - 1 - (off + k - off)))) = off + k := by omega
    rw [hidx]
  · exact if_neg h

/-- The last write of a number counts. -/
theorem putBE_putBE (b : Buf) (off n v w : Nat) : putBE (putBE b off n v) off n w = putBE b off n w := by
  funext i
  unfold putBE
  split
  · rfl
  · rfl

theorem getBE_putBE_of_disjoint {off' n' : Nat} (h : off + n ≤ off' ∨ off' + n' ≤ off) :
    getBE (putBE b off' n' v) off n = getBE b off n :=
  getBE_congr fun k hk => putBE_of_notMem (by omega)

end Bytes
