import Mathlib.Logic.Function.Basic
import Zigix.Lib.Bytes

/-!
# Arithmetic modulo `2^255 - 19` and the key exchange (`userspace/zsshd/crypto.zig`)

A field element is sixteen signed limbs of about 16 bits, in `i64`. A sum, difference or product that does not fit
`i64` has no result, nor has a cast that loses bits: `none` is illegal behaviour. On two's complement numbers `x >> 16`
is `x / 2 ^ 16`, `x & 0xffff` is `x % 2 ^ 16`; a left shift is not checked.
-/

namespace Zigix.Crypto

open Bytes

/-- A value of `i64`. -/
def i64 (n : Int) : Option Int := if -2 ^ 63 ≤ n ∧ n < 2 ^ 63 then some n else none

/-- `Fe`, at the positions below 16. -/
abbrev Fe := Nat → Int

def feZero : Fe := fun _ => 0

def feOne : Fe := fun i => if i = 0 then 1 else 0

/-- `for (0..n) |i| …` on an array. -/
def forRange (n : Nat) (body : Nat → Fe → Option Fe) (o : Fe) : Option Fe :=
  (List.range n).foldlM (fun o i => body i o) o

/-- Sixteen limbs of 16 bits; the top bit is dropped. -/
def feUnpack (n : Buf) : Fe := fun i =>
  let limb : Int := (n (2 * i)).toNat + (n (2 * i + 1)).toNat * 2 ^ 8
  if i = 15 then limb % 2 ^ 15 else limb

/-- One turn of `fe_carry`. -/
def carryLimb (i : Nat) (o : Fe) : Option Fe := do
  let x ← i64 (o i + 2 ^ 16)
  let o := Function.update o i x
  let c := o i / 2 ^ 16
  let next := if i < 15 then i + 1 else 0
  let c1 ← i64 (c - 1)
  let c37 ← i64 (37 * c1)
  let wrap := if i = 15 then c37 else 0
  let add ← i64 (c1 + wrap)
  let y ← i64 (o next + add)
  let o := Function.update o next y
  let z ← i64 (o i - c * 2 ^ 16)
  return Function.update o i z

def feCarry (o : Fe) : Option Fe := forRange 16 carryLimb o

def feAdd (a b : Fe) : Option Fe := forRange 16 (fun i o => do return Function.update o i (← i64 (a i + b i))) feZero

def feSub (a b : Fe) : Option Fe := forRange 16 (fun i o => do return Function.update o i (← i64 (a i - b i))) feZero

/-- `t[k] += x`. -/
def accumulate (k : Nat) (x : Int) (t : Fe) : Option Fe := do return Function.update t k (← i64 (t k + x))

def feProduct (a b : Fe) : Option Fe :=
  forRange 16 (fun i => forRange 16 fun j t => do accumulate (i + j) (← i64 (a i * b j)) t) feZero

/-- The limbs from 16 on count 38 times, sixteen places lower. -/
def feFold (t : Fe) : Option Fe := forRange 15 (fun k t => do accumulate k (← i64 (38 * t (16 + k))) t) t

def feMul (a b : Fe) : Option Fe := do
  let t ← feProduct a b
  let o ← feFold t
  let o ← feCarry o
  feCarry o

def feSq (a : Fe) : Option Fe := feMul a a

/-- `p` and `q` after `fe_cswap(p, q, b)`. -/
def feCswap (p q : Fe) (b : Int) : Fe × Fe :=
  let c : BitVec 64 := ~~~(BitVec.ofInt 64 b - 1)
  let t := fun i => c &&& (BitVec.ofInt 64 (p i) ^^^ BitVec.ofInt 64 (q i))
  (fun i => (BitVec.ofInt 64 (p i) ^^^ t i).toInt, fun i => (BitVec.ofInt 64 (q i) ^^^ t i).toInt)

/-- One turn of the subtraction of the prime in `fe_pack`: the limb `m[j]`, and `m[j - 1]` without its borrow. -/
def borrowLimb (t : Fe) (k : Nat) (m : Fe) : Option Fe := do
  let j := k + 1
  let d ← i64 (t j - (if j = 15 then 0x7fff else 0xffff))
  let x ← i64 (d - m (j - 1) / 2 ^ 16 % 2)
  let m := Function.update m j x
  return Function.update m (j - 1) (m (j - 1) % 2 ^ 16)

/-- The limbs `m` of `t - (2^255 - 19)`. -/
def minusPrime25519 (t : Fe) : Option Fe := do
  let m0 ← i64 (t 0 - 0xffed)
  forRange 15 (borrowLimb t) (Function.update feZero 0 m0)

/-- `t`, or `t` minus the prime if that is not negative. -/
def reduceOnce (t : Fe) : Option Fe := do
  let m ← minusPrime25519 t
  let b := m 15 / 2 ^ 16 % 2
  return (feCswap t m (1 - b)).1

/-- The 32 bytes of an element. -/
def fePack (n : Fe) : Option Buf := do
  let t ← feCarry n
  let t ← feCarry t
  let t ← feCarry t
  let t ← reduceOnce t
  let t ← reduceOnce t
  return fun i => if i % 2 = 0 then BitVec.ofInt 8 (t (i / 2)) else BitVec.ofInt 8 (t (i / 2) / 2 ^ 8)

/-- The loop of `fe_inv`, from `i = k - 1` down to 0. -/
def invLoop (a : Fe) : Nat → Fe → Option Fe
  | 0, c => some c
  | i + 1, c => do
    let c ← feSq c
    let c ← (if i ≠ 2 ∧ i ≠ 4 then feMul c a else some c)
    invLoop a i c

def feInv (a : Fe) : Option Fe := invLoop a 254 a

end Zigix.Crypto
