import Mathlib.Algebra.BigOperators.Group.Finset.Basic
import Zigix.Lib.Bits
import Zigix.Lib.Bytes

/-!
# The one-time authenticator of the SSH server (`poly1305_mac` of `userspace/zsshd/crypto.zig`)

Numbers are kept in five limbs of 26 bits, in `u64`, and their products in `u128`. An operation that does not fit its
type has no result: `none` is integer overflow. A sum of products is checked once, since its parts are no larger.

* `poly1305Mac` : the source's function.
-/

namespace Zigix.Crypto

open Bytes

/-! ## The definition of RFC 8439 -/

namespace Rfc8439

/-- `2^130 - 5`. -/
def prime : Nat := 2 ^ 130 - 5

/-- The clamped first half of the key. -/
def r (key : Buf) : Nat := getLE key 0 16 &&& 0x0ffffffc0ffffffc0ffffffc0fffffff

def s (key : Buf) : Nat := getLE key 16 16

def bytesOf (bs : List (BitVec 8)) : Buf := fun i => bs.getD i 0

def padded (block : List (BitVec 8)) : Nat := getLE (bytesOf block) 0 block.length + 256 ^ block.length

def blocks (msg : List (BitVec 8)) : List Nat :=
  if msg = [] then [] else padded (msg.take 16) :: blocks (msg.drop 16)
termination_by msg.length
decreasing_by
  have := List.length_pos_iff.2 ‹msg ≠ []›
  simp only [List.length_drop]
  omega

/-- The blocks as the coefficients of a polynomial without constant term, the first block that of the highest power. -/
def poly (r : Nat) (cs : List Nat) : Nat := ∑ i ∈ Finset.range cs.length, cs.getD i 0 * r ^ (cs.length - i)

/-- The tag, as a number. -/
def mac (key : Buf) (msg : List (BitVec 8)) : Nat := (poly (r key) (blocks msg) % prime + s key) % 2 ^ 128

end Rfc8439

/-! ## The source -/

/-- A value of `u64`. -/
def u64 (n : Nat) : Option Nat := if n < 2 ^ 64 then some n else none

/-- A value of `u128`. -/
def u128 (n : Nat) : Option Nat := if n < 2 ^ 128 then some n else none

/-- `[5]u64`. -/
structure Limbs where
  l0 : Nat
  l1 : Nat
  l2 : Nat
  l3 : Nat
  l4 : Nat

def load32le (b : Buf) (off : Nat) : Nat :=
  (b off).toNat ||| (b (off + 1)).toNat <<< 8 ||| (b (off + 2)).toNat <<< 16 ||| (b (off + 3)).toNat <<< 24

def store32le (b : Buf) (off v : Nat) : Buf := putLE b off 4 v

/-- `r`, clamped. -/
def clamp (key : Buf) : Limbs where
  l0 := load32le key 0 &&& 0x3ffffff
  l1 := load32le key 3 >>> 2 &&& 0x3ffff03
  l2 := load32le key 6 >>> 4 &&& 0x3ffc0ff
  l3 := load32le key 9 >>> 6 &&& 0x3f03fff
  l4 := load32le key 12 >>> 8 &&& 0x00fffff

/-- `block`: the next bytes of the message, at most 16, and a byte 1. -/
def block (chunk : List (BitVec 8)) : Buf := fun i =>
  if i < chunk.length then chunk.getD i 0 else if i = chunk.length then 1 else 0

/-- The limbs `t` of a block. -/
def loadBlock (chunk : List (BitVec 8)) : Limbs :=
  let b := block chunk
  let t4 := load32le b 12 >>> 8
  { l0 := load32le b 0 &&& 0x3ffffff
    l1 := load32le b 3 >>> 2 &&& 0x3ffffff
    l2 := load32le b 6 >>> 4 &&& 0x3ffffff
    l3 := load32le b 9 >>> 6 &&& 0x3ffffff
    l4 := if chunk.length = 16 then t4 ||| 1 <<< 24 else t4 }

def addLimbs (h t : Limbs) : Option Limbs := do
  return { l0 := ← u64 (h.l0 + t.l0), l1 := ← u64 (h.l1 + t.l1), l2 := ← u64 (h.l2 + t.l2),
           l3 := ← u64 (h.l3 + t.l3), l4 := ← u64 (h.l4 + t.l4) }

/-- The limbs `d` of the product, folded by `2^130 = 5`. -/
def mulLimbs (h r : Limbs) : Option Limbs := do
  let s1 ← u128 (r.l1 * 5)
  let s2 ← u128 (r.l2 * 5)
  let s3 ← u128 (r.l3 * 5)
  let s4 ← u128 (r.l4 * 5)
  return {
    l0 := ← u128 (h.l0 * r.l0 + h.l1 * s4 + h.l2 * s3 + h.l3 * s2 + h.l4 * s1)
    l1 := ← u128 (h.l0 * r.l1 + h.l1 * r.l0 + h.l2 * s4 + h.l3 * s3 + h.l4 * s2)
    l2 := ← u128 (h.l0 * r.l2 + h.l1 * r.l1 + h.l2 * r.l0 + h.l3 * s4 + h.l4 * s3)
    l3 := ← u128 (h.l0 * r.l3 + h.l1 * r.l2 + h.l2 * r.l1 + h.l3 * r.l0 + h.l4 * s4)
    l4 := ← u128 (h.l0 * r.l4 + h.l1 * r.l3 + h.l2 * r.l2 + h.l3 * r.l1 + h.l4 * r.l0) }

/-- The carries after a product; `c` is truncated to `u64`. -/
def carryProduct (d : Limbs) : Option Limbs := do
  let c := d.l0 >>> 26 % 2 ^ 64
  let h0 := d.l0 &&& 0x3ffffff
  let d1 ← u128 (d.l1 + c)
  let c := d1 >>> 26 % 2 ^ 64
  let h1 := d1 &&& 0x3ffffff
  let d2 ← u128 (d.l2 + c)
  let c := d2 >>> 26 % 2 ^ 64
  let h2 := d2 &&& 0x3ffffff
  let d3 ← u128 (d.l3 + c)
  let c := d3 >>> 26 % 2 ^ 64
  let h3 := d3 &&& 0x3ffffff
  let d4 ← u128 (d.l4 + c)
  let c := d4 >>> 26 % 2 ^ 64
  let h4 := d4 &&& 0x3ffffff
  let c5 ← u64 (c * 5)
  let h0 ← u64 (h0 + c5)
  let c := h0 >>> 26
  let h1 ← u64 (h1 + c)
  return { l0 := h0 &&& 0x3ffffff, l1 := h1, l2 := h2, l3 := h3, l4 := h4 }

/-- The loop over the message. -/
def absorb (r h : Limbs) (msg : List (BitVec 8)) : Option Limbs :=
  if msg = [] then some h
  else do
    let h ← addLimbs h (loadBlock (msg.take 16))
    let d ← mulLimbs h r
    let h ← carryProduct d
    absorb r h (msg.drop 16)
termination_by msg.length
decreasing_by
  have := List.length_pos_iff.2 ‹msg ≠ []›
  simp only [List.length_drop]
  omega

def carryAll (h : Limbs) : Option Limbs := do
  let c := h.l1 >>> 26
  let h1 := h.l1 &&& 0x3ffffff
  let h2 ← u64 (h.l2 + c)
  let c := h2 >>> 26
  let h2 := h2 &&& 0x3ffffff
  let h3 ← u64 (h.l3 + c)
  let c := h3 >>> 26
  let h3 := h3 &&& 0x3ffffff
  let h4 ← u64 (h.l4 + c)
  let c := h4 >>> 26
  let h4 := h4 &&& 0x3ffffff
  let c5 ← u64 (c * 5)
  let h0 ← u64 (h.l0 + c5)
  let c := h0 >>> 26
  let h0 := h0 &&& 0x3ffffff
  let h1 ← u64 (h1 + c)
  return { l0 := h0, l1 := h1, l2 := h2, l3 := h3, l4 := h4 }

/-- The limbs `g` of `h - (2^130 - 5)`; the last one wraps. -/
def minusPrime (h : Limbs) : Option Limbs := do
  let g0 ← u64 (h.l0 + 5)
  let c := g0 >>> 26
  let g0 := g0 &&& 0x3ffffff
  let g1 ← u64 (h.l1 + c)
  let c := g1 >>> 26
  let g1 := g1 &&& 0x3ffffff
  let g2 ← u64 (h.l2 + c)
  let c := g2 >>> 26
  let g2 := g2 &&& 0x3ffffff
  let g3 ← u64 (h.l3 + c)
  let c := g3 >>> 26
  let g3 := g3 &&& 0x3ffffff
  let g4 ← u64 (h.l4 + c)
  let g4 := (g4 + (2 ^ 64 - 1 <<< 26)) % 2 ^ 64
  return { l0 := g0, l1 := g1, l2 := g2, l3 := g3, l4 := g4 }

/-- `(h & ~mask) | (g & mask)`. -/
def pick (mask h g : Nat) : Nat := (h &&& (2 ^ 64 - 1 - mask)) ||| (g &&& mask)

/-- `h`, or `g` if that is not negative. -/
def select (h g : Limbs) : Limbs :=
  let mask := (g.l4 >>> 63 + (2 ^ 64 - 1)) % 2 ^ 64
  { l0 := pick mask h.l0 g.l0, l1 := pick mask h.l1 g.l1, l2 := pick mask h.l2 g.l2, l3 := pick mask h.l3 g.l3,
    l4 := pick mask h.l4 g.l4 }

/-- Four words of 32 bits from five limbs, and `s` added to them: the tag. A left shift drops the bits that leave
`u64`. -/
def assemble (key : Buf) (h : Limbs) : Option Buf := do
  let f0 := (h.l0 ||| h.l1 <<< 26 % 2 ^ 64) &&& 0xffffffff
  let f1 := (h.l1 >>> 6 ||| h.l2 <<< 20 % 2 ^ 64) &&& 0xffffffff
  let f2 := (h.l2 >>> 12 ||| h.l3 <<< 14 % 2 ^ 64) &&& 0xffffffff
  let f3 := (h.l3 >>> 18 ||| h.l4 <<< 8 % 2 ^ 64) &&& 0xffffffff
  let acc ← u64 (f0 + load32le key 16)
  let f0 := acc &&& 0xffffffff
  let acc ← u64 (acc >>> 32 + f1 + load32le key 20)
  let f1 := acc &&& 0xffffffff
  let acc ← u64 (acc >>> 32 + f2 + load32le key 24)
  let f2 := acc &&& 0xffffffff
  let acc ← u64 (acc >>> 32 + f3 + load32le key 28)
  let f3 := acc &&& 0xffffffff
  let tag := store32le (fun _ => 0) 0 f0
  let tag := store32le tag 4 f1
  let tag := store32le tag 8 f2
  return store32le tag 12 f3

/-- The 16 bytes of the tag. -/
def poly1305Mac (msg : List (BitVec 8)) (key : Buf) : Option Buf := do
  let h ← absorb (clamp key) { l0 := 0, l1 := 0, l2 := 0, l3 := 0, l4 := 0 } msg
  let h ← carryAll h
  let g ← minusPrime h
  assemble key (select h g)

end Zigix.Crypto
