import Mathlib.Data.Nat.ModEq
import Zigix.Crypto.Field25519
import Zigix.Crypto.Sha2

/-!
# Signatures (`ed25519_sign` of `userspace/zsshd/crypto.zig`)

Points are in extended coordinates over the field of `Field25519`; scalars are bytes, reduced modulo the order `L` of the
base point by `sc_reduce`. An index outside an array, a sum or a product outside `i64` is `none`.

* `scReduce`, `ed25519Sign` : the code;
* `scReduce_eq_none` : the inner loop runs one turn too far, to the entry 32 of a table of 32;
* `signature_undefined` : so neither holds of any input.
-/

namespace Zigix.Crypto

open Bytes

/-! ## Points -/

def limbs (xs : List Int) : Fe := fun i => xs.getD i 0

def ed25519D2 : Fe := limbs [0x2b2f, 0x6592, -0x72f0, 0x1e16, 0x74b7, 0x3486, 0x4b39, 0x3534, -0x0325, 0x0bc0, -0x4b52,
  0x2498, 0x03ca, 0x7c90, 0x4e38, 0x0262]

def ed25519Bx : Fe := limbs [0x325d, -0x70d2, -0x277d, -0x69eb, 0x001a, 0x6e07, 0x2e82, 0x5dba, -0x6b3b, 0x7a3e, 0x5939,
  -0x1c8b, 0x4e30, 0x32c3, 0x3b5f, 0x1a83]

def ed25519By : Fe := limbs [0x2666, 0x1999, 0x6666, 0x3333, -0x0001, -0x6667, 0x3332, 0x6666, 0x6666, 0x3333, -0x0001,
  -0x6667, 0x3332, 0x6666, 0x6666, 0x1999]

/-- Extended coordinates. -/
structure GePt where
  x : Fe
  y : Fe
  z : Fe
  t : Fe

def geAdd (p q : GePt) : Option GePt := do
  let a ← feMul (← feSub p.y p.x) (← feSub q.y q.x)
  let b ← feMul (← feAdd p.y p.x) (← feAdd q.y q.x)
  let c ← feMul (← feMul p.t q.t) ed25519D2
  let d ← feMul p.z q.z
  let d ← feAdd d d
  let e ← feSub b a
  let f ← feSub d c
  let g ← feAdd d c
  let h ← feAdd b a
  return ⟨← feMul e f, ← feMul h g, ← feMul g f, ← feMul e h⟩

def geDbl (p : GePt) : Option GePt := do
  let a ← feSq p.x
  let b ← feSq p.y
  let c ← feSq p.z
  let c ← feAdd c c
  let d ← feSub feZero a
  let e ← feSq (← feAdd p.x p.y)
  let e ← feSub e a
  let e ← feSub e b
  let g ← feAdd d b
  let f ← feSub g c
  let h ← feSub d b
  return ⟨← feMul e f, ← feMul g h, ← feMul f g, ← feMul e h⟩

/-- The loop of `ge_scalarmult_base`, from bit `i - 1` down to 0. -/
def scalarLoop (scalar : Buf) (base : GePt) : Nat → GePt → Option GePt
  | 0, r => some r
  | i + 1, r => do
    let r ← geDbl r
    let r ← if (scalar (i / 8)).getLsbD (i % 8) then geAdd r base else some r
    scalarLoop scalar base i r

def geScalarmultBase (scalar : Buf) : Option GePt := do
  let t ← feMul ed25519Bx ed25519By
  scalarLoop scalar ⟨ed25519Bx, ed25519By, feOne, t⟩ 256 ⟨feZero, feOne, feOne, feZero⟩

def geTobytes (p : GePt) : Option Buf := do
  let recip ← feInv p.z
  let x ← feMul p.x recip
  let y ← feMul p.y recip
  let s ← fePack y
  let xs ← fePack x
  return Function.update s 31 (s 31 ^^^ ((xs 0 &&& 1) <<< 7))

/-! ## Scalars -/

def order : Nat := 2 ^ 252 + 27742317777372353535851937790883648493

/-- `L`, 32 limbs. -/
def orderLimbs : List Int :=
  [0xed, 0xd3, 0xf5, 0x5c, 0x1a, 0x63, 0x12, 0x58, 0xd6, 0x9c, 0xf7, 0xa2, 0xde, 0xf9, 0xde, 0x14,
    0, 0, 0, 0, 0, 0, 0, 0, 0, 0, 0, 0, 0, 0, 0, 0x10]

/-- `x[i]` of an array of 64. -/
def limb64 (x : Fe) (i : Nat) : Option Int := if i < 64 then some (x i) else none

/-- One turn of the inner loops of `sc_reduce`: `x[j]` without the multiple of `L`, and the carry. -/
def reduceTurn (i : Nat) (s : Fe × Int) (j : Nat) : Option (Fe × Int) := do
  let xi ← limb64 s.1 i
  let l ← orderLimbs[j - (i - 32)]?
  let xj ← limb64 s.1 j
  let product ← i64 ((← i64 (16 * xi)) * l)
  let v ← i64 (xj + (← i64 (s.2 - product)))
  let carry := (← i64 (v + 128)) / 2 ^ 8
  return (Function.update s.1 j (← i64 (v - (← i64 (carry * 256)))), carry)

/-- One turn of the outer loop: `j` runs to `i - 13`, then on to `i`. -/
def reduceLimb (x : Fe) (i : Nat) : Option Fe := do
  let s ← ((List.range 20).map (i - 32 + ·)).foldlM (reduceTurn i) (x, 0)
  let s ← ((List.range 13).map (i - 12 + ·)).foldlM (reduceTurn i) s
  return Function.update s.1 i 0

/-- One turn of the loop that takes away `x[31] >> 4` times `L`. -/
def topTurn (s : Fe × Int) (j : Nat) : Option (Fe × Int) := do
  let product ← i64 (s.1 31 / 2 ^ 4 * (← orderLimbs[j]?))
  let v ← i64 (s.1 j + (← i64 (s.2 - product)))
  return (Function.update s.1 j (v % 256), v / 2 ^ 8)

/-- `x[j] -= carry * L[j]`. -/
def carryTurn (carry : Int) (x : Fe) (j : Nat) : Option Fe := do
  return Function.update x j (← i64 (x j - (← i64 (carry * (← orderLimbs[j]?)))))

def scReduce (s : Buf) : Option Buf := do
  let x ← ((List.range 32).map (63 - ·)).foldlM reduceLimb fun i => (s i).toNat
  let (x, carry) ← (List.range 32).foldlM topTurn (x, 0)
  let x ← (List.range 32).foldlM (carryTurn carry) x
  let x ← (List.range 32).foldlM (fun x j => accumulate (j + 1) (x j / 2 ^ 8) x) x
  return fun j => if j < 32 then BitVec.ofInt 8 (x j) else s j

/-- The limbs of `r + h * a`. -/
def multiplyAdd (r h a : Buf) : Option Fe :=
  (List.range 32).foldlM (fun x i => (List.range 32).foldlM
      (fun x j => accumulate (i + j) ((h i).toNat * (a j).toNat) x) x)
    fun i => if i < 32 then ((r i).toNat : Int) else 0

/-- The bytes `[off, off + n)`. -/
def bytesAt (b : Buf) (off n : Nat) : List (BitVec 8) := (List.range n).map fun i => b (off + i)

def ofList (bs : List (BitVec 8)) : Buf := fun i => bs.getD i 0

def ed25519Sign (msg : List (BitVec 8)) (sk pk : Buf) : Option Buf := do
  let nonce ← scReduce (ofList (← Sha2.sha512Pieces [bytesAt sk 32 32, msg]))
  let r ← geTobytes (← geScalarmultBase nonce)
  let h ← scReduce (ofList (← Sha2.sha512Pieces [bytesAt r 0 32, bytesAt pk 0 32, msg]))
  let x ← multiplyAdd nonce h sk
  let s ← scReduce fun i => BitVec.ofInt 8 (x i)
  return fun i => if i < 32 then r i else s (i - 32)

/-! ## What they are to compute -/

/-- The bytes are reduced modulo `L`. -/
def Reduces (s : Buf) : Prop :=
  ∃ out, scReduce s = some out ∧ getLE out 0 32 ≡ getLE s 0 64 [MOD order] ∧ getLE out 0 32 < order

/-- The second half of the signature is `r + h * a` modulo `L`, with the nonce `r` of the message and the hash `h` of the
first half, the public key and the message. -/
def Signs (msg : List (BitVec 8)) (sk pk : Buf) : Prop :=
  ∃ sig, ed25519Sign msg sk pk = some sig ∧
    let number (bs : List (BitVec 8)) := getLE (ofList (Fips180.digest Fips180.sha512 bs)) 0 64
    getLE sig 32 32 ≡ number (bytesAt sk 32 32 ++ msg) +
      number (bytesAt sig 0 32 ++ bytesAt pk 0 32 ++ msg) * getLE sk 0 32 [MOD order] ∧
    getLE sig 32 32 < order

/-! ## Every input -/

theorem reduceTurn_last (i : Nat) (h : 32 ≤ i) (s : Fe × Int) : reduceTurn i s i = none := by
  have hlen : orderLimbs.length = 32 := rfl
  have hnone : orderLimbs[i - (i - 32)]? = none := List.getElem?_eq_none (by omega)
  unfold reduceTurn
  rw [hnone]
  cases limb64 s.1 i with
  | none => rfl
  | some xi => rfl

theorem reduceLimb_eq_none (x : Fe) (i : Nat) (h : 32 ≤ i) : reduceLimb x i = none := by
  have hlast : ∀ s, ((List.range 13).map (i - 12 + ·)).foldlM (reduceTurn i) s = none := by
    intro s
    rw [List.range_succ (n := 12), List.map_append, List.foldlM_append, List.map_singleton,
      show i - 12 + 12 = i by omega]
    cases ((List.range 12).map (i - 12 + ·)).foldlM (reduceTurn i) s with
    | none => rfl
    | some s' =>
      rw [Option.bind_eq_bind, Option.bind_some, List.foldlM_cons, reduceTurn_last i h]
      rfl
  unfold reduceLimb
  cases ((List.range 20).map (i - 32 + ·)).foldlM (reduceTurn i) (x, 0) with
  | none => rfl
  | some s =>
    rw [Option.bind_eq_bind, Option.bind_some, hlast]
    rfl

theorem scReduce_eq_none (s : Buf) : scReduce s = none := by
  have hfirst : ((List.range 32).map (63 - ·)).foldlM reduceLimb (fun i => ((s i).toNat : Int)) = none := by
    rw [show (List.range 32).map (63 - ·) = 63 :: ((List.range 31).map fun t => 63 - (t + 1)) from rfl, List.foldlM_cons,
      reduceLimb_eq_none _ 63 (by decide)]
    rfl
  unfold scReduce
  rw [hfirst]
  rfl

theorem ed25519Sign_eq_none (msg : List (BitVec 8)) (sk pk : Buf) : ed25519Sign msg sk pk = none := by
  unfold ed25519Sign
  cases Sha2.sha512Pieces [bytesAt sk 32 32, msg] with
  | none => rfl
  | some hash =>
    rw [Option.bind_eq_bind, Option.bind_some, scReduce_eq_none]
    rfl

/-- **No scalar is reduced and nothing is signed**: the reduction leaves its table on every input. -/
theorem signature_undefined (s : Buf) (msg : List (BitVec 8)) (sk pk : Buf) : ¬ Reduces s ∧ ¬ Signs msg sk pk := by
  constructor
  · rintro ⟨out, hrun, -⟩
    rw [scReduce_eq_none] at hrun
    cases hrun
  · rintro ⟨sig, hrun, -⟩
    rw [ed25519Sign_eq_none] at hrun
    cases hrun

/-- Sixty-four zero bytes are not reduced to zero, nor is the empty message signed with them. -/
theorem signature_fails_at_zero : ¬ Reduces (fun _ => 0) ∧ ¬ Signs [] (fun _ => 0) (fun _ => 0) := by
  refine ⟨?_, ?_⟩
  · rintro ⟨out, hrun, -⟩
    rw [scReduce_eq_none] at hrun
    cases hrun
  · rintro ⟨sig, hrun, -⟩
    rw [ed25519Sign_eq_none] at hrun
    cases hrun

end Zigix.Crypto
