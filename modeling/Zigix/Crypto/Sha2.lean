import Mathlib.Data.List.GetD
import Zigix.Crypto.Fips180

/-!
# SHA-256 and SHA-512 (`userspace/zsshd/crypto.zig`)

A hash is computed from pieces: `update` fills the buffer, compresses full blocks from the piece and keeps the rest in the
buffer; `final` pads through `update`. Sums of lengths are of 64 bits, and `none` says that one overflows.

* `Hasher.update`, `Hasher.final` : the code, for a block size and a compression function; `Sha256`, `Sha512` : its members;
* `hash_streaming` : after any pieces of a message of fewer than `2 ^ 61` bytes the result is that of FIPS 180-4.
-/

namespace Zigix.Sha2

open Bytes Fips180

/-! ## The compression functions -/

def k256 : List (BitVec 32) :=
  [0x428a2f98, 0x71374491, 0xb5c0fbcf, 0xe9b5dba5, 0x3956c25b, 0x59f111f1, 0x923f82a4, 0xab1c5ed5,
    0xd807aa98, 0x12835b01, 0x243185be, 0x550c7dc3, 0x72be5d74, 0x80deb1fe, 0x9bdc06a7, 0xc19bf174,
    0xe49b69c1, 0xefbe4786, 0x0fc19dc6, 0x240ca1cc, 0x2de92c6f, 0x4a7484aa, 0x5cb0a9dc, 0x76f988da,
    0x983e5152, 0xa831c66d, 0xb00327c8, 0xbf597fc7, 0xc6e00bf3, 0xd5a79147, 0x06ca6351, 0x14292967,
    0x27b70a85, 0x2e1b2138, 0x4d2c6dfc, 0x53380d13, 0x650a7354, 0x766a0abb, 0x81c2c92e, 0x92722c85,
    0xa2bfe8a1, 0xa81a664b, 0xc24b8b70, 0xc76c51a3, 0xd192e819, 0xd6990624, 0xf40e3585, 0x106aa070,
    0x19a4c116, 0x1e376c08, 0x2748774c, 0x34b0bcb5, 0x391c0cb3, 0x4ed8aa4a, 0x5b9cca4f, 0x682e6ff3,
    0x748f82ee, 0x78a5636f, 0x84c87814, 0x8cc70208, 0x90befffa, 0xa4506ceb, 0xbef9a3f7, 0xc67178f2]

def k512 : List (BitVec 64) :=
  [0x428a2f98d728ae22, 0x7137449123ef65cd, 0xb5c0fbcfec4d3b2f, 0xe9b5dba58189dbbc,
    0x3956c25bf348b538, 0x59f111f1b605d019, 0x923f82a4af194f9b, 0xab1c5ed5da6d8118,
    0xd807aa98a3030242, 0x12835b0145706fbe, 0x243185be4ee4b28c, 0x550c7dc3d5ffb4e2,
    0x72be5d74f27b896f, 0x80deb1fe3b1696b1, 0x9bdc06a725c71235, 0xc19bf174cf692694,
    0xe49b69c19ef14ad2, 0xefbe4786384f25e3, 0x0fc19dc68b8cd5b5, 0x240ca1cc77ac9c65,
    0x2de92c6f592b0275, 0x4a7484aa6ea6e483, 0x5cb0a9dcbd41fbd4, 0x76f988da831153b5,
    0x983e5152ee66dfab, 0xa831c66d2db43210, 0xb00327c898fb213f, 0xbf597fc7beef0ee4,
    0xc6e00bf33da88fc2, 0xd5a79147930aa725, 0x06ca6351e003826f, 0x142929670a0e6e70,
    0x27b70a8546d22ffc, 0x2e1b21385c26c926, 0x4d2c6dfc5ac42aed, 0x53380d139d95b3df,
    0x650a73548baf63de, 0x766a0abb3c77b2a8, 0x81c2c92e47edaee6, 0x92722c851482353b,
    0xa2bfe8a14cf10364, 0xa81a664bbc423001, 0xc24b8b70d0f89791, 0xc76c51a30654be30,
    0xd192e819d6ef5218, 0xd69906245565a910, 0xf40e35855771202a, 0x106aa07032bbd1b8,
    0x19a4c116b8d2d0c8, 0x1e376c085141ab53, 0x2748774cdf8eeb99, 0x34b0bcb5e19b48a8,
    0x391c0cb3c5c95a63, 0x4ed8aa4ae3418acb, 0x5b9cca4f7763e373, 0x682e6ff3d6b2b8a3,
    0x748f82ee5defb2fc, 0x78a5636f43172f60, 0x84c87814a1f0ab72, 0x8cc702081a6439ec,
    0x90befffa23631e28, 0xa4506cebde82bde9, 0xbef9a3f7b2c67915, 0xc67178f2e372532b,
    0xca273eceea26619c, 0xd186b8c721c0c207, 0xeada7dd6cde0eb1e, 0xf57d4f7fee6ed178,
    0x06f067aa72176fba, 0x0a637dc5a2c898a6, 0x113f9804bef90dae, 0x1b710b35131c471b,
    0x28db77f523047d84, 0x32caab7b40c72493, 0x3c9ebe0a15c9bebc, 0x431d67c49c100d4c,
    0x4cc5d4becb3e42b6, 0x597f299cfc657e2a, 0x5fcb6fab3ad6faec, 0x6c44198c4a475817]

def rotr32 (x : BitVec 32) (n : Nat) : BitVec 32 := (x >>> n) ||| (x <<< (32 - n))

def rotr64 (x : BitVec 64) (n : Nat) : BitVec 64 := (x >>> n) ||| (x <<< (64 - n))

def ch32 (x y z : BitVec 32) : BitVec 32 := (x &&& y) ^^^ (~~~x &&& z)

def maj32 (x y z : BitVec 32) : BitVec 32 := (x &&& y) ^^^ (x &&& z) ^^^ (y &&& z)

def sigma0_256 (x : BitVec 32) : BitVec 32 := rotr32 x 2 ^^^ rotr32 x 13 ^^^ rotr32 x 22

def sigma1_256 (x : BitVec 32) : BitVec 32 := rotr32 x 6 ^^^ rotr32 x 11 ^^^ rotr32 x 25

def gamma0_256 (x : BitVec 32) : BitVec 32 := rotr32 x 7 ^^^ rotr32 x 18 ^^^ (x >>> 3)

def gamma1_256 (x : BitVec 32) : BitVec 32 := rotr32 x 17 ^^^ rotr32 x 19 ^^^ (x >>> 10)

def placed (w : Nat) (b : BitVec 8) (shift : Nat) : BitVec w := b.setWidth w <<< shift

def load32be (b : Buf) (off : Nat) : BitVec 32 :=
  placed 32 (b off) 24 ||| placed 32 (b (off + 1)) 16 ||| placed 32 (b (off + 2)) 8 ||| placed 32 (b (off + 3)) 0

def load64be (b : Buf) (off : Nat) : BitVec 64 :=
  placed 64 (b off) 56 ||| placed 64 (b (off + 1)) 48 ||| placed 64 (b (off + 2)) 40 ||| placed 64 (b (off + 3)) 32 |||
    placed 64 (b (off + 4)) 24 ||| placed 64 (b (off + 5)) 16 ||| placed 64 (b (off + 6)) 8 ||| placed 64 (b (off + 7)) 0

def store32be (v : BitVec 32) : List (BitVec 8) :=
  [(v >>> 24).setWidth 8, (v >>> 16).setWidth 8, (v >>> 8).setWidth 8, v.setWidth 8]

def store64be (v : BitVec 64) : List (BitVec 8) :=
  [(v >>> 56).setWidth 8, (v >>> 48).setWidth 8, (v >>> 40).setWidth 8, (v >>> 32).setWidth 8, (v >>> 24).setWidth 8,
    (v >>> 16).setWidth 8, (v >>> 8).setWidth 8, v.setWidth 8]

/-- The array `w` of `compress`: the words of the block, then those computed from earlier ones. -/
def fillSchedule {w : Nat} (gamma0 gamma1 : BitVec w → BitVec w) (rounds : Nat) (load : Nat → BitVec w) :
    Array (BitVec w) :=
  (List.range (rounds - 16)).foldl
    (fun x j => x.push
      (gamma1 (x.getD (16 + j - 2) 0) + x.getD (16 + j - 7) 0 + gamma0 (x.getD (16 + j - 15) 0) + x.getD (16 + j - 16) 0))
    ((List.range 16).map load).toArray

/-- One turn of the last loop of `compress` in `Sha256`. -/
def round256 (x : Array (BitVec 32)) (r : Regs 32) (i : Nat) : Regs 32 :=
  let t1 := r.h + sigma1_256 r.e + ch32 r.e r.f r.g + k256.getD i 0 + x.getD i 0
  let t2 := sigma0_256 r.a + maj32 r.a r.b r.c
  ⟨t1 + t2, r.a, r.b, r.c, r.d + t1, r.e, r.f, r.g⟩

/-- One turn of the last loop of `compress` in `Sha512`. -/
def round512 (x : Array (BitVec 64)) (r : Regs 64) (i : Nat) : Regs 64 :=
  let s1 := rotr64 r.e 14 ^^^ rotr64 r.e 18 ^^^ rotr64 r.e 41
  let ch := (r.e &&& r.f) ^^^ (~~~r.e &&& r.g)
  let t1 := r.h + s1 + ch + k512.getD i 0 + x.getD i 0
  let s0 := rotr64 r.a 28 ^^^ rotr64 r.a 34 ^^^ rotr64 r.a 39
  let mj := (r.a &&& r.b) ^^^ (r.a &&& r.c) ^^^ (r.b &&& r.c)
  let t2 := s0 + mj
  ⟨t1 + t2, r.a, r.b, r.c, r.d + t1, r.e, r.f, r.g⟩

def Sha256.compress (state : Regs 32) (block : Buf) : Regs 32 :=
  let x := fillSchedule gamma0_256 gamma1_256 64 fun i => load32be block (i * 4)
  state.add ((List.range 64).foldl (round256 x) state)

def Sha512.compress (state : Regs 64) (block : Buf) : Regs 64 :=
  let x := fillSchedule (fun y => rotr64 y 1 ^^^ rotr64 y 8 ^^^ (y >>> 7))
    (fun y => rotr64 y 19 ^^^ rotr64 y 61 ^^^ (y >>> 6)) 80 fun i => load64be block (i * 8)
  state.add ((List.range 80).foldl (round512 x) state)

/-! ## Pieces -/

structure Hasher (α : Type) where
  state : α
  buf : Buf
  bufLen : Nat
  totalLen : Nat

/-- The bytes of a piece from `off` on. -/
def slice (data : List (BitVec 8)) (off : Nat) : Buf := fun i => (data.drop off).getD i 0

section Pieces
variable {α : Type} (blockSize : Nat) (compress : α → Buf → α)

def blockLoop (data : List (BitVec 8)) : Nat → Nat → α → α × Nat
  | 0, off, state => (state, off)
  | fuel + 1, off, state =>
    if off + blockSize ≤ data.length then blockLoop data fuel (off + blockSize) (compress state (slice data off))
    else (state, off)

/-- `update` behind the partial buffer: full blocks, then the rest. -/
def Hasher.finish (h : Hasher α) (data : List (BitVec 8)) (off : Nat) : Hasher α :=
  let (state, off) := blockLoop blockSize compress data data.length off h.state
  let rem := data.length - off
  if rem > 0 then
    { h with state := state, buf := putBytes h.buf 0 ((data.drop off).take rem), bufLen := rem % 256 }
  else { h with state := state }

def Hasher.update (h : Hasher α) (data : List (BitVec 8)) : Option (Hasher α) :=
  if h.totalLen + data.length ≥ 2 ^ 64 then none
  else
    let h := { h with totalLen := h.totalLen + data.length }
    if h.bufLen > 0 then
      let need := blockSize - h.bufLen
      if data.length < need then
        some { h with buf := putBytes h.buf h.bufLen data, bufLen := (h.bufLen + data.length % 256) % 256 }
      else
        let buf := putBytes h.buf h.bufLen (data.take need)
        some (Hasher.finish blockSize compress { h with state := compress h.state buf, buf := buf, bufLen := 0 } data need)
    else some (Hasher.finish blockSize compress h data 0)

/-- The state at the end: the padding, then `lenBytes` for the length in bits. -/
def Hasher.final (lengthSize : Nat) (lenBytes : Nat → List (BitVec 8)) (h : Hasher α) : Option α := do
  let bitLen := h.totalLen * 8
  if bitLen ≥ 2 ^ 64 then none
  else
    let padLen :=
      if h.bufLen < blockSize - lengthSize then blockSize - lengthSize - h.bufLen
      else 2 * blockSize - lengthSize - h.bufLen
    let h ← h.update blockSize compress (((0x80 : BitVec 8) :: List.replicate (2 * blockSize - 1) 0).take padLen)
    let h ← h.update blockSize compress (lenBytes bitLen)
    return h.state

end Pieces

/-! ## SHA-256 -/

def Sha256.init : Hasher (Regs 32) where
  state := ⟨0x6a09e667, 0xbb67ae85, 0x3c6ef372, 0xa54ff53a, 0x510e527f, 0x9b05688c, 0x1f83d9ab, 0x5be0cd19⟩
  buf := fun _ => 0
  bufLen := 0
  totalLen := 0

def Sha256.update : Hasher (Regs 32) → List (BitVec 8) → Option (Hasher (Regs 32)) :=
  Hasher.update 64 Sha256.compress

def Sha256.final (h : Hasher (Regs 32)) : Option (List (BitVec 8)) := do
  let r ← h.final 64 Sha256.compress 8 fun bitLen => store64be (BitVec.ofNat 64 bitLen)
  return [r.a, r.b, r.c, r.d, r.e, r.f, r.g, r.h].flatMap store32be

/-! ## SHA-512 -/

def Sha512.initState : Hasher (Regs 64) where
  state := ⟨0x6a09e667f3bcc908, 0xbb67ae8584caa73b, 0x3c6ef372fe94f82b, 0xa54ff53a5f1d36f1,
    0x510e527fade682d1, 0x9b05688c2b3e6c1f, 0x1f83d9abfb41bd6b, 0x5be0cd19137e2179⟩
  buf := fun _ => 0
  bufLen := 0
  totalLen := 0

def Sha512.update : Hasher (Regs 64) → List (BitVec 8) → Option (Hasher (Regs 64)) :=
  Hasher.update 128 Sha512.compress

/-- `final512`; the upper half of the length is 0. -/
def Sha512.final512 (h : Hasher (Regs 64)) : Option (List (BitVec 8)) := do
  let r ← h.final 128 Sha512.compress 16 fun bitLen => List.replicate 8 0 ++ store64be (BitVec.ofNat 64 bitLen)
  return [r.a, r.b, r.c, r.d, r.e, r.f, r.g, r.h].flatMap store64be

/-! ## Words and bytes -/

section Words
variable {w : Nat}

theorem or_placed {hi s : Nat} (b : BitVec 8) (hs : s + 8 ≤ w) (h : 2 ^ (s + 8) ∣ hi) :
    BitVec.ofNat w hi ||| placed w b s = BitVec.ofNat w (hi + b.toNat * 2 ^ s) := by
  have hb : b.toNat * 2 ^ s < 2 ^ (s + 8) := by
    rw [Nat.add_comm, Nat.pow_add]
    exact (Nat.mul_lt_mul_right (Nat.two_pow_pos s)).2 b.isLt
  have hw : 2 ^ (s + 8) ∣ 2 ^ w := Nat.pow_dvd_pow 2 hs
  have hle : 2 ^ (s + 8) ≤ 2 ^ w := Nat.le_of_dvd (Nat.two_pow_pos w) hw
  obtain ⟨q, hq⟩ : 2 ^ (s + 8) ∣ hi % 2 ^ w := (Nat.dvd_mod_iff hw).2 h
  have hlt := Nat.mod_lt hi (Nat.two_pow_pos w)
  obtain ⟨n, hn⟩ := hw
  have hqn : q < n := by
    rw [hq, hn] at hlt
    exact Nat.lt_of_mul_lt_mul_left hlt
  have hsum : 2 ^ (s + 8) * q + b.toNat * 2 ^ s < 2 ^ w := by
    have := Nat.mul_le_mul_left (2 ^ (s + 8)) (Nat.succ_le_of_lt hqn)
    rw [Nat.mul_succ] at this
    omega
  have hbyte : b.toNat % 2 ^ w = b.toNat := by
    have := Nat.le_mul_of_pos_right b.toNat (Nat.two_pow_pos s)
    exact Nat.mod_eq_of_lt (by omega)
  apply BitVec.eq_of_toNat_eq
  rw [BitVec.toNat_or, placed, BitVec.toNat_shiftLeft, BitVec.toNat_setWidth, BitVec.toNat_ofNat, BitVec.toNat_ofNat,
    hbyte, Nat.shiftLeft_eq, Nat.mod_eq_of_lt (Nat.lt_of_lt_of_le hb hle), hq, ← Nat.two_pow_add_eq_or_of_lt hb,
    Nat.add_mod, hq, Nat.mod_eq_of_lt (Nat.lt_of_lt_of_le hb hle), Nat.mod_eq_of_lt hsum]

theorem placed_eq {s : Nat} (b : BitVec 8) (hs : s + 8 ≤ w) : placed w b s = BitVec.ofNat w (0 + b.toNat * 2 ^ s) := by
  rw [← or_placed b hs (Nat.dvd_zero _)]
  simp

theorem load32be_eq (b : Buf) (off : Nat) : load32be b off = BitVec.ofNat 32 (getBE b off 4) := by
  rw [load32be, placed_eq _ (by decide), or_placed _ (by decide) (by omega), or_placed _ (by decide) (by omega),
    or_placed _ (by decide) (by omega)]
  congr 1
  simp [getBE, getLE, Bytes.flip]
  omega

theorem load64be_eq (b : Buf) (off : Nat) : load64be b off = BitVec.ofNat 64 (getBE b off 8) := by
  rw [load64be, placed_eq _ (by decide), or_placed _ (by decide) (by omega), or_placed _ (by decide) (by omega),
    or_placed _ (by decide) (by omega), or_placed _ (by decide) (by omega), or_placed _ (by decide) (by omega),
    or_placed _ (by decide) (by omega), or_placed _ (by decide) (by omega)]
  congr 1
  simp [getBE, getLE, Bytes.flip]
  omega

theorem setWidth_shift (v : BitVec w) (s : Nat) : (v >>> s).setWidth 8 = BitVec.ofNat 8 (v.toNat / 2 ^ s) := by
  apply BitVec.eq_of_toNat_eq
  rw [BitVec.toNat_setWidth, BitVec.toNat_ushiftRight, BitVec.toNat_ofNat, Nat.shiftRight_eq_div_pow]

theorem store32be_eq (v : BitVec 32) : store32be v = bigEndian 4 v.toNat := by
  have hlow : v.setWidth 8 = BitVec.ofNat 8 (v.toNat / 2 ^ 0) := by
    rw [← setWidth_shift]
    rfl
  rw [store32be, hlow, setWidth_shift, setWidth_shift, setWidth_shift]
  rfl

theorem store64be_eq (v : BitVec 64) : store64be v = bigEndian 8 v.toNat := by
  have hlow : v.setWidth 8 = BitVec.ofNat 8 (v.toNat / 2 ^ 0) := by
    rw [← setWidth_shift]
    rfl
  rw [store64be, hlow]
  simp only [setWidth_shift]
  rfl

end Words

/-! ## Compression is that of the standard -/

section Compression
variable {w : Nat}

theorem fillSchedule_get (v : Variant w) (m : Nat → BitVec w) {i : Nat} (hi : i < v.rounds) (h16 : 16 ≤ v.rounds) :
    (fillSchedule v.sigma0 v.sigma1 v.rounds m).getD i 0 = schedule v m i := by
  have hall : ∀ n, ∀ x, x = (List.range n).foldl
      (fun x j => x.push (v.sigma1 (x.getD (16 + j - 2) 0) + x.getD (16 + j - 7) 0 +
        v.sigma0 (x.getD (16 + j - 15) 0) + x.getD (16 + j - 16) 0)) ((List.range 16).map m).toArray →
      x.size = 16 + n ∧ ∀ i < 16 + n, x.getD i 0 = schedule v m i := by
    intro n
    induction n with
    | zero =>
      rintro x rfl
      refine ⟨rfl, fun i hi => ?_⟩
      rw [schedule, if_pos hi]
      simp [Array.getD, hi]
    | succ n ih =>
      rintro x rfl
      rw [List.range_succ (n := n), List.foldl_append, List.foldl_cons, List.foldl_nil]
      obtain ⟨hsize, hget⟩ := ih _ rfl
      generalize (List.range n).foldl _ _ = x at hsize hget ⊢
      refine ⟨by rw [Array.size_push, hsize, Nat.add_assoc], fun i hi => ?_⟩
      by_cases hlt : i < 16 + n
      · rw [← hget i hlt]
        simp only [Array.getD_eq_getD_getElem?]
        rw [Array.getElem?_push_lt (by omega), Array.getElem?_eq_getElem (by omega)]
      · obtain rfl : i = 16 + n := by omega
        rw [hget _ (by omega), hget _ (by omega), hget _ (by omega), hget _ (by omega), schedule.eq_1 v m (16 + n),
          if_neg (by omega)]
        simp only [Array.getD_eq_getD_getElem?]
        rw [← hsize, Array.getElem?_push_size]
        rfl
  obtain ⟨-, hget⟩ := hall (v.rounds - 16) _ rfl
  exact hget i (by omega)

theorem k256_eq : ∀ t < 64, k256.getD t 0 = sha256.k t := by decide +kernel

theorem k512_eq : ∀ t < 80, k512.getD t 0 = sha512.k t := by decide +kernel

theorem init256_eq : Sha256.init.state = sha256.initial := by decide +kernel

theorem init512_eq : Sha512.initState.state = sha512.initial := by decide +kernel

theorem rotr32_eq (x : BitVec 32) {n : Nat} (h : n < 32) : rotr32 x n = x.rotateRight n := by
  rw [rotr32, BitVec.rotateRight_eq_rotateRightAux_of_lt h]
  rfl

theorem rotr64_eq (x : BitVec 64) {n : Nat} (h : n < 64) : rotr64 x n = x.rotateRight n := by
  rw [rotr64, BitVec.rotateRight_eq_rotateRightAux_of_lt h]
  rfl

theorem gamma0_256_eq : gamma0_256 = sha256.sigma0 := by
  funext x
  simp [gamma0_256, sha256, rotr32_eq]

theorem gamma1_256_eq : gamma1_256 = sha256.sigma1 := by
  funext x
  simp [gamma1_256, sha256, rotr32_eq]

theorem round256_eq (x : Array (BitVec 32)) (r : Regs 32) {t : Nat} (ht : t < 64) :
    round256 x r t = round sha256 t (x.getD t 0) r := by
  have h0 : sigma0_256 r.a = sha256.bigSigma0 r.a := by simp [sigma0_256, sha256, rotr32_eq]
  have h1 : sigma1_256 r.e = sha256.bigSigma1 r.e := by simp [sigma1_256, sha256, rotr32_eq]
  unfold round256 Fips180.round
  rw [h0, h1, k256_eq t ht]
  rfl

theorem Sha256.compress_eq (state : Regs 32) (block : Buf) :
    Sha256.compress state block = compressWords sha256 state (wordsOf 32 block) := by
  have hload : (fun i => load32be block (i * 4)) = wordsOf 32 block := by
    funext i
    rw [load32be_eq]
    rfl
  have hrounds : sha256.rounds = 64 := rfl
  unfold Sha256.compress compressWords
  rw [hload, gamma0_256_eq, gamma1_256_eq]
  refine congrArg state.add ?_
  rw [hrounds]
  apply List.foldl_ext
  intro r t ht
  have ht := List.mem_range.1 ht
  have hget := fillSchedule_get sha256 (wordsOf 32 block) ht (by decide)
  rw [hrounds] at hget
  rw [round256_eq _ r ht, hget]

theorem round512_eq (x : Array (BitVec 64)) (r : Regs 64) {t : Nat} (ht : t < 80) :
    round512 x r t = round sha512 t (x.getD t 0) r := by
  have h0 : rotr64 r.a 28 ^^^ rotr64 r.a 34 ^^^ rotr64 r.a 39 = sha512.bigSigma0 r.a := by simp [sha512, rotr64_eq]
  have h1 : rotr64 r.e 14 ^^^ rotr64 r.e 18 ^^^ rotr64 r.e 41 = sha512.bigSigma1 r.e := by simp [sha512, rotr64_eq]
  unfold round512 Fips180.round
  rw [h0, h1, k512_eq t ht]
  rfl

theorem Sha512.compress_eq (state : Regs 64) (block : Buf) :
    Sha512.compress state block = compressWords sha512 state (wordsOf 64 block) := by
  have hload : (fun i => load64be block (i * 8)) = wordsOf 64 block := by
    funext i
    rw [load64be_eq]
    rfl
  have hgamma0 : (fun y => rotr64 y 1 ^^^ rotr64 y 8 ^^^ (y >>> 7)) = sha512.sigma0 := by
    funext y
    simp [sha512, rotr64_eq]
  have hgamma1 : (fun y => rotr64 y 19 ^^^ rotr64 y 61 ^^^ (y >>> 6)) = sha512.sigma1 := by
    funext y
    simp [sha512, rotr64_eq]
  have hrounds : sha512.rounds = 80 := rfl
  unfold Sha512.compress compressWords
  rw [hload, hgamma0, hgamma1]
  refine congrArg state.add ?_
  rw [hrounds]
  apply List.foldl_ext
  intro r t ht
  have ht := List.mem_range.1 ht
  have hget := fillSchedule_get sha512 (wordsOf 64 block) ht (by decide)
  rw [hrounds] at hget
  rw [round512_eq _ r ht, hget]

theorem schedule_congr (v : Variant w) {m m' : Nat → BitVec w} (h : ∀ i < 16, m i = m' i) (t : Nat) :
    schedule v m t = schedule v m' t := by
  induction t using Nat.strongRecOn with
  | ind t ih =>
    rw [schedule.eq_1 v m t, schedule.eq_1 v m' t]
    split
    case isTrue ht => exact h t ht
    case isFalse ht => rw [ih _ (by omega), ih _ (by omega), ih _ (by omega), ih _ (by omega)]

theorem compressWords_congr (v : Variant w) (hash : Regs w) {b b' : Buf} (h : ∀ i < 16 * (w / 8), b i = b' i) :
    compressWords v hash (wordsOf w b) = compressWords v hash (wordsOf w b') := by
  have hwords : ∀ i < 16, wordsOf w b i = wordsOf w b' i := by
    intro i hi
    refine congrArg (BitVec.ofNat w) (getBE_congr fun k hk => h _ ?_)
    have := Nat.mul_le_mul_right (w / 8) (Nat.succ_le_of_lt hi)
    rw [Nat.succ_mul] at this
    omega
  unfold compressWords
  refine congrArg hash.add ?_
  apply List.foldl_ext
  intro r t _
  rw [schedule_congr v hwords]

end Compression

/-! ## Any pieces -/

section Stream
variable {α : Type} {blockSize : Nat} {compress : α → Buf → α} {start : α} {h : Hasher α} {msg data : List (BitVec 8)}

def onList (compress : α → Buf → α) (state : α) (block : List (BitVec 8)) : α := compress state fun i => block.getD i 0

structure Hashes (blockSize : Nat) (compress : α → Buf → α) (start : α) (h : Hasher α) (msg : List (BitVec 8)) : Prop where
  state : h.state = Blocks.feed blockSize (onList compress) start msg
  bufLen : h.bufLen = (Blocks.rest blockSize msg).length
  buf : ∀ i < h.bufLen, h.buf i = (Blocks.rest blockSize msg).getD i 0

def Local (blockSize : Nat) (compress : α → Buf → α) : Prop :=
  ∀ state b b', (∀ i < blockSize, b i = b' i) → compress state b = compress state b'

theorem getD_take {n i : Nat} (h : i < n) (xs : List (BitVec 8)) : (xs.take n).getD i 0 = xs.getD i 0 := by
  simp [List.getD_eq_getElem?_getD, h]

theorem blockLoop_eq (hB : 0 < blockSize) (hlocal : Local blockSize compress) {fuel off : Nat} (hoff : off ≤ data.length)
    (hfuel : data.length - off ≤ fuel) (state : α) :
    blockLoop blockSize compress data fuel off state =
      (Blocks.feed blockSize (onList compress) state (data.drop off),
        off + (data.length - off) / blockSize * blockSize) := by
  induction fuel generalizing off state with
  | zero =>
    obtain rfl : off = data.length := by omega
    rw [blockLoop, List.drop_length, Nat.sub_self, Nat.zero_div, Nat.zero_mul, Blocks.feed_of_lt hB]
    rfl
  | succ fuel ih =>
    rw [blockLoop]
    split
    case isTrue hfull =>
      have hblock : compress state (slice data off) = onList compress state ((data.drop off).take blockSize) :=
        hlocal state _ _ fun i hi => (getD_take hi _).symm
      have hsplit : (data.drop off).take blockSize ++ data.drop (off + blockSize) = data.drop off := by
        rw [← List.drop_drop, List.take_append_drop]
      rw [ih hfull (by omega), hblock, ← Blocks.feed_block hB (by rw [List.length_take, List.length_drop]; omega), hsplit]
      congr 1
      rw [show data.length - off = data.length - (off + blockSize) + blockSize by omega, Nat.add_div_right _ hB,
        Nat.succ_mul]
      omega
    case isFalse hfull =>
      have hshort : (data.drop off).length < blockSize := by
        rw [List.length_drop]
        omega
      rw [Blocks.feed_of_lt hshort, Nat.div_eq_of_lt (by omega), Nat.zero_mul]
      rfl

theorem Hashes.finish (hB : 0 < blockSize) (hB' : blockSize ≤ 128) (hlocal : Local blockSize compress) {off : Nat}
    (hoff : off ≤ data.length) (hempty : h.bufLen = 0)
    (hstate : Blocks.feed blockSize (onList compress) h.state (data.drop off) =
      Blocks.feed blockSize (onList compress) start msg)
    (hrest : Blocks.rest blockSize (data.drop off) = Blocks.rest blockSize msg) :
    Hashes blockSize compress start (h.finish blockSize compress data off) msg ∧
      (h.finish blockSize compress data off).totalLen = h.totalLen := by
  have hmod := Nat.div_add_mod (data.length - off) blockSize
  have hlt := Nat.mod_lt (data.length - off) hB
  rw [Nat.mul_comm] at hmod
  have hlen : (Blocks.rest blockSize msg).length = (data.length - off) % blockSize := by
    rw [← hrest, Blocks.length_rest, List.length_drop]
  unfold Hasher.finish
  rw [blockLoop_eq hB hlocal hoff (Nat.sub_le _ _), hstate]
  dsimp only
  split
  case isTrue hrem =>
    refine ⟨⟨rfl, ?_, ?_⟩, rfl⟩
    · rw [hlen]
      dsimp only
      omega
    · intro i hi
      dsimp only at hi ⊢
      rw [← hrest, Blocks.rest, List.length_drop, List.drop_drop]
      have hilt : i < (List.drop (off + (data.length - off) / blockSize * blockSize) data).length := by
        rw [List.length_drop]
        omega
      rw [List.take_of_length_le (by rw [List.length_drop])]
      have hput : putBytes h.buf 0 _ (0 + i) = _ := putBytes_get hilt
      rw [Nat.zero_add] at hput
      rw [hput, List.getD_eq_getElem?_getD, List.getElem?_eq_getElem hilt]
      rfl
  case isFalse hrem =>
    refine ⟨⟨rfl, ?_, ?_⟩, rfl⟩
    · rw [hlen]
      dsimp only
      omega
    · intro i hi
      dsimp only at hi
      omega

theorem Hashes.buf_append (w : Hashes blockSize compress start h msg) {i : Nat} (hi : i < h.bufLen + data.length) :
    putBytes h.buf h.bufLen data i = (Blocks.rest blockSize msg ++ data).getD i 0 := by
  have hbuf := w.bufLen
  by_cases hold : i < h.bufLen
  · rw [putBytes_of_notMem (.inl hold), w.buf i hold, List.getD_append _ _ _ _ (by omega)]
  · obtain ⟨k, rfl⟩ := Nat.exists_eq_add_of_le (Nat.not_lt.1 hold)
    have hk : k < data.length := by omega
    rw [putBytes_get hk, List.getD_append_right _ _ _ _ (by omega), hbuf, Nat.add_sub_cancel_left,
      List.getD_eq_getElem _ _ hk]

/-- **A piece is absorbed**, whatever is in the buffer. -/
theorem Hashes.update (hB : 0 < blockSize) (hB' : blockSize ≤ 128) (hlocal : Local blockSize compress)
    (w : Hashes blockSize compress start h msg) (data : List (BitVec 8)) (hlen : h.totalLen + data.length < 2 ^ 64) :
    ∃ h', h.update blockSize compress data = some h' ∧ Hashes blockSize compress start h' (msg ++ data) ∧
      h'.totalLen = h.totalLen + data.length := by
  have hlt : (Blocks.rest blockSize msg).length < blockSize := by
    rw [Blocks.length_rest]
    exact Nat.mod_lt _ hB
  have hbuf := w.bufLen
  have hfeed := Blocks.feed_append (f := onList compress) (s := start) hB msg data
  have hrest := Blocks.rest_append hB msg data
  rw [← w.state] at hfeed
  unfold Hasher.update
  rw [if_neg (Nat.not_le.2 hlen)]
  dsimp only
  split
  case isTrue hpos =>
    split
    case isTrue hshort =>
      -- the piece does not fill the buffer
      have hsmall : (Blocks.rest blockSize msg ++ data).length < blockSize := by
        rw [List.length_append]
        omega
      rw [Blocks.feed_of_lt hsmall] at hfeed
      rw [Blocks.rest_of_lt hsmall] at hrest
      refine ⟨_, rfl, ⟨hfeed.symm, ?_, ?_⟩, rfl⟩
      · rw [hrest, List.length_append]
        dsimp only
        omega
      · intro i hi
        dsimp only at hi ⊢
        rw [hrest]
        exact w.buf_append (by omega)
    case isFalse hfull =>
      -- the buffer is filled and compressed
      have hneed : blockSize - h.bufLen ≤ data.length := Nat.not_lt.1 hfull
      have hblock : (Blocks.rest blockSize msg ++ data.take (blockSize - h.bufLen)).length = blockSize := by
        rw [List.length_append, List.length_take]
        omega
      have hcompress : compress h.state (putBytes h.buf h.bufLen (data.take (blockSize - h.bufLen))) =
          onList compress h.state (Blocks.rest blockSize msg ++ data.take (blockSize - h.bufLen)) := by
        refine hlocal _ _ _ fun i hi => w.buf_append ?_
        rw [List.length_append] at hblock
        omega
      have hsplit : Blocks.rest blockSize msg ++ data =
          (Blocks.rest blockSize msg ++ data.take (blockSize - h.bufLen)) ++ data.drop (blockSize - h.bufLen) := by
        rw [List.append_assoc, List.take_append_drop]
      rw [hsplit, Blocks.feed_block hB hblock] at hfeed
      rw [hsplit, Blocks.rest_block hB hblock] at hrest
      obtain ⟨hdone, htotal⟩ := Hashes.finish hB hB' hlocal (h := ⟨_, _, 0, h.totalLen + data.length⟩) hneed rfl
        (by rw [hfeed, ← hcompress]) hrest.symm
      exact ⟨_, rfl, hdone, htotal⟩
  case isFalse hzero =>
    have hnil : Blocks.rest blockSize msg = [] := List.eq_nil_of_length_eq_zero (by omega)
    rw [hnil, List.nil_append] at hfeed hrest
    obtain ⟨hdone, htotal⟩ := Hashes.finish hB hB' hlocal (h := { h with totalLen := h.totalLen + data.length })
      (Nat.zero_le _) (by dsimp only; omega) hfeed.symm hrest.symm
    exact ⟨_, rfl, hdone, htotal⟩

theorem Hashes.pieces (hB : 0 < blockSize) (hB' : blockSize ≤ 128) (hlocal : Local blockSize compress)
    (w : Hashes blockSize compress start h msg) (htotal : h.totalLen = msg.length) (chunks : List (List (BitVec 8)))
    (hlen : (msg ++ chunks.flatten).length < 2 ^ 64) :
    ∃ h', chunks.foldlM (Hasher.update blockSize compress) h = some h' ∧
      Hashes blockSize compress start h' (msg ++ chunks.flatten) ∧ h'.totalLen = (msg ++ chunks.flatten).length := by
  induction chunks generalizing h msg with
  | nil =>
    rw [List.flatten_nil, List.append_nil]
    exact ⟨h, rfl, w, htotal⟩
  | cons c cs ih =>
    rw [List.flatten_cons, ← List.append_assoc] at hlen ⊢
    have hfirst : (msg ++ c).length < 2 ^ 64 := by
      rw [List.length_append] at hlen
      omega
    rw [List.length_append] at hfirst
    obtain ⟨h₁, hrun, w₁, htotal₁⟩ := w.update hB hB' hlocal c (by omega)
    obtain ⟨h', hrest, w', htotal'⟩ := ih w₁ (by rw [htotal₁, htotal, List.length_append]) hlen
    refine ⟨h', ?_, w', htotal'⟩
    rw [List.foldlM_cons, hrun]
    exact hrest

/-- **The end**: the state is that of the padded message. -/
theorem Hashes.final (word : Nat) (lenBytes : Nat → List (BitVec 8)) (hB : blockSize = 16 * (word / 8)) (hword : 8 ≤ word)
    (hB' : blockSize ≤ 128) (hlocal : Local blockSize compress)
    (hbytes : ∀ n < 2 ^ 64, lenBytes n = bigEndian (2 * (word / 8)) n)
    (w : Hashes blockSize compress start h msg) (htotal : h.totalLen = msg.length) (hlen : msg.length < 2 ^ 61) :
    h.final blockSize compress (2 * (word / 8)) lenBytes =
      some (Blocks.feed blockSize (onList compress) start (msg ++ padding word msg.length)) := by
  have hq : 0 < word / 8 := Nat.div_pos hword (by decide)
  have hbuf : h.bufLen = msg.length % blockSize := by
    rw [w.bufLen, Blocks.length_rest]
  have hlt := Nat.mod_lt msg.length (show 0 < blockSize by omega)
  unfold Hasher.final
  dsimp only
  rw [if_neg (by omega)]
  have hpadLen : ∃ zeros, (if h.bufLen < blockSize - 2 * (word / 8) then blockSize - 2 * (word / 8) - h.bufLen
        else 2 * blockSize - 2 * (word / 8) - h.bufLen) = zeros + 1 ∧
      padding word msg.length = (0x80 :: List.replicate zeros 0) ++ bigEndian (2 * (word / 8)) (8 * msg.length) ∧
      zeros < 2 * blockSize - 1 := by
    refine ⟨(32 * (word / 8) - 1 - 2 * (word / 8) - msg.length % (16 * (word / 8))) % (16 * (word / 8)), ?_, rfl, ?_⟩
    · rw [hbuf, hB]
      rw [hB] at hlt
      generalize word / 8 = q at *
      generalize msg.length % (16 * q) = m at *
      split
      case isTrue hshort =>
        rw [show 32 * q - 1 - 2 * q - m = 14 * q - 1 - m + 16 * q by omega, Nat.add_mod_right,
          Nat.mod_eq_of_lt (by omega)]
        omega
      case isFalse hlong =>
        rw [Nat.mod_eq_of_lt (by omega)]
        omega
    · have := Nat.mod_lt (32 * (word / 8) - 1 - 2 * (word / 8) - msg.length % (16 * (word / 8)))
        (show 0 < 16 * (word / 8) by omega)
      omega
  obtain ⟨zeros, hpadLen, hpadding, hzeros⟩ := hpadLen
  have htake : ((0x80 : BitVec 8) :: List.replicate (2 * blockSize - 1) 0).take (zeros + 1) =
      0x80 :: List.replicate zeros 0 := by
    rw [List.take_succ_cons, List.take_replicate, Nat.min_eq_left (by omega)]
  rw [hpadLen, htake]
  obtain ⟨h₁, hrun₁, w₁, htotal₁⟩ := w.update (by omega) hB' hlocal (0x80 :: List.replicate zeros 0) (by
    rw [List.length_cons, List.length_replicate]
    omega)
  obtain ⟨h₂, hrun₂, w₂, -⟩ := w₁.update (by omega) hB' hlocal (lenBytes (h.totalLen * 8)) (by
    rw [htotal₁, hbytes _ (by omega), length_bigEndian, List.length_cons, List.length_replicate]
    omega)
  rw [hrun₁]
  dsimp only [Option.bind_eq_bind, Option.bind_some]
  rw [hrun₂]
  have hstate := w₂.state
  rw [hbytes _ (by omega), List.append_assoc, htotal, Nat.mul_comm msg.length 8, ← hpadding] at hstate
  exact congrArg some hstate

theorem hashes_start (hB : 0 < blockSize) (hempty : h.bufLen = 0) : Hashes blockSize compress h.state h [] where
  state := (Blocks.feed_of_lt hB).symm
  bufLen := by
    rw [hempty, Blocks.rest_of_lt hB]
    rfl
  buf := by
    intro i hi
    omega

theorem update_totalLen {h' : Hasher α} (hrun : h.update blockSize compress data = some h') :
    h'.totalLen = h.totalLen + data.length := by
  have hfinish : ∀ g : Hasher α, ∀ off, (g.finish blockSize compress data off).totalLen = g.totalLen := by
    intro g off
    unfold Hasher.finish
    dsimp only
    split
    · rfl
    · rfl
  unfold Hasher.update at hrun
  split at hrun
  · cases hrun
  · dsimp only at hrun
    split at hrun
    · split at hrun
      · cases hrun
        rfl
      · cases hrun
        exact hfinish _ _
    · cases hrun
      exact hfinish _ _

theorem pieces_totalLen {h' : Hasher α} {chunks : List (List (BitVec 8))}
    (hrun : chunks.foldlM (Hasher.update blockSize compress) h = some h') :
    h'.totalLen = h.totalLen + chunks.flatten.length := by
  induction chunks generalizing h with
  | nil =>
    cases hrun
    rfl
  | cons c cs ih =>
    rw [List.foldlM_cons] at hrun
    obtain ⟨h₁, hfirst, hrest⟩ := Option.bind_eq_some_iff.1 hrun
    rw [ih hrest, update_totalLen hfirst, List.flatten_cons, List.length_append, Nat.add_assoc]

theorem final_eq_none {lengthSize : Nat} {lenBytes : Nat → List (BitVec 8)} (hlen : 2 ^ 61 ≤ h.totalLen) :
    h.final blockSize compress lengthSize lenBytes = none := by
  unfold Hasher.final
  dsimp only
  rw [if_pos (by omega)]

end Stream

/-- `Sha256` over the pieces of a message. -/
def sha256Pieces (chunks : List (List (BitVec 8))) : Option (List (BitVec 8)) :=
  (chunks.foldlM Sha256.update Sha256.init).bind Sha256.final

/-- `Sha512` over the pieces of a message. -/
def sha512Pieces (chunks : List (List (BitVec 8))) : Option (List (BitVec 8)) :=
  (chunks.foldlM Sha512.update Sha512.initState).bind Sha512.final512

theorem Sha256.isLocal : Local 64 Sha256.compress := by
  intro state b b' h
  rw [Sha256.compress_eq, Sha256.compress_eq]
  exact compressWords_congr sha256 state h

theorem Sha512.isLocal : Local 128 Sha512.compress := by
  intro state b b' h
  rw [Sha512.compress_eq, Sha512.compress_eq]
  exact compressWords_congr sha512 state h

theorem bigEndian_zeros {m n value : Nat} (h : value < 256 ^ n) :
    bigEndian (m + n) value = List.replicate m 0 ++ bigEndian n value := by
  apply List.ext_getElem
  · simp
  · intro i hi _
    rw [length_bigEndian] at hi
    rw [List.getElem_append]
    split
    case isTrue hlow =>
      rw [List.length_replicate] at hlow
      have hdiv : value / 256 ^ (m + n - 1 - i) = 0 :=
        Nat.div_eq_of_lt (Nat.lt_of_lt_of_le h (Nat.pow_le_pow_right (by decide) (by omega)))
      simp [bigEndian, hdiv]
    case isFalse hhigh =>
      rw [List.length_replicate] at hhigh
      simp only [bigEndian, List.getElem_map, List.getElem_range, List.length_replicate]
      rw [show m + n - 1 - i = n - 1 - (i - m) by omega]

theorem sha256Pieces_eq {chunks : List (List (BitVec 8))} (hlen : chunks.flatten.length < 2 ^ 61) :
    sha256Pieces chunks = some (digest sha256 chunks.flatten) := by
  have hstart : Hashes 64 Sha256.compress Sha256.init.state Sha256.init [] := hashes_start (by decide) rfl
  obtain ⟨h, hrun, w, htotal⟩ := hstart.pieces (by decide) (by decide) Sha256.isLocal rfl chunks
    (by rw [List.nil_append]; omega)
  rw [List.nil_append] at w htotal
  have hfinal := w.final 32 (fun n => store64be (BitVec.ofNat 64 n)) rfl (by decide) (by decide) Sha256.isLocal
    (fun n hn => by
      rw [store64be_eq, BitVec.toNat_ofNat, Nat.mod_eq_of_lt hn]) htotal hlen
  have hlist : onList Sha256.compress = Fips180.compress sha256 := by
    funext state block
    exact Sha256.compress_eq state _
  have hbytes : store32be = fun x => bigEndian (32 / 8) x.toNat := by
    funext x
    exact store32be_eq x
  rw [hlist, init256_eq, show 2 * (32 / 8) = 8 from rfl] at hfinal
  have hrun' : chunks.foldlM Sha256.update Sha256.init = some h := hrun
  rw [sha256Pieces, hrun', Option.bind_some, Sha256.final, hfinal, hbytes]
  rfl

theorem sha512Pieces_eq {chunks : List (List (BitVec 8))} (hlen : chunks.flatten.length < 2 ^ 61) :
    sha512Pieces chunks = some (digest sha512 chunks.flatten) := by
  have hstart : Hashes 128 Sha512.compress Sha512.initState.state Sha512.initState [] := hashes_start (by decide) rfl
  obtain ⟨h, hrun, w, htotal⟩ := hstart.pieces (by decide) (by decide) Sha512.isLocal rfl chunks
    (by rw [List.nil_append]; omega)
  rw [List.nil_append] at w htotal
  have hfinal := w.final 64 (fun n => List.replicate 8 0 ++ store64be (BitVec.ofNat 64 n)) rfl (by decide) (by decide) Sha512.isLocal
    (fun n hn => by
      rw [store64be_eq, BitVec.toNat_ofNat, Nat.mod_eq_of_lt hn]
      exact (bigEndian_zeros hn).symm) htotal hlen
  have hlist : onList Sha512.compress = Fips180.compress sha512 := by
    funext state block
    exact Sha512.compress_eq state _
  have hbytes : store64be = fun x => bigEndian (64 / 8) x.toNat := by
    funext x
    exact store64be_eq x
  rw [hlist, init512_eq, show 2 * (64 / 8) = 16 from rfl] at hfinal
  have hrun' : chunks.foldlM Sha512.update Sha512.initState = some h := hrun
  rw [sha512Pieces, hrun', Option.bind_some, Sha512.final512, hfinal, hbytes]
  rfl

/-- **Hash streaming**: whatever the pieces, the digest is that of FIPS 180-4 for the whole message, if that has fewer than
`2 ^ 61` bytes. -/
theorem hash_streaming (chunks : List (List (BitVec 8))) (hlen : chunks.flatten.length < 2 ^ 61) :
    sha256Pieces chunks = some (digest sha256 chunks.flatten) ∧
      sha512Pieces chunks = some (digest sha512 chunks.flatten) :=
  ⟨sha256Pieces_eq hlen, sha512Pieces_eq hlen⟩

/-- The message `abc` in three pieces, one of them empty. -/
theorem hash_streaming_abc :
    sha256Pieces [[0x61], [], [0x62, 0x63]] = some (digest sha256 [0x61, 0x62, 0x63]) ∧
      sha512Pieces [[0x61], [], [0x62, 0x63]] = some (digest sha512 [0x61, 0x62, 0x63]) :=
  hash_streaming [[0x61], [], [0x62, 0x63]] (by decide)

theorem sha512Pieces_eq_none {chunks : List (List (BitVec 8))} (hlen : 2 ^ 61 ≤ chunks.flatten.length) :
    sha512Pieces chunks = none := by
  unfold sha512Pieces
  cases hrun : chunks.foldlM Sha512.update Sha512.initState with
  | none => rfl
  | some h =>
    have htotal : h.totalLen = 0 + chunks.flatten.length := pieces_totalLen hrun
    rw [Option.bind_some, Sha512.final512, final_eq_none (by omega)]
    rfl

/-- FIPS 180-4 has a SHA-512 digest of `2 ^ 61` zero bytes; the 64-bit counter of the code does not hold their number of
bits. -/
theorem hash_streaming_long :
    sha512Pieces [List.replicate (2 ^ 61) 0] ≠ some (digest sha512 (List.replicate (2 ^ 61) 0)) := by
  rw [sha512Pieces_eq_none]
  · exact Option.some_ne_none _ |>.symm
  · rw [List.flatten_singleton, List.length_replicate]

end Zigix.Sha2
