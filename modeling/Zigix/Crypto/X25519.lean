import Zigix.Crypto.Field25519Spec

/-!
# The Montgomery ladder of the key exchange (`userspace/zsshd/crypto.zig`)

`scalarmult` reads bit `i` of the scalar as `z[i >> 3] >> @intCast(@as(u5, @truncate(i)))`. The shift amount of a byte is
a `u3`, and `i` modulo 32 is 30 in the first turn: the cast is illegal behaviour on every input. `toU3` is the cast as
the language defines it, `lowU3` the cast of a build that drops the check and keeps the low bits.

* `scalarmult_undefined` : no input has a result, whatever the secrets and the point;
* `scalarmultWith_lowU3` : without the check the result is the number `codeLadder` gives, for every input;
* `scalarmult_fails_at_zero` : that number is not the one of RFC 7748, and two parties do not agree on it either: the
  ladder pairs the coordinates `a`, `b` with `c`, `d` in one half and `a`, `c` with `b`, `d` in the other.
-/

namespace Zigix.Crypto

open Bytes Radix

/-! ## The code -/

/-- `@intCast` to `u3`. -/
def toU3 (s : ℕ) : Option ℕ := if s < 8 then some s else none

/-- The cast without its check. -/
def lowU3 (s : ℕ) : Option ℕ := some (s % 8)

/-- The variables `a`, `b_fe`, `c`, `d` of the ladder. -/
structure Ladder (α : Type) where
  a : α
  b : α
  c : α
  d : α
deriving DecidableEq

/-- The scalar `z`, clamped. -/
def clampScalar (n : Buf) : Buf :=
  let z := Function.update n 31 ((n 31 &&& 127) ||| 64)
  Function.update z 0 (z 0 &&& 248)

/-- The constant `a121665`. -/
def a121665 : Fe := fun i => if i = 0 then 0xdb41 else if i = 1 then 1 else 0

def ladderStep (x : Fe) (bit : ℤ) (s : Ladder Fe) : Option (Ladder Fe) := do
  let ac := feCswap s.a s.c bit
  let bd := feCswap s.b s.d bit
  let e ← feAdd ac.1 bd.1
  let f ← feSub ac.1 bd.1
  let g ← feAdd ac.2 bd.2
  let h ← feSub ac.2 bd.2
  let _a ← feMul e h
  let _b ← feMul f g
  let _c ← feSq e
  let da ← feMul f g
  let cb ← feMul e h
  let t1 ← feAdd cb da
  let t2 ← feSub cb da
  let b ← feSq t1
  let t3 ← feSq t2
  let d ← feMul t3 x
  let aa ← feSq e
  let bb ← feSq f
  let a ← feMul aa bb
  let t4 ← feSub aa bb
  let t5 ← feMul a121665 t4
  let c ← feAdd bb t5
  let c ← feMul c t4
  let ac := feCswap a c bit
  let bd := feCswap b d bit
  return ⟨ac.1, bd.1, ac.2, bd.2⟩

/-- The turns from `i = k - 1` down to 0. -/
def ladderLoop (cast : ℕ → Option ℕ) (z : Buf) (x : Fe) : ℕ → Ladder Fe → Option (Ladder Fe)
  | 0, s => some s
  | i + 1, s => do
    let shift ← cast (i % 32)
    let bit := (z (i / 8)).toNat / 2 ^ shift % 2
    let s ← ladderStep x bit s
    ladderLoop cast z x i s

/-- `scalarmult(q, n, p)`: the bytes of `q`. -/
def scalarmultWith (cast : ℕ → Option ℕ) (n p : Buf) : Option Buf := do
  let z := clampScalar n
  let x := feUnpack p
  let s ← ladderLoop cast z x 255 ⟨feOne, x, feZero, feOne⟩
  let inv ← feInv s.d
  let a ← feMul s.c inv
  fePack a

def scalarmult : Buf → Buf → Option Buf := scalarmultWith toU3

/-- The base point 9. -/
def curve25519Basepoint : Buf := fun i => if i = 0 then 9 else 0

/-! ## RFC 7748 -/

structure RfcLadder where
  x₂ : ℤ
  z₂ : ℤ
  x₃ : ℤ
  z₃ : ℤ
  swap : ℕ

/-- The two conditional swaps. -/
def RfcLadder.cswap (s : RfcLadder) (swap : ℕ) : RfcLadder :=
  if swap = 1 then { s with x₂ := s.x₃, z₂ := s.z₃, x₃ := s.x₂, z₃ := s.z₂ } else s

/-- One turn, with the bit `kt` of the scalar. -/
def rfcStep (u : ℤ) (kt : ℕ) (s : RfcLadder) : RfcLadder :=
  let s := s.cswap ((s.swap + kt) % 2)
  let a := s.x₂ + s.z₂
  let aa := a ^ 2
  let b := s.x₂ - s.z₂
  let bb := b ^ 2
  let e := aa - bb
  let c := s.x₃ + s.z₃
  let d := s.x₃ - s.z₃
  let da := d * a
  let cb := c * b
  { x₃ := (da + cb) ^ 2 % prime25519
    z₃ := u * (da - cb) ^ 2 % prime25519
    x₂ := aa * bb % prime25519
    z₂ := e * (aa + 121665 * e) % prime25519
    swap := kt }

/-- The turns from `t = bits - 1` down to 0. -/
def rfcLoop (k : ℕ) (u : ℤ) : ℕ → RfcLadder → RfcLadder
  | 0, s => s
  | t + 1, s => rfcLoop k u t (rfcStep u (k / 2 ^ t % 2) s)

/-- The point before the final division. -/
def rfcPoint (n p : Buf) : RfcLadder :=
  let k := getLE (clampScalar n) 0 32
  let u : ℤ := (getLE p 0 32 % 2 ^ 255 : ℕ)
  let s := rfcLoop k u 255 ⟨1, 0, u, 1, 0⟩
  s.cswap s.swap

/-- The function X25519 of RFC 7748: the `x`-coordinate of the clamped scalar times the point with `x`-coordinate `p`. -/
def x25519 (n p : Buf) : ℤ :=
  let s := rfcPoint n p
  s.x₂ * s.z₂ ^ (2 ^ 255 - 21) % prime25519

/-- `mult(n, p)` is what RFC 7748 says. -/
def IsX25519 (mult : Buf → Buf → Option Buf) (n p : Buf) : Prop :=
  ∃ q, mult n p = some q ∧ (getLE q 0 32 : ℤ) = x25519 n p

/-- Two parties with the secrets `a`, `b` compute one shared secret. -/
def Agree (mult : Buf → Buf → Option Buf) (a b : Buf) : Prop :=
  ∃ pa pb k k', mult a curve25519Basepoint = some pa ∧ mult b curve25519Basepoint = some pb ∧
    mult a pb = some k ∧ mult b pa = some k' ∧ ∀ i < 32, k i = k' i

/-! ## The number the ladder computes -/

/-- The turn of `ladderStep` on numbers. -/
def codeStep (x : ℤ) (bit : ℕ) (s : Ladder ℤ) : Ladder ℤ :=
  let (a, c) := if bit = 1 then (s.c, s.a) else (s.a, s.c)
  let (b, d) := if bit = 1 then (s.d, s.b) else (s.b, s.d)
  let e := a + b
  let f := a - b
  let da := f * (c + d)
  let cb := e * (c - d)
  let aa := e * e
  let bb := f * f
  let b := (cb + da) * (cb + da) % prime25519
  let d := (cb - da) * (cb - da) * x % prime25519
  let t4 := aa - bb
  let a := aa * bb % prime25519
  let c := (bb + 121665 * t4) * t4 % prime25519
  if bit = 1 then ⟨c, d, a, b⟩ else ⟨a, b, c, d⟩

def codeLoop (z : Buf) (x : ℤ) : ℕ → Ladder ℤ → Ladder ℤ
  | 0, s => s
  | i + 1, s => codeLoop z x i (codeStep x ((z (i / 8)).toNat / 2 ^ (i % 32 % 8) % 2) s)

def codePoint (n : Buf) (x : ℤ) : Ladder ℤ := codeLoop (clampScalar n) x 255 ⟨1, x, 0, 1⟩

/-- The number that `scalarmult` encodes in a build without the check of the cast. -/
def codeLadder (n : Buf) (x : ℤ) : ℤ :=
  let s := codePoint n x
  s.c * s.d ^ (2 ^ 255 - 21) % prime25519

/-- The element `a` is reduced and represents `v`. -/
structure Stands (a : Fe) (v : ℤ) : Prop where
  below : Below 17 a
  modEq : feValue a ≡ v [ZMOD prime25519]

/-- The four coordinates do. -/
structure StandsFor (s : Ladder Fe) (v : Ladder ℤ) : Prop where
  a : Stands s.a v.a
  b : Stands s.b v.b
  c : Stands s.c v.c
  d : Stands s.d v.d

section Step
variable {a b c d x : Fe} {u v w : ℤ}

theorem Stands.mul {n : ℕ} (ha : Below n a) (hn : n ≤ 24) (hb : Below n b) (hu : feValue a ≡ u [ZMOD prime25519])
    (hv : feValue b ≡ v [ZMOD prime25519]) : ∃ o, feMul a b = some o ∧ Stands o (u * v) := by
  obtain ⟨o, hrun, hval, hbelow⟩ := feMul_spec (ha.mono hn) (hb.mono hn)
  exact ⟨o, hrun, hbelow, hval.trans (hu.mul hv)⟩

theorem Stands.add (ha : Stands a u) (hb : Stands b v) :
    ∃ o, feAdd a b = some o ∧ Below 18 o ∧ feValue o ≡ u + v [ZMOD prime25519] := by
  obtain ⟨o, hrun, hval, hbelow⟩ := feAdd_spec ha.below hb.below (by norm_num)
  refine ⟨o, hrun, hbelow, ?_⟩
  rw [hval]
  exact ha.modEq.add hb.modEq

theorem Stands.sub (ha : Stands a u) (hb : Stands b v) :
    ∃ o, feSub a b = some o ∧ Below 18 o ∧ feValue o ≡ u - v [ZMOD prime25519] := by
  obtain ⟨o, hrun, hval, hbelow⟩ := feSub_spec ha.below hb.below (by norm_num)
  refine ⟨o, hrun, hbelow, ?_⟩
  rw [hval]
  exact ha.modEq.sub hb.modEq

theorem Stands.mod (h : Stands a u) : Stands a (u % prime25519) := ⟨h.below, h.modEq.trans (Int.mod_modEq u _).symm⟩

theorem feCswap_snd (p q : Fe) (bit : ℤ) : (feCswap p q bit).2 = (feCswap q p bit).1 := by
  funext i
  simp only [feCswap]
  rw [BitVec.xor_comm (BitVec.ofInt 64 (p i))]

theorem Stands.congr (h : Stands a u) (heq : ∀ i < 16, b i = a i) : Stands b u := by
  refine ⟨fun i hi => ?_, ?_⟩
  · rw [heq i hi]
    exact h.below i hi
  · rw [feValue, value_congr heq]
    exact h.modEq

theorem Stands.cswap (ha : Stands a u) (hb : Stands b v) {bit : ℕ} (hbit : bit < 2) :
    Stands (feCswap a b bit).1 (if bit = 1 then v else u) := by
  have hrange : ∀ {p : Fe} {w : ℤ}, Stands p w → ∀ i < 16, -2 ^ 63 ≤ p i ∧ p i < 2 ^ 63 := by
    intro p w hp i hi
    have hlt := abs_lt.1 (hp.below i hi)
    constructor <;> linarith
  have hfst := fun i hi => feCswap_fst (hrange ha i hi) (hrange hb i hi)
  obtain rfl | rfl : bit = 0 ∨ bit = 1 := by omega
  · exact ha.congr fun i hi => (hfst i hi).1
  · exact hb.congr fun i hi => (hfst i hi).2

theorem Stands.cswap_snd (ha : Stands a u) (hb : Stands b v) {bit : ℕ} (hbit : bit < 2) :
    Stands (feCswap a b bit).2 (if bit = 1 then u else v) := by
  rw [feCswap_snd]
  exact hb.cswap ha hbit

theorem a121665_stands : Stands a121665 121665 := by
  refine ⟨fun i _ => ?_, ?_⟩
  · unfold a121665
    split_ifs <;> norm_num
  · have hvalue : feValue a121665 = 121665 := by
      simp [feValue, value, Finset.sum_range_succ, a121665]
    rw [hvalue]

theorem ladderStep_spec {s : Ladder Fe} {s' : Ladder ℤ} {bit : ℕ} (hbit : bit < 2) (hx : Stands x u)
    (h : StandsFor s s') : ∃ t, ladderStep x bit s = some t ∧ StandsFor t (codeStep u bit s') := by
  have ha := h.a.cswap h.c hbit
  have hb := h.b.cswap h.d hbit
  have hc := h.a.cswap_snd h.c hbit
  have hd := h.b.cswap_snd h.d hbit
  obtain ⟨e, he, hbe, hve⟩ := ha.add hb
  obtain ⟨f, hf, hbf, hvf⟩ := ha.sub hb
  obtain ⟨g, hg, hbg, hvg⟩ := hc.add hd
  obtain ⟨k, hk, hbk, hvk⟩ := hc.sub hd
  obtain ⟨da, hda, sda⟩ := Stands.mul hbf (by norm_num) hbg hvf hvg
  obtain ⟨cb, hcb, scb⟩ := Stands.mul hbe (by norm_num) hbk hve hvk
  obtain ⟨aa, haa, saa⟩ := Stands.mul hbe (by norm_num) hbe hve hve
  obtain ⟨bb, hbb, sbb⟩ := Stands.mul hbf (by norm_num) hbf hvf hvf
  obtain ⟨t1, ht1, hb1, hv1⟩ := scb.add sda
  obtain ⟨t2, ht2, hb2, hv2⟩ := scb.sub sda
  obtain ⟨b', hb', sb'⟩ := Stands.mul hb1 (by norm_num) hb1 hv1 hv1
  obtain ⟨t3, ht3, st3⟩ := Stands.mul hb2 (by norm_num) hb2 hv2 hv2
  obtain ⟨d', hd', sd'⟩ := Stands.mul st3.below (by norm_num) hx.below st3.modEq hx.modEq
  obtain ⟨a', ha', sa'⟩ := Stands.mul saa.below (by norm_num) sbb.below saa.modEq sbb.modEq
  obtain ⟨t4, ht4, hb4, hv4⟩ := saa.sub sbb
  obtain ⟨t5, ht5, st5⟩ :=
    Stands.mul (a121665_stands.below.mono (by norm_num)) (by norm_num) hb4 a121665_stands.modEq hv4
  obtain ⟨c₀, hc₀, hbc₀, hvc₀⟩ := sbb.add st5
  obtain ⟨c', hc', sc'⟩ := Stands.mul hbc₀ (by norm_num) hb4 hvc₀ hv4
  refine ⟨⟨(feCswap a' c' bit).1, (feCswap b' d' bit).1, (feCswap a' c' bit).2, (feCswap b' d' bit).2⟩, ?_, ?_⟩
  · unfold ladderStep
    refine Option.bind_eq_some_iff.2 ⟨e, he, Option.bind_eq_some_iff.2 ⟨f, hf, Option.bind_eq_some_iff.2 ⟨g, hg, ?_⟩⟩⟩
    refine Option.bind_eq_some_iff.2 ⟨k, hk, Option.bind_eq_some_iff.2 ⟨cb, hcb, Option.bind_eq_some_iff.2 ⟨da, hda, ?_⟩⟩⟩
    refine Option.bind_eq_some_iff.2 ⟨aa, haa, Option.bind_eq_some_iff.2 ⟨da, hda, Option.bind_eq_some_iff.2 ⟨cb, hcb, ?_⟩⟩⟩
    refine Option.bind_eq_some_iff.2 ⟨t1, ht1, Option.bind_eq_some_iff.2 ⟨t2, ht2, Option.bind_eq_some_iff.2 ⟨b', hb', ?_⟩⟩⟩
    refine Option.bind_eq_some_iff.2 ⟨t3, ht3, Option.bind_eq_some_iff.2 ⟨d', hd', Option.bind_eq_some_iff.2 ⟨aa, haa, ?_⟩⟩⟩
    refine Option.bind_eq_some_iff.2 ⟨bb, hbb, Option.bind_eq_some_iff.2 ⟨a', ha', Option.bind_eq_some_iff.2 ⟨t4, ht4, ?_⟩⟩⟩
    refine Option.bind_eq_some_iff.2 ⟨t5, ht5, Option.bind_eq_some_iff.2 ⟨c₀, hc₀, Option.bind_eq_some_iff.2 ⟨c', hc', ?_⟩⟩⟩
    rfl
  · have hra := sa'.mod.cswap sc'.mod hbit
    have hrb := sb'.mod.cswap sd'.mod hbit
    have hrc := sa'.mod.cswap_snd sc'.mod hbit
    have hrd := sb'.mod.cswap_snd sd'.mod hbit
    obtain rfl | rfl : bit = 0 ∨ bit = 1 := by omega
    · exact ⟨hra, hrb, hrc, hrd⟩
    · exact ⟨hra, hrb, hrc, hrd⟩

end Step

theorem ladderLoop_spec {z : Buf} {x : Fe} {u : ℤ} (hx : Stands x u) (k : ℕ) {s : Ladder Fe} {s' : Ladder ℤ}
    (h : StandsFor s s') : ∃ t, ladderLoop lowU3 z x k s = some t ∧ StandsFor t (codeLoop z u k s') := by
  induction k generalizing s s' with
  | zero => exact ⟨s, rfl, h⟩
  | succ i ih =>
    obtain ⟨t, hstep, ht⟩ := ladderStep_spec (Nat.mod_lt ((z (i / 8)).toNat / 2 ^ (i % 32 % 8)) (by norm_num)) hx h
    obtain ⟨t', hrun, ht'⟩ := ih ht
    refine ⟨t', ?_, ht'⟩
    unfold ladderLoop lowU3
    simp only [Option.bind_eq_bind, Option.bind_some, hstep]
    exact hrun

theorem value_feUnpack (p : Buf) {n : ℕ} (hn : n ≤ 15) : value (2 ^ 16) n (feUnpack p) = getLE p 0 (2 * n) := by
  induction n with
  | zero => rfl
  | succ n ih =>
    have hlimb : feUnpack p n = (p (2 * n)).toNat + (p (2 * n + 1)).toNat * 2 ^ 8 := by
      unfold feUnpack
      rw [if_neg (by omega)]
    have hpow : ((2 : ℤ) ^ 16) ^ n = 256 ^ (2 * n) := by
      rw [pow_mul]
      norm_num
    rw [value_succ, ih (by omega), hlimb, hpow, show 2 * (n + 1) = 2 * n + 1 + 1 by ring, getLE, getLE]
    push_cast
    rw [zero_add, zero_add]
    ring

theorem feValue_feUnpack (p : Buf) : feValue (feUnpack p) = (getLE p 0 32 % 2 ^ 255 : ℕ) := by
  have hlow := getLE_lt p 0 30
  have htop : getLE p 0 32 = getLE p 0 30 + ((p 30).toNat + (p 31).toNat * 2 ^ 8) * 2 ^ 240 := by
    rw [getLE, getLE]
    ring
  have hlimb : feUnpack p 15 = (((p 30).toNat + (p 31).toNat * 2 ^ 8) % 2 ^ 15 : ℕ) := by
    unfold feUnpack
    rw [if_pos rfl]
    push_cast
    rfl
  unfold feValue
  rw [value_succ, value_feUnpack p le_rfl, hlimb, htop]
  generalize (p 30).toNat + (p 31).toNat * 2 ^ 8 = y at *
  generalize getLE p 0 (2 * 15) = l at *
  norm_num at hlow ⊢
  omega

theorem feUnpack_stands (p : Buf) : Stands (feUnpack p) (getLE p 0 32 % 2 ^ 255 : ℕ) := by
  refine ⟨fun i _ => ?_, by rw [feValue_feUnpack]⟩
  have h0 := (p (2 * i)).isLt
  have h1 := (p (2 * i + 1)).isLt
  unfold feUnpack
  rw [abs_lt]
  dsimp only
  split <;> omega

theorem scalarmultWith_lowU3 (n p : Buf) : ∃ q, scalarmultWith lowU3 n p = some q ∧
    (getLE q 0 32 : ℤ) = codeLadder n (getLE p 0 32 % 2 ^ 255 : ℕ) := by
  have hx := feUnpack_stands p
  have hone : Stands feOne 1 := by
    refine ⟨fun i _ => ?_, ?_⟩
    · unfold feOne
      split <;> norm_num
    · simp [feValue, value, feOne]
  have hzero : Stands feZero 0 := by
    refine ⟨fun i _ => by norm_num [feZero], ?_⟩
    simp [feValue, value, feZero]
  have hstart : StandsFor ⟨feOne, feUnpack p, feZero, feOne⟩ ⟨1, (getLE p 0 32 % 2 ^ 255 : ℕ), 0, 1⟩ :=
    ⟨hone, hx, hzero, hone⟩
  obtain ⟨s, hrun, hs⟩ := ladderLoop_spec (z := clampScalar n) hx 255 hstart
  obtain ⟨inv, hinv, hb, hval⟩ := invLoop_spec (hs.d.below.mono (by norm_num)) 254 1
    (hs.d.below.mono (by norm_num)) (by rw [pow_one])
  rw [expAfter_eq] at hval
  obtain ⟨a, hmul, hmod, hba⟩ := feMul_spec (hs.c.below.mono (by norm_num)) hb
  obtain ⟨q, hpack, hlt, hq⟩ := fePack_spec (hba.mono (by norm_num))
  refine ⟨q, ?_, ?_⟩
  · exact Option.bind_eq_some_iff.2 ⟨s, hrun, Option.bind_eq_some_iff.2 ⟨inv, hinv,
      Option.bind_eq_some_iff.2 ⟨a, hmul, hpack⟩⟩⟩
  · have heq := hq.trans (hmod.trans (hs.c.modEq.mul (hval.trans (hs.d.modEq.pow _))))
    rw [← Int.emod_eq_of_lt (Int.natCast_nonneg (getLE q 0 32)) hlt]
    exact heq

/-! ## Every input -/

theorem ladderLoop_toU3 (z : Buf) (x : Fe) (s : Ladder Fe) : ladderLoop toU3 z x 255 s = none := by
  have hcast : toU3 (254 % 32) = none := by decide
  rw [ladderLoop, hcast]
  rfl

theorem scalarmult_eq_none (n p : Buf) : scalarmult n p = none := by
  unfold scalarmult scalarmultWith
  simp only [ladderLoop_toU3]
  rfl

/-- **Neither law of the key exchange holds of any input**: the first bit of the scalar is read with a cast that does
not fit. -/
theorem scalarmult_undefined (a b p : Buf) : ¬ Agree scalarmult a b ∧ ¬ IsX25519 scalarmult a p := by
  refine ⟨fun h => ?_, fun h => ?_⟩
  · obtain ⟨pa, _, _, _, ha, -⟩ := h
    rw [scalarmult_eq_none] at ha
    cases ha
  · obtain ⟨q, hq, -⟩ := h
    rw [scalarmult_eq_none] at hq
    cases hq

/-! ## Without the check of the cast -/

/-- The loop of `fe_inv` on numbers. -/
def invMod (a : ℤ) : ℕ → ℤ → ℤ
  | 0, c => c
  | i + 1, c =>
    let c := c * c % prime25519
    invMod a i (if i ≠ 2 ∧ i ≠ 4 then c * a % prime25519 else c)

theorem invMod_modEq (a : ℤ) (k e : ℕ) {c : ℤ} (h : c ≡ a ^ e [ZMOD prime25519]) :
    invMod a k c ≡ a ^ expAfter k e [ZMOD prime25519] := by
  induction k generalizing e c with
  | zero => exact h
  | succ i ih =>
    have hsq : c * c % prime25519 ≡ a ^ (2 * e) [ZMOD prime25519] := by
      refine (Int.mod_modEq _ _).trans ((h.mul h).trans ?_)
      rw [← pow_add, two_mul]
    refine ih _ ?_
    split
    · refine (Int.mod_modEq _ _).trans ((hsq.mul_right a).trans ?_)
      rw [← pow_succ]
    · exact hsq

theorem mul_pow_emod (x a : ℤ) : x * a ^ (2 ^ 255 - 21) % prime25519 = x * invMod a 254 a % prime25519 := by
  have hinv := invMod_modEq a 254 1 (c := a) (by rw [pow_one])
  rw [expAfter_eq] at hinv
  exact (hinv.mul_left x).symm

/-- The number of `codeLadder`, computed. -/
def codeNumber (n : Buf) (x : ℤ) : ℤ :=
  let s := codePoint n x
  s.c * invMod s.d 254 s.d % prime25519

theorem codeLadder_eq (n : Buf) (x : ℤ) : codeLadder n x = codeNumber n x := mul_pow_emod _ _

theorem codeLadder_bounds (n : Buf) (x : ℤ) : 0 ≤ codeLadder n x ∧ codeLadder n x < 2 ^ 255 :=
  ⟨Int.emod_nonneg _ (by decide), (Int.emod_lt_of_pos _ (by decide)).trans (by decide)⟩

theorem codeLadder_of_agree {a b : Buf} (h : Agree (scalarmultWith lowU3) a b) :
    codeNumber a (codeNumber b 9) = codeNumber b (codeNumber a 9) := by
  have hpoint : ∀ {n p q : Buf}, scalarmultWith lowU3 n p = some q →
      (getLE q 0 32 : ℤ) = codeLadder n (getLE p 0 32 % 2 ^ 255 : ℕ) := by
    intro n p q hq
    obtain ⟨q', hq', hval⟩ := scalarmultWith_lowU3 n p
    rw [hq'] at hq
    cases hq
    exact hval
  have hbase : ∀ {n q : Buf}, scalarmultWith lowU3 n curve25519Basepoint = some q →
      ((getLE q 0 32 % 2 ^ 255 : ℕ) : ℤ) = codeLadder n 9 := by
    intro n q hq
    have hval := hpoint hq
    have hnine : getLE curve25519Basepoint 0 32 % 2 ^ 255 = 9 := by decide +kernel
    rw [hnine] at hval
    obtain ⟨hlo, hhi⟩ := codeLadder_bounds n 9
    rw [Nat.mod_eq_of_lt (by exact_mod_cast hval.trans_lt hhi)]
    exact hval
  obtain ⟨pa, pb, k, k', ha, hb, hk, hk', heq⟩ := h
  have hnum : getLE k 0 32 = getLE k' 0 32 := getLE_congr fun i hi => by
    rw [zero_add]
    exact heq i hi
  rw [← codeLadder_eq, ← codeLadder_eq, ← codeLadder_eq, ← codeLadder_eq, ← hbase ha, ← hbase hb, ← hpoint hk, ← hpoint hk',
    hnum]

def zeroSecret : Buf := fun _ => 0

def eightSecret : Buf := fun i => if i = 0 then 8 else 0

/-- The two laws fail for these secrets, with the check of the cast and without it. -/
theorem scalarmult_fails_at_zero :
    ¬ Agree scalarmult zeroSecret eightSecret ∧ ¬ IsX25519 scalarmult zeroSecret curve25519Basepoint ∧
    ¬ Agree (scalarmultWith lowU3) zeroSecret eightSecret ∧
    ¬ IsX25519 (scalarmultWith lowU3) zeroSecret curve25519Basepoint := by
  refine ⟨?_, ?_, ?_, ?_⟩
  · rintro ⟨_, _, _, _, ha, -⟩
    rw [scalarmult_eq_none] at ha
    cases ha
  · rintro ⟨_, hq, -⟩
    rw [scalarmult_eq_none] at hq
    cases hq
  · intro h
    exact absurd (codeLadder_of_agree h) (by decide +kernel)
  · rintro ⟨q, hq, hval⟩
    obtain ⟨q', hq', hval'⟩ := scalarmultWith_lowU3 zeroSecret curve25519Basepoint
    rw [hq'] at hq
    cases hq
    have hnine : getLE curve25519Basepoint 0 32 % 2 ^ 255 = 9 := by decide +kernel
    rw [hval', hnine, codeLadder_eq, x25519, mul_pow_emod] at hval
    exact absurd hval (by decide +kernel)

end Zigix.Crypto
