import Zigix.Crypto.Poly1305Spec
import Zigix.Crypto.Sha2

/-!
# ChaCha20 and the packet cipher (`userspace/zsshd/crypto.zig`)

The cipher of SSH packets: the length under one key, the rest under another, and a tag over both. The nonce is the
sequence number of the packet.

* `chacha20Xor`, `encryptLength`, `decryptLength`, `aeadEncrypt`, `aeadDecrypt` : the code;
* `decryptLength_encryptLength`, `aeadDecrypt_aeadEncrypt` : who has the keys and the number gets the packet back.
-/

namespace Zigix.Crypto

open Bytes

/-! ## ChaCha20 -/

def rotl32 (x : BitVec 32) (n : Nat) : BitVec 32 := (x <<< n) ||| (x >>> (32 - n))

def quarterRound (state : Vector (BitVec 32) 16) (a b c d : Fin 16) : Vector (BitVec 32) 16 :=
  let state := state.set a (state[a] + state[b])
  let state := state.set d (state[d] ^^^ state[a])
  let state := state.set d (rotl32 state[d] 16)
  let state := state.set c (state[c] + state[d])
  let state := state.set b (state[b] ^^^ state[c])
  let state := state.set b (rotl32 state[b] 12)
  let state := state.set a (state[a] + state[b])
  let state := state.set d (state[d] ^^^ state[a])
  let state := state.set d (rotl32 state[d] 8)
  let state := state.set c (state[c] + state[d])
  let state := state.set b (state[b] ^^^ state[c])
  state.set b (rotl32 state[b] 7)

/-- One turn of the loop of `chacha20_block`: four columns, then four diagonals. -/
def doubleRound (working : Vector (BitVec 32) 16) : Vector (BitVec 32) 16 :=
  let working := quarterRound working 0 4 8 12
  let working := quarterRound working 1 5 9 13
  let working := quarterRound working 2 6 10 14
  let working := quarterRound working 3 7 11 15
  let working := quarterRound working 0 5 10 15
  let working := quarterRound working 1 6 11 12
  let working := quarterRound working 2 7 8 13
  quarterRound working 3 4 9 14

def initialState (key : Buf) (counter : BitVec 32) (nonce : Buf) : Vector (BitVec 32) 16 :=
  Vector.ofFn fun i =>
    if i = 0 then 0x61707865
    else if i = 1 then 0x3320646e
    else if i = 2 then 0x79622d32
    else if i = 3 then 0x6b206574
    else if i < 12 then BitVec.ofNat 32 (load32le key ((i - 4) * 4))
    else if i = 12 then counter
    else BitVec.ofNat 32 (load32le nonce ((i - 13) * 4))

def chacha20Block (key : Buf) (counter : BitVec 32) (nonce : Buf) : Buf :=
  let state := initialState key counter nonce
  let working := (List.range 10).foldl (fun w _ => doubleRound w) state
  (List.finRange 16).foldl (fun out (i : Fin 16) => store32le out (i * 4) (working[i] + state[i]).toNat) fun _ => 0

/-- The loop of `chacha20_xor`: the counter grows with each block of 64 bytes and may wrap. -/
def chacha20Xor (data : List (BitVec 8)) (key : Buf) (counter : BitVec 32) (nonce : Buf) : List (BitVec 8) :=
  if data.length = 0 then []
  else
    let block := chacha20Block key counter nonce
    (data.take 64).mapIdx (fun i x => x ^^^ block i) ++ chacha20Xor (data.drop 64) key (counter + 1) nonce
termination_by data.length
decreasing_by
  rw [List.length_drop]
  omega

/-! ## The packet cipher -/

/-- Eight zero bytes, then the sequence number. -/
def opensshNonce (seq : BitVec 32) : Buf := putBE (fun _ => 0) 8 4 seq.toNat

def encryptLength (pktLen : BitVec 32) (keyHeader : Buf) (seq : BitVec 32) : List (BitVec 8) :=
  chacha20Xor (Sha2.store32be pktLen) keyHeader 0 (opensshNonce seq)

def decryptLength (encLen : List (BitVec 8)) (keyHeader : Buf) (seq : BitVec 32) : BitVec 32 :=
  Sha2.load32be (Sha2.slice (chacha20Xor encLen keyHeader 0 (opensshNonce seq)) 0) 0

/-- The room for the text in `mac_data`. -/
def maxText : Nat := 4096

/-- The ciphertext and the 16 bytes of the tag. The key of the tag is the first half of block 0; `none` is a copy outside
`mac_data`. -/
def aeadEncrypt (plaintext aad : List (BitVec 8)) (keyMain : Buf) (seq : BitVec 32) :
    Option (List (BitVec 8) × List (BitVec 8)) := do
  let nonce := opensshNonce seq
  let polyKey := chacha20Block keyMain 0 nonce
  let ciphertext := chacha20Xor plaintext keyMain 1 nonce
  guard (plaintext.length ≤ maxText)
  let tag ← poly1305Mac (aad ++ ciphertext) polyKey
  return (ciphertext, (List.range 16).map tag)

def tagDiff (expected : Buf) (tag : List (BitVec 8)) : BitVec 8 :=
  (List.range 16).foldl (fun diff i => diff ||| (expected i ^^^ tag.getD i 0)) 0

/-- The plaintext; `some none` if the tag is wrong. -/
def aeadDecrypt (ciphertext tag aad : List (BitVec 8)) (keyMain : Buf) (seq : BitVec 32) :
    Option (Option (List (BitVec 8))) := do
  let nonce := opensshNonce seq
  let polyKey := chacha20Block keyMain 0 nonce
  guard (ciphertext.length ≤ maxText)
  let expectedTag ← poly1305Mac (aad ++ ciphertext) polyKey
  if tagDiff expectedTag tag ≠ 0 then return none
  else return some (chacha20Xor ciphertext keyMain 1 nonce)

/-! ## Back again -/

section Inverse
variable {data : List (BitVec 8)} {key nonce : Buf} {counter seq : BitVec 32}

theorem chacha20Xor_nil : chacha20Xor [] key counter nonce = [] := by
  rw [chacha20Xor]
  rfl

theorem chacha20Xor_block (h : data.length ≠ 0) : chacha20Xor data key counter nonce =
    (data.take 64).mapIdx (fun i x => x ^^^ chacha20Block key counter nonce i) ++
      chacha20Xor (data.drop 64) key (counter + 1) nonce := by
  rw [chacha20Xor, if_neg h]

@[simp] theorem length_chacha20Xor : (chacha20Xor data key counter nonce).length = data.length := by
  induction hl : data.length using Nat.strongRecOn generalizing data counter with
  | ind l ih =>
    rw [chacha20Xor]
    split
    · rename_i h
      rw [List.length_nil]
      omega
    · rename_i h
      rw [List.length_append, List.length_mapIdx, List.length_take,
        ih (data.drop 64).length (by rw [List.length_drop]; omega) rfl, List.length_drop]
      omega

/-- **The keystream twice is nothing.** -/
theorem chacha20Xor_xor : chacha20Xor (chacha20Xor data key counter nonce) key counter nonce = data := by
  induction hl : data.length using Nat.strongRecOn generalizing data counter with
  | ind l ih =>
    by_cases h : data.length = 0
    · rw [List.length_eq_zero_iff.1 h, chacha20Xor_nil, chacha20Xor_nil]
    · -- the first block of the ciphertext is that of the text; the rest is the same loop one block later
      have hcipher := @chacha20Xor_block data key nonce counter h
      obtain ⟨first, hfirst⟩ : ∃ first, first = (data.take 64).mapIdx fun i x => x ^^^ chacha20Block key counter nonce i :=
        ⟨_, rfl⟩
      rw [← hfirst] at hcipher
      have hblock : first.length = min 64 data.length := by
        rw [hfirst, List.length_mapIdx, List.length_take]
      have hcut : first.length = 64 ∨ chacha20Xor (data.drop 64) key (counter + 1) nonce = [] := by
        rcases Nat.lt_or_ge data.length 64 with hshort | hlong
        · rw [List.drop_eq_nil_of_le (by omega), chacha20Xor_nil]
          exact .inr rfl
        · exact .inl (by omega)
      have htake : (chacha20Xor data key counter nonce).take 64 = first := by
        rw [hcipher]
        rcases hcut with hlong | hnil
        · exact List.take_left' hlong
        · rw [hnil, List.append_nil, List.take_of_length_le (by omega)]
      have hdrop : (chacha20Xor data key counter nonce).drop 64 = chacha20Xor (data.drop 64) key (counter + 1) nonce := by
        rw [hcipher]
        rcases hcut with hlong | hnil
        · exact List.drop_left' hlong
        · rw [hnil, List.append_nil, List.drop_eq_nil_of_le (by omega)]
      have hback : first.mapIdx (fun i x => x ^^^ chacha20Block key counter nonce i) = data.take 64 := by
        rw [hfirst, List.mapIdx_mapIdx]
        apply List.ext_getElem
        · rw [List.length_mapIdx]
        · intro i h₁ h₂
          rw [List.getElem_mapIdx, Function.comp_apply, BitVec.xor_assoc, BitVec.xor_self, BitVec.xor_zero]
      rw [chacha20Xor_block (by rwa [length_chacha20Xor]), htake, hdrop, hback,
        ih (data.drop 64).length (by rw [List.length_drop]; omega) rfl, List.take_append_drop]

theorem load32be_store32be (v : BitVec 32) : Sha2.load32be (Sha2.slice (Sha2.store32be v) 0) 0 = v := by
  apply BitVec.eq_of_getLsbD_eq
  intro i hi
  simp only [Sha2.load32be, Sha2.slice, Sha2.store32be, Sha2.placed, List.drop_zero, List.getD_cons_zero,
    List.getD_cons_succ, BitVec.getLsbD_or, BitVec.getLsbD_shiftLeft, BitVec.getLsbD_setWidth, BitVec.getLsbD_ushiftRight]
  grind

theorem length_encryptLength (pktLen : BitVec 32) : (encryptLength pktLen key seq).length = 4 := length_chacha20Xor

theorem decryptLength_encryptLength (pktLen : BitVec 32) : decryptLength (encryptLength pktLen key seq) key seq = pktLen := by
  rw [decryptLength, encryptLength, chacha20Xor_xor, load32be_store32be]

theorem tagDiff_self (tag : Buf) : tagDiff tag ((List.range 16).map tag) = 0 := by
  have hall : ∀ is : List Nat, (∀ i ∈ is, i < 16) →
      is.foldl (fun diff i => diff ||| (tag i ^^^ ((List.range 16).map tag).getD i 0)) 0 = 0 := by
    intro is his
    induction is with
    | nil => rfl
    | cons i is ih =>
      have hi : i < 16 := his i List.mem_cons_self
      rw [List.foldl_cons, List.getD_eq_getElem _ _ (by rw [List.length_map, List.length_range]; exact hi),
        List.getElem_map, List.getElem_range, BitVec.xor_self, BitVec.or_zero]
      exact ih fun j hj => his j (List.mem_cons_of_mem _ hj)
  exact hall _ fun i hi => List.mem_range.1 hi

/-- **What was encrypted is accepted and decrypted**, under the same key and number. -/
theorem aeadDecrypt_aeadEncrypt (aad : List (BitVec 8)) (key : Buf) (seq : BitVec 32) (h : data.length ≤ maxText) :
    ∃ ciphertext tag, aeadEncrypt data aad key seq = some (ciphertext, tag) ∧ ciphertext.length = data.length ∧
      tag.length = 16 ∧ aeadDecrypt ciphertext tag aad key seq = some (some data) := by
  obtain ⟨tag, htag⟩ := poly1305Mac_total (chacha20Block key 0 (opensshNonce seq))
    (aad ++ chacha20Xor data key 1 (opensshNonce seq))
  refine ⟨chacha20Xor data key 1 (opensshNonce seq), (List.range 16).map tag, ?_, length_chacha20Xor, ?_, ?_⟩
  · simp only [aeadEncrypt, if_pos h, guard, htag, Option.bind_eq_bind, Option.pure_def, Option.bind_some]
  · rw [List.length_map, List.length_range]
  · have hlen : (chacha20Xor data key 1 (opensshNonce seq)).length ≤ maxText := by
      rwa [length_chacha20Xor]
    simp only [aeadDecrypt, if_pos hlen, guard, htag, tagDiff_self, chacha20Xor_xor, Option.bind_eq_bind,
      Option.pure_def, Option.bind_some, ne_eq, not_true_eq_false, if_false]

end Inverse

end Zigix.Crypto
