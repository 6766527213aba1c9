import Zigix.Ssh.Handlers

/-!
# Which packets the handlers can take

* `readPacket_isSome`, `takeString_isSome` : where the reading of a packet, and of a string in it, is defined;
* `authTurn_isSome`, … : one iff a handler;
* `input_safety` : a call gets through exactly if every packet that it comes to fits.
-/

namespace Zigix.Ssh

open Bytes Pieces Turns Crypto

/-! ## Steps that are always defined -/

section Steps
variable {α β : Type} {sess sess' : SshSession} {payload body : List Byte} {cap : Nat}

theorem isSome_bind_iff {o : Option α} {f : α → Option β} :
    (o.bind f).isSome ↔ o.isSome ∧ ∀ a, o = some a → (f a).isSome := by
  cases o with
  | none => exact ⟨nofun, fun h => absurd h.1 Bool.false_ne_true⟩
  | some a => exact ⟨fun h => ⟨rfl, fun b hb => Option.some_inj.1 hb ▸ h⟩, fun h => h.2 a rfl⟩

theorem addU32_isSome {a b : Nat} : (addU32 a b).isSome ↔ a + b < 2 ^ 32 := by
  unfold addU32
  split
  · rename_i h
    exact ⟨fun _ => h, fun _ => rfl⟩
  · rename_i h
    exact ⟨nofun, fun h' => absurd h' h⟩

theorem addU32_some {a b c : Nat} (h : addU32 a b = some c) : c = a + b := by
  unfold addU32 at h
  split at h
  · exact (Option.some_inj.1 h).symm
  · cases h

theorem aeadDecrypt_total {ciphertext tag aad : List Byte} {key : Buf} {seq : BitVec 32}
    (h : ciphertext.length ≤ maxText) : ∃ plaintext, aeadDecrypt ciphertext tag aad key seq = some plaintext ∧
      ∀ bytes, plaintext = some bytes → bytes.length = ciphertext.length := by
  obtain ⟨expected, hmac⟩ := poly1305Mac_total (chacha20Block key 0 (opensshNonce seq)) (aad ++ ciphertext)
  simp only [aeadDecrypt, guard, if_pos h, hmac, Option.bind_eq_bind, Option.bind_some, Option.pure_def]
  split
  · exact ⟨_, rfl, by simp⟩
  · refine ⟨_, rfl, fun bytes hbytes => ?_⟩
    rw [← Option.some_inj.1 hbytes, length_chacha20Xor]

theorem writePacket_total (sess : SshSession) (h : payload.length ≤ 4009) :
    ∃ ok sess', writePacket sess payload = some (ok, sess') ∧ sess'.incoming = sess.incoming := by
  unfold writePacket
  split
  · obtain ⟨-, hmax, -⟩ := padLen_spec (5 + payload.length)
    have htotal : (BitVec.ofNat 32 (1 + payload.length + padLen (5 + payload.length))).toNat =
        1 + payload.length + padLen (5 + payload.length) := toNat_length (by unfold maxPacket; omega)
    have hfit : 5 + payload.length + padLen (5 + payload.length) ≤ pktSize := by unfold pktSize; omega
    have hsum : 4 + (1 + payload.length + padLen (5 + payload.length)) < 2 ^ 32 := by omega
    simp only [guard, if_pos hfit, htotal, if_pos hsum, Option.bind_eq_bind, Option.pure_def, Option.bind_some]
    split <;> exact ⟨_, _, rfl, rfl⟩
  · obtain ⟨-, hmax, -⟩ := padLen_spec (1 + payload.length)
    have hroom : 1 + payload.length + padLen (1 + payload.length) ≤ maxPacket := by unfold maxPacket; omega
    have hbody : (([BitVec.ofNat 8 (padLen (1 + payload.length))] ++ payload ++
        List.replicate (padLen (1 + payload.length)) (0 : Byte)).take
          (BitVec.ofNat 32 (1 + payload.length + padLen (1 + payload.length))).toNat).length ≤ maxText := by
      rw [toNat_length hroom]
      exact (List.length_take_le _ _).trans hroom
    obtain ⟨ciphertext, tag, hencrypt, -⟩ := aeadDecrypt_aeadEncrypt
      (encryptLength (BitVec.ofNat 32 (1 + payload.length + padLen (1 + payload.length))) sess.sendKeyHeader sess.sendSeq)
      sess.sendKeyMain sess.sendSeq hbody
    simp only [guard, if_pos hroom, hencrypt, Option.bind_eq_bind, Option.pure_def, Option.bind_some]
    split
    · exact ⟨_, _, rfl, rfl⟩
    · split
      · exact ⟨_, _, rfl, rfl⟩
      · split <;> exact ⟨_, _, rfl, rfl⟩

theorem send_total (sess : SshSession) (h : payload.length ≤ 4009) :
    ∃ sess', send sess payload = some sess' ∧ sess'.incoming = sess.incoming := by
  obtain ⟨ok, sess', hwrite, hin⟩ := writePacket_total sess h
  exact ⟨sess', by rw [send, hwrite]; rfl, hin⟩

/-! ## Reading a packet -/

/-- The bytes that still come. -/
def SshSession.left (sess : SshSession) : Nat := sess.incoming.flatten.length

theorem readBody_spec (sess : SshSession) : ∃ body sess', readBody sess = some (body, sess') ∧
    ∀ bytes, body = some bytes → bytes.length ≤ maxPacket ∧ sess'.left < sess.left := by
  unfold readBody
  rcases hfirst : readFull 4 sess.incoming with ⟨hdr, incoming⟩
  cases hdr with
  | none => exact ⟨_, _, rfl, nofun⟩
  | some hdr =>
    obtain ⟨hlen, hflat⟩ := readFull_some hfirst
    have hleft : incoming.flatten.length + 4 = sess.left := by
      rw [SshSession.left, ← hflat, List.length_append, hlen, Nat.add_comm]
    dsimp only
    split
    · split
      · exact ⟨_, _, rfl, nofun⟩
      · rename_i hrange
        rcases hsecond : readFull (getU32 (bufOf hdr) 0).toNat incoming with ⟨body, incoming'⟩
        refine ⟨_, _, rfl, fun bytes hbytes => ?_⟩
        dsimp only at hbytes
        subst hbytes
        obtain ⟨hlen', hflat'⟩ := readFull_some hsecond
        have := congrArg List.length hflat'
        rw [List.length_append] at this
        exact ⟨by omega, by change incoming'.flatten.length < _; omega⟩
    · split
      · exact ⟨_, _, rfl, nofun⟩
      · rename_i hrange
        rcases hsecond : readFull ((decryptLength hdr sess.recvKeyHeader sess.recvSeq).toNat + 16) incoming with
          ⟨body, incoming'⟩
        cases body with
        | none => exact ⟨_, _, rfl, nofun⟩
        | some body =>
          obtain ⟨hlen', hflat'⟩ := readFull_some hsecond
          have hsum := congrArg List.length hflat'
          rw [List.length_append] at hsum
          have hcipher : (body.take (decryptLength hdr sess.recvKeyHeader sess.recvSeq).toNat).length ≤ maxText :=
            (List.length_take_le _ _).trans (by change _ ≤ maxPacket; omega)
          obtain ⟨plaintext, hopen, hsize⟩ := aeadDecrypt_total hcipher
          dsimp only
          rw [hopen]
          refine ⟨plaintext, _, rfl, fun bytes hbytes => ⟨?_, ?_⟩⟩
          · rw [hsize bytes hbytes]
            exact hcipher
          · change incoming'.flatten.length < _
            omega

/-- The padding of the next packet lies inside the packet. -/
def PaddingFits (sess : SshSession) : Prop :=
  ∀ body sess', readBody sess = some (some body, sess') → (body.getD 0 0).toNat ≤ body.length - 1

/-- **`readPacket` gets through exactly if the padding fits.** -/
theorem readPacket_isSome : (readPacket sess cap).isSome ↔ PaddingFits sess := by
  obtain ⟨body, sess', hbody, -⟩ := readBody_spec sess
  unfold readPacket PaddingFits
  rw [hbody]
  cases body with
  | none => exact ⟨fun _ => nofun, fun _ => rfl⟩
  | some body =>
    simp only [Option.bind_eq_bind, Option.bind_some, Option.some_inj, Prod.mk.injEq]
    constructor
    · rintro h _ _ ⟨rfl, rfl⟩
      by_contra hlt
      rw [if_pos (by omega)] at h
      cases h
    · intro h
      rw [if_neg (by have := h body sess' ⟨rfl, rfl⟩; omega)]
      split <;> rfl

theorem readPacket_some (h : readPacket sess cap = some (payload, sess')) (hne : payload.length ≠ 0) :
    payload.length ≤ cap ∧ sess'.left < sess.left := by
  obtain ⟨body, sess₁, hbody, hspec⟩ := readBody_spec sess
  simp only [readPacket, hbody, Option.bind_eq_bind, Option.bind_some, Option.pure_def] at h
  cases body with
  | none =>
    cases h
    exact absurd rfl hne
  | some body =>
    obtain ⟨-, hless⟩ := hspec body rfl
    dsimp only at h
    split at h
    · cases h
    · split at h
      · cases h
        exact absurd rfl hne
      · rename_i hcap
        cases h
        refine ⟨(List.length_take_le _ _).trans (by omega), hless⟩

/-! ## Reading a string -/

/-- The length in front of a string at `pos`, if the payload has one there, does not leave 32 bits with its position. -/
def StringFits (buf : Buf) (plen pos : Nat) : Prop := pos + 4 ≤ plen → pos + 4 + (getU32 buf pos).toNat < 2 ^ 32

theorem u32At_of_le {buf : Buf} {plen pos : Nat} (hplen : plen ≤ bufSize) (h : pos + 4 ≤ plen) :
    u32At buf pos = some (getU32 buf pos).toNat := if_pos (h.trans hplen)

theorem takeString_isSome {buf : Buf} {plen pos : Nat} (hplen : plen ≤ bufSize) :
    (takeString buf plen pos).isSome ↔ pos + 4 < 2 ^ 32 ∧ StringFits buf plen pos := by
  unfold takeString StringFits
  rw [Option.bind_eq_bind, isSome_bind_iff, addU32_isSome]
  refine and_congr_right fun hpos => ?_
  have hstart : addU32 pos 4 = some (pos + 4) := if_pos hpos
  simp only [hstart, Option.some_inj, forall_eq']
  split
  · rename_i hlt
    exact ⟨fun _ hle => absurd hle (by omega), fun _ => rfl⟩
  · rename_i hlt
    rw [u32At_of_le hplen (by omega)]
    simp only [Option.bind_eq_bind, Option.bind_some]
    rw [isSome_bind_iff, addU32_isSome]
    refine ⟨fun h _ => h.1, fun h => ⟨h (by omega), fun stop hstop => ?_⟩⟩
    split
    · rfl
    · rename_i hstop'
      have := addU32_some hstop
      rw [sliceOf, if_pos (by omega)]
      rfl

theorem takeString_some {buf : Buf} {plen pos stop : Nat} {bytes : List Byte}
    (h : takeString buf plen pos = some (some (bytes, stop))) : stop ≤ plen := by
  unfold takeString at h
  obtain ⟨start, -, h⟩ := Option.bind_eq_some_iff.1 h
  split at h
  · cases h
  · obtain ⟨len, -, h⟩ := Option.bind_eq_some_iff.1 h
    obtain ⟨stop', -, h⟩ := Option.bind_eq_some_iff.1 h
    split at h
    · cases h
    · rename_i hle
      obtain ⟨bytes', -, h⟩ := Option.bind_eq_some_iff.1 h
      cases h
      omega

end Steps

/-! ## The password file -/

def nextValue (v : Nat) (ch : Byte) : Nat :=
  if 0x30 ≤ ch.toNat ∧ ch.toNat ≤ 0x39 then v * 10 + (ch.toNat - 0x30) else v

def number (field : List Byte) : Nat := field.foldl nextValue 0

/-- At most 255 fields, and a user and a group of 32 bits. -/
def LineFits (line : List Byte) : Prop :=
  (fields 0x3a [] line).length < 2 ^ 8 ∧ number ((fields 0x3a [] line).getD 2 []) < 2 ^ 32 ∧
    number ((fields 0x3a [] line).getD 3 []) < 2 ^ 32

def LinesFit (username : List Byte) : List (List Byte) → Prop
  | [] => True
  | line :: rest => LineFits line ∧ (matchPasswdLine username line = some none → LinesFit username rest)

def PasswdFits (passwd : Option (List Byte)) (username : List Byte) : Prop :=
  ∀ content, passwd = some content → LinesFit username (fields 0x0a [] (content.take 1024))

theorem parseDigit_eq {v : Nat} (hv : v < 2 ^ 32) (ch : Byte) :
    parseDigit v ch = if nextValue v ch < 2 ^ 32 then some (nextValue v ch) else none := by
  unfold parseDigit nextValue
  split
  · split
    · rfl
    · rw [if_neg (by omega)]
  · rfl

theorem le_foldl_nextValue (field : List Byte) (v : Nat) : v ≤ field.foldl nextValue v := by
  induction field generalizing v with
  | nil => exact Nat.le_refl v
  | cons ch field ih =>
    have hle : v ≤ nextValue v ch := by
      unfold nextValue
      split <;> omega
    exact hle.trans (ih _)

theorem parseU32_isSome (field : List Byte) : (parseU32 field).isSome ↔ number field < 2 ^ 32 := by
  have hgen : ∀ (field : List Byte) (v : Nat), v < 2 ^ 32 →
      ((field.foldlM parseDigit v).isSome ↔ field.foldl nextValue v < 2 ^ 32) := by
    intro field
    induction field with
    | nil => exact fun v hv => ⟨fun _ => hv, fun _ => rfl⟩
    | cons ch field ih =>
      intro v hv
      rw [List.foldlM_cons, List.foldl_cons, parseDigit_eq hv]
      split
      · rename_i hlt
        exact ih _ hlt
      · rename_i hge
        have := le_foldl_nextValue field (nextValue v ch)
        exact ⟨nofun, fun h => absurd h (by omega)⟩
  exact hgen field 0 (by decide)

theorem readField_isSome (username field : List Byte) (st : LineState) :
    (readField username st field).isSome ↔ (st.fieldNum = 2 ∨ st.fieldNum = 3 → number field < 2 ^ 32) := by
  unfold readField
  split
  · rename_i h
    exact ⟨fun _ hor => by omega, fun _ => rfl⟩
  · rename_i h
    rw [Option.isSome_map, parseU32_isSome]
    exact ⟨fun hlt _ => hlt, fun hlt => hlt (.inl h)⟩
  · rename_i h
    rw [Option.isSome_map, parseU32_isSome]
    exact ⟨fun hlt _ => hlt, fun hlt => hlt (.inr h)⟩
  · rename_i h0 h2 h3
    exact ⟨fun _ hor => (hor.elim h2 h3).elim, fun _ => rfl⟩

theorem readField_fieldNum {username field : List Byte} {st st' : LineState} (h : readField username st field = some st') :
    st'.fieldNum = st.fieldNum := by
  unfold readField at h
  split at h
  · rw [← Option.some_inj.1 h]
  · obtain ⟨v, -, rfl⟩ := Option.map_eq_some_iff.1 h
    rfl
  · obtain ⟨v, -, rfl⟩ := Option.map_eq_some_iff.1 h
    rfl
  · rw [← Option.some_inj.1 h]

theorem passwdFields_isSome (username : List Byte) (fs : List (List Byte)) (st : LineState) (hst : st.fieldNum < 2 ^ 8) :
    (fs.foldlM (passwdField username) st).isSome ↔ st.fieldNum + fs.length < 2 ^ 8 ∧
      ∀ i field, fs[i]? = some field → st.fieldNum + i = 2 ∨ st.fieldNum + i = 3 → number field < 2 ^ 32 := by
  induction fs generalizing st with
  | nil => exact ⟨fun _ => ⟨hst, fun i field h => by cases h⟩, fun _ => rfl⟩
  | cons f fs ih =>
    rw [List.foldlM_cons, Option.bind_eq_bind, passwdField, Option.bind_eq_bind, Option.bind_assoc, isSome_bind_iff,
      readField_isSome, List.length_cons]
    constructor
    · rintro ⟨hnum, hrest⟩
      obtain ⟨st', hst'⟩ := Option.isSome_iff_exists.1 ((readField_isSome username f st).2 hnum)
      have hsame := readField_fieldNum hst'
      have hgo := hrest st' hst'
      split at hgo
      · obtain ⟨hlen, hall⟩ := (ih _ (by assumption)).1 hgo
        refine ⟨by dsimp only at hlen; omega, fun i field hget hor => ?_⟩
        cases i with
        | zero => exact Option.some_inj.1 hget ▸ hnum hor
        | succ i =>
          rw [List.getElem?_cons_succ] at hget
          exact hall i field hget (by dsimp only; omega)
      · cases hgo
    · rintro ⟨hlen, hall⟩
      refine ⟨hall 0 f rfl, fun st' hst' => ?_⟩
      have hsame := readField_fieldNum hst'
      rw [if_pos (by omega)]
      refine (ih { st' with fieldNum := st'.fieldNum + 1 } (by dsimp only; omega)).2 ⟨by dsimp only; omega,
        fun i field hget hor => hall (i + 1) field ?_ (by dsimp only at hor; omega)⟩
      rwa [List.getElem?_cons_succ]

theorem number_getD (fs : List (List Byte)) (i : Nat) :
    number (fs.getD i []) < 2 ^ 32 ↔ ∀ field, fs[i]? = some field → number field < 2 ^ 32 := by
  rw [List.getD_eq_getElem?_getD]
  cases fs[i]? with
  | none => exact ⟨fun _ => nofun, fun _ => by decide⟩
  | some field => exact ⟨fun h f hf => Option.some_inj.1 hf ▸ h, fun h => h field rfl⟩

theorem matchPasswdLine_isSome (username line : List Byte) : (matchPasswdLine username line).isSome ↔ LineFits line := by
  unfold matchPasswdLine LineFits
  rw [Option.bind_eq_bind, isSome_bind_iff, passwdFields_isSome _ _ _ (by decide), number_getD, number_getD]
  constructor
  · rintro ⟨⟨hlen, hall⟩, -⟩
    exact ⟨by rwa [Nat.zero_add] at hlen, fun f hf => hall 2 f hf (.inl rfl), fun f hf => hall 3 f hf (.inr rfl)⟩
  · rintro ⟨hlen, huid, hgid⟩
    refine ⟨⟨by rwa [Nat.zero_add], fun i field hget hor => ?_⟩, fun st _ => ?_⟩
    · rcases hor with h | h
      · obtain rfl : i = 2 := by dsimp only at h; omega
        exact huid field hget
      · obtain rfl : i = 3 := by dsimp only at h; omega
        exact hgid field hget
    · split <;> rfl

theorem findUser_isSome (username : List Byte) (lines : List (List Byte)) :
    (findUser username lines).isSome ↔ LinesFit username lines := by
  induction lines with
  | nil => exact ⟨fun _ => trivial, fun _ => rfl⟩
  | cons line rest ih =>
    rw [findUser, LinesFit, Option.bind_eq_bind, isSome_bind_iff, matchPasswdLine_isSome]
    refine and_congr_right fun hfits => ?_
    obtain ⟨ids, hmatch⟩ := Option.isSome_iff_exists.1 ((matchPasswdLine_isSome username line).2 hfits)
    rw [hmatch]
    cases ids with
    | none => exact ⟨fun h _ => ih.1 (h none rfl), fun h ids hids => Option.some_inj.1 hids ▸ ih.2 (h rfl)⟩
    | some ids => exact ⟨fun _ => nofun, fun _ ids hids => Option.some_inj.1 hids ▸ rfl⟩

theorem validateUser_isSome (passwd : Option (List Byte)) (username : List Byte) :
    (validateUser passwd username).isSome ↔ PasswdFits passwd username := by
  unfold validateUser PasswdFits
  cases passwd with
  | none =>
    refine ⟨fun _ => nofun, fun _ => ?_⟩
    dsimp only
    split <;> rfl
  | some content =>
    dsimp only
    rw [findUser_isSome]
    exact ⟨fun h c hc => Option.some_inj.1 hc ▸ h, fun h => h content rfl⟩

/-! ## One packet for each handler -/

/-- The next packet of a session is not padded beyond its end, and its payload satisfies `fits` where it lies in the
buffer: the session behind it, the buffer, the length. -/
def NextFits (env : Env) (fits : SshSession → Buf → Nat → Prop) (sess : SshSession) : Prop :=
  PaddingFits sess ∧ ∀ payload sess', readPacket sess bufSize = some (payload, sess') → payload.length ≠ 0 →
    fits sess' (packetBuf (env.undef sess) payload) payload.length

/-- A `KEXINIT` fits the array it is saved in. -/
def KexinitFits (_ : SshSession) (buf : Buf) (plen : Nat) : Prop := buf 0 = 20 → plen ≤ kexinitSize

def BringsKey (buf : Buf) (plen : Nat) : Prop := buf 0 = 30 ∧ 37 ≤ plen ∧ getU32 buf 1 = 32

def KexFits (_ : SshSession) (buf : Buf) (plen : Nat) : Prop := ¬ BringsKey buf plen

def ServiceFits (_ : SshSession) (buf : Buf) (plen : Nat) : Prop := buf 0 = 5 → StringFits buf plen 1

def PasswordFits (env : Env) (buf : Buf) (plen : Nat) (uname : List Byte) (pos : Nat) : Prop :=
  pos < plen → StringFits buf plen (pos + 1) ∧
    ∀ password, takeString buf plen (pos + 1) = some (some password) → PasswdFits env.passwd uname

def MethodFits (env : Env) (buf : Buf) (plen : Nat) (uname : List Byte) (pos : Nat) : Prop :=
  (pos + 4 < 2 ^ 32 ∧ StringFits buf plen pos) ∧ ∀ pos',
    takeString buf plen pos = some (some (ascii "password", pos')) → PasswordFits env buf plen uname pos'

/-- The lengths `handleAuth` adds up, as far as it comes: the user name, the service name, the method. -/
def AuthFits (env : Env) (_ : SshSession) (buf : Buf) (plen : Nat) : Prop :=
  buf 0 = 50 → StringFits buf plen 1 ∧ ∀ uname pos, takeString buf plen 1 = some (some (uname, pos)) → pos + 4 ≤ plen →
    pos + 4 + (getU32 buf pos).toNat < 2 ^ 32 ∧ MethodFits env buf plen uname (pos + 4 + (getU32 buf pos).toNat)

def ChannelOpenFits (_ : SshSession) (buf : Buf) (plen : Nat) : Prop := buf 0 = 90 → StringFits buf plen 1

def ChannelRequestFits (_ : SshSession) (buf : Buf) (plen : Nat) : Prop := buf 0 = 98 → StringFits buf plen 5

def ChannelDataFits (sess : SshSession) (buf : Buf) (plen : Nat) : Prop :=
  (buf 0 = 94 → StringFits buf plen 5) ∧ (buf 0 = 98 → 5 < plen → 9 + (getU32 buf 5).toNat < 2 ^ 32) ∧
    (buf 0 = 93 → 9 ≤ plen → sess.remoteWindow.toNat + (getU32 buf 5).toNat < 2 ^ 32)

section Handlers
variable {env : Env} {sess : SshSession} {α : Type}

theorem nextFits_iff {fits : SshSession → Buf → Nat → Prop} {rest : List Byte × SshSession → Option α}
    (hnil : ∀ payload sess', payload.length = 0 → (rest (payload, sess')).isSome)
    (hrest : ∀ payload sess', payload.length ≠ 0 → payload.length ≤ bufSize →
      ((rest (payload, sess')).isSome ↔ fits sess' (packetBuf (env.undef sess) payload) payload.length)) :
    ((readPacket sess bufSize).bind rest).isSome ↔ NextFits env fits sess := by
  rw [isSome_bind_iff, readPacket_isSome]
  refine and_congr_right fun _ => ⟨fun h payload sess' hread hne => ?_, fun h p hread => ?_⟩
  · exact (hrest payload sess' hne (readPacket_some hread hne).1).1 (h _ hread)
  · by_cases hne : p.1.length = 0
    · exact hnil p.1 p.2 hne
    · exact (hrest p.1 p.2 hne (readPacket_some hread hne).1).2 (h _ _ hread hne)

theorem recvKexInit_isSome : (recvKexInit env sess).isSome ↔ NextFits env KexinitFits sess := by
  refine nextFits_iff (fun payload sess' h => ?_) fun payload sess' hne hle => ?_ <;> dsimp only
  · rw [if_pos h]
    rfl
  · unfold KexinitFits
    rw [if_neg hne]
    split
    · rename_i h
      exact ⟨fun _ h' => absurd h' h, fun _ => rfl⟩
    · rename_i h
      by_cases hfit : payload.length ≤ kexinitSize
      · rw [guard, if_pos hfit]
        exact ⟨fun _ _ => hfit, fun _ => rfl⟩
      · rw [guard, if_neg hfit]
        exact ⟨nofun, fun h' => absurd (h' (not_not.1 h)) hfit⟩

theorem answerKex_eq_none (sess : SshSession) (clientKey : List Byte) : answerKex env sess clientKey = none := by
  rw [answerKex, scalarmult_eq_none]
  rfl

theorem doKeyExchange_isSome : (doKeyExchange env sess).isSome ↔ NextFits env KexFits sess := by
  refine nextFits_iff (fun payload sess' h => ?_) fun payload sess' hne hle => ?_ <;> dsimp only
  · rw [if_pos (.inl h)]
    rfl
  · unfold KexFits BringsKey
    split
    · rename_i h
      exact ⟨fun _ h' => absurd h'.1 (h.resolve_left hne), fun _ => rfl⟩
    · rename_i h
      rw [not_or, not_not] at h
      split
      · exact ⟨fun _ h' => by omega, fun _ => rfl⟩
      · rename_i hlen
        split
        · rename_i hkey
          exact ⟨fun _ h' => hkey h'.2.2, fun _ => rfl⟩
        · rename_i hkey
          rw [answerKex_eq_none]
          exact ⟨nofun, fun h' => absurd ⟨h.2, by omega, not_not.1 hkey⟩ h'⟩

theorem writePacket_isSome {payload : List Byte} (h : payload.length ≤ 4009) : (writePacket sess payload).isSome := by
  obtain ⟨ok, sess', hwrite, -⟩ := writePacket_total sess h
  rw [hwrite]
  rfl

theorem send_isSome {payload : List Byte} (h : payload.length ≤ 4009) : (send sess payload).isSome := by
  rw [send, Option.isSome_map]
  exact writePacket_isSome h

theorem sendAuthFailure_isSome : (sendAuthFailure sess).isSome := send_isSome (by decide)

theorem handleServiceRequest_isSome : (handleServiceRequest env sess).isSome ↔ NextFits env ServiceFits sess := by
  refine nextFits_iff (fun payload sess' h => ?_) fun payload sess' hne hle => ?_ <;> dsimp only
  · rw [if_pos (.inl h)]
    rfl
  · unfold ServiceFits StringFits
    split
    · rename_i h
      exact ⟨fun _ h' => absurd h' (h.resolve_left hne), fun _ => rfl⟩
    · rename_i h
      rw [not_or, not_not] at h
      split
      · exact ⟨fun _ _ h' => by omega, fun _ => rfl⟩
      · rename_i hlen
        rw [u32At_of_le hle (by omega), Option.bind_eq_bind, Option.bind_some, isSome_bind_iff, addU32_isSome]
        refine ⟨fun hfits _ _ => hfits.1, fun hfits => ⟨hfits h.2 (by omega), fun stop hstop => ?_⟩⟩
        split
        · rfl
        · split
          · exact writePacket_isSome (by decide)
          · rfl

theorem handleChannelOpen_isSome : (handleChannelOpen env sess).isSome ↔ NextFits env ChannelOpenFits sess := by
  refine nextFits_iff (fun payload sess' h => ?_) fun payload sess' hne hle => ?_ <;> dsimp only
  · rw [if_pos (.inl h)]
    rfl
  · unfold ChannelOpenFits
    split
    · rename_i h
      exact ⟨fun _ h' => absurd h' (h.resolve_left hne), fun _ => rfl⟩
    · rename_i h
      rw [not_or, not_not] at h
      rw [Option.bind_eq_bind, isSome_bind_iff, takeString_isSome hle]
      refine ⟨fun hfits _ => hfits.1.2, fun hfits => ⟨⟨by decide, hfits h.2⟩, fun res hres => ?_⟩⟩
      cases res with
      | none => rfl
      | some res =>
        -- behind the string nothing leaves 32 bits
        have hstop := takeString_some hres
        have hsize : bufSize = 4096 := rfl
        have hadd : addU32 res.2 4 = some (res.2 + 4) := if_pos (by omega)
        have hadd' : addU32 (res.2 + 4) 4 = some (res.2 + 4 + 4) := if_pos (by omega)
        dsimp only
        rw [hadd, Option.bind_eq_bind, Option.bind_some]
        split
        · rfl
        · rename_i hroom
          rw [u32At_of_le hle (by omega), Option.bind_some, hadd', Option.bind_some]
          split
          · rfl
          · rename_i hroom'
            rw [u32At_of_le hle (by omega), Option.bind_some]
            exact writePacket_isSome (show 17 ≤ 4009 by decide)

theorem acceptUser_isSome {uname : List Byte} : (acceptUser env sess uname).isSome ↔ PasswdFits env.passwd uname := by
  unfold acceptUser
  rw [Option.bind_eq_bind, isSome_bind_iff, validateUser_isSome]
  refine ⟨fun h => h.1, fun h => ⟨h, fun ids _ => ?_⟩⟩
  cases ids with
  | none =>
    rw [Option.isSome_map]
    exact sendAuthFailure_isSome
  | some ids => exact isSome_bind_iff.2 ⟨writePacket_isSome (by decide), fun _ _ => rfl⟩

section Authentication
variable {buf : Buf} {plen pos : Nat} {uname : List Byte}

theorem authPassword_isSome (hle : plen ≤ bufSize) :
    (authPassword env sess buf plen uname pos).isSome ↔ PasswordFits env buf plen uname pos := by
  have hsize : bufSize = 4096 := rfl
  unfold authPassword PasswordFits
  split
  · rename_i h
    exact ⟨fun _ h' => absurd h' (by omega), fun _ => rfl⟩
  · rename_i h
    have hadd : addU32 pos 1 = some (pos + 1) := if_pos (by omega)
    rw [forall_prop_of_true (by omega), hadd, Option.bind_eq_bind, Option.bind_some, Option.bind_eq_bind, isSome_bind_iff,
      takeString_isSome hle]
    constructor
    · exact fun hgo => ⟨hgo.1.2, fun password hres => acceptUser_isSome.1 (hgo.2 _ hres)⟩
    · refine fun hfits => ⟨⟨by omega, hfits.1⟩, fun res hres => ?_⟩
      cases res with
      | none => rfl
      | some password => exact acceptUser_isSome.2 (hfits.2 _ hres)

theorem authMethod_isSome (hle : plen ≤ bufSize) :
    (authMethod env sess buf plen uname pos).isSome ↔ MethodFits env buf plen uname pos := by
  have hagain : ((sendAuthFailure sess).map (Turn.again (α := Bool))).isSome := by
    rw [Option.isSome_map]
    exact sendAuthFailure_isSome
  unfold authMethod MethodFits
  rw [Option.bind_eq_bind, isSome_bind_iff, takeString_isSome hle]
  refine and_congr_right fun _ => ⟨fun hgo pos' hres => ?_, fun hfits res hres => ?_⟩
  · have hmethod := hgo _ hres
    dsimp only at hmethod
    rw [if_neg (by decide), if_pos rfl] at hmethod
    exact (authPassword_isSome hle).1 hmethod
  · cases res with
    | none => rfl
    | some res =>
      dsimp only
      split
      · exact hagain
      · split
        · rename_i hmethod
          exact (authPassword_isSome hle).2 (hfits res.2 (hmethod ▸ hres))
        · exact hagain

end Authentication

theorem authTurn_isSome : (authTurn env sess).isSome ↔ NextFits env (AuthFits env) sess := by
  refine nextFits_iff (fun payload sess' h => ?_) fun payload sess' hne hle => ?_ <;> dsimp only
  · rw [if_pos (.inl h)]
    rfl
  · have hsize : bufSize = 4096 := rfl
    unfold AuthFits
    split
    · rename_i h
      exact ⟨fun _ h' => absurd h' (h.resolve_left hne), fun _ => rfl⟩
    · rename_i h
      rw [not_or, not_not] at h
      rw [forall_prop_of_true h.2, Option.bind_eq_bind, isSome_bind_iff, takeString_isSome hle]
      refine and_congr ⟨fun h => h.2, fun h => ⟨by decide, h⟩⟩ ⟨fun hgo uname pos hres hroom => ?_, fun hfits res hres => ?_⟩
      · have hadd : addU32 pos 4 = some (pos + 4) := if_pos (by omega)
        have hrest := hgo _ hres
        dsimp only at hrest
        rw [hadd, Option.bind_eq_bind, Option.bind_some, if_neg (by omega), u32At_of_le hle hroom, Option.bind_some,
          isSome_bind_iff, addU32_isSome] at hrest
        exact ⟨hrest.1, (authMethod_isSome hle).1 (hrest.2 _ (if_pos hrest.1))⟩
      · cases res with
        | none => rfl
        | some res =>
          have hstop := takeString_some hres
          have hadd : addU32 res.2 4 = some (res.2 + 4) := if_pos (by omega)
          dsimp only
          rw [hadd, Option.bind_eq_bind, Option.bind_some]
          split
          · rfl
          · rename_i hroom
            obtain ⟨hsvc, hmethod⟩ := hfits res.1 res.2 hres (by omega)
            have hadd' : addU32 (res.2 + 4) (getU32 (packetBuf (env.undef sess) payload) res.2).toNat =
                some (res.2 + 4 + (getU32 (packetBuf (env.undef sess) payload) res.2).toNat) := if_pos hsvc
            rw [u32At_of_le hle (by omega), Option.bind_some, hadd', Option.bind_some]
            exact (authMethod_isSome hle).2 hmethod

theorem channelRequestTurn_isSome : (channelRequestTurn env sess).isSome ↔ NextFits env ChannelRequestFits sess := by
  refine nextFits_iff (fun payload sess' h => ?_) fun payload sess' hne hle => ?_ <;> dsimp only
  · rw [if_pos (.inl h)]
    rfl
  · unfold ChannelRequestFits
    split
    · rename_i h
      exact ⟨fun _ h' => absurd h' (h.resolve_left hne), fun _ => rfl⟩
    · rename_i h
      rw [not_or, not_not] at h
      rw [Option.bind_eq_bind, isSome_bind_iff, takeString_isSome hle]
      refine ⟨fun hfits _ => hfits.1.2, fun hfits => ⟨⟨by decide, hfits h.2⟩, fun res hres => ?_⟩⟩
      have hreply : ∀ kind, ((send sess' (channelReply sess' kind)).map (Turn.again (α := Bool))).isSome := fun kind => by
        rw [Option.isSome_map]
        exact send_isSome (show 5 ≤ 4009 by decide)
      cases res with
      | none => rfl
      | some res =>
        dsimp only
        split
        · rfl
        · split
          · split
            · exact hreply _
            · rfl
          · split
            · split
              · exact isSome_bind_iff.2 ⟨writePacket_isSome (show 5 ≤ 4009 by decide), fun _ _ => rfl⟩
              · rfl
            · split
              · exact hreply _
              · rfl

theorem channelDataTurn_isSome {outLen : Nat} :
    (channelDataTurn env outLen sess).isSome ↔ NextFits env ChannelDataFits sess := by
  refine nextFits_iff (fun payload sess' h => ?_) fun payload sess' hne hle => ?_ <;> dsimp only
  · rw [if_pos h]
    rfl
  · have hsize : bufSize = 4096 := rfl
    unfold ChannelDataFits StringFits
    obtain ⟨buf, hbuf⟩ : ∃ buf, buf = packetBuf (env.undef sess) payload := ⟨_, rfl⟩
    have hlen : u32At buf 5 = some (getU32 buf 5).toNat := if_pos (by decide)
    rw [← hbuf, if_neg hne, hlen]
    have hvoid : ∀ {x y : Byte} {p : Prop}, buf 0 = x → x ≠ y → (buf 0 = y → p) := fun hx hxy hy => absurd (hx.symm.trans hy) hxy
    by_cases h94 : buf 0 = 94
    · rw [if_pos h94, and_iff_left ⟨hvoid h94 (by decide), hvoid h94 (by decide)⟩, forall_prop_of_true h94]
      split
      · exact ⟨fun _ h' => by omega, fun _ => rfl⟩
      · rename_i hlong
        rw [Option.bind_eq_bind, Option.bind_some, isSome_bind_iff, addU32_isSome, forall_prop_of_true (by omega)]
        refine ⟨fun hgo => hgo.1, fun hfits => ⟨hfits, fun stop hstop => ?_⟩⟩
        have := addU32_some hstop
        split
        · rfl
        · split
          · rfl
          · rw [sliceOf, if_pos (by omega)]
            rfl
    rw [if_neg h94, and_iff_right (fun h => absurd h h94)]
    by_cases hend : buf 0 = 96 ∨ buf 0 = 97
    · rw [if_pos hend]
      refine ⟨fun _ => ?_, fun _ => rfl⟩
      rcases hend with h | h <;> exact ⟨hvoid h (by decide), hvoid h (by decide)⟩
    rw [if_neg hend]
    by_cases h98 : buf 0 = 98
    · rw [if_pos h98, and_iff_left (hvoid h98 (by decide)), forall_prop_of_true h98]
      split
      · rename_i hlong
        rw [Option.bind_eq_bind, Option.bind_some, isSome_bind_iff, addU32_isSome, forall_prop_of_true hlong]
        constructor
        · rintro ⟨hskip, hgo⟩
          have hpos := isSome_bind_iff.1 (hgo _ (if_pos hskip))
          have := addU32_isSome.1 hpos.1
          omega
        · refine fun hfits => ⟨by omega, fun skip hskip => isSome_bind_iff.2 ⟨addU32_isSome.2 ?_, fun pos _ => ?_⟩⟩
          · have := addU32_some hskip
            omega
          · split
            · rw [Option.isSome_map]
              exact send_isSome (show 5 ≤ 4009 by decide)
            · rfl
      · rename_i hshort
        exact ⟨fun _ h' => absurd h' hshort, fun _ => rfl⟩
    rw [if_neg h98, and_iff_right (fun h => absurd h h98)]
    by_cases h93 : buf 0 = 93
    · rw [if_pos h93, forall_prop_of_true h93]
      split
      · rename_i hlong
        rw [Option.bind_eq_bind, Option.bind_some, isSome_bind_iff, addU32_isSome, forall_prop_of_true hlong]
        exact ⟨fun hgo => hgo.1, fun hfits => ⟨hfits, fun _ _ => rfl⟩⟩
      · rename_i hshort
        exact ⟨fun _ h' => absurd h' hshort, fun _ => rfl⟩
    · rw [if_neg h93]
      exact ⟨fun _ h => absurd h h93, fun _ => rfl⟩

/-! ## Every turn takes a packet from the stream -/

/-- A turn that goes on leaves the stream where it is. -/
def Keeps (incoming : List (List Byte)) (turn : Option (Turn SshSession α)) : Prop :=
  ∀ s', turn = some (.again s') → s'.incoming = incoming

theorem keeps_done {a : α} {s : SshSession} {incoming : List (List Byte)} : Keeps incoming (some (.done a s)) := nofun

theorem keeps_send {payload : List Byte} (h : payload.length ≤ 4009) :
    Keeps (α := α) sess.incoming ((send sess payload).map .again) := by
  obtain ⟨sess', hsend, hin⟩ := send_total sess h
  intro s' hs'
  rw [hsend] at hs'
  cases hs'
  exact hin

theorem keeps_bind {β : Type} {o : Option β} {f : β → Option (Turn SshSession α)} {incoming : List (List Byte)}
    (h : ∀ b, Keeps incoming (f b)) : Keeps incoming (o.bind f) := fun s' hs' => by
  obtain ⟨b, -, hb⟩ := Option.bind_eq_some_iff.1 hs'
  exact h b s' hb

theorem keeps_authMethod {buf : Buf} {plen pos : Nat} {uname : List Byte} :
    Keeps sess.incoming (authMethod env sess buf plen uname pos) := by
  have hfailure : Keeps (α := Bool) sess.incoming ((sendAuthFailure sess).map .again) := keeps_send (by decide)
  refine keeps_bind fun res => ?_
  split
  · exact keeps_done
  · split
    · exact hfailure
    · split
      · unfold authPassword
        split
        · exact keeps_done
        · refine keeps_bind fun _ => keeps_bind fun _ => ?_
          split
          · exact keeps_done
          · refine keeps_bind fun ids => ?_
            split
            · exact keeps_bind fun _ => keeps_done
            · exact hfailure
      · exact hfailure

theorem left_lt {rest : List Byte × SshSession → Option (Turn SshSession α)} {s' : SshSession}
    (hnil : ∀ payload sess', payload.length = 0 → ∀ s', rest (payload, sess') ≠ some (.again s'))
    (hrest : ∀ payload sess', Keeps sess'.incoming (rest (payload, sess')))
    (h : (readPacket sess bufSize).bind rest = some (.again s')) : s'.left < sess.left := by
  obtain ⟨⟨payload, sess'⟩, hread, hturn⟩ := Option.bind_eq_some_iff.1 h
  have hkeep := hrest payload sess' s' hturn
  rw [SshSession.left, hkeep]
  exact (readPacket_some hread fun hne => hnil payload sess' hne s' hturn).2

theorem authTurn_left {s' : SshSession} (h : Next (authTurn env) sess s') : s'.left < sess.left := by
  refine left_lt (fun payload sess' hne s' => ?_) (fun payload sess' => ?_) h <;> dsimp only
  · rw [if_pos (.inl hne)]
    nofun
  · split
    · exact keeps_done
    · refine keeps_bind fun res => ?_
      split
      · exact keeps_done
      · refine keeps_bind fun start => ?_
        split
        · exact keeps_done
        · exact keeps_bind fun _ => keeps_bind fun _ => keeps_authMethod

theorem channelRequestTurn_left {s' : SshSession} (h : Next (channelRequestTurn env) sess s') : s'.left < sess.left := by
  refine left_lt (fun payload sess' hne s' => ?_) (fun payload sess' => ?_) h <;> dsimp only
  · rw [if_pos (.inl hne)]
    nofun
  · have hagain : Keeps (α := Bool) sess'.incoming (some (.again sess')) := fun s' hs' => by
      cases hs'
      rfl
    have hreply : ∀ kind, Keeps (α := Bool) sess'.incoming ((send sess' (channelReply sess' kind)).map .again) :=
      fun kind => keeps_send (show 5 ≤ 4009 by decide)
    split
    · exact keeps_done
    · refine keeps_bind fun res => ?_
      split
      · exact keeps_done
      · split
        · exact keeps_done
        · split
          · split
            · exact hreply _
            · exact hagain
          · split
            · split
              · exact keeps_bind fun _ => keeps_done
              · exact keeps_done
            · split
              · exact hreply _
              · exact hagain

theorem channelDataTurn_left {outLen : Nat} {s' : SshSession} (h : Next (channelDataTurn env outLen) sess s') :
    s'.left < sess.left := by
  refine left_lt (fun payload sess' hne s' => ?_) (fun payload sess' => ?_) h <;> dsimp only
  · rw [if_pos hne]
    nofun
  · have hagain : ∀ s : SshSession, s.incoming = sess'.incoming →
        Keeps (α := List Byte) sess'.incoming (some (.again s)) := fun s hs s' hs' => by
      cases hs'
      exact hs
    split
    · exact keeps_done
    · split
      · split
        · exact keeps_done
        · refine keeps_bind fun _ => keeps_bind fun _ => ?_
          split
          · exact keeps_done
          · split
            · exact keeps_done
            · exact keeps_bind fun _ => keeps_done
      · split
        · exact keeps_done
        · split
          · split
            · refine keeps_bind fun _ => keeps_bind fun _ => keeps_bind fun _ => ?_
              split
              · exact keeps_send (show 5 ≤ 4009 by decide)
              · exact hagain _ rfl
            · exact hagain _ rfl
          · split
            · split
              · exact keeps_bind fun _ => keeps_bind fun _ => hagain _ rfl
              · exact hagain _ rfl
            · exact hagain _ rfl

end Handlers

/-! ## The claimed property, call by call -/

/-- The functions a client's bytes go to. -/
inductive Call where
  | readPacket (bufLen : Nat)
  | recvKexInit
  | doKeyExchange
  | handleServiceRequest
  | handleAuth
  | handleChannelOpen
  | handleChannelRequest
  | recvChannelData (outLen : Nat)

/-- The call ends, and nothing overflows or leaves an array on the way. -/
def Call.Safe (env : Env) (sess : SshSession) : Call → Prop
  | .readPacket bufLen => (Ssh.readPacket sess bufLen).isSome
  | .recvKexInit => (Ssh.recvKexInit env sess).isSome
  | .doKeyExchange => (Ssh.doKeyExchange env sess).isSome
  | .handleServiceRequest => (Ssh.handleServiceRequest env sess).isSome
  | .handleAuth => (Ssh.handleAuth env sess).isSome
  | .handleChannelOpen => (Ssh.handleChannelOpen env sess).isSome
  | .handleChannelRequest => (Ssh.handleChannelRequest env sess).isSome
  | .recvChannelData outLen => (Ssh.recvChannelData env outLen sess).isSome

def Call.Reads (env : Env) (sess : SshSession) : Call → SshSession → Prop
  | .handleAuth => Reaches (authTurn env) sess
  | .handleChannelRequest => Reaches (channelRequestTurn env) sess
  | .recvChannelData outLen => Reaches (channelDataTurn env outLen) sess
  | _ => fun s => s = sess

def Call.Fits (env : Env) (sess : SshSession) : Call → Prop
  | .readPacket _ => PaddingFits sess
  | .recvKexInit => NextFits env KexinitFits sess
  | .doKeyExchange => NextFits env KexFits sess
  | .handleServiceRequest => NextFits env ServiceFits sess
  | .handleAuth => NextFits env (AuthFits env) sess
  | .handleChannelOpen => NextFits env ChannelOpenFits sess
  | .handleChannelRequest => NextFits env ChannelRequestFits sess
  | .recvChannelData _ => NextFits env ChannelDataFits sess

/-- **A call is safe exactly if every packet it reads fits**: for every session, before or after keys are in use, and for
every stream that its peer can send. -/
theorem input_safety (env : Env) (call : Call) (sess : SshSession) :
    call.Safe env sess ↔ ∀ s, call.Reads env sess s → call.Fits env s := by
  have hloop : ∀ {α : Type} {turn : SshSession → Option (Turn SshSession α)} {fits : SshSession → Prop},
      (∀ s s', Next turn s s' → s'.left < s.left) → (∀ s, (turn s).isSome ↔ fits s) →
      ((run turn (enough sess) sess).isSome ↔ ∀ s, Reaches turn sess s → fits s) := by
    intro α turn fits hless hturn
    refine (isSome_run_iff SshSession.left hless (Nat.lt_succ_self _)).trans ?_
    exact forall_congr' fun s => imp_congr_right fun _ => hturn s
  cases call with
  | readPacket bufLen => exact readPacket_isSome.trans forall_eq.symm
  | recvKexInit => exact recvKexInit_isSome.trans forall_eq.symm
  | doKeyExchange => exact doKeyExchange_isSome.trans forall_eq.symm
  | handleServiceRequest => exact handleServiceRequest_isSome.trans forall_eq.symm
  | handleAuth => exact hloop (fun _ _ => authTurn_left) fun _ => authTurn_isSome
  | handleChannelOpen => exact handleChannelOpen_isSome.trans forall_eq.symm
  | handleChannelRequest => exact hloop (fun _ _ => channelRequestTurn_left) fun _ => channelRequestTurn_isSome
  | recvChannelData outLen => exact hloop (fun _ _ => channelDataTurn_left) fun _ => channelDataTurn_isSome

/-- A server whose client sends `bytes` as its first packet. -/
def greeted (bytes : List Byte) : SshSession := initSession default [bytes] default

/-- The first packet has two bytes, and says that 255 of them are padding. -/
theorem input_safety_padding : ¬ ∀ env call sess, Call.Safe env sess call := by
  intro h
  obtain ⟨sess, hsess⟩ : ∃ sess, sess = greeted [0, 0, 0, 2, 255, 0] := ⟨_, rfl⟩
  have hplain : sess.encrypted = false := by rw [hsess]; rfl
  have hin : sess.incoming = [[0, 0, 0, 2, 255, 0]] := by rw [hsess]; rfl
  have hsolid : Solid sess.incoming := fun p hp => by
    rw [hin] at hp
    rw [List.mem_singleton.1 hp]
    exact List.cons_ne_nil _ _
  have hflat : sess.incoming.flatten = [0, 0, 0, 2, 255, 0] := by rw [hin]; rfl
  obtain ⟨ps₁, hread₁, hflat₁, hsolid₁⟩ := readFull_eq (n := 4) hsolid (by rw [hflat]; decide)
  rw [hflat] at hread₁ hflat₁
  obtain ⟨ps₂, hread₂, -, -⟩ := readFull_eq (n := 2) hsolid₁ (by rw [hflat₁]; decide)
  rw [hflat₁] at hread₂
  have hlen : (getU32 (bufOf (([0, 0, 0, 2, 255, 0] : List Byte).take 4)) 0).toNat = 2 := by decide
  have hbody := readBody_plain hplain hread₁ hlen (by decide) hread₂
  have hsafe : Call.Safe default sess (.readPacket bufSize) := h default (.readPacket bufSize) sess
  have hpad : PaddingFits sess := readPacket_isSome.1 hsafe
  exact absurd (hpad _ _ hbody) (by decide)

end Zigix.Ssh
