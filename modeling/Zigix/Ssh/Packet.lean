import Zigix.Lib.Pieces
import Zigix.Crypto.ChaChaPoly

/-!
# SSH packets (`userspace/zsshd/ssh.zig`)

A session writes payloads to its socket as binary packets, in the clear until keys are in use and under
chacha20-poly1305 from then on. An arithmetic step or a copy outside its bounds is `none`.

* `packets_round_trip` : any number of packets, with keys put to use between them.
-/

namespace Zigix.Ssh

open Bytes Pieces Crypto

abbrev Byte := BitVec 8

/-! ## Sessions -/

/-- A session, with the socket of `socket_fd`: the pieces its peer's stream arrives in, and where its own goes. -/
structure SshSession where
  incoming : List (List Byte)
  sink : Sink Byte
  sessionId : Buf
  sendSeq : BitVec 32
  recvSeq : BitVec 32
  sendKeyMain : Buf
  sendKeyHeader : Buf
  recvKeyMain : Buf
  recvKeyHeader : Buf
  encrypted : Bool
  channelId : BitVec 32
  remoteChannel : BitVec 32
  remoteWindow : BitVec 32
  username : Buf
  usernameLen : BitVec 8
  authUid : BitVec 32
  authGid : BitVec 32
  clientVersion : Buf
  clientVersionLen : BitVec 16
  serverVersion : Buf
  serverVersionLen : BitVec 16
  clientKexinit : Buf
  clientKexinitLen : BitVec 16
  serverKexinit : Buf
  serverKexinitLen : BitVec 16
  deriving Inhabited

/-- A new session; the fields that `undef` gives stay undefined. -/
def initSession (undef : SshSession) (incoming : List (List Byte)) (sink : Sink Byte) : SshSession :=
  { undef with
    incoming, sink, sendSeq := 0, recvSeq := 0, encrypted := false, channelId := 0, remoteChannel := 0
    remoteWindow := 0, usernameLen := 0, authUid := 0, authGid := 0, clientVersionLen := 0, serverVersionLen := 0
    clientKexinitLen := 0, serverKexinitLen := 0, sessionId := fun _ => 0, username := fun _ => 0 }

def putU32 (v : BitVec 32) : List Byte := Sha2.store32be v

def getU32 (buf : Buf) (pos : Nat) : BitVec 32 := Sha2.load32be buf pos

def bufOf (bytes : List Byte) : Buf := Sha2.slice bytes 0

/-! ## Packets -/

/-- The largest `packet_length` that is read. -/
def maxPacket : Nat := 4096

/-- The first half of `readPacket`: the body of the next packet, decrypted, or nothing on an error. -/
def readBody (sess : SshSession) : Option (Option (List Byte) × SshSession) :=
  let (first, incoming) := readFull 4 sess.incoming
  let sess := { sess with incoming }
  match first with
  | none => some (none, sess)
  | some hdr =>
    if sess.encrypted = false then
      let totalLen := (getU32 (bufOf hdr) 0).toNat
      if totalLen < 2 ∨ totalLen > maxPacket then some (none, sess)
      else
        let (second, incoming) := readFull totalLen sess.incoming
        some (second, { sess with incoming })
    else
      let pktLen := (decryptLength hdr sess.recvKeyHeader sess.recvSeq).toNat
      if pktLen < 2 ∨ pktLen > maxPacket then some (none, sess)
      else
        let (second, incoming) := readFull (pktLen + 16) sess.incoming
        let sess := { sess with incoming }
        match second with
        | none => some (none, sess)
        | some body => do
          let plaintext ← aeadDecrypt (body.take pktLen) (body.drop pktLen) hdr sess.recvKeyMain sess.recvSeq
          return (plaintext, sess)

/-- One packet into a buffer of `bufLen` bytes: its payload, or nothing on an error. The first byte of the body is the
padding length. -/
def readPacket (sess : SshSession) (bufLen : Nat) : Option (List Byte × SshSession) := do
  let (body, sess) ← readBody sess
  match body with
  | none => return ([], sess)
  | some body =>
    let padLen := (body.getD 0 0).toNat
    if body.length - 1 < padLen then none
    else
      let payloadLen := body.length - 1 - padLen
      if payloadLen > bufLen then return ([], sess)
      else return ((body.drop 1).take payloadLen, { sess with recvSeq := sess.recvSeq + 1 })

def blockSize : Nat := 8

def minPad : Nat := 4

/-- The padding of a packet with `n` bytes before it. -/
def padLen (n : Nat) : Nat :=
  if blockSize - n % blockSize < minPad then blockSize - n % blockSize + blockSize else blockSize - n % blockSize

/-- The size of `pkt` in `writePacket`. -/
def pktSize : Nat := 4096 + 32

def writePacket (sess : SshSession) (payload : List Byte) : Option (Bool × SshSession) :=
  if sess.encrypted = false then do
    let pad := padLen (5 + payload.length)
    let totalLen := BitVec.ofNat 32 (1 + payload.length + pad)
    guard (5 + payload.length + pad ≤ pktSize)
    let pkt := putU32 totalLen ++ [BitVec.ofNat 8 pad] ++ payload ++ List.replicate pad 0
    guard (4 + totalLen.toNat < 2 ^ 32)
    let (written, sink) := sess.sink.writeAll (pkt.take (4 + totalLen.toNat))
    if written then return (true, { sess with sink, sendSeq := sess.sendSeq + 1 })
    else return (false, { sess with sink })
  else do
    let pad := padLen (1 + payload.length)
    let totalLen := BitVec.ofNat 32 (1 + payload.length + pad)
    guard (1 + payload.length + pad ≤ maxPacket)
    let body := [BitVec.ofNat 8 pad] ++ payload ++ List.replicate pad 0
    let encLen := encryptLength totalLen sess.sendKeyHeader sess.sendSeq
    let (ciphertext, tag) ← aeadEncrypt (body.take totalLen.toNat) encLen sess.sendKeyMain sess.sendSeq
    let (ok, sink) := sess.sink.writeAll encLen
    if !ok then return (false, { sess with sink })
    else
      let (ok, sink) := sink.writeAll ciphertext
      if !ok then return (false, { sess with sink })
      else
        let (ok, sink) := sink.writeAll tag
        if !ok then return (false, { sess with sink })
        else return (true, { sess with sink, sendSeq := sess.sendSeq + 1 })

/-! ## One packet -/

/-- What `peer` reads with is what `sess` writes with. -/
structure Matched (sess peer : SshSession) : Prop where
  mode : peer.encrypted = sess.encrypted
  seq : peer.recvSeq = sess.sendSeq
  main : peer.recvKeyMain = sess.sendKeyMain
  header : peer.recvKeyHeader = sess.sendKeyHeader

/-- A frame around a payload of `n` bytes: at least four bytes of padding fill its last block. In the clear the blocks
begin with the length; else the length is on its own in front of them, and a tag behind. -/
def Padded (encrypted : Bool) (n : Nat) (frame : List Byte) : Prop :=
  ∃ pad, minPad ≤ pad ∧
    if encrypted then blockSize ∣ 1 + n + pad ∧ frame.length = 4 + (1 + n + pad) + 16
    else blockSize ∣ 4 + 1 + n + pad ∧ frame.length = 4 + 1 + n + pad

def Fits (payload : List Byte) : Prop := 1 ≤ payload.length ∧ payload.length ≤ 4009

theorem padLen_spec (n : Nat) : minPad ≤ padLen n ∧ padLen n ≤ 11 ∧ blockSize ∣ n + padLen n := by
  have hmod := Nat.mod_lt n (show 0 < 8 by decide)
  unfold padLen blockSize minPad
  split <;> omega

section OnePacket
variable {sess peer : SshSession} {payload : List Byte} {cap : Nat}

theorem readPacket_text {sess' : SshSession} {pad : Nat} (hfits : Fits payload) (hpad : pad ≤ 11) (hcap : 4009 ≤ cap)
    (hbody : readBody peer = some (some ([BitVec.ofNat 8 pad] ++ payload ++ List.replicate pad 0), sess')) :
    readPacket peer cap = some (payload, { sess' with recvSeq := sess'.recvSeq + 1 }) := by
  obtain ⟨-, hle⟩ := hfits
  have hbyte : (BitVec.ofNat 8 pad).toNat = pad := by
    rw [BitVec.toNat_ofNat]
    exact Nat.mod_eq_of_lt (by omega)
  obtain ⟨body, htext⟩ : ∃ body, body = [BitVec.ofNat 8 pad] ++ payload ++ List.replicate pad (0 : Byte) := ⟨_, rfl⟩
  have hlen : body.length - 1 - pad = payload.length := by
    rw [htext, List.length_append, List.length_append, List.length_replicate, List.length_singleton]
    omega
  have hfirst : body.getD 0 0 = BitVec.ofNat 8 pad := by rw [htext]; rfl
  have hrest : body.drop 1 = payload ++ List.replicate pad 0 := by rw [htext]; rfl
  have hroom : ¬ body.length - 1 < pad := by
    rw [htext, List.length_append, List.length_append, List.length_replicate, List.length_singleton]
    omega
  have hcap' : ¬ payload.length > cap := by omega
  simp only [readPacket, hbody, ← htext, Option.bind_eq_bind, Option.bind_some, hfirst, hbyte, if_neg hroom, hlen,
    if_neg hcap', hrest, List.take_left, Option.pure_def]

theorem toNat_length {n : Nat} (h : n ≤ maxPacket) : (BitVec.ofNat 32 n).toNat = n := by
  rw [BitVec.toNat_ofNat]
  exact Nat.mod_eq_of_lt (h.trans_lt (by decide))

theorem readBody_plain {hdr body : List Byte} {ps₁ ps₂ : List (List Byte)} {n : Nat} (hmode : sess.encrypted = false)
    (hfirst : readFull 4 sess.incoming = (some hdr, ps₁)) (hlen : (getU32 (bufOf hdr) 0).toNat = n)
    (hrange : 2 ≤ n ∧ n ≤ maxPacket) (hsecond : readFull n ps₁ = (some body, ps₂)) :
    readBody sess = some (some body, { sess with incoming := ps₂ }) := by
  have hrange' : ¬ (n < 2 ∨ n > maxPacket) := by omega
  simp only [readBody, hfirst, if_pos hmode, hlen, if_neg hrange', hsecond]

theorem readFull_two {hdr body rest : List Byte} {ps : List (List Byte)} {n : Nat} (hhdr : hdr.length = 4) (hbody : body.length = n)
    (hsolid : Solid ps) (hflat : ps.flatten = hdr ++ body ++ rest) :
    ∃ ps₁ ps₂, readFull 4 ps = (some hdr, ps₁) ∧ readFull n ps₁ = (some body, ps₂) ∧ ps₂.flatten = rest ∧ Solid ps₂ := by
  have htake : ps.flatten.take 4 = hdr := by
    rw [hflat, List.append_assoc, List.take_left' hhdr]
  have hdrop : ps.flatten.drop 4 = body ++ rest := by
    rw [hflat, List.append_assoc, List.drop_left' hhdr]
  obtain ⟨ps₁, hread₁, hflat₁, hsolid₁⟩ := readFull_eq (n := 4) hsolid (by
    rw [hflat, List.length_append, List.length_append]
    omega)
  rw [htake] at hread₁
  rw [hdrop] at hflat₁
  obtain ⟨ps₂, hread₂, hflat₂, hsolid₂⟩ := readFull_eq (n := n) hsolid₁ (by
    rw [hflat₁, List.length_append]
    omega)
  rw [hflat₁, List.take_left' hbody] at hread₂
  rw [hflat₁, List.drop_left' hbody] at hflat₂
  exact ⟨ps₁, ps₂, hread₁, hread₂, hflat₂, hsolid₂⟩

def Crosses (sess peer : SshSession) (payload : List Byte) (cap : Nat) : Prop :=
    ∃ sink frame, writePacket sess payload = some (true, { sess with sink, sendSeq := sess.sendSeq + 1 }) ∧
      sink.taken = sess.sink.taken ++ frame ∧ sink.Open ∧ Padded sess.encrypted payload.length frame ∧
      ∀ ps rest, Solid ps → ps.flatten = frame ++ rest →
        ∃ ps', readPacket { peer with incoming := ps } cap =
          some (payload, { peer with incoming := ps', recvSeq := peer.recvSeq + 1 }) ∧ ps'.flatten = rest ∧ Solid ps'

theorem write_read_plain (hmode : sess.encrypted = false) (hmatch : Matched sess peer) (hfits : Fits payload)
    (hcap : 4009 ≤ cap) (hopen : sess.sink.Open) :
    Crosses sess peer payload cap := by
  obtain ⟨hmin, hmax, hdvd⟩ := padLen_spec (5 + payload.length)
  obtain ⟨pad, hpad⟩ : ∃ pad, pad = padLen (5 + payload.length) := ⟨_, rfl⟩
  rw [← hpad] at hmin hmax hdvd
  have hle := hfits.2
  have htotal : (BitVec.ofNat 32 (1 + payload.length + pad)).toNat = 1 + payload.length + pad :=
    toNat_length (by unfold maxPacket; omega)
  obtain ⟨hdr, hhdr⟩ : ∃ hdr, hdr = putU32 (BitVec.ofNat 32 (1 + payload.length + pad)) := ⟨_, rfl⟩
  obtain ⟨text, htext⟩ : ∃ text, text = [BitVec.ofNat 8 pad] ++ payload ++ List.replicate pad (0 : Byte) := ⟨_, rfl⟩
  have hhdrLen : hdr.length = 4 := by rw [hhdr]; rfl
  have htextLen : text.length = 1 + payload.length + pad := by
    rw [htext, List.length_append, List.length_append, List.length_replicate]
    rfl
  obtain ⟨sink, hwrite, htaken, haccepts⟩ := Sink.writeAll_eq hopen (hdr ++ text)
  refine ⟨sink, hdr ++ text, ?_, htaken, hopen.of_accepts haccepts, ⟨pad, hmin, ?_⟩, ?_⟩
  · have hpkt : (hdr ++ [BitVec.ofNat 8 pad] ++ payload ++ List.replicate pad 0).take (4 + (1 + payload.length + pad)) =
        hdr ++ text := by
      rw [htext, List.append_assoc, List.append_assoc, ← List.append_assoc [_]]
      apply List.take_of_length_le
      rw [← htext, List.length_append]
      omega
    have hfit : 5 + payload.length + pad ≤ pktSize := by unfold pktSize; omega
    have hsum : 4 + (1 + payload.length + pad) < 2 ^ 32 := by omega
    simp only [writePacket, if_pos hmode, ← hpad, htotal, ← hhdr, hpkt, guard, if_pos hfit, if_pos hsum, hwrite, if_true,
      Option.bind_eq_bind, Option.pure_def, Option.bind_some]
  · rw [hmode, if_neg Bool.false_ne_true, List.length_append, hhdrLen, htextLen]
    unfold blockSize at hdvd ⊢
    omega
  · intro ps rest hsolid hflat
    obtain ⟨ps₁, ps₂, hread₁, hread₂, hflat₂, hsolid₂⟩ := readFull_two hhdrLen htextLen hsolid hflat
    refine ⟨ps₂, ?_, hflat₂, hsolid₂⟩
    have hlen : (getU32 (bufOf hdr) 0).toNat = 1 + payload.length + pad := by
      rw [hhdr, getU32, bufOf, putU32, load32be_store32be, htotal]
    have hrange : 2 ≤ 1 + payload.length + pad ∧ 1 + payload.length + pad ≤ maxPacket := by
      unfold maxPacket minPad at *
      omega
    have hpeer : peer.encrypted = false := hmatch.mode.trans hmode
    have hbody : readBody { peer with incoming := ps } = some (some text, { peer with incoming := ps₂ }) :=
      readBody_plain hpeer hread₁ hlen hrange hread₂
    exact readPacket_text hfits hmax hcap (htext ▸ hbody)

theorem write_read_encrypted (hmode : sess.encrypted = true) (hmatch : Matched sess peer) (hfits : Fits payload)
    (hcap : 4009 ≤ cap) (hopen : sess.sink.Open) :
    Crosses sess peer payload cap := by
  obtain ⟨hmin, hmax, hdvd⟩ := padLen_spec (1 + payload.length)
  obtain ⟨pad, hpad⟩ : ∃ pad, pad = padLen (1 + payload.length) := ⟨_, rfl⟩
  rw [← hpad] at hmin hmax hdvd
  have hle := hfits.2
  have hroom : 1 + payload.length + pad ≤ maxPacket := by unfold maxPacket; omega
  have htotal : (BitVec.ofNat 32 (1 + payload.length + pad)).toNat = 1 + payload.length + pad := toNat_length hroom
  obtain ⟨text, htext⟩ : ∃ text, text = [BitVec.ofNat 8 pad] ++ payload ++ List.replicate pad (0 : Byte) := ⟨_, rfl⟩
  have htextLen : text.length = 1 + payload.length + pad := by
    rw [htext, List.length_append, List.length_append, List.length_replicate]
    rfl
  obtain ⟨encLen, hencLen⟩ : ∃ encLen, encLen =
      encryptLength (BitVec.ofNat 32 (1 + payload.length + pad)) sess.sendKeyHeader sess.sendSeq := ⟨_, rfl⟩
  have hencLen4 : encLen.length = 4 := by rw [hencLen, length_encryptLength]
  obtain ⟨ciphertext, tag, hencrypt, hcipherLen, htagLen, hdecrypt⟩ :=
    aeadDecrypt_aeadEncrypt encLen sess.sendKeyMain sess.sendSeq (htextLen.trans_le hroom)
  rw [htextLen] at hcipherLen
  obtain ⟨sink₁, hwrite₁, htaken₁, haccepts₁⟩ := Sink.writeAll_eq hopen encLen
  obtain ⟨sink₂, hwrite₂, htaken₂, haccepts₂⟩ := Sink.writeAll_eq (hopen.of_accepts haccepts₁) ciphertext
  obtain ⟨sink₃, hwrite₃, htaken₃, haccepts₃⟩ :=
    Sink.writeAll_eq ((hopen.of_accepts haccepts₁).of_accepts haccepts₂) tag
  refine ⟨sink₃, encLen ++ (ciphertext ++ tag), ?_, ?_, ((hopen.of_accepts haccepts₁).of_accepts haccepts₂).of_accepts
    haccepts₃, ⟨pad, hmin, ?_⟩, ?_⟩
  · have hbody : ([BitVec.ofNat 8 pad] ++ payload ++ List.replicate pad (0 : Byte)).take (1 + payload.length + pad) =
        text := by
      rw [← htext]
      exact List.take_of_length_le htextLen.le
    have henc : ¬ sess.encrypted = false := by rw [hmode]; decide
    simp only [writePacket, if_neg henc, ← hpad, htotal, ← hencLen, hbody, guard, if_pos hroom, hencrypt, hwrite₁,
      hwrite₂, hwrite₃, Bool.not_true, Bool.false_eq_true, if_false, Option.bind_eq_bind, Option.pure_def,
      Option.bind_some]
  · rw [htaken₃, htaken₂, htaken₁, List.append_assoc, List.append_assoc]
  · rw [hmode, if_pos rfl, List.length_append, List.length_append, hencLen4, hcipherLen, htagLen, Nat.add_assoc 4]
    exact ⟨hdvd, rfl⟩
  · intro ps rest hsolid hflat
    have hbodyLen : (ciphertext ++ tag).length = 1 + payload.length + pad + 16 := by
      rw [List.length_append, hcipherLen, htagLen]
    obtain ⟨ps₁, ps₂, hread₁, hread₂, hflat₂, hsolid₂⟩ := readFull_two hencLen4 hbodyLen hsolid hflat
    refine ⟨ps₂, ?_, hflat₂, hsolid₂⟩
    have hpeer : ¬ peer.encrypted = false := by rw [hmatch.mode, hmode]; decide
    have hlen : (decryptLength encLen peer.recvKeyHeader peer.recvSeq).toNat = 1 + payload.length + pad := by
      rw [hencLen, hmatch.header, hmatch.seq, decryptLength_encryptLength, htotal]
    have hrange : ¬ (1 + payload.length + pad < 2 ∨ 1 + payload.length + pad > maxPacket) := by
      unfold minPad at hmin
      omega
    have hopened : aeadDecrypt ciphertext tag encLen peer.recvKeyMain peer.recvSeq = some (some text) := by
      rw [hmatch.main, hmatch.seq, hdecrypt]
    have hbody : readBody { peer with incoming := ps } = some (some text, { peer with incoming := ps₂ }) := by
      simp only [readBody, hread₁, if_neg hpeer, hlen, if_neg hrange, hread₂, List.take_left' hcipherLen,
        List.drop_left' hcipherLen, hopened, Option.bind_eq_bind, Option.bind_some, Option.pure_def]
    exact readPacket_text hfits hmax hcap (htext ▸ hbody)

/-- **A packet comes back**, whatever pieces it travels in, and the peer is matched again behind it. -/
theorem write_read_packet (hmatch : Matched sess peer) (hfits : Fits payload) (hcap : 4009 ≤ cap)
    (hopen : sess.sink.Open) :
    Crosses sess peer payload cap := by
  rcases Bool.eq_false_or_eq_true sess.encrypted with hmode | hmode
  · exact write_read_encrypted hmode hmatch hfits hcap hopen
  · exact write_read_plain hmode hmatch hfits hcap hopen

end OnePacket

/-! ## A stream of packets -/

inductive Event where
  | packet (payload : List Byte)
  | newKeys (keyMain keyHeader : Buf)

def payloads : List Event → List (List Byte)
  | [] => []
  | .packet payload :: script => payload :: payloads script
  | .newKeys _ _ :: script => payloads script

def writeScript (sess : SshSession) : List Event → Option (Bool × SshSession)
  | [] => some (true, sess)
  | .packet payload :: script => do
    let (written, sess) ← writePacket sess payload
    if written then writeScript sess script else return (false, sess)
  | .newKeys keyMain keyHeader :: script =>
    writeScript { sess with sendKeyMain := keyMain, sendKeyHeader := keyHeader, encrypted := true } script

/-- The reader, with a buffer of `bufLen` bytes: what `readPacket` returned, in order. -/
def readScript (sess : SshSession) (bufLen : Nat) : List Event → Option (List (List Byte) × SshSession)
  | [] => some ([], sess)
  | .packet _ :: script => do
    let (payload, sess) ← readPacket sess bufLen
    let (more, sess) ← readScript sess bufLen script
    return (payload :: more, sess)
  | .newKeys keyMain keyHeader :: script =>
    readScript { sess with recvKeyMain := keyMain, recvKeyHeader := keyHeader, encrypted := true } bufLen script

def PaddedStream : Bool → List Event → List Byte → Prop
  | _, [], bytes => bytes = []
  | encrypted, .packet payload :: script, bytes =>
    ∃ frame rest, bytes = frame ++ rest ∧ Padded encrypted payload.length frame ∧ PaddedStream encrypted script rest
  | _, .newKeys _ _ :: script, bytes => PaddedStream true script bytes

/-- **The peer reads exactly the payloads that were written**, in order: for every stream of packets of 1 to 4009 bytes
with keys put to use anywhere between them, however the writes and the reads are cut; and every frame is padded. -/
theorem packets_round_trip (script : List Event) (sess peer : SshSession) (cap : Nat) (hmatch : Matched sess peer)
    (hfits : ∀ payload ∈ payloads script, Fits payload) (hcap : 4009 ≤ cap) (hopen : sess.sink.Open) :
    ∃ sess' bytes, writeScript sess script = some (true, sess') ∧ sess'.sink.taken = sess.sink.taken ++ bytes ∧
      PaddedStream sess.encrypted script bytes ∧
      ∀ ps rest, Solid ps → ps.flatten = bytes ++ rest →
        ∃ peer', readScript { peer with incoming := ps } cap script = some (payloads script, peer') ∧
          Matched sess' peer' ∧ peer'.incoming.flatten = rest := by
  induction script generalizing sess peer with
  | nil =>
    refine ⟨sess, [], rfl, (List.append_nil _).symm, rfl, fun ps rest _ hflat => ?_⟩
    exact ⟨_, rfl, ⟨hmatch.mode, hmatch.seq, hmatch.main, hmatch.header⟩, hflat⟩
  | cons event script ih =>
    cases event with
    | packet payload =>
      obtain ⟨sink, frame, hwrite, htaken, hopen', hpadded, hread⟩ :=
        write_read_packet hmatch (hfits payload List.mem_cons_self) hcap hopen
      -- the sessions behind the packet
      have hmatch' : Matched { sess with sink, sendSeq := sess.sendSeq + 1 } { peer with recvSeq := peer.recvSeq + 1 } :=
        ⟨hmatch.mode, congrArg (· + 1) hmatch.seq, hmatch.main, hmatch.header⟩
      obtain ⟨sess', bytes, hrun, htaken', hpaddedRest, hreadRest⟩ :=
        ih _ _ hmatch' (fun p hp => hfits p (List.mem_cons_of_mem _ hp)) hopen'
      refine ⟨sess', frame ++ bytes, ?_, ?_, ⟨frame, bytes, rfl, hpadded, hpaddedRest⟩, fun ps rest hsolid hflat => ?_⟩
      · rw [writeScript, hwrite]
        exact hrun
      · rw [htaken', htaken, List.append_assoc]
      · obtain ⟨ps', hfirst, hflat', hsolid'⟩ := hread ps (bytes ++ rest) hsolid (by rw [hflat, List.append_assoc])
        obtain ⟨peer', hmore, hmatched, hleft⟩ := hreadRest ps' rest hsolid' hflat'
        refine ⟨peer', ?_, hmatched, hleft⟩
        rw [readScript, hfirst]
        simp only [Option.bind_eq_bind, Option.bind_some, hmore, Option.pure_def, payloads]
    | newKeys keyMain keyHeader =>
      have hmatch' : Matched { sess with sendKeyMain := keyMain, sendKeyHeader := keyHeader, encrypted := true }
          { peer with recvKeyMain := keyMain, recvKeyHeader := keyHeader, encrypted := true } :=
        ⟨rfl, hmatch.seq, rfl, rfl⟩
      exact ih _ _ hmatch' hfits hopen

/-- A session whose counters wrap at its second packet, on a socket that takes one byte a call. -/
def lateSession : SshSession :=
  { initSession default [] ⟨[], fun _ => 1, 0⟩ with sendSeq := 0xffffffff, recvSeq := 0xffffffff }

/-- One packet in the clear, new keys, one packet under them. -/
theorem packets_round_trip_late :
    ∃ sess' bytes, writeScript lateSession [.packet [21], .newKeys (fun _ => 1) (fun _ => 2), .packet [5, 0]] =
      some (true, sess') ∧ ∀ ps, Solid ps → ps.flatten = bytes →
        ∃ peer', readScript { lateSession with incoming := ps } 4096
            [.packet [21], .newKeys (fun _ => 1) (fun _ => 2), .packet [5, 0]] = some ([[21], [5, 0]], peer') := by
  have hfits : ∀ payload ∈ payloads [.packet [21], .newKeys (fun _ => 1) (fun _ => 2), .packet [5, 0]], Fits payload := by
    intro payload hmem
    rcases List.mem_pair.1 hmem with rfl | rfl <;> exact ⟨by decide, by decide⟩
  obtain ⟨sess', bytes, hwrite, -, -, hread⟩ := packets_round_trip _ lateSession lateSession 4096 ⟨rfl, rfl, rfl, rfl⟩
    hfits (by decide) fun _ => Nat.one_pos
  refine ⟨sess', bytes, hwrite, fun ps hsolid hflat => ?_⟩
  obtain ⟨peer', hrun, -⟩ := hread ps [] hsolid (by rw [hflat, List.append_nil])
  exact ⟨peer', hrun⟩

end Zigix.Ssh
