import Zigix.Lib.Turns
import Zigix.Ssh.Packet
import Zigix.Crypto.X25519
import Zigix.Crypto.Ed25519

/-!
# What the server does with a client's packets (`userspace/zsshd/ssh.zig`)

One function a handler, with every sum of 32 bits and every index checked: `none` is an overflow or an access outside an
array. A handler that reads packet after packet is a loop over a turn, which reads one.

* `recvKexInit`, `doKeyExchange`, `handleServiceRequest`, `handleChannelOpen` : one call, one packet after the other;
* `validateUser` : the look at `/etc/passwd`.
-/

namespace Zigix.Ssh

open Bytes Pieces Turns Crypto

/-- What the handlers find around them: the undefined content of a packet buffer, random bytes, `/etc/passwd` if it
can be opened, the keys of the host. -/
structure Env where
  undef : SshSession → Buf
  random : Buf
  passwd : Option (List Byte)
  hostPublicKey : Buf
  hostSecretKey : Buf
  deriving Inhabited

/-! ## Checked steps -/

/-- The size of the buffer `buf` of every handler. -/
def bufSize : Nat := 4096

/-- The buffer behind `readPacket`. -/
def packetBuf (undef : Buf) (payload : List Byte) : Buf := putBytes undef 0 payload

/-- A sum of `u32`. -/
def addU32 (a b : Nat) : Option Nat := if a + b < 2 ^ 32 then some (a + b) else none

/-- The bytes `[pos, pos + len)` of an array of `size` bytes. -/
def sliceOf (array : Buf) (size pos len : Nat) : Option (List Byte) :=
  if pos + len ≤ size then some (bytesAt array pos len) else none

/-- `getU32(buf[pos..])`. -/
def u32At (buf : Buf) (pos : Nat) : Option Nat := if pos + 4 ≤ bufSize then some (getU32 buf pos).toNat else none

def ascii (s : String) : List Byte := s.toList.map fun c => BitVec.ofNat 8 c.toNat

/-- A string with its length in front of it: the string and the position behind it, nothing if it leaves the payload.
The user name, the method, the password, the channel type and the request type are read so. -/
def takeString (buf : Buf) (plen pos : Nat) : Option (Option (List Byte × Nat)) := do
  let start ← addU32 pos 4
  if start > plen then return none
  else
    let len ← u32At buf pos
    let stop ← addU32 start len
    if stop > plen then return none
    else
      let bytes ← sliceOf buf bufSize start len
      return some (bytes, stop)

def send (sess : SshSession) (payload : List Byte) : Option SshSession := (writePacket sess payload).map Prod.snd

/-! ## Key exchange -/

/-- The size of `client_kexinit` and `server_kexinit`. -/
def kexinitSize : Nat := 1024

def recvKexInit (env : Env) (sess : SshSession) : Option (Nat × SshSession) := do
  let undef := env.undef sess
  let (payload, sess) ← readPacket sess bufSize
  if payload.length = 0 then return (0, sess)
  else if packetBuf undef payload 0 ≠ 20 then return (0, sess)
  else
    guard (payload.length ≤ kexinitSize)
    return (payload.length,
      { sess with
        clientKexinit := putBytes sess.clientKexinit 0 payload
        clientKexinitLen := BitVec.ofNat 16 payload.length })

def sshString (bytes : List Byte) : List Byte := putU32 (BitVec.ofNat 32 bytes.length) ++ bytes

def buildHostKeyBlob (env : Env) : List Byte := sshString (ascii "ssh-ed25519") ++ sshString (bytesAt env.hostPublicKey 0 32)

def buildSignatureBlob (sig : Buf) : List Byte := sshString (ascii "ssh-ed25519") ++ sshString (bytesAt sig 0 64)

/-- The pieces `hashString` feeds to the hash. -/
def hashString (data : List Byte) : List (List Byte) := [putU32 (BitVec.ofNat 32 data.length), data]

/-- The pieces `hashMpint` feeds to the hash: a zero byte in front of a high bit, else no leading zeros. -/
def hashMpint (data : List Byte) : List (List Byte) :=
  if data.getD 0 0 &&& 0x80 ≠ 0 then [putU32 33, [0], data]
  else
    let start := ((data.take 31).takeWhile fun b => b == 0).length
    [putU32 (BitVec.ofNat 32 (32 - start)), data.drop start]

def deriveKey (k h : List Byte) (letter : Char) (sessionId : Buf) : Option (List Byte) :=
  Sha2.sha256Pieces (hashMpint k ++ [h, [BitVec.ofNat 8 letter.toNat], bytesAt sessionId 0 32])

def extendKey (k h k1 : List Byte) : Option (List Byte) := Sha2.sha256Pieces (hashMpint k ++ [h, k1])

def deriveKeys (sess : SshSession) (k h : List Byte) : Option SshSession := do
  let recvMain ← deriveKey k h 'C' sess.sessionId
  let recvHeader ← extendKey k h recvMain
  let sendMain ← deriveKey k h 'D' sess.sessionId
  let sendHeader ← extendKey k h sendMain
  return { sess with
    recvKeyMain := bufOf recvMain, recvKeyHeader := bufOf recvHeader, sendKeyMain := bufOf sendMain
    sendKeyHeader := bufOf sendHeader }

def serverSecret (random : Buf) : Buf := fun i =>
  if i = 0 then random 0 &&& 248 else if i = 31 then (random 31 &&& 127) ||| 64 else random i

/-- The part of `doKeyExchange` behind the client's key. -/
def answerKex (env : Env) (sess : SshSession) (clientKey : List Byte) : Option (Bool × SshSession) := do
  let secret := serverSecret env.random
  let serverKey ← scalarmult secret curve25519Basepoint
  let shared ← scalarmult secret (bufOf clientKey)
  let k := bytesAt shared 0 32
  let clientVersion ← sliceOf sess.clientVersion 256 0 sess.clientVersionLen.toNat
  let serverVersion ← sliceOf sess.serverVersion 256 0 sess.serverVersionLen.toNat
  let clientKexinit ← sliceOf sess.clientKexinit kexinitSize 0 sess.clientKexinitLen.toNat
  let serverKexinit ← sliceOf sess.serverKexinit kexinitSize 0 sess.serverKexinitLen.toNat
  let h ← Sha2.sha256Pieces
    (hashString clientVersion ++ hashString serverVersion ++ hashString clientKexinit ++ hashString serverKexinit ++
      hashString (buildHostKeyBlob env) ++ hashString clientKey ++ hashString (bytesAt serverKey 0 32) ++ hashMpint k)
  let sess := { sess with sessionId := bufOf h }
  let signature ← ed25519Sign h env.hostSecretKey env.hostPublicKey
  let reply := [31] ++ sshString (buildHostKeyBlob env) ++ sshString (bytesAt serverKey 0 32) ++
    sshString (buildSignatureBlob signature)
  let (ok, sess) ← writePacket sess reply
  if !ok then return (false, sess)
  else
    let sess ← deriveKeys sess k h
    let (ok, sess) ← writePacket sess [21]
    if !ok then return (false, sess)
    else
      let undef := env.undef sess
      let (payload, sess) ← readPacket sess bufSize
      if payload.length = 0 ∨ packetBuf undef payload 0 ≠ 21 then return (false, sess)
      else return (true, { sess with encrypted := true })

def doKeyExchange (env : Env) (sess : SshSession) : Option (Bool × SshSession) := do
  let undef := env.undef sess
  let (payload, sess) ← readPacket sess bufSize
  let buf := packetBuf undef payload
  if payload.length = 0 ∨ buf 0 ≠ 30 then return (false, sess)
  else if payload.length < 37 then return (false, sess)
  else if getU32 buf 1 ≠ 32 then return (false, sess)
  else answerKex env sess (bytesAt buf 5 32)

/-! ## Authentication -/

def handleServiceRequest (env : Env) (sess : SshSession) : Option (Bool × SshSession) := do
  let undef := env.undef sess
  let (payload, sess) ← readPacket sess bufSize
  let buf := packetBuf undef payload
  let plen := payload.length
  if plen = 0 ∨ buf 0 ≠ 5 then return (false, sess)
  else if plen < 5 then return (false, sess)
  else
    let svcLen ← u32At buf 1
    let stop ← addU32 5 svcLen
    if stop > plen then return (false, sess)
    else if svcLen = 12 ∧ bytesAt buf 5 12 = ascii "ssh-userauth" then
      writePacket sess ([6] ++ sshString (ascii "ssh-userauth"))
    else return (false, sess)

/-- The fields between separators; a separator at the end does not open another one. Lines are found in the file, and
fields in a line, by the same loop. -/
def fields (sep : Byte) : List Byte → List Byte → List (List Byte)
  | field, [] => if field = [] then [] else [field]
  | field, ch :: rest => if ch = sep then field :: fields sep [] rest else fields sep (field ++ [ch]) rest

def parseDigit (v : Nat) (ch : Byte) : Option Nat :=
  if 0x30 ≤ ch.toNat ∧ ch.toNat ≤ 0x39 then
    if v * 10 < 2 ^ 32 then addU32 (v * 10) (ch.toNat - 0x30) else none
  else some v

def parseU32 (field : List Byte) : Option Nat := field.foldlM parseDigit 0

/-- What `matchPasswdLine` keeps of the fields it has seen. -/
structure LineState where
  fieldNum : Nat
  uid : Nat
  gid : Nat
  nameMatch : Bool

def readField (username : List Byte) (st : LineState) (field : List Byte) : Option LineState :=
  match st.fieldNum with
  | 0 => some { st with nameMatch := field = username }
  | 2 => (parseU32 field).map fun uid => { st with uid }
  | 3 => (parseU32 field).map fun gid => { st with gid }
  | _ => some st

/-- One field of a line; their number is a `u8`. A name that does not match leaves `nameMatch` false. -/
def passwdField (username : List Byte) (st : LineState) (field : List Byte) : Option LineState := do
  let st ← readField username st field
  if st.fieldNum + 1 < 2 ^ 8 then return { st with fieldNum := st.fieldNum + 1 } else none

def matchPasswdLine (username line : List Byte) : Option (Option (Nat × Nat)) := do
  let st ← (fields 0x3a [] line).foldlM (passwdField username) ⟨0, 0, 0, false⟩
  if st.nameMatch ∧ st.fieldNum ≥ 4 then return some (st.uid, st.gid) else return none

/-- The loop of `validateUser` over the lines. -/
def findUser (username : List Byte) : List (List Byte) → Option (Option (Nat × Nat))
  | [] => some none
  | line :: rest => do
    match ← matchPasswdLine username line with
    | some ids => return some ids
    | none => findUser username rest

def validateUser (passwd : Option (List Byte)) (username : List Byte) : Option (Option (Nat × Nat)) :=
  match passwd with
  | none => if username = ascii "root" then some (some (0, 0)) else some none
  | some content => findUser username (fields 0x0a [] (content.take 1024))

def sendAuthFailure (sess : SshSession) : Option SshSession := send sess ([51] ++ sshString (ascii "password") ++ [0])

/-- What `handleAuth` does behind a password. -/
def acceptUser (env : Env) (sess : SshSession) (uname : List Byte) : Option (Turn SshSession Bool) := do
  match ← validateUser env.passwd uname with
  | some (uid, gid) =>
    let copyLen := if uname.length > 63 then 63 else uname.length
    let (ok, sess) ← writePacket
      { sess with
        authUid := BitVec.ofNat 32 uid, authGid := BitVec.ofNat 32 gid
        username := putBytes sess.username 0 (uname.take copyLen), usernameLen := BitVec.ofNat 8 copyLen } [52]
    return .done ok sess
  | none => (sendAuthFailure sess).map .again

/-- `authTurn` behind the method "password". -/
def authPassword (env : Env) (sess : SshSession) (buf : Buf) (plen : Nat) (uname : List Byte) (pos : Nat) :
    Option (Turn SshSession Bool) :=
  if pos ≥ plen then some (.done false sess)
  else do
    let pos ← addU32 pos 1
    match ← takeString buf plen pos with
    | none => some (.done false sess)
    | some _ => acceptUser env sess uname

/-- `authTurn` behind the service name. -/
def authMethod (env : Env) (sess : SshSession) (buf : Buf) (plen : Nat) (uname : List Byte) (pos : Nat) :
    Option (Turn SshSession Bool) := do
  match ← takeString buf plen pos with
  | none => some (.done false sess)
  | some (method, pos) =>
    if method = ascii "none" then (sendAuthFailure sess).map .again
    else if method = ascii "password" then authPassword env sess buf plen uname pos
    else (sendAuthFailure sess).map .again

/-- A request to authenticate: one turn of `handleAuth`. The length of the service name is added to the position before
anything compares it. -/
def authTurn (env : Env) (sess : SshSession) : Option (Turn SshSession Bool) := do
  let undef := env.undef sess
  let (payload, sess) ← readPacket sess bufSize
  let buf := packetBuf undef payload
  let plen := payload.length
  if plen = 0 ∨ buf 0 ≠ 50 then return .done false sess
  else
    match ← takeString buf plen 1 with
    | none => return .done false sess
    | some (uname, pos) =>
      let start ← addU32 pos 4
      if start > plen then return .done false sess
      else
        let svcLen ← u32At buf pos
        let pos ← addU32 start svcLen
        authMethod env sess buf plen uname pos

/-! ## Channels -/

def handleChannelOpen (env : Env) (sess : SshSession) : Option (Bool × SshSession) := do
  let undef := env.undef sess
  let (payload, sess) ← readPacket sess bufSize
  let buf := packetBuf undef payload
  let plen := payload.length
  if plen = 0 ∨ buf 0 ≠ 90 then return (false, sess)
  else
    match ← takeString buf plen 1 with
    | none => return (false, sess)
    | some (_, pos) =>
      let stop ← addU32 pos 4
      if stop > plen then return (false, sess)
      else
        let remoteChannel ← u32At buf pos
        let sess := { sess with remoteChannel := BitVec.ofNat 32 remoteChannel }
        let stop' ← addU32 stop 4
        if stop' > plen then return (false, sess)
        else
          let remoteWindow ← u32At buf stop
          let sess := { sess with remoteWindow := BitVec.ofNat 32 remoteWindow, channelId := 0 }
          writePacket sess
            ([91] ++ putU32 sess.remoteChannel ++ putU32 sess.channelId ++ putU32 0x200000 ++ putU32 0x8000)

def channelReply (sess : SshSession) (kind : Byte) : List Byte := [kind] ++ putU32 sess.remoteChannel

/-- A channel request: one turn of `handleChannelRequest`, which calls itself for the next one. -/
def channelRequestTurn (env : Env) (sess : SshSession) : Option (Turn SshSession Bool) := do
  let undef := env.undef sess
  let (payload, sess) ← readPacket sess bufSize
  let buf := packetBuf undef payload
  let plen := payload.length
  if plen = 0 ∨ buf 0 ≠ 98 then return .done false sess
  else
    match ← takeString buf plen 5 with
    | none => return .done false sess
    | some (reqType, pos) =>
      if pos ≥ plen then return .done false sess
      else
        let wantReply := buf pos ≠ 0
        if reqType = ascii "pty-req" then
          if wantReply then (send sess (channelReply sess 99)).map .again else return .again sess
        else if reqType = ascii "shell" ∨ reqType = ascii "exec" then
          if wantReply then
            let (ok, sess) ← writePacket sess (channelReply sess 99)
            return .done ok sess
          else return .done true sess
        else if wantReply then (send sess (channelReply sess 100)).map .again
        else return .again sess

/-- One packet of a channel that is open: one turn of `recvChannelData`, into `outLen` bytes. -/
def channelDataTurn (env : Env) (outLen : Nat) (sess : SshSession) : Option (Turn SshSession (List Byte)) := do
  let undef := env.undef sess
  let (payload, sess) ← readPacket sess bufSize
  let buf := packetBuf undef payload
  let plen := payload.length
  if plen = 0 then return .done [] sess
  else if buf 0 = 94 then
    if plen < 9 then return .done [] sess
    else
      let dataLen ← u32At buf 5
      let stop ← addU32 9 dataLen
      if stop > plen then return .done [] sess
      else if dataLen > outLen then return .done [] sess
      else
        let data ← sliceOf buf bufSize 9 dataLen
        return .done data sess
  else if buf 0 = 96 ∨ buf 0 = 97 then return .done [] sess
  else if buf 0 = 98 then
    if plen > 5 then
      -- the length may lie behind the payload, in what the buffer held before
      let reqLen ← u32At buf 5
      let skip ← addU32 4 reqLen
      let pos ← addU32 5 skip
      if pos < plen ∧ buf pos ≠ 0 then (send sess (channelReply sess 100)).map .again else return .again sess
    else return .again sess
  else if buf 0 = 93 then
    if plen ≥ 9 then
      let amount ← u32At buf 5
      let window ← addU32 sess.remoteWindow.toNat amount
      return .again { sess with remoteWindow := BitVec.ofNat 32 window }
    else return .again sess
  else return .again sess

/-! ## The handlers that loop -/

/-- More turns than the bytes that still come can feed. -/
def enough (sess : SshSession) : Nat := sess.incoming.flatten.length + 1

def handleAuth (env : Env) (sess : SshSession) : Option (Bool × SshSession) := run (authTurn env) (enough sess) sess

def handleChannelRequest (env : Env) (sess : SshSession) : Option (Bool × SshSession) :=
  run (channelRequestTurn env) (enough sess) sess

def recvChannelData (env : Env) (outLen : Nat) (sess : SshSession) : Option (List Byte × SshSession) :=
  run (channelDataTurn env outLen) (enough sess) sess

end Zigix.Ssh
