import Zigix.Lib.Ring
import Zigix.Lib.Serial
import Mathlib.Data.Fin.Basic

/-!
# TCP connections: the record and the sending half (`kernel/net/tcp.zig`, `kernel/arch/aarch64/tcp.zig`)

The two stacks share the record and every function here; where they differ the function takes the architecture.

* `TcpConnection`, `emptyConn` : the record, with the reassembly queue that only the aarch64 stack has;
* `sendSegment`, `sendSegmentWithSeq` : what leaves the stack, as an `Effect`;
* `flushSendBuffer`, `advanceTxBuffer`, `updateRto`, `retransmitSegment`, `fastRetransmit`, `processAck`.

Sequence numbers wrap (`BitVec 32`). Counters are numbers, and an addition that leaves the type of the source's
field stops the kernel: `none`. The tick counter is not bounded.
-/

namespace Zigix.Tcp

inductive Arch where
  | x86
  | aarch64
  deriving DecidableEq

abbrev Byte := BitVec 8

def FIN : BitVec 8 := 0x01
def SYN : BitVec 8 := 0x02
def RST : BitVec 8 := 0x04
def PSH : BitVec 8 := 0x08
def ACK : BitVec 8 := 0x10

inductive TcpState where
  | closed
  | listen
  | synSent
  | synReceived
  | established
  | finWait1
  | finWait2
  | closeWait
  | lastAck
  | timeWait
  deriving DecidableEq

def maxTcpConnections : Arch → Nat
  | .x86 => 64
  | .aarch64 => 128

instance (arch : Arch) : NeZero (maxTcpConnections arch) := ⟨by cases arch <;> decide⟩

def rxBufSize : Nat := 4096
def txBufSize : Nat := 8192
def maxTxSegs : Nat := 6
def initialRto : Nat := 100
def minRto : Nat := 20
def maxRto : Nat := 6000
def maxRetransmits : Nat := 8
def mss : Nat := 1460
def maxOooSegs : Nat := 8
def oooBufSize : Nat := 1500

structure TxSegment where
  seq : BitVec 32
  len : Nat
  retransmits : Nat

structure OooSegment where
  seq : BitVec 32 := 0
  len : Nat := 0
  data : Nat → Byte := fun _ => 0
  inUse : Bool := false

structure TcpConnection where
  state : TcpState
  localPort : BitVec 16
  remotePort : BitVec 16
  localIp : BitVec 32
  remoteIp : BitVec 32
  sendNext : BitVec 32
  sendUnack : BitVec 32
  recvNext : BitVec 32
  rxBuf : Nat → Byte
  rxHead : Nat
  rxCount : Nat
  waitingPid : Nat
  inUse : Bool
  txBuf : Nat → Byte
  txHead : Nat
  txCount : Nat
  txSent : Nat
  txSegs : Nat → TxSegment
  txSegCount : Nat
  srtt : Int
  rttvar : Int
  rto : Nat
  rttSeq : BitVec 32
  rttMeasured : Bool
  cwnd : Nat
  ssthresh : Nat
  peerWindow : Nat
  dupAckCount : Nat
  inRecovery : Bool
  /-- 0 = stopped -/
  rtoDeadline : Nat
  oooSegs : Fin maxOooSegs → OooSegment

def emptyConn : TcpConnection where
  state := .closed
  localPort := 0
  remotePort := 0
  localIp := 0
  remoteIp := 0
  sendNext := 0
  sendUnack := 0
  recvNext := 0
  rxBuf := fun _ => 0
  rxHead := 0
  rxCount := 0
  waitingPid := 0
  inUse := false
  txBuf := fun _ => 0
  txHead := 0
  txCount := 0
  txSent := 0
  txSegs := fun _ => { seq := 0, len := 0, retransmits := 0 }
  txSegCount := 0
  srtt := 0
  rttvar := 0
  rto := initialRto
  rttSeq := 0
  rttMeasured := false
  cwnd := mss * 2
  ssthresh := 65535
  peerWindow := 4096
  dupAckCount := 0
  inRecovery := false
  rtoDeadline := 0
  oooSegs := fun _ => {}

/-! ## What a call does besides changing connections -/

/-- A segment handed to `ipv4.send`. -/
structure Segment where
  remoteIp : BitVec 32
  localPort : BitVec 16
  remotePort : BitVec 16
  flags : BitVec 8
  seq : BitVec 32
  ack : BitVec 32
  window : Nat
  payload : List Byte
  deriving DecidableEq

inductive Effect where
  | send (segment : Segment)
  /-- `scheduler.wakeProcess` -/
  | wakeProcess (pid : Nat)
  /-- `epoll.wakeAllWaiters` -/
  | wakeAllWaiters
  /-- `socket.queueAcceptedConnection` -/
  | queueAcceptedConnection (localPort : BitVec 16) (connIdx : Nat)
  deriving DecidableEq

def sendSegmentWithSeq (c : TcpConnection) (flags : BitVec 8) (seq : BitVec 32) (payload : List Byte) : Effect :=
  .send
    { remoteIp := c.remoteIp, localPort := c.localPort, remotePort := c.remotePort, flags, seq, ack := c.recvNext,
      window := (rxBufSize - c.rxCount) % 2 ^ 16, payload }

def sendSegment (c : TcpConnection) (flags : BitVec 8) (payload : List Byte) : Effect :=
  sendSegmentWithSeq c flags c.sendNext payload

/-- Clear `waiting_pid` and wake the process it names, if there is one. -/
def wakeWaiter (c : TcpConnection) : TcpConnection × List Effect :=
  if c.waitingPid ≠ 0 then ({ c with waitingPid := 0 }, [.wakeProcess c.waitingPid]) else (c, [])

/-! ## Checked arithmetic -/

def addU8 (a b : Nat) : Option Nat := if a + b < 2 ^ 8 then some (a + b) else none

def addU32 (a b : Nat) : Option Nat := if a + b < 2 ^ 32 then some (a + b) else none

/-- A value of type `i32`. -/
def toI32 (a : Int) : Option Int := if -2 ^ 31 ≤ a ∧ a < 2 ^ 31 then some a else none

/-! ## The transmit ring -/

def txPos (c : TcpConnection) (off i : Nat) : Nat := (c.txHead + off + i) % 2 ^ 16 % txBufSize

/-- `len` bytes of the ring, `off` bytes behind its head. -/
def txBytes (c : TcpConnection) (off len : Nat) : List Byte := (List.range len).map fun i => c.txBuf (txPos c off i)

def recordSegment (c : TcpConnection) (toSend : Nat) : TcpConnection :=
  if c.txSegCount < maxTxSegs then
    { c with
      txSegs := Function.update c.txSegs c.txSegCount { seq := c.sendNext, len := toSend, retransmits := 0 }
      txSegCount := c.txSegCount + 1 }
  else c

/-- Time the first unacknowledged segment. -/
def startRtt (c : TcpConnection) : TcpConnection :=
  if c.rttMeasured = false ∧ c.txSegCount = 1 then { c with rttSeq := c.sendNext } else c

def startTimer (now : Nat) (c : TcpConnection) : TcpConnection :=
  if c.rtoDeadline = 0 then { c with rtoDeadline := now + c.rto } else c

/-- How much `flushSendBuffer` may send; 0 when the window is full or nothing is waiting. -/
def flushLen (c : TcpConnection) : Option Nat :=
  if min c.cwnd c.peerWindow ≤ c.txSent then some 0
  else if c.txCount < c.txSent then none
  else some (min (min (c.txCount - c.txSent) (min c.cwnd c.peerWindow - c.txSent)) mss)

/-- Send the next `toSend` bytes of the ring. -/
def transmit (now : Nat) (c : TcpConnection) (toSend : Nat) : TcpConnection × List Effect :=
  let payload := txBytes c c.txSent toSend
  let c := startRtt (recordSegment c toSend)
  (startTimer now { c with sendNext := c.sendNext + BitVec.ofNat 32 toSend, txSent := c.txSent + toSend },
    [sendSegmentWithSeq c (PSH ||| ACK) c.sendNext payload])

def flushSendBuffer (now : Nat) (c : TcpConnection) : Option (TcpConnection × List Effect) := do
  let toSend ← flushLen c
  if toSend = 0 then some (c, []) else some (transmit now c toSend)

/-- The scan of `advanceTxBuffer`: how many recorded segments the acknowledgement removes, and the table with the
first segment it only cuts. -/
def trimSegs : List Nat → Nat → Nat → (Nat → TxSegment) → Nat × (Nat → TxSegment)
  | [], removed, _, segs => (removed, segs)
  | i :: is, removed, remaining, segs =>
    if (segs i).len ≤ remaining then trimSegs is (removed + 1) (remaining - (segs i).len) segs
    else
      (removed, Function.update segs i
        { segs i with seq := (segs i).seq + BitVec.ofNat 32 remaining, len := (segs i).len - remaining })

/-- Move the last `count - removed` segments to the front. -/
def compactSegs (removed count : Nat) (segs : Nat → TxSegment) : Nat → TxSegment :=
  (List.range (count - removed)).foldl (fun s dst => Function.update s dst (s (removed + dst))) segs

def advanceTxBuffer (c : TcpConnection) (acked : Nat) : TcpConnection :=
  let trimmed := trimSegs (List.range c.txSegCount) 0 acked c.txSegs
  { c with
    txHead := (c.txHead + acked) % 2 ^ 16 % txBufSize
    txCount := c.txCount - acked
    txSent := c.txSent - acked
    txSegs := if trimmed.1 > 0 then compactSegs trimmed.1 c.txSegCount trimmed.2 else trimmed.2
    txSegCount := if trimmed.1 > 0 then c.txSegCount - trimmed.1 else c.txSegCount }

/-! ## Retransmission -/

/-- `srtt` and `rttvar` after the first sample. -/
def firstSample (r : Int) : Option (Int × Int) := do
  let srtt ← toI32 (r * 8)
  let rttvar ← toI32 (r * 2)
  pure (srtt, rttvar)

/-- `srtt` and `rttvar` after a further sample. -/
def nextSample (srtt rttvar r : Int) : Option (Int × Int) := do
  let diff ← toI32 (if srtt.tdiv 8 > r then srtt.tdiv 8 - r else r - srtt.tdiv 8)
  let v ← toI32 (3 * rttvar)
  let v ← toI32 (v + diff)
  let s ← toI32 (7 * srtt)
  let r8 ← toI32 (r * 8)
  let s ← toI32 (s + r8)
  pure (s.tdiv 8, v.tdiv 4)

def takeSample (c : TcpConnection) (r : Int) : Option (Int × Int) :=
  if c.srtt = 0 then firstSample r else nextSample c.srtt c.rttvar r

def clampRto (rto : Nat) : Nat :=
  let rto := if rto < minRto then minRto else rto
  if rto > maxRto then maxRto else rto

def updateRto (c : TcpConnection) (rtt : Nat) : Option TcpConnection := do
  let r ← toI32 rtt
  let p ← takeSample c r
  let sum ← toI32 (p.1.tdiv 8 + p.2)
  pure { c with srtt := p.1, rttvar := p.2, rto := clampRto (max 1 sum).toNat }

def wakeOnFailure : Arch → TcpConnection → TcpConnection × List Effect
  | .x86, c => wakeWaiter c
  | .aarch64, c => (c, [])

def retransmitSegment (arch : Arch) (now : Nat) (c : TcpConnection) (segIdx : Nat) : TcpConnection × List Effect :=
  if c.txSegCount ≤ segIdx then (c, [])
  else
    let seg := c.txSegs segIdx
    if maxRetransmits ≤ seg.retransmits then wakeOnFailure arch { c with state := .closed }
    else
      let offsetInBuf := (seg.seq - c.sendUnack).toNat % 2 ^ 16
      let payload := txBytes c offsetInBuf seg.len
      let c₁ := { c with txSegs := Function.update c.txSegs segIdx { seg with retransmits := seg.retransmits + 1 } }
      let rto := min (c₁.rto * 2) maxRto
      ({ c₁ with rto, rtoDeadline := now + rto }, [sendSegmentWithSeq c₁ (PSH ||| ACK) seg.seq payload])

def fastRetransmit (arch : Arch) (now : Nat) (c : TcpConnection) : TcpConnection × List Effect :=
  let ssthresh := max (c.cwnd / 2) (mss * 2)
  let c₁ := { c with ssthresh, cwnd := ssthresh + 3 * mss, inRecovery := true }
  if c₁.txSegCount > 0 then retransmitSegment arch now c₁ 0 else (c₁, [])

/-! ## Acknowledgements -/

/-- The branch of `processAck` for an acknowledgement of nothing new. -/
def duplicateAck (arch : Arch) (now : Nat) (c : TcpConnection) (ackNum : BitVec 32) :
    Option (TcpConnection × List Effect) :=
  if ackNum = c.sendUnack ∧ c.txSent > 0 then do
    let n ← addU8 c.dupAckCount 1
    let c := { c with dupAckCount := n }
    if n ≥ 3 ∧ c.inRecovery = false then some (fastRetransmit arch now c) else some (c, [])
  else some (c, [])

/-- The round-trip sample of `processAck`. -/
def sampleRtt (now : Nat) (c : TcpConnection) (ackNum : BitVec 32) : Option TcpConnection :=
  if c.rttMeasured = false ∧ 0 < (ackNum - c.rttSeq).toNat ∧ (c.txSegs 0).retransmits = 0 then do
    let c ← updateRto c ((now - (c.rtoDeadline - c.rto)) % 2 ^ 32)
    pure { c with rttMeasured := true }
  else some c

/-- The congestion window after an acknowledgement of `acked` bytes. -/
def growCwnd (c : TcpConnection) (acked : Nat) : Option TcpConnection :=
  if c.inRecovery then some (if acked ≥ c.cwnd then { c with inRecovery := false } else c)
  else if c.cwnd < c.ssthresh then do
    let cwnd ← addU32 c.cwnd mss
    pure { c with cwnd }
  else if c.cwnd = 0 then none
  else do
    let cwnd ← addU32 c.cwnd (mss * mss / c.cwnd)
    pure { c with cwnd }

/-- The rest of `processAck`: `ackedBytes` bytes are acknowledged. -/
def newAck (now : Nat) (c : TcpConnection) (ackNum : BitVec 32) (ackedBytes : Nat) :
    Option (TcpConnection × List Effect) := do
  let c ← sampleRtt now { c with dupAckCount := 0, sendUnack := ackNum } ackNum
  let c ← growCwnd (advanceTxBuffer c (ackedBytes % 2 ^ 16)) ackedBytes
  let c := { c with rtoDeadline := if c.txSent > 0 then now + c.rto else 0, rttMeasured := false }
  flushSendBuffer now c

def processAck (arch : Arch) (now : Nat) (c : TcpConnection) (ackNum : BitVec 32) (peerWin : Nat) :
    Option (TcpConnection × List Effect) :=
  let c := { c with peerWindow := peerWin }
  let ackedBytes := (ackNum - c.sendUnack).toNat
  if ackedBytes = 0 ∨ ackedBytes > c.txCount then duplicateAck arch now c ackNum
  else newAck now c ackNum ackedBytes

/-- The copy of `sendData`: how many bytes are taken, and the connection that holds them. -/
def bufferData (c : TcpConnection) (data : List Byte) : Nat × TcpConnection :=
  let toCopy := min data.length (txBufSize - c.txCount)
  (toCopy,
    { c with
      txBuf := Ring.store (txPos c c.txCount) (fun i => data.getD i 0) toCopy c.txBuf
      txCount := c.txCount + toCopy })

/-- One connection's part of `tcpTimerPoll`. -/
def pollConn (arch : Arch) (now : Nat) (c : TcpConnection) : TcpConnection × List Effect :=
  if c.inUse = true ∧ c.rtoDeadline ≠ 0 ∧ c.rtoDeadline ≤ now then
    if c.txSegCount > 0 then
      retransmitSegment arch now { c with ssthresh := max (c.cwnd / 2) (mss * 2), cwnd := mss } 0
    else ({ c with rtoDeadline := 0 }, [])
  else (c, [])

end Zigix.Tcp
