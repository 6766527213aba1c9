import Zigix.Net.Tcp
import Mathlib.Data.Fin.Tuple.Basic

/-!
# TCP input and the connection table

* `deliverPayload`, `storeOooSegment`, `drainOooQueue` : the receive buffer and the reassembly queue;
* `onSynSent` … `onLastAck`, `onSegment` : the state machine of `handleTcp`, one function a state;
* `handleTcp`, `sendData`, `recvData`, `connect`, `close`, `tcpTimerPoll`, `allocConnection`, `freeConnection` : the
  entry points, each of them one critical section of `tcp_lock`;
* `Event`, `step` : what can happen to a stack.
-/

namespace Zigix.Tcp

/-! ## The header -/

def byteAt (data : List Byte) (i : Nat) : Byte := data.getD i 0

def getU16BE (data : List Byte) (i : Nat) : BitVec 16 := byteAt data i ++ byteAt data (i + 1)

def getU32BE (data : List Byte) (i : Nat) : BitVec 32 := getU16BE data i ++ getU16BE data (i + 2)

def tcpHeaderSize : Nat := 20

structure Header where
  srcPort : BitVec 16
  dstPort : BitVec 16
  seqNum : BitVec 32
  ackNum : BitVec 32
  flags : BitVec 8
  peerWin : Nat
  payload : List Byte
  deriving DecidableEq

def Header.has (h : Header) (mask : BitVec 8) : Bool := h.flags &&& mask != 0

/-- `none`: the segment is dropped before anything looks at it. -/
def parseHeader (data : List Byte) : Option Header :=
  if data.length < tcpHeaderSize then none
  else
    let dataOffset := (byteAt data 12).toNat / 16 * 4
    if dataOffset > data.length then none
    else
      some
        { srcPort := getU16BE data 0, dstPort := getU16BE data 2, seqNum := getU32BE data 4
          ackNum := getU32BE data 8, flags := byteAt data 13, peerWin := (getU16BE data 14).toNat
          payload := data.drop dataOffset }

/-! ## Receiving -/

def rxPos (c : TcpConnection) (i : Nat) : Nat := (c.rxHead + c.rxCount + i) % 2 ^ 16 % rxBufSize

def deliverPayload (c : TcpConnection) (payload : List Byte) : TcpConnection :=
  let toCopy := min payload.length (rxBufSize - c.rxCount)
  { c with
    rxBuf := Ring.store (rxPos c) (fun i => payload.getD i 0) toCopy c.rxBuf
    rxCount := c.rxCount + toCopy
    recvNext := c.recvNext + BitVec.ofNat 32 toCopy }

def OooSegment.payload (s : OooSegment) : List Byte := (List.range s.len).map s.data

/-- The slot after a segment was copied into it; what the slot held beyond `payload.len` stays there. -/
def OooSegment.load (s : OooSegment) (seq : BitVec 32) (payload : List Byte) : OooSegment :=
  { seq, len := payload.length % 2 ^ 16, inUse := true
    data := Ring.store id (fun i => payload.getD i 0) payload.length s.data }

def storeOooSegment (c : TcpConnection) (seq : BitVec 32) (payload : List Byte) : TcpConnection :=
  if payload.length > oooBufSize then c
  else if ∃ i, (c.oooSegs i).inUse = true ∧ (c.oooSegs i).seq = seq then c
  else
    match Fin.find? fun i => !(c.oooSegs i).inUse with
    | none => c
    | some i => { c with oooSegs := Function.update c.oooSegs i ((c.oooSegs i).load seq payload) }

/-- The next segment the queue can give. -/
def readySlot (c : TcpConnection) : Option (Fin maxOooSegs) :=
  Fin.find? fun i => (c.oooSegs i).inUse && decide ((c.oooSegs i).seq = c.recvNext)

/-- One delivery of `drainOooQueue`. -/
def takeSlot (c : TcpConnection) (i : Fin maxOooSegs) : TcpConnection :=
  let c' := deliverPayload c (c.oooSegs i).payload
  { c' with oooSegs := Function.update c'.oooSegs i { c'.oooSegs i with inUse := false } }

/-- The loop of `drainOooQueue`. Every turn frees a slot, so that as many turns as there are slots suffice. -/
def drainLoop : Nat → TcpConnection → TcpConnection
  | 0, c => c
  | fuel + 1, c =>
    match readySlot c with
    | none => c
    | some i => drainLoop fuel (takeSlot c i)

def drainOooQueue (c : TcpConnection) : TcpConnection := drainLoop maxOooSegs c

/-! ## The state machine -/

abbrev Result := TcpConnection × List Effect

/-- An acknowledgement of everything received so far. -/
def sendAck (c : TcpConnection) : Effect := sendSegment c ACK []

def wakeAll (c : TcpConnection) : Result := ((wakeWaiter c).1, (wakeWaiter c).2 ++ [.wakeAllWaiters])

def onSynSent (c : TcpConnection) (h : Header) : Result :=
  if h.flags &&& (SYN ||| ACK) = SYN ||| ACK then
    let c :=
      { c with
        recvNext := h.seqNum + 1, sendUnack := h.ackNum, state := .established, rtoDeadline := 0
        peerWindow := h.peerWin }
    ((wakeAll c).1, sendAck c :: (wakeAll c).2)
  else if h.has RST then wakeAll { c with state := .closed }
  else (c, [])

def onSynReceived (arch : Arch) (idx : Nat) (c : TcpConnection) (h : Header) : Result :=
  if h.has ACK then
    ({ c with sendUnack := h.ackNum, state := .established }, [.queueAcceptedConnection c.localPort idx])
  else if h.has RST then
    ({ c with state := .closed, inUse := false }, if arch = .aarch64 then [.wakeAllWaiters] else [])
  else (c, [])

/-- Data in `established`: only the segment that starts at `recv_next` is taken. -/
def receiveX86 (c : TcpConnection) (h : Header) : Result :=
  if 0 < h.payload.length ∧ h.seqNum = c.recvNext then
    let c := deliverPayload c h.payload
    ((wakeAll c).1, sendAck c :: (wakeAll c).2)
  else (c, [])

/-- Data in `established`, with reassembly. -/
def receiveAarch64 (c : TcpConnection) (h : Header) : Result :=
  if 0 < h.payload.length then
    if h.seqNum = c.recvNext then
      let c := drainOooQueue (deliverPayload c h.payload)
      ((wakeAll c).1, sendAck c :: (wakeAll c).2)
    else if Serial.after h.seqNum c.recvNext then
      let c := storeOooSegment c h.seqNum h.payload
      (c, [sendAck c])
    else (c, [])
  else (c, [])

def receive : Arch → TcpConnection → Header → Result
  | .x86 => receiveX86
  | .aarch64 => receiveAarch64

/-- The FIN flag in `established`. -/
def receiveFin (c : TcpConnection) (h : Header) : Result :=
  if h.has FIN then
    let c := { c with recvNext := c.recvNext + 1, state := .closeWait }
    ((wakeAll c).1, sendAck c :: (wakeAll c).2)
  else (c, [])

/-- The RST flag in `established`; only the x86 stack also wakes the epoll waiters. -/
def receiveRst : Arch → TcpConnection → Result
  | .x86, c => wakeAll { c with state := .closed }
  | .aarch64, c => wakeWaiter { c with state := .closed }

/-- The ACK flag in `established`. -/
def receiveAck (arch : Arch) (now : Nat) (c : TcpConnection) (h : Header) : Option Result :=
  if h.has ACK then processAck arch now c h.ackNum h.peerWin else some (c, [])

/-- Payload and FIN, once the acknowledgement is dealt with. A connection that `processAck` has just given up is
still given the rest of the segment. -/
def receiveRest (arch : Arch) (h : Header) (acked : Result) : Result :=
  let received := receive arch acked.1 h
  let finished := receiveFin received.1 h
  (finished.1, acked.2 ++ received.2 ++ finished.2)

def onEstablished (arch : Arch) (now : Nat) (c : TcpConnection) (h : Header) : Option Result :=
  if h.has RST then some (receiveRst arch c) else (receiveAck arch now c h).map (receiveRest arch h)

/-- The FIN flag after the connection was closed on this side. -/
def toTimeWait (c : TcpConnection) : Result :=
  let c := { c with recvNext := c.recvNext + 1, state := .timeWait }
  ((wakeWaiter c).1, sendAck c :: (wakeWaiter c).2)

def onFinWait1 (c : TcpConnection) (h : Header) : Result :=
  if h.has ACK then
    let c := { c with sendUnack := h.ackNum }
    if h.has FIN then toTimeWait c else ({ c with state := .finWait2 }, [])
  else (c, [])

def onFinWait2 (c : TcpConnection) (h : Header) : Result := if h.has FIN then toTimeWait c else (c, [])

def onLastAck (c : TcpConnection) (h : Header) : Result :=
  if h.has ACK then wakeWaiter { c with state := .closed, inUse := false } else (c, [])

/-- The switch of `handleTcp`. -/
def onSegment (arch : Arch) (now idx : Nat) (c : TcpConnection) (h : Header) : Option Result :=
  match c.state with
  | .synSent => some (onSynSent c h)
  | .synReceived => some (onSynReceived arch idx c h)
  | .established => onEstablished arch now c h
  | .finWait1 => some (onFinWait1 c h)
  | .finWait2 => some (onFinWait2 c h)
  | .lastAck => some (onLastAck c h)
  | _ => some (c, [])

/-! ## Deferred actions -/

def Effect.isSend : Effect → Bool
  | .send _ => true
  | _ => false

def Effect.isAccept : Effect → Bool
  | .queueAcceptedConnection _ _ => true
  | _ => false

def Effect.isWake : Effect → Bool
  | .wakeProcess _ => true
  | _ => false

def perform : Arch → List Effect → List Effect
  | .x86, out => out
  | .aarch64, out =>
    out.filter (·.isSend) ++ out.filter (·.isAccept) ++ out.filter (·.isWake) ++
      if .wakeAllWaiters ∈ out then [.wakeAllWaiters] else []

/-! ## The connection table -/

structure Stack (arch : Arch) where
  connections : Fin (maxTcpConnections arch) → TcpConnection
  nextEphemeralPort : Nat

/-- What the stack reads of the rest of the kernel during one call. -/
structure Env where
  ticks : Nat
  ourIp : BitVec 32
  /-- `socket.findListeningSocket` finds one -/
  listening : BitVec 16 → Bool

/-- Tick `n`, with no listening socket. -/
def Env.atTick (n : Nat) : Env := { ticks := n, ourIp := 1, listening := fun _ => false }

variable {arch : Arch}

def Stack.set (s : Stack arch) (i : Fin (maxTcpConnections arch)) (c : TcpConnection) : Stack arch :=
  { s with connections := Function.update s.connections i c }

def findConnection (s : Stack arch) (remoteIp : BitVec 32) (remotePort localPort : BitVec 16) :
    Option (Fin (maxTcpConnections arch)) :=
  Fin.find? fun i =>
    (s.connections i).inUse && decide ((s.connections i).remoteIp = remoteIp) &&
      decide ((s.connections i).remotePort = remotePort) && decide ((s.connections i).localPort = localPort)

def freeSlot (s : Stack arch) : Option (Fin (maxTcpConnections arch)) := Fin.find? fun i => !(s.connections i).inUse

def allocConnection (env : Env) (s : Stack arch) : Option (Fin (maxTcpConnections arch)) × Stack arch :=
  match freeSlot s with
  | none => (none, s)
  | some i =>
    let port := (s.nextEphemeralPort + 1) % 2 ^ 16
    let s' := s.set i
      { emptyConn with inUse := true, localIp := env.ourIp, localPort := BitVec.ofNat 16 s.nextEphemeralPort }
    (some i, { s' with nextEphemeralPort := if port < 49152 then 49152 else port })

def initialSeq (ticks : Nat) : BitVec 32 := BitVec.ofNat 32 (ticks * 2654435761 % 2 ^ 64)

def serverConn (env : Env) (localPort : BitVec 16) (remoteIp : BitVec 32) (remotePort : BitVec 16)
    (synSeq : BitVec 32) : TcpConnection :=
  { emptyConn with
    inUse := true, localIp := env.ourIp, localPort, remoteIp, remotePort, recvNext := synSeq + 1
    sendNext := initialSeq env.ticks, sendUnack := initialSeq env.ticks, state := .synReceived }

/-- An established connection between port 80 and port 1000 of host 2. Its own first byte has number 0, the peer's has
number 100. -/
def openConn : TcpConnection := { serverConn (Env.atTick 0) 80 2 1000 99 with state := .established }

def allocConnectionForServer (env : Env) (s : Stack arch) (localPort : BitVec 16) (remoteIp : BitVec 32)
    (remotePort : BitVec 16) (synSeq : BitVec 32) : Stack arch × List Effect :=
  match freeSlot s with
  | none => (s, [])
  | some i =>
    let c := serverConn env localPort remoteIp remotePort synSeq
    (s.set i { c with sendNext := c.sendNext + 1 }, [sendSegment c (SYN ||| ACK) []])

def sendRst (srcIp : BitVec 32) (h : Header) : Effect :=
  .send
    { remoteIp := srcIp, localPort := h.dstPort, remotePort := h.srcPort
      flags := if h.has ACK then RST else RST ||| ACK
      seq := if h.has ACK then h.ackNum else 0
      ack := if h.has ACK then 0 else h.seqNum + 1
      window := 0, payload := [] }

def handleTcp (env : Env) (s : Stack arch) (srcIp : BitVec 32) (data : List Byte) :
    Option (Stack arch × List Effect) :=
  match parseHeader data with
  | none => some (s, [])
  | some h =>
    match findConnection s srcIp h.srcPort h.dstPort with
    | none =>
      if h.has SYN && !h.has ACK && env.listening h.dstPort then
        some (allocConnectionForServer env s h.dstPort srcIp h.srcPort h.seqNum)
      else if h.has RST then some (s, [])
      else some (s, [sendRst srcIp h])
    | some i => do
      let (c, out) ← onSegment arch env.ticks i.val (s.connections i) h
      pure (s.set i c, perform arch out)

/-! ## Calls

Each call is a function of one connection, applied to a slot that is in use. -/

def connectConn (env : Env) (c : TcpConnection) (dstIp : BitVec 32) (dstPort : BitVec 16) : Result :=
  let c :=
    { c with
      remoteIp := dstIp, remotePort := dstPort, sendNext := initialSeq env.ticks, sendUnack := initialSeq env.ticks
      state := .synSent }
  ({ c with sendNext := c.sendNext + 1, rtoDeadline := env.ticks + c.rto }, [sendSegment c SYN []])

/-- The result of `sendData`: the number of bytes taken, -1, or -11 when the ring is full. -/
def sendConn (env : Env) (c : TcpConnection) (data : List Byte) : Option (Int × Result) :=
  if c.state ≠ .established then some (-1, c, [])
  else if txBufSize - c.txCount = 0 then some (-11, c, [])
  else do
    let r ← flushSendBuffer env.ticks (bufferData c data).2
    pure ((bufferData c data).1, r)

/-- The bytes of the receive ring that `recvData` copies out. -/
def rxBytes (c : TcpConnection) (n : Nat) : List Byte :=
  (List.range n).map fun i => c.rxBuf ((c.rxHead + i) % 2 ^ 16 % rxBufSize)

/-- `recvData` with a buffer of `len` bytes: the result, the bytes stored in the buffer and the connection. -/
def recvConn (c : TcpConnection) (len : Nat) : Int × List Byte × TcpConnection :=
  if c.rxCount = 0 then
    if c.state = .closeWait ∨ c.state = .closed ∨ c.state = .timeWait then (0, [], c) else (-11, [], c)
  else
    let toCopy := min len c.rxCount
    (toCopy, rxBytes c toCopy,
      { c with rxHead := (c.rxHead + toCopy) % 2 ^ 16 % rxBufSize, rxCount := c.rxCount - toCopy })

def closeConn (c : TcpConnection) : Result :=
  match c.state with
  | .established => ({ c with sendNext := c.sendNext + 1, state := .finWait1 }, [sendSegment c (FIN ||| ACK) []])
  | .closeWait => ({ c with sendNext := c.sendNext + 1, state := .lastAck }, [sendSegment c (FIN ||| ACK) []])
  | _ => ({ c with state := .closed, inUse := false }, [])

def freeConn (c : TcpConnection) : TcpConnection := { c with inUse := false, state := .closed }

def connect (env : Env) (s : Stack arch) (i : Fin (maxTcpConnections arch)) (dstIp : BitVec 32)
    (dstPort : BitVec 16) : Stack arch × List Effect :=
  if (s.connections i).inUse then
    let r := connectConn env (s.connections i) dstIp dstPort
    (s.set i r.1, r.2)
  else (s, [])

def sendData (env : Env) (s : Stack arch) (i : Fin (maxTcpConnections arch)) (data : List Byte) :
    Option (Int × Stack arch × List Effect) :=
  if (s.connections i).inUse then do
    let r ← sendConn env (s.connections i) data
    pure (r.1, s.set i r.2.1, r.2.2)
  else some (-1, s, [])

def recvData (s : Stack arch) (i : Fin (maxTcpConnections arch)) (len : Nat) : Int × List Byte × Stack arch :=
  if (s.connections i).inUse then
    let r := recvConn (s.connections i) len
    (r.1, r.2.1, s.set i r.2.2)
  else (-1, [], s)

def close (s : Stack arch) (i : Fin (maxTcpConnections arch)) : Stack arch × List Effect :=
  if (s.connections i).inUse then
    let r := closeConn (s.connections i)
    (s.set i r.1, r.2)
  else (s, [])

def freeConnection (s : Stack arch) (i : Fin (maxTcpConnections arch)) : Stack arch :=
  s.set i (freeConn (s.connections i))

def tcpTimerPoll (env : Env) (s : Stack arch) : Stack arch × List Effect :=
  ({ s with connections := fun i => (pollConn arch env.ticks (s.connections i)).1 },
    (List.finRange (maxTcpConnections arch)).flatMap fun i => (pollConn arch env.ticks (s.connections i)).2)

/-! ## Runs -/

/-- What can happen to a stack. -/
inductive Event (arch : Arch) where
  | handleTcp (srcIp : BitVec 32) (data : List Byte)
  | sendData (i : Fin (maxTcpConnections arch)) (data : List Byte)
  | recvData (i : Fin (maxTcpConnections arch)) (len : Nat)
  | tcpTimerPoll
  | allocConnection
  | connect (i : Fin (maxTcpConnections arch)) (dstIp : BitVec 32) (dstPort : BitVec 16)
  | close (i : Fin (maxTcpConnections arch))
  | freeConnection (i : Fin (maxTcpConnections arch))

/-- What a step shows to the outside: the result of a call, the bytes `recvData` stored and the effects. -/
structure Output where
  ret : Int := 0
  bytes : List Byte := []
  effects : List Effect := []

def step (env : Env) (s : Stack arch) : Event arch → Option (Stack arch × Output)
  | .handleTcp srcIp data => (handleTcp env s srcIp data).map fun r => (r.1, { effects := r.2 })
  | .sendData i data => (sendData env s i data).map fun r => (r.2.1, { ret := r.1, effects := r.2.2 })
  | .recvData i len =>
    let r := recvData s i len
    some (r.2.2, { ret := r.1, bytes := r.2.1 })
  | .tcpTimerPoll => some ((tcpTimerPoll env s).1, { effects := (tcpTimerPoll env s).2 })
  | .allocConnection => some ((allocConnection env s).2, {})
  | .connect i dstIp dstPort =>
    some ((connect env s i dstIp dstPort).1, { effects := (connect env s i dstIp dstPort).2 })
  | .close i => some ((close s i).1, { effects := (close s i).2 })
  | .freeConnection i => some (freeConnection s i, {})

/-! ## One connection's view of a run -/

inductive ConnEvent where
  | segment (h : Header)
  | sendData (data : List Byte)
  | recvData (len : Nat)
  | poll
  | connect (dstIp : BitVec 32) (dstPort : BitVec 16)
  | close
  | free
  deriving DecidableEq

def connStep (arch : Arch) (env : Env) (idx : Nat) (c : TcpConnection) : ConnEvent → Option (TcpConnection × Output)
  | .segment h => (onSegment arch env.ticks idx c h).map fun r => (r.1, { effects := perform arch r.2 })
  | .sendData data => (sendConn env c data).map fun r => (r.2.1, { ret := r.1, effects := r.2.2 })
  | .recvData len =>
    let r := recvConn c len
    some (r.2.2, { ret := r.1, bytes := r.2.1 })
  | .poll => some ((pollConn arch env.ticks c).1, { effects := (pollConn arch env.ticks c).2 })
  | .connect dstIp dstPort =>
    some ((connectConn env c dstIp dstPort).1, { effects := (connectConn env c dstIp dstPort).2 })
  | .close => some ((closeConn c).1, { effects := (closeConn c).2 })
  | .free => some (freeConn c, {})

/-- The states of one connection that events which meet `ok` lead to. -/
inductive ConnRun (arch : Arch) (idx : Nat) (start : TcpConnection → Prop) (ok : TcpConnection → ConnEvent → Prop) :
    TcpConnection → Prop
  | start {c} : start c → ConnRun arch idx start ok c
  | step {env c c' e o} : ConnRun arch idx start ok c → ok c e → connStep arch env idx c e = some (c', o) →
      ConnRun arch idx start ok c'

theorem ConnRun.invariant {arch : Arch} {idx : Nat} {start : TcpConnection → Prop}
    {ok : TcpConnection → ConnEvent → Prop} {P : TcpConnection → Prop} (first : ∀ c, start c → P c)
    (keep : ∀ env c c' e o, P c → ok c e → connStep arch env idx c e = some (c', o) → P c') {c : TcpConnection}
    (run : ConnRun arch idx start ok c) : P c := by
  induction run with
  | start h => exact first _ h
  | step _ hok hs ih => exact keep _ _ _ _ _ ih hok hs

theorem ConnRun.next {arch : Arch} {idx : Nat} {start : TcpConnection → Prop} {ok : TcpConnection → ConnEvent → Prop}
    {c : TcpConnection} (run : ConnRun arch idx start ok c) (env : Env) (e : ConnEvent) (hok : ok c e)
    (hs : (connStep arch env idx c e).isSome) : ConnRun arch idx start ok ((connStep arch env idx c e).get hs).1 :=
  .step run hok (Option.some_get hs).symm

/-- What an event of the stack is for connection `i`. -/
def Event.at (s : Stack arch) (i : Fin (maxTcpConnections arch)) : Event arch → Option ConnEvent
  | .handleTcp srcIp data =>
    match parseHeader data with
    | none => none
    | some h => if findConnection s srcIp h.srcPort h.dstPort = some i then some (.segment h) else none
  | .sendData j data => if j = i then some (.sendData data) else none
  | .recvData j len => if j = i then some (.recvData len) else none
  | .tcpTimerPoll => some .poll
  | .allocConnection => none
  | .connect j dstIp dstPort => if j = i then some (.connect dstIp dstPort) else none
  | .close j => if j = i then some .close else none
  | .freeConnection j => if j = i then some .free else none

section
variable {env : Env} {s s' : Stack arch} {i j : Fin (maxTcpConnections arch)} {e : Event arch} {out : Output}

@[simp] theorem set_self (s : Stack arch) (i : Fin (maxTcpConnections arch)) (c : TcpConnection) :
    (s.set i c).connections i = c := Function.update_self ..

theorem set_of_ne (s : Stack arch) (hij : i ≠ j) (c : TcpConnection) : (s.set j c).connections i = s.connections i :=
  Function.update_of_ne hij ..

theorem freeSlot_ne (hi : (s.connections i).inUse = true) (hj : freeSlot s = some j) : i ≠ j := by
  rintro rfl
  have := Fin.eq_true_of_find?_eq_some hj
  simp [hi] at this

theorem ne_of_at_none {ce : ConnEvent} (h : (if j = i then some ce else none) = none) : i ≠ j := by
  rintro rfl
  simp at h

theorem eq_of_at_some {ce ce' : ConnEvent} (h : (if j = i then some ce else none) = some ce') : j = i ∧ ce = ce' := by
  split at h
  · rename_i hji
    exact ⟨hji, Option.some.inj h⟩
  · cases h

theorem step_frame (hi : (s.connections i).inUse = true) (he : e.at s i = none)
    (hs : step env s e = some (s', out)) : s'.connections i = s.connections i := by
  cases e with
  | handleTcp srcIp data =>
    obtain ⟨r, hr, hs⟩ := Option.map_eq_some_iff.1 hs
    cases hs
    unfold handleTcp at hr
    simp only [Event.at] at he
    split at hr
    · cases hr
      rfl
    rename_i h hparse
    rw [hparse] at he
    split at hr
    · split at hr
      · cases hr
        unfold allocConnectionForServer
        split
        · rfl
        · rename_i j hj
          exact set_of_ne s (freeSlot_ne hi hj) _
      split at hr
      · cases hr
        rfl
      · cases hr
        rfl
    · rename_i j hfind
      obtain ⟨q, -, hr⟩ := Option.bind_eq_some_iff.1 hr
      cases hr
      have hij : i ≠ j := by
        rintro rfl
        simp [hfind] at he
      exact set_of_ne s hij _
  | sendData j data =>
    have hij := ne_of_at_none he
    obtain ⟨r, hr, hs⟩ := Option.map_eq_some_iff.1 hs
    cases hs
    unfold sendData at hr
    split at hr
    · obtain ⟨q, -, hr⟩ := Option.bind_eq_some_iff.1 hr
      cases hr
      exact set_of_ne s hij _
    · cases hr
      rfl
  | recvData j len =>
    have hij := ne_of_at_none he
    cases hs
    unfold recvData
    split
    · exact set_of_ne s hij _
    · rfl
  | tcpTimerPoll => simp [Event.at] at he
  | allocConnection =>
    cases hs
    unfold allocConnection
    split
    · rfl
    · rename_i j hj
      exact set_of_ne s (freeSlot_ne hi hj) _
  | connect j dstIp dstPort =>
    have hij := ne_of_at_none he
    cases hs
    unfold connect
    split
    · exact set_of_ne s hij _
    · rfl
  | close j =>
    have hij := ne_of_at_none he
    cases hs
    unfold close
    split
    · exact set_of_ne s hij _
    · rfl
  | freeConnection j =>
    have hij := ne_of_at_none he
    cases hs
    exact set_of_ne s hij _

/-- The bytes an event returns to the reader of connection `i`. -/
def Event.bytesAt (i : Fin (maxTcpConnections arch)) (out : Output) : Event arch → List Byte
  | .recvData j _ => if j = i then out.bytes else []
  | _ => []

theorem bytesAt_frame (he : e.at s i = none) : e.bytesAt i out = [] := by
  cases e with
  | recvData j len =>
    by_cases hji : j = i
    · simp [Event.at, hji] at he
    · simp [Event.bytesAt, hji]
  | _ => rfl

theorem step_conn {ce : ConnEvent} (hi : (s.connections i).inUse = true) (he : e.at s i = some ce)
    (hs : step env s e = some (s', out)) :
    ∃ o, connStep arch env i (s.connections i) ce = some (s'.connections i, o) ∧ e.bytesAt i out = o.bytes := by
  cases e with
  | handleTcp srcIp data =>
    obtain ⟨r, hr, hs⟩ := Option.map_eq_some_iff.1 hs
    cases hs
    unfold handleTcp at hr
    simp only [Event.at] at he
    split at he
    · cases he
    rename_i h hparse
    rw [hparse] at hr
    split at he
    · rename_i hfind
      cases he
      simp only [hfind] at hr
      obtain ⟨q, hq, hr⟩ := Option.bind_eq_some_iff.1 hr
      cases hr
      exact ⟨{ effects := perform arch q.2 }, by simp [connStep, hq], rfl⟩
    · cases he
  | sendData j data =>
    obtain ⟨rfl, rfl⟩ := eq_of_at_some he
    obtain ⟨r, hr, hs⟩ := Option.map_eq_some_iff.1 hs
    cases hs
    unfold sendData at hr
    rw [if_pos hi] at hr
    obtain ⟨q, hq, hr⟩ := Option.bind_eq_some_iff.1 hr
    cases hr
    exact ⟨{ ret := q.1, effects := q.2.2 }, by simp [connStep, hq], rfl⟩
  | recvData j len =>
    obtain ⟨rfl, rfl⟩ := eq_of_at_some he
    cases hs
    refine ⟨_, by simp only [connStep, recvData, if_pos hi, set_self]; rfl, ?_⟩
    simp [Event.bytesAt, recvData, hi]
  | tcpTimerPoll =>
    cases he
    cases hs
    exact ⟨_, rfl, rfl⟩
  | allocConnection => cases he
  | connect j dstIp dstPort =>
    obtain ⟨rfl, rfl⟩ := eq_of_at_some he
    cases hs
    exact ⟨_, by simp only [connStep, connect, if_pos hi, set_self]; rfl, rfl⟩
  | close j =>
    obtain ⟨rfl, rfl⟩ := eq_of_at_some he
    cases hs
    exact ⟨_, by simp only [connStep, close, if_pos hi, set_self]; rfl, rfl⟩
  | freeConnection j =>
    obtain ⟨rfl, rfl⟩ := eq_of_at_some he
    cases hs
    exact ⟨_, by simp only [connStep, freeConnection, set_self]; rfl, rfl⟩

end

end Zigix.Tcp
