import Zigix.Net.TcpInput

/-!
# Sockets (`kernel/net/socket.zig`, `kernel/net/socket_syscalls.zig`)

The table of sockets over the table of connections. A TCP socket and an entry of an accept queue name a connection by
its index. What is sent and who is woken is in `TcpInput`; here only the two tables count.

* `Socket` : the record, with the bounds of its counters as fields; `Host` : the two tables;
* `deliverUdp`, `deliverIcmpReply` : what packets put into a socket's buffer;
* `sysSocket`, `sysConnect`, `sysBind`, `sysListen`, `sysAccept`, `sysShutdown`, `socketClose` : the calls;
* `SocketEvent`, `Host.step` : what can happen to the two tables.
-/

namespace Zigix.Net

open Tcp

def SOCK_STREAM : BitVec 16 := 1
def SOCK_DGRAM : BitVec 16 := 2
def SOCK_RAW : BitVec 16 := 3
def IPPROTO_ICMP : BitVec 16 := 1

def maxSockets : Nat := 16
def udpRxBufSize : Nat := 2048
def icmpRxBufSize : Nat := 256
def acceptQueueSize : Nat := 4

structure Socket where
  sockType : BitVec 16
  protocol : BitVec 16
  boundPort : BitVec 16
  remoteIp : BitVec 32
  remotePort : BitVec 16
  tcpConnIdx : Nat
  udpRxBuf : Nat → Byte
  udpRxHead : Nat
  udpRxCount : Nat
  icmpRxBuf : Nat → Byte
  icmpRxLen : Nat
  icmpRxReady : Bool
  icmpSrcIp : BitVec 32
  inUse : Bool
  listening : Bool
  acceptQueue : Nat → Nat
  acceptHead : Nat
  acceptCount : Nat
  udp_le : udpRxCount ≤ udpRxBufSize
  accept_le : acceptCount ≤ acceptQueueSize

def emptySocket : Socket where
  sockType := 0
  protocol := 0
  boundPort := 0
  remoteIp := 0
  remotePort := 0
  tcpConnIdx := 0
  udpRxBuf := fun _ => 0
  udpRxHead := 0
  udpRxCount := 0
  icmpRxBuf := fun _ => 0
  icmpRxLen := 0
  icmpRxReady := false
  icmpSrcIp := 0
  inUse := false
  listening := false
  acceptQueue := fun _ => 0
  acceptHead := 0
  acceptCount := 0
  udp_le := Nat.zero_le _
  accept_le := Nat.zero_le _

abbrev SocketTable := Fin maxSockets → Socket

structure Host where
  sockets : SocketTable
  tcp : Stack .x86

def Host.setSocket (h : Host) (i : Fin maxSockets) (s : Socket) : Host :=
  { h with sockets := Function.update h.sockets i s }

/-! ## Packets for sockets -/

/-- Where byte `j` of a datagram goes. -/
def udpPos (s : Socket) (j : Nat) : Nat := (s.udpRxHead + s.udpRxCount + j) % 2 ^ 16 % udpRxBufSize

def receiveUdp (s : Socket) (data : List Byte) : Socket :=
  let toCopy := min data.length (udpRxBufSize - s.udpRxCount)
  { s with
    udpRxBuf := Ring.store (udpPos s) (fun j => data.getD j 0) toCopy s.udpRxBuf
    udpRxCount := s.udpRxCount + toCopy
    udp_le := by
      have := s.udp_le
      omega }

def deliverUdp (sockets : SocketTable) (dstPort : BitVec 16) (data : List Byte) : SocketTable :=
  match Fin.find? fun i =>
      (sockets i).inUse && (sockets i).sockType == SOCK_DGRAM && (sockets i).boundPort == dstPort with
  | none => sockets
  | some i => Function.update sockets i (receiveUdp (sockets i) data)

def receiveIcmp (s : Socket) (srcIp : BitVec 32) (data : List Byte) : Socket :=
  let toCopy := min data.length icmpRxBufSize
  { s with
    icmpRxBuf := Ring.store id (fun j => data.getD j 0) toCopy s.icmpRxBuf
    icmpRxLen := toCopy, icmpRxReady := true, icmpSrcIp := srcIp }

def deliverIcmpReply (sockets : SocketTable) (srcIp : BitVec 32) (data : List Byte) : SocketTable :=
  match Fin.find? fun i =>
      (sockets i).inUse && (sockets i).sockType == SOCK_RAW && (sockets i).protocol == IPPROTO_ICMP with
  | none => sockets
  | some i => Function.update sockets i (receiveIcmp (sockets i) srcIp data)

/-! ## Connections by index -/

/-- `getConnection`: the slot of an index in use. -/
def Host.conn? (h : Host) (idx : Nat) : Option (Fin (maxTcpConnections .x86)) :=
  if hlt : idx < maxTcpConnections .x86 then
    if (h.tcp.connections ⟨idx, hlt⟩).inUse then some ⟨idx, hlt⟩ else none
  else none

/-- `tcp.freeConnection`. -/
def Host.freeConnection (h : Host) (idx : Nat) : Host :=
  if hlt : idx < maxTcpConnections .x86 then { h with tcp := Tcp.freeConnection h.tcp ⟨idx, hlt⟩ } else h

/-- `tcp.close`. -/
def Host.closeConnection (h : Host) (idx : Nat) : Host :=
  match h.conn? idx with
  | none => h
  | some i => { h with tcp := (Tcp.close h.tcp i).1 }

/-! ## The socket table -/

def findListeningSocket (sockets : SocketTable) (port : BitVec 16) : Option (Fin maxSockets) :=
  Fin.find? fun i => (sockets i).inUse && (sockets i).listening && (sockets i).boundPort == port

def freeSocket (sockets : SocketTable) : Option (Fin maxSockets) := Fin.find? fun i => !(sockets i).inUse

/-- `allocSocket`: a stream socket also takes a connection. -/
def allocSocket (env : Env) (h : Host) (sockType protocol : BitVec 16) : Option (Fin maxSockets) × Host :=
  match freeSocket h.sockets with
  | none => (none, h)
  | some i =>
    let s := { emptySocket with sockType, protocol, inUse := true }
    if sockType = SOCK_STREAM then
      match allocConnection env h.tcp with
      | (some c, tcp) => (some i, { h with tcp }.setSocket i { s with tcpConnIdx := c })
      | (none, tcp) => (none, { h with tcp }.setSocket i { s with inUse := false })
    else (some i, h.setSocket i s)

/-- `allocSocketWithConn`: a socket for a connection that is there already. -/
def allocSocketWithConn (h : Host) (sockType protocol : BitVec 16) (connIdx : Nat) : Option (Fin maxSockets) × Host :=
  match freeSocket h.sockets with
  | none => (none, h)
  | some i =>
    (some i, h.setSocket i { emptySocket with sockType, protocol, tcpConnIdx := connIdx, inUse := true })

def Socket.dequeue (s : Socket) : Socket :=
  { s with
    acceptHead := (s.acceptHead + 1) % acceptQueueSize, acceptCount := s.acceptCount - 1
    accept_le := (Nat.sub_le _ _).trans s.accept_le }

def Socket.firstQueued (s : Socket) : Nat := s.acceptQueue s.acceptHead

def Socket.enqueue (s : Socket) (connIdx : Nat) (hroom : s.acceptCount < acceptQueueSize) : Socket :=
  { s with
    acceptQueue := Function.update s.acceptQueue ((s.acceptHead + s.acceptCount) % acceptQueueSize) connIdx
    acceptCount := s.acceptCount + 1
    accept_le := hroom }

/-- `queueAcceptedConnection`: without a listening socket, or with a full queue, nothing happens. -/
def queueAcceptedConnection (h : Host) (localPort : BitVec 16) (connIdx : Nat) : Host :=
  match findListeningSocket h.sockets localPort with
  | none => h
  | some i =>
    if hroom : (h.sockets i).acceptCount < acceptQueueSize then h.setSocket i ((h.sockets i).enqueue connIdx hroom)
    else h

/-- The loop of `socketClose` over the accept queue. -/
def freeQueued (h : Host) (i : Fin maxSockets) : Nat → Host
  | 0 => h
  | n + 1 =>
    let h := h.freeConnection (h.sockets i).firstQueued
    freeQueued (h.setSocket i (h.sockets i).dequeue) i n

def socketClose (h : Host) (i : Fin maxSockets) : Host :=
  let h :=
    if (h.sockets i).listening then freeQueued h i (h.sockets i).acceptCount
    else if (h.sockets i).sockType = SOCK_STREAM then h.closeConnection (h.sockets i).tcpConnIdx
    else h
  h.setSocket i { h.sockets i with inUse := false }

/-! ## Calls -/

/-- Whether a new socket gets its open file: the pool of descriptions or the process's table can be full. -/
inductive Opened where
  | ok
  | noDescription
  | noDescriptor

def Host.open (h : Host) (i : Fin maxSockets) : Opened → Host
  | .noDescriptor => socketClose h i
  | _ => h

def sysSocket (env : Env) (h : Host) (sockType protocol : BitVec 16) (opened : Opened) : Host :=
  if sockType ≠ SOCK_STREAM ∧ sockType ≠ SOCK_DGRAM ∧ sockType ≠ SOCK_RAW then h
  else
    match allocSocket env h sockType protocol with
    | (none, h) => h
    | (some i, h) => h.open i opened

/-- `sysConnect`; the process that waits is in the connection. -/
def sysConnect (env : Env) (h : Host) (i : Fin maxSockets) (ip : BitVec 32) (port : BitVec 16) (pid : Nat) : Host :=
  let sock := h.sockets i
  if sock.inUse = false then h
  else if sock.sockType = SOCK_STREAM then
    match h.conn? sock.tcpConnIdx with
    | none => h
    | some c =>
      if (h.tcp.connections c).state = .established then
        h.setSocket i { sock with remoteIp := ip, remotePort := port }
      else if (h.tcp.connections c).state = .closed ∧ sock.remoteIp ≠ 0 then h
      else
        let tcp := if (h.tcp.connections c).state ≠ .synSent then (Tcp.connect env h.tcp c ip port).1 else h.tcp
        { h with tcp := tcp.set c { tcp.connections c with waitingPid := pid } }
  else if sock.sockType = SOCK_DGRAM then h.setSocket i { sock with remoteIp := ip, remotePort := port }
  else h.setSocket i { sock with remoteIp := ip }

def sysBind (h : Host) (i : Fin maxSockets) (port : BitVec 16) : Host :=
  if (h.sockets i).inUse then h.setSocket i { h.sockets i with boundPort := port } else h

/-- A listening socket gives its connection up; it names the slot behind the last one instead. -/
def sysListen (h : Host) (i : Fin maxSockets) : Host :=
  let sock := h.sockets i
  if sock.inUse = false ∨ sock.sockType ≠ SOCK_STREAM ∨ sock.boundPort = 0 then h
  else
    (h.freeConnection sock.tcpConnIdx).setSocket i
      { sock with tcpConnIdx := maxTcpConnections .x86, listening := true }

/-- An empty queue makes the process wait and try again. -/
def sysAccept (h : Host) (i : Fin maxSockets) (opened : Opened) : Host :=
  let sock := h.sockets i
  if sock.inUse = false ∨ sock.listening = false ∨ sock.acceptCount = 0 then h
  else
    let connIdx := sock.firstQueued
    let h := h.setSocket i sock.dequeue
    match h.conn? connIdx with
    | none => h
    | some c =>
      match allocSocketWithConn h SOCK_STREAM 0 connIdx with
      | (none, h) => h
      | (some j, h) =>
        let conn := h.tcp.connections c
        let h := h.setSocket j
          { h.sockets j with remoteIp := conn.remoteIp, remotePort := conn.remotePort, boundPort := conn.localPort }
        h.open j opened

def sysShutdown (h : Host) (i : Fin maxSockets) : Host :=
  let sock := h.sockets i
  if sock.inUse ∧ sock.sockType = SOCK_STREAM then h.closeConnection sock.tcpConnIdx else h

/-! ## Reading and writing -/

/-- Clear the datagram bytes that were read. -/
def Socket.readUdp (s : Socket) (toCopy : Nat) : Socket :=
  { s with
    udpRxHead := (s.udpRxHead + toCopy) % 2 ^ 16 % udpRxBufSize, udpRxCount := s.udpRxCount - toCopy
    udp_le := (Nat.sub_le _ _).trans s.udp_le }

def socketRead (h : Host) (i : Fin maxSockets) (count pid : Nat) : Int × List Byte × Host :=
  let sock := h.sockets i
  if sock.sockType = SOCK_STREAM then
    match h.conn? sock.tcpConnIdx with
    | none => (-1, [], h)
    | some c =>
      let r := recvConn (h.tcp.connections c) count
      let conn := if r.1 = -11 then { r.2.2 with waitingPid := pid } else r.2.2
      (r.1, r.2.1, { h with tcp := h.tcp.set c conn })
  else if sock.sockType = SOCK_DGRAM then
    if sock.udpRxCount = 0 then (-11, [], h)
    else
      let toCopy := min count sock.udpRxCount
      (toCopy, (List.range toCopy).map fun j => sock.udpRxBuf ((sock.udpRxHead + j) % 2 ^ 16 % udpRxBufSize),
        h.setSocket i (sock.readUdp toCopy))
  else if sock.sockType = SOCK_RAW ∧ sock.protocol = IPPROTO_ICMP then
    if sock.icmpRxReady = false then (-11, [], h)
    else
      let toCopy := min count sock.icmpRxLen
      (toCopy, (List.range toCopy).map sock.icmpRxBuf, h.setSocket i { sock with icmpRxReady := false })
  else (0, [], h)

/-- `sent` is what `udp.send` answers. -/
def socketWrite (env : Env) (h : Host) (i : Fin maxSockets) (data : List Byte) (sent : Bool) : Option (Int × Host) :=
  let sock := h.sockets i
  if sock.sockType = SOCK_STREAM then
    match h.conn? sock.tcpConnIdx with
    | none => some (-1, h)
    | some c => (sendConn env (h.tcp.connections c) data).map fun r => (r.1, { h with tcp := h.tcp.set c r.2.1 })
  else if sock.sockType = SOCK_DGRAM then
    if sock.remoteIp = 0 then some (-107, h) else some (if sent then data.length else -5, h)
  else some (0, h)

/-! ## Segments -/

def Host.env (h : Host) (env : Env) : Env :=
  { env with listening := fun port => (findListeningSocket h.sockets port).isSome }

/-- The calls a segment makes into the socket layer. -/
def Host.perform (h : Host) : List Effect → Host
  | [] => h
  | .queueAcceptedConnection port idx :: effects => Host.perform (queueAcceptedConnection h port idx) effects
  | _ :: effects => Host.perform h effects

/-- An incoming segment: `none` is a counter of the connection that overflows. -/
def Host.handleTcp (env : Env) (h : Host) (srcIp : BitVec 32) (data : List Byte) : Option Host :=
  (Tcp.handleTcp (h.env env) h.tcp srcIp data).map fun r => Host.perform { h with tcp := r.1 } r.2

/-! ## Steps -/

/-- What can happen to the two tables. The calls on a socket come through a descriptor of it. -/
inductive SocketEvent where
  | socket (sockType protocol : BitVec 16) (opened : Opened)
  | connect (i : Fin maxSockets) (ip : BitVec 32) (port : BitVec 16) (pid : Nat)
  | bind (i : Fin maxSockets) (port : BitVec 16)
  | listen (i : Fin maxSockets)
  | accept (i : Fin maxSockets) (opened : Opened)
  | shutdown (i : Fin maxSockets)
  | close (i : Fin maxSockets)
  | read (i : Fin maxSockets) (count pid : Nat)
  | write (i : Fin maxSockets) (data : List Byte) (sent : Bool)
  | segment (srcIp : BitVec 32) (data : List Byte)
  | datagram (dstPort : BitVec 16) (data : List Byte)
  | icmpReply (srcIp : BitVec 32) (data : List Byte)
  | timerPoll

/-- `none`: a counter of a connection overflows, or the descriptor that the call came through is closed already. -/
def Host.step (env : Env) (h : Host) : SocketEvent → Option Host
  | .socket sockType protocol opened => some (sysSocket env h sockType protocol opened)
  | .connect i ip port pid => some (sysConnect env h i ip port pid)
  | .bind i port => some (sysBind h i port)
  | .listen i => some (sysListen h i)
  | .accept i opened => some (sysAccept h i opened)
  | .shutdown i => some (sysShutdown h i)
  | .close i => if (h.sockets i).inUse then some (socketClose h i) else none
  | .read i count pid => if (h.sockets i).inUse then some (socketRead h i count pid).2.2 else none
  | .write i data sent => if (h.sockets i).inUse then (socketWrite env h i data sent).map (·.2) else none
  | .segment srcIp data => h.handleTcp env srcIp data
  | .datagram dstPort data => some { h with sockets := deliverUdp h.sockets dstPort data }
  | .icmpReply srcIp data => some { h with sockets := deliverIcmpReply h.sockets srcIp data }
  | .timerPoll => some { h with tcp := (tcpTimerPoll env h.tcp).1 }

def Host.boot : Host where
  sockets := fun _ => emptySocket
  tcp := { connections := fun _ => emptyConn, nextEphemeralPort := 49152 }

end Zigix.Net
