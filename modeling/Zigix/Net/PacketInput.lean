import Mathlib.Algebra.Group.Nat.Defs
import Mathlib.Data.List.GetD
import Mathlib.Tactic.Common

/-!
# Packets from the network (`ipv4.zig`, `udp.zig`, `icmp.zig`, `arp.zig`, `dhcp.zig`, the header in `tcp.zig`)

Every read of a packet is checked: `none` is a read outside it, a slice that ends before it begins, or an overflow.

* `parse`, `handleUdp`, `handleTcp`, `handleIcmp`, `handleIpv4`, `handleArp` : packets in Ethernet frames;
* `Ipv4Fits`, `UdpFits`, `TcpFits`, `OfferFits` : the lengths of a packet are consistent with each other and with the frame;
* `parse_cases`, `optionLoop_eq` : what the checks let through;
* `handleIpv4_iff`, `handleArp_safe`, `parseOffer_iff` : when nothing is read outside and inconsistent packets are dropped;
* `network_input_iff` : all of them; `long_header` : a frame that is shorter than its IP header.
-/

namespace Zigix.PacketInput

abbrev Byte := BitVec 8

/-! ## Checked reads -/

/-- `data[a..b]`. -/
def slice (data : List Byte) (a b : Nat) : Option (List Byte) :=
  if a ≤ b ∧ b ≤ data.length then some ((data.drop a).take (b - a)) else none

/-- `data[i]`. -/
def readU8 (data : List Byte) (i : Nat) : Option Nat := data[i]?.map BitVec.toNat

def getU16BE (buf : List Byte) : Option Nat := do
  let hi ← readU8 buf 0
  let lo ← readU8 buf 1
  return hi * 256 + lo

def getU32BE (buf : List Byte) : Option Nat := do
  let b0 ← readU8 buf 0
  let b1 ← readU8 buf 1
  let b2 ← readU8 buf 2
  let b3 ← readU8 buf 3
  return b0 * 2 ^ 24 + b1 * 2 ^ 16 + b2 * 2 ^ 8 + b3

/-- `getU16BE(data[i..i + 2])`. -/
def readU16 (data : List Byte) (i : Nat) : Option Nat := (slice data i (i + 2)).bind getU16BE

def readU32 (data : List Byte) (i : Nat) : Option Nat := (slice data i (i + 4)).bind getU32BE

/-! ## `checksum.zig` -/

def wordSum : List Byte → Nat
  | [] => 0
  | [b] => b.toNat * 256
  | a :: b :: rest => a.toNat * 256 + b.toNat + wordSum rest

def foldSum (sum : Nat) : Nat := if sum / 65536 = 0 then sum else foldSum (sum % 65536 + sum / 65536)
termination_by sum
decreasing_by omega

def internetChecksum (data : List Byte) : Nat := 65535 - foldSum (wordSum data) % 65536

/-! ## IPv4 and what it carries -/

def ipHeaderSize : Nat := 20
def protoIcmp : Nat := 1
def protoTcp : Nat := 6
def protoUdp : Nat := 17

structure Parsed where
  srcIp : Nat
  dstIp : Nat
  proto : Nat
  ttl : Nat
  payload : List Byte

/-- `some none` : the packet is dropped. -/
def parse (data : List Byte) : Option (Option Parsed) :=
  if data.length < ipHeaderSize then some none
  else do
    let b0 ← readU8 data 0
    if b0 / 16 ≠ 4 ∨ b0 % 16 < 5 then return none
    let headerLen := b0 % 16 * 4
    let totalLen ← readU16 data 2
    if data.length < totalLen then return none
    let header ← slice data 0 headerLen
    if internetChecksum header ≠ 0 then return none
    let proto ← readU8 data 9
    let ttl ← readU8 data 8
    let srcIp ← readU32 data 12
    let dstIp ← readU32 data 16
    let payload ← slice data headerLen totalLen
    return some ⟨srcIp, dstIp, proto, ttl, payload⟩

inductive Handled
  | dropped
  | udp (dstPort srcPort : Nat) (payload : List Byte)
  | tcp (srcPort dstPort seqNum ackNum flags peerWin : Nat) (payload : List Byte)
  | reply (data : List Byte)
  | replied (seq : Nat) (data : List Byte)

def udpHeaderSize : Nat := 8

def handleUdp (data : List Byte) : Option Handled :=
  if data.length < udpHeaderSize then some .dropped
  else do
    let srcPort ← readU16 data 0
    let dstPort ← readU16 data 2
    let udpLen ← readU16 data 4
    if udpLen < udpHeaderSize then return .dropped
    let payloadLen := udpLen - udpHeaderSize
    if data.length < udpHeaderSize + payloadLen then return .dropped
    let payload ← slice data udpHeaderSize (udpHeaderSize + payloadLen)
    return .udp dstPort srcPort payload

def tcpHeaderSize : Nat := 20

/-- The fields of a segment, which the state machine works on. -/
def handleTcp (data : List Byte) : Option Handled :=
  if data.length < tcpHeaderSize then some .dropped
  else do
    let srcPort ← readU16 data 0
    let dstPort ← readU16 data 2
    let seqNum ← readU32 data 4
    let ackNum ← readU32 data 8
    let dataOffset := (← readU8 data 12) / 16 * 4
    let flags ← readU8 data 13
    if dataOffset > data.length then return .dropped
    let payload ← slice data dataOffset data.length
    let peerWin ← readU16 data 14
    return .tcp srcPort dstPort seqNum ackNum flags peerWin payload

def icmpHeaderSize : Nat := 8
def replySize : Nat := 128
def icmpRxBufSize : Nat := 256

def sendEchoReply (request : List Byte) : Option Handled :=
  let reply := ((request.take replySize).set 0 0).set 2 0 |>.set 3 0
  let cksum := internetChecksum reply
  some (.reply ((reply.set 2 (.ofNat 8 (cksum / 256))).set 3 (.ofNat 8 cksum)))

def handleIcmp (data : List Byte) : Option Handled :=
  if data.length < icmpHeaderSize then some .dropped
  else do
    let icmpType ← readU8 data 0
    if icmpType = 8 then sendEchoReply data
    else if icmpType = 0 then
      let seq ← readU16 data 6
      return .replied seq (data.take icmpRxBufSize)
    else return .dropped

def dispatch (ourIp : Nat) (p : Parsed) : Option Handled :=
  if p.dstIp ≠ ourIp ∧ p.dstIp ≠ 0xFFFFFFFF then some .dropped
  else if p.proto = protoIcmp then handleIcmp p.payload
  else if p.proto = protoUdp then handleUdp p.payload
  else if p.proto = protoTcp then handleTcp p.payload
  else some .dropped

def handleIpv4 (ourIp : Nat) (data : List Byte) : Option Handled :=
  match parse data with
  | none => none
  | some none => some .dropped
  | some (some p) => dispatch ourIp p

/-! ## ARP -/

def arpPktSize : Nat := 28

structure ArpSeen where
  sha : List Byte
  spa : Nat
  answer : Bool

def handleArp (ourIp : Nat) (data : List Byte) : Option (Option ArpSeen) :=
  if data.length < arpPktSize then some none
  else do
    let htype ← readU16 data 0
    let ptype ← readU16 data 2
    let hlen ← readU8 data 4
    let plen ← readU8 data 5
    let oper ← readU16 data 6
    if htype ≠ 1 ∨ ptype ≠ 0x0800 ∨ hlen ≠ 6 ∨ plen ≠ 4 then return none
    let sha ← slice data 8 14
    let spa ← readU32 data 14
    let tpa ← readU32 data 24
    return some ⟨sha, spa, oper = 1 ∧ tpa = ourIp⟩

/-! ## DHCP -/

def dhcpServerPort : Nat := 67
def dhcpClientPort : Nat := 68
def dhcpOpReply : Nat := 2
def dhcpMagic : Nat := 0x63825363
def xid : Nat := 0x5A494749

structure DhcpResult where
  ourIp : Nat
  gatewayIp : Nat
  subnetMask : Nat
  dnsIp : Nat

/-- The result so far, and whether an option says that this is an offer. -/
structure Offer where
  result : DhcpResult
  isOffer : Bool

def takeOption (o : Offer) (optType : Nat) (optData : List Byte) : Option Offer :=
  if optType = 53 then do
    if 1 ≤ optData.length then
      if (← readU8 optData 0) = 2 then return { o with isOffer := true }
    return o
  else if optType = 1 then do
    if 4 ≤ optData.length then return { o with result := { o.result with subnetMask := ← readU32 optData 0 } }
    return o
  else if optType = 3 then do
    if 4 ≤ optData.length then return { o with result := { o.result with gatewayIp := ← readU32 optData 0 } }
    return o
  else if optType = 6 then do
    if 4 ≤ optData.length then return { o with result := { o.result with dnsIp := ← readU32 optData 0 } }
    return o
  else some o

/-- The loop over the options; `2 + opt_len` is a sum of bytes. -/
def optionLoop (data : List Byte) : Nat → Nat → Offer → Option Offer
  | 0, _, o => some o
  | fuel + 1, i, o =>
    if i < data.length then do
      let optType ← readU8 data i
      if optType = 255 then return o
      if optType = 0 then optionLoop data fuel (i + 1) o
      else if data.length ≤ i + 1 then return o
      else
        let optLen ← readU8 data (i + 1)
        if data.length < i + 2 + optLen then return o
        let o ← takeOption o optType (← slice data (i + 2) (i + 2 + optLen))
        if 256 ≤ 2 + optLen then none
        else optionLoop data fuel (i + (2 + optLen)) o
    else some o

/-- `parseOffer` from the message in the datagram on. -/
def parseMessage (data : List Byte) (dhcpOff : Nat) : Option (Option DhcpResult) :=
  if data.length < dhcpOff + 240 then some none
  else do
    if (← readU8 data dhcpOff) ≠ dhcpOpReply then return none
    if (← readU32 data (dhcpOff + 4)) ≠ xid then return none
    let yiaddr ← readU32 data (dhcpOff + 16)
    if (← readU32 data (dhcpOff + 236)) ≠ dhcpMagic then return none
    let o ← optionLoop data data.length (dhcpOff + 240) ⟨⟨yiaddr, 0, 0xFFFFFF00, 0⟩, false⟩
    return if o.isOffer then some o.result else none

/-- `parseOffer` from the datagram on. -/
def parseDatagram (data : List Byte) (udpOff : Nat) : Option (Option DhcpResult) :=
  if data.length < udpOff + 8 then some none
  else do
    let srcPort := (← readU8 data udpOff) * 256 + (← readU8 data (udpOff + 1))
    let dstPort := (← readU8 data (udpOff + 2)) * 256 + (← readU8 data (udpOff + 3))
    if srcPort ≠ dhcpServerPort ∨ dstPort ≠ dhcpClientPort then return none
    parseMessage data (udpOff + 8)

/-- A frame, with its Ethernet header. -/
def parseOffer (data : List Byte) : Option (Option DhcpResult) :=
  if data.length < 286 then some none
  else do
    if (← readU8 data 12) * 256 + (← readU8 data 13) ≠ 0x0800 then return none
    let b0 ← readU8 data 14
    if b0 / 16 ≠ 4 then return none
    let ihl := b0 % 16 * 4
    if (← readU8 data 23) ≠ 17 then return none
    parseDatagram data (14 + ihl)

/-! ## What the reads give -/

section
variable {data : List Byte} {i a b ourIp : Nat}

def u8 (data : List Byte) (i : Nat) : Nat := (data.getD i 0).toNat

def u16 (data : List Byte) (i : Nat) : Nat := u8 data i * 256 + u8 data (i + 1)

def u32 (data : List Byte) (i : Nat) : Nat :=
  u8 data i * 2 ^ 24 + u8 data (i + 1) * 2 ^ 16 + u8 data (i + 2) * 2 ^ 8 + u8 data (i + 3)

theorem slice_eq (h : a ≤ b) (hb : b ≤ data.length) : slice data a b = some ((data.drop a).take (b - a)) := if_pos ⟨h, hb⟩

theorem slice_none (h : ¬ (a ≤ b ∧ b ≤ data.length)) : slice data a b = none := if_neg h

theorem readU8_eq (h : i < data.length) : readU8 data i = some (u8 data i) := by
  unfold readU8 u8
  rw [List.getElem?_eq_getElem h, Option.map_some, List.getD_eq_getElem _ _ h]

theorem u8_slice {n k : Nat} (hk : k < n) : u8 ((data.drop i).take n) k = u8 data (i + k) := by
  unfold u8
  rw [List.getD_eq_getElem?_getD, List.getD_eq_getElem?_getD, List.getElem?_take_of_lt hk, List.getElem?_drop]

theorem readU8_slice {n k : Nat} (hk : k < n) (h : i + n ≤ data.length) :
    readU8 ((data.drop i).take n) k = some (u8 data (i + k)) := by
  rw [readU8_eq (by rw [List.length_take, List.length_drop]; omega), u8_slice hk]

theorem readU16_eq (h : i + 2 ≤ data.length) : readU16 data i = some (u16 data i) := by
  unfold readU16
  rw [slice_eq (Nat.le_add_right ..) h, Option.bind_some, Nat.add_sub_cancel_left]
  unfold getU16BE
  rw [readU8_slice (by decide) h, readU8_slice (by decide) h]
  rfl

theorem readU32_eq (h : i + 4 ≤ data.length) : readU32 data i = some (u32 data i) := by
  unfold readU32
  rw [slice_eq (Nat.le_add_right ..) h, Option.bind_some, Nat.add_sub_cancel_left]
  unfold getU32BE
  rw [readU8_slice (by decide) h, readU8_slice (by decide) h, readU8_slice (by decide) h, readU8_slice (by decide) h]
  rfl

/-! ## IPv4 -/

def headerLen (data : List Byte) : Nat := u8 data 0 % 16 * 4

def totalLen (data : List Byte) : Nat := u16 data 2

def ipPayload (data : List Byte) : List Byte := (data.drop (headerLen data)).take (totalLen data - headerLen data)

def Ipv4Fits (data : List Byte) : Prop :=
  ipHeaderSize ≤ data.length ∧ 20 ≤ headerLen data ∧ headerLen data ≤ totalLen data ∧ totalLen data ≤ data.length

def UdpFits (data : List Byte) : Prop := udpHeaderSize ≤ data.length ∧ udpHeaderSize ≤ u16 data 4 ∧ u16 data 4 ≤ data.length

def dataOffset (data : List Byte) : Nat := u8 data 12 / 16 * 4

def TcpFits (data : List Byte) : Prop :=
  tcpHeaderSize ≤ data.length ∧ tcpHeaderSize ≤ dataOffset data ∧ dataOffset data ≤ data.length

/-- The checks of `parse` before it takes the header. -/
def Reaches (data : List Byte) : Prop :=
  ipHeaderSize ≤ data.length ∧ u8 data 0 / 16 = 4 ∧ 5 ≤ u8 data 0 % 16 ∧ totalLen data ≤ data.length

instance : Decidable (Reaches data) := inferInstanceAs (Decidable (_ ∧ _ ∧ _ ∧ _))

theorem parse_of_not (h : ¬ Reaches data) : parse data = some none := by
  unfold parse
  split
  · rfl
  · next hlen =>
    unfold ipHeaderSize at hlen
    rw [readU8_eq (by omega), readU16_eq (by omega)]
    dsimp only [Option.bind_eq_bind, Option.bind_some]
    split
    · rfl
    · next hversion =>
      split
      · rfl
      · next htotal =>
        refine absurd ⟨?_, ?_, ?_, ?_⟩ h
        · unfold ipHeaderSize
          omega
        · omega
        · omega
        · unfold totalLen
          omega

theorem parse_of_reaches (h : Reaches data) :
    parse data =
      if data.length < headerLen data then none
      else if internetChecksum (data.take (headerLen data)) ≠ 0 then some none
      else if totalLen data < headerLen data then none
      else some (some ⟨u32 data 12, u32 data 16, u8 data 9, u8 data 8, ipPayload data⟩) := by
  obtain ⟨hlen, hversion, hihl, htotal⟩ := h
  unfold ipHeaderSize at hlen
  unfold parse
  rw [if_neg (by unfold ipHeaderSize; omega), readU8_eq (by omega), readU16_eq (by omega), readU8_eq (show 9 < data.length by omega),
    readU8_eq (show 8 < data.length by omega), readU32_eq (by omega), readU32_eq (by omega)]
  dsimp only [Option.bind_eq_bind, Option.bind_some]
  rw [if_neg (by omega), if_neg (show ¬ data.length < u16 data 2 from Nat.not_lt.2 htotal)]
  have hheader : u8 data 0 % 16 * 4 = headerLen data := rfl
  have htotal' : u16 data 2 = totalLen data := rfl
  rw [hheader, htotal']
  by_cases hlong : data.length < headerLen data
  · rw [if_pos hlong, slice_none (by omega)]
    rfl
  · rw [if_neg hlong, slice_eq (Nat.zero_le _) (by omega), List.drop_zero, Nat.sub_zero, Option.bind_some]
    split
    · rfl
    · by_cases hshort : totalLen data < headerLen data
      · rw [if_pos hshort, slice_none (by omega)]
        rfl
      · rw [if_neg hshort, slice_eq (by omega) htotal]
        rfl

/-! ## What IPv4 carries -/

theorem handleUdp_eq (data : List Byte) :
    (handleUdp data = some .dropped ∧ ¬ UdpFits data) ∨
      handleUdp data = some (.udp (u16 data 2) (u16 data 0) ((data.drop 8).take (u16 data 4 - 8))) ∧ UdpFits data := by
  unfold handleUdp UdpFits udpHeaderSize
  split
  · next hlen => exact .inl ⟨rfl, fun h => absurd h.1 (by omega)⟩
  · next hlen =>
    rw [readU16_eq (by omega), readU16_eq (by omega), readU16_eq (by omega)]
    dsimp only [Option.bind_eq_bind, Option.bind_some]
    split
    · next hshort => exact .inl ⟨rfl, fun h => absurd h.2.1 (by omega)⟩
    · split
      · next hlong => exact .inl ⟨rfl, fun h => absurd h.2.2 (by omega)⟩
      · rw [slice_eq (by omega) (by omega), Nat.add_sub_cancel_left]
        exact .inr ⟨rfl, by omega, by omega, by omega⟩

theorem handleTcp_eq (data : List Byte) :
    (handleTcp data = some .dropped ∧ ¬ (tcpHeaderSize ≤ data.length ∧ dataOffset data ≤ data.length)) ∨
      (∃ r, handleTcp data = some r ∧ r ≠ .dropped) ∧ tcpHeaderSize ≤ data.length ∧ dataOffset data ≤ data.length := by
  unfold handleTcp tcpHeaderSize
  split
  · next hlen => exact .inl ⟨rfl, fun h => absurd h.1 (by omega)⟩
  · next hlen =>
    rw [readU16_eq (by omega), readU16_eq (by omega), readU32_eq (by omega), readU32_eq (by omega), readU8_eq (by omega),
      readU8_eq (by omega), readU16_eq (by omega)]
    dsimp only [Option.bind_eq_bind, Option.bind_some]
    have hoff : u8 data 12 / 16 * 4 = dataOffset data := rfl
    rw [hoff]
    split
    · next hlong => exact .inl ⟨rfl, fun h => absurd h.2 (by omega)⟩
    · next hin =>
      rw [slice_eq (by omega) (Nat.le_refl _)]
      exact .inr ⟨⟨_, rfl, nofun⟩, by omega, by omega⟩

theorem handleIcmp_some (data : List Byte) : ∃ r, handleIcmp data = some r := by
  unfold handleIcmp icmpHeaderSize
  split
  · exact ⟨_, rfl⟩
  · rw [readU8_eq (by omega), readU16_eq (by omega)]
    dsimp only [Option.bind_eq_bind, Option.bind_some]
    split
    · exact ⟨_, rfl⟩
    · split <;> exact ⟨_, rfl⟩

/-- The addresses a packet is taken for. -/
def ForUs (ourIp : Nat) (data : List Byte) : Prop := u32 data 16 = ourIp ∨ u32 data 16 = 0xFFFFFFFF

/-- **Nothing is read outside the frame**, and what is not dropped has consistent lengths. -/
def Ipv4Safe (ourIp : Nat) (data : List Byte) : Prop :=
  ∃ r, handleIpv4 ourIp data = some r ∧ (r ≠ .dropped → Ipv4Fits data ∧
    (u8 data 9 = protoUdp → UdpFits (ipPayload data)) ∧ (u8 data 9 = protoTcp → TcpFits (ipPayload data)))

def Ipv4Careful (ourIp : Nat) (data : List Byte) : Prop :=
  Reaches data → headerLen data ≤ data.length ∧
    (internetChecksum (data.take (headerLen data)) = 0 → headerLen data ≤ totalLen data ∧
      (ForUs ourIp data → u8 data 9 = protoTcp → tcpHeaderSize ≤ (ipPayload data).length →
        dataOffset (ipPayload data) ≤ (ipPayload data).length → tcpHeaderSize ≤ dataOffset (ipPayload data)))

theorem handleIpv4_iff (ourIp : Nat) (data : List Byte) : Ipv4Safe ourIp data ↔ Ipv4Careful ourIp data := by
  unfold Ipv4Safe Ipv4Careful handleIpv4
  by_cases hreach : Reaches data
  swap
  · rw [parse_of_not hreach]
    exact iff_of_true ⟨.dropped, rfl, fun h => absurd rfl h⟩ fun h => absurd h hreach
  rw [parse_of_reaches hreach]
  by_cases hlong : data.length < headerLen data
  · rw [if_pos hlong]
    exact iff_of_false (fun ⟨r, hr, _⟩ => by cases hr) fun h => absurd (h hreach).1 (by omega)
  rw [if_neg hlong]
  by_cases hsum : internetChecksum (data.take (headerLen data)) ≠ 0
  · rw [if_pos hsum]
    exact iff_of_true ⟨.dropped, rfl, fun h => absurd rfl h⟩ fun _ => ⟨by omega, fun h => absurd h hsum⟩
  rw [if_neg hsum]
  rw [ne_eq, not_not] at hsum
  by_cases hshort : totalLen data < headerLen data
  · rw [if_pos hshort]
    exact iff_of_false (fun ⟨r, hr, _⟩ => by cases hr) fun h => absurd ((h hreach).2 hsum).1 (by omega)
  rw [if_neg hshort]
  unfold dispatch
  dsimp only
  have hfits : Ipv4Fits data := ⟨hreach.1, by have := hreach.2.2.1; unfold headerLen; omega, by omega, hreach.2.2.2⟩
  have hrest : (Reaches data → headerLen data ≤ data.length ∧
      (internetChecksum (data.take (headerLen data)) = 0 → headerLen data ≤ totalLen data ∧
        (ForUs ourIp data → u8 data 9 = protoTcp → tcpHeaderSize ≤ (ipPayload data).length →
          dataOffset (ipPayload data) ≤ (ipPayload data).length → tcpHeaderSize ≤ dataOffset (ipPayload data)))) ↔
      (ForUs ourIp data → u8 data 9 = protoTcp → tcpHeaderSize ≤ (ipPayload data).length →
          dataOffset (ipPayload data) ≤ (ipPayload data).length → tcpHeaderSize ≤ dataOffset (ipPayload data)) :=
    ⟨fun h => ((h hreach).2 hsum).2, fun h _ => ⟨by omega, fun _ => ⟨by omega, h⟩⟩⟩
  rw [hrest]
  by_cases hus : ForUs ourIp data
  swap
  · unfold ForUs at hus
    rw [if_pos (by omega)]
    exact iff_of_true ⟨.dropped, rfl, fun h => absurd rfl h⟩ fun h => absurd h hus
  rw [if_neg (by unfold ForUs at hus; omega)]
  by_cases hicmp : u8 data 9 = protoIcmp
  · rw [if_pos hicmp, hicmp]
    obtain ⟨r, hr⟩ := handleIcmp_some (ipPayload data)
    exact iff_of_true ⟨r, hr, fun _ => ⟨hfits, (absurd · (by decide)), (absurd · (by decide))⟩⟩ fun _ h => absurd h (by decide)
  rw [if_neg hicmp]
  by_cases hudp : u8 data 9 = protoUdp
  · rw [if_pos hudp, hudp]
    rcases handleUdp_eq (ipPayload data) with ⟨hr, -⟩ | ⟨hr, hok⟩
    · exact iff_of_true ⟨_, hr, fun h => absurd rfl h⟩ fun _ h => absurd h (by decide)
    · exact iff_of_true ⟨_, hr, fun _ => ⟨hfits, fun _ => hok, (absurd · (by decide))⟩⟩ fun _ h => absurd h (by decide)
  rw [if_neg hudp]
  by_cases htcp : u8 data 9 = protoTcp
  swap
  · rw [if_neg htcp]
    exact iff_of_true ⟨.dropped, rfl, fun h => absurd rfl h⟩ fun _ h => absurd h htcp
  rw [if_pos htcp]
  rcases handleTcp_eq (ipPayload data) with ⟨hr, hnot⟩ | ⟨⟨r, hr, hkept⟩, hlen, hoff⟩
  · exact iff_of_true ⟨_, hr, fun h => absurd rfl h⟩ fun _ _ h h' => absurd ⟨h, h'⟩ hnot
  · constructor
    · rintro ⟨r', hr', hsafe⟩ - - - -
      rw [hr] at hr'
      obtain rfl := Option.some.inj hr'
      exact ((hsafe hkept).2.2 htcp).2.1
    · intro h
      refine ⟨r, hr, fun _ => ⟨hfits, fun h' => absurd h' hudp, fun _ => ⟨hlen, h hus htcp hlen hoff, hoff⟩⟩⟩

/-! ## ARP -/

theorem handleArp_safe (ourIp : Nat) (data : List Byte) : ∃ r, handleArp ourIp data = some r := by
  unfold handleArp arpPktSize
  split
  · exact ⟨_, rfl⟩
  · rw [readU16_eq (by omega), readU16_eq (by omega), readU16_eq (by omega), readU8_eq (by omega), readU8_eq (by omega),
      slice_eq (by omega) (by omega), readU32_eq (by omega), readU32_eq (by omega)]
    dsimp only [Option.bind_eq_bind, Option.bind_some]
    split <;> exact ⟨_, rfl⟩

/-! ## DHCP -/

structure DhcpOption where
  pos : Nat
  optType : Nat
  optLen : Nat

/-- The options from `i` to the end mark, the end of the frame or the first one that does not fit, and whether all fit. -/
def optionsFrom (data : List Byte) : Nat → Nat → List DhcpOption × Bool
  | 0, _ => ([], true)
  | fuel + 1, i =>
    if i < data.length then
      if u8 data i = 255 then ([], true)
      else if u8 data i = 0 then optionsFrom data fuel (i + 1)
      else if data.length ≤ i + 1 ∨ data.length < i + 2 + u8 data (i + 1) then ([], false)
      else
        let rest := optionsFrom data fuel (i + (2 + u8 data (i + 1)))
        (⟨i, u8 data i, u8 data (i + 1)⟩ :: rest.1, rest.2)
    else ([], true)

def DhcpOption.IsOffer (data : List Byte) (o : DhcpOption) : Prop := o.optType = 53 ∧ 1 ≤ o.optLen ∧ u8 data (o.pos + 2) = 2

theorem takeOption_some (o : Offer) (optType : Nat) (d : List Byte) :
    ∃ o', takeOption o optType d = some o' ∧
      (o'.isOffer = true ↔ o.isOffer = true ∨ optType = 53 ∧ 1 ≤ d.length ∧ u8 d 0 = 2) := by
  unfold takeOption
  split
  · next htype =>
    split
    · next hlen =>
      rw [readU8_eq (by omega)]
      dsimp only [Option.bind_eq_bind, Option.bind_some]
      split
      · next htwo => exact ⟨_, rfl, iff_of_true rfl (.inr ⟨htype, hlen, htwo⟩)⟩
      · next htwo => exact ⟨_, rfl, ⟨.inl, fun h => h.resolve_right fun h => htwo h.2.2⟩⟩
    · next hlen => exact ⟨_, rfl, ⟨.inl, fun h => h.resolve_right fun h => hlen h.2.1⟩⟩
  · next htype =>
    have hother : ∀ b : Bool, (b = true ↔ b = true ∨ optType = 53 ∧ 1 ≤ d.length ∧ u8 d 0 = 2) :=
      fun b => ⟨.inl, fun h => h.resolve_right fun h => htype h.1⟩
    split
    · split
      · rw [readU32_eq (by omega)]
        exact ⟨_, rfl, hother _⟩
      · exact ⟨_, rfl, hother _⟩
    · split
      · split
        · rw [readU32_eq (by omega)]
          exact ⟨_, rfl, hother _⟩
        · exact ⟨_, rfl, hother _⟩
      · split
        · split
          · rw [readU32_eq (by omega)]
            exact ⟨_, rfl, hother _⟩
          · exact ⟨_, rfl, hother _⟩
        · exact ⟨_, rfl, hother _⟩

/-- **The loop over the options** stops at one of 254 bytes or more; else it finds an offer if one of them is. -/
theorem optionLoop_eq (data : List Byte) (fuel i : Nat) (o : Offer) :
    ((∃ p ∈ (optionsFrom data fuel i).1, 254 ≤ p.optLen) ∧ optionLoop data fuel i o = none) ∨
      (∀ p ∈ (optionsFrom data fuel i).1, p.optLen < 254) ∧ ∃ o', optionLoop data fuel i o = some o' ∧
        (o'.isOffer = true ↔ o.isOffer = true ∨ ∃ p ∈ (optionsFrom data fuel i).1, p.IsOffer data) := by
  have hnone : ∀ b : Bool, (b = true ↔ b = true ∨ ∃ p ∈ ([] : List DhcpOption), p.IsOffer data) :=
    fun b => ⟨.inl, fun h => h.resolve_right fun ⟨p, hp, _⟩ => by cases hp⟩
  induction fuel generalizing i o with
  | zero => exact .inr ⟨nofun, o, rfl, hnone _⟩
  | succ fuel ih =>
    unfold optionLoop optionsFrom
    by_cases hi : i < data.length
    swap
    · rw [if_neg hi, if_neg hi]
      exact .inr ⟨nofun, o, rfl, hnone _⟩
    rw [if_pos hi, if_pos hi, readU8_eq hi]
    dsimp only [Option.bind_eq_bind, Option.bind_some]
    by_cases hend : u8 data i = 255
    · rw [if_pos hend, if_pos hend]
      exact .inr ⟨nofun, o, rfl, hnone _⟩
    rw [if_neg hend, if_neg hend]
    by_cases hpad : u8 data i = 0
    · rw [if_pos hpad, if_pos hpad]
      exact ih (i + 1) o
    rw [if_neg hpad, if_neg hpad]
    by_cases hlast : data.length ≤ i + 1
    · rw [if_pos hlast, if_pos (.inl hlast)]
      exact .inr ⟨nofun, o, rfl, hnone _⟩
    rw [if_neg hlast, readU8_eq (by omega)]
    dsimp only [Option.bind_some]
    by_cases hcut : data.length < i + 2 + u8 data (i + 1)
    · rw [if_pos hcut, if_pos (.inr hcut)]
      exact .inr ⟨nofun, o, rfl, hnone _⟩
    rw [if_neg hcut, if_neg (by omega), slice_eq (Nat.le_add_right ..) (by omega), Option.bind_some, Nat.add_sub_cancel_left]
    obtain ⟨o₁, htake, hoffer₁⟩ := takeOption_some o (u8 data i) ((data.drop (i + 2)).take (u8 data (i + 1)))
    rw [htake]
    dsimp only [Option.bind_some]
    have hoffer : o₁.isOffer = true ↔ o.isOffer = true ∨
        DhcpOption.IsOffer data ⟨i, u8 data i, u8 data (i + 1)⟩ := by
      rw [hoffer₁]
      refine or_congr_right (and_congr_right fun _ => ?_)
      rw [List.length_take, List.length_drop, Nat.min_eq_left (by omega)]
      refine and_congr_right fun hlen => ?_
      rw [u8_slice (by omega)]
    by_cases hlong : 256 ≤ 2 + u8 data (i + 1)
    · rw [if_pos hlong]
      exact .inl ⟨⟨_, List.mem_cons_self, show 254 ≤ u8 data (i + 1) by omega⟩, rfl⟩
    rw [if_neg hlong]
    rcases ih (i + (2 + u8 data (i + 1))) o₁ with ⟨⟨p, hp, hplen⟩, hnone⟩ | ⟨hshort, o', ho', hiff⟩
    · exact .inl ⟨⟨p, List.mem_cons_of_mem _ hp, hplen⟩, hnone⟩
    · refine .inr ⟨fun p hp => ?_, o', ho', ?_⟩
      · rcases List.mem_cons.1 hp with rfl | hp
        · show u8 data (i + 1) < 254
          omega
        · exact hshort p hp
      · rw [hiff, hoffer, or_assoc]
        simp only [List.mem_cons, exists_eq_or_imp]

def udpOff (data : List Byte) : Nat := 14 + u8 data 14 % 16 * 4

def dhcpOff (data : List Byte) : Nat := udpOff data + 8

/-- The checks of `parseOffer` before the options: of the frame, of the datagram and of the message. -/
structure OfferHeader (data : List Byte) : Prop where
  frame : 286 ≤ data.length
  ethertype : u8 data 12 * 256 + u8 data 13 = 0x0800
  version : u8 data 14 / 16 = 4
  proto : u8 data 23 = 17
  datagram : udpOff data + 8 ≤ data.length
  srcPort : u16 data (udpOff data) = dhcpServerPort
  dstPort : u16 data (udpOff data + 2) = dhcpClientPort
  message : dhcpOff data + 240 ≤ data.length
  op : u8 data (dhcpOff data) = dhcpOpReply
  xid : u32 data (dhcpOff data + 4) = xid
  cookie : u32 data (dhcpOff data + 236) = dhcpMagic

def options (data : List Byte) : List DhcpOption × Bool := optionsFrom data data.length (dhcpOff data + 240)

def OfferFits (data : List Byte) : Prop :=
  Ipv4Fits (data.drop 14) ∧ UdpFits (ipPayload (data.drop 14)) ∧ (options data).2 = true

def OfferSafe (data : List Byte) : Prop := ∃ r, parseOffer data = some r ∧ (r ≠ none → OfferFits data)

def OfferCareful (data : List Byte) : Prop :=
  OfferHeader data → (∀ p ∈ (options data).1, p.optLen < 254) ∧ ((∃ p ∈ (options data).1, p.IsOffer data) → OfferFits data)

def loopResult (data : List Byte) (yiaddr i : Nat) : Option (Option DhcpResult) :=
  (optionLoop data data.length i ⟨⟨yiaddr, 0, 0xFFFFFF00, 0⟩, false⟩).map fun o => if o.isOffer then some o.result else none

theorem parseMessage_eq {d : Nat} (h : d + 240 ≤ data.length) :
    parseMessage data d =
      if u8 data d ≠ dhcpOpReply then some none
      else if u32 data (d + 4) ≠ xid then some none
      else if u32 data (d + 236) ≠ dhcpMagic then some none
      else loopResult data (u32 data (d + 16)) (d + 240) := by
  unfold parseMessage
  rw [if_neg (by omega), readU8_eq (by omega), readU32_eq (by omega), readU32_eq (by omega), readU32_eq (by omega)]
  -- not by definition: the terms are too deep for that
  simp -implicitDefEqProofs only [Option.bind_eq_bind, Option.bind_some]
  split
  · rfl
  split
  · rfl
  split
  · rfl
  unfold loopResult
  cases optionLoop data data.length (d + 240) ⟨⟨u32 data (d + 16), 0, 0xFFFFFF00, 0⟩, false⟩ <;> rfl

theorem parseDatagram_eq {u : Nat} (h : u + 8 ≤ data.length) :
    parseDatagram data u =
      if u16 data u ≠ dhcpServerPort ∨ u16 data (u + 2) ≠ dhcpClientPort then some none else parseMessage data (u + 8) := by
  unfold parseDatagram
  rw [if_neg (by omega), readU8_eq (by omega), readU8_eq (by omega), readU8_eq (by omega), readU8_eq (by omega)]
  rfl

theorem parseOffer_eq (h : 286 ≤ data.length) :
    parseOffer data =
      if u8 data 12 * 256 + u8 data 13 ≠ 0x0800 then some none
      else if u8 data 14 / 16 ≠ 4 then some none
      else if u8 data 23 ≠ 17 then some none
      else parseDatagram data (udpOff data) := by
  unfold parseOffer
  rw [if_neg (by omega), readU8_eq (by omega), readU8_eq (by omega), readU8_eq (by omega), readU8_eq (by omega)]
  rfl

theorem parseOffer_of_header (h : OfferHeader data) :
    parseOffer data = loopResult data (u32 data (dhcpOff data + 16)) (dhcpOff data + 240) := by
  have hports : ¬ (u16 data (udpOff data) ≠ dhcpServerPort ∨ u16 data (udpOff data + 2) ≠ dhcpClientPort) :=
    not_or.2 ⟨not_not.2 h.srcPort, not_not.2 h.dstPort⟩
  rw [parseOffer_eq h.frame, if_neg (not_not.2 h.ethertype), if_neg (not_not.2 h.version), if_neg (not_not.2 h.proto),
    parseDatagram_eq h.datagram, if_neg hports]
  show parseMessage data (dhcpOff data) = _
  rw [parseMessage_eq h.message, if_neg (not_not.2 h.op), if_neg (not_not.2 h.xid), if_neg (not_not.2 h.cookie)]

theorem parseOffer_of_not (h : ¬ OfferHeader data) : parseOffer data = some none := by
  by_cases hframe : data.length < 286
  · exact if_pos hframe
  rw [parseOffer_eq (by omega)]
  split
  · rfl
  next htype =>
  split
  · rfl
  next hversion =>
  split
  · rfl
  next hproto =>
  by_cases hdatagram : data.length < udpOff data + 8
  · exact if_pos hdatagram
  rw [parseDatagram_eq (by omega)]
  split
  · rfl
  next hports =>
  rw [not_or, not_not, not_not] at hports
  by_cases hmessage : data.length < dhcpOff data + 240
  · exact if_pos hmessage
  show parseMessage data (dhcpOff data) = _
  rw [parseMessage_eq (Nat.not_lt.1 hmessage)]
  split
  · rfl
  next hop =>
  split
  · rfl
  next hxid =>
  split
  · rfl
  next hcookie =>
  exact absurd ⟨by omega, not_not.1 htype, not_not.1 hversion, not_not.1 hproto, by omega, hports.1, hports.2, by omega,
    not_not.1 hop, not_not.1 hxid, not_not.1 hcookie⟩ h

theorem parseOffer_iff (data : List Byte) : OfferSafe data ↔ OfferCareful data := by
  unfold OfferSafe OfferCareful
  by_cases hheader : OfferHeader data
  swap
  · rw [parseOffer_of_not hheader]
    exact iff_of_true ⟨none, rfl, fun h => absurd rfl h⟩ fun h => absurd h hheader
  rw [parseOffer_of_header hheader]
  unfold loopResult
  rcases optionLoop_eq data data.length (dhcpOff data + 240) ⟨⟨u32 data (dhcpOff data + 16), 0, 0xFFFFFF00, 0⟩, false⟩ with ⟨⟨p, hp, hlong⟩, hloop⟩ | ⟨hshort, o', hloop, hoffer⟩
  · rw [hloop]
    exact iff_of_false (fun ⟨r, hr, _⟩ => by cases hr) fun h => absurd ((h hheader).1 p hp) (by omega)
  · rw [hloop, Option.map_some]
    have hiff : o'.isOffer = true ↔ ∃ p ∈ (options data).1, p.IsOffer data := by
      rw [hoffer]
      exact ⟨fun h => h.resolve_left nofun, .inr⟩
    constructor
    · rintro ⟨r, hr, hfits⟩ -
      refine ⟨hshort, fun hex => hfits ?_⟩
      rw [if_pos (hiff.2 hex)] at hr
      rw [← Option.some.inj hr]
      exact nofun
    · intro h
      refine ⟨_, rfl, fun hne => (h hheader).2 (hiff.1 ?_)⟩
      by_contra hnot
      exact hne (if_neg hnot)

/-- **Input from the network** is read inside the frame and dropped unless its lengths are consistent, exactly when no header goes
beyond its packet, a segment has its whole header and no option is longer than a byte can say with its type and length. -/
theorem network_input_iff (ourIp : Nat) (data : List Byte) :
    (Ipv4Safe ourIp data ↔ Ipv4Careful ourIp data) ∧ (∃ r, handleArp ourIp data = some r) ∧
      (OfferSafe data ↔ OfferCareful data) :=
  ⟨handleIpv4_iff ourIp data, handleArp_safe ourIp data, parseOffer_iff data⟩

/-- A packet of twenty bytes that says that its header has sixty: the checksum would read behind it. -/
theorem long_header : ¬ Ipv4Safe 0x0A00020F (0x4F#8 :: 0#8 :: 0#8 :: 20#8 :: List.replicate 16 0#8) := by
  have hnone : handleIpv4 0x0A00020F (0x4F#8 :: 0#8 :: 0#8 :: 20#8 :: List.replicate 16 0#8) = none := by decide
  rintro ⟨r, hr, -⟩
  rw [hnone] at hr
  cases hr

end

end Zigix.PacketInput
