import Zigix.Net.PacketInput
import Zigix.Net.TcpInput

/-!
# Packets to the network (`ipv4.zig`, `udp.zig`, `ethernet.zig`, `checksum.zig`, the sending half of `tcp.zig`)

* `send`, `udpSend`, `sendSegment` : frames; what ARP answers is a field of the host;
* `checksum_filled` : a packet with its checksum in it sums up to zero;
* `parse_ipPacket`, `receiveFrame_send` : a packet is parsed as what it was made of;
* `udp_delivered`, `segment_delivered` : what one host sends is what another one handles.
-/

namespace Zigix.PacketInput

open Tcp (Segment Header)

/-! ## Ethernet -/

def ethHeaderSize : Nat := 14
def ethPIp : Nat := 0x0800

def putU16BE (val : Nat) : List Byte := [.ofNat 8 (val / 2 ^ 8), .ofNat 8 val]

def putU32BE (val : Nat) : List Byte := [.ofNat 8 (val / 2 ^ 24), .ofNat 8 (val / 2 ^ 16), .ofNat 8 (val / 2 ^ 8), .ofNat 8 val]

/-- An address of six bytes. -/
abbrev Mac := { bytes : List Byte // bytes.length = 6 }

/-- The frame, in a buffer of `len` bytes; `none` for the length 0. -/
def build (len : Nat) (dst src : Mac) (ethertype : Nat) (payload : List Byte) : Option (List Byte) :=
  if len < ethHeaderSize + payload.length then none else some (dst.1 ++ src.1 ++ putU16BE ethertype ++ payload)

/-- The ethertype and the payload. -/
def parseFrame (data : List Byte) : Option (Nat × List Byte) :=
  if data.length < ethHeaderSize then none else some (u8 data 12 * 256 + u8 data 13, data.drop ethHeaderSize)

/-- The IP branch of `poll`. -/
def receiveFrame (ourIp : Nat) (frame : List Byte) : Option Handled :=
  match parseFrame frame with
  | none => some .dropped
  | some (ethertype, payload) => if ethertype = ethPIp then handleIpv4 ourIp payload else some .dropped

/-! ## Checksums -/

def pseudoHeaderSum (src dst proto len : Nat) : Nat :=
  src / 65536 % 65536 + src % 65536 + dst / 65536 % 65536 + dst % 65536 + proto + len

def checksumWithSeed (seed : Nat) (data : List Byte) : Nat := 65535 - foldSum (seed + wordSum data) % 65536

/-! ## IPv4 -/

/-- What the packets of a host depend on. -/
structure Host where
  ourIp : BitVec 32
  gatewayIp : BitVec 32
  subnetMask : BitVec 32
  mac : Mac
  ipIdCounter : Nat
  arp : BitVec 32 → Option Mac

def ipHeader (h : Host) (proto : Nat) (dstIp : BitVec 32) (totalLen cksum : Nat) : List Byte :=
  [0x45, 0] ++ putU16BE totalLen ++ putU16BE h.ipIdCounter ++ [0x40, 0, 64, .ofNat 8 proto] ++ putU16BE cksum ++
    putU32BE h.ourIp.toNat ++ putU32BE dstIp.toNat

def ipPacket (h : Host) (proto : Nat) (dstIp : BitVec 32) (payload : List Byte) : List Byte :=
  let header := ipHeader h proto dstIp (ipHeaderSize + payload.length)
  header (internetChecksum (header 0)) ++ payload

/-- The address itself or the gateway. -/
def nextHop (h : Host) (dstIp : BitVec 32) : BitVec 32 :=
  if dstIp &&& h.subnetMask = h.ourIp &&& h.subnetMask then dstIp else h.gatewayIp

/-- The frame for `dst_ip`. -/
def send (h : Host) (proto : Nat) (dstIp : BitVec 32) (payload : List Byte) : Option (List Byte) :=
  if 1480 < payload.length then none
  else do
    let dstMac ← h.arp (nextHop h dstIp)
    build 1514 dstMac h.mac ethPIp (ipPacket h proto dstIp payload)

/-! ## What IPv4 carries -/

def udpHeader (srcPort dstPort : BitVec 16) (len cksum : Nat) : List Byte :=
  putU16BE srcPort.toNat ++ putU16BE dstPort.toNat ++ putU16BE len ++ putU16BE cksum

/-- A datagram; the checksum 0 would say that there is none. -/
def udpPacket (h : Host) (srcPort : BitVec 16) (dstIp : BitVec 32) (dstPort : BitVec 16) (payload : List Byte) : List Byte :=
  let header := udpHeader srcPort dstPort (udpHeaderSize + payload.length)
  let sum := pseudoHeaderSum h.ourIp.toNat dstIp.toNat protoUdp (udpHeaderSize + payload.length)
  let cksum := checksumWithSeed sum (header 0 ++ payload)
  header (if cksum = 0 then 0xFFFF else cksum) ++ payload

def udpSend (h : Host) (srcPort : BitVec 16) (dstIp : BitVec 32) (dstPort : BitVec 16) (payload : List Byte) :
    Option (List Byte) :=
  if 1472 < payload.length then none else send h protoUdp dstIp (udpPacket h srcPort dstIp dstPort payload)

def tcpHeader (seg : Segment) (cksum : Nat) : List Byte :=
  putU16BE seg.localPort.toNat ++ putU16BE seg.remotePort.toNat ++ putU32BE seg.seq.toNat ++ putU32BE seg.ack.toNat ++
    [0x50, seg.flags] ++ putU16BE seg.window ++ putU16BE cksum ++ [0, 0]

/-- The bytes of a segment, from an address of this host. -/
def tcpPacket (localIp : BitVec 32) (seg : Segment) : List Byte :=
  let sum := pseudoHeaderSum localIp.toNat seg.remoteIp.toNat protoTcp (tcpHeaderSize + seg.payload.length)
  tcpHeader seg (checksumWithSeed sum (tcpHeader seg 0 ++ seg.payload)) ++ seg.payload

def sendSegment (h : Host) (seg : Segment) : Option (List Byte) := send h protoTcp seg.remoteIp (tcpPacket h.ourIp seg)

/-! ## Sums -/

theorem foldSum_spec (n : Nat) : foldSum n ≤ 65535 ∧ foldSum n % 65535 = n % 65535 ∧ (foldSum n = 0 → n = 0) := by
  induction n using foldSum.induct with
  | case1 n h =>
    rw [foldSum, if_pos h]
    omega
  | case2 n h ih =>
    rw [foldSum, if_neg h]
    omega

/-- **A packet with its checksum in it** sums up to zero; the checksum may be 65535 in place of 0. -/
theorem checksum_filled {seed : Nat} {before after : List Byte} {cksum : Nat} (hpos : 0 < seed + wordSum before)
    (hafter : wordSum after = wordSum before + cksum)
    (hcksum : cksum % 65535 = checksumWithSeed seed before % 65535) : checksumWithSeed seed after = 0 := by
  unfold checksumWithSeed at *
  obtain ⟨hle, hmod, hzero⟩ := foldSum_spec (seed + wordSum before)
  obtain ⟨hle', hmod', hzero'⟩ := foldSum_spec (seed + wordSum after)
  omega

theorem checksum_lt (seed : Nat) (data : List Byte) : checksumWithSeed seed data < 65536 :=
  Nat.lt_succ_of_le (Nat.sub_le ..)

theorem internetChecksum_eq (data : List Byte) : internetChecksum data = checksumWithSeed 0 data := by
  unfold internetChecksum checksumWithSeed
  rw [Nat.zero_add]

/-! ## Parsing what was built -/

theorem word_bytes {val : Nat} (h : val < 2 ^ 16) : (BitVec.ofNat 8 (val / 2 ^ 8)).toNat * 256 + (BitVec.ofNat 8 val).toNat = val := by
  rw [BitVec.toNat_ofNat, BitVec.toNat_ofNat]
  omega

theorem long_bytes {val : Nat} (h : val < 2 ^ 32) :
    (BitVec.ofNat 8 (val / 2 ^ 24)).toNat * 2 ^ 24 + (BitVec.ofNat 8 (val / 2 ^ 16)).toNat * 2 ^ 16 +
      (BitVec.ofNat 8 (val / 2 ^ 8)).toNat * 2 ^ 8 + (BitVec.ofNat 8 val).toNat = val := by
  rw [BitVec.toNat_ofNat, BitVec.toNat_ofNat, BitVec.toNat_ofNat, BitVec.toNat_ofNat]
  omega

section
variable {h : Host} {proto : Nat} {dstIp : BitVec 32} {payload : List Byte}

theorem ipHeader_checksum (h : Host) (proto len : Nat) (dstIp : BitVec 32) :
    internetChecksum (ipHeader h proto dstIp len (internetChecksum (ipHeader h proto dstIp len 0))) = 0 := by
  have hsum : ∀ c < 65536, wordSum (ipHeader h proto dstIp len c) = wordSum (ipHeader h proto dstIp len 0) + c := by
    intro c hc
    simp [ipHeader, putU16BE, putU32BE, wordSum]
    omega
  have hpos : 0 < wordSum (ipHeader h proto dstIp len 0) := by
    show 0 < 0x45 * 256 + 0 + _
    omega
  rw [internetChecksum_eq, internetChecksum_eq]
  exact checksum_filled (by omega) (hsum _ (checksum_lt ..)) rfl

/-- **A packet is parsed** as what it was made of. -/
theorem parse_ipPacket (hlen : payload.length ≤ 1480) (hproto : proto < 256) :
    parse (ipPacket h proto dstIp payload) = some (some ⟨h.ourIp.toNat, dstIp.toNat, proto, 64, payload⟩) := by
  have hsum := ipHeader_checksum h proto (20 + payload.length) dstIp
  generalize hck : internetChecksum (ipHeader h proto dstIp (20 + payload.length) 0) = cksum at hsum
  obtain ⟨data, hdata⟩ : ∃ data, data = ipHeader h proto dstIp (20 + payload.length) cksum ++ payload := ⟨_, rfl⟩
  have hpacket : ipPacket h proto dstIp payload = data := by
    rw [hdata, ← hck]
    rfl
  have hlength : data.length = 20 + payload.length := by
    rw [hdata, List.length_append]
    rfl
  have hversion : u8 data 0 = 0x45 := by rw [hdata]; rfl
  have htotal : totalLen data = 20 + payload.length := by rw [hdata]; exact word_bytes (by omega)
  have hproto' : u8 data 9 = proto := by rw [hdata]; exact (BitVec.toNat_ofNat ..).trans (Nat.mod_eq_of_lt hproto)
  have hsrc : u32 data 12 = h.ourIp.toNat := by rw [hdata]; exact long_bytes h.ourIp.isLt
  have hdst : u32 data 16 = dstIp.toNat := by rw [hdata]; exact long_bytes dstIp.isLt
  have hheader : headerLen data = 20 := by rw [headerLen, hversion]
  have hsum' : internetChecksum (data.take 20) = 0 := by rw [hdata]; exact hsum
  have hpayload : ipPayload data = payload := by
    rw [ipPayload, hheader, htotal, Nat.add_sub_cancel_left, hdata]
    exact List.take_length ..
  have httl : u8 data 8 = 64 := by rw [hdata]; rfl
  rw [hpacket, parse_of_reaches ⟨by unfold ipHeaderSize; omega, by omega, by omega, by omega⟩, hheader, if_neg (by omega),
    if_neg (not_not.2 hsum'), if_neg (by omega), hproto', httl, hsrc, hdst, hpayload]

/-- A frame that fits is parsed. -/
theorem parseFrame_build {len ethertype : Nat} (dst src : Mac) (htype : ethertype < 2 ^ 16)
    (hfits : ethHeaderSize + payload.length ≤ len) :
    (build len dst src ethertype payload).map parseFrame = some (some (ethertype, payload)) := by
  unfold build
  rw [if_neg (Nat.not_lt.2 hfits)]
  match dst, src with
  | ⟨[d0, d1, d2, d3, d4, d5], _⟩, ⟨[s0, s1, s2, s3, s4, s5], _⟩ =>
    apply congrArg some
    refine (if_neg (by simp [putU16BE, ethHeaderSize])).trans ?_
    exact congrArg (fun t => some (t, payload)) (word_bytes htype)

/-- A packet is sent if it is not too long and the next hop answers. -/
theorem receiveFrame_send (hproto : proto < 256) : (send h proto dstIp payload).map (receiveFrame dstIp.toNat) =
    if payload.length ≤ 1480 ∧ (h.arp (nextHop h dstIp)).isSome then
      some (dispatch dstIp.toNat ⟨h.ourIp.toNat, dstIp.toNat, proto, 64, payload⟩) else none := by
  unfold send
  by_cases hlen : 1480 < payload.length
  · rw [if_pos hlen, if_neg fun hboth => absurd hboth.1 (Nat.not_le.2 hlen)]
    rfl
  · rw [if_neg hlen]
    cases h.arp (nextHop h dstIp) with
    | none => exact (if_neg fun hboth => absurd hboth.2 (by simp)).symm
    | some mac =>
      rw [if_pos ⟨by omega, rfl⟩]
      have hfits : ethHeaderSize + (ipPacket h proto dstIp payload).length ≤ 1514 := by
        unfold ipPacket
        rw [List.length_append]
        show 14 + (20 + payload.length) ≤ 1514
        omega
      obtain ⟨frame, hframe, hparse⟩ := Option.map_eq_some_iff.1 (parseFrame_build mac h.mac
        (show ethPIp < 2 ^ 16 by decide) hfits)
      rw [Option.bind_eq_bind, Option.bind_some, hframe, Option.map_some]
      unfold receiveFrame handleIpv4
      rw [hparse]
      dsimp only
      rw [if_pos rfl, parse_ipPacket (by omega) hproto]

/-! ## What the other host handles -/

theorem checksum_udpPacket (h : Host) (srcPort : BitVec 16) (dstIp : BitVec 32) (dstPort : BitVec 16) (payload : List Byte) :
    checksumWithSeed (pseudoHeaderSum h.ourIp.toNat dstIp.toNat protoUdp (udpHeaderSize + payload.length))
      (udpPacket h srcPort dstIp dstPort payload) = 0 := by
  have hsum : ∀ c < 65536, wordSum (udpHeader srcPort dstPort (udpHeaderSize + payload.length) c ++ payload) =
      wordSum (udpHeader srcPort dstPort (udpHeaderSize + payload.length) 0 ++ payload) + c := by
    intro c hc
    simp [udpHeader, putU16BE, wordSum]
    omega
  have hpos : 0 < pseudoHeaderSum h.ourIp.toNat dstIp.toNat protoUdp (udpHeaderSize + payload.length) := by
    unfold pseudoHeaderSum protoUdp
    omega
  unfold udpPacket
  dsimp only
  split
  · next hzero => exact checksum_filled (by omega) (hsum _ (by decide)) (by rw [hzero])
  · exact checksum_filled (by omega) (hsum _ (checksum_lt ..)) rfl

theorem handleUdp_packet {srcPort dstPort : BitVec 16} {cksum : Nat} {data : List Byte} (hlen : payload.length ≤ 1472)
    (hdata : data = udpHeader srcPort dstPort (8 + payload.length) cksum ++ payload) :
    handleUdp data = some (.udp dstPort.toNat srcPort.toNat payload) := by
  have hfield : u16 data 4 = 8 + payload.length := by rw [hdata]; exact word_bytes (by omega)
  have hsrc : u16 data 0 = srcPort.toNat := by rw [hdata]; exact word_bytes srcPort.isLt
  have hdst : u16 data 2 = dstPort.toNat := by rw [hdata]; exact word_bytes dstPort.isLt
  have hlength : data.length = 8 + payload.length := by
    rw [hdata, List.length_append]
    rfl
  rcases handleUdp_eq data with ⟨-, hnot⟩ | ⟨heq, -⟩
  · refine absurd ⟨?_, ?_, ?_⟩ hnot <;> unfold udpHeaderSize at * <;> omega
  · rw [heq, hfield, hsrc, hdst, Nat.add_sub_cancel_left, hdata]
    exact congrArg (fun p => some (Handled.udp _ _ p)) (List.take_length ..)

/-- **A datagram arrives** as it was sent, if it is not too long and the next hop answers, and its checksum is right. -/
theorem udp_delivered (h : Host) (srcPort : BitVec 16) (dstIp : BitVec 32) (dstPort : BitVec 16) (payload : List Byte) :
    ((udpSend h srcPort dstIp dstPort payload).map (receiveFrame dstIp.toNat) =
      if payload.length ≤ 1472 ∧ (h.arp (nextHop h dstIp)).isSome then
        some (some (.udp dstPort.toNat srcPort.toNat payload)) else none) ∧
      checksumWithSeed (pseudoHeaderSum h.ourIp.toNat dstIp.toNat protoUdp (udpHeaderSize + payload.length))
        (udpPacket h srcPort dstIp dstPort payload) = 0 := by
  refine ⟨?_, checksum_udpPacket ..⟩
  have hlength : (udpPacket h srcPort dstIp dstPort payload).length = 8 + payload.length := by
    unfold udpPacket
    rw [List.length_append]
    rfl
  unfold udpSend
  by_cases hlen : 1472 < payload.length
  · rw [if_pos hlen, if_neg fun hboth => absurd hboth.1 (Nat.not_le.2 hlen)]
    rfl
  · rw [if_neg hlen, receiveFrame_send (by decide), hlength]
    refine if_congr (and_congr_left' (by omega)) (congrArg some ?_) rfl
    unfold dispatch
    dsimp only
    rw [if_neg (by simp), if_neg (by decide), if_pos rfl]
    exact handleUdp_packet (by omega) rfl

theorem short_bytes (val : Nat) : BitVec.ofNat 8 (val / 2 ^ 8) ++ BitVec.ofNat 8 val = BitVec.ofNat 16 val := by
  apply BitVec.eq_of_toNat_eq
  rw [BitVec.toNat_append, ← Nat.shiftLeft_add_eq_or_of_lt (BitVec.isLt _), Nat.shiftLeft_eq, BitVec.toNat_ofNat,
    BitVec.toNat_ofNat, BitVec.toNat_ofNat]
  omega

theorem getU32BE_bytes (v : BitVec 32) : (BitVec.ofNat 8 (v.toNat / 2 ^ 24) ++ BitVec.ofNat 8 (v.toNat / 2 ^ 16)) ++
    (BitVec.ofNat 8 (v.toNat / 2 ^ 8) ++ BitVec.ofNat 8 v.toNat) = v := by
  have hhigh := short_bytes (v.toNat / 2 ^ 16)
  rw [Nat.div_div_eq_div_mul] at hhigh
  rw [show 2 ^ 24 = 2 ^ 16 * 2 ^ 8 from rfl, hhigh, short_bytes]
  apply BitVec.eq_of_toNat_eq
  rw [BitVec.toNat_append, ← Nat.shiftLeft_add_eq_or_of_lt (BitVec.isLt _), Nat.shiftLeft_eq, BitVec.toNat_ofNat,
    BitVec.toNat_ofNat]
  omega

theorem parseHeader_packet {seg : Segment} {cksum : Nat} {data : List Byte} (hdata : data = tcpHeader seg cksum ++ seg.payload) :
    Tcp.parseHeader data =
      some ⟨seg.localPort, seg.remotePort, seg.seq, seg.ack, seg.flags, seg.window % 2 ^ 16, seg.payload⟩ := by
  have hlength : data.length = 20 + seg.payload.length := by
    rw [hdata, List.length_append]
    rfl
  have hshort : ∀ v : BitVec 16, BitVec.ofNat 8 (v.toNat / 2 ^ 8) ++ BitVec.ofNat 8 v.toNat = v := fun v => by
    rw [short_bytes, BitVec.ofNat_toNat, BitVec.setWidth_eq]
  have hsrc : Tcp.getU16BE data 0 = seg.localPort := by rw [hdata]; exact hshort _
  have hdst : Tcp.getU16BE data 2 = seg.remotePort := by rw [hdata]; exact hshort _
  have hseq : Tcp.getU32BE data 4 = seg.seq := by rw [hdata]; exact getU32BE_bytes _
  have hack : Tcp.getU32BE data 8 = seg.ack := by rw [hdata]; exact getU32BE_bytes _
  have hwin : Tcp.getU16BE data 14 = BitVec.ofNat 16 seg.window := by rw [hdata]; exact short_bytes _
  have hoffset : (Tcp.byteAt data 12).toNat = 80 := by rw [hdata]; rfl
  unfold Tcp.parseHeader Tcp.tcpHeaderSize
  rw [if_neg (by omega), hoffset, if_neg (by omega), hsrc, hdst, hseq, hack, hwin, BitVec.toNat_ofNat, hdata]
  rfl

/-- **A segment arrives** if it is not too long and the next hop answers: the handler gets its bytes and reads its fields in
them, and the checksum is right. -/
theorem segment_delivered (h : Host) (seg : Segment) :
    ((sendSegment h seg).map (receiveFrame seg.remoteIp.toNat) =
      if seg.payload.length ≤ 1460 ∧ (h.arp (nextHop h seg.remoteIp)).isSome then
        some (handleTcp (tcpPacket h.ourIp seg)) else none) ∧
      Tcp.parseHeader (tcpPacket h.ourIp seg) =
        some ⟨seg.localPort, seg.remotePort, seg.seq, seg.ack, seg.flags, seg.window % 2 ^ 16, seg.payload⟩ ∧
      checksumWithSeed (pseudoHeaderSum h.ourIp.toNat seg.remoteIp.toNat protoTcp (tcpHeaderSize + seg.payload.length))
        (tcpPacket h.ourIp seg) = 0 := by
  have hsum : ∀ c < 65536, wordSum (tcpHeader seg c ++ seg.payload) = wordSum (tcpHeader seg 0 ++ seg.payload) + c := by
    intro c hc
    simp [tcpHeader, putU16BE, putU32BE, wordSum]
    omega
  refine ⟨?_, parseHeader_packet rfl, checksum_filled ?_ (hsum _ (checksum_lt ..)) rfl⟩
  · have hlength : (tcpPacket h.ourIp seg).length = 20 + seg.payload.length := by
      unfold tcpPacket
      rw [List.length_append]
      rfl
    unfold sendSegment
    rw [receiveFrame_send (by decide), hlength]
    refine if_congr (and_congr_left' (by omega)) (congrArg some ?_) rfl
    unfold dispatch
    dsimp only
    rw [if_neg (by simp), if_neg (by decide), if_neg (by decide), if_pos rfl]
  · unfold pseudoHeaderSum protoTcp
    omega

end

end Zigix.PacketInput
