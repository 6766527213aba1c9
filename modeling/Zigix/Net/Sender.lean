import Zigix.Net.Send

/-!
# What leaves the stack

* `Sends base A a c` : the transmit ring is what `sendData` accepted (`A`) without the first `a` bytes, the first byte
  of `A` has number `base`, and `send_unack`, `send_next` and the recorded segments are in step with the ring;
* `Sends.buffer`, `Sends.transmit`, `Sends.acknowledge`, `Sends.retransmit` : one lemma for each operation;
* `sender_integrity` : over every interleaving, what is sent is what was accepted, and what was dropped was
  acknowledged.
-/

namespace Zigix.Tcp

structure Sends (base : BitVec 32) (A : List Byte) (a : Nat) (c : TcpConnection) : Prop where
  ring : c.txRing = A.drop a
  acked : a ≤ A.length
  unack : c.sendUnack = Serial.num base a
  next : c.sendNext = Serial.num c.sendUnack c.txSent
  sent : c.txSent ≤ c.txCount
  cap : c.txCount ≤ txBufSize
  segs : Spaced c.sendUnack 0 c.segList c.txSent

/-- The segment carries the bytes of `A` that its number names. -/
def Carries (base : BitVec 32) (A : List Byte) (seg : Segment) : Prop :=
  ∃ k, seg.seq = Serial.num base k ∧ k + seg.payload.length ≤ A.length ∧
    seg.payload = (A.drop k).take seg.payload.length

def Faithful (base : BitVec 32) (A : List Byte) (out : List Effect) : Prop :=
  ∀ seg, .send seg ∈ out → seg.payload ≠ [] → Carries base A seg

section
variable {base : BitVec 32} {A : List Byte} {a : Nat} {c c' : TcpConnection}

/-- The fields that `Sends` looks at. -/
structure SameTx (c c' : TcpConnection) : Prop where
  ring : c'.txRing = c.txRing
  sendUnack : c'.sendUnack = c.sendUnack
  sendNext : c'.sendNext = c.sendNext
  txCount : c'.txCount = c.txCount
  txSent : c'.txSent = c.txSent
  segs : c'.segList.map (fun s => (s.seq, s.len)) = c.segList.map (fun s => (s.seq, s.len))

theorem Spaced.congr {u : BitVec 32} {lo hi : Nat} {ss ss' : List TxSegment} (h : Spaced u lo ss hi)
    (heq : ss'.map (fun s => (s.seq, s.len)) = ss.map (fun s => (s.seq, s.len))) : Spaced u lo ss' hi := by
  induction ss generalizing lo ss' with
  | nil =>
    rw [List.map_nil, List.map_eq_nil_iff] at heq
    subst heq
    exact h
  | cons s ss ih =>
    obtain ⟨s', ss', rfl, hs, hss⟩ := List.map_eq_cons_iff.1 heq
    obtain ⟨hseq, hlen⟩ := Prod.mk.inj hs
    obtain ⟨o, hlo, ho, hrest⟩ := h
    exact ⟨o, hlo, hseq.trans ho, hlen ▸ ih hrest hss⟩

theorem Sends.congr (h : Sends base A a c) (same : SameTx c c') : Sends base A a c' where
  ring := same.ring.trans h.ring
  acked := h.acked
  unack := same.sendUnack.trans h.unack
  next := by rw [same.sendNext, same.sendUnack, same.txSent, h.next]
  sent := by rw [same.txSent, same.txCount]; exact h.sent
  cap := by rw [same.txCount]; exact h.cap
  segs := by
    rw [same.sendUnack, same.txSent]
    exact h.segs.congr same.segs

theorem Sends.length (h : Sends base A a c) : c.txCount + a = A.length := by
  have := congrArg List.length h.ring
  rw [length_txRing, List.length_drop] at this
  have := h.acked
  omega

theorem Sends.txBytes (h : Sends base A a c) {off len : Nat} (hle : off + len ≤ c.txCount) :
    txBytes c off len = (A.drop (a + off)).take len := by
  rw [txBytes_eq hle, h.ring, List.drop_drop]

theorem Sends.carries (h : Sends base A a c) {off len : Nat} (hle : off + len ≤ c.txCount) (flags : BitVec 8) :
    Faithful base A [sendSegmentWithSeq c flags (Serial.num c.sendUnack off) (Tcp.txBytes c off len)] := by
  intro seg hseg _
  obtain rfl := Effect.send.inj (List.mem_singleton.1 hseg)
  refine ⟨a + off, ?_, ?_, ?_⟩
  · show Serial.num c.sendUnack off = _
    rw [h.unack, Serial.num_num]
  · show a + off + (Tcp.txBytes c off len).length ≤ A.length
    rw [length_txBytes]
    have := h.length
    omega
  · show Tcp.txBytes c off len = (A.drop (a + off)).take (Tcp.txBytes c off len).length
    rw [length_txBytes]
    exact h.txBytes hle

/-! ## Accepting and sending -/

theorem Sends.buffer (h : Sends base A a c) (data : List Byte) :
    Sends base (A ++ data.take (bufferData c data).1) a (bufferData c data).2 where
  ring := by rw [bufferData_txRing h.cap, h.ring, List.drop_append_of_le_length h.acked]
  acked := h.acked.trans (by simp)
  unack := h.unack
  next := h.next
  sent := h.sent.trans (Nat.le_add_right ..)
  cap := by
    show c.txCount + min data.length (txBufSize - c.txCount) ≤ txBufSize
    have := h.cap
    omega
  segs := h.segs

theorem Sends.transmit (h : Sends base A a c) {n : Nat} (hn : c.txSent + n ≤ c.txCount) (now : Nat) :
    Sends base A a (transmit now c n).1 ∧ Faithful base A (transmit now c n).2 := by
  obtain ⟨segs, count, q, hlist, heq⟩ := transmit_eq now c n
  rw [heq]
  refine ⟨⟨h.ring, h.acked, h.unack, ?_, hn, h.cap, ?_⟩, ?_⟩
  · show Serial.num c.sendNext n = Serial.num c.sendUnack (c.txSent + n)
    rw [h.next, Serial.num_num]
  · show Spaced c.sendUnack 0 ((List.range count).map segs) (c.txSent + n)
    rw [hlist, recorded]
    split
    · exact h.segs.concat h.next le_rfl
    · exact h.segs.mono (Nat.le_add_right ..)
  · have := h.carries hn (PSH ||| ACK)
    rwa [← h.next] at this

theorem Sends.flush (h : Sends base A a c) {now : Nat} {out : List Effect}
    (hs : flushSendBuffer now c = some (c', out)) : Sends base A a c' ∧ Faithful base A out := by
  rcases flushSendBuffer_cases hs with ⟨rfl, rfl⟩ | ⟨n, -, hn, -, -, heq⟩
  · exact ⟨h, nofun⟩
  · have := h.transmit hn now
    rwa [heq] at this

/-! ## Acknowledgements and retransmissions -/

theorem Sends.advance (h : Sends base A a c) {d : Nat} (hd : d ≤ c.txSent) (now win : Nat) (srtt rttvar : Int)
    (rto : Nat) (r : Bool) :
    Sends base A (a + d) (acknowledged c (Serial.num c.sendUnack d) d now win srtt rttvar rto r) where
  ring := by
    have := advanceTxBuffer_txRing (hd.trans h.sent)
    rw [h.ring, List.drop_drop] at this
    exact this
  acked := by
    have := h.length
    have := h.sent
    omega
  unack := by
    show Serial.num c.sendUnack d = _
    rw [h.unack, Serial.num_num]
  next := by
    show c.sendNext = Serial.num (Serial.num c.sendUnack d) (c.txSent - d)
    rw [Serial.num_num, Nat.add_sub_cancel' hd, h.next]
  sent := Nat.sub_le_sub_right h.sent d
  cap := (Nat.sub_le ..).trans h.cap
  segs := by
    have := segList_advanceTxBuffer c d
    show Spaced (Serial.num c.sendUnack d) 0 (advanceTxBuffer c d).segList (c.txSent - d)
    rw [this]
    exact h.segs.trim (by omega)

theorem Faithful.append {out out' : List Effect} (h : Faithful base A out) (h' : Faithful base A out') :
    Faithful base A (out ++ out') := fun seg hseg hne =>
  (List.mem_append.1 hseg).elim (fun hm => h seg hm hne) (fun hm => h' seg hm hne)

theorem Faithful.wakeWaiter (c : TcpConnection) : Faithful base A (wakeWaiter c).2 := by
  intro seg hseg
  unfold Tcp.wakeWaiter at hseg
  split at hseg <;> simp at hseg

theorem SameTx.wakeWaiter (c : TcpConnection) : SameTx c (wakeWaiter c).1 := by
  unfold Tcp.wakeWaiter
  split <;> exact ⟨rfl, rfl, rfl, rfl, rfl, rfl⟩

theorem Sends.fail (h : Sends base A a c) (arch : Arch) :
    Sends base A a (wakeOnFailure arch { c with state := .closed }).1 ∧
      Faithful base A (wakeOnFailure arch { c with state := .closed }).2 := by
  have hclosed : Sends base A a { c with state := .closed } := h.congr ⟨rfl, rfl, rfl, rfl, rfl, rfl⟩
  cases arch with
  | x86 => exact ⟨hclosed.congr (.wakeWaiter _), .wakeWaiter _⟩
  | aarch64 => exact ⟨hclosed, nofun⟩

theorem Sends.first (h : Sends base A a c) (hcount : 0 < c.txSegCount) :
    ∃ o, (c.txSegs 0).seq = Serial.num c.sendUnack o ∧ o + (c.txSegs 0).len ≤ c.txSent := by
  have hsegs := h.segs
  rw [segList_eq_cons hcount] at hsegs
  obtain ⟨o, -, hseq, hrest⟩ := hsegs
  exact ⟨o, hseq, hrest.le⟩

theorem Sends.retransmit (h : Sends base A a c) (arch : Arch) (now : Nat) :
    Sends base A a (retransmitSegment arch now c 0).1 ∧ Faithful base A (retransmitSegment arch now c 0).2 := by
  rcases retransmitSegment_cases arch now c with ⟨heq, -⟩ | ⟨-, -, heq⟩ | ⟨hcount, -, heq⟩
  · rw [heq]
    exact ⟨h, nofun⟩
  · rw [heq]
    exact h.fail arch
  · obtain ⟨o, hseq, ho⟩ := h.first hcount
    have hle : o + (c.txSegs 0).len ≤ c.txCount := ho.trans h.sent
    have hlt : o < 2 ^ 16 := by
      have := h.cap
      unfold txBufSize at this
      omega
    have hoff : ((c.txSegs 0).seq - c.sendUnack).toNat % 2 ^ 16 = o := by
      rw [hseq, Serial.toNat_num_sub_base (by omega), Nat.mod_eq_of_lt hlt]
    rw [heq, hoff]
    refine ⟨h.congr ⟨rfl, rfl, rfl, rfl, rfl, map_seq_len_update ..⟩, ?_⟩
    rw [hseq]
    exact h.carries hle _

theorem Sends.fastRetransmit (h : Sends base A a c) (arch : Arch) (now : Nat) :
    Sends base A a (fastRetransmit arch now c).1 ∧ Faithful base A (fastRetransmit arch now c).2 := by
  unfold Tcp.fastRetransmit
  dsimp only
  split
  · refine Sends.retransmit ?_ arch now
    exact h.congr ⟨rfl, rfl, rfl, rfl, rfl, rfl⟩
  · exact ⟨h.congr ⟨rfl, rfl, rfl, rfl, rfl, rfl⟩, nofun⟩

theorem Sends.poll (h : Sends base A a c) (arch : Arch) (now : Nat) :
    Sends base A a (pollConn arch now c).1 ∧ Faithful base A (pollConn arch now c).2 := by
  unfold pollConn
  split
  · split
    · refine Sends.retransmit ?_ arch now
      exact h.congr ⟨rfl, rfl, rfl, rfl, rfl, rfl⟩
    · exact ⟨h.congr ⟨rfl, rfl, rfl, rfl, rfl, rfl⟩, nofun⟩
  · exact ⟨h, nofun⟩

/-- How many of the bytes in flight an acknowledgement covers; one from before `send_unack` covers none. -/
def covered (c : TcpConnection) (ack : BitVec 32) : Nat :=
  if (ack - c.sendUnack).toNat ≤ c.txSent then (ack - c.sendUnack).toNat else 0

theorem Sends.not_beyond (h : Sends base A a c) {ack : BitVec 32} (hack : Serial.after ack c.sendNext = false) :
    (ack - c.sendUnack).toNat ≤ c.txSent ∨ c.txCount < (ack - c.sendUnack).toNat := by
  by_contra hcon
  rw [not_or, Nat.not_le, Nat.not_lt] at hcon
  have hcap := h.cap
  unfold txBufSize at hcap
  have hlater : Serial.after (Serial.num c.sendUnack (ack - c.sendUnack).toNat) (Serial.num c.sendUnack c.txSent) :=
    (Serial.after_num (by omega) (by omega)).2 hcon.1
  rw [Serial.num_toNat_sub, ← h.next, hack] at hlater
  exact Bool.false_ne_true hlater

theorem Sends.processAck (h : Sends base A a c) {arch : Arch} {now : Nat} {ack : BitVec 32} {win : Nat}
    {out : List Effect} (hack : (ack - c.sendUnack).toNat ≤ c.txSent ∨ c.txCount < (ack - c.sendUnack).toNat)
    (hs : processAck arch now c ack win = some (c', out)) :
    Sends base A (a + covered c ack) c' ∧ Faithful base A out := by
  have hcap := h.cap
  unfold txBufSize at hcap
  rcases processAck_cases (by omega) hs with ⟨hold, n, hdup⟩ | ⟨hpos, hle, srtt, rttvar, rto, r, -, hflush⟩
  · have hzero : covered c ack = 0 := by
      have := h.sent
      unfold covered
      split <;> omega
    have hsame : Sends base A a { c with peerWindow := win, dupAckCount := n } :=
      h.congr ⟨rfl, rfl, rfl, rfl, rfl, rfl⟩
    rw [hzero, Nat.add_zero]
    rcases hdup with ⟨rfl, rfl⟩ | hfast
    · exact ⟨hsame, nofun⟩
    · have := hsame.fastRetransmit arch now
      rwa [hfast] at this
  · have hd : (ack - c.sendUnack).toNat ≤ c.txSent := hack.resolve_right (by omega)
    have hcov : covered c ack = (ack - c.sendUnack).toNat := if_pos hd
    have hadv := h.advance hd now win srtt rttvar rto r
    rw [Serial.num_toNat_sub] at hadv
    rw [hcov]
    exact hadv.flush hflush

/-! ## Runs -/

theorem Carries.append {seg : Segment} (h : Carries base A seg) (B : List Byte) : Carries base (A ++ B) seg := by
  obtain ⟨k, hseq, hlen, hpay⟩ := h
  refine ⟨k, hseq, by simp only [List.length_append]; omega, ?_⟩
  rw [List.drop_append_of_le_length (by omega), List.take_append_of_le_length (by simp; omega)]
  exact hpay

theorem Faithful.more {out : List Effect} (h : Faithful base A out) (B : List Byte) : Faithful base (A ++ B) out :=
  fun seg hseg hne => (h seg hseg hne).append B

end

/-- What can happen to the sending half. -/
inductive SendEvent where
  | sendData (data : List Byte)
  | flush
  | ack (ackNum : BitVec 32) (peerWin : Nat)
  | fastRetransmit
  | poll

def sendStep (arch : Arch) (env : Env) (c : TcpConnection) : SendEvent → Option (TcpConnection × Output)
  | .sendData data => (sendConn env c data).map fun r => (r.2.1, { ret := r.1, effects := r.2.2 })
  | .flush => (flushSendBuffer env.ticks c).map fun r => (r.1, { effects := r.2 })
  | .ack ackNum peerWin => (processAck arch env.ticks c ackNum peerWin).map fun r => (r.1, { effects := r.2 })
  | .fastRetransmit => some ((fastRetransmit arch env.ticks c).1, { effects := (fastRetransmit arch env.ticks c).2 })
  | .poll => some ((pollConn arch env.ticks c).1, { effects := (pollConn arch env.ticks c).2 })

def SendEvent.accepted (o : Output) : SendEvent → List Byte
  | .sendData data => data.take o.ret.toNat
  | _ => []

/-- How many bytes are covered when `a` were and the peer sends the acknowledgement number `q`, not beyond `next`. -/
def cover (base : BitVec 32) (a : Nat) (next q : BitVec 32) : Nat :=
  if (q - Serial.num base a).toNat ≤ (next - Serial.num base a).toNat then a + (q - Serial.num base a).toNat else a

def SendEvent.covers (base : BitVec 32) (a : Nat) (c : TcpConnection) : SendEvent → Nat
  | .ack q _ => cover base a c.sendNext q
  | _ => a

/-- An acknowledgement number is not beyond `send_next`. -/
def SendEvent.Honest (c : TcpConnection) : SendEvent → Prop
  | .ack q _ => Serial.after q c.sendNext = false
  | _ => True

/-- An established connection on which nothing was sent yet; its first byte has number `base`. -/
structure Ready (base : BitVec 32) (c : TcpConnection) : Prop where
  state : c.state = .established
  sendUnack : c.sendUnack = base
  sendNext : c.sendNext = base
  txCount : c.txCount = 0
  txSent : c.txSent = 0
  txSegCount : c.txSegCount = 0

inductive SendRun (arch : Arch) (base : BitVec 32) : TcpConnection → List Byte → Nat → List Effect → Prop
  | start {c} : Ready base c → SendRun arch base c [] 0 []
  | step {c c' A a sent env e o} : SendRun arch base c A a sent → SendEvent.Honest c e →
      sendStep arch env c e = some (c', o) →
      SendRun arch base c' (A ++ e.accepted o) (e.covers base a c) (sent ++ o.effects)

section
variable {arch : Arch} {base : BitVec 32} {A : List Byte} {a : Nat} {c c' : TcpConnection} {sent : List Effect}

theorem Ready.sends (h : Ready base c) : Sends base [] 0 c where
  ring := List.length_eq_zero_iff.1 (by rw [length_txRing, h.txCount])
  acked := le_rfl
  unack := by rw [h.sendUnack, Serial.num_zero]
  next := by rw [h.sendNext, h.sendUnack, h.txSent, Serial.num_zero]
  sent := by rw [h.txSent]; exact Nat.zero_le _
  cap := by rw [h.txCount]; exact Nat.zero_le _
  segs := by
    unfold TcpConnection.segList
    rw [h.txSegCount]
    exact Nat.zero_le _

theorem Sends.cover_eq (h : Sends base A a c) (q : BitVec 32) : cover base a c.sendNext q = a + covered c q := by
  have hcap := h.cap
  have hsent := h.sent
  unfold txBufSize at hcap
  unfold cover covered
  rw [← h.unack, h.next, Serial.toNat_num_sub_base (by omega)]
  split <;> rfl

theorem Sends.sendConn (h : Sends base A a c) {env : Env} {data : List Byte} {n : Int} {out : List Effect}
    (hs : sendConn env c data = some (n, c', out)) :
    Sends base (A ++ data.take n.toNat) a c' ∧ Faithful base (A ++ data.take n.toNat) out := by
  unfold Tcp.sendConn at hs
  split at hs
  · cases hs
    simpa using ⟨h, nofun⟩
  split at hs
  · cases hs
    simpa using ⟨h, nofun⟩
  · obtain ⟨r, hr, hs⟩ := Option.bind_eq_some_iff.1 hs
    cases hs
    exact (h.buffer data).flush hr

theorem Sends.step (h : Sends base A a c) {env : Env} {e : SendEvent} {o : Output} (hok : e.Honest c)
    (hs : sendStep arch env c e = some (c', o)) :
    Sends base (A ++ e.accepted o) (e.covers base a c) c' ∧ Faithful base (A ++ e.accepted o) o.effects := by
  cases e with
  | sendData data =>
    obtain ⟨⟨n, c₁, out⟩, hr, hs⟩ := Option.map_eq_some_iff.1 hs
    cases hs
    exact h.sendConn hr
  | flush =>
    obtain ⟨⟨c₁, out⟩, hr, hs⟩ := Option.map_eq_some_iff.1 hs
    cases hs
    rw [show SendEvent.accepted _ .flush = [] from rfl, List.append_nil]
    exact h.flush hr
  | ack q win =>
    obtain ⟨⟨c₁, out⟩, hr, hs⟩ := Option.map_eq_some_iff.1 hs
    cases hs
    rw [show SendEvent.accepted _ (.ack q win) = [] from rfl, List.append_nil]
    have := h.processAck (h.not_beyond hok) hr
    rwa [← h.cover_eq] at this
  | fastRetransmit =>
    cases hs
    rw [show SendEvent.accepted _ .fastRetransmit = [] from rfl, List.append_nil]
    exact h.fastRetransmit arch env.ticks
  | poll =>
    cases hs
    rw [show SendEvent.accepted _ .poll = [] from rfl, List.append_nil]
    exact h.poll arch env.ticks

theorem sendRun_sends (run : SendRun arch base c A a sent) : Sends base A a c ∧ Faithful base A sent := by
  induction run with
  | start h => exact ⟨h.sends, nofun⟩
  | step _ hok hs ih =>
    obtain ⟨hsends, hout⟩ := ih.1.step hok hs
    exact ⟨hsends, (ih.2.more _).append hout⟩

/-- **Sender integrity.** In every interleaving of `sendData`, `flushSendBuffer`, `processAck`, `fastRetransmit` and
timer polls on a connection, with acknowledgement numbers not beyond `send_next`: every segment with data that was
sent carries the accepted bytes its number names, and the ring still holds every accepted byte that no cumulative
acknowledgement covers. -/
theorem sender_integrity (run : SendRun arch base c A a sent) :
    (∀ seg, .send seg ∈ sent → seg.payload ≠ [] → Carries base A seg) ∧ c.txRing = A.drop a :=
  ⟨(sendRun_sends run).2, (sendRun_sends run).1.ring⟩

theorem SendRun.next (run : SendRun arch base c A a sent) (env : Env) (e : SendEvent) (hok : e.Honest c)
    (hs : (sendStep arch env c e).isSome) :
    SendRun arch base ((sendStep arch env c e).get hs).1 (A ++ e.accepted ((sendStep arch env c e).get hs).2)
      (e.covers base a c) (sent ++ ((sendStep arch env c e).get hs).2.effects) :=
  .step run hok (Option.some_get hs).symm

end

/-- Three bytes, of which the peer acknowledges one, and a timer that then sends the other two again. -/
theorem sender_integrity_partial_ack : ∃ c A a sent, SendRun .x86 0 c A a sent ∧ A = [1, 2, 3] ∧ a = 1 ∧
    (sent.map fun e => match e with | .send seg => some (seg.seq, seg.payload) | _ => none) =
      [some (0, [1, 2, 3]), some (1, [2, 3])] ∧
    (∀ seg, .send seg ∈ sent → seg.payload ≠ [] → Carries 0 A seg) ∧ c.txRing = A.drop a := by
  have r₀ : SendRun .x86 0 openConn [] 0 [] := .start ⟨rfl, rfl, rfl, rfl, rfl, rfl⟩
  have r₁ := r₀.next (.atTick 0) (.sendData [1, 2, 3]) trivial (by decide +kernel)
  have r₂ := r₁.next (.atTick 1) (.ack 1 4096) (by unfold SendEvent.Honest; decide +kernel) (by decide +kernel)
  have r₃ := r₂.next (.atTick 1000) .poll trivial (by decide +kernel)
  exact ⟨_, _, _, _, r₃, by decide +kernel, by decide +kernel, by decide +kernel, sender_integrity r₃⟩

end Zigix.Tcp
