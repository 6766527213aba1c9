import Zigix.Net.EndOfStream
import Zigix.Net.InFlight
import Zigix.Net.Sender

/-!
# Closing a connection with data on the way

* `graceful_close` : a story in which nothing is unsent at `close`, and whose later acknowledgements are for nothing
  new or for everything, ends gracefully; `close_drops_unsent` : a window-limited sender loses its last byte.
-/

namespace Zigix.Tcp

/-! ## What was transmitted -/

/-- The segment carries byte `k` of `A`, in its place. -/
def CarriesByte (base : BitVec 32) (A : List Byte) (k : Nat) (seg : Segment) : Prop :=
  ∃ j, seg.seq = Serial.num base j ∧ j ≤ k ∧ k < j + seg.payload.length ∧ j + seg.payload.length ≤ A.length ∧
    seg.payload = (A.drop j).take seg.payload.length

/-- The first `n` bytes of `A` were sent. -/
def Transmitted (base : BitVec 32) (A : List Byte) (sent : List Effect) (n : Nat) : Prop :=
  ∀ k < n, ∃ seg, .send seg ∈ sent ∧ CarriesByte base A k seg

section
variable {base : BitVec 32} {A : List Byte} {a n : Nat} {c c' : TcpConnection} {sent out : List Effect} {arch : Arch}
  {now : Nat}

theorem CarriesByte.append {k : Nat} {seg : Segment} (h : CarriesByte base A k seg) (B : List Byte) :
    CarriesByte base (A ++ B) k seg := by
  obtain ⟨j, hseq, hjk, hkj, hlen, hpay⟩ := h
  refine ⟨j, hseq, hjk, hkj, by simp only [List.length_append]; omega, ?_⟩
  rw [List.drop_append_of_le_length (by omega), List.take_append_of_le_length (by simp; omega)]
  exact hpay

theorem Transmitted.more (h : Transmitted base A sent n) (B : List Byte) (out : List Effect) :
    Transmitted base (A ++ B) (sent ++ out) n := by
  intro k hk
  obtain ⟨seg, hmem, hcar⟩ := h k hk
  exact ⟨seg, List.mem_append_left out hmem, hcar.append B⟩

theorem Transmitted.extend {m : Nat} (h : Transmitted base A sent n)
    (hnew : ∀ k, n ≤ k → k < m → ∃ seg, .send seg ∈ out ∧ CarriesByte base A k seg) :
    Transmitted base A (sent ++ out) m := by
  intro k hk
  by_cases hkn : k < n
  · obtain ⟨seg, hmem, hcar⟩ := h k hkn
    exact ⟨seg, List.mem_append_left out hmem, hcar⟩
  · obtain ⟨seg, hmem, hcar⟩ := hnew k (by omega) hk
    exact ⟨seg, List.mem_append_right sent hmem, hcar⟩

theorem carriesByte_txBytes (hring : c.txRing = A.drop a) (hunack : c.sendUnack = Serial.num base a)
    (off len k : Nat) (hle : off + len ≤ c.txCount) (hlo : a + off ≤ k) (hhi : k < a + off + len) (flags : BitVec 8) :
    ∃ seg, .send seg ∈ [sendSegmentWithSeq c flags (Serial.num c.sendUnack off) (txBytes c off len)] ∧
      CarriesByte base A k seg := by
  have hlen := congrArg List.length hring
  rw [length_txRing, List.length_drop] at hlen
  refine ⟨_, List.mem_singleton.2 rfl, a + off, ?_, hlo, ?_, ?_, ?_⟩
  · show Serial.num c.sendUnack off = _
    rw [hunack, Serial.num_num]
  · rwa [length_txBytes]
  · rw [length_txBytes]
    omega
  · show txBytes c off len = (A.drop (a + off)).take (txBytes c off len).length
    rw [length_txBytes, txBytes_eq hle, hring, List.drop_drop]

theorem Sends.flush_carries (h : Sends base A a c) (hs : flushSendBuffer now c = some (c', out)) {k : Nat}
    (hlo : a + c.txSent ≤ k) (hhi : k < a + c'.txSent) : ∃ seg, .send seg ∈ out ∧ CarriesByte base A k seg := by
  rcases flushSendBuffer_cases hs with ⟨rfl, -⟩ | ⟨n, -, hn, -, -, heq⟩
  · omega
  · obtain ⟨segs, count, q, -, htrans⟩ := transmit_eq now c n
    obtain ⟨rfl, rfl⟩ := Prod.mk.inj (heq.symm.trans htrans)
    dsimp only at hhi
    rw [h.next]
    exact carriesByte_txBytes h.ring h.unack _ _ _ hn hlo (by omega) _

theorem retransmitSegment_txSent (arch : Arch) (now : Nat) (c : TcpConnection) :
    (retransmitSegment arch now c 0).1.txSent = c.txSent := by
  rcases retransmitSegment_cases arch now c with ⟨heq, -⟩ | ⟨-, -, heq⟩ | ⟨-, -, heq⟩
  · rw [heq]
  · rw [heq]
    cases arch with
    | x86 =>
      have := wakeWaiter_txHalf { c with state := .closed }
      exact congrArg TxHalf.txSent this
    | aarch64 => rfl
  · rw [heq]

theorem pollConn_txSent (arch : Arch) (now : Nat) (c : TcpConnection) : (pollConn arch now c).1.txSent = c.txSent := by
  unfold pollConn
  split
  · split
    · exact retransmitSegment_txSent arch now _
    · rfl
  · rfl

theorem Sends.processAck_carries (h : Sends base A a c) {ack : BitVec 32} {win : Nat}
    (hack : (ack - c.sendUnack).toNat ≤ c.txSent ∨ c.txCount < (ack - c.sendUnack).toNat)
    (hs : Tcp.processAck arch now c ack win = some (c', out)) {k : Nat} (hlo : a + c.txSent ≤ k)
    (hhi : k < a + covered c ack + c'.txSent) : ∃ seg, .send seg ∈ out ∧ CarriesByte base A k seg := by
  have hcap := h.cap
  have hsent := h.sent
  unfold txBufSize at hcap
  rcases processAck_cases (by omega) hs with ⟨hold, n, hdup⟩ | ⟨hpos, hle, srtt, rttvar, rto, r, -, hflush⟩
  · exfalso
    have hzero : covered c ack = 0 := by
      unfold covered
      split <;> omega
    have hsame : c'.txSent = c.txSent := by
      rcases hdup with ⟨rfl, -⟩ | hfast
      · rfl
      · have : (Tcp.fastRetransmit arch now { c with peerWindow := win, dupAckCount := n }).1.txSent = c.txSent := by
          unfold Tcp.fastRetransmit
          dsimp only
          split
          · exact retransmitSegment_txSent arch now _
          · rfl
        rwa [hfast] at this
    omega
  · have hd : (ack - c.sendUnack).toNat ≤ c.txSent := hack.resolve_right (by omega)
    have hcov : covered c ack = (ack - c.sendUnack).toNat := if_pos hd
    have hadv := h.advance hd now win srtt rttvar rto r
    rw [Serial.num_toNat_sub] at hadv
    rw [hcov] at hhi
    refine hadv.flush_carries hflush ?_ hhi
    show a + (ack - c.sendUnack).toNat + (c.txSent - (ack - c.sendUnack).toNat) ≤ k
    omega

theorem send_mem_perform (arch : Arch) (out : List Effect) (seg : Segment) :
    .send seg ∈ perform arch out ↔ .send seg ∈ out := by
  cases arch with
  | x86 => exact Iff.rfl
  | aarch64 =>
    unfold perform
    simp only [List.mem_append, List.mem_filter]
    constructor
    · rintro (((h | h) | h) | h)
      · exact h.1
      · exact h.1
      · exact h.1
      · split at h <;> simp at h
    · exact fun h => .inl (.inl (.inl ⟨h, rfl⟩))

/-! ## Before `close` -/

theorem Sends.txHalf (h : Sends base A a c) (heq : c'.txHalf = c.txHalf) : Sends base A a c' := by
  simp only [TcpConnection.txHalf, TxHalf.mk.injEq] at heq
  obtain ⟨hnext, hunack, hbuf, hhead, hcount, hsent, hsegs, hsegCount, -⟩ := heq
  refine h.congr ⟨?_, hunack, hnext, hcount, hsent, ?_⟩
  · unfold TcpConnection.txRing
    rw [hbuf, hhead, hcount]
  · unfold TcpConnection.segList
    rw [hsegs, hsegCount]

theorem cover_ge (base : BitVec 32) (a : Nat) (next q : BitVec 32) : a ≤ cover base a next q := by
  unfold cover
  split <;> omega

/-- How many bytes the peer has acknowledged after an event, if it had acknowledged `a`. -/
def ConnEvent.covers (base : BitVec 32) (a : Nat) (c : TcpConnection) : ConnEvent → Nat
  | .segment h => if h.has ACK then cover base a c.sendNext h.ackNum else a
  | _ => a

def ConnEvent.accepted (o : Output) : ConnEvent → List Byte
  | .sendData data => data.take o.ret.toNat
  | _ => []

/-- Once an acknowledgement can no longer move the ring, it is for nothing new or for everything in flight. In
`fin_wait_1` and `last_ack` it also is not beyond `send_next`, and in `last_ack` it is for everything. -/
def AckWhole (c : TcpConnection) (ack : BitVec 32) : Prop :=
  let d := (ack - c.sendUnack).toNat
  let n := (c.sendNext - c.sendUnack).toNat
  match c.state with
  | .closeWait => d = 0 ∨ n ≤ d
  | .finWait1 => d = 0 ∨ n ≤ d + 1 ∧ d ≤ n
  | .finWait2 | .timeWait => d = 0 ∨ n ≤ d + 1
  | .lastAck => n ≤ d + 1 ∧ d ≤ n
  | _ => True

/-- What may happen before `close`: the table of segments in flight never overflows, no acknowledgement is beyond
`send_next`, the peer does not reset the connection and the retransmission limit is not reached. -/
def ConnEvent.Before (c : TcpConnection) : ConnEvent → Prop
  | .segment h =>
    (ConnEvent.segment h).Keeps c ∧ h.has RST = false ∧ (h.has ACK = true → AckWhole c h.ackNum) ∧ ¬ GivesUp c
  | .sendData data => (ConnEvent.sendData data).Keeps c
  | .recvData _ => True
  | .poll => ¬ GivesUp c
  | _ => False

/-- A connection that was not closed on this side. It knows of `a₀` acknowledged bytes, which are all while it is
established; after the peer's FIN the rest of what is in flight may have been acknowledged too. -/
structure Speaking (base : BitVec 32) (A : List Byte) (a₀ a : Nat) (c : TcpConnection) (sent : List Effect) :
    Prop where
  sends : Sends base A a₀ c
  inFlight : InFlight c
  state : c.state = .established ∧ a = a₀ ∨ c.state = .closeWait ∧ (a = a₀ ∨ a = a₀ + c.txSent)
  inUse : c.inUse = true
  transmitted : Transmitted base A sent (a₀ + c.txSent)

theorem SameRx.inUse (same : SameRx c c') : c'.inUse = c.inUse := congrArg RxHalf.inUse same.half

theorem drainLoop_inUse (fuel : Nat) (c : TcpConnection) : (drainLoop fuel c).inUse = c.inUse := by
  induction fuel generalizing c with
  | zero => rfl
  | succ fuel ih =>
    unfold drainLoop
    split
    · rfl
    · exact ih _

theorem storeOooSegment_inUse (c : TcpConnection) (seq : BitVec 32) (payload : List Byte) :
    (storeOooSegment c seq payload).inUse = c.inUse := by
  unfold storeOooSegment
  split
  · rfl
  split
  · rfl
  split <;> rfl

theorem receive_inUse (arch : Arch) (c : TcpConnection) (hd : Header) : (receive arch c hd).1.inUse = c.inUse := by
  cases arch with
  | x86 =>
    show (receiveX86 c hd).1.inUse = c.inUse
    unfold receiveX86
    split
    · exact (wakeWaiter_sameRx _).inUse
    · rfl
  | aarch64 =>
    show (receiveAarch64 c hd).1.inUse = c.inUse
    unfold receiveAarch64
    split
    · split
      · exact (wakeWaiter_sameRx _).inUse.trans (drainLoop_inUse _ _)
      split
      · exact storeOooSegment_inUse c _ _
      · rfl
    · rfl

theorem receiveRest_keeps (arch : Arch) (c : TcpConnection) (hd : Header) (acked : List Effect) :
    (receiveRest arch hd (c, acked)).1.txHalf = c.txHalf ∧ (receiveRest arch hd (c, acked)).1.inUse = c.inUse ∧
      ((receiveRest arch hd (c, acked)).1.state = c.state ∨ (receiveRest arch hd (c, acked)).1.state = .closeWait) := by
  have hhalf := receive_txHalf arch c hd
  have huse := receive_inUse arch c hd
  unfold receiveRest receiveFin
  dsimp only
  split
  · exact ⟨(wakeWaiter_txHalf _).trans hhalf, (wakeWaiter_sameRx _).inUse.trans huse, .inr (wakeWaiter_state _)⟩
  · exact ⟨hhalf, huse, .inl (receive_state ..)⟩

theorem Speaking.receiveAck (h : Speaking base A a a c sent) (hstate : c.state = .established) {hd : Header}
    (hok : (ConnEvent.segment hd).Keeps c) (hrst : hd.has RST = false) (hgive : ¬ GivesUp c)
    (hs : receiveAck arch now c hd = some (c', out)) :
    Speaking base A ((ConnEvent.segment hd).covers base a c) ((ConnEvent.segment hd).covers base a c) c'
      (sent ++ out) := by
  unfold Tcp.receiveAck at hs
  simp only [ConnEvent.covers]
  split at hs
  · rename_i hflag
    rw [if_pos hflag, h.sends.cover_eq]
    have hkeep := hok hstate hrst hflag
    have hsent := h.sends.sent
    have hack : (hd.ackNum - c.sendUnack).toNat ≤ c.txSent ∨ c.txCount < (hd.ackNum - c.sendUnack).toNat := by
      by_cases hzero : 0 < (hd.ackNum - c.sendUnack).toNat
      · by_cases hle : (hd.ackNum - c.sendUnack).toNat ≤ c.txCount
        · exact .inl (hkeep hzero hle).1
        · exact .inr (by omega)
      · exact .inl (by omega)
    have hst : c'.state = .established := (processAck_state hgive hs).trans hstate
    have hin : InFlight c' := by
      rcases h.inFlight.processAck hkeep hs with hclosed | hin
      · rw [hst] at hclosed
        cases hclosed
      · exact hin.1
    refine ⟨(h.sends.processAck hack hs).1, hin, .inl ⟨hst, rfl⟩, ?_, h.transmitted.extend fun k hlo hhi => ?_⟩
    · exact (processAck_sameRx hs).inUse.trans h.inUse
    · exact h.sends.processAck_carries hack hs hlo hhi
  · rename_i hflag
    cases hs
    rw [if_neg hflag, List.append_nil]
    exact h

theorem Transmitted.perform (h : Transmitted base A (sent ++ out) n) (arch : Arch) :
    Transmitted base A (sent ++ perform arch out) n := by
  intro k hk
  obtain ⟨seg, hmem, hcar⟩ := h k hk
  refine ⟨seg, ?_, hcar⟩
  rw [List.mem_append] at hmem ⊢
  exact hmem.imp_right (send_mem_perform arch out seg).2

theorem Speaking.onEstablished (h : Speaking base A a a c sent) (hstate : c.state = .established) {hd : Header}
    (hok : (ConnEvent.segment hd).Keeps c) (hrst : hd.has RST = false) (hgive : ¬ GivesUp c)
    (hs : onEstablished arch now c hd = some (c', out)) :
    Speaking base A ((ConnEvent.segment hd).covers base a c) ((ConnEvent.segment hd).covers base a c) c'
      (sent ++ perform arch out) := by
  unfold Tcp.onEstablished at hs
  rw [if_neg (by simp [hrst])] at hs
  obtain ⟨⟨c₁, acked⟩, hack, hs⟩ := Option.map_eq_some_iff.1 hs
  have h₁ := h.receiveAck hstate hok hrst hgive hack
  obtain ⟨hhalf, huse, hst⟩ := receiveRest_keeps arch c₁ hd acked
  have hout : out = acked ++ ((receive arch c₁ hd).2 ++ (receiveFin (receive arch c₁ hd).1 hd).2) := by
    rw [← List.append_assoc]
    exact (congrArg Prod.snd hs).symm
  rw [hs] at hhalf huse hst
  have hsent : c'.txSent = c₁.txSent := congrArg TxHalf.txSent hhalf
  refine ⟨h₁.sends.txHalf hhalf, h₁.inFlight.congr hhalf, ?_, huse.trans h₁.inUse, ?_⟩
  · rcases h₁.state with ⟨hst₁, -⟩ | ⟨hst₁, -⟩
    · exact hst.imp (fun hst => ⟨hst.trans hst₁, rfl⟩) fun hst => ⟨hst, .inl rfl⟩
    · exact .inr ⟨hst.elim (·.trans hst₁) id, .inl rfl⟩
  · rw [hsent]
    refine Transmitted.perform ?_ arch
    rw [hout, ← List.append_assoc]
    have := h₁.transmitted.more [] ((receive arch c₁ hd).2 ++ (receiveFin (receive arch c₁ hd).1 hd).2)
    rwa [List.append_nil] at this

theorem Speaking.cover_closeWait {a₀ : Nat} (h : Speaking base A a₀ a c sent) (hstate : c.state = .closeWait)
    {ack : BitVec 32} (hwhole : AckWhole c ack) :
    cover base a c.sendNext ack = a₀ ∨ cover base a c.sendNext ack = a₀ + c.txSent := by
  have hcap := h.sends.cap
  have hsent := h.sends.sent
  unfold txBufSize at hcap
  have hdist : (c.sendNext - c.sendUnack).toNat = c.txSent := by
    rw [h.sends.next]
    exact Serial.toNat_num_sub_base (by omega)
  obtain ⟨hest, -⟩ | ⟨-, rfl | rfl⟩ := h.state
  · rw [hstate] at hest
    cases hest
  · simp only [AckWhole, hstate, hdist] at hwhole
    rw [h.sends.cover_eq]
    unfold covered
    split <;> omega
  · have hzero : (c.sendNext - Serial.num base (a₀ + c.txSent)).toNat = 0 := by
      rw [h.sends.next, h.sends.unack, Serial.num_num, BitVec.sub_self]
      rfl
    unfold cover
    rw [hzero]
    split <;> omega

theorem Speaking.segment {a₀ : Nat} (h : Speaking base A a₀ a c sent) {idx : Nat} {hd : Header}
    (hok : (ConnEvent.segment hd).Before c) (hs : onSegment arch now idx c hd = some (c', out)) :
    ∃ a₁, Speaking base A a₁ ((ConnEvent.segment hd).covers base a c) c' (sent ++ perform arch out) := by
  obtain ⟨hkeep, hrst, hwhole, hgive⟩ := hok
  rcases h.state with ⟨hstate, rfl⟩ | ⟨hstate, hknown⟩
  · simp only [Tcp.onSegment, hstate] at hs
    exact ⟨_, h.onEstablished hstate hkeep hrst hgive hs⟩
  · simp only [Tcp.onSegment, hstate] at hs
    obtain ⟨rfl, rfl⟩ := Prod.mk.inj (Option.some.inj hs)
    refine ⟨a₀, h.sends, h.inFlight, .inr ⟨hstate, ?_⟩, h.inUse, ?_⟩
    · simp only [ConnEvent.covers]
      split
      · rename_i hflag
        exact h.cover_closeWait hstate (hwhole hflag)
      · exact hknown
    · refine Transmitted.perform ?_ arch
      rw [List.append_nil]
      exact h.transmitted

theorem sendConn_refused (hstate : c.state ≠ .established) {env : Env} {data : List Byte} {n : Int}
    (hs : sendConn env c data = some (n, c', out)) : n = -1 ∧ c' = c ∧ out = [] := by
  unfold sendConn at hs
  rw [if_pos hstate] at hs
  cases hs
  exact ⟨rfl, rfl, rfl⟩

theorem Sends.sendConn_carries (h : Sends base A a c) {env : Env} {data : List Byte} {n : Int}
    (hs : Tcp.sendConn env c data = some (n, c', out)) {k : Nat} (hlo : a + c.txSent ≤ k) (hhi : k < a + c'.txSent) :
    ∃ seg, .send seg ∈ out ∧ CarriesByte base (A ++ data.take n.toNat) k seg := by
  unfold Tcp.sendConn at hs
  split at hs
  · cases hs
    omega
  split at hs
  · cases hs
    omega
  · obtain ⟨r, hr, hs⟩ := Option.bind_eq_some_iff.1 hs
    cases hs
    exact (h.buffer data).flush_carries hr hlo hhi

theorem Speaking.sendConn {a₀ : Nat} (h : Speaking base A a₀ a c sent) {env : Env} {data : List Byte} {n : Int}
    (hok : (ConnEvent.sendData data).Keeps c) (hs : sendConn env c data = some (n, c', out)) :
    Speaking base (A ++ data.take n.toNat) a₀ a c' (sent ++ out) := by
  by_cases hstate : c.state = .established
  · have hest : c'.state = .established := (sendConn_state hs).trans hstate
    have htracked : Tracked c := ⟨by simp [hstate], fun _ => h.inFlight⟩
    refine ⟨(h.sends.sendConn hs).1, (htracked.sendConn hok hs).inFlight hest, ?_, ?_, ?_⟩
    · rcases h.state with ⟨-, ha⟩ | ⟨hwait, -⟩
      · exact .inl ⟨hest, ha⟩
      · rw [hstate] at hwait
        cases hwait
    · exact (sendConn_sameRx hs).inUse.trans h.inUse
    · have hmore := h.transmitted.more (data.take n.toNat) []
      rw [List.append_nil] at hmore
      exact hmore.extend fun k hlo hhi => h.sends.sendConn_carries hs hlo hhi
  · obtain ⟨rfl, rfl, rfl⟩ := sendConn_refused hstate hs
    simpa using h

theorem Speaking.poll {a₀ : Nat} (h : Speaking base A a₀ a c sent) (hgive : ¬ GivesUp c) (arch : Arch) (now : Nat) :
    Speaking base A a₀ a (pollConn arch now c).1 (sent ++ (pollConn arch now c).2) := by
  have hstate : (pollConn arch now c).1.state = c.state := pollConn_state hgive
  have hin : InFlight (pollConn arch now c).1 := by
    rcases h.inFlight.poll arch now with hclosed | hin
    · rw [hstate] at hclosed
      rcases h.state with ⟨hst, -⟩ | ⟨hst, -⟩ <;> simp [hst] at hclosed
    · exact hin.1
  refine ⟨(h.sends.poll arch now).1, hin, ?_, (pollConn_sameRx ..).inUse.trans h.inUse, ?_⟩
  · rw [hstate, pollConn_txSent]
    exact h.state
  · rw [pollConn_txSent]
    have := h.transmitted.more [] (pollConn arch now c).2
    rwa [List.append_nil] at this

theorem recvConn_txHalf (c : TcpConnection) (len : Nat) : (recvConn c len).2.2.txHalf = c.txHalf := by
  unfold recvConn
  split
  · split <;> rfl
  · rfl

theorem recvConn_inUse (c : TcpConnection) (len : Nat) : (recvConn c len).2.2.inUse = c.inUse := by
  unfold recvConn
  split
  · split <;> rfl
  · rfl

theorem Speaking.step {a₀ : Nat} (h : Speaking base A a₀ a c sent) {env : Env} {idx : Nat} {e : ConnEvent} {o : Output}
    (hok : e.Before c) (hs : connStep arch env idx c e = some (c', o)) :
    ∃ a₁, Speaking base (A ++ e.accepted o) a₁ (e.covers base a c) c' (sent ++ o.effects) := by
  cases e with
  | segment hd =>
    obtain ⟨⟨c₁, out⟩, hr, hs⟩ := Option.map_eq_some_iff.1 hs
    cases hs
    rw [show ConnEvent.accepted _ (.segment hd) = [] from rfl, List.append_nil]
    exact h.segment hok hr
  | sendData data =>
    obtain ⟨⟨n, c₁, out⟩, hr, hs⟩ := Option.map_eq_some_iff.1 hs
    cases hs
    exact ⟨a₀, h.sendConn hok hr⟩
  | recvData len =>
    cases hs
    have hhalf := recvConn_txHalf c len
    have hsent : (recvConn c len).2.2.txSent = c.txSent := congrArg TxHalf.txSent hhalf
    have hspeak : Speaking base A a₀ a (recvConn c len).2.2 sent :=
      ⟨h.sends.txHalf hhalf, h.inFlight.congr hhalf, by rw [recvConn_state, hsent]; exact h.state,
        (recvConn_inUse c len).trans h.inUse, by rw [hsent]; exact h.transmitted⟩
    exact ⟨a₀, by simpa [ConnEvent.accepted, ConnEvent.covers] using hspeak⟩
  | poll =>
    cases hs
    rw [show ConnEvent.accepted _ .poll = [] from rfl, List.append_nil]
    exact ⟨a₀, h.poll hok arch env.ticks⟩
  | connect dstIp dstPort => exact hok.elim
  | close => exact hok.elim
  | free => exact hok.elim

/-! ## After `close` -/

/-- Bytes from `a` on are not acknowledged. The ring still holds them, the table of segments in flight is exact and the
timer runs. -/
structure Outstanding (base : BitVec 32) (A : List Byte) (a : Nat) (c : TcpConnection) : Prop where
  more : a < A.length
  inUse : c.inUse = true
  state : c.state = .finWait1 ∨ c.state = .finWait2 ∨ c.state = .timeWait ∨ c.state = .lastAck
  ring : c.txRing = A.drop a
  unack : c.sendUnack = Serial.num base a
  next : c.sendNext = Serial.num c.sendUnack (A.length - a + 1)
  cap : c.txCount ≤ txBufSize
  tiled : Tiled c.sendUnack 0 c.segList c.txCount
  timer : c.rtoDeadline ≠ 0
  rto : 0 < c.rto

/-- A connection closed on this side with `fin`. -/
structure Closing (base : BitVec 32) (A : List Byte) (a : Nat) (c : TcpConnection) (sent : List Effect)
    (fin : Segment) : Prop where
  fin : fin.seq = Serial.num base A.length
  transmitted : Transmitted base A sent A.length
  pending : A.length ≤ a ∨ Outstanding base A a c

theorem Outstanding.txCount (h : Outstanding base A a c) : c.txCount = A.length - a := by
  have := congrArg List.length h.ring
  rwa [length_txRing, List.length_drop] at this

theorem Outstanding.congr (h : Outstanding base A a c) (hhalf : c'.txHalf = c.txHalf) (huse : c'.inUse = c.inUse)
    (hstate : c'.state = .finWait1 ∨ c'.state = .finWait2 ∨ c'.state = .timeWait ∨ c'.state = .lastAck) :
    Outstanding base A a c' := by
  simp only [TcpConnection.txHalf, TxHalf.mk.injEq] at hhalf
  obtain ⟨hnext, hunack, hbuf, hhead, hcount, hsent, hsegs, hsegCount, hrto, hdeadline⟩ := hhalf
  refine ⟨h.more, huse.trans h.inUse, hstate, ?_, hunack.trans h.unack, ?_, hcount ▸ h.cap, ?_, ?_, ?_⟩
  · rw [← h.ring]
    unfold TcpConnection.txRing
    rw [hbuf, hhead, hcount]
  · rw [hnext, hunack]
    exact h.next
  · unfold TcpConnection.segList
    rw [hunack, hsegs, hsegCount, hcount]
    exact h.tiled
  · rw [hdeadline]
    exact h.timer
  · rw [hrto]
    exact h.rto

theorem Outstanding.first (h : Outstanding base A a c) :
    0 < c.txSegCount ∧ (c.txSegs 0).seq = c.sendUnack ∧ 0 < (c.txSegs 0).len ∧ (c.txSegs 0).len ≤ c.txCount := by
  have hcount : 0 < c.txSegCount := by
    rw [← length_segList, List.length_pos_iff]
    intro hnil
    have htiled := h.tiled
    rw [hnil] at htiled
    have : 0 = c.txCount := htiled
    have := h.more
    have := h.txCount
    omega
  have htiled := h.tiled
  rw [segList_eq_cons hcount] at htiled
  obtain ⟨hseq, hlen, hrest⟩ := htiled
  rw [Serial.num_zero] at hseq
  have := hrest.le
  exact ⟨hcount, hseq, hlen, by omega⟩

theorem Outstanding.retransmit (h : Outstanding base A a c) (hgive : ¬ GivesUp c) (arch : Arch) (now : Nat) :
    Outstanding base A a (retransmitSegment arch now c 0).1 ∧
      ∃ seg, .send seg ∈ (retransmitSegment arch now c 0).2 ∧ CarriesByte base A a seg := by
  obtain ⟨hcount, hseq, hlen, hle⟩ := h.first
  rcases retransmitSegment_cases arch now c with ⟨-, hnone⟩ | ⟨-, hmax, -⟩ | ⟨-, -, heq⟩
  · omega
  · exact absurd ⟨hcount, hmax⟩ hgive
  · have hoff : ((c.txSegs 0).seq - c.sendUnack).toNat % 2 ^ 16 = 0 := by
      rw [hseq, BitVec.sub_self]
      rfl
    have hrto := h.rto
    have hpos : 0 < min (c.rto * 2) maxRto := by
      unfold maxRto
      omega
    rw [heq, hoff]
    refine ⟨⟨h.more, h.inUse, h.state, h.ring, h.unack, h.next, h.cap, h.tiled.congr (map_seq_len_update ..), ?_,
      hpos⟩, ?_⟩
    · dsimp only
      omega
    · rw [hseq]
      have := carriesByte_txBytes h.ring h.unack 0 (c.txSegs 0).len a (by omega) (by omega) (by omega) (PSH ||| ACK)
      rwa [Serial.num_zero] at this

theorem Outstanding.poll (h : Outstanding base A a c) (hgive : ¬ GivesUp c) (arch : Arch) (now : Nat) :
    Outstanding base A a (pollConn arch now c).1 ∧
      (c.rtoDeadline ≤ now → ∃ seg, .send seg ∈ (pollConn arch now c).2 ∧ CarriesByte base A a seg) := by
  unfold pollConn
  by_cases hdue : c.rtoDeadline ≤ now
  · rw [if_pos ⟨h.inUse, h.timer, hdue⟩, if_pos h.first.1]
    have hcut : Outstanding base A a { c with ssthresh := max (c.cwnd / 2) (mss * 2), cwnd := mss } :=
      h.congr rfl rfl h.state
    have hnext := hcut.retransmit hgive arch now
    exact ⟨hnext.1, fun _ => hnext.2⟩
  · rw [if_neg fun hcond => hdue hcond.2.2]
    exact ⟨h, fun hcon => absurd hcon hdue⟩

theorem Outstanding.dist (h : Outstanding base A a c) : (c.sendNext - c.sendUnack).toNat = A.length - a + 1 := by
  have hcap := h.cap
  have hcount := h.txCount
  unfold txBufSize at hcap
  rw [h.next]
  exact Serial.toNat_num_sub_base (by omega)

theorem Outstanding.cover (h : Outstanding base A a c) {ack : BitVec 32}
    (hwhole : (ack - c.sendUnack).toNat = 0 ∨ (c.sendNext - c.sendUnack).toNat ≤ (ack - c.sendUnack).toNat + 1) :
    A.length ≤ cover base a c.sendNext ack ∨ cover base a c.sendNext ack = a := by
  have hdist := h.dist
  have hmore := h.more
  unfold Tcp.cover
  rw [← h.unack]
  split <;> omega

theorem Outstanding.onFinWait1 (h : Outstanding base A a c) (hstate : c.state = .finWait1) {hd : Header}
    (hwhole : hd.has ACK = true → AckWhole c hd.ackNum) :
    A.length ≤ (ConnEvent.segment hd).covers base a c ∨
      Outstanding base A ((ConnEvent.segment hd).covers base a c) (onFinWait1 c hd).1 := by
  simp only [ConnEvent.covers]
  unfold Tcp.onFinWait1
  split
  · rename_i hflag
    have hack := hwhole hflag
    simp only [AckWhole, hstate] at hack
    rcases h.cover (hack.imp_right (·.1)) with hall | hsame
    · exact .inl hall
    -- nothing new: `send_unack` is set to what it was
    have hdist := h.dist
    have hmore := h.more
    have hzero : (hd.ackNum - c.sendUnack).toNat = 0 := by
      unfold Tcp.cover at hsame
      rw [← h.unack] at hsame
      split at hsame <;> omega
    have hunack : hd.ackNum = c.sendUnack := by
      have := Serial.num_toNat_sub c.sendUnack hd.ackNum
      rwa [hzero, Serial.num_zero, eq_comm] at this
    right
    rw [hsame, hunack]
    dsimp only
    split
    · exact h.congr (wakeWaiter_txHalf _) (wakeWaiter_sameRx _).inUse (.inr (.inr (.inl (wakeWaiter_state _))))
    · exact h.congr rfl rfl (.inr (.inl rfl))
  · exact .inr h

theorem Outstanding.onSegment (h : Outstanding base A a c) {idx : Nat} {hd : Header}
    (hwhole : hd.has ACK = true → AckWhole c hd.ackNum) (hs : onSegment arch now idx c hd = some (c', out)) :
    A.length ≤ (ConnEvent.segment hd).covers base a c ∨
      Outstanding base A ((ConnEvent.segment hd).covers base a c) c' := by
  have hcovers : (∀ d n, AckWhole c hd.ackNum → d = (hd.ackNum - c.sendUnack).toNat →
      n = (c.sendNext - c.sendUnack).toNat → d = 0 ∨ n ≤ d + 1) →
      A.length ≤ (ConnEvent.segment hd).covers base a c ∨ (ConnEvent.segment hd).covers base a c = a := by
    intro hle
    simp only [ConnEvent.covers]
    split
    · rename_i hflag
      exact h.cover (hle _ _ (hwhole hflag) rfl rfl)
    · exact .inr rfl
  rcases h.state with hstate | hstate | hstate | hstate
  · simp only [Tcp.onSegment, hstate] at hs
    have := h.onFinWait1 hstate hwhole
    rwa [Option.some.inj hs] at this
  · simp only [Tcp.onSegment, hstate] at hs
    refine (hcovers fun d n hack hd hn => ?_).imp_right fun hsame => ?_
    · simp only [AckWhole, hstate] at hack
      omega
    · have hnext : Outstanding base A a (onFinWait2 c hd).1 := by
        unfold onFinWait2
        split
        · exact h.congr (wakeWaiter_txHalf _) (wakeWaiter_sameRx _).inUse (.inr (.inr (.inl (wakeWaiter_state _))))
        · exact h
      rw [hsame]
      rwa [Option.some.inj hs] at hnext
  · simp only [Tcp.onSegment, hstate] at hs
    refine (hcovers fun d n hack hd hn => ?_).imp_right fun hsame => ?_
    · simp only [AckWhole, hstate] at hack
      omega
    · cases hs
      rwa [hsame]
  · simp only [Tcp.onSegment, hstate] at hs
    by_cases hflag : hd.has ACK = true
    · have hack := hwhole hflag
      simp only [AckWhole, hstate] at hack
      have hdist := h.dist
      left
      simp only [ConnEvent.covers]
      rw [if_pos hflag]
      unfold Tcp.cover
      rw [← h.unack, if_pos hack.2]
      omega
    · unfold onLastAck at hs
      rw [if_neg hflag] at hs
      cases hs
      right
      simp only [ConnEvent.covers]
      rwa [if_neg hflag]

/-- What may happen after `close`. -/
def ConnEvent.After (c : TcpConnection) : ConnEvent → Prop
  | .segment h => h.has ACK = true → AckWhole c h.ackNum
  | .sendData _ => True
  | .recvData _ => True
  | .poll => ¬ GivesUp c
  | _ => False

theorem ConnEvent.covers_ge (base : BitVec 32) (a : Nat) (c : TcpConnection) (e : ConnEvent) :
    a ≤ e.covers base a c := by
  cases e with
  | segment h =>
    simp only [ConnEvent.covers]
    split
    · exact cover_ge ..
    · exact le_rfl
  | _ => exact le_rfl

theorem Outstanding.step (h : Outstanding base A a c) {env : Env} {idx : Nat} {e : ConnEvent} {o : Output}
    (hok : e.After c) (hs : connStep arch env idx c e = some (c', o)) :
    A.length ≤ e.covers base a c ∨ Outstanding base A (e.covers base a c) c' := by
  cases e with
  | segment hd =>
    obtain ⟨⟨c₁, out⟩, hr, hs⟩ := Option.map_eq_some_iff.1 hs
    cases hs
    exact h.onSegment hok hr
  | sendData data =>
    obtain ⟨⟨n, c₁, out⟩, hr, hs⟩ := Option.map_eq_some_iff.1 hs
    cases hs
    have hstate : c.state ≠ .established := by
      rcases h.state with hst | hst | hst | hst <;> simp [hst]
    obtain ⟨-, rfl, -⟩ := sendConn_refused hstate hr
    exact .inr h
  | recvData len =>
    cases hs
    exact .inr (h.congr (recvConn_txHalf c len) (recvConn_inUse c len) (recvConn_state c len ▸ h.state))
  | poll =>
    cases hs
    exact .inr (h.poll hok arch env.ticks).1
  | connect dstIp dstPort => exact hok.elim
  | close => exact hok.elim
  | free => exact hok.elim

/-- Nothing is unsent, so that the FIN stands behind everything. -/
def AllSent (c : TcpConnection) : Prop := c.txSent = c.txCount

theorem closeConn_eq {fin : Segment} (hs : closeConn c = (c', [.send fin])) :
    ∃ st, (st = .finWait1 ∨ st = .lastAck) ∧ c' = { c with sendNext := c.sendNext + 1, state := st } ∧
      fin.seq = c.sendNext := by
  unfold closeConn at hs
  split at hs
  · obtain ⟨rfl, hfin⟩ := Prod.mk.inj hs
    obtain rfl := Effect.send.inj (List.cons.inj hfin).1
    exact ⟨.finWait1, .inl rfl, rfl, rfl⟩
  · obtain ⟨rfl, hfin⟩ := Prod.mk.inj hs
    obtain rfl := Effect.send.inj (List.cons.inj hfin).1
    exact ⟨.lastAck, .inr rfl, rfl, rfl⟩
  · cases (Prod.mk.inj hs).2

theorem Speaking.close {a₀ : Nat} (h : Speaking base A a₀ a c sent) (hsent : AllSent c) {fin : Segment}
    (hs : closeConn c = (c', [.send fin])) : Closing base A a c' (sent ++ [.send fin]) fin := by
  obtain ⟨st, hst, rfl, hfin⟩ := closeConn_eq hs
  have hlen := h.sends.length
  have hle := h.sends.acked
  unfold AllSent at hsent
  have hall : a₀ + c.txSent = A.length := by omega
  refine ⟨?_, ?_, ?_⟩
  · rw [hfin, h.sends.next, h.sends.unack, Serial.num_num, hall]
  · have := h.transmitted.more [] [.send fin]
    rwa [List.append_nil, hall] at this
  · have hknown : a = a₀ ∨ A.length ≤ a := by
      rcases h.state with ⟨-, ha⟩ | ⟨-, ha | ha⟩ <;> omega
    rcases hknown with rfl | hdone
    · by_cases hmore : a < A.length
      · refine .inr ⟨hmore, h.inUse, ?_, h.sends.ring, h.sends.unack, ?_, h.sends.cap, ?_, ?_, h.inFlight.rto⟩
        · rcases hst with rfl | rfl
          · exact .inl rfl
          · exact .inr (.inr (.inr rfl))
        · show c.sendNext + 1 = Serial.num c.sendUnack (A.length - a + 1)
          rw [Serial.num_add, h.sends.next, show A.length - a = c.txSent by omega]
          rfl
        · show Tiled c.sendUnack 0 c.segList c.txCount
          rw [← hsent]
          exact h.inFlight.tiled
        · exact h.inFlight.timer (by omega)
      · exact .inl (by omega)
    · exact .inl hdone

end

/-! ## Stories -/

/-- What happens to a connection from its handshake on: the events before `close`, `close` with the FIN it sends, and
what follows while the slot is in use. With the connection go the bytes accepted so far, how many of them the peer has
acknowledged, and everything sent. -/
inductive Story (arch : Arch) (idx : Nat) (base : BitVec 32) (before : TcpConnection → ConnEvent → Prop)
    (atClose : TcpConnection → Prop) (after : TcpConnection → ConnEvent → Prop) :
    TcpConnection → List Byte → Nat → List Effect → Option Segment → Prop
  | start {c} : Idle c → c.sendUnack = base → c.inUse = true → Story arch idx base before atClose after c [] 0 [] none
  | before {env c c' A a sent e o} : Story arch idx base before atClose after c A a sent none → before c e →
      connStep arch env idx c e = some (c', o) →
      Story arch idx base before atClose after c' (A ++ e.accepted o) (e.covers base a c) (sent ++ o.effects) none
  | close {c c' A a sent fin} : Story arch idx base before atClose after c A a sent none → atClose c →
      closeConn c = (c', [.send fin]) →
      Story arch idx base before atClose after c' A a (sent ++ [.send fin]) (some fin)
  | after {env c c' A a sent fin e o} : Story arch idx base before atClose after c A a sent (some fin) →
      c.inUse = true → after c e → connStep arch env idx c e = some (c', o) →
      Story arch idx base before atClose after c' A (e.covers base a c) (sent ++ o.effects) (some fin)

/-- After `close`: the FIN has the number behind the last accepted byte, every accepted byte was sent, the slot is not
released before the peer has acknowledged them all, and until then the retransmission timer runs and sends the first
byte that it has not acknowledged. -/
structure Graceful (arch : Arch) (base : BitVec 32) (A : List Byte) (a : Nat) (c : TcpConnection) (sent : List Effect)
    (fin : Segment) : Prop where
  fin : fin.seq = Serial.num base A.length
  transmitted : Transmitted base A sent A.length
  kept : c.inUse = false → A.length ≤ a
  again : a < A.length → c.rtoDeadline ≠ 0 ∧
    ∀ now, c.rtoDeadline ≤ now → ¬ GivesUp c →
      ∃ seg, .send seg ∈ (pollConn arch now c).2 ∧ CarriesByte base A a seg

section
variable {arch : Arch} {idx : Nat} {base : BitVec 32} {A : List Byte} {a : Nat} {c : TcpConnection}
  {sent : List Effect} {fin : Segment}

theorem Closing.graceful (h : Closing base A a c sent fin) : Graceful arch base A a c sent fin where
  fin := h.fin
  transmitted := h.transmitted
  kept hfree := by
    rcases h.pending with hdone | hout
    · exact hdone
    · rw [hout.inUse] at hfree
      cases hfree
  again hmore := by
    rcases h.pending with hdone | hout
    · omega
    · exact ⟨hout.timer, fun now hdue hgive => (hout.poll hgive arch now).2 hdue⟩

theorem Idle.speaking (h : Idle c) (huse : c.inUse = true) : Speaking c.sendUnack [] 0 0 c [] where
  sends := Ready.sends ⟨h.state, rfl, h.next, h.txCount, h.txSent, h.txSegCount⟩
  inFlight := h.tracked.inFlight h.state
  state := .inl ⟨h.state, rfl⟩
  inUse := huse
  transmitted := by
    rw [h.txSent]
    exact nofun

theorem Story.invariant {f : Option Segment}
    (story : Story arch idx base (fun c e => e.Before c) AllSent (fun c e => e.After c) c A a sent f) :
    (f = none → ∃ a₀, Speaking base A a₀ a c sent) ∧ ∀ fin, f = some fin → Closing base A a c sent fin := by
  induction story with
  | start hidle hbase huse =>
    subst hbase
    exact ⟨fun _ => ⟨0, hidle.speaking huse⟩, nofun⟩
  | before _ hok hs ih =>
    obtain ⟨a₀, h⟩ := ih.1 rfl
    exact ⟨fun _ => h.step hok hs, nofun⟩
  | close _ hall hs ih =>
    obtain ⟨a₀, h⟩ := ih.1 rfl
    refine ⟨nofun, fun fin hfin => ?_⟩
    cases hfin
    exact h.close hall hs
  | @after _ _ _ A _ sent fin e o _ _ hok hs ih =>
    refine ⟨nofun, fun fin hfin => ?_⟩
    cases hfin
    have h := ih.2 fin rfl
    refine ⟨h.fin, ?_, ?_⟩
    · have := h.transmitted.more [] o.effects
      rwa [List.append_nil] at this
    · rcases h.pending with hdone | hout
      · exact .inl (hdone.trans (e.covers_ge ..))
      · exact hout.step hok hs

/-- **Graceful close.** A connection closed when nothing in its ring is unsent, whose later acknowledgements are for
nothing new or for everything in flight, is closed gracefully, whatever else happens before and after `close`: as
long as the table of segments in flight does not overflow before it, and neither a reset nor the retransmission limit
ends the connection. -/
theorem graceful_close
    (story : Story arch idx base (fun c e => e.Before c) AllSent (fun c e => e.After c) c A a sent (some fin)) :
    Graceful arch base A a c sent fin := (story.invariant.2 fin rfl).graceful

section
variable {before after : TcpConnection → ConnEvent → Prop} {atClose : TcpConnection → Prop}

theorem Story.next (story : Story arch idx base before atClose after c A a sent none) (env : Env) (e : ConnEvent)
    (hok : before c e) (hs : (connStep arch env idx c e).isSome) :
    Story arch idx base before atClose after ((connStep arch env idx c e).get hs).1
      (A ++ e.accepted ((connStep arch env idx c e).get hs).2) (e.covers base a c)
      (sent ++ ((connStep arch env idx c e).get hs).2.effects) none :=
  .before story hok (Option.some_get hs).symm

theorem Story.later (story : Story arch idx base before atClose after c A a sent (some fin)) (env : Env) (e : ConnEvent)
    (huse : c.inUse = true) (hok : after c e) (hs : (connStep arch env idx c e).isSome) :
    Story arch idx base before atClose after ((connStep arch env idx c e).get hs).1 A (e.covers base a c)
      (sent ++ ((connStep arch env idx c e).get hs).2.effects) (some fin) :=
  .after story huse hok (Option.some_get hs).symm

end

end

/-- Three bytes, `close`, a timeout, and an acknowledgement of everything. -/
theorem graceful_close_timeout : ∃ c A a sent fin,
    Story .x86 0 0 (fun c e => e.Before c) AllSent (fun c e => e.After c) c A a sent (some fin) ∧
      A = [1, 2, 3] ∧ a = 4 ∧ fin.seq = 3 ∧ Graceful .x86 0 A a c sent fin := by
  have s₀ : Story .x86 0 0 (fun c e => e.Before c) AllSent (fun c e => e.After c) openConn [] 0 [] none :=
    .start openConn_idle rfl rfl
  have s₁ := s₀.next (.atTick 0) (.sendData [1, 2, 3]) (fun _ => .inl (by decide)) (by decide +kernel)
  have s₂ := s₁.close (by unfold AllSent; decide +kernel) rfl
  have s₃ := s₂.later (.atTick 1000) .poll (by decide +kernel) (by unfold ConnEvent.After GivesUp; decide +kernel)
    (by decide +kernel)
  have s₄ := s₃.later (.atTick 1001) (.segment { packetHeader ACK 100 [] with ackNum := 4 }) (by decide +kernel)
    (fun _ => .inr (by decide +kernel)) (by decide +kernel)
  exact ⟨_, _, _, _, _, s₄, by decide +kernel, by decide +kernel, by decide +kernel, graceful_close s₄⟩

def AcksAndPolls (_ : TcpConnection) : ConnEvent → Prop
  | .segment h => h.flags = ACK ∧ h.payload = []
  | .poll => True
  | _ => False

/-- The peer's window has room for one of two bytes, and then the connection is closed: the FIN has the number of the
second byte, which is never sent. -/
theorem close_drops_unsent : ∃ c A a sent fin,
    Story .x86 0 0 OnlySends (fun _ => True) AcksAndPolls c A a sent (some fin) ∧
      A = [1, 2] ∧ fin.seq = 1 ∧ ¬ Graceful .x86 0 A a c sent fin := by
  have s₀ : Story .x86 0 0 OnlySends (fun _ => True) AcksAndPolls { openConn with peerWindow := 1 } [] 0 [] none :=
    .start ⟨rfl, rfl, rfl, rfl, rfl, rfl⟩ rfl rfl
  have s₁ := s₀.next (.atTick 0) (.sendData [1, 2]) trivial (by decide +kernel)
  have s₂ := s₁.close trivial rfl
  have s₃ := s₂.later (.atTick 1) (.segment { packetHeader ACK 100 [] with ackNum := 1 }) (by decide +kernel)
    ⟨rfl, rfl⟩ (by decide +kernel)
  have s₄ := s₃.later (.atTick 1000) .poll (by decide +kernel) trivial (by decide +kernel)
  exact ⟨_, _, _, _, _, s₄, by decide +kernel, by decide +kernel, fun h => absurd h.fin (by decide +kernel)⟩

end Zigix.Tcp
