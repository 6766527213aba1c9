import Zigix.Net.Receive
import Zigix.Net.Send

/-!
# The end of the stream

The peer sends `S` and a FIN numbered behind its last byte.

* `eof_after_stream` : end-of-file is reported, and `recv_next` passes the FIN, only after all of `S`;
* `eof_before_data` : a FIN that overtakes the data ends the stream at once.
-/

namespace Zigix.Tcp

/-- A segment of a peer that sends `S`: data from `S`, no RST, and a FIN only behind the last byte. -/
def PeerSends (S : List Byte) (base : BitVec 32) (h : Header) : Prop :=
  (h.payload ≠ [] → Piece S base h.seqNum h.payload) ∧ h.has RST = false ∧
    (h.has FIN = true → h.seqNum + BitVec.ofNat 32 h.payload.length = Serial.num base S.length)

/-- A FIN in `established` ends at `recv_next`, or starts there with a payload that fits the receive buffer. -/
def FinInOrder (c : TcpConnection) (h : Header) : Prop :=
  c.state = .established → h.has FIN = true →
    h.seqNum + BitVec.ofNat 32 h.payload.length = c.recvNext ∨
      h.seqNum = c.recvNext ∧ h.payload.length ≤ rxBufSize - c.rxCount

def GivesUp (c : TcpConnection) : Prop := 0 < c.txSegCount ∧ maxRetransmits ≤ (c.txSegs 0).retransmits

def ConnEvent.InOrder (S : List Byte) (base : BitVec 32) (c : TcpConnection) : ConnEvent → Prop
  | .segment h => PeerSends S base h ∧ FinInOrder c h ∧ ¬ GivesUp c
  | .poll => ¬ GivesUp c
  | .sendData _ => True
  | .recvData _ => True
  | _ => False

section
variable {S read : List Byte} {base : BitVec 32} {arch : Arch} {now : Nat} {c c' : TcpConnection}
  {out : List Effect}

/-! ## The state of the connection -/

theorem flushSendBuffer_state (hs : flushSendBuffer now c = some (c', out)) : c'.state = c.state := by
  rcases flushSendBuffer_cases hs with ⟨rfl, -⟩ | ⟨n, -, -, -, -, heq⟩
  · rfl
  · obtain ⟨segs, count, q, -, htrans⟩ := transmit_eq now c n
    obtain ⟨rfl, -⟩ := Prod.mk.inj (heq.symm.trans htrans)
    rfl

theorem retransmitSegment_state (h : ¬ GivesUp c) : (retransmitSegment arch now c 0).1.state = c.state := by
  rcases retransmitSegment_cases arch now c with ⟨heq, -⟩ | ⟨hcount, hmax, -⟩ | ⟨-, -, heq⟩
  · rw [heq]
  · exact absurd ⟨hcount, hmax⟩ h
  · rw [heq]

theorem processAck_state (h : ¬ GivesUp c) {ack : BitVec 32} {win : Nat}
    (hs : processAck arch now c ack win = some (c', out)) : c'.state = c.state := by
  unfold processAck at hs
  dsimp only at hs
  split at hs
  · unfold duplicateAck at hs
    split at hs
    · obtain ⟨n, -, hs⟩ := Option.bind_eq_some_iff.1 hs
      dsimp only at hs
      split at hs
      · have hstate : (fastRetransmit arch now { c with peerWindow := win, dupAckCount := n }).1.state = c.state := by
          unfold fastRetransmit
          dsimp only
          split
          · exact retransmitSegment_state h
          · rfl
        rwa [Option.some.inj hs] at hstate
      · cases hs
        rfl
    · cases hs
      rfl
  · unfold newAck at hs
    obtain ⟨c₁, h₁, hs⟩ := Option.bind_eq_some_iff.1 hs
    obtain ⟨c₂, h₂, hs⟩ := Option.bind_eq_some_iff.1 hs
    obtain ⟨srtt, rttvar, rto, m, rfl, -⟩ := sampleRtt_eq h₁
    obtain ⟨r, rfl⟩ := growCwnd_eq h₂
    have hstate := flushSendBuffer_state hs
    exact hstate

theorem pollConn_state (h : ¬ GivesUp c) : (pollConn arch now c).1.state = c.state := by
  unfold pollConn
  split
  · split
    · exact retransmitSegment_state h
    · rfl
  · rfl

theorem sendConn_state {env : Env} {data : List Byte} {n : Int} (hs : sendConn env c data = some (n, c', out)) :
    c'.state = c.state := by
  unfold sendConn at hs
  split at hs
  · cases hs
    rfl
  split at hs
  · cases hs
    rfl
  · obtain ⟨r, hflush, hs⟩ := Option.bind_eq_some_iff.1 hs
    cases hs
    have hstate := flushSendBuffer_state hflush
    exact hstate

/-! ## The receive buffer only grows -/

theorem drainLoop_rxCount (fuel : Nat) (c : TcpConnection) : c.rxCount ≤ (drainLoop fuel c).rxCount := by
  induction fuel generalizing c with
  | zero => exact le_rfl
  | succ fuel ih =>
    unfold drainLoop
    split
    · exact le_rfl
    · exact (Nat.le_add_right ..).trans (ih (takeSlot c _))

theorem wakeWaiter_rxCount (c : TcpConnection) : (wakeWaiter c).1.rxCount = c.rxCount := by
  unfold wakeWaiter
  split <;> rfl

theorem storeOooSegment_rxCount (c : TcpConnection) (seq : BitVec 32) (payload : List Byte) :
    (storeOooSegment c seq payload).rxCount = c.rxCount := by
  unfold storeOooSegment
  split
  · rfl
  split
  · rfl
  split <;> rfl

theorem receive_rxCount (arch : Arch) (c : TcpConnection) (h : Header) :
    c.rxCount ≤ (receive arch c h).1.rxCount ∧
      (h.seqNum = c.recvNext → c.rxCount + fits c h.payload ≤ (receive arch c h).1.rxCount) := by
  have hempty : ¬ 0 < h.payload.length → c.rxCount + fits c h.payload ≤ c.rxCount := by
    intro hlen
    unfold fits
    omega
  cases arch with
  | x86 =>
    show c.rxCount ≤ (receiveX86 c h).1.rxCount ∧ (_ → _ ≤ (receiveX86 c h).1.rxCount)
    unfold receiveX86
    split
    · show c.rxCount ≤ (wakeWaiter _).1.rxCount ∧ (_ → _ ≤ (wakeWaiter _).1.rxCount)
      rw [wakeWaiter_rxCount]
      exact ⟨Nat.le_add_right .., fun _ => le_rfl⟩
    · rename_i hcond
      exact ⟨le_rfl, fun hseq => hempty fun hlen => hcond ⟨hlen, hseq⟩⟩
  | aarch64 =>
    show c.rxCount ≤ (receiveAarch64 c h).1.rxCount ∧ (_ → _ ≤ (receiveAarch64 c h).1.rxCount)
    unfold receiveAarch64
    split
    · split
      · show c.rxCount ≤ (wakeWaiter _).1.rxCount ∧ (_ → _ ≤ (wakeWaiter _).1.rxCount)
        rw [wakeWaiter_rxCount]
        have := drainLoop_rxCount maxOooSegs (deliverPayload c h.payload)
        exact ⟨(Nat.le_add_right ..).trans this, fun _ => this⟩
      · rename_i hseq
        split
        · rw [storeOooSegment_rxCount]
          exact ⟨le_rfl, fun h => absurd h hseq⟩
        · exact ⟨le_rfl, fun h => absurd h hseq⟩
    · rename_i hlen
      exact ⟨le_rfl, fun _ => hempty hlen⟩

/-! ## Complete streams -/

/-- A connection that left `established` only with all of `S` delivered. -/
structure Complete (S : List Byte) (base : BitVec 32) (read : List Byte) (c : TcpConnection) : Prop
    extends Receives S base read c where
  state : c.state = .synReceived ∨ c.state = .established ∨ c.state = .closeWait
  whole : c.state = .closeWait → read ++ c.ring = S

theorem Complete.sameRx (h : Complete S base read c) (same : SameRx c c') (hstate : c'.state = c.state) :
    Complete S base read c' where
  toReceives := h.toReceives.sameRx same
  state := hstate ▸ h.state
  whole hclose := by
    rw [same.fields.1]
    exact h.whole (hstate ▸ hclose)

theorem receiveFin_ring (c : TcpConnection) (hd : Header) : (receiveFin c hd).1.ring = c.ring := by
  unfold receiveFin
  split
  · have hring := (wakeWaiter_sameRx { c with recvNext := c.recvNext + 1, state := .closeWait }).fields.1
    exact hring
  · rfl

theorem Synced.whole (h : Synced S base read c) (hS : S.length < 2 ^ 31) (hstate : c.state = .established)
    (arch : Arch) {hd : Header} (hpeer : PeerSends S base hd) (hfin : FinInOrder c hd) (hflag : hd.has FIN = true) :
    read ++ (Tcp.receive arch c hd).1.ring = S := by
  have hrecv := h.receive hS arch hpeer.1
  refine hrecv.ring.eq_of_length_le ?_
  rw [List.length_append, length_ring]
  have hle : (read ++ c.ring).length ≤ S.length := h.ring.length_le
  rw [List.length_append, length_ring] at hle
  have hend := hpeer.2.2 hflag
  obtain ⟨hmono, hgrow⟩ := receive_rxCount arch c hd
  rcases hfin hstate hflag with hfin | ⟨hseq, hfit⟩
  · have : read.length + c.rxCount = S.length :=
      Serial.num_inj (by omega) (by omega) (h.next.symm.trans (hfin.symm.trans hend))
    omega
  · rw [hseq, h.next, ← Serial.num_add] at hend
    have hcap := h.cap
    unfold rxBufSize at hcap hfit
    have : read.length + c.rxCount + hd.payload.length = S.length :=
      Serial.num_inj (by omega) (by omega) hend
    have := hgrow hseq
    unfold fits rxBufSize at this
    omega

theorem Complete.onEstablished (h : Complete S base read c) (hS : S.length < 2 ^ 31)
    (hstate : c.state = .established) {hd : Header} (hpeer : PeerSends S base hd) (hfin : FinInOrder c hd)
    (hgive : ¬ GivesUp c) (hs : onEstablished arch now c hd = some (c', out)) : Complete S base read c' := by
  have hrecv : Receives S base read c' := h.toReceives.onEstablished hS hstate hpeer.1 hs
  unfold Tcp.onEstablished at hs
  rw [if_neg (by simp [hpeer.2.1])] at hs
  obtain ⟨⟨c₁, acked⟩, hack, hs⟩ := Option.map_eq_some_iff.1 hs
  have hsame := receiveAck_sameRx hack
  have hstate₁ : c₁.state = .established := by
    unfold receiveAck at hack
    split at hack
    · exact (processAck_state hgive hack).trans hstate
    · cases hack
      exact hstate
  obtain ⟨-, hcount, -, hnext⟩ := hsame.fields
  have hsync : Synced S base read c₁ := Synced.sameRx ⟨h.toBuffered, h.next (.inr hstate)⟩ hsame
  have hfin₁ : FinInOrder c₁ hd := fun _ hflag => by
    rw [hnext, hcount]
    exact hfin hstate hflag
  cases hs
  refine ⟨hrecv, ?_, ?_⟩
  · show (receiveFin (receive arch c₁ hd).1 hd).1.state = _ ∨ _
    unfold receiveFin
    split
    · exact .inr (.inr (by simp [wakeAll]))
    · exact .inr (.inl (by simpa using hstate₁))
  · show (receiveFin (receive arch c₁ hd).1 hd).1.state = _ → read ++ (receiveFin (receive arch c₁ hd).1 hd).1.ring = S
    rw [receiveFin_ring]
    intro hclose
    by_cases hflag : hd.has FIN = true
    · exact hsync.whole hS hstate₁ arch hpeer hfin₁ hflag
    · simp [receiveFin, hflag, hstate₁] at hclose

theorem Complete.onSegment (h : Complete S base read c) (hS : S.length < 2 ^ 31) {idx : Nat} {hd : Header}
    (hpeer : PeerSends S base hd) (hfin : FinInOrder c hd) (hgive : ¬ GivesUp c)
    (hs : onSegment arch now idx c hd = some (c', out)) : Complete S base read c' := by
  have hrecv : Receives S base read c' := h.toReceives.onSegment hS hpeer.1 hs
  unfold Tcp.onSegment at hs
  rcases h.state with hstate | hstate | hstate
  · simp only [hstate, onSynReceived, hpeer.2.1] at hs
    split at hs
    · cases hs
      exact ⟨hrecv, .inr (.inl rfl), nofun⟩
    · cases hs
      exact h
  · rw [hstate] at hs
    exact h.onEstablished hS hstate hpeer hfin hgive hs
  · rw [hstate] at hs
    cases hs
    exact h

theorem recvConn_ring (c : TcpConnection) (len : Nat) : (recvConn c len).2.1 ++ (recvConn c len).2.2.ring = c.ring := by
  unfold recvConn
  split
  · split <;> rfl
  · exact rxBytes_append_ring (Nat.min_le_right ..)

theorem recvConn_state (c : TcpConnection) (len : Nat) : (recvConn c len).2.2.state = c.state := by
  unfold recvConn
  split
  · split <;> rfl
  · rfl

theorem Complete.step (h : Complete S base read c) (hS : S.length < 2 ^ 31) {env : Env} {idx : Nat} {e : ConnEvent}
    {o : Output} (he : e.InOrder S base c) (hs : connStep arch env idx c e = some (c', o)) :
    Complete S base (read ++ o.bytes) c' := by
  cases e with
  | segment hd =>
    obtain ⟨⟨c₁, out⟩, hr, hs⟩ := Option.map_eq_some_iff.1 hs
    cases hs
    rw [List.append_nil]
    exact h.onSegment hS he.1 he.2.1 he.2.2 hr
  | sendData data =>
    obtain ⟨⟨n, c₁, out⟩, hr, hs⟩ := Option.map_eq_some_iff.1 hs
    cases hs
    rw [List.append_nil]
    exact h.sameRx (sendConn_sameRx hr) (sendConn_state hr)
  | recvData len =>
    cases hs
    refine ⟨h.toReceives.recv len, (recvConn_state c len).symm ▸ h.state, fun hclose => ?_⟩
    rw [List.append_assoc, recvConn_ring]
    exact h.whole ((recvConn_state c len).symm.trans hclose)
  | poll =>
    cases hs
    rw [List.append_nil]
    exact h.sameRx (pollConn_sameRx arch env.ticks c) (pollConn_state he)
  | connect dstIp dstPort => exact he.elim
  | close => exact he.elim
  | free => exact he.elim

end

/-! ## Runs -/

variable {arch : Arch}

/-- What an event brings to connection `i` is in order. -/
def InOrder (S : List Byte) (base : BitVec 32) (i : Fin (maxTcpConnections arch)) (s : Stack arch)
    (e : Event arch) : Prop :=
  ∀ ce, e.at s i = some ce → ce.InOrder S base (s.connections i)

section
variable {S read : List Byte} {base : BitVec 32} {i : Fin (maxTcpConnections arch)} {s : Stack arch}

theorem run_complete (hS : S.length < 2 ^ 31) (run : Run (Opened base) (InOrder S base i) i s read) :
    (s.connections i).inUse = true ∧ Complete S base read (s.connections i) := by
  refine run.conn (fun c h => ⟨h.inUse, h.receives, h.state.imp_right .inl, fun hclose => ?_⟩)
    fun hok he h ho => h.step hS (hok _ he) ho
  rcases h.state with hs | hs <;> simp [hs] at hclose

theorem Complete.eof {c : TcpConnection} (h : Complete S base read c) {len : Nat} (hlen : 0 < len)
    (heof : (recvConn c len).1 = 0) : read = S := by
  unfold recvConn at heof
  split at heof
  · rename_i hcount
    split at heof
    · have hclose : c.state = .closeWait := by
        rcases h.state with hs | hs | hs <;> simp_all
      have hring : c.ring = [] := List.length_eq_zero_iff.1 (by rw [length_ring, hcount])
      have := h.whole hclose
      rwa [hring, List.append_nil] at this
    · cases heof
  · rename_i hcount
    have hzero : min len c.rxCount = 0 := Int.ofNat_eq_zero.1 heof
    omega

/-- **No early end-of-file.** The peer sends `S` and then a FIN. If every FIN that arrives in `established` is in order
and no retransmission limit is reached, `recv_next` is past the FIN only when all of `S` is delivered, and `recvData`
with room in its buffer returns 0 only when the application has read all of `S`. -/
theorem eof_after_stream (hS : S.length < 2 ^ 31) (run : Run (Opened base) (InOrder S base i) i s read) :
    ((s.connections i).recvNext = Serial.num base (S.length + 1) → read ++ (s.connections i).ring = S) ∧
      ∀ len, 0 < len → (recvData s i len).1 = 0 → read = S := by
  obtain ⟨huse, hc⟩ := run_complete hS run
  refine ⟨fun hpast => ?_, fun len hlen heof => ?_⟩
  · by_cases hclose : (s.connections i).state = .closeWait
    · exact hc.whole hclose
    · have hopen : (s.connections i).state = .synReceived ∨ (s.connections i).state = .established := by
        rcases hc.state with hs | hs | hs
        · exact .inl hs
        · exact .inr hs
        · exact absurd hs hclose
      have hle : (read ++ (s.connections i).ring).length ≤ S.length := hc.ring.length_le
      rw [List.length_append, length_ring] at hle
      have : read.length + (s.connections i).rxCount = S.length + 1 :=
        Serial.num_inj (by omega) (by omega) ((hc.next hopen).symm.trans hpast)
      omega
  · unfold recvData at heof
    rw [if_pos huse] at heof
    exact hc.eof hlen heof

end

/-! ## One byte and a FIN -/

theorem inOrder_of_segment {S : List Byte} {base : BitVec 32} {i : Fin (maxTcpConnections arch)} {s : Stack arch}
    {e : Event arch} {h : Header} (he : e.at s i = some (.segment h)) (hpeer : PeerSends S base h)
    (hfin : FinInOrder (s.connections i) h) (hgive : ¬ GivesUp (s.connections i)) : InOrder S base i s e := by
  intro ce hce
  cases he.symm.trans hce
  exact ⟨hpeer, hfin, hgive⟩

/-- The byte and the FIN in one segment, a read of the byte, and then end-of-file. -/
theorem eof_after_stream_one_byte : ∃ s : Stack .aarch64, ∃ read,
    Run (Opened 100) (InOrder [7] 100 0) 0 s read ∧ (recvData s 0 10).1 = 0 ∧ read = [7] := by
  have r₀ : Run (Opened 100) (InOrder [7] 100 0) 0 (oneConnection .aarch64) [] :=
    .start ⟨rfl, .inr rfl, rfl, rfl, fun _ => rfl⟩
  have r₁ := r₀.next (.atTick 0) (.handleTcp 2 (packet (FIN ||| ACK) 100 [7]))
    (inOrder_of_segment (h := packetHeader (FIN ||| ACK) 100 [7]) (by decide +kernel)
      ⟨fun _ => ⟨[], [], rfl, rfl⟩, by decide, fun _ => by decide⟩ (fun _ _ => .inr ⟨rfl, by decide⟩)
      fun hgive => absurd hgive.1 (by decide +kernel))
    (by decide +kernel) (by decide +kernel)
  have r₂ := r₁.next (.atTick 0) (.recvData 0 10) (fun _ he => by cases he; trivial) (by decide +kernel)
    (by decide +kernel)
  exact ⟨_, _, r₂, by decide +kernel, (eof_after_stream (by decide) r₂).2 10 (by decide) (by decide +kernel)⟩

def PeerAndReads (S : List Byte) (base : BitVec 32) (i : Fin (maxTcpConnections arch)) (s : Stack arch)
    (e : Event arch) : Prop :=
  (∃ h, e.at s i = some (.segment h) ∧ PeerSends S base h) ∨ ∃ len, e = .recvData i len

theorem fin_first (arch : Arch)
    (hat : (Event.handleTcp 2 (packet (FIN ||| ACK) 101 [])).at (oneConnection arch) 0 =
      some (.segment (packetHeader (FIN ||| ACK) 101 [])))
    (hs : (step (.atTick 0) (oneConnection arch) (.handleTcp 2 (packet (FIN ||| ACK) 101 []))).isSome)
    (huse : (((step (.atTick 0) (oneConnection arch) (.handleTcp 2 (packet (FIN ||| ACK) 101 []))).get hs).1.connections
      0).inUse = true) :
    Run (Opened 100) (PeerAndReads [7] 100 0) 0
      ((step (.atTick 0) (oneConnection arch) (.handleTcp 2 (packet (FIN ||| ACK) 101 []))).get hs).1 [] :=
  Run.next (.start ⟨rfl, .inr rfl, rfl, rfl, fun _ => rfl⟩) (.atTick 0) _
    (.inl ⟨_, hat, nofun, by decide, fun _ => by decide⟩) hs huse

/-- The FIN behind byte 100 overtakes it: end-of-file is reported with nothing read, on both stacks. -/
theorem eof_before_data :
    (∃ s : Stack .x86, Run (Opened 100) (PeerAndReads [7] 100 0) 0 s [] ∧ (recvData s 0 10).1 = 0) ∧
      ∃ s : Stack .aarch64, Run (Opened 100) (PeerAndReads [7] 100 0) 0 s [] ∧ (recvData s 0 10).1 = 0 :=
  ⟨⟨_, fin_first .x86 (by decide +kernel) (by decide +kernel) (by decide +kernel), by decide +kernel⟩,
    ⟨_, fin_first .aarch64 (by decide +kernel) (by decide +kernel) (by decide +kernel), by decide +kernel⟩⟩

end Zigix.Tcp
