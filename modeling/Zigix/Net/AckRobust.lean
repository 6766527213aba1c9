import Zigix.Net.InFlight
import Zigix.Net.Sender
import Zigix.Net.RttEstimate

/-!
# Acknowledgements of any kind

* `acks_robust` : the ring counters and the sequence numbers agree after every step, and an acknowledgement beyond `send_next`
  changes the peer's window only;
* `ack_of_unsent` : an acknowledgement of a buffered byte that was not sent.
-/

namespace Zigix.Tcp

structure Bounded (c : TcpConnection) : Prop where
  cwnd_pos : 0 < c.cwnd
  cwnd_le : c.cwnd ≤ 2 ^ 23
  ssthresh_le : c.ssthresh ≤ 2 ^ 22
  dup : c.dupAckCount < 2 ^ 8
  sampled : Sampled c.srtt c.rttvar
  count : c.txSegCount ≤ maxTxSegs
  retransmits : ∀ s ∈ c.segList, s.retransmits ≤ maxRetransmits

structure Consistent (c : TcpConnection) : Prop where
  sent : c.txSent ≤ c.txCount
  cap : c.txCount ≤ txBufSize
  flight : (c.sendNext - c.sendUnack).toNat = c.txSent
  bounded : Bounded c

/-- A round-trip sample is taken from this acknowledgement. -/
def Samples (c : TcpConnection) (ackNum : BitVec 32) : Prop :=
  c.rttMeasured = false ∧ 0 < (ackNum - c.rttSeq).toNat ∧ (c.txSegs 0).retransmits = 0

def SendEvent.Fits (env : Env) (c : TcpConnection) : SendEvent → Prop
  | .ack ackNum _ =>
    (0 < (ackNum - c.sendUnack).toNat → (ackNum - c.sendUnack).toNat ≤ c.txCount →
      (ackNum - c.sendUnack).toNat ≤ c.txSent ∧
        (Samples c ackNum → (env.ticks - (c.rtoDeadline - c.rto)) % 2 ^ 32 ≤ 2 ^ 24)) ∧
    (ackNum = c.sendUnack → 0 < c.txSent → c.dupAckCount < 255)
  | _ => True

section
variable {arch : Arch} {now win n : Nat} {c c' : TcpConnection} {ack : BitVec 32} {out : List Effect}

/-! ## What keeps the bounds -/

theorem retransmits_trimList {rem : Nat} {ss : List TxSegment} {s : TxSegment} (h : s ∈ trimList rem ss) :
    ∃ t ∈ ss, s.retransmits = t.retransmits := by
  induction ss generalizing rem with
  | nil => cases h
  | cons t ss ih =>
    rw [trimList] at h
    split at h
    · obtain ⟨u, hu, heq⟩ := ih h
      exact ⟨u, List.mem_cons_of_mem _ hu, heq⟩
    · rcases List.mem_cons.1 h with rfl | h
      · exact ⟨t, List.mem_cons_self, rfl⟩
      · exact ⟨s, List.mem_cons_of_mem _ h, rfl⟩

theorem Bounded.flush (h : Bounded c) (hs : flushSendBuffer now c = some (c', out)) : Bounded c' := by
  rcases flushSendBuffer_cases hs with ⟨rfl, -⟩ | ⟨n, -, -, -, -, heq⟩
  · exact h
  obtain ⟨segs, count, q, hlist, htransmit⟩ := transmit_eq now c n
  rw [htransmit] at heq
  obtain ⟨rfl, -⟩ := Prod.mk.inj heq
  have hlen := congrArg List.length hlist
  rw [List.length_map, List.length_range] at hlen
  refine ⟨h.cwnd_pos, h.cwnd_le, h.ssthresh_le, h.dup, h.sampled, ?_,
    fun s hs => ?_⟩
  · have := h.count
    show count ≤ maxTxSegs
    rw [hlen, recorded]
    split
    · rw [List.length_append, length_segList, List.length_singleton]
      omega
    · rwa [length_segList]
  · change s ∈ (List.range count).map segs at hs
    rw [hlist, recorded] at hs
    split at hs
    · rcases List.mem_append.1 hs with hs | hs
      · exact h.retransmits s hs
      · rw [List.mem_singleton.1 hs]
        exact Nat.zero_le _
    · exact h.retransmits s hs

theorem flushSendBuffer_returns (hsent : c.txSent ≤ c.txCount) (now : Nat) :
    ∃ c' out, flushSendBuffer now c = some (c', out) := by
  have hlen : ∃ n, flushLen c = some n := by
    unfold flushLen
    split
    · exact ⟨_, rfl⟩
    · rw [if_neg (by omega)]
      exact ⟨_, rfl⟩
  obtain ⟨n, hn⟩ := hlen
  unfold flushSendBuffer
  rw [hn, Option.bind_eq_bind, Option.bind_some]
  split <;> exact ⟨_, _, rfl⟩

theorem sendConn_cases (env : Env) {data : List Byte} (hsent : (bufferData c data).2.txSent ≤ (bufferData c data).2.txCount) :
    (∃ n, sendConn env c data = some (n, c, [])) ∨ ∃ n c' out,
      flushSendBuffer env.ticks (bufferData c data).2 = some (c', out) ∧ sendConn env c data = some (n, c', out) := by
  unfold sendConn
  split
  · exact .inl ⟨_, rfl⟩
  split
  · exact .inl ⟨_, rfl⟩
  · obtain ⟨c', out, hflush⟩ := flushSendBuffer_returns hsent env.ticks
    rw [hflush]
    exact .inr ⟨_, c', out, rfl, rfl⟩

theorem Bounded.wakeWaiter (h : Bounded c) : Bounded (wakeWaiter c).1 := by
  unfold Tcp.wakeWaiter
  split
  · exact ⟨h.cwnd_pos, h.cwnd_le, h.ssthresh_le, h.dup, h.sampled, h.count,
      h.retransmits⟩
  · exact h

theorem Bounded.retransmit (h : Bounded c) (arch : Arch) (now : Nat) : Bounded (retransmitSegment arch now c 0).1 := by
  rcases retransmitSegment_cases arch now c with ⟨heq, -⟩ | ⟨-, -, heq⟩ | ⟨hcount, hlt, heq⟩
  · rw [heq]
    exact h
  · rw [heq]
    have hclosed : Bounded { c with state := .closed } :=
      ⟨h.cwnd_pos, h.cwnd_le, h.ssthresh_le, h.dup, h.sampled, h.count,
        h.retransmits⟩
    cases arch with
    | x86 => exact hclosed.wakeWaiter
    | aarch64 => exact hclosed
  · rw [heq]
    refine ⟨h.cwnd_pos, h.cwnd_le, h.ssthresh_le, h.dup, h.sampled, h.count,
      fun s hs => ?_⟩
    obtain ⟨i, hi, rfl⟩ := List.mem_map.1 hs
    dsimp only
    by_cases hzero : i = 0
    · subst hzero
      rw [Function.update_self]
      exact hlt
    · rw [Function.update_of_ne hzero]
      exact h.retransmits _ (List.mem_map.2 ⟨i, hi, rfl⟩)

theorem Bounded.fastRetransmit (h : Bounded c) (arch : Arch) (now : Nat) : Bounded (fastRetransmit arch now c).1 := by
  have hcwnd := h.cwnd_le
  have hwindow : Bounded { c with
      ssthresh := max (c.cwnd / 2) (mss * 2), cwnd := max (c.cwnd / 2) (mss * 2) + 3 * mss, inRecovery := true } := by
    refine ⟨?_, ?_, ?_, h.dup, h.sampled, h.count, h.retransmits⟩ <;>
      dsimp only [mss] <;> omega
  unfold Tcp.fastRetransmit
  dsimp only
  split
  · exact hwindow.retransmit arch now
  · exact hwindow

theorem Bounded.poll (h : Bounded c) (arch : Arch) (now : Nat) : Bounded (pollConn arch now c).1 := by
  have hcwnd := h.cwnd_le
  unfold pollConn
  split
  · split
    · refine Bounded.retransmit ?_ arch now
      refine ⟨?_, ?_, ?_, h.dup, h.sampled, h.count, h.retransmits⟩ <;>
        dsimp only [mss] <;> omega
    · exact ⟨h.cwnd_pos, h.cwnd_le, h.ssthresh_le, h.dup, h.sampled, h.count,
        h.retransmits⟩
  · exact h

/-! ## New data acknowledged -/

theorem sampleRtt_returns (h : Sampled c.srtt c.rttvar)
    (hrtt : Samples c ack → (now - (c.rtoDeadline - c.rto)) % 2 ^ 32 ≤ 2 ^ 24) :
    ∃ c', sampleRtt now c ack = some c' ∧ Sampled c'.srtt c'.rttvar := by
  unfold sampleRtt
  split
  · next hsamples =>
    obtain ⟨c₁, heq, hsampled, -⟩ := updateRto_spec h (hrtt hsamples)
    rw [heq]
    exact ⟨_, rfl, hsampled⟩
  · exact ⟨c, rfl, h⟩

theorem grownCwnd_le (h : Bounded c) : 0 < grownCwnd c ∧ grownCwnd c ≤ 2 ^ 23 := by
  have hpos := h.cwnd_pos
  have hcwnd := h.cwnd_le
  have hslow := h.ssthresh_le
  unfold grownCwnd mss
  split
  · exact ⟨hpos, hcwnd⟩
  split
  · omega
  · -- the window grows by less than a byte from `mss * mss` on
    refine ⟨Nat.add_pos_left hpos _, ?_⟩
    by_cases hlarge : 1460 * 1460 < c.cwnd
    · rw [Nat.div_eq_of_lt hlarge]
      omega
    · have := Nat.div_le_self (1460 * 1460) c.cwnd
      omega

theorem growCwnd_returns (h : Bounded c) (acked : Nat) : ∃ r, growCwnd c acked = some { c with cwnd := grownCwnd c, inRecovery := r } := by
  have hle := (grownCwnd_le h).2
  have hpos := h.cwnd_pos
  unfold grownCwnd at hle
  unfold growCwnd grownCwnd
  split
  · split
    · exact ⟨_, rfl⟩
    · exact ⟨_, rfl⟩
  · next hrec =>
    rw [if_neg hrec] at hle
    split
    · next hslow =>
      rw [if_pos hslow] at hle
      unfold addU32
      rw [if_pos (by omega)]
      exact ⟨_, rfl⟩
    · next hslow =>
      rw [if_neg hslow] at hle
      rw [if_neg hpos.ne']
      unfold addU32
      rw [if_pos (by omega)]
      exact ⟨_, rfl⟩

theorem Bounded.acknowledged (h : Bounded c) {d rto : Nat} {srtt rttvar : Int} {r : Bool} (hsampled : Sampled srtt rttvar) :
    Bounded (Tcp.acknowledged c ack d now win srtt rttvar rto r) := by
  obtain ⟨hpos, hle⟩ := grownCwnd_le h
  refine ⟨hpos, hle, h.ssthresh_le, Nat.zero_lt_succ _, hsampled, ?_, fun s hs => ?_⟩
  · show (advanceTxBuffer c d).txSegCount ≤ maxTxSegs
    rw [← length_segList, segList_advanceTxBuffer]
    exact (length_trimList_le _ _).trans (by rw [length_segList]; exact h.count)
  · change s ∈ (advanceTxBuffer c d).segList at hs
    rw [segList_advanceTxBuffer] at hs
    obtain ⟨t, ht, heq⟩ := retransmits_trimList hs
    rw [heq]
    exact h.retransmits t ht

/-- **New data acknowledged**, all of which was sent: nothing overflows. -/
theorem Bounded.newAck (h : Bounded c) {d : Nat} (hsent : c.txSent ≤ c.txCount) (hd : d ≤ c.txSent) (hcap : c.txCount < 2 ^ 16)
    (hrtt : Samples c ack → (now - (c.rtoDeadline - c.rto)) % 2 ^ 32 ≤ 2 ^ 24) :
    ∃ c' out, newAck now { c with peerWindow := win } ack d = some (c', out) ∧ Bounded c' := by
  obtain ⟨c₁, hsample, hsampled⟩ : ∃ c', sampleRtt now { c with peerWindow := win, dupAckCount := 0, sendUnack := ack } ack =
      some c' ∧ Sampled c'.srtt c'.rttvar := sampleRtt_returns h.sampled hrtt
  obtain ⟨srtt, rttvar, rto, m, rfl, -⟩ := sampleRtt_eq hsample
  have hadvanced : Bounded (advanceTxBuffer { c with
      peerWindow := win, dupAckCount := 0, sendUnack := ack, srtt := srtt, rttvar := rttvar, rto := rto, rttMeasured := m } d) := by
    have : Bounded (Tcp.acknowledged c ack d now win srtt rttvar rto false) := Bounded.acknowledged h hsampled
    exact ⟨h.cwnd_pos, h.cwnd_le, h.ssthresh_le, Nat.zero_lt_succ _, hsampled, this.count, this.retransmits⟩
  obtain ⟨r, hgrow⟩ := growCwnd_returns hadvanced d
  have hflush := flushSendBuffer_returns (c := Tcp.acknowledged c ack d now win srtt rttvar rto r)
    (show c.txSent - d ≤ c.txCount - d by omega) now
  obtain ⟨c', out, hflush⟩ := hflush
  refine ⟨c', out, ?_, Bounded.flush (Bounded.acknowledged h hsampled) hflush⟩
  unfold Tcp.newAck
  rw [Nat.mod_eq_of_lt (show d < 2 ^ 16 by omega), hsample, Option.bind_eq_bind, Option.bind_some, hgrow, Option.bind_some]
  exact hflush

/-- **An acknowledgement that fits** is processed without an overflow. -/
theorem Bounded.processAck (h : Bounded c) (hsent : c.txSent ≤ c.txCount) (hcap : c.txCount ≤ txBufSize)
    (hnew : 0 < (ack - c.sendUnack).toNat → (ack - c.sendUnack).toNat ≤ c.txCount →
      (ack - c.sendUnack).toNat ≤ c.txSent ∧ (Samples c ack → (now - (c.rtoDeadline - c.rto)) % 2 ^ 32 ≤ 2 ^ 24))
    (hdup : ack = c.sendUnack → 0 < c.txSent → c.dupAckCount < 255) :
    ∃ c' out, processAck arch now c ack win = some (c', out) ∧ Bounded c' := by
  unfold txBufSize at hcap
  unfold Tcp.processAck
  dsimp only
  have hcount : ∀ n, n < 2 ^ 8 → Bounded { c with peerWindow := win, dupAckCount := n } := fun n hn =>
    ⟨h.cwnd_pos, h.cwnd_le, h.ssthresh_le, hn, h.sampled, h.count, h.retransmits⟩
  split
  · unfold duplicateAck
    split
    · next hold =>
      have hlt := hdup hold.1 hold.2
      unfold addU8
      dsimp only
      rw [if_pos (by omega), Option.bind_eq_bind, Option.bind_some]
      split
      · exact ⟨_, _, rfl, (hcount _ (by omega)).fastRetransmit arch now⟩
      · exact ⟨_, _, rfl, hcount _ (by omega)⟩
    · exact ⟨_, _, rfl, hcount _ h.dup⟩
  · next hacked =>
    obtain ⟨hle, hrtt⟩ := hnew (by omega) (by omega)
    exact h.newAck hsent hle (by omega) hrtt

theorem processAck_beyond (hflight : (c.sendNext - c.sendUnack).toNat = c.txSent) (hsent : c.txSent ≤ c.txCount)
    (hcap : c.txCount ≤ txBufSize) (hbeyond : Serial.after ack c.sendNext = true)
    (hnew : 0 < (ack - c.sendUnack).toNat → (ack - c.sendUnack).toNat ≤ c.txCount → (ack - c.sendUnack).toNat ≤ c.txSent) :
    processAck arch now c ack win = some ({ c with peerWindow := win }, []) := by
  unfold txBufSize at hcap
  unfold Serial.after at hbeyond
  have hint : 0 < (ack - c.sendNext).toInt := of_decide_eq_true hbeyond
  obtain ⟨hpos, hhalf⟩ : 0 < (ack - c.sendNext).toNat ∧ 2 * (ack - c.sendNext).toNat < 2 ^ 32 := by
    rw [BitVec.toInt_eq_toNat_cond] at hint
    have := (ack - c.sendNext).isLt
    split at hint <;> omega
  -- the acknowledged number lies behind all bytes in the ring
  have hsum : (ack - c.sendUnack).toNat = (ack - c.sendNext).toNat + c.txSent := by
    have hadd : ack - c.sendUnack = (ack - c.sendNext) + (c.sendNext - c.sendUnack) := by bv_omega
    rw [hadd, BitVec.toNat_add, hflight, Nat.mod_eq_of_lt (by omega)]
  have hlate : c.txCount < (ack - c.sendUnack).toNat := by
    by_contra hle
    have := hnew (by omega) (Nat.le_of_not_lt hle)
    omega
  have hne : ack ≠ c.sendUnack := fun he => by
    have hzero : (ack - c.sendUnack).toNat = 0 := by
      rw [he, BitVec.sub_self]
      rfl
    omega
  unfold Tcp.processAck
  dsimp only
  rw [if_pos (.inr hlate)]
  unfold duplicateAck
  rw [if_neg fun hold => hne hold.1]

end

/-! ## Runs -/

structure Fresh (c : TcpConnection) : Prop where
  ready : Ready c.sendUnack c
  cwnd : c.cwnd = mss * 2
  ssthresh : c.ssthresh = 65535
  dupAckCount : c.dupAckCount = 0
  srtt : c.srtt = 0
  rttvar : c.rttvar = 0

inductive AckRun (arch : Arch) : TcpConnection → Prop
  | start {c} : Fresh c → AckRun arch c
  | step {c c' env e o} : AckRun arch c → SendEvent.Fits env c e → sendStep arch env c e = some (c', o) → AckRun arch c'

structure Robust (c : TcpConnection) : Prop where
  sends : ∃ base A a, Sends base A a c
  bounded : Bounded c

section
variable {arch : Arch} {c c' : TcpConnection}

theorem Robust.consistent (h : Robust c) : Consistent c := by
  obtain ⟨base, A, a, hsends⟩ := h.sends
  have hcap := hsends.cap
  have hsent := hsends.sent
  refine ⟨hsent, hcap, ?_, h.bounded⟩
  unfold txBufSize at hcap
  rw [hsends.next, Serial.toNat_num_sub_base (by omega)]

theorem Fresh.robust (h : Fresh c) : Robust c where
  sends := ⟨_, _, _, h.ready.sends⟩
  bounded := by
    refine ⟨?_, ?_, ?_, ?_, sampled_fresh h.srtt h.rttvar, ?_, fun s hs => ?_⟩
    · rw [h.cwnd]; decide
    · rw [h.cwnd]; decide
    · rw [h.ssthresh]; decide
    · rw [h.dupAckCount]; decide
    · rw [h.ready.txSegCount]; decide
    · unfold TcpConnection.segList at hs
      rw [h.ready.txSegCount] at hs
      cases hs

/-- **One step**: it returns, keeps the invariant, and an acknowledgement beyond `send_next` changes the window only. -/
theorem Robust.step (h : Robust c) {env : Env} {e : SendEvent} (hfits : e.Fits env c) :
    ∃ c' o, sendStep arch env c e = some (c', o) ∧ Robust c' ∧
      ∀ q win, e = .ack q win → Serial.after q c.sendNext = true → c' = { c with peerWindow := win } := by
  obtain ⟨base, A, a, hsends⟩ := h.sends
  have hcons := h.consistent
  cases e with
  | sendData data =>
    have hbuffer := hsends.buffer data
    have hstep : ∀ r, sendConn env c data = some r →
        sendStep arch env c (.sendData data) = some (r.2.1, { ret := r.1, effects := r.2.2 }) := fun r hr => by
      show (sendConn env c data).map _ = _
      rw [hr]
      rfl
    obtain ⟨n, hsend⟩ | ⟨n, c', out, hflush, hsend⟩ := sendConn_cases env hbuffer.sent
    · exact ⟨c, _, hstep _ hsend, h, nofun⟩
    · have hbounded : Bounded (bufferData c data).2 := ⟨h.bounded.cwnd_pos, h.bounded.cwnd_le, h.bounded.ssthresh_le,
        h.bounded.dup, h.bounded.sampled, h.bounded.count, h.bounded.retransmits⟩
      exact ⟨c', _, hstep _ hsend, ⟨⟨_, _, _, (hbuffer.flush hflush).1⟩, hbounded.flush hflush⟩, nofun⟩
  | flush =>
    obtain ⟨c', out, hflush⟩ := flushSendBuffer_returns hsends.sent env.ticks
    have hstep : sendStep arch env c .flush = some (c', { effects := out }) := by
      show (flushSendBuffer env.ticks c).map _ = _
      rw [hflush]
      rfl
    exact ⟨c', _, hstep, ⟨⟨_, _, _, (hsends.flush hflush).1⟩, h.bounded.flush hflush⟩, nofun⟩
  | ack q win =>
    obtain ⟨hnew, hdup⟩ := hfits
    obtain ⟨c', out, hack, hbounded⟩ : ∃ c' out, processAck arch env.ticks c q win = some (c', out) ∧ Bounded c' :=
      h.bounded.processAck hcons.sent hcons.cap hnew hdup
    have hsends' := hsends.processAck (by
      by_cases hle : (q - c.sendUnack).toNat ≤ c.txCount
      · rcases Nat.eq_zero_or_pos (q - c.sendUnack).toNat with hzero | hpos
        · exact .inl (by omega)
        · exact .inl (hnew hpos hle).1
      · exact .inr (Nat.lt_of_not_le hle)) hack
    refine ⟨c', { effects := out }, ?_, ⟨⟨_, _, _, hsends'.1⟩, hbounded⟩, fun q' win' heq hbeyond => ?_⟩
    · show (processAck arch env.ticks c q win).map _ = _
      rw [hack]
      rfl
    · cases heq
      exact (Prod.mk.inj (Option.some.inj (hack.symm.trans
        (processAck_beyond hcons.flight hcons.sent hcons.cap hbeyond fun hpos hle => (hnew hpos hle).1)))).1
  | fastRetransmit =>
    exact ⟨_, _, rfl, ⟨⟨_, _, _, (hsends.fastRetransmit arch env.ticks).1⟩, h.bounded.fastRetransmit arch env.ticks⟩, nofun⟩
  | poll => exact ⟨_, _, rfl, ⟨⟨_, _, _, (hsends.poll arch env.ticks).1⟩, h.bounded.poll arch env.ticks⟩, nofun⟩

theorem ackRun_robust (run : AckRun arch c) : Robust c := by
  induction run with
  | start h => exact h.robust
  | step _ hfits hs ih =>
    obtain ⟨c'', o', hstep, hrobust, -⟩ := Robust.step ih hfits
    obtain ⟨rfl, -⟩ := Prod.mk.inj (Option.some.inj (hs.symm.trans hstep))
    exact hrobust

/-- **Acknowledgements of any kind.** In a run whose acknowledgements fit, the counters agree in every state, the next step
returns, and an acknowledgement beyond `send_next` changes nothing but the peer's window. -/
theorem acks_robust (run : AckRun arch c) : Consistent c ∧ ∀ (env : Env) (e : SendEvent), e.Fits env c →
    ∃ c' o, sendStep arch env c e = some (c', o) ∧ Consistent c' ∧
      ∀ q win, e = .ack q win → Serial.after q c.sendNext = true → c' = { c with peerWindow := win } := by
  have hrobust := ackRun_robust run
  refine ⟨hrobust.consistent, fun env e hfits => ?_⟩
  obtain ⟨c', o, hstep, hrobust', hbeyond⟩ := hrobust.step hfits
  exact ⟨c', o, hstep, hrobust'.consistent, hbeyond⟩

theorem processAck_overflows {now win : Nat} (hcount : c.dupAckCount = 255) (hsent : 0 < c.txSent) :
    processAck arch now c c.sendUnack win = none := by
  unfold processAck
  dsimp only
  rw [BitVec.sub_self, if_pos (.inl rfl)]
  unfold duplicateAck addU8
  rw [if_pos ⟨rfl, hsent⟩, hcount]
  rfl

theorem step_get {env : Env} {e : SendEvent} (hs : (sendStep arch env c e).isSome) :
    sendStep arch env c e = some (((sendStep arch env c e).get hs).1, ((sendStep arch env c e).get hs).2) :=
  (Option.some_get hs).symm

theorem AckRun.next (run : AckRun arch c) (env : Env) (e : SendEvent) (hfits : e.Fits env c)
    (hs : (sendStep arch env c e).isSome) : AckRun arch ((sendStep arch env c e).get hs).1 :=
  .step run hfits (step_get hs)

end

theorem openConn_fresh : Fresh openConn := ⟨⟨rfl, rfl, rfl, rfl, rfl, rfl⟩, rfl, rfl, rfl, rfl, rfl⟩

/-- Three bytes, one of which is acknowledged, then a duplicate, and a number beyond `send_next`. -/
theorem acks_robust_partial_ack : ∃ c, AckRun .x86 c ∧ c.txSent = 2 ∧ c.peerWindow = 7 ∧ Consistent c := by
  have r₀ : AckRun .x86 openConn := .start openConn_fresh
  have r₁ := r₀.next (.atTick 0) (.sendData [1, 2, 3]) trivial (by decide +kernel)
  have r₂ := r₁.next (.atTick 1) (.ack 1 4096) (by unfold SendEvent.Fits Samples; decide +kernel) (by decide +kernel)
  have r₃ := r₂.next (.atTick 2) (.ack 1 4096) (by unfold SendEvent.Fits Samples; decide +kernel) (by decide +kernel)
  have r₄ := r₃.next (.atTick 3) (.ack 9 7) (by unfold SendEvent.Fits Samples; decide +kernel) (by decide +kernel)
  exact ⟨_, r₄, by decide +kernel, by decide +kernel, (acks_robust r₄).1⟩

/-- The peer opens its window by one byte, two bytes are buffered, and it acknowledges both. -/
theorem ack_of_unsent : ∃ c₁ c₂ c₃ o₁ o₂ o₃, Fresh openConn ∧
    sendStep .x86 (.atTick 1) openConn (.ack 0 1) = some (c₁, o₁) ∧
    sendStep .x86 (.atTick 2) c₁ (.sendData [1, 2]) = some (c₂, o₂) ∧
    sendStep .x86 (.atTick 3) c₂ (.ack 2 1) = some (c₃, o₃) ∧
    Serial.after 2 c₂.sendNext = true ∧ c₃ ≠ { c₂ with peerWindow := 1 } ∧ ¬ Consistent c₃ := by
  refine ⟨_, _, _, _, _, _, openConn_fresh, step_get (by decide +kernel), step_get (by decide +kernel),
    step_get (by decide +kernel), by decide +kernel, fun heq => ?_, fun hcons => ?_⟩
  · have hunack := congrArg TcpConnection.sendUnack heq
    revert hunack
    decide +kernel
  · have hflight := hcons.flight
    revert hflight
    decide +kernel

end Zigix.Tcp
