import Zigix.Net.Receive
import Zigix.Net.Send

/-!
# The table of segments in flight

* `InFlight` : the invariant of an established connection, kept by every event that finds room in the table and
  acknowledges nothing beyond `send_next`;
* `booked_of_run` : the table partitions the bytes in flight and the timer runs while there are some;
* `unrecorded_segment` : seven small segments overflow the table of six.
-/

namespace Zigix.Tcp

/-- The segments are a partition of `[lo, hi)`, in order. -/
def Partitions (hi : BitVec 32) : BitVec 32 → List TxSegment → Prop
  | lo, [] => lo = hi
  | lo, s :: ss => s.seq = lo ∧ 0 < s.len ∧ s.len ≤ (hi - lo).toNat ∧ Partitions hi (lo + BitVec.ofNat 32 s.len) ss

instance decidablePartitions (hi : BitVec 32) : ∀ (lo : BitVec 32) (ss : List TxSegment), Decidable (Partitions hi lo ss)
  | lo, [] => inferInstanceAs (Decidable (lo = hi))
  | lo, s :: ss =>
    have := decidablePartitions hi (lo + BitVec.ofNat 32 s.len) ss
    inferInstanceAs (Decidable (s.seq = lo ∧ 0 < s.len ∧ s.len ≤ (hi - lo).toNat ∧
      Partitions hi (lo + BitVec.ofNat 32 s.len) ss))

/-- The table accounts for every byte in flight, and the timer runs while there are any. -/
def Booked (c : TcpConnection) : Prop :=
  Partitions c.sendNext c.sendUnack c.segList ∧ (c.sendUnack ≠ c.sendNext → c.rtoDeadline ≠ 0)

/-! ## Tilings -/

/-- The segments stand without gaps between the offsets `lo` and `hi` behind the number `u`. -/
def Tiled (u : BitVec 32) : Nat → List TxSegment → Nat → Prop
  | lo, [], hi => lo = hi
  | lo, s :: ss, hi => s.seq = Serial.num u lo ∧ 0 < s.len ∧ Tiled u (lo + s.len) ss hi

section
variable {u : BitVec 32} {lo hi d : Nat} {s : TxSegment} {ss ss' : List TxSegment}

theorem Tiled.le (h : Tiled u lo ss hi) : lo ≤ hi := by
  induction ss generalizing lo with
  | nil => exact Nat.le_of_eq h
  | cons s ss ih =>
    have := ih h.2.2
    omega

theorem Tiled.concat (h : Tiled u lo ss hi) (hseq : s.seq = Serial.num u hi) (hlen : 0 < s.len) :
    Tiled u lo (ss ++ [s]) (hi + s.len) := by
  induction ss generalizing lo with
  | nil =>
    obtain rfl : lo = hi := h
    exact ⟨hseq, hlen, rfl⟩
  | cons t ss ih => exact ⟨h.1, h.2.1, ih h.2.2⟩

theorem Tiled.shift (h : Tiled u lo ss hi) (hd : d ≤ lo) : Tiled (Serial.num u d) (lo - d) ss (hi - d) := by
  induction ss generalizing lo with
  | nil => exact congrArg (· - d) h
  | cons s ss ih =>
    obtain ⟨hseq, hlen, hss⟩ := h
    refine ⟨?_, hlen, ?_⟩
    · rw [Serial.num_num, Nat.add_sub_cancel' hd]
      exact hseq
    · have := ih hss (by omega)
      rwa [show lo + s.len - d = lo - d + s.len by omega] at this

/-- Without gaps, the scan of `advanceTxBuffer` removes just what is acknowledged. -/
theorem Tiled.trim {rem : Nat} (h : Tiled u lo ss hi) (hd : d = lo + rem) (hhi : d ≤ hi) :
    Tiled (Serial.num u d) 0 (trimList rem ss) (hi - d) := by
  induction ss generalizing lo rem with
  | nil =>
    obtain rfl : lo = hi := h
    show 0 = lo - d
    omega
  | cons s ss ih =>
    obtain ⟨hseq, hlen, hss⟩ := h
    unfold trimList
    split
    · exact ih hss (by omega)
    · refine ⟨?_, by dsimp only; omega, ?_⟩
      · dsimp only
        rw [Serial.num_zero, hseq, hd, Serial.num_add]
      · have := hss.shift (d := d) (by omega)
        dsimp only
        rwa [show lo + s.len - d = 0 + (s.len - rem) by omega] at this

theorem Tiled.congr (h : Tiled u lo ss hi)
    (heq : ss'.map (fun s => (s.seq, s.len)) = ss.map (fun s => (s.seq, s.len))) : Tiled u lo ss' hi := by
  induction ss generalizing lo ss' with
  | nil =>
    rw [List.map_nil, List.map_eq_nil_iff] at heq
    subst heq
    exact h
  | cons s ss ih =>
    obtain ⟨s', ss', rfl, hs, hss⟩ := List.map_eq_cons_iff.1 heq
    obtain ⟨hseq, hlen⟩ := Prod.mk.inj hs
    obtain ⟨ho, hpos, hrest⟩ := h
    exact ⟨hseq.trans ho, hlen ▸ hpos, hlen ▸ ih hrest hss⟩

theorem Tiled.partitions (h : Tiled u lo ss hi) (hhi : hi < 2 ^ 32) :
    Partitions (Serial.num u hi) (Serial.num u lo) ss := by
  induction ss generalizing lo with
  | nil =>
    obtain rfl : lo = hi := h
    rfl
  | cons s ss ih =>
    obtain ⟨hseq, hlen, hss⟩ := h
    have hle := hss.le
    have hdist : (Serial.num u hi - Serial.num u lo).toNat = hi - lo := by
      have : (Serial.num (Serial.num u lo) (hi - lo) - Serial.num u lo).toNat = hi - lo :=
        Serial.toNat_num_sub_base (by omega)
      rwa [Serial.num_num, Nat.add_sub_cancel' (by omega)] at this
    refine ⟨hseq, hlen, by omega, ?_⟩
    rw [← Serial.num_add]
    exact ih hss

theorem length_trimList_le (n : Nat) (ss : List TxSegment) : (trimList n ss).length ≤ ss.length := by
  induction ss generalizing n with
  | nil => exact Nat.zero_le _
  | cons s ss ih =>
    unfold trimList
    split
    · exact (ih _).trans (Nat.le_succ _)
    · exact le_rfl

end

/-! ## The invariant -/

structure InFlight (c : TcpConnection) : Prop where
  next : c.sendNext = Serial.num c.sendUnack c.txSent
  sent : c.txSent ≤ c.txCount
  cap : c.txCount ≤ txBufSize
  tiled : Tiled c.sendUnack 0 c.segList c.txSent
  count : c.txSegCount ≤ maxTxSegs
  timer : 0 < c.txSent → c.rtoDeadline ≠ 0
  rto : 0 < c.rto

/-- There is room in the table, or there is nothing that a flush may send. -/
def RoomToSend (c : TcpConnection) : Prop :=
  c.txSegCount < maxTxSegs ∨ c.txCount ≤ c.txSent ∨ min c.cwnd c.peerWindow ≤ c.txSent

section
variable {arch : Arch} {c c' : TcpConnection} {now : Nat} {out : List Effect}

theorem InFlight.booked (h : InFlight c) : Booked c := by
  have hcap := h.cap
  have hsent := h.sent
  unfold txBufSize at hcap
  refine ⟨?_, fun hne => ?_⟩
  · have := h.tiled.partitions (by omega)
    rwa [Serial.num_zero, ← h.next] at this
  · refine h.timer (Nat.pos_of_ne_zero fun hzero => hne ?_)
    rw [h.next, hzero, Serial.num_zero]

theorem InFlight.flush (h : InFlight c) (hroom : RoomToSend c) (hs : flushSendBuffer now c = some (c', out)) :
    InFlight c' ∧ c'.state = c.state := by
  rcases flushSendBuffer_cases hs with ⟨rfl, rfl⟩ | ⟨n, hpos, hn, -, hwin, heq⟩
  · exact ⟨h, rfl⟩
  · obtain ⟨segs, count, q, hlist, htrans⟩ := transmit_eq now c n
    obtain ⟨rfl, -⟩ := Prod.mk.inj (heq.symm.trans htrans)
    have hcount : c.txSegCount < maxTxSegs := by
      rcases hroom with hroom | hroom | hroom
      · exact hroom
      · omega
      · omega
    rw [recorded, if_pos hcount] at hlist
    have hlen := congrArg List.length hlist
    rw [List.length_map, List.length_range, List.length_append, length_segList, List.length_singleton] at hlen
    refine ⟨⟨?_, hn, h.cap, ?_, by dsimp only; omega, fun _ => ?_, h.rto⟩, rfl⟩
    · show Serial.num c.sendNext n = Serial.num c.sendUnack (c.txSent + n)
      rw [h.next, Serial.num_num]
    · show Tiled c.sendUnack 0 ((List.range count).map segs) (c.txSent + n)
      rw [hlist]
      exact h.tiled.concat h.next hpos
    · dsimp only
      have := h.rto
      split <;> omega

theorem InFlight.advance (h : InFlight c) {d : Nat} (hd : d ≤ c.txSent) (now win : Nat) (srtt rttvar : Int) {rto : Nat}
    (hrto : 0 < rto) (r : Bool) :
    InFlight (acknowledged c (Serial.num c.sendUnack d) d now win srtt rttvar rto r) where
  next := by
    show c.sendNext = Serial.num (Serial.num c.sendUnack d) (c.txSent - d)
    rw [Serial.num_num, Nat.add_sub_cancel' hd, h.next]
  sent := Nat.sub_le_sub_right h.sent d
  cap := (Nat.sub_le ..).trans h.cap
  tiled := by
    show Tiled (Serial.num c.sendUnack d) 0 (advanceTxBuffer c d).segList (c.txSent - d)
    rw [segList_advanceTxBuffer]
    exact h.tiled.trim (by omega) hd
  count := by
    show (advanceTxBuffer c d).txSegCount ≤ maxTxSegs
    rw [← length_segList, segList_advanceTxBuffer]
    exact (length_trimList_le ..).trans (length_segList c ▸ h.count)
  timer hsent := by
    have hpos : c.txSent - d > 0 := hsent
    show (if c.txSent - d > 0 then now + rto else 0) ≠ 0
    rw [if_pos hpos]
    omega
  rto := hrto

theorem txSegCount_advance {d : Nat}
    (h : c.txSegCount < maxTxSegs ∨ c.txSegCount ≤ maxTxSegs ∧ (c.txSegs 0).len ≤ d) :
    (advanceTxBuffer c d).txSegCount < maxTxSegs := by
  rw [← length_segList, segList_advanceTxBuffer]
  rcases h with hlt | ⟨hle, hfirst⟩
  · have := length_trimList_le d c.segList
    rw [length_segList] at this
    omega
  · by_cases hzero : c.txSegCount = 0
    · have := length_trimList_le d c.segList
      rw [length_segList, hzero] at this
      unfold maxTxSegs
      omega
    · have hcons := segList_eq_cons (Nat.pos_of_ne_zero hzero)
      have hlen := congrArg List.length hcons
      rw [length_segList, List.length_cons] at hlen
      rw [hcons, trimList, if_pos hfirst]
      exact (length_trimList_le _ _).trans_lt (by omega)

theorem InFlight.retransmit (h : InFlight c) (arch : Arch) (now : Nat) :
    (retransmitSegment arch now c 0).1.state = .closed ∨
      InFlight (retransmitSegment arch now c 0).1 ∧ (retransmitSegment arch now c 0).1.state = c.state := by
  rcases retransmitSegment_cases arch now c with ⟨heq, -⟩ | ⟨-, -, heq⟩ | ⟨hcount, -, heq⟩
  · rw [heq]
    exact .inr ⟨h, rfl⟩
  · rw [heq]
    exact .inl (wakeOnFailure_state arch _)
  · rw [heq]
    have hrto := h.rto
    have hpos : 0 < min (c.rto * 2) maxRto := by
      unfold maxRto
      omega
    refine .inr ⟨⟨h.next, h.sent, h.cap, h.tiled.congr (map_seq_len_update ..), h.count, fun _ => ?_, hpos⟩, rfl⟩
    dsimp only
    omega

theorem InFlight.fastRetransmit (h : InFlight c) (arch : Arch) (now : Nat) :
    (fastRetransmit arch now c).1.state = .closed ∨
      InFlight (fastRetransmit arch now c).1 ∧ (fastRetransmit arch now c).1.state = c.state := by
  unfold Tcp.fastRetransmit
  dsimp only
  split
  · refine InFlight.retransmit ?_ arch now
    exact ⟨h.next, h.sent, h.cap, h.tiled, h.count, h.timer, h.rto⟩
  · exact .inr ⟨⟨h.next, h.sent, h.cap, h.tiled, h.count, h.timer, h.rto⟩, rfl⟩

theorem InFlight.poll (h : InFlight c) (arch : Arch) (now : Nat) :
    (pollConn arch now c).1.state = .closed ∨
      InFlight (pollConn arch now c).1 ∧ (pollConn arch now c).1.state = c.state := by
  unfold pollConn
  split
  · split
    · refine InFlight.retransmit ?_ arch now
      exact ⟨h.next, h.sent, h.cap, h.tiled, h.count, h.timer, h.rto⟩
    · rename_i hcount
      refine .inr ⟨⟨h.next, h.sent, h.cap, h.tiled, h.count, fun hpos => ?_, h.rto⟩, rfl⟩
      -- the timer is stopped only when no segment is recorded, and then nothing is in flight
      have hnil : c.segList = [] := List.length_eq_zero_iff.1 (by rw [length_segList]; omega)
      have htiled := h.tiled
      rw [hnil] at htiled
      exact absurd htiled (Nat.ne_of_lt hpos)
  · exact .inr ⟨h, rfl⟩

def AckKeeps (c : TcpConnection) (ack : BitVec 32) (win : Nat) : Prop :=
  let d := (ack - c.sendUnack).toNat
  0 < d → d ≤ c.txCount →
    d ≤ c.txSent ∧
      (c.txSegCount < maxTxSegs ∨ (c.txSegs 0).len ≤ d ∨ c.txCount ≤ c.txSent ∨
        min (grownCwnd c) win ≤ c.txSent - d)

theorem InFlight.processAck (h : InFlight c) {ack : BitVec 32} {win : Nat}
    (hack : AckKeeps c ack win) (hs : processAck arch now c ack win = some (c', out)) :
    c'.state = .closed ∨ InFlight c' ∧ c'.state = c.state := by
  have hcap := h.cap
  unfold txBufSize at hcap
  rcases processAck_cases (by omega) hs with ⟨-, n, hdup⟩ | ⟨hpos, hd, srtt, rttvar, rto, r, hrto, hflush⟩
  · have hsame : InFlight { c with peerWindow := win, dupAckCount := n } :=
      ⟨h.next, h.sent, h.cap, h.tiled, h.count, h.timer, h.rto⟩
    rcases hdup with ⟨rfl, rfl⟩ | hfast
    · exact .inr ⟨hsame, rfl⟩
    · have := hsame.fastRetransmit arch now
      rwa [hfast] at this
  · obtain ⟨hsent, hroom⟩ := hack hpos hd
    have hadv := h.advance hsent now win srtt rttvar (hrto h.rto) r
    rw [Serial.num_toNat_sub] at hadv
    refine .inr (hadv.flush ?_ hflush)
    rcases hroom with hroom | hroom | hroom | hroom
    · exact .inl (txSegCount_advance (.inl hroom))
    · exact .inl (txSegCount_advance (.inr ⟨h.count, hroom⟩))
    · exact .inr (.inl (Nat.sub_le_sub_right hroom _))
    · exact .inr (.inr hroom)

/-! ## The receiving half -/

structure TxHalf where
  sendNext : BitVec 32
  sendUnack : BitVec 32
  txBuf : Nat → Byte
  txHead : Nat
  txCount : Nat
  txSent : Nat
  txSegs : Nat → TxSegment
  txSegCount : Nat
  rto : Nat
  rtoDeadline : Nat

def TcpConnection.txHalf (c : TcpConnection) : TxHalf :=
  ⟨c.sendNext, c.sendUnack, c.txBuf, c.txHead, c.txCount, c.txSent, c.txSegs, c.txSegCount, c.rto, c.rtoDeadline⟩

theorem InFlight.congr (h : InFlight c) (heq : c'.txHalf = c.txHalf) : InFlight c' := by
  simp only [TcpConnection.txHalf, TxHalf.mk.injEq] at heq
  obtain ⟨hnext, hunack, -, -, hcount, hsent, hsegs, hsegCount, hrto, hdeadline⟩ := heq
  have hlist : c'.segList = c.segList := by
    unfold TcpConnection.segList
    rw [hsegs, hsegCount]
  constructor
  · rw [hnext, hunack, hsent, h.next]
  · rw [hsent, hcount]
    exact h.sent
  · rw [hcount]
    exact h.cap
  · rw [hunack, hlist, hsent]
    exact h.tiled
  · rw [hsegCount]
    exact h.count
  · rw [hsent, hdeadline]
    exact h.timer
  · rw [hrto]
    exact h.rto

theorem wakeWaiter_txHalf (c : TcpConnection) : (wakeWaiter c).1.txHalf = c.txHalf := by
  unfold wakeWaiter
  split <;> rfl

theorem drainLoop_txHalf (fuel : Nat) (c : TcpConnection) : (drainLoop fuel c).txHalf = c.txHalf := by
  induction fuel generalizing c with
  | zero => rfl
  | succ fuel ih =>
    unfold drainLoop
    split
    · rfl
    · exact ih _

theorem storeOooSegment_txHalf (c : TcpConnection) (seq : BitVec 32) (payload : List Byte) :
    (storeOooSegment c seq payload).txHalf = c.txHalf := by
  unfold storeOooSegment
  split
  · rfl
  split
  · rfl
  split <;> rfl

theorem receive_txHalf (arch : Arch) (c : TcpConnection) (hd : Header) : (receive arch c hd).1.txHalf = c.txHalf := by
  cases arch with
  | x86 =>
    show (receiveX86 c hd).1.txHalf = c.txHalf
    unfold receiveX86
    split
    · exact wakeWaiter_txHalf _
    · rfl
  | aarch64 =>
    show (receiveAarch64 c hd).1.txHalf = c.txHalf
    unfold receiveAarch64
    split
    · split
      · exact (wakeWaiter_txHalf _).trans (drainLoop_txHalf _ _)
      split
      · exact storeOooSegment_txHalf c _ _
      · rfl
    · rfl

/-! ## Runs -/

/-- The connection is past its handshake, and `InFlight` while it is established. -/
structure Tracked (c : TcpConnection) : Prop where
  past : c.state ≠ .synSent ∧ c.state ≠ .synReceived
  inFlight : c.state = .established → InFlight c

/-- What an event must be like: one that may let out a segment finds room in the table, an acknowledgement is as
`AckKeeps` says, and no new connection is started in the slot. -/
def ConnEvent.Keeps (c : TcpConnection) : ConnEvent → Prop
  | .sendData data =>
    c.state = .established →
      c.txSegCount < maxTxSegs ∨ data = [] ∧ c.txCount ≤ c.txSent ∨ min c.cwnd c.peerWindow ≤ c.txSent
  | .segment h => c.state = .established → h.has RST = false → h.has ACK = true → AckKeeps c h.ackNum h.peerWin
  | .connect _ _ => False
  | _ => True

/-- An established connection on which nothing was sent yet, both ends of whose window the handshake has set. -/
structure Idle (c : TcpConnection) : Prop where
  state : c.state = .established
  next : c.sendNext = c.sendUnack
  txCount : c.txCount = 0
  txSent : c.txSent = 0
  txSegCount : c.txSegCount = 0
  rto : c.rto = initialRto

theorem Idle.tracked (h : Idle c) : Tracked c where
  past := by simp [h.state]
  inFlight _ :=
    { next := by rw [h.next, h.txSent, Serial.num_zero]
      sent := by rw [h.txSent]; exact Nat.zero_le _
      cap := by rw [h.txCount]; exact Nat.zero_le _
      tiled := by
        unfold TcpConnection.segList
        rw [h.txSegCount]
        exact h.txSent.symm
      count := by rw [h.txSegCount]; exact Nat.zero_le _
      timer := fun hpos => absurd h.txSent (Nat.ne_of_gt hpos)
      rto := by rw [h.rto]; decide }

theorem Tracked.left (hstate : c.state ≠ .synSent ∧ c.state ≠ .synReceived ∧ c.state ≠ .established) : Tracked c :=
  ⟨⟨hstate.1, hstate.2.1⟩, fun h => absurd h hstate.2.2⟩

theorem Tracked.of_closed (h : c'.state = .closed ∨ InFlight c' ∧ c'.state = .established) : Tracked c' := by
  rcases h with h | ⟨hin, h⟩
  · exact .left (by simp [h])
  · exact ⟨by simp [h], fun _ => hin⟩

theorem Tracked.onEstablished (h : Tracked c) (hstate : c.state = .established) {hd : Header}
    (hok : (ConnEvent.segment hd).Keeps c) (hs : onEstablished arch now c hd = some (c', out)) : Tracked c' := by
  unfold Tcp.onEstablished at hs
  split at hs
  · have hclosed : (receiveRst arch c).1.state = .closed := by
      cases arch with
      | x86 => exact wakeWaiter_state _
      | aarch64 => exact wakeWaiter_state _
    have htracked : Tracked (receiveRst arch c).1 := .left (by simp [hclosed])
    rwa [Option.some.inj hs] at htracked
  · rename_i hrst
    obtain ⟨⟨c₁, acked⟩, hack, hs⟩ := Option.map_eq_some_iff.1 hs
    have h₁ : Tracked c₁ := by
      unfold receiveAck at hack
      split at hack
      · rename_i hflag
        have := (h.inFlight hstate).processAck (hok hstate (Bool.eq_false_iff.2 hrst) hflag) hack
        rw [hstate] at this
        exact .of_closed this
      · cases hack
        exact h
    have h₂ : Tracked (receive arch c₁ hd).1 := by
      refine ⟨by rw [receive_state]; exact h₁.past, fun hest => ?_⟩
      rw [receive_state] at hest
      exact (h₁.inFlight hest).congr (receive_txHalf ..)
    cases hs
    show Tracked (receiveFin (receive arch c₁ hd).1 hd).1
    unfold receiveFin
    split
    · exact .left (by simp [wakeAll])
    · exact h₂

theorem Tracked.onSegment (h : Tracked c) {idx : Nat} {hd : Header} (hok : (ConnEvent.segment hd).Keeps c)
    (hs : onSegment arch now idx c hd = some (c', out)) : Tracked c' := by
  unfold Tcp.onSegment at hs
  split at hs
  · rename_i hstate
    exact absurd hstate h.past.1
  · rename_i hstate
    exact absurd hstate h.past.2
  · rename_i hstate
    exact h.onEstablished hstate hok hs
  · have hnext : Tracked (onFinWait1 c hd).1 := by
      unfold onFinWait1
      split
      · dsimp only
        split
        · exact .left (by simp [toTimeWait])
        · exact .left (by simp)
      · exact h
    rwa [Option.some.inj hs] at hnext
  · have hnext : Tracked (onFinWait2 c hd).1 := by
      unfold onFinWait2
      split
      · exact .left (by simp [toTimeWait])
      · exact h
    rwa [Option.some.inj hs] at hnext
  · have hnext : Tracked (onLastAck c hd).1 := by
      unfold onLastAck
      split
      · exact .left (by simp)
      · exact h
    rwa [Option.some.inj hs] at hnext
  · cases hs
    exact h

theorem Tracked.sendConn (h : Tracked c) {env : Env} {data : List Byte} {n : Int}
    (hok : (ConnEvent.sendData data).Keeps c) (hs : sendConn env c data = some (n, c', out)) : Tracked c' := by
  unfold Tcp.sendConn at hs
  split at hs
  · cases hs
    exact h
  rename_i hstate
  have hstate : c.state = .established := not_not.1 hstate
  have hin := h.inFlight hstate
  split at hs
  · cases hs
    exact h
  · obtain ⟨r, hr, hs⟩ := Option.bind_eq_some_iff.1 hs
    cases hs
    have hcap := hin.cap
    have hsent := hin.sent
    have hbuf : InFlight (bufferData c data).2 :=
      { next := hin.next, tiled := hin.tiled, count := hin.count, timer := hin.timer, rto := hin.rto
        sent := hsent.trans (Nat.le_add_right ..)
        cap := by
          show c.txCount + min data.length (txBufSize - c.txCount) ≤ txBufSize
          omega }
    have hroom : RoomToSend (bufferData c data).2 := by
      rcases hok hstate with hroom | ⟨rfl, hroom⟩ | hroom
      · exact .inl hroom
      · refine .inr (.inl ?_)
        show c.txCount + min 0 _ ≤ c.txSent
        omega
      · exact .inr (.inr hroom)
    obtain ⟨hin', hst⟩ := hbuf.flush hroom hr
    exact .of_closed (.inr ⟨hin', hst.trans hstate⟩)

theorem Tracked.step (h : Tracked c) {env : Env} {idx : Nat} {e : ConnEvent} {o : Output} (hok : e.Keeps c)
    (hs : connStep arch env idx c e = some (c', o)) : Tracked c' := by
  cases e with
  | segment hd =>
    obtain ⟨⟨c₁, out⟩, hr, hs⟩ := Option.map_eq_some_iff.1 hs
    cases hs
    exact h.onSegment hok hr
  | sendData data =>
    obtain ⟨⟨n, c₁, out⟩, hr, hs⟩ := Option.map_eq_some_iff.1 hs
    cases hs
    exact h.sendConn hok hr
  | recvData len =>
    cases hs
    unfold recvConn
    split
    · split <;> exact h
    · exact ⟨h.past, fun hest => (h.inFlight hest).congr rfl⟩
  | poll =>
    cases hs
    by_cases hstate : c.state = .established
    · have := (h.inFlight hstate).poll arch env.ticks
      rw [hstate] at this
      exact .of_closed this
    · rcases (pollConn_sameRx arch env.ticks c).state with hst | hst
      · exact .left (by rw [hst]; exact ⟨h.past.1, h.past.2, hstate⟩)
      · exact .left (by simp [hst])
  | connect dstIp dstPort => exact hok.elim
  | close =>
    cases hs
    unfold closeConn
    split <;> exact .left (by simp)
  | free =>
    cases hs
    exact .left (by simp [freeConn])

/-- **In-flight bookkeeping.** Whatever a connection goes through after its handshake, while it is established the
recorded segments are a partition of `[send_unack, send_next)` in order and the timer runs while that interval is not
empty, if every event finds room in the table for the segment it lets out and no acknowledgement is beyond
`send_next`. -/
theorem booked_of_run {idx : Nat} (run : ConnRun arch idx Idle (fun c e => e.Keeps c) c)
    (hstate : c.state = .established) : Booked c :=
  ((run.invariant (P := Tracked) (fun _ h => h.tracked) fun _ _ _ _ _ h hok hs => h.step hok hs).inFlight
    hstate).booked

end

theorem openConn_idle : Idle openConn := ⟨rfl, rfl, rfl, rfl, rfl, rfl⟩

theorem booked_of_run_three_bytes : ∃ c, ConnRun .x86 0 Idle (fun c e => e.Keeps c) c ∧ c.state = .established ∧
    c.sendUnack ≠ c.sendNext ∧ Booked c := by
  have r₁ : ConnRun .x86 0 Idle (fun c e => e.Keeps c) _ :=
    (ConnRun.start openConn_idle).next (.atTick 0) (.sendData [1, 2, 3]) (fun _ => .inl (by decide)) (by decide +kernel)
  exact ⟨_, r₁, by decide +kernel, by decide +kernel, booked_of_run r₁ (by decide +kernel)⟩

/-- Only `sendData`. -/
def OnlySends (_ : TcpConnection) : ConnEvent → Prop
  | .sendData _ => True
  | _ => False

theorem ConnRun.sendByte {c : TcpConnection} (run : ConnRun .x86 0 Idle OnlySends c)
    (hs : (connStep .x86 (.atTick 0) 0 c (.sendData [0])).isSome) :
    ConnRun .x86 0 Idle OnlySends ((connStep .x86 (.atTick 0) 0 c (.sendData [0])).get hs).1 :=
  run.next (.atTick 0) (.sendData [0]) trivial hs

/-- Seven calls of one byte each put seven segments in flight, and the table records six of them. -/
theorem unrecorded_segment :
    ∃ c, ConnRun .x86 0 Idle OnlySends c ∧ c.state = .established ∧ ¬ Booked c := by
  have r₀ : ConnRun .x86 0 Idle OnlySends openConn := .start openConn_idle
  have r₁ := r₀.sendByte (by decide +kernel)
  have r₂ := r₁.sendByte (by decide +kernel)
  have r₃ := r₂.sendByte (by decide +kernel)
  have r₄ := r₃.sendByte (by decide +kernel)
  have r₅ := r₄.sendByte (by decide +kernel)
  have r₆ := r₅.sendByte (by decide +kernel)
  have r₇ := r₆.sendByte (by decide +kernel)
  exact ⟨_, r₇, by decide +kernel, fun h => absurd h.1 (by decide +kernel)⟩

end Zigix.Tcp
