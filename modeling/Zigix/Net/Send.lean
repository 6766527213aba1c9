import Zigix.Net.TcpInput
import Mathlib.Data.List.Infix

/-!
# The sending half

* `segList`, `txRing` : the in-flight table and the transmit ring as lists;
* `segList_advanceTxBuffer` : an acknowledgement trims the table from the front (`trimList`);
* `Sends base A a c` : the ring is what `sendData` accepted (`A`) without the first `a` bytes, and the numbers
  `send_unack` and `send_next` and the recorded segments are in step with it. One lemma for each operation.
-/

namespace Zigix.Tcp

/-! ## The in-flight table as a list -/

def TcpConnection.segList (c : TcpConnection) : List TxSegment := (List.range c.txSegCount).map c.txSegs

@[simp] theorem length_segList (c : TcpConnection) : c.segList.length = c.txSegCount := by
  simp [TcpConnection.segList]

theorem segList_eq_cons {c : TcpConnection} (h : 0 < c.txSegCount) :
    c.segList = c.txSegs 0 :: (List.range (c.txSegCount - 1)).map fun i => c.txSegs (i + 1) := by
  unfold TcpConnection.segList
  obtain ⟨n, hn⟩ : ∃ n, c.txSegCount = n + 1 := ⟨c.txSegCount - 1, by omega⟩
  rw [hn, List.range_succ_eq_map, List.map_cons, List.map_map]
  rfl

theorem map_seq_len_update (segs : Nat → TxSegment) (n r : Nat) :
    ((List.range n).map (Function.update segs 0 { segs 0 with retransmits := r })).map (fun s => (s.seq, s.len)) =
      ((List.range n).map segs).map fun s => (s.seq, s.len) := by
  rw [List.map_map, List.map_map]
  apply List.map_congr_left
  intro i _
  by_cases hi : i = 0
  · subst hi
    simp
  · simp [Function.update_of_ne hi]

/-- Remove what `n` acknowledged bytes cover, counting recorded bytes from the front. -/
def trimList : Nat → List TxSegment → List TxSegment
  | _, [] => []
  | n, s :: ss =>
    if s.len ≤ n then trimList (n - s.len) ss
    else { s with seq := s.seq + BitVec.ofNat 32 n, len := s.len - n } :: ss

theorem trimSegs_spec (k n rem : Nat) (segs : Nat → TxSegment) :
    let t := trimSegs (List.range' k n) k rem segs
    k ≤ t.1 ∧ t.1 ≤ k + n ∧
      (List.range' t.1 (k + n - t.1)).map t.2 = trimList rem ((List.range' k n).map segs) := by
  induction n generalizing k rem with
  | zero => simp [trimSegs, trimList]
  | succ n ih =>
    rw [List.range'_succ, List.map_cons, trimSegs, trimList]
    split
    · have := ih (k + 1) (rem - (segs k).len)
      dsimp only at this ⊢
      obtain ⟨hle, hub, hmap⟩ := this
      refine ⟨by omega, by omega, ?_⟩
      rw [show k + (n + 1) = k + 1 + n by omega, hmap]
    · refine ⟨le_rfl, by omega, ?_⟩
      dsimp only
      rw [show k + (n + 1) - k = n + 1 by omega, List.range'_succ, List.map_cons, Function.update_self]
      congr 1
      apply List.map_congr_left
      intro i hi
      have : k + 1 ≤ i := (List.mem_range'_1.1 hi).1
      rw [Function.update_of_ne (by omega)]

theorem compactSegs_spec (removed count : Nat) (segs : Nat → TxSegment) :
    (List.range (count - removed)).map (compactSegs removed count segs) =
      (List.range' removed (count - removed)).map segs := by
  have key : (∀ d < count - removed, compactSegs removed count segs d = segs (removed + d)) ∧
      ∀ d, count - removed ≤ d → compactSegs removed count segs d = segs d := by
    unfold compactSegs
    refine Loop.foldl_range
      (fun k (s : Nat → TxSegment) => (∀ d < k, s d = segs (removed + d)) ∧ ∀ d, k ≤ d → s d = segs d) _
      ⟨fun _ hd => absurd hd (Nat.not_lt_zero _), fun _ _ => rfl⟩ fun k s _ h => ⟨fun d hd => ?_, fun d hd => ?_⟩
    · by_cases hdk : d = k
      · subst hdk
        rw [Function.update_self, h.2 _ (Nat.le_add_left ..)]
      · rw [Function.update_of_ne hdk]
        exact h.1 d (by omega)
    · rw [Function.update_of_ne (by omega)]
      exact h.2 d (by omega)
  rw [List.range'_eq_map_range, List.map_map]
  apply List.map_congr_left
  intro d hd
  exact key.1 d (List.mem_range.1 hd)

theorem segList_advanceTxBuffer (c : TcpConnection) (acked : Nat) :
    (advanceTxBuffer c acked).segList = trimList acked c.segList := by
  have hspec := trimSegs_spec 0 c.txSegCount acked c.txSegs
  rw [← List.range_eq_range'] at hspec
  dsimp only at hspec
  obtain ⟨-, -, hmap⟩ := hspec
  unfold advanceTxBuffer TcpConnection.segList
  dsimp only
  rw [← hmap, Nat.zero_add]
  split
  · exact compactSegs_spec _ _ _
  · rename_i hzero
    rw [Nat.le_zero.1 (Nat.le_of_not_lt hzero), Nat.sub_zero, List.range_eq_range']

theorem segList_recordSegment (c : TcpConnection) (n : Nat) :
    (recordSegment c n).segList =
      if c.txSegCount < maxTxSegs then c.segList ++ [{ seq := c.sendNext, len := n, retransmits := 0 }]
      else c.segList := by
  unfold recordSegment
  split
  · unfold TcpConnection.segList
    dsimp only
    rw [List.range_succ, List.map_append, List.map_singleton, Function.update_self]
    congr 1
    apply List.map_congr_left
    intro i hi
    rw [Function.update_of_ne (by have := List.mem_range.1 hi; omega)]
  · rfl

/-! ## Segments in order -/

/-- The segments stand in order between the offsets `lo` and `hi` behind the number `u`; there may be gaps. -/
def Spaced (u : BitVec 32) : Nat → List TxSegment → Nat → Prop
  | lo, [], hi => lo ≤ hi
  | lo, s :: ss, hi => ∃ o, lo ≤ o ∧ s.seq = Serial.num u o ∧ Spaced u (o + s.len) ss hi

section
variable {u : BitVec 32} {lo hi d : Nat} {s : TxSegment} {ss : List TxSegment}

theorem Spaced.le (h : Spaced u lo ss hi) : lo ≤ hi := by
  induction ss generalizing lo with
  | nil => exact h
  | cons s ss ih =>
    obtain ⟨o, hlo, -, hss⟩ := h
    have := ih hss
    omega

theorem Spaced.mono {hi' : Nat} (h : Spaced u lo ss hi) (hhi : hi ≤ hi') : Spaced u lo ss hi' := by
  induction ss generalizing lo with
  | nil => exact Nat.le_trans h hhi
  | cons s ss ih =>
    obtain ⟨o, hlo, hseq, hss⟩ := h
    exact ⟨o, hlo, hseq, ih hss⟩

theorem Spaced.concat (h : Spaced u lo ss hi) {hi' : Nat} (hseq : s.seq = Serial.num u hi) (hhi : hi + s.len ≤ hi') :
    Spaced u lo (ss ++ [s]) hi' := by
  induction ss generalizing lo with
  | nil => exact ⟨hi, h, hseq, hhi⟩
  | cons t ss ih =>
    obtain ⟨o, hlo, ht, hss⟩ := h
    exact ⟨o, hlo, ht, ih hss⟩

theorem Spaced.shift (h : Spaced u lo ss hi) (hd : d ≤ lo) : Spaced (Serial.num u d) (lo - d) ss (hi - d) := by
  induction ss generalizing lo with
  | nil => exact Nat.sub_le_sub_right h d
  | cons s ss ih =>
    obtain ⟨o, hlo, hseq, hss⟩ := h
    refine ⟨o - d, by omega, ?_, ?_⟩
    · rw [Serial.num_num, Nat.add_sub_cancel' (by omega)]
      exact hseq
    · have := ih hss (by omega)
      rwa [show o + s.len - d = o - d + s.len by omega] at this

/-- A gap makes the scan of `advanceTxBuffer` remove too much, never too little: what stays is not acknowledged. -/
theorem Spaced.trim {rem : Nat} (h : Spaced u lo ss hi) (hd : d ≤ lo + rem) :
    Spaced (Serial.num u d) 0 (trimList rem ss) (hi - d) := by
  induction ss generalizing lo rem with
  | nil => exact Nat.zero_le _
  | cons s ss ih =>
    obtain ⟨o, hlo, hseq, hss⟩ := h
    unfold trimList
    split
    · exact ih hss (by omega)
    · refine ⟨o + rem - d, Nat.zero_le _, ?_, ?_⟩
      · dsimp only
        rw [Serial.num_num, Nat.add_sub_cancel' (by omega), hseq, Serial.num_add]
      · have := hss.shift (d := d) (by omega)
        dsimp only
        rwa [show o + s.len - d = o + rem - d + (s.len - rem) by omega] at this

end

/-! ## The transmit ring -/

def TcpConnection.txRing (c : TcpConnection) : List Byte := Ring.slice txBufSize c.txBuf c.txHead c.txCount

@[simp] theorem length_txRing (c : TcpConnection) : c.txRing.length = c.txCount := Ring.length_slice ..

theorem mod_txBufSize (n : Nat) : n % 2 ^ 16 % txBufSize = n % txBufSize := Nat.mod_mod_of_dvd n (by decide)

@[simp] theorem length_txBytes (c : TcpConnection) (off len : Nat) : (txBytes c off len).length = len := by
  simp [txBytes]

theorem txBytes_eq {c : TcpConnection} {off len : Nat} (h : off + len ≤ c.txCount) :
    txBytes c off len = (c.txRing.drop off).take len := by
  have hbytes : txBytes c off len = Ring.slice txBufSize c.txBuf (c.txHead + off) len := by
    unfold txBytes txPos Ring.slice
    apply List.map_congr_left
    intro i _
    rw [mod_txBufSize]
  have hring : c.txRing = Ring.slice txBufSize c.txBuf c.txHead off ++
      (txBytes c off len ++ Ring.slice txBufSize c.txBuf (c.txHead + off + len) (c.txCount - off - len)) := by
    rw [hbytes, ← Ring.slice_add, ← Ring.slice_add]
    unfold TcpConnection.txRing
    rw [show off + (len + (c.txCount - off - len)) = c.txCount by omega]
  rw [hring, List.drop_left' (Ring.length_slice ..), List.take_left' (length_txBytes ..)]

theorem bufferData_txRing {c : TcpConnection} (hc : c.txCount ≤ txBufSize) (data : List Byte) :
    (bufferData c data).2.txRing = c.txRing ++ data.take (bufferData c data).1 := by
  have hpos : txPos c c.txCount = fun i => (c.txHead + c.txCount + i) % txBufSize := by
    funext i
    exact mod_txBufSize _
  have hfit : c.txCount + min data.length (txBufSize - c.txCount) ≤ txBufSize := by omega
  have hstore := @Ring.slice_store _ txBufSize c.txHead c.txCount _ c.txBuf (fun i => data.getD i 0) hfit
  rw [Ring.map_getD_take data 0 (Nat.min_le_left ..)] at hstore
  unfold bufferData TcpConnection.txRing
  dsimp only
  rw [hpos]
  exact hstore

theorem advanceTxBuffer_txRing {c : TcpConnection} {acked : Nat} (h : acked ≤ c.txCount) :
    (advanceTxBuffer c acked).txRing = c.txRing.drop acked := by
  have hring : c.txRing = Ring.slice txBufSize c.txBuf c.txHead acked ++ (advanceTxBuffer c acked).txRing := by
    unfold advanceTxBuffer TcpConnection.txRing
    dsimp only
    rw [mod_txBufSize]
    exact Ring.slice_advance h
  rw [hring, List.drop_left' (Ring.length_slice ..)]

/-! ## What each function can do -/

theorem clampRto_pos (n : Nat) : 0 < clampRto n := by
  unfold clampRto minRto maxRto
  dsimp only
  split <;> split <;> omega

theorem sampleRtt_eq {now : Nat} {c c' : TcpConnection} {ack : BitVec 32} (h : sampleRtt now c ack = some c') :
    ∃ srtt rttvar rto m, c' = { c with srtt := srtt, rttvar := rttvar, rto := rto, rttMeasured := m } ∧
      (0 < c.rto → 0 < rto) := by
  unfold sampleRtt at h
  split at h
  · obtain ⟨c₁, h₁, h⟩ := Option.bind_eq_some_iff.1 h
    unfold updateRto at h₁
    obtain ⟨r, -, h₁⟩ := Option.bind_eq_some_iff.1 h₁
    obtain ⟨p, -, h₁⟩ := Option.bind_eq_some_iff.1 h₁
    obtain ⟨sum, -, h₁⟩ := Option.bind_eq_some_iff.1 h₁
    cases h₁
    cases h
    exact ⟨_, _, _, _, rfl, fun _ => clampRto_pos _⟩
  · cases h
    exact ⟨_, _, _, _, rfl, id⟩

def grownCwnd (c : TcpConnection) : Nat :=
  if c.inRecovery then c.cwnd else if c.cwnd < c.ssthresh then c.cwnd + mss else c.cwnd + mss * mss / c.cwnd

theorem addU32_some {a b n : Nat} (h : addU32 a b = some n) : n = a + b := by
  unfold addU32 at h
  split at h
  · exact (Option.some.inj h).symm
  · cases h

theorem growCwnd_eq {c c' : TcpConnection} {acked : Nat} (h : growCwnd c acked = some c') :
    ∃ r, c' = { c with cwnd := grownCwnd c, inRecovery := r } := by
  unfold growCwnd at h
  unfold grownCwnd
  split at h
  · rename_i hrec
    rw [if_pos hrec]
    cases h
    split <;> exact ⟨_, rfl⟩
  rename_i hrec
  rw [if_neg hrec]
  split at h
  · rename_i hslow
    rw [if_pos hslow]
    obtain ⟨w, hw, h⟩ := Option.bind_eq_some_iff.1 h
    cases addU32_some hw
    cases h
    exact ⟨_, rfl⟩
  rename_i hslow
  rw [if_neg hslow]
  split at h
  · cases h
  · obtain ⟨w, hw, h⟩ := Option.bind_eq_some_iff.1 h
    cases addU32_some hw
    cases h
    exact ⟨_, rfl⟩

/-- The in-flight table after a segment of `n` bytes was sent. -/
def recorded (c : TcpConnection) (n : Nat) : List TxSegment :=
  if c.txSegCount < maxTxSegs then c.segList ++ [{ seq := c.sendNext, len := n, retransmits := 0 }] else c.segList

theorem transmit_eq (now : Nat) (c : TcpConnection) (n : Nat) :
    ∃ segs count rttSeq, (List.range count).map segs = recorded c n ∧
      transmit now c n =
        ({ c with
            txSegs := segs, txSegCount := count, rttSeq := rttSeq, sendNext := Serial.num c.sendNext n
            txSent := c.txSent + n
            rtoDeadline := if c.rtoDeadline = 0 then now + c.rto else c.rtoDeadline },
          [sendSegmentWithSeq c (PSH ||| ACK) c.sendNext (txBytes c c.txSent n)]) := by
  have hlist := segList_recordSegment c n
  unfold transmit
  dsimp only
  have hrecord : ∃ segs count, recordSegment c n = { c with txSegs := segs, txSegCount := count } := by
    unfold recordSegment
    split <;> exact ⟨_, _, rfl⟩
  obtain ⟨segs, count, hrec⟩ := hrecord
  rw [hrec] at hlist ⊢
  have hrtt : ∃ q, startRtt { c with txSegs := segs, txSegCount := count } =
      { c with txSegs := segs, txSegCount := count, rttSeq := q } := by
    unfold startRtt
    split <;> exact ⟨_, rfl⟩
  obtain ⟨q, hq⟩ := hrtt
  rw [hq]
  refine ⟨segs, count, q, hlist, ?_⟩
  congr 1
  unfold startTimer
  dsimp only
  split <;> rfl

theorem flushSendBuffer_cases {now : Nat} {c c' : TcpConnection} {out : List Effect}
    (h : flushSendBuffer now c = some (c', out)) :
    c' = c ∧ out = [] ∨
      ∃ n, 0 < n ∧ c.txSent + n ≤ c.txCount ∧ n ≤ mss ∧ c.txSent < min c.cwnd c.peerWindow ∧
        transmit now c n = (c', out) := by
  unfold flushSendBuffer at h
  obtain ⟨n, hn, h⟩ := Option.bind_eq_some_iff.1 h
  split at h
  · cases h
    exact .inl ⟨rfl, rfl⟩
  · rename_i hpos
    unfold flushLen at hn
    split at hn
    · cases hn
      exact absurd rfl hpos
    split at hn
    · cases hn
    · cases hn
      refine .inr ⟨_, by omega, by omega, Nat.min_le_right .., by omega, Option.some.inj h⟩

/-- The state in which `newAck` flushes. -/
def acknowledged (c : TcpConnection) (ack : BitVec 32) (d now win : Nat) (srtt rttvar : Int) (rto : Nat)
    (inRecovery : Bool) : TcpConnection :=
  { advanceTxBuffer c d with
    sendUnack := ack, peerWindow := win, dupAckCount := 0, srtt, rttvar, rto, cwnd := grownCwnd c, inRecovery
    rttMeasured := false
    rtoDeadline := if c.txSent - d > 0 then now + rto else 0 }

theorem newAck_eq {now : Nat} {c c' : TcpConnection} {ack : BitVec 32} {d win : Nat} {out : List Effect}
    (hd : d < 2 ^ 16) (h : newAck now { c with peerWindow := win } ack d = some (c', out)) :
    ∃ srtt rttvar rto r, (0 < c.rto → 0 < rto) ∧
      flushSendBuffer now (acknowledged c ack d now win srtt rttvar rto r) = some (c', out) := by
  unfold newAck at h
  rw [Nat.mod_eq_of_lt hd] at h
  obtain ⟨c₁, h₁, h⟩ := Option.bind_eq_some_iff.1 h
  obtain ⟨c₂, h₂, h⟩ := Option.bind_eq_some_iff.1 h
  obtain ⟨srtt, rttvar, rto, m, rfl, hrto⟩ := sampleRtt_eq h₁
  obtain ⟨r, rfl⟩ := growCwnd_eq h₂
  exact ⟨srtt, rttvar, rto, r, hrto, h⟩

theorem processAck_cases {arch : Arch} {now : Nat} {c c' : TcpConnection} {ack : BitVec 32} {win : Nat}
    {out : List Effect} (hcap : c.txCount < 2 ^ 16) (h : processAck arch now c ack win = some (c', out)) :
    ((ack - c.sendUnack).toNat = 0 ∨ c.txCount < (ack - c.sendUnack).toNat) ∧
      (∃ n, c' = { c with peerWindow := win, dupAckCount := n } ∧ out = [] ∨
        fastRetransmit arch now { c with peerWindow := win, dupAckCount := n } = (c', out)) ∨
    0 < (ack - c.sendUnack).toNat ∧ (ack - c.sendUnack).toNat ≤ c.txCount ∧
      ∃ srtt rttvar rto r, (0 < c.rto → 0 < rto) ∧
        flushSendBuffer now (acknowledged c ack (ack - c.sendUnack).toNat now win srtt rttvar rto r) =
          some (c', out) := by
  unfold processAck at h
  dsimp only at h
  split at h
  · rename_i hold
    refine .inl ⟨hold, ?_⟩
    unfold duplicateAck at h
    split at h
    · obtain ⟨n, -, h⟩ := Option.bind_eq_some_iff.1 h
      dsimp only at h
      split at h
      · exact ⟨n, .inr (Option.some.inj h)⟩
      · cases h
        exact ⟨n, .inl ⟨rfl, rfl⟩⟩
    · cases h
      exact ⟨c.dupAckCount, .inl ⟨rfl, rfl⟩⟩
  · rename_i hnew
    have hd : (ack - c.sendUnack).toNat ≤ c.txCount := by omega
    exact .inr ⟨by omega, hd, newAck_eq (by omega) h⟩

theorem retransmitSegment_cases (arch : Arch) (now : Nat) (c : TcpConnection) :
    retransmitSegment arch now c 0 = (c, []) ∧ c.txSegCount = 0 ∨
    (0 < c.txSegCount ∧ maxRetransmits ≤ (c.txSegs 0).retransmits ∧
      retransmitSegment arch now c 0 = wakeOnFailure arch { c with state := .closed }) ∨
    (0 < c.txSegCount ∧ (c.txSegs 0).retransmits < maxRetransmits ∧
      retransmitSegment arch now c 0 =
        ({ c with
            txSegs := Function.update c.txSegs 0 { c.txSegs 0 with retransmits := (c.txSegs 0).retransmits + 1 }
            rto := min (c.rto * 2) maxRto, rtoDeadline := now + min (c.rto * 2) maxRto },
          [sendSegmentWithSeq c (PSH ||| ACK) (c.txSegs 0).seq
            (txBytes c (((c.txSegs 0).seq - c.sendUnack).toNat % 2 ^ 16) (c.txSegs 0).len)])) := by
  unfold retransmitSegment
  by_cases hcount : c.txSegCount ≤ 0
  · rw [if_pos hcount]
    exact .inl ⟨rfl, by omega⟩
  · rw [if_neg hcount]
    dsimp only
    by_cases hmax : maxRetransmits ≤ (c.txSegs 0).retransmits
    · rw [if_pos hmax]
      exact .inr (.inl ⟨by omega, hmax, rfl⟩)
    · rw [if_neg hmax]
      exact .inr (.inr ⟨by omega, by omega, rfl⟩)

end Zigix.Tcp
