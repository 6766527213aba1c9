import Zigix.Net.TcpInput
import Mathlib.Data.List.Infix
import Mathlib.Data.Fin.Tuple.Basic
import Mathlib.Data.Fintype.Card

/-!
# The receiving half against the peer's stream

`Receives S base read c` relates a connection to the byte stream `S` of its peer, numbered from `base`: what the
application has read and what the ring holds make up a prefix of `S`, `recv_next` is the number of the byte behind
it, and every segment in the reassembly queue is a piece of `S` that stands where its sequence number says.

* `Receives.deliver`, `Receives.store`, `Receives.drain`, `Receives.recv` : one lemma for each operation;
* `recv_isPrefix` : over every run, what the application has read is a prefix of `S`.
-/

namespace Zigix.Tcp

/-! ## The sending half -/

structure RxHalf where
  recvNext : BitVec 32
  rxBuf : Nat → Byte
  rxHead : Nat
  rxCount : Nat
  oooSegs : Fin maxOooSegs → OooSegment
  localPort : BitVec 16
  remotePort : BitVec 16
  remoteIp : BitVec 32
  inUse : Bool

def TcpConnection.rxHalf (c : TcpConnection) : RxHalf :=
  ⟨c.recvNext, c.rxBuf, c.rxHead, c.rxCount, c.oooSegs, c.localPort, c.remotePort, c.remoteIp, c.inUse⟩

/-- Equal up to the sending half; a connection may have been given up. -/
structure SameRx (c c' : TcpConnection) : Prop where
  half : c'.rxHalf = c.rxHalf
  state : c'.state = c.state ∨ c'.state = .closed

namespace SameRx

theorem refl (c : TcpConnection) : SameRx c c := ⟨rfl, .inl rfl⟩

theorem trans {a b c : TcpConnection} (hab : SameRx a b) (hbc : SameRx b c) : SameRx a c where
  half := hbc.half.trans hab.half
  state := hbc.state.elim (fun h => hab.state.elim (fun h' => .inl (h.trans h')) fun h' => .inr (h.trans h')) .inr

theorem before {a b c : TcpConnection} (h : SameRx b c) (half : b.rxHalf = a.rxHalf) (state : b.state = a.state) :
    SameRx a c := trans ⟨half, .inl state⟩ h

end SameRx

@[simp] theorem wakeWaiter_state (c : TcpConnection) : (wakeWaiter c).1.state = c.state := by
  unfold wakeWaiter
  split <;> rfl

theorem wakeOnFailure_state (arch : Arch) (c : TcpConnection) : (wakeOnFailure arch c).1.state = c.state := by
  cases arch with
  | x86 => exact wakeWaiter_state c
  | aarch64 => rfl

theorem wakeWaiter_sameRx (c : TcpConnection) : SameRx c (wakeWaiter c).1 := by
  unfold wakeWaiter
  split
  · exact ⟨rfl, .inl rfl⟩
  · exact .refl c

theorem recordSegment_sameRx (c : TcpConnection) (n : Nat) : SameRx c (recordSegment c n) := by
  unfold recordSegment
  split
  · exact ⟨rfl, .inl rfl⟩
  · exact .refl c

theorem startRtt_sameRx (c : TcpConnection) : SameRx c (startRtt c) := by
  unfold startRtt
  split
  · exact ⟨rfl, .inl rfl⟩
  · exact .refl c

theorem startTimer_sameRx (now : Nat) (c : TcpConnection) : SameRx c (startTimer now c) := by
  unfold startTimer
  split
  · exact ⟨rfl, .inl rfl⟩
  · exact .refl c

theorem transmit_sameRx (now : Nat) (c : TcpConnection) (n : Nat) : SameRx c (transmit now c n).1 := by
  have h := (recordSegment_sameRx c n).trans (startRtt_sameRx _)
  exact h.trans ((startTimer_sameRx now _).before rfl rfl)

theorem flushSendBuffer_sameRx {now : Nat} {c c' : TcpConnection} {out : List Effect}
    (h : flushSendBuffer now c = some (c', out)) : SameRx c c' := by
  unfold flushSendBuffer at h
  obtain ⟨n, -, h⟩ := Option.bind_eq_some_iff.1 h
  split at h
  · cases h
    exact .refl c
  · have := transmit_sameRx now c n
    rwa [Option.some.inj h] at this

theorem retransmitSegment_sameRx (arch : Arch) (now : Nat) (c : TcpConnection) (i : Nat) :
    SameRx c (retransmitSegment arch now c i).1 := by
  unfold retransmitSegment
  split
  · exact .refl c
  · dsimp only
    split
    · have hclosed : SameRx c { c with state := .closed } := ⟨rfl, .inr rfl⟩
      cases arch with
      | x86 => exact hclosed.trans (wakeWaiter_sameRx _)
      | aarch64 => exact hclosed
    · exact ⟨rfl, .inl rfl⟩

theorem fastRetransmit_sameRx (arch : Arch) (now : Nat) (c : TcpConnection) :
    SameRx c (fastRetransmit arch now c).1 := by
  unfold fastRetransmit
  dsimp only
  split
  · exact (retransmitSegment_sameRx arch now _ 0).before rfl rfl
  · exact ⟨rfl, .inl rfl⟩

theorem updateRto_sameRx {c c' : TcpConnection} {rtt : Nat} (h : updateRto c rtt = some c') : SameRx c c' := by
  unfold updateRto at h
  obtain ⟨r, -, h⟩ := Option.bind_eq_some_iff.1 h
  obtain ⟨p, -, h⟩ := Option.bind_eq_some_iff.1 h
  obtain ⟨sum, -, h⟩ := Option.bind_eq_some_iff.1 h
  cases h
  exact ⟨rfl, .inl rfl⟩

theorem sampleRtt_sameRx {now : Nat} {c c' : TcpConnection} {ack : BitVec 32} (h : sampleRtt now c ack = some c') :
    SameRx c c' := by
  unfold sampleRtt at h
  split at h
  · obtain ⟨c₁, h₁, h⟩ := Option.bind_eq_some_iff.1 h
    cases h
    exact (updateRto_sameRx h₁).trans ⟨rfl, .inl rfl⟩
  · cases h
    exact .refl c

theorem growCwnd_sameRx {c c' : TcpConnection} {acked : Nat} (h : growCwnd c acked = some c') : SameRx c c' := by
  unfold growCwnd at h
  split at h
  · cases h
    split
    · exact ⟨rfl, .inl rfl⟩
    · exact .refl c
  split at h
  · obtain ⟨w, -, h⟩ := Option.bind_eq_some_iff.1 h
    cases h
    exact ⟨rfl, .inl rfl⟩
  split at h
  · cases h
  · obtain ⟨w, -, h⟩ := Option.bind_eq_some_iff.1 h
    cases h
    exact ⟨rfl, .inl rfl⟩

theorem processAck_sameRx {arch : Arch} {now : Nat} {c c' : TcpConnection} {ack : BitVec 32} {win : Nat}
    {out : List Effect} (h : processAck arch now c ack win = some (c', out)) : SameRx c c' := by
  have hwin : SameRx c { c with peerWindow := win } := ⟨rfl, .inl rfl⟩
  unfold processAck at h
  dsimp only at h
  split at h
  · refine hwin.trans ?_
    unfold duplicateAck at h
    split at h
    · obtain ⟨n, -, h⟩ := Option.bind_eq_some_iff.1 h
      dsimp only at h
      split at h
      · have := fastRetransmit_sameRx arch now { c with peerWindow := win, dupAckCount := n }
        rw [Option.some.inj h] at this
        exact this.before rfl rfl
      · cases h
        exact ⟨rfl, .inl rfl⟩
    · cases h
      exact .refl _
  · unfold newAck at h
    obtain ⟨c₁, h₁, h⟩ := Option.bind_eq_some_iff.1 h
    obtain ⟨c₂, h₂, h⟩ := Option.bind_eq_some_iff.1 h
    have s₁ : SameRx c c₁ := (sampleRtt_sameRx h₁).before rfl rfl
    have s₂ : SameRx c₁ c₂ := (growCwnd_sameRx h₂).before rfl rfl
    have s₃ : SameRx c₂ c' := (flushSendBuffer_sameRx h).before rfl rfl
    exact (s₁.trans s₂).trans s₃

theorem pollConn_sameRx (arch : Arch) (now : Nat) (c : TcpConnection) : SameRx c (pollConn arch now c).1 := by
  unfold pollConn
  split
  · split
    · exact (retransmitSegment_sameRx arch now _ 0).before rfl rfl
    · exact ⟨rfl, .inl rfl⟩
  · exact .refl c

/-! ## The receive ring -/

def TcpConnection.ring (c : TcpConnection) : List Byte := Ring.slice rxBufSize c.rxBuf c.rxHead c.rxCount

@[simp] theorem length_ring (c : TcpConnection) : c.ring.length = c.rxCount := Ring.length_slice ..

/-- The `u16` sum in front of the remainder does not matter: 4096 divides 2^16. -/
theorem mod_rxBufSize (n : Nat) : n % 2 ^ 16 % rxBufSize = n % rxBufSize :=
  Nat.mod_mod_of_dvd n (by decide)

def fits (c : TcpConnection) (payload : List Byte) : Nat := min payload.length (rxBufSize - c.rxCount)

theorem deliverPayload_ring {c : TcpConnection} (hc : c.rxCount ≤ rxBufSize) (payload : List Byte) :
    (deliverPayload c payload).ring = c.ring ++ payload.take (fits c payload) := by
  have hpos : rxPos c = fun i => (c.rxHead + c.rxCount + i) % rxBufSize := by
    funext i
    exact mod_rxBufSize _
  have hfit : c.rxCount + fits c payload ≤ rxBufSize := by
    unfold fits
    omega
  have hle : fits c payload ≤ payload.length := Nat.min_le_left ..
  have hstore := @Ring.slice_store _ rxBufSize c.rxHead c.rxCount _ c.rxBuf (fun i => payload.getD i 0) hfit
  rw [Ring.map_getD_take payload 0 hle] at hstore
  unfold TcpConnection.ring deliverPayload
  rw [hpos]
  exact hstore

theorem rxBytes_append_ring {c : TcpConnection} {n : Nat} (hn : n ≤ c.rxCount) :
    rxBytes c n ++ Ring.slice rxBufSize c.rxBuf ((c.rxHead + n) % 2 ^ 16 % rxBufSize) (c.rxCount - n) = c.ring := by
  have hbytes : rxBytes c n = Ring.slice rxBufSize c.rxBuf c.rxHead n := by
    unfold rxBytes Ring.slice
    apply List.map_congr_left
    intro i _
    rw [mod_rxBufSize]
  rw [hbytes, mod_rxBufSize]
  exact (Ring.slice_advance hn).symm

/-! ## One connection and its peer -/

/-- `payload` with the number `seq` is a piece of `S` and stands where `seq` says. -/
def Piece (S : List Byte) (base seq : BitVec 32) (payload : List Byte) : Prop :=
  ∃ before rest, S = before ++ payload ++ rest ∧ seq = Serial.num base before.length

structure Buffered (S : List Byte) (base : BitVec 32) (read : List Byte) (c : TcpConnection) : Prop where
  ring : read ++ c.ring <+: S
  cap : c.rxCount ≤ rxBufSize
  queue : ∀ i, (c.oooSegs i).inUse = true → Piece S base (c.oooSegs i).seq (c.oooSegs i).payload

/-- `recv_next` is the number of the first byte that was not delivered. -/
structure Synced (S : List Byte) (base : BitVec 32) (read : List Byte) (c : TcpConnection) : Prop
    extends Buffered S base read c where
  next : c.recvNext = Serial.num base (read.length + c.rxCount)

structure Receives (S : List Byte) (base : BitVec 32) (read : List Byte) (c : TcpConnection) : Prop
    extends Buffered S base read c where
  next : c.state = .synReceived ∨ c.state = .established →
    c.recvNext = Serial.num base (read.length + c.rxCount)
  opened : c.state ≠ .synSent

section
variable {S read : List Byte} {base : BitVec 32} {c c' : TcpConnection} {payload : List Byte}

theorem Buffered.congr (h : Buffered S base read c) (hring : c'.ring = c.ring) (hcount : c'.rxCount = c.rxCount)
    (hooo : c'.oooSegs = c.oooSegs) : Buffered S base read c' :=
  ⟨hring ▸ h.ring, hcount ▸ h.cap, hooo ▸ h.queue⟩

theorem SameRx.fields (same : SameRx c c') :
    c'.ring = c.ring ∧ c'.rxCount = c.rxCount ∧ c'.oooSegs = c.oooSegs ∧ c'.recvNext = c.recvNext := by
  have hhalf := same.half
  simp only [TcpConnection.rxHalf, RxHalf.mk.injEq] at hhalf
  obtain ⟨hnext, hbuf, hhead, hcount, hooo, -⟩ := hhalf
  refine ⟨?_, hcount, hooo, hnext⟩
  unfold TcpConnection.ring
  rw [hbuf, hhead, hcount]

theorem Synced.sameRx (h : Synced S base read c) (same : SameRx c c') : Synced S base read c' := by
  obtain ⟨hring, hcount, hooo, hnext⟩ := same.fields
  exact ⟨h.toBuffered.congr hring hcount hooo, by rw [hnext, hcount, h.next]⟩

theorem Receives.sameRx (h : Receives S base read c) (same : SameRx c c') : Receives S base read c' := by
  obtain ⟨hring, hcount, hooo, hnext⟩ := same.fields
  refine ⟨h.toBuffered.congr hring hcount hooo, ?_, ?_⟩
  · rw [hnext, hcount]
    intro hopen
    rcases same.state with hs | hs
    · exact h.next (hs ▸ hopen)
    · simp [hs] at hopen
  · rcases same.state with hs | hs
    · exact hs ▸ h.opened
    · simp [hs]

/-- `recv_next` does not matter any more once the connection has left `established`. -/
theorem Buffered.leave (h : Buffered S base read c) (hring : c'.ring = c.ring) (hcount : c'.rxCount = c.rxCount)
    (hooo : c'.oooSegs = c.oooSegs)
    (hstate : c'.state ≠ .synReceived ∧ c'.state ≠ .established ∧ c'.state ≠ .synSent) : Receives S base read c' where
  toBuffered := h.congr hring hcount hooo
  next hopen := absurd hopen (by simp [hstate.1, hstate.2.1])
  opened := hstate.2.2

theorem Synced.receives (h : Synced S base read c) (hstate : c.state ≠ .synSent) : Receives S base read c :=
  ⟨h.toBuffered, fun _ => h.next, hstate⟩

/-! ## Delivery -/

/-- A piece whose number is `recv_next` starts right behind what is there. -/
theorem Synced.piece_next (h : Synced S base read c) (hS : S.length < 2 ^ 31) (hp : Piece S base c.recvNext payload) :
    read ++ c.ring ++ payload <+: S := by
  obtain ⟨before, rest, hSplit, hseq⟩ := hp
  have hlen : (read ++ c.ring).length ≤ S.length := h.ring.length_le
  have hblen : before.length ≤ S.length := by
    rw [hSplit]
    simp
  simp only [List.length_append, length_ring] at hlen
  have heq : read.length + c.rxCount = before.length :=
    Serial.num_inj (by omega) (by omega) (h.next.symm.trans hseq)
  have hbefore : before <+: S := ⟨payload ++ rest, by rw [hSplit, List.append_assoc]⟩
  have hsame : read ++ c.ring = before := by
    refine List.IsPrefix.eq_of_length (List.prefix_of_prefix_length_le h.ring hbefore ?_) ?_ <;> simp [heq]
  rw [hsame]
  exact ⟨rest, hSplit.symm⟩

theorem Synced.deliver (h : Synced S base read c) (hS : S.length < 2 ^ 31) (hp : Piece S base c.recvNext payload) :
    Synced S base read (deliverPayload c payload) := by
  have hnext := h.piece_next hS hp
  refine ⟨⟨?_, ?_, h.queue⟩, ?_⟩
  · rw [deliverPayload_ring h.cap, ← List.append_assoc]
    exact ((List.prefix_append_right_inj _).2 (List.take_prefix _ _)).trans hnext
  · show c.rxCount + min payload.length (rxBufSize - c.rxCount) ≤ rxBufSize
    have := h.cap
    omega
  · show c.recvNext + BitVec.ofNat 32 _ = Serial.num base (read.length + (c.rxCount + _))
    rw [h.next, ← Nat.add_assoc, ← Serial.num_add]

/-! ## Reassembly -/

theorem load_payload (slot : OooSegment) (seq : BitVec 32) (hlen : payload.length ≤ oooBufSize) :
    (slot.load seq payload).payload = payload := by
  have hmod : payload.length % 2 ^ 16 = payload.length := Nat.mod_eq_of_lt (hlen.trans_lt (by decide))
  unfold OooSegment.payload OooSegment.load
  dsimp only
  rw [hmod]
  calc (List.range payload.length).map (Ring.store id (fun i => payload.getD i 0) payload.length slot.data)
      = (List.range payload.length).map (fun i => payload.getD i 0) := by
        apply List.map_congr_left
        intro i hi
        exact Ring.store_at (fun _ _ _ _ h => h) (List.mem_range.1 hi)
    _ = payload := by rw [Ring.map_getD_take payload 0 le_rfl, List.take_length]

theorem Synced.store (h : Synced S base read c) {seq : BitVec 32} (hp : Piece S base seq payload) :
    Synced S base read (storeOooSegment c seq payload) := by
  unfold storeOooSegment
  split
  · exact h
  rename_i hlen
  split
  · exact h
  split
  · exact h
  rename_i i _
  refine ⟨⟨h.ring, h.cap, fun j hj => ?_⟩, h.next⟩
  dsimp only at hj ⊢
  by_cases hji : j = i
  · subst hji
    rw [Function.update_self, load_payload _ _ (Nat.le_of_not_lt hlen)]
    exact hp
  · rw [Function.update_of_ne hji] at hj ⊢
    exact h.queue j hj

theorem readySlot_spec {i : Fin maxOooSegs} (hi : readySlot c = some i) :
    (c.oooSegs i).inUse = true ∧ (c.oooSegs i).seq = c.recvNext := by
  have := Fin.eq_true_of_find?_eq_some hi
  simpa using this

theorem Synced.take (h : Synced S base read c) (hS : S.length < 2 ^ 31) {i : Fin maxOooSegs}
    (hi : readySlot c = some i) : Synced S base read (takeSlot c i) := by
  obtain ⟨hused, hseq⟩ := readySlot_spec hi
  have hd := h.deliver hS (hseq ▸ h.queue i hused)
  refine ⟨⟨hd.ring, hd.cap, fun j hj => ?_⟩, hd.next⟩
  by_cases hji : j = i
  · subst hji
    simp [takeSlot] at hj
  · unfold takeSlot at hj ⊢
    dsimp only at hj ⊢
    rw [Function.update_of_ne hji] at hj ⊢
    exact hd.queue j hj

theorem Synced.drain (h : Synced S base read c) (hS : S.length < 2 ^ 31) (fuel : Nat) :
    Synced S base read (drainLoop fuel c) := by
  induction fuel generalizing c with
  | zero => exact h
  | succ fuel ih =>
    unfold drainLoop
    split
    · exact h
    · rename_i i hi
      exact ih (h.take hS hi)

def usedSlots (c : TcpConnection) : Finset (Fin maxOooSegs) := Finset.univ.filter fun i => (c.oooSegs i).inUse = true

theorem usedSlots_takeSlot (c : TcpConnection) (i : Fin maxOooSegs) :
    usedSlots (takeSlot c i) = (usedSlots c).erase i := by
  ext j
  unfold usedSlots takeSlot
  rw [Finset.mem_filter, Finset.mem_erase, Finset.mem_filter]
  by_cases hji : j = i
  · subst hji
    simp
  · dsimp only
    rw [Function.update_of_ne hji]
    simp [deliverPayload, hji]

/-- The loop of `drainOooQueue` ends by itself: with as many turns as there are segments, none is left that fits. -/
theorem readySlot_drainLoop {fuel : Nat} (hfuel : (usedSlots c).card ≤ fuel) : readySlot (drainLoop fuel c) = none := by
  induction fuel generalizing c with
  | zero =>
    refine Fin.find?_eq_none_iff.2 fun i => ?_
    have hi : i ∉ usedSlots c := by
      rw [Finset.card_eq_zero.1 (Nat.le_zero.1 hfuel)]
      exact Finset.notMem_empty i
    have : (c.oooSegs i).inUse = false := by simpa [usedSlots] using hi
    rw [drainLoop, this, Bool.false_and]
  | succ fuel ih =>
    unfold drainLoop
    split
    · assumption
    · rename_i i hi
      apply ih
      have hmem : i ∈ usedSlots c := by simpa [usedSlots] using (readySlot_spec hi).1
      rw [usedSlots_takeSlot, Finset.card_erase_of_mem hmem]
      omega

theorem Synced.wakeAll (h : Synced S base read c) : Synced S base read (wakeAll c).1 :=
  h.sameRx (wakeWaiter_sameRx c)

theorem Receives.wake (h : Receives S base read c) : Receives S base read (wakeWaiter c).1 :=
  h.sameRx (wakeWaiter_sameRx c)

theorem Synced.receive (h : Synced S base read c) (hS : S.length < 2 ^ 31) (arch : Arch) {hd : Header}
    (hp : hd.payload ≠ [] → Piece S base hd.seqNum hd.payload) : Synced S base read (receive arch c hd).1 := by
  cases arch with
  | x86 =>
    show Synced S base read (receiveX86 c hd).1
    unfold receiveX86
    split
    · rename_i hcond
      have hpiece := hp (List.ne_nil_of_length_pos hcond.1)
      exact (h.deliver hS (hcond.2 ▸ hpiece)).wakeAll
    · exact h
  | aarch64 =>
    show Synced S base read (receiveAarch64 c hd).1
    unfold receiveAarch64
    split
    · rename_i hlen
      have hpiece := hp (List.ne_nil_of_length_pos hlen)
      split
      · rename_i hseq
        exact ((h.deliver hS (hseq ▸ hpiece)).drain hS maxOooSegs).wakeAll
      split
      · exact h.store hpiece
      · exact h
    · exact h

@[simp] theorem drainLoop_state (fuel : Nat) (c : TcpConnection) : (drainLoop fuel c).state = c.state := by
  induction fuel generalizing c with
  | zero => rfl
  | succ fuel ih =>
    unfold drainLoop
    split
    · rfl
    · exact ih _

@[simp] theorem storeOooSegment_state (c : TcpConnection) (seq : BitVec 32) (payload : List Byte) :
    (storeOooSegment c seq payload).state = c.state := by
  unfold storeOooSegment
  split
  · rfl
  split
  · rfl
  split <;> rfl

@[simp] theorem receive_state (arch : Arch) (c : TcpConnection) (hd : Header) :
    (receive arch c hd).1.state = c.state := by
  cases arch with
  | x86 =>
    show (receiveX86 c hd).1.state = c.state
    unfold receiveX86
    split
    · exact wakeWaiter_state _
    · rfl
  | aarch64 =>
    show (receiveAarch64 c hd).1.state = c.state
    unfold receiveAarch64
    split
    · split
      · exact (wakeWaiter_state _).trans (drainLoop_state _ _)
      split
      · exact storeOooSegment_state c _ _
      · rfl
    · rfl

theorem receiveAck_sameRx {arch : Arch} {now : Nat} {hd : Header} {out : List Effect}
    (h : receiveAck arch now c hd = some (c', out)) : SameRx c c' := by
  unfold receiveAck at h
  split at h
  · exact processAck_sameRx h
  · cases h
    exact .refl c

theorem Receives.receiveFin (h : Synced S base read c) (hstate : c.state ≠ .synSent) (hd : Header) :
    Receives S base read (receiveFin c hd).1 := by
  unfold Tcp.receiveFin
  split
  · refine Receives.wake ?_
    exact h.leave rfl rfl rfl ⟨nofun, nofun, nofun⟩
  · exact h.receives hstate

theorem Receives.onEstablished (h : Receives S base read c) (hS : S.length < 2 ^ 31) {arch : Arch} {now : Nat}
    {hd : Header} {out : List Effect} (hstate : c.state = .established)
    (hp : hd.payload ≠ [] → Piece S base hd.seqNum hd.payload)
    (hs : onEstablished arch now c hd = some (c', out)) : Receives S base read c' := by
  unfold Tcp.onEstablished at hs
  split at hs
  · have hclosed : Receives S base read { c with state := .closed } := h.sameRx ⟨rfl, .inr rfl⟩
    cases arch with
    | x86 =>
      cases hs
      exact hclosed.wake
    | aarch64 =>
      have := hclosed.wake
      rwa [show wakeWaiter _ = (c', out) from Option.some.inj hs] at this
  · obtain ⟨⟨c₁, acked⟩, hack, hs⟩ := Option.map_eq_some_iff.1 hs
    have hsame := receiveAck_sameRx hack
    have hsync : Synced S base read c := ⟨h.toBuffered, h.next (.inr hstate)⟩
    have hrecv := (hsync.sameRx hsame).receive hS arch hp
    have hopened : c₁.state ≠ .synSent := (h.sameRx hsame).opened
    cases hs
    exact Receives.receiveFin hrecv (by simpa using hopened) hd

theorem Receives.onSegment (h : Receives S base read c) (hS : S.length < 2 ^ 31) {arch : Arch} {now idx : Nat}
    {hd : Header} {out : List Effect} (hp : hd.payload ≠ [] → Piece S base hd.seqNum hd.payload)
    (hs : onSegment arch now idx c hd = some (c', out)) : Receives S base read c' := by
  unfold Tcp.onSegment at hs
  split at hs
  · rename_i hstate
    exact absurd hstate h.opened
  · rename_i hstate
    unfold onSynReceived at hs
    split at hs
    · cases hs
      exact ⟨h.toBuffered.congr rfl rfl rfl, fun _ => h.next (.inl hstate), nofun⟩
    split at hs
    · cases hs
      exact h.toBuffered.leave rfl rfl rfl ⟨nofun, nofun, nofun⟩
    · cases hs
      exact h
  · rename_i hstate
    exact h.onEstablished hS hstate hp hs
  · unfold onFinWait1 at hs
    split at hs
    · dsimp only at hs
      split at hs
      · cases hs
        refine Receives.wake ?_
        exact h.toBuffered.leave rfl rfl rfl ⟨nofun, nofun, nofun⟩
      · cases hs
        exact h.toBuffered.leave rfl rfl rfl ⟨nofun, nofun, nofun⟩
    · cases hs
      exact h
  · unfold onFinWait2 at hs
    split at hs
    · cases hs
      refine Receives.wake ?_
      exact h.toBuffered.leave rfl rfl rfl ⟨nofun, nofun, nofun⟩
    · cases hs
      exact h
  · unfold onLastAck at hs
    split at hs
    · have hclosed : Receives S base read { c with state := .closed, inUse := false } :=
        h.toBuffered.leave rfl rfl rfl ⟨nofun, nofun, nofun⟩
      have := hclosed.wake
      rwa [show wakeWaiter _ = (c', out) from Option.some.inj hs] at this
    · cases hs
      exact h
  · cases hs
    exact h

/-! ## Calls -/

theorem Receives.recv (h : Receives S base read c) (len : Nat) :
    Receives S base (read ++ (recvConn c len).2.1) (recvConn c len).2.2 := by
  unfold recvConn
  split
  · rw [apply_ite (fun r : Int × List Byte × TcpConnection => r.2.1),
      apply_ite (fun r : Int × List Byte × TcpConnection => r.2.2), ite_self, ite_self, List.append_nil]
    exact h
  · have hn : min len c.rxCount ≤ c.rxCount := Nat.min_le_right ..
    have hring := rxBytes_append_ring hn
    have hcount : (rxBytes c (min len c.rxCount)).length = min len c.rxCount := by simp [rxBytes]
    refine ⟨⟨?_, (Nat.sub_le ..).trans h.cap, h.queue⟩, fun hstate => ?_, h.opened⟩
    · rw [List.append_assoc]
      exact hring ▸ h.ring
    · have hsum : (read ++ rxBytes c (min len c.rxCount)).length + (c.rxCount - min len c.rxCount) =
          read.length + c.rxCount := by
        rw [List.length_append, hcount]
        omega
      exact (h.next hstate).trans (by rw [hsum])

theorem sendConn_sameRx {env : Env} {data : List Byte} {n : Int} {out : List Effect}
    (h : sendConn env c data = some (n, c', out)) : SameRx c c' := by
  unfold sendConn at h
  split at h
  · cases h
    exact .refl c
  split at h
  · cases h
    exact .refl c
  · obtain ⟨r, hr, h⟩ := Option.bind_eq_some_iff.1 h
    cases h
    exact (flushSendBuffer_sameRx hr).before rfl rfl

theorem Receives.close (h : Receives S base read c) : Receives S base read (closeConn c).1 := by
  unfold closeConn
  split <;> exact h.toBuffered.leave rfl rfl rfl ⟨nofun, nofun, nofun⟩

/-- What an event may bring to a connection whose peer sends `S`: data only as pieces of `S`, and no `connect`, which
would start another connection in the same slot. -/
def ConnEvent.Fits (S : List Byte) (base : BitVec 32) : ConnEvent → Prop
  | .segment h => h.payload ≠ [] → Piece S base h.seqNum h.payload
  | .connect _ _ => False
  | _ => True

theorem Receives.step (h : Receives S base read c) (hS : S.length < 2 ^ 31) {arch : Arch} {env : Env} {idx : Nat}
    {e : ConnEvent} {o : Output} (he : e.Fits S base) (hs : connStep arch env idx c e = some (c', o)) :
    Receives S base (read ++ o.bytes) c' := by
  cases e with
  | segment hd =>
    obtain ⟨⟨c₁, out⟩, hr, hs⟩ := Option.map_eq_some_iff.1 hs
    cases hs
    rw [List.append_nil]
    exact h.onSegment hS he hr
  | sendData data =>
    obtain ⟨⟨n, c₁, out⟩, hr, hs⟩ := Option.map_eq_some_iff.1 hs
    cases hs
    rw [List.append_nil]
    exact h.sameRx (sendConn_sameRx hr)
  | recvData len =>
    cases hs
    exact h.recv len
  | poll =>
    cases hs
    rw [List.append_nil]
    exact h.sameRx (pollConn_sameRx arch env.ticks c)
  | connect dstIp dstPort => exact he.elim
  | close =>
    cases hs
    rw [List.append_nil]
    exact h.close
  | free =>
    cases hs
    rw [List.append_nil]
    exact h.toBuffered.leave rfl rfl rfl ⟨nofun, nofun, nofun⟩

end

/-! ## Runs -/

/-- A connection as the handshake leaves it: nothing received, and `base` is the number of the peer's first byte. -/
structure Opened (base : BitVec 32) (c : TcpConnection) : Prop where
  inUse : c.inUse = true
  state : c.state = .synReceived ∨ c.state = .established
  recvNext : c.recvNext = base
  rxCount : c.rxCount = 0
  queue : ∀ i, (c.oooSegs i).inUse = false

variable {arch : Arch}

/-- The states a run can reach while connection `i` is in use, each with what `recvData` has returned on it so far.
Every event of the run meets `ok`, and the environment may change between events. -/
inductive Run (start : TcpConnection → Prop) (ok : Stack arch → Event arch → Prop) (i : Fin (maxTcpConnections arch)) :
    Stack arch → List Byte → Prop
  | start {s} : start (s.connections i) → Run start ok i s []
  | step {s s' read env e out} : Run start ok i s read → ok s e → step env s e = some (s', out) →
      (s'.connections i).inUse = true → Run start ok i s' (read ++ e.bytesAt i out)

/-- Every segment for connection `i` carries a piece of `S`. -/
def FromPeer (S : List Byte) (base : BitVec 32) (i : Fin (maxTcpConnections arch)) (s : Stack arch)
    (e : Event arch) : Prop :=
  ∀ ce, e.at s i = some ce → ce.Fits S base

section
variable {S read : List Byte} {base : BitVec 32} {i : Fin (maxTcpConnections arch)} {s : Stack arch}

theorem Opened.receives {c : TcpConnection} (h : Opened base c) : Receives S base [] c where
  ring := by
    have hring : c.ring = [] := List.length_eq_zero_iff.1 (by rw [length_ring, h.rxCount])
    simp [hring]
  cap := by simp [h.rxCount]
  queue j hj := by simp [h.queue j] at hj
  next _ := by simp [h.recvNext, h.rxCount]
  opened := by rcases h.state with hs | hs <;> simp [hs]

theorem Run.conn {start : TcpConnection → Prop} {ok : Stack arch → Event arch → Prop} {P : List Byte → TcpConnection → Prop}
    (hstart : ∀ c, start c → c.inUse = true ∧ P [] c)
    (hstep : ∀ {read s e ce env c' o}, ok s e → e.at s i = some ce → P read (s.connections i) →
      connStep arch env i (s.connections i) ce = some (c', o) → P (read ++ o.bytes) c')
    (run : Run start ok i s read) : (s.connections i).inUse = true ∧ P read (s.connections i) := by
  induction run with
  | start h => exact hstart _ h
  | @step s s' read env e out _ hok hs huse ih =>
    refine ⟨huse, ?_⟩
    cases he : e.at s i with
    | none =>
      rw [step_frame ih.1 he hs, bytesAt_frame he, List.append_nil]
      exact ih.2
    | some ce =>
      obtain ⟨o, ho, hbytes⟩ := step_conn ih.1 he hs
      rw [hbytes]
      exact hstep hok he ih.2 ho

theorem run_receives (hS : S.length < 2 ^ 31) (run : Run (Opened base) (FromPeer S base i) i s read) :
    (s.connections i).inUse = true ∧ Receives S base read (s.connections i) :=
  run.conn (fun _ h => ⟨h.inUse, h.receives⟩) fun hok he h ho => h.step hS (hok _ he) ho

/-- **Receive integrity.** The peer of one connection sends the bytes `S`, fewer than 2^31 of them. However its data
is cut into segments, and in whatever order, how often and with what overlaps they arrive, between whatever calls on
any connection, what `recvData` has returned on this one is a prefix of `S` at every moment. -/
theorem recv_isPrefix (hS : S.length < 2 ^ 31) (run : Run (Opened base) (FromPeer S base i) i s read) : read <+: S :=
  (List.prefix_append read _).trans (run_receives hS run).2.ring

theorem Run.next {start : TcpConnection → Prop} {ok : Stack arch → Event arch → Prop} (run : Run start ok i s read)
    (env : Env) (e : Event arch) (hok : ok s e) (hs : (Tcp.step env s e).isSome)
    (huse : (((Tcp.step env s e).get hs).1.connections i).inUse = true) :
    Run start ok i ((Tcp.step env s e).get hs).1 (read ++ e.bytesAt i ((Tcp.step env s e).get hs).2) :=
  Run.step run hok (Option.some_get hs).symm huse

end

/-! ## A reordered stream -/

/-- A segment from port 1000 to port 80 that acknowledges nothing new. -/
def packet (flags : BitVec 8) (seq : Byte) (payload : List Byte) : List Byte :=
  [3, 232, 0, 80, 0, 0, 0, seq, 0, 0, 0, 0, 0x50, flags, 16, 0, 0, 0, 0, 0] ++ payload

/-- The header of `packet flags seq payload`. -/
def packetHeader (flags : BitVec 8) (seq : BitVec 32) (payload : List Byte) : Header :=
  { srcPort := 1000, dstPort := 80, seqNum := seq, ackNum := 0, flags, peerWin := 4096, payload }

def oneConnection (arch : Arch) : Stack arch where
  connections i := if i.val = 0 then openConn else emptyConn
  nextEphemeralPort := 49152

theorem fromPeer_of_piece {S : List Byte} {base : BitVec 32} {i : Fin (maxTcpConnections arch)} {s : Stack arch}
    {e : Event arch} {h : Header} (he : e.at s i = some (.segment h)) (hp : Piece S base h.seqNum h.payload) :
    FromPeer S base i s e := by
  intro ce hce
  cases he.symm.trans hce
  exact fun _ => hp

/-- Bytes 101 and 102 before byte 100, then a read. -/
theorem recv_isPrefix_reordered : ∃ s : Stack .aarch64, ∃ read,
    Run (Opened 100) (FromPeer [1, 2, 3] 100 0) 0 s read ∧ read = [1, 2] ∧ read <+: [1, 2, 3] := by
  have r₀ : Run (Opened 100) (FromPeer [1, 2, 3] 100 0) 0 (oneConnection .aarch64) [] :=
    .start ⟨rfl, .inr rfl, rfl, rfl, fun _ => rfl⟩
  have r₁ := r₀.next (.atTick 0) (.handleTcp 2 (packet ACK 101 [2, 3]))
    (fromPeer_of_piece (h := packetHeader ACK 101 [2, 3]) (by decide +kernel) ⟨[1], [], rfl, rfl⟩) (by decide +kernel) (by decide +kernel)
  have r₂ := r₁.next (.atTick 0) (.handleTcp 2 (packet ACK 100 [1]))
    (fromPeer_of_piece (h := packetHeader ACK 100 [1]) (by decide +kernel) ⟨[], [2, 3], rfl, rfl⟩) (by decide +kernel) (by decide +kernel)
  have r₃ := r₂.next (.atTick 0) (.recvData 0 2) (fun _ he => by cases he; trivial) (by decide +kernel) (by decide +kernel)
  exact ⟨_, _, r₃, by decide +kernel, recv_isPrefix (by decide) r₃⟩

end Zigix.Tcp
