import Zigix.Net.Receive

/-!
# Completing a handshake

* `authentic_iff` : over every sequence of segments, all transitions are authentic exactly when all segments are
  expected; `forged_handshake` : a reset with any acknowledgement number completes a passive handshake.
-/

namespace Zigix.Tcp

def Answers (iss : BitVec 32) (c : TcpConnection) (h : Header) : Prop :=
  h.has RST = false ∧ h.ackNum = iss + 1 ∧
    (c.state = .synSent → h.flags &&& (SYN ||| ACK) = SYN ||| ACK)

/-- Opening the connection, moving `send_unack` and queueing the connection for `accept` take an `Answers` segment. -/
def Authentic (iss : BitVec 32) (c : TcpConnection) (h : Header) (c' : TcpConnection) (out : List Effect) : Prop :=
  c.state = .synReceived ∨ c.state = .synSent →
    c'.state = .established ∨ c'.sendUnack ≠ c.sendUnack ∨ (∃ p i, .queueAcceptedConnection p i ∈ out) →
      Answers iss c h

/-- An acknowledgement that reaches a connection in `syn_received`, and a SYN with an acknowledgement that reaches one
in `syn_sent`, carries no RST and the number `send_next`. -/
def Expected (c : TcpConnection) (h : Header) : Prop :=
  (c.state = .synReceived → h.has ACK = true → h.has RST = false ∧ h.ackNum = c.sendNext) ∧
    (c.state = .synSent → h.flags &&& (SYN ||| ACK) = SYN ||| ACK → h.has RST = false ∧ h.ackNum = c.sendNext)

/-- A connection in its handshake, whose own SYN had the number `iss`. -/
structure Greeting (iss : BitVec 32) (c : TcpConnection) : Prop where
  state : c.state = .synReceived ∨ c.state = .synSent
  sendNext : c.sendNext = iss + 1

/-- `Q` holds of every transition along a sequence of segments, each with the tick it arrives at. -/
def Along (arch : Arch) (idx : Nat) (Q : TcpConnection → Header → TcpConnection → List Effect → Prop)
    (c : TcpConnection) : List (Nat × Header) → Prop
  | [] => True
  | (now, h) :: hs => ∀ c' out, onSegment arch now idx c h = some (c', out) → Q c h c' out ∧ Along arch idx Q c' hs

section
variable {arch : Arch} {idx now : Nat} {iss : BitVec 32} {c c' : TcpConnection} {h : Header} {out : List Effect}

theorem wakeAll_no_accept (c : TcpConnection) (p : BitVec 16) (i : Nat) :
    .queueAcceptedConnection p i ∉ (wakeAll c).2 := by
  unfold wakeAll wakeWaiter
  split <;> simp

/-! ## One segment -/

theorem onSynReceived_authentic_iff (hstate : c.state = .synReceived) (hnext : c.sendNext = iss + 1) :
    Authentic iss c h (onSynReceived arch idx c h).1 (onSynReceived arch idx c h).2 ↔ Expected c h := by
  unfold onSynReceived
  constructor
  · intro hauth
    refine ⟨fun _ hack => ?_, fun hsent => by simp [hstate] at hsent⟩
    rw [if_pos hack] at hauth
    obtain ⟨hrst, hnum, -⟩ := hauth (.inl hstate) (.inl rfl)
    exact ⟨hrst, hnum.trans hnext.symm⟩
  · intro hexp _ hchange
    by_cases hack : h.has ACK = true
    · obtain ⟨hrst, hnum⟩ := hexp.1 hstate hack
      exact ⟨hrst, hnum.trans hnext, fun hsent => by simp [hstate] at hsent⟩
    · rw [if_neg hack] at hchange
      split at hchange
      · split at hchange <;> simp at hchange
      · simp [hstate] at hchange

theorem onSynSent_authentic_iff (hstate : c.state = .synSent) (hnext : c.sendNext = iss + 1) :
    Authentic iss c h (onSynSent c h).1 (onSynSent c h).2 ↔ Expected c h := by
  unfold onSynSent
  constructor
  · intro hauth
    refine ⟨fun hrecv => by simp [hstate] at hrecv, fun _ hflags => ?_⟩
    rw [if_pos hflags] at hauth
    obtain ⟨hrst, hnum, -⟩ := hauth (.inr hstate) (.inl (by simp [wakeAll]))
    exact ⟨hrst, hnum.trans hnext.symm⟩
  · intro hexp _ hchange
    by_cases hflags : h.flags &&& (SYN ||| ACK) = SYN ||| ACK
    · obtain ⟨hrst, hnum⟩ := hexp.2 hstate hflags
      exact ⟨hrst, hnum.trans hnext, fun _ => hflags⟩
    · rw [if_neg hflags] at hchange
      split at hchange
      · rcases hchange with hest | hmoved | ⟨p, i, hacc⟩
        · simp [wakeAll] at hest
        · refine absurd ?_ hmoved
          unfold wakeAll wakeWaiter
          split <;> rfl
        · exact absurd hacc (wakeAll_no_accept _ p i)
      · simp [hstate] at hchange

theorem greeting_step (hc : Greeting iss c) (hs : onSegment arch now idx c h = some (c', out)) :
    (Authentic iss c h c' out ↔ Expected c h) ∧ (c' = c ∨ c'.state = .established ∨ c'.state = .closed) := by
  unfold onSegment at hs
  rcases hc.state with hstate | hstate
  · rw [hstate] at hs
    have hiff : Authentic iss c h (onSynReceived arch idx c h).1 (onSynReceived arch idx c h).2 ↔ Expected c h :=
      onSynReceived_authentic_iff hstate hc.sendNext
    have hres := Option.some.inj hs
    rw [hres] at hiff
    refine ⟨hiff, ?_⟩
    unfold onSynReceived at hres
    split at hres
    · cases hres
      exact .inr (.inl rfl)
    split at hres
    · cases hres
      exact .inr (.inr rfl)
    · cases hres
      exact .inl rfl
  · rw [hstate] at hs
    have hiff := onSynSent_authentic_iff (h := h) hstate hc.sendNext
    have hres := Option.some.inj hs
    rw [hres] at hiff
    refine ⟨hiff, ?_⟩
    unfold onSynSent at hres
    split at hres
    · cases hres
      exact .inr (.inl (by simp [wakeAll]))
    split at hres
    · cases hres
      exact .inr (.inr (by simp))
    · cases hres
      exact .inl rfl

def Past (c : TcpConnection) : Prop := c.state ≠ .synReceived ∧ c.state ≠ .synSent

theorem onEstablished_past (hstate : c.state = .established) (hs : onEstablished arch now c h = some (c', out)) :
    Past c' := by
  unfold onEstablished at hs
  split at hs
  · have hclosed : (receiveRst arch c).1.state = .closed := by
      cases arch with
      | x86 => exact wakeWaiter_state _
      | aarch64 => exact wakeWaiter_state _
    have hpast : Past (receiveRst arch c).1 := by simp [Past, hclosed]
    rwa [Option.some.inj hs] at hpast
  · obtain ⟨⟨c₁, acked⟩, hack, hs⟩ := Option.map_eq_some_iff.1 hs
    cases hs
    have hpast₁ : Past c₁ := by
      rcases (receiveAck_sameRx hack).state with hst | hst <;> simp [Past, hst, hstate]
    show Past (receiveFin (receive arch c₁ h).1 h).1
    unfold receiveFin
    split
    · simp [Past, wakeAll]
    · simpa [Past] using hpast₁

theorem onSegment_past (hpast : Past c) (hs : onSegment arch now idx c h = some (c', out)) : Past c' := by
  unfold onSegment at hs
  split at hs
  · rename_i hstate
    exact absurd hstate hpast.2
  · rename_i hstate
    exact absurd hstate hpast.1
  · rename_i hstate
    exact onEstablished_past hstate hs
  · have hnext : Past (onFinWait1 c h).1 := by
      unfold onFinWait1
      split
      · dsimp only
        split <;> simp [Past, toTimeWait]
      · exact hpast
    rwa [Option.some.inj hs] at hnext
  · have hnext : Past (onFinWait2 c h).1 := by
      unfold onFinWait2
      split
      · simp [Past, toTimeWait]
      · exact hpast
    rwa [Option.some.inj hs] at hnext
  · have hnext : Past (onLastAck c h).1 := by
      unfold onLastAck
      split
      · simp [Past]
      · exact hpast
    rwa [Option.some.inj hs] at hnext
  · cases hs
    exact hpast

/-! ## Sequences of segments -/

theorem Past.along (hpast : Past c) (iss : BitVec 32) (hs : List (Nat × Header)) :
    Along arch idx (Authentic iss) c hs ∧ Along arch idx (fun c h _ _ => Expected c h) c hs := by
  induction hs generalizing c with
  | nil => exact ⟨trivial, trivial⟩
  | cons p hs ih =>
    refine ⟨fun c' out hstep => ⟨fun hopen => ?_, (ih (onSegment_past hpast hstep)).1⟩,
      fun c' out hstep => ⟨⟨fun h => absurd h hpast.1, fun h => absurd h hpast.2⟩,
        (ih (onSegment_past hpast hstep)).2⟩⟩
    exact absurd hopen (not_or.2 hpast)

/-- **Handshake authenticity.** Over a sequence of incoming segments every transition of a connection out of its
handshake is authentic if and only if every acknowledgement that reaches it there is expected. -/
theorem authentic_iff (hc : Greeting iss c) (hs : List (Nat × Header)) :
    Along arch idx (Authentic iss) c hs ↔ Along arch idx (fun c h _ _ => Expected c h) c hs := by
  induction hs generalizing c with
  | nil => exact Iff.rfl
  | cons p hs ih =>
    refine forall_congr' fun c' => forall_congr' fun out => forall_congr' fun hstep => ?_
    obtain ⟨hiff, hnext⟩ := greeting_step hc hstep
    refine and_congr hiff ?_
    rcases hnext with rfl | hest | hclosed
    · exact ih hc
    · have hpast : Past c' := by simp [Past, hest]
      exact iff_of_true (hpast.along iss hs).1 (hpast.along iss hs).2
    · have hpast : Past c' := by simp [Past, hclosed]
      exact iff_of_true (hpast.along iss hs).1 (hpast.along iss hs).2

end

/-! ## A forged handshake -/

def halfOpen : TcpConnection := { serverConn (.atTick 0) 80 2 1000 99 with sendNext := 1 }

/-- A segment from port 1000 of host 2 with acknowledgement number `ack`. -/
def reply (flags : BitVec 8) (ack : BitVec 32) : Header :=
  { srcPort := 1000, dstPort := 80, seqNum := 100, ackNum := ack, flags, peerWin := 4096, payload := [] }

theorem authentic_iff_reply : Greeting 0 halfOpen ∧
    (Along .x86 0 (Authentic 0) halfOpen [(5, reply ACK 1)] ↔
      Along .x86 0 (fun c h _ _ => Expected c h) halfOpen [(5, reply ACK 1)]) :=
  ⟨⟨.inl rfl, rfl⟩, authentic_iff ⟨.inl rfl, rfl⟩ _⟩

theorem reset_opens (arch : Arch) : ¬ Along arch 0 (Authentic 0) halfOpen [(5, reply (RST ||| ACK) 77)] := by
  intro hall
  obtain ⟨hauth, -⟩ := hall { halfOpen with sendUnack := 77, state := .established } [.queueAcceptedConnection 80 0] rfl
  exact absurd (hauth (.inl rfl) (.inl rfl)).1 (by decide)

/-- A reset that acknowledges number 77 establishes the connection and queues it for `accept`, on both stacks. -/
theorem forged_handshake :
    ¬ Along .x86 0 (Authentic 0) halfOpen [(5, reply (RST ||| ACK) 77)] ∧
      ¬ Along .aarch64 0 (Authentic 0) halfOpen [(5, reply (RST ||| ACK) 77)] :=
  ⟨reset_opens .x86, reset_opens .aarch64⟩

end Zigix.Tcp
