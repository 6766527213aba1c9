import Zigix.Net.Sender

/-!
# The end of loss recovery (`processAck`, `fastRetransmit` in `kernel/net/tcp.zig`)

* `recovery_ends` : recovery ends with those bytes exactly on this condition, and then losses and acknowledgements count again;
* `recovery_sticks` : all bytes are acknowledged, and recovery goes on.
-/

namespace Zigix.Tcp

def leftAfter (c c' : TcpConnection) (left : Nat) : Nat :=
  if c.inRecovery = false ∧ c'.inRecovery = true then c'.txSent else left - (c'.sendUnack - c.sendUnack).toNat

def ackedBytes (c : TcpConnection) (ackNum : BitVec 32) : Nat := (ackNum - c.sendUnack).toNat

def IsNew (c : TcpConnection) (ackNum : BitVec 32) : Prop := 0 < ackedBytes c ackNum ∧ ackedBytes c ackNum ≤ c.txCount

def SendEvent.Ends (c : TcpConnection) (left : Nat) : SendEvent → Prop
  | .ack ackNum _ => c.inRecovery = true → IsNew c ackNum → left ≤ ackedBytes c ackNum → c.cwnd ≤ ackedBytes c ackNum
  | _ => True

/-- `fastRetransmit` is called by `processAck` only. -/
def SendEvent.Called : SendEvent → Prop
  | .fastRetransmit => False
  | _ => True

/-- A loss has been noticed. -/
def InRecovery (c : TcpConnection) (left : Nat) : Prop := c.inRecovery = true → 0 < left

section
variable {arch : Arch} {now win left : Nat} {c c' : TcpConnection} {ack : BitVec 32} {out : List Effect}

/-! ## What an acknowledgement does -/

theorem growCwnd_recovery {acked : Nat} (h : growCwnd c acked = some c') :
    c' = { c with cwnd := grownCwnd c, inRecovery := c.inRecovery && decide (acked < c.cwnd) } := by
  have hgrown := growCwnd_eq h
  unfold growCwnd at h
  cases hrec : c.inRecovery with
  | true =>
    rw [if_pos hrec] at h
    obtain rfl := Option.some.inj h
    have hcwnd : grownCwnd c = c.cwnd := if_pos hrec
    rw [hcwnd, Bool.true_and]
    split
    · next hge =>
      rw [decide_eq_false (Nat.not_lt.2 hge)]
    · next hlt =>
      rw [decide_eq_true (Nat.lt_of_not_le hlt), ← hrec]
  | false =>
    rw [if_neg (by rw [hrec]; decide)] at h
    obtain ⟨r, rfl⟩ := hgrown
    have hkept : r = c.inRecovery := by
      split at h
      · obtain ⟨w, -, h⟩ := Option.bind_eq_some_iff.1 h
        exact (congrArg TcpConnection.inRecovery (Option.some.inj h)).symm
      · split at h
        · cases h
        · obtain ⟨w, -, h⟩ := Option.bind_eq_some_iff.1 h
          exact (congrArg TcpConnection.inRecovery (Option.some.inj h)).symm
    rw [hkept, hrec, Bool.false_and]

theorem flush_recovery (h : flushSendBuffer now c = some (c', out)) :
    c'.inRecovery = c.inRecovery ∧ c'.sendUnack = c.sendUnack ∧ c'.cwnd = c.cwnd := by
  rcases flushSendBuffer_cases h with ⟨rfl, -⟩ | ⟨n, -, -, -, -, heq⟩
  · exact ⟨rfl, rfl, rfl⟩
  · obtain ⟨segs, count, q, -, htransmit⟩ := transmit_eq now c n
    rw [htransmit] at heq
    obtain ⟨rfl, -⟩ := Prod.mk.inj heq
    exact ⟨rfl, rfl, rfl⟩

theorem wakeWaiter_recovery (c : TcpConnection) : (wakeWaiter c).1.inRecovery = c.inRecovery ∧
    (wakeWaiter c).1.sendUnack = c.sendUnack ∧ (wakeWaiter c).1.txSent = c.txSent := by
  unfold wakeWaiter
  split <;> exact ⟨rfl, rfl, rfl⟩

theorem retransmit_recovery (arch : Arch) (now : Nat) (c : TcpConnection) :
    (retransmitSegment arch now c 0).1.inRecovery = c.inRecovery ∧
      (retransmitSegment arch now c 0).1.sendUnack = c.sendUnack ∧ (retransmitSegment arch now c 0).1.txSent = c.txSent := by
  rcases retransmitSegment_cases arch now c with ⟨heq, -⟩ | ⟨-, -, heq⟩ | ⟨-, -, heq⟩ <;> rw [heq]
  · exact ⟨rfl, rfl, rfl⟩
  · cases arch with
    | x86 => exact wakeWaiter_recovery _
    | aarch64 => exact ⟨rfl, rfl, rfl⟩
  · exact ⟨rfl, rfl, rfl⟩

theorem fastRetransmit_recovery (arch : Arch) (now : Nat) (c : TcpConnection) :
    (fastRetransmit arch now c).1.inRecovery = true ∧
      (fastRetransmit arch now c).1.sendUnack = c.sendUnack ∧ (fastRetransmit arch now c).1.txSent = c.txSent := by
  unfold fastRetransmit
  dsimp only
  split
  · exact retransmit_recovery arch now _
  · exact ⟨rfl, rfl, rfl⟩

theorem poll_recovery (arch : Arch) (now : Nat) (c : TcpConnection) :
    (pollConn arch now c).1.inRecovery = c.inRecovery ∧ (pollConn arch now c).1.sendUnack = c.sendUnack := by
  unfold pollConn
  split
  · split
    · obtain ⟨hrec, hunack, -⟩ := retransmit_recovery arch now
        { c with ssthresh := max (c.cwnd / 2) (mss * 2), cwnd := mss }
      exact ⟨hrec, hunack⟩
    · exact ⟨rfl, rfl⟩
  · exact ⟨rfl, rfl⟩

/-- **What an acknowledgement does**: one of nothing new may begin recovery, with bytes in flight; one of new data ends it if
it covers as many bytes as the window holds. -/
theorem processAck_recovery (h : processAck arch now c ack win = some (c', out)) :
    ¬ IsNew c ack ∧ c'.sendUnack = c.sendUnack ∧ (c'.inRecovery = c.inRecovery ∨
      c.inRecovery = false ∧ c'.inRecovery = true ∧ 0 < c'.txSent) ∨
    IsNew c ack ∧ c'.sendUnack = ack ∧ c'.cwnd = grownCwnd c ∧
      c'.inRecovery = (c.inRecovery && decide (ackedBytes c ack < c.cwnd)) := by
  unfold processAck at h
  dsimp only at h
  split at h
  · next hold =>
    refine .inl ⟨fun hnew => ?_, ?_⟩
    · unfold IsNew ackedBytes at hnew
      omega
    unfold duplicateAck at h
    split at h
    · next hdup =>
      obtain ⟨n, -, h⟩ := Option.bind_eq_some_iff.1 h
      dsimp only at h
      split at h
      · next henter =>
        obtain ⟨hrec, hunack, hsent⟩ := fastRetransmit_recovery arch now { c with peerWindow := win, dupAckCount := n }
        rw [Option.some.inj h] at hrec hunack hsent
        exact ⟨hunack, .inr ⟨henter.2, hrec, by rw [hsent]; exact hdup.2⟩⟩
      · cases h
        exact ⟨rfl, .inl rfl⟩
    · cases h
      exact ⟨rfl, .inl rfl⟩
  · next hnew =>
    refine .inr ⟨by unfold IsNew ackedBytes; omega, ?_⟩
    unfold newAck at h
    obtain ⟨c₁, h₁, h⟩ := Option.bind_eq_some_iff.1 h
    obtain ⟨c₂, h₂, h⟩ := Option.bind_eq_some_iff.1 h
    obtain ⟨srtt, rttvar, rto, m, rfl, -⟩ := sampleRtt_eq h₁
    obtain rfl := growCwnd_recovery h₂
    obtain ⟨hrec, hunack, hcwnd⟩ := flush_recovery h
    exact ⟨hunack, hcwnd, hrec⟩

/-! ## The end of recovery -/

theorem leftAfter_same (hrec : c'.inRecovery = c.inRecovery) (hunack : c'.sendUnack = c.sendUnack) :
    leftAfter c c' left = left := by
  unfold leftAfter
  rw [hrec, hunack, BitVec.sub_self, if_neg fun h => Bool.false_ne_true (h.1.symm.trans h.2)]
  rfl

/-- **One step** keeps the bytes that recovery waits for exactly if an acknowledgement of the last of them ends it. -/
theorem inRecovery_step (h : InRecovery c left) {env : Env} {e : SendEvent} {o : Output} (hcalled : e.Called)
    (hs : sendStep arch env c e = some (c', o)) : InRecovery c' (leftAfter c c' left) ↔ e.Ends c left := by
  have hkept : c'.inRecovery = c.inRecovery → c'.sendUnack = c.sendUnack → InRecovery c' (leftAfter c c' left) :=
    fun hrec hunack => by
      rw [leftAfter_same hrec hunack]
      exact fun hin => h (hrec.symm.trans hin)
  cases e with
  | sendData data =>
    refine iff_of_true ?_ trivial
    obtain ⟨⟨n, c₁, out⟩, hr, hs⟩ := Option.map_eq_some_iff.1 hs
    cases hs
    unfold sendConn at hr
    split at hr
    · cases hr
      exact hkept rfl rfl
    split at hr
    · cases hr
      exact hkept rfl rfl
    · obtain ⟨r, hflush, hr⟩ := Option.bind_eq_some_iff.1 hr
      cases hr
      obtain ⟨hrec, hunack, -⟩ := flush_recovery hflush
      exact hkept hrec hunack
  | flush =>
    refine iff_of_true ?_ trivial
    obtain ⟨⟨c₁, out⟩, hflush, hs⟩ := Option.map_eq_some_iff.1 hs
    cases hs
    obtain ⟨hrec, hunack, -⟩ := flush_recovery hflush
    exact hkept hrec hunack
  | fastRetransmit => exact hcalled.elim
  | poll =>
    refine iff_of_true ?_ trivial
    cases hs
    obtain ⟨hrec, hunack⟩ := poll_recovery arch env.ticks c
    exact hkept hrec hunack
  | ack q win =>
    obtain ⟨⟨c₁, out⟩, hack, hs⟩ := Option.map_eq_some_iff.1 hs
    cases hs
    obtain ⟨hnot, hunack, hrec | ⟨hbefore, hafter, hsent⟩⟩ | ⟨hnew, hunack, -, hrec⟩ := processAck_recovery hack
    · exact iff_of_true (hkept hrec hunack) fun _ hnew => absurd hnew hnot
    · refine iff_of_true ?_ fun _ hnew => absurd hnew hnot
      unfold leftAfter
      rw [if_pos ⟨hbefore, hafter⟩]
      exact fun _ => hsent
    · have hleft : leftAfter c c₁ left = left - ackedBytes c q := by
        unfold leftAfter ackedBytes
        rw [hunack, if_neg fun h => ?_]
        rw [hrec, h.1, Bool.false_and] at h
        exact Bool.false_ne_true h.2
      unfold InRecovery SendEvent.Ends
      rw [hleft, hrec, Bool.and_eq_true, decide_eq_true_iff]
      constructor
      · intro hwaits hin _ hcovers
        by_contra hlt
        have := hwaits ⟨hin, Nat.lt_of_not_le hlt⟩
        omega
      · rintro hends ⟨hin, hlt⟩
        by_contra hzero
        have := hends hin hnew (by omega)
        omega

theorem third_duplicate (hrec : c.inRecovery = false) (hsent : 0 < c.txSent) (hlow : 2 ≤ c.dupAckCount)
    (hhigh : c.dupAckCount < 255) :
    ∃ c' out, processAck arch now c c.sendUnack win = some (c', out) ∧ c'.inRecovery = true := by
  unfold processAck
  dsimp only
  rw [BitVec.sub_self, if_pos (.inl rfl)]
  unfold duplicateAck addU8
  rw [if_pos ⟨rfl, hsent⟩]
  dsimp only
  rw [if_pos (show c.dupAckCount + 1 < 2 ^ 8 by omega), Option.bind_eq_bind, Option.bind_some,
    if_pos ⟨show c.dupAckCount + 1 ≥ 3 by omega, hrec⟩]
  exact ⟨_, _, rfl, (fastRetransmit_recovery ..).1⟩

end

/-! ## Runs -/

inductive RecoveryRun (arch : Arch) : TcpConnection → Nat → Prop
  | start {c} : c.inRecovery = false → RecoveryRun arch c 0
  | step {c c' left env e o} : RecoveryRun arch c left → SendEvent.Called e → SendEvent.Ends c left e →
      sendStep arch env c e = some (c', o) → RecoveryRun arch c' (leftAfter c c' left)

section
variable {arch : Arch} {c : TcpConnection} {left : Nat}

theorem recoveryRun_waits (run : RecoveryRun arch c left) : InRecovery c left := by
  induction run with
  | start h => exact fun hin => absurd (h.symm.trans hin) Bool.false_ne_true
  | step _ hcalled hends hs ih => exact (inRecovery_step ih hcalled hs).2 hends

/-- **Loss recovery ends.** In a run in which the acknowledgement of the last bytes that were outstanding when recovery began
covers as many bytes as the window holds, recovery only goes on while some of these bytes are not acknowledged; a step keeps
that exactly on this condition. Outside of recovery new data grows the window, and the third duplicate retransmits. -/
theorem recovery_ends (run : RecoveryRun arch c left) : (c.inRecovery = true → 0 < left) ∧
    (∀ (env : Env) (e : SendEvent) c' o, e.Called → sendStep arch env c e = some (c', o) →
      ((c'.inRecovery = true → 0 < leftAfter c c' left) ↔ e.Ends c left)) ∧
    (c.inRecovery = false → ∀ now win,
      (∀ ack c' out, processAck arch now c ack win = some (c', out) → IsNew c ack →
        c'.cwnd = if c.cwnd < c.ssthresh then c.cwnd + mss else c.cwnd + mss * mss / c.cwnd) ∧
      (0 < c.txSent → 2 ≤ c.dupAckCount → c.dupAckCount < 255 →
        ∃ c' out, processAck arch now c c.sendUnack win = some (c', out) ∧ c'.inRecovery = true)) := by
  have hwaits := recoveryRun_waits run
  refine ⟨hwaits, fun env e c' o hcalled hs => inRecovery_step hwaits hcalled hs, fun hrec now win => ⟨?_, ?_⟩⟩
  · intro ack c' out hack hnew
    obtain ⟨hnot, -⟩ | ⟨-, -, hcwnd, -⟩ := processAck_recovery hack
    · exact absurd hnew hnot
    · rw [hcwnd, grownCwnd, if_neg (by rw [hrec]; decide)]
  · exact third_duplicate hrec

theorem RecoveryRun.next (run : RecoveryRun arch c left) (env : Env) (e : SendEvent) (hcalled : e.Called)
    (hends : e.Ends c left) (hs : (sendStep arch env c e).isSome) :
    RecoveryRun arch ((sendStep arch env c e).get hs).1 (leftAfter c ((sendStep arch env c e).get hs).1 left) :=
  .step run hcalled hends (Option.some_get hs).symm

end

/-- Three bytes in flight, three duplicates: recovery waits for the three bytes. -/
theorem recovery_ends_three_bytes : ∃ c left, RecoveryRun .x86 c left ∧ c.inRecovery = true ∧ left = 3 ∧
    (c.inRecovery = true → 0 < left) := by
  have r₀ : RecoveryRun .x86 openConn 0 := .start rfl
  have r₁ := r₀.next (.atTick 0) (.sendData [1, 2, 3]) trivial trivial (by decide +kernel)
  have r₂ := r₁.next (.atTick 1) (.ack 0 4096) trivial (by unfold SendEvent.Ends IsNew; decide +kernel) (by decide +kernel)
  have r₃ := r₂.next (.atTick 2) (.ack 0 4096) trivial (by unfold SendEvent.Ends IsNew; decide +kernel) (by decide +kernel)
  have r₄ := r₃.next (.atTick 3) (.ack 0 4096) trivial (by unfold SendEvent.Ends IsNew; decide +kernel) (by decide +kernel)
  exact ⟨_, _, r₄, by decide +kernel, by decide +kernel, (recovery_ends r₄).1⟩

/-- Three bytes in flight, three duplicates, and then all three bytes are acknowledged. -/
theorem recovery_sticks : ∃ c left c' o, RecoveryRun .x86 c left ∧ c.inRecovery = true ∧ left = c.txSent ∧
    sendStep .x86 (.atTick 4) c (.ack 3 4096) = some (c', o) ∧ leftAfter c c' left = 0 ∧ c'.txSent = 0 ∧
    c'.inRecovery = true := by
  have r₀ : RecoveryRun .x86 openConn 0 := .start rfl
  have r₁ := r₀.next (.atTick 0) (.sendData [1, 2, 3]) trivial trivial (by decide +kernel)
  have r₂ := r₁.next (.atTick 1) (.ack 0 4096) trivial (by unfold SendEvent.Ends IsNew; decide +kernel) (by decide +kernel)
  have r₃ := r₂.next (.atTick 2) (.ack 0 4096) trivial (by unfold SendEvent.Ends IsNew; decide +kernel) (by decide +kernel)
  have r₄ := r₃.next (.atTick 3) (.ack 0 4096) trivial (by unfold SendEvent.Ends IsNew; decide +kernel) (by decide +kernel)
  refine ⟨_, _, _, _, r₄, by decide +kernel, by decide +kernel,
    (Option.some_get (show (sendStep .x86 (.atTick 4) _ (.ack 3 4096)).isSome by decide +kernel)).symm,
    by decide +kernel, by decide +kernel, by decide +kernel⟩

end Zigix.Tcp
