import Zigix.Net.SlotOwners

/-!
# Runs of the socket layer

* `Sound.handleTcp` : a segment keeps `Sound` if it is `SegmentOrderly`;
* `slots_owned` : in every run of orderly steps each reference is to the connection it was made for.
-/

namespace Zigix.Net

open Tcp

section
variable {h h' : Host} {i : Fin maxSockets} {c : Slot} {conn conn' : TcpConnection} {n : Nat} {env : Env}

/-! ## Segments -/

/-- No connection is queued for `accept`. -/
def NoAccept (out : List Effect) : Prop := ∀ e ∈ out, e.isAccept = false

theorem NoAccept.append {out out' : List Effect} (hout : NoAccept out) (hout' : NoAccept out') :
    NoAccept (out ++ out') :=
  fun e he => (List.mem_append.1 he).elim (hout e) (hout' e)

theorem NoAccept.send (c : TcpConnection) (flags : BitVec 8) (seq : BitVec 32) (payload : List Byte) :
    NoAccept [sendSegmentWithSeq c flags seq payload] := by
  intro e he
  rw [List.mem_singleton.1 he]
  rfl

theorem NoAccept.nil : NoAccept [] := nofun

theorem wakeWaiter_noAccept (c : TcpConnection) : NoAccept (wakeWaiter c).2 := by
  unfold wakeWaiter NoAccept
  split <;> simp [Effect.isAccept]

theorem wakeAll_noAccept (c : TcpConnection) : NoAccept (wakeAll c).2 :=
  (wakeWaiter_noAccept c).append fun e he => by
    rw [List.mem_singleton.1 he]
    rfl

theorem flushSendBuffer_noAccept {now : Nat} {out : List Effect} (hf : flushSendBuffer now conn = some (conn', out)) :
    NoAccept out := by
  rcases flushSendBuffer_cases hf with ⟨-, rfl⟩ | ⟨k, -, -, -, -, htransmit⟩
  · exact .nil
  · rw [← (Prod.mk.inj htransmit).2]
    exact .send _ _ _ _

theorem retransmitSegment_noAccept (now : Nat) (c : TcpConnection) : NoAccept (retransmitSegment .x86 now c 0).2 := by
  rcases retransmitSegment_cases .x86 now c with ⟨hr, -⟩ | ⟨-, -, hr⟩ | ⟨-, -, hr⟩
  · rw [hr]
    exact .nil
  · rw [hr]
    exact wakeWaiter_noAccept _
  · rw [hr]
    exact .send _ _ _ _

theorem fastRetransmit_noAccept (now : Nat) (c : TcpConnection) : NoAccept (fastRetransmit .x86 now c).2 := by
  unfold fastRetransmit
  dsimp only
  split
  · exact retransmitSegment_noAccept now _
  · exact .nil

theorem processAck_noAccept {now win : Nat} {ack : BitVec 32} {out : List Effect}
    (hp : processAck .x86 now conn ack win = some (conn', out)) : NoAccept out := by
  unfold processAck at hp
  dsimp only at hp
  split at hp
  · unfold duplicateAck at hp
    split at hp
    · obtain ⟨m, -, hp⟩ := Option.bind_eq_some_iff.1 hp
      dsimp only at hp
      split at hp
      · have := fastRetransmit_noAccept now { conn with peerWindow := win, dupAckCount := m }
        rwa [Option.some.inj hp] at this
      · cases hp
        exact .nil
    · cases hp
      exact .nil
  · unfold newAck at hp
    obtain ⟨c₁, -, hp⟩ := Option.bind_eq_some_iff.1 hp
    obtain ⟨c₂, -, hp⟩ := Option.bind_eq_some_iff.1 hp
    exact flushSendBuffer_noAccept hp

theorem sendAck_noAccept (c : TcpConnection) {out : List Effect} (hout : NoAccept out) :
    NoAccept (sendAck c :: out) :=
  (NoAccept.send c ACK c.sendNext []).append hout

theorem receiveRest_noAccept (conn : TcpConnection) (hd : Header) {acked : List Effect} (hacked : NoAccept acked) :
    NoAccept (receiveRest .x86 hd (conn, acked)).2 := by
  have hdata : NoAccept (receiveX86 conn hd).2 := by
    unfold receiveX86
    split
    · exact sendAck_noAccept _ (wakeAll_noAccept _)
    · exact .nil
  have hfin : ∀ c : TcpConnection, NoAccept (receiveFin c hd).2 := by
    intro c
    unfold receiveFin
    split
    · exact sendAck_noAccept _ (wakeAll_noAccept _)
    · exact .nil
  exact (hacked.append hdata).append (hfin _)

theorem SlotOk.wake (h : SlotOk conn n) : SlotOk (wakeWaiter conn).1 n := h.sameRx (wakeWaiter_sameRx conn)

theorem onEstablished_slot {now : Nat} {hd : Header} {out : List Effect} (hok : SlotOk conn n)
    (huse : conn.inUse = true) (hstate : conn.state = .established)
    (hs : onEstablished .x86 now conn hd = some (conn', out)) : NoAccept out ∧ SlotOk conn' n := by
  obtain rfl : n = 1 := hok.owned huse (.inr (.inl hstate))
  unfold onEstablished at hs
  split at hs
  · cases hs
    exact ⟨wakeAll_noAccept _, SlotOk.wake (.one huse nofun)⟩
  · obtain ⟨⟨c₁, acked⟩, hack, hs⟩ := Option.map_eq_some_iff.1 hs
    have hsame := receiveAck_sameRx hack
    have hacked : NoAccept acked := by
      unfold receiveAck at hack
      split at hack
      · exact processAck_noAccept hack
      · cases hack
        exact .nil
    obtain ⟨-, hrestUse, hrestState⟩ := receiveRest_keeps .x86 c₁ hd acked
    have hres := receiveRest_noAccept c₁ hd hacked
    rw [hs] at hrestUse hrestState hres
    refine ⟨hres, .one (hrestUse.trans (hsame.inUse.trans huse)) ?_⟩
    rcases hrestState with heq | heq
    · rcases hsame.state with hc₁ | hc₁
      · rw [heq, hc₁, hstate]
        nofun
      · rw [heq, hc₁]
        nofun
    · rw [heq]
      nofun

theorem toTimeWait_slot (hok : SlotOk conn n) : NoAccept (toTimeWait conn).2 ∧ SlotOk (toTimeWait conn).1 n := by
  refine ⟨sendAck_noAccept _ (wakeWaiter_noAccept _), SlotOk.wake ?_⟩
  exact hok.move rfl nofun (by rintro (h | h | h) <;> cases h)

def Completes (c : TcpConnection) (hd : Header) : Prop := c.state = .synReceived ∧ hd.has ACK = true

theorem onSegment_slot {now idx : Nat} {hd : Header} {out : List Effect} (hok : SlotOk conn n)
    (huse : conn.inUse = true) (hnot : ¬ Completes conn hd)
    (hlast : conn.state = .lastAck → hd.has ACK = true → n = 0)
    (hs : onSegment .x86 now idx conn hd = some (conn', out)) : NoAccept out ∧ SlotOk conn' n := by
  unfold onSegment at hs
  split at hs
  · rename_i hstate
    obtain rfl : n = 1 := hok.owned huse (.inl hstate)
    have hres := Option.some.inj hs
    unfold onSynSent at hres
    split at hres
    · cases hres
      exact ⟨sendAck_noAccept _ (wakeAll_noAccept _), SlotOk.wake (.one huse nofun)⟩
    split at hres
    · cases hres
      exact ⟨wakeAll_noAccept _, SlotOk.wake (.one huse nofun)⟩
    · cases hres
      exact ⟨.nil, hok⟩
  · rename_i hstate
    obtain rfl : n = 0 := hok.handshake huse hstate
    have hres := Option.some.inj hs
    unfold onSynReceived at hres
    rw [if_neg fun hack => hnot ⟨hstate, hack⟩] at hres
    split at hres
    · cases hres
      exact ⟨.nil, .zero nofun⟩
    · cases hres
      exact ⟨.nil, hok⟩
  · rename_i hstate
    exact onEstablished_slot hok huse hstate hs
  · have hres := Option.some.inj hs
    unfold onFinWait1 at hres
    split at hres
    · split at hres
      · have hsent : SlotOk { conn with sendUnack := hd.ackNum } n := hok.sameState rfl rfl
        have hwait := toTimeWait_slot hsent
        rwa [hres] at hwait
      · cases hres
        exact ⟨.nil, hok.move rfl nofun (by rintro (h | h | h) <;> cases h)⟩
    · cases hres
      exact ⟨.nil, hok⟩
  · have hres := Option.some.inj hs
    unfold onFinWait2 at hres
    split at hres
    · have hwait := toTimeWait_slot hok
      rwa [hres] at hwait
    · cases hres
      exact ⟨.nil, hok⟩
  · rename_i hstate
    have hres := Option.some.inj hs
    unfold onLastAck at hres
    split at hres
    · rename_i hack
      obtain rfl := hlast hstate hack
      have hwake := wakeWaiter_noAccept { conn with state := .closed, inUse := false }
      have hfree : SlotOk (wakeWaiter { conn with state := .closed, inUse := false }).1 0 := SlotOk.wake (.zero nofun)
      rw [hres] at hwake hfree
      exact ⟨hwake, hfree⟩
    · cases hres
      exact ⟨.nil, hok⟩
  · cases hs
    exact ⟨.nil, hok⟩

theorem perform_noAccept {out : List Effect} (hout : NoAccept out) : h.perform out = h := by
  induction out with
  | nil => rfl
  | cons e out ih =>
    have he := hout e (List.mem_cons_self ..)
    have hrest := ih fun e' he' => hout e' (List.mem_cons_of_mem _ he')
    cases e with
    | queueAcceptedConnection port idx => cases he
    | send segment => exact hrest
    | wakeProcess pid => exact hrest
    | wakeAllWaiters => exact hrest

theorem findListeningSocket_eq_some {port : BitVec 16} (hfind : findListeningSocket h.sockets port = some i) :
    (h.sockets i).inUse = true ∧ (h.sockets i).listening = true := by
  have := Fin.eq_true_of_find?_eq_some hfind
  simp only [Bool.and_eq_true] at this
  exact this.1

theorem Sound.complete (hs : Sound h) (huse : (h.tcp.connections c).inUse = true)
    (hstate : (h.tcp.connections c).state = .synReceived) {port : BitVec 16}
    (hfind : findListeningSocket h.sockets port = some i) (hroom : (h.sockets i).acceptCount < acceptQueueSize)
    (hconn : conn.inUse = true) (hest : conn.state = .established) :
    Sound (queueAcceptedConnection { h with tcp := h.tcp.set c conn } port c.val) := by
  unfold queueAcceptedConnection
  rw [show findListeningSocket ({ h with tcp := h.tcp.set c conn } : Host).sockets port = some i from hfind]
  dsimp only
  rw [dif_pos hroom]
  obtain ⟨hi, hl⟩ := findListeningSocket_eq_some hfind
  have hok := hs.socketOk hi
  have hholds := holds_enqueue hi hl c.val hroom
  have hzero := (hs.slots c).handshake huse hstate
  have hrefs : (({ h with tcp := h.tcp.set c conn } : Host).setSocket i ((h.sockets i).enqueue c.val hroom)).refs c +
      (h.sockets i).holds.count c.val = h.refs c + ((h.sockets i).enqueue c.val hroom).holds.count c.val :=
    refs_setSocket { h with tcp := h.tcp.set c conn } i ((h.sockets i).enqueue c.val hroom) c
  rw [hzero, hholds, List.count_append, List.count_singleton_self] at hrefs
  have hone :
      (({ h with tcp := h.tcp.set c conn } : Host).setSocket i ((h.sockets i).enqueue c.val hroom)).refs c = 1 := by
    omega
  have hqueued : SocketOk ((h.sockets i).enqueue c.val hroom) :=
    ⟨hok.head_lt, hok.listening, fun hn => absurd (hl.symm.trans hn) nofun⟩
  refine hs.setBoth (fun _ => hqueued) ?_ fun d hd => ?_
  · rw [hone]
    exact .one hconn (by rw [hest]; nofun)
  · have hne : c.val ≠ d.val := fun h => hd (Fin.ext h.symm)
    rw [hholds, List.count_append, List.count_singleton, if_neg (by simpa using hne), Nat.add_zero]

def SegmentOrderly (h : Host) (srcIp : BitVec 32) (data : List Byte) : Prop :=
  ∀ hd, parseHeader data = some hd →
    ∀ c, findConnection h.tcp srcIp hd.srcPort hd.dstPort = some c → hd.has ACK = true →
    ((h.tcp.connections c).state = .synReceived →
      ∃ i, findListeningSocket h.sockets (h.tcp.connections c).localPort = some i ∧
        (h.sockets i).acceptCount < acceptQueueSize) ∧
    ((h.tcp.connections c).state = .lastAck → ∀ i, c.val ∉ (h.sockets i).holds)

theorem findConnection_inUse {remoteIp : BitVec 32} {remotePort localPort : BitVec 16}
    (hfind : findConnection h.tcp remoteIp remotePort localPort = some c) : (h.tcp.connections c).inUse = true := by
  have := Fin.eq_true_of_find?_eq_some hfind
  simp only [Bool.and_eq_true] at this
  exact this.1.1.1

theorem refs_eq_zero (hc : ∀ i, c.val ∉ (h.sockets i).holds) : h.refs c = 0 :=
  Finset.sum_eq_zero fun i _ => List.count_eq_zero.2 (hc i)

theorem Sound.handleTcp (hs : Sound h) {srcIp : BitVec 32} {data : List Byte} (hok : SegmentOrderly h srcIp data)
    (hstep : h.handleTcp env srcIp data = some h') : Sound h' := by
  obtain ⟨⟨tcp, out⟩, htcp, rfl⟩ := Option.map_eq_some_iff.1 hstep
  dsimp only
  unfold Tcp.handleTcp at htcp
  split at htcp
  · cases htcp
    exact hs
  rename_i hd hparse
  split at htcp
  · split at htcp
    · obtain ⟨rfl, rfl⟩ := Prod.mk.inj (Option.some.inj htcp)
      split
      · exact hs
      · rename_i c hslot
        have hfree : (h.tcp.connections c).inUse = false := by
          have := Fin.eq_true_of_find?_eq_some hslot
          simpa using this
        show Sound ({ h with tcp := h.tcp.set c _ } : Host)
        refine hs.setConn ?_
        rw [(hs.slots c).free hfree]
        exact .zero fun _ => by rintro (h | h | h) <;> cases h
    split at htcp
    · cases htcp
      exact hs
    · cases htcp
      exact hs
  · rename_i c hfind
    obtain ⟨⟨conn, out'⟩, hseg, htcp⟩ := Option.bind_eq_some_iff.1 htcp
    cases htcp
    have huse := findConnection_inUse hfind
    show Sound (Host.perform { h with tcp := h.tcp.set c conn } out')
    by_cases hcomp : Completes (h.tcp.connections c) hd
    · obtain ⟨i, hlisten, hroom⟩ := (hok hd hparse c hfind hcomp.2).1 hcomp.1
      unfold onSegment at hseg
      rw [hcomp.1] at hseg
      have hres := Option.some.inj hseg
      unfold onSynReceived at hres
      rw [if_pos hcomp.2] at hres
      cases hres
      exact hs.complete huse hcomp.1 hlisten hroom huse rfl
    · have hlast : (h.tcp.connections c).state = .lastAck → hd.has ACK = true → h.refs c = 0 :=
        fun hst hack => refs_eq_zero ((hok hd hparse c hfind hack).2 hst)
      obtain ⟨hout, hconn⟩ := onSegment_slot (hs.slots c) huse hcomp hlast hseg
      rw [perform_noAccept hout]
      exact hs.setConn hconn

/-! ## Steps -/

/-- **The orderly steps**: `shutdown` comes to an open connection, an `accept` that takes an entry finds a free
socket, and `SegmentOrderly`. -/
def Orderly (h : Host) : SocketEvent → Prop
  | .shutdown i => (h.sockets i).inUse = true → (h.sockets i).sockType = SOCK_STREAM →
      ∀ c, h.conn? (h.sockets i).tcpConnIdx = some c →
        (h.tcp.connections c).state = .established ∨ (h.tcp.connections c).state = .closeWait
  | .accept i _ => (h.sockets i).inUse = true → (h.sockets i).listening = true → 0 < (h.sockets i).acceptCount →
      ∃ j, (h.sockets j).inUse = false
  | .segment srcIp data => SegmentOrderly h srcIp data
  | _ => True

theorem Sound.step (hs : Sound h) {e : SocketEvent} (hok : Orderly h e) (hstep : h.step env e = some h') :
    Sound h' := by
  cases e with
  | socket sockType protocol opened =>
    cases hstep
    exact hs.sysSocket ..
  | connect i ip port pid =>
    cases hstep
    exact hs.sysConnect ..
  | bind i port =>
    cases hstep
    exact hs.sysBind ..
  | listen i =>
    cases hstep
    exact hs.sysListen i
  | accept i opened =>
    cases hstep
    exact hs.sysAccept i opened hok
  | shutdown i =>
    cases hstep
    exact hs.sysShutdown i hok
  | close i =>
    simp only [Host.step] at hstep
    split at hstep
    · rename_i hi
      cases hstep
      exact hs.socketClose hi
    · cases hstep
  | read i count pid =>
    simp only [Host.step] at hstep
    split at hstep
    · rename_i hi
      cases hstep
      exact hs.socketRead hi ..
    · cases hstep
  | write i data sent =>
    simp only [Host.step] at hstep
    split at hstep
    · obtain ⟨r, hr, hstep⟩ := Option.map_eq_some_iff.1 hstep
      cases hstep
      exact hs.socketWrite hr
    · cases hstep
  | segment srcIp data => exact hs.handleTcp hok hstep
  | datagram dstPort data =>
    cases hstep
    exact hs.deliverUdp ..
  | icmpReply srcIp data =>
    cases hstep
    exact hs.deliverIcmpReply ..
  | timerPoll =>
    cases hstep
    exact hs.timerPoll

theorem Sound.boot : Sound Host.boot where
  sockets _ hi := absurd hi nofun
  slots c := by
    have hzero : Host.boot.refs c = 0 := refs_eq_zero fun i => by
      rw [holds_dead (show (Host.boot.sockets i).inUse = false from rfl)]
      exact List.not_mem_nil
    rw [hzero]
    exact .zero nofun

end

/-! ## Runs -/

/-- The tables with their past: `generation` counts how often a slot was handed out, and `since` is that count at the
time when the socket began to refer to the slot. -/
structure History where
  host : Host
  generation : Slot → Nat
  since : Fin maxSockets → Slot → Nat

def Host.refers (h : Host) (i : Fin maxSockets) (c : Slot) : Prop := c.val ∈ (h.sockets i).holds

instance (h : Host) (i : Fin maxSockets) (c : Slot) : Decidable (h.refers i c) :=
  inferInstanceAs (Decidable (c.val ∈ (h.sockets i).holds))

def History.boot : History where
  host := Host.boot
  generation := fun _ => 0
  since := fun _ _ => 0

/-- How often a slot was handed out once the tables are `h'`. -/
def History.handed (t : History) (h' : Host) (c : Slot) : Nat :=
  if (t.host.tcp.connections c).inUse = false ∧ (h'.tcp.connections c).inUse = true then t.generation c + 1
  else t.generation c

def History.next (t : History) (h' : Host) : History where
  host := h'
  generation := t.handed h'
  since i c := if t.host.refers i c then t.since i c else t.handed h' c

/-- The states that steps which meet `ok` lead to. -/
inductive SocketRun (ok : Host → SocketEvent → Prop) : History → Prop
  | boot : SocketRun ok .boot
  | step {env t e h'} : SocketRun ok t → ok t.host e → t.host.step env e = some h' → SocketRun ok (t.next h')

def EstablishedOrLater (s : TcpState) : Prop :=
  s = .established ∨ s = .finWait1 ∨ s = .finWait2 ∨ s = .closeWait ∨ s = .lastAck ∨ s = .timeWait

structure History.Owned (t : History) : Prop where
  unique : ∀ c, (t.host.tcp.connections c).inUse = true → EstablishedOrLater (t.host.tcp.connections c).state →
    t.host.refs c ≤ 1
  same : ∀ i c, t.host.refers i c → t.since i c = t.generation c
  reclaimed : ∀ c, (t.host.tcp.connections c).inUse = true → (t.host.tcp.connections c).state = .established →
    ∃ i, t.host.refers i c

theorem exists_refers {h : Host} {c : Slot} (hc : h.refs c ≠ 0) : ∃ i, h.refers i c := by
  by_contra hnone
  exact hc (refs_eq_zero fun i hi => hnone ⟨i, hi⟩)

theorem same_next {t : History} {h' : Host} (hs : Sound t.host)
    (same : ∀ i c, t.host.refers i c → t.since i c = t.generation c) (i : Fin maxSockets) (c : Slot) :
    (t.next h').since i c = (t.next h').generation c := by
  show (if t.host.refers i c then t.since i c else t.handed h' c) = t.handed h' c
  split
  · rename_i href
    have huse := hs.inUse_of_mem href
    rw [same i c href, History.handed, if_neg (by rintro ⟨hfree, -⟩; exact absurd (huse.symm.trans hfree) nofun)]
  · rfl

theorem SocketRun.sound {t : History} (run : SocketRun Orderly t) :
    Sound t.host ∧ ∀ i c, t.host.refers i c → t.since i c = t.generation c := by
  induction run with
  | boot => exact ⟨.boot, fun _ _ _ => rfl⟩
  | step _ hok hstep ih => exact ⟨ih.1.step hok hstep, fun i c _ => same_next ih.1 ih.2 i c⟩

/-- **In every run of orderly steps** a connection has one owner, a socket's connection is the one it was given, and
no established connection is left to nobody. -/
theorem slots_owned {t : History} (run : SocketRun Orderly t) : t.Owned where
  unique c _ _ := (run.sound.1.slots c).unique
  same := run.sound.2
  reclaimed c huse hstate := by
    have hone := (run.sound.1.slots c).owned huse (.inr (.inl hstate))
    exact exists_refers (by omega)

theorem SocketRun.next {ok : Host → SocketEvent → Prop} {t : History} (run : SocketRun ok t) (env : Env)
    (e : SocketEvent) (hok : ok t.host e) (hs : (t.host.step env e).isSome) :
    SocketRun ok (t.next ((t.host.step env e).get hs)) :=
  .step run hok (Option.some_get hs).symm

/-- The answer of host 2 to a SYN from the first ephemeral port. -/
def synAck : List Byte := [3, 232, 192, 0, 0, 0, 0, 99, 0, 0, 0, 1, 80, 0x12, 16, 0, 0, 0, 0, 0]

theorem segmentOrderly_of_states {h : Host} {srcIp : BitVec 32} {data : List Byte}
    (hstates : ∀ c, (h.tcp.connections c).state ≠ .synReceived ∧ (h.tcp.connections c).state ≠ .lastAck) :
    SegmentOrderly h srcIp data :=
  fun _ _ c _ _ => ⟨fun hst => absurd hst (hstates c).1, fun hst => absurd hst (hstates c).2⟩

theorem slots_owned_connected : ∃ t : History, SocketRun Orderly t ∧
    (t.host.tcp.connections 0).state = .established ∧ t.Owned := by
  have hboot : SocketRun Orderly .boot := .boot
  have hsocket := hboot.next (Env.atTick 0) (.socket SOCK_STREAM 0 .ok) trivial (by decide +kernel)
  have hconnect := hsocket.next (Env.atTick 0) (.connect 0 2 1000 7) trivial (by decide +kernel)
  have hsyn := hconnect.next (Env.atTick 1) (.segment 2 synAck)
    (segmentOrderly_of_states (by decide +kernel)) (by decide +kernel)
  exact ⟨_, hsyn, by decide +kernel, slots_owned hsyn⟩

/-- `shutdown` of a socket that never connected gives its connection back, and the next socket gets it too. -/
theorem slot_given_twice : ¬ ∀ t, SocketRun (fun _ _ => True) t → t.Owned := by
  intro hall
  have hboot : SocketRun (fun _ _ => True) .boot := .boot
  have hsocket := hboot.next (Env.atTick 0) (.socket SOCK_STREAM 0 .ok) trivial (by decide +kernel)
  have hdown := hsocket.next (Env.atTick 0) (.shutdown 0) trivial (by decide +kernel)
  have hagain := hdown.next (Env.atTick 0) (.socket SOCK_STREAM 0 .ok) trivial (by decide +kernel)
  have hsame := (hall _ hagain).same 0 0 (by decide +kernel)
  revert hsame
  decide +kernel

end Zigix.Net
