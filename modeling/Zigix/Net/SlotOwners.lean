import Zigix.Lib.Holders
import Zigix.Net.EndOfStream
import Zigix.Net.GracefulClose
import Zigix.Net.Socket

/-!
# Who refers to a connection

A socket and an entry of an accept queue name a connection by a bare index, while segments and calls give slots back.

* `SlotOk`, `Sound` : what the state of a connection says about the number of its references;
* `Sound.sysSocket`, …, `Sound.socketClose`, `Sound.socketRead` : each call keeps it.
-/

namespace Zigix.Net

open Tcp

/-! ## References -/

abbrev Slot : Type := Fin (maxTcpConnections .x86)

instance : NeZero maxSockets := ⟨by decide⟩

def Socket.holds (s : Socket) : List Nat :=
  if s.inUse then
    if s.listening then Ring.slice acceptQueueSize s.acceptQueue s.acceptHead s.acceptCount
    else if s.sockType = SOCK_STREAM then [s.tcpConnIdx] else []
  else []

/-- The number of live sockets and accept-queue entries that refer to a slot. -/
def Host.refs (h : Host) (c : Slot) : Nat := ∑ i, ((h.sockets i).holds).count c.val

def Open (s : TcpState) : Prop := s = .synSent ∨ s = .established ∨ s = .closeWait

/-- A connection with `n` references: a slot that was given back and a handshake of a peer have none, an open
connection has its one. -/
structure SlotOk (c : TcpConnection) (n : Nat) : Prop where
  unique : n ≤ 1
  free : c.inUse = false → n = 0
  handshake : c.inUse = true → c.state = .synReceived → n = 0
  owned : c.inUse = true → Open c.state → n = 1

structure SocketOk (s : Socket) : Prop where
  head_lt : s.acceptHead < acceptQueueSize
  listening : s.listening = true → maxTcpConnections .x86 ≤ s.tcpConnIdx
  queue : s.listening = false → s.acceptCount = 0

structure Sound (h : Host) : Prop where
  sockets : ∀ i, (h.sockets i).inUse = true → SocketOk (h.sockets i)
  slots : ∀ c, SlotOk (h.tcp.connections c) (h.refs c)

section
variable {h h' : Host} {i j : Fin maxSockets} {c d : Slot} {s : Socket} {conn conn' : TcpConnection} {n : Nat}
  {env : Env}

/-! ## The references of one socket -/

theorem holds_dead (hs : s.inUse = false) : s.holds = [] := by simp [Socket.holds, hs]

theorem holds_listening (hs : s.inUse = true) (hl : s.listening = true) :
    s.holds = Ring.slice acceptQueueSize s.acceptQueue s.acceptHead s.acceptCount := by
  simp [Socket.holds, hs, hl]

theorem holds_stream (hs : s.inUse = true) (hl : s.listening = false) (ht : s.sockType = SOCK_STREAM) :
    s.holds = [s.tcpConnIdx] := by
  simp [Socket.holds, hs, hl, ht]

theorem holds_enqueue (hs : s.inUse = true) (hl : s.listening = true) (idx : Nat)
    (hroom : s.acceptCount < acceptQueueSize) : (s.enqueue idx hroom).holds = s.holds ++ [idx] := by
  have hslice : Ring.slice acceptQueueSize
      (Ring.store (fun k => (s.acceptHead + s.acceptCount + k) % acceptQueueSize) (fun _ => idx) 1 s.acceptQueue)
      s.acceptHead (s.acceptCount + 1) =
        Ring.slice acceptQueueSize s.acceptQueue s.acceptHead s.acceptCount ++ [idx] := Ring.slice_store hroom
  rw [holds_listening hs hl]
  exact (holds_listening (s := s.enqueue idx hroom) hs hl).trans hslice

theorem holds_dequeue (hok : SocketOk s) (hs : s.inUse = true) (hl : s.listening = true) (hpos : 0 < s.acceptCount) :
    s.holds = s.firstQueued :: s.dequeue.holds := by
  have hslice : Ring.slice acceptQueueSize s.acceptQueue s.acceptHead s.acceptCount =
      Ring.slice acceptQueueSize s.acceptQueue s.acceptHead 1 ++
        Ring.slice acceptQueueSize s.acceptQueue ((s.acceptHead + 1) % acceptQueueSize) (s.acceptCount - 1) :=
    Ring.slice_advance hpos
  have hfirst : Ring.slice acceptQueueSize s.acceptQueue s.acceptHead 1 = [s.firstQueued] := by
    show [s.acceptQueue ((s.acceptHead + 0) % acceptQueueSize)] = _
    rw [Nat.add_zero, Nat.mod_eq_of_lt hok.head_lt]
    rfl
  rw [holds_listening hs hl, holds_listening (s := s.dequeue) hs hl, hslice, hfirst]
  rfl

theorem SocketOk.dequeue (hok : SocketOk s) : SocketOk s.dequeue where
  head_lt := Nat.mod_lt _ (by decide)
  listening := hok.listening
  queue hl := by
    show s.acceptCount - 1 = 0
    rw [hok.queue hl]

/-! ## The references of all sockets -/

theorem refs_setSocket (h : Host) (i : Fin maxSockets) (s : Socket) (c : Slot) :
    (h.setSocket i s).refs c + (h.sockets i).holds.count c.val = h.refs c + s.holds.count c.val :=
  Holders.sum_weight_update h.sockets i s fun s => s.holds.count c.val

theorem refs_of_holds (heq : s.holds = (h.sockets i).holds) (c : Slot) : (h.setSocket i s).refs c = h.refs c := by
  have := refs_setSocket h i s c
  rw [heq] at this
  omega

theorem count_le_refs (h : Host) (i : Fin maxSockets) (c : Slot) : (h.sockets i).holds.count c.val ≤ h.refs c :=
  Finset.single_le_sum (f := fun j => (h.sockets j).holds.count c.val) (fun _ _ => Nat.zero_le _) (Finset.mem_univ i)

theorem refs_pos (hc : c.val ∈ (h.sockets i).holds) : 0 < h.refs c :=
  (List.count_pos_iff.2 hc).trans_le (count_le_refs h i c)

/-! ## Connections that keep their references -/

theorem SlotOk.move (h : SlotOk conn n) (huse : conn'.inUse = conn.inUse)
    (hsyn : conn'.state = .synReceived → conn.state = .synReceived)
    (hopen : Open conn'.state → Open conn.state ∨ n = 1) :
    SlotOk conn' n where
  unique := h.unique
  free hu := h.free (huse.symm.trans hu)
  handshake hu hst := h.handshake (huse.symm.trans hu) (hsyn hst)
  owned hu hst := (hopen hst).elim (h.owned (huse.symm.trans hu)) id

theorem SlotOk.sameRx (h : SlotOk conn n) (same : SameRx conn conn') : SlotOk conn' n := by
  refine h.move same.inUse (fun hst => ?_) fun hst => ?_
  · rcases same.state with heq | heq
    · exact heq ▸ hst
    · rw [heq] at hst
      cases hst
  · rcases same.state with heq | heq
    · exact .inl (heq ▸ hst)
    · rw [heq] at hst
      rcases hst with hst | hst | hst <;> cases hst

theorem SlotOk.zero (hopen : conn.inUse = true → ¬ Open conn.state) : SlotOk conn 0 :=
  ⟨Nat.zero_le _, fun _ => rfl, fun _ _ => rfl, fun hu hst => absurd hst (hopen hu)⟩

theorem SlotOk.one (huse : conn.inUse = true) (hsyn : conn.state ≠ .synReceived) : SlotOk conn 1 :=
  ⟨le_refl _, fun hu => absurd (huse.symm.trans hu) nofun, fun _ hst => absurd hst hsyn, fun _ _ => rfl⟩

theorem slotOk_closeConn (conn : TcpConnection) : SlotOk (closeConn conn).1 0 := by
  refine SlotOk.zero fun hu hst => ?_
  unfold closeConn at hu hst
  split at hu <;> rename_i hstate
  · rw [hstate] at hst
    rcases hst with h | h | h <;> cases h
  · rw [hstate] at hst
    rcases hst with h | h | h <;> cases h
  · cases hu

theorem slotOk_freeConn (conn : TcpConnection) : SlotOk (freeConn conn) 0 := .zero nofun

theorem conn?_eq_some {idx : Nat} (hc : h.conn? idx = some c) : c.val = idx ∧ (h.tcp.connections c).inUse = true := by
  unfold Host.conn? at hc
  split at hc
  · split at hc
    · rename_i huse
      cases hc
      exact ⟨rfl, huse⟩
    · cases hc
  · cases hc

theorem conn?_of_inUse (huse : (h.tcp.connections c).inUse = true) : h.conn? c.val = some c := by
  unfold Host.conn?
  rw [dif_pos c.isLt, if_pos huse]

/-! ## Changing one table -/

theorem Sound.socketOk (hs : Sound h) (hi : (h.sockets i).inUse = true) : SocketOk (h.sockets i) := hs.sockets i hi

theorem setSocket_self (h : Host) (i : Fin maxSockets) (s : Socket) : (h.setSocket i s).sockets i = s :=
  Function.update_self ..

theorem setSocket_of_ne (hij : j ≠ i) (s : Socket) : (h.setSocket i s).sockets j = h.sockets j :=
  Function.update_of_ne hij ..

theorem Sound.setSocket (hs : Sound h) (hok : s.inUse = true → SocketOk s)
    (hslots : ∀ c, SlotOk (h.tcp.connections c) ((h.setSocket i s).refs c)) : Sound (h.setSocket i s) where
  sockets j hj := by
    by_cases hij : j = i
    · subst hij
      rw [setSocket_self] at hj ⊢
      exact hok hj
    · rw [setSocket_of_ne hij] at hj ⊢
      exact hs.sockets j hj
  slots := hslots

theorem Sound.setSocket_same (hs : Sound h) (hok : s.inUse = true → SocketOk s)
    (heq : s.holds = (h.sockets i).holds) : Sound (h.setSocket i s) :=
  hs.setSocket hok fun c => (refs_of_holds heq c).symm ▸ hs.slots c

theorem Sound.setConn (hs : Sound h) (hok : SlotOk conn (h.refs c)) : Sound { h with tcp := h.tcp.set c conn } where
  sockets := hs.sockets
  slots d := by
    by_cases hdc : d = c
    · subst hdc
      show SlotOk ((h.tcp.set d conn).connections d) _
      rw [set_self]
      exact hok
    · show SlotOk ((h.tcp.set c conn).connections d) _
      rw [set_of_ne h.tcp hdc]
      exact hs.slots d

theorem Sound.congr (hs : Sound h) (hsockets : h'.sockets = h.sockets)
    (hconns : h'.tcp.connections = h.tcp.connections) : Sound h' where
  sockets i hi := by
    rw [hsockets] at hi ⊢
    exact hs.sockets i hi
  slots c := by
    have hrefs : h'.refs c = h.refs c := by rw [Host.refs, Host.refs, hsockets]
    rw [hrefs, hconns]
    exact hs.slots c

theorem Sound.setBoth (hs : Sound h) (hok : s.inUse = true → SocketOk s)
    (hc : SlotOk conn (({ h with tcp := h.tcp.set c conn } : Host).setSocket i s |>.refs c))
    (hother : ∀ d, d ≠ c → s.holds.count d.val = (h.sockets i).holds.count d.val) :
    Sound (({ h with tcp := h.tcp.set c conn } : Host).setSocket i s) where
  sockets j hj := by
    by_cases hij : j = i
    · subst hij
      rw [setSocket_self] at hj ⊢
      exact hok hj
    · rw [setSocket_of_ne hij] at hj ⊢
      exact hs.sockets j hj
  slots d := by
    by_cases hdc : d = c
    · subst hdc
      show SlotOk ((h.tcp.set d conn).connections d) _
      rw [set_self]
      exact hc
    · show SlotOk ((h.tcp.set c conn).connections d) _
      rw [set_of_ne h.tcp hdc]
      have hrefs := refs_setSocket { h with tcp := h.tcp.set c conn } i s d
      have hsame : ({ h with tcp := h.tcp.set c conn } : Host).refs d = h.refs d := rfl
      have hcount := hother d hdc
      have heq : (({ h with tcp := h.tcp.set c conn } : Host).setSocket i s).refs d = h.refs d := by
        have : ({ h with tcp := h.tcp.set c conn } : Host).sockets i = h.sockets i := rfl
        rw [this, hcount, hsame] at hrefs
        omega
      rw [heq]
      exact hs.slots d

theorem Sound.release (hs : Sound h) (hok : s.inUse = true → SocketOk s)
    (hholds : (h.sockets i).holds = c.val :: s.holds) (hconn : SlotOk conn 0) :
    Sound (({ h with tcp := h.tcp.set c conn } : Host).setSocket i s) := by
  refine hs.setBoth hok ?_ fun d hd => ?_
  · have hrefs := refs_setSocket { h with tcp := h.tcp.set c conn } i s c
    have hcount : (({ h with tcp := h.tcp.set c conn } : Host).sockets i).holds.count c.val =
        s.holds.count c.val + 1 := by
      show (h.sockets i).holds.count c.val = _
      rw [hholds, List.count_cons_self]
    have hone : ({ h with tcp := h.tcp.set c conn } : Host).refs c ≤ 1 := (hs.slots c).unique
    have hzero : (({ h with tcp := h.tcp.set c conn } : Host).setSocket i s).refs c = 0 := by omega
    rw [hzero]
    exact hconn
  · have hne : c.val ≠ d.val := fun h => hd (Fin.ext h.symm)
    rw [hholds, List.count_cons_of_ne hne]

theorem Sound.forget (hs : Sound h) (hok : s.inUse = true → SocketOk s) {idx : Nat}
    (hholds : (h.sockets i).holds = idx :: s.holds) (hidx : maxTcpConnections .x86 ≤ idx) :
    Sound (h.setSocket i s) := by
  refine hs.setSocket hok fun d => ?_
  have hrefs := refs_setSocket h i s d
  have hne : idx ≠ d.val := by
    have := d.isLt
    omega
  rw [hholds, List.count_cons_of_ne hne] at hrefs
  have heq : (h.setSocket i s).refs d = h.refs d := by omega
  rw [heq]
  exact hs.slots d

theorem Sound.inUse_of_mem (hs : Sound h) (hc : c.val ∈ (h.sockets i).holds) :
    (h.tcp.connections c).inUse = true := by
  by_contra hfree
  have hpos := refs_pos hc
  have := (hs.slots c).free (Bool.eq_false_iff.2 hfree)
  omega

theorem Sound.refs_eq_one (hs : Sound h) (hc : c.val ∈ (h.sockets i).holds) : h.refs c = 1 := by
  have hpos := refs_pos hc
  have := (hs.slots c).unique
  omega

/-! ## Closing -/

theorem Sound.releaseFree (hs : Sound h) (hok : s.inUse = true → SocketOk s) {idx : Nat}
    (hholds : (h.sockets i).holds = idx :: s.holds) : Sound ((h.freeConnection idx).setSocket i s) := by
  unfold Host.freeConnection
  split
  · rename_i hlt
    exact hs.release (c := ⟨idx, hlt⟩) hok hholds (slotOk_freeConn _)
  · rename_i hge
    exact hs.forget hok hholds (by omega)

theorem freeConnection_sockets (h : Host) (idx : Nat) : (h.freeConnection idx).sockets = h.sockets := by
  unfold Host.freeConnection
  split <;> rfl

theorem Sound.freeQueued (hs : Sound h) (hi : (h.sockets i).inUse = true) (hl : (h.sockets i).listening = true)
    (hn : (h.sockets i).acceptCount = n) :
    Sound (freeQueued h i n) ∧ ((Net.freeQueued h i n).sockets i).holds = [] := by
  induction n generalizing h with
  | zero =>
    refine ⟨hs, ?_⟩
    show (h.sockets i).holds = []
    rw [holds_listening hi hl, hn]
    rfl
  | succ n ih =>
    have hok := hs.socketOk hi
    have hholds := holds_dequeue hok hi hl (by omega)
    rw [Net.freeQueued, freeConnection_sockets]
    have hself := setSocket_self (h.freeConnection (h.sockets i).firstQueued) i (h.sockets i).dequeue
    apply ih (hs.releaseFree (fun _ => hok.dequeue) hholds)
    · rw [hself]
      exact hi
    · rw [hself]
      exact hl
    · rw [hself]
      show (h.sockets i).acceptCount - 1 = n
      omega

theorem Sound.closeConnection (hs : Sound h) (hok : s.inUse = true → SocketOk s) {idx : Nat}
    (hholds : (h.sockets i).holds = idx :: s.holds) : Sound ((h.closeConnection idx).setSocket i s) := by
  unfold Host.closeConnection
  split
  · rename_i hconn
    refine hs.forget hok hholds ?_
    by_contra hlt
    have hmem : (⟨idx, by omega⟩ : Slot).val ∈ (h.sockets i).holds := by simp [hholds]
    rw [conn?_of_inUse (hs.inUse_of_mem hmem)] at hconn
    cases hconn
  · rename_i c hconn
    obtain ⟨rfl, huse⟩ := conn?_eq_some hconn
    unfold Tcp.close
    rw [if_pos huse]
    exact hs.release hok hholds (slotOk_closeConn _)

theorem Sound.socketClose (hs : Sound h) (hi : (h.sockets i).inUse = true) : Sound (socketClose h i) := by
  unfold Net.socketClose
  dsimp only
  by_cases hl : (h.sockets i).listening = true
  · rw [if_pos hl]
    obtain ⟨hs', hholds⟩ := hs.freeQueued hi hl rfl
    refine hs'.setSocket_same (fun hlive => by cases hlive) ?_
    rw [hholds]
    exact holds_dead rfl
  · rw [if_neg hl]
    have hdead : ({ h.sockets i with inUse := false } : Socket).holds = [] := holds_dead rfl
    by_cases ht : (h.sockets i).sockType = SOCK_STREAM
    · rw [if_pos ht]
      have hsockets : (h.closeConnection (h.sockets i).tcpConnIdx).sockets i = h.sockets i := by
        unfold Host.closeConnection
        split <;> rfl
      rw [hsockets]
      refine hs.closeConnection (fun hlive => by cases hlive) ?_
      rw [hdead]
      exact holds_stream hi (Bool.eq_false_iff.2 hl) ht
    · rw [if_neg ht]
      refine hs.setSocket_same (fun hlive => by cases hlive) ?_
      rw [hdead]
      simp [Socket.holds, hl, ht]

theorem Sound.open (hs : Sound h) (hi : (h.sockets i).inUse = true) (opened : Opened) : Sound (h.open i opened) := by
  cases opened with
  | noDescriptor => exact hs.socketClose hi
  | ok => exact hs
  | noDescription => exact hs

/-! ## Calls -/

theorem SocketOk.fresh (hhead : s.acceptHead = 0) (hl : s.listening = false) (hcount : s.acceptCount = 0) :
    SocketOk s where
  head_lt := by
    rw [hhead]
    decide
  listening hl' := absurd (hl.symm.trans hl') nofun
  queue _ := hcount

theorem allocConnection_eq_some {tcp : Stack .x86} (halloc : allocConnection env h.tcp = (some c, tcp)) :
    (h.tcp.connections c).inUse = false ∧ ∃ conn : TcpConnection, conn.inUse = true ∧ conn.state = .closed ∧
      tcp.connections = (h.tcp.set c conn).connections := by
  unfold allocConnection at halloc
  split at halloc
  · cases halloc
  · rename_i d hslot
    have hfree := Fin.eq_true_of_find?_eq_some hslot
    obtain ⟨hd, htcp⟩ := Prod.mk.inj halloc
    obtain rfl := Option.some.inj hd
    refine ⟨by simpa using hfree,
      { emptyConn with inUse := true, localIp := env.ourIp, localPort := BitVec.ofNat 16 h.tcp.nextEphemeralPort },
      rfl, rfl, ?_⟩
    rw [← htcp]

theorem Sound.connectSocket (hs : Sound h) (hdead : (h.sockets i).holds = []) (hc : h.refs c = 0)
    (huse : conn.inUse = true) (hstate : conn.state ≠ .synReceived) (hok : SocketOk s) (hholds : s.holds = [c.val]) :
    Sound (({ h with tcp := h.tcp.set c conn } : Host).setSocket i s) := by
  have hrefs := refs_setSocket { h with tcp := h.tcp.set c conn } i s c
  have hold : (({ h with tcp := h.tcp.set c conn } : Host).sockets i).holds = [] := hdead
  have hzero : ({ h with tcp := h.tcp.set c conn } : Host).refs c = 0 := hc
  rw [hold, hzero, hholds, List.count_cons_self, List.count_nil] at hrefs
  have hone : (({ h with tcp := h.tcp.set c conn } : Host).setSocket i s).refs c = 1 := by omega
  refine hs.setBoth (fun _ => hok) ?_ fun d hd => ?_
  · rw [hone]
    exact .one huse hstate
  · have hne : c.val ≠ d.val := fun h => hd (Fin.ext h.symm)
    rw [hdead, hholds, List.count_cons_of_ne hne]

theorem Sound.allocSocket (hs : Sound h) {sockType protocol : BitVec 16} {o : Option (Fin maxSockets)}
    (halloc : allocSocket env h sockType protocol = (o, h')) :
    Sound h' ∧ ∀ i, o = some i → (h'.sockets i).inUse = true := by
  unfold Net.allocSocket at halloc
  split at halloc
  · cases halloc
    exact ⟨hs, nofun⟩
  rename_i i hfree
  have hdead : (h.sockets i).holds = [] := by
    have := Fin.eq_true_of_find?_eq_some hfree
    exact holds_dead (by simpa using this)
  have hlive : ∀ (host : Host) (s : Socket), s.inUse = true →
      ∀ j, some i = some j → ((host.setSocket i s).sockets j).inUse = true := by
    intro host s hs j hj
    obtain rfl := Option.some.inj hj
    rw [setSocket_self]
    exact hs
  dsimp only at halloc
  split at halloc
  · rename_i ht
    split at halloc
    · rename_i c tcp hconn
      obtain ⟨hc, conn, huse, hstate, htcp⟩ := allocConnection_eq_some hconn
      obtain ⟨rfl, rfl⟩ := Prod.mk.inj halloc
      refine ⟨?_, hlive _ _ rfl⟩
      let s : Socket := { emptySocket with sockType, protocol, inUse := true, tcpConnIdx := c.val }
      have hfresh : SocketOk s := .fresh rfl rfl rfl
      have hholds : s.holds = [c.val] := holds_stream rfl rfl ht
      have hsyn : conn.state ≠ .synReceived := by
        rw [hstate]
        nofun
      have hopen := hs.connectSocket hdead ((hs.slots c).free hc) huse hsyn hfresh hholds
      exact hopen.congr rfl htcp
    · rename_i tcp hconn
      obtain ⟨rfl, rfl⟩ := Prod.mk.inj halloc
      have htcp : tcp = h.tcp := by
        unfold allocConnection at hconn
        split at hconn <;> cases hconn
        rfl
      subst htcp
      exact ⟨hs.setSocket_same (fun hlive => by cases hlive) (hdead ▸ holds_dead rfl), nofun⟩
  · rename_i ht
    obtain ⟨rfl, rfl⟩ := Prod.mk.inj halloc
    refine ⟨hs.setSocket_same (fun _ => .fresh rfl rfl rfl) ?_, hlive _ _ rfl⟩
    rw [hdead]
    simp [Socket.holds, emptySocket, ht]

theorem Sound.sysSocket (hs : Sound h) (sockType protocol : BitVec 16) (opened : Opened) :
    Sound (sysSocket env h sockType protocol opened) := by
  unfold Net.sysSocket
  split
  · exact hs
  split
  · rename_i halloc
    exact (hs.allocSocket halloc).1
  · rename_i halloc
    obtain ⟨hs', hlive⟩ := hs.allocSocket halloc
    exact hs'.open (hlive _ rfl) opened

theorem Sound.holds_of_conn (hs : Sound h) (hi : (h.sockets i).inUse = true)
    (ht : (h.sockets i).sockType = SOCK_STREAM)
    (hc : h.conn? (h.sockets i).tcpConnIdx = some c) : c.val ∈ (h.sockets i).holds := by
  have hidx := (conn?_eq_some hc).1
  have hl : (h.sockets i).listening = false := by
    by_contra hl
    have := (hs.socketOk hi).listening (Bool.eq_true_of_not_eq_false hl)
    have := c.isLt
    omega
  rw [holds_stream hi hl ht, hidx]
  exact List.mem_singleton_self _

theorem Sound.sysConnect (hs : Sound h) (i : Fin maxSockets) (ip : BitVec 32) (port : BitVec 16) (pid : Nat) :
    Sound (sysConnect env h i ip port pid) := by
  unfold Net.sysConnect
  dsimp only
  split
  · exact hs
  rename_i hlive
  have hi : (h.sockets i).inUse = true := Bool.eq_true_of_not_eq_false hlive
  have hok := hs.socketOk hi
  have hkeep : ∀ s : Socket, s.holds = (h.sockets i).holds → SocketOk s → Sound (h.setSocket i s) :=
    fun s hholds hsok => hs.setSocket_same (fun _ => hsok) hholds
  split
  · rename_i ht
    split
    · exact hs
    rename_i c hc
    split
    · exact hkeep _ rfl ⟨hok.head_lt, hok.listening, hok.queue⟩
    split
    · exact hs
    have hone := hs.refs_eq_one (hs.holds_of_conn hi ht hc)
    obtain ⟨-, huse⟩ := conn?_eq_some hc
    have hwait : ∀ conn : TcpConnection, conn.inUse = true → conn.state = .synSent →
        Sound { h with tcp := h.tcp.set c { conn with waitingPid := pid } } := by
      intro conn hu hst
      refine hs.setConn (hone.symm ▸ SlotOk.one hu ?_)
      show conn.state ≠ .synReceived
      rw [hst]
      nofun
    split
    · have hset := hwait (connectConn env (h.tcp.connections c) ip port).1 huse rfl
      refine hset.congr rfl ?_
      unfold Tcp.connect
      rw [if_pos huse]
      funext d
      by_cases hdc : d = c
      · subst hdc
        simp
      · rw [set_of_ne _ hdc, set_of_ne _ hdc, set_of_ne _ hdc]
    · rename_i hsent
      exact hwait _ huse (Classical.not_not.1 hsent)
  · split
    · exact hkeep _ rfl ⟨hok.head_lt, hok.listening, hok.queue⟩
    · exact hkeep _ rfl ⟨hok.head_lt, hok.listening, hok.queue⟩

theorem Sound.sysBind (hs : Sound h) (i : Fin maxSockets) (port : BitVec 16) : Sound (sysBind h i port) := by
  unfold Net.sysBind
  split
  · rename_i hi
    have hok := hs.socketOk hi
    exact hs.setSocket_same (fun _ => ⟨hok.head_lt, hok.listening, hok.queue⟩) rfl
  · exact hs

theorem Sound.sysListen (hs : Sound h) (i : Fin maxSockets) : Sound (sysListen h i) := by
  unfold Net.sysListen
  dsimp only
  split
  · exact hs
  rename_i hcall
  obtain ⟨hlive, ht, -⟩ := not_or.1 hcall |>.imp_right not_or.1
  have hi : (h.sockets i).inUse = true := Bool.eq_true_of_not_eq_false hlive
  have hok := hs.socketOk hi
  have hnew : SocketOk { h.sockets i with tcpConnIdx := maxTcpConnections .x86, listening := true } :=
    ⟨hok.head_lt, fun _ => le_refl _, nofun⟩
  have hholds := holds_listening
    (s := { h.sockets i with tcpConnIdx := maxTcpConnections .x86, listening := true }) hi rfl
  by_cases hl : (h.sockets i).listening = true
  · have hidx := hok.listening hl
    have hsame : h.freeConnection (h.sockets i).tcpConnIdx = h := by
      unfold Host.freeConnection
      rw [dif_neg (by omega)]
    rw [hsame]
    exact hs.setSocket_same (fun _ => hnew) (hholds.trans (holds_listening hi hl).symm)
  · refine hs.releaseFree (fun _ => hnew) ?_
    have hl := Bool.eq_false_iff.2 hl
    rw [holds_stream hi hl (Classical.not_not.1 ht), hholds]
    dsimp only
    rw [hok.queue hl]
    rfl

theorem Sound.moveEntry (hs : Sound h) (hi : (h.sockets i).inUse = true) (hl : (h.sockets i).listening = true)
    (hpos : 0 < (h.sockets i).acceptCount) (hj : (h.sockets j).inUse = false) (hok : SocketOk s)
    (hholds : s.holds = [(h.sockets i).firstQueued]) :
    Sound ((h.setSocket i (h.sockets i).dequeue).setSocket j s) := by
  have hij : j ≠ i := by
    rintro rfl
    rw [hi] at hj
    cases hj
  have hsplit := holds_dequeue (hs.socketOk hi) hi hl hpos
  have hlive : ∀ k, (((h.setSocket i (h.sockets i).dequeue).setSocket j s).sockets k).inUse = true →
      SocketOk (((h.setSocket i (h.sockets i).dequeue).setSocket j s).sockets k) := by
    intro k hk
    by_cases hkj : k = j
    · subst hkj
      rw [setSocket_self]
      exact hok
    rw [setSocket_of_ne hkj] at hk ⊢
    by_cases hki : k = i
    · subst hki
      rw [setSocket_self]
      exact (hs.socketOk hi).dequeue
    rw [setSocket_of_ne hki] at hk ⊢
    exact hs.socketOk hk
  refine ⟨hlive, fun d => ?_⟩
  have hfirst := refs_setSocket h i (h.sockets i).dequeue d
  have hsecond := refs_setSocket (h.setSocket i (h.sockets i).dequeue) j s d
  rw [setSocket_of_ne hij, holds_dead hj, hholds, List.count_nil] at hsecond
  rw [hsplit, List.count_cons] at hfirst
  rw [List.count_singleton] at hsecond
  have hrefs : ((h.setSocket i (h.sockets i).dequeue).setSocket j s).refs d = h.refs d := by omega
  rw [hrefs]
  exact hs.slots d

theorem freeSocket_eq_some (hj : freeSocket h.sockets = some j) : (h.sockets j).inUse = false := by
  have := Fin.eq_true_of_find?_eq_some hj
  simpa using this

theorem Sound.sysAccept (hs : Sound h) (i : Fin maxSockets) (opened : Opened)
    (hroom : (h.sockets i).inUse = true → (h.sockets i).listening = true → 0 < (h.sockets i).acceptCount →
      ∃ j, (h.sockets j).inUse = false) :
    Sound (sysAccept h i opened) := by
  unfold Net.sysAccept
  dsimp only
  split
  · exact hs
  rename_i hcall
  obtain ⟨hi, hl, hpos⟩ :
      (h.sockets i).inUse = true ∧ (h.sockets i).listening = true ∧ 0 < (h.sockets i).acceptCount := by
    simp only [not_or, Bool.not_eq_false] at hcall
    exact ⟨hcall.1, hcall.2.1, Nat.pos_of_ne_zero hcall.2.2⟩
  have hok := hs.socketOk hi
  have hsplit := holds_dequeue hok hi hl hpos
  split
  · rename_i hconn
    refine hs.forget (fun _ => hok.dequeue) hsplit ?_
    by_contra hlt
    have hmem : (⟨(h.sockets i).firstQueued, by omega⟩ : Slot).val ∈ (h.sockets i).holds := by simp [hsplit]
    have := conn?_of_inUse (hs.inUse_of_mem hmem)
    exact absurd (hconn.symm.trans this) nofun
  rename_i c hconn
  unfold allocSocketWithConn
  split
  · rename_i hnone
    split at hnone
    · rename_i hfull
      obtain ⟨j, hj⟩ := hroom hi hl hpos
      have hij : j ≠ i := by
        rintro rfl
        rw [hi] at hj
        cases hj
      have := Fin.find?_eq_none_iff.1 hfull j
      rw [setSocket_of_ne hij] at this
      simp [hj] at this
    · cases hnone
  · rename_i j h' hsome
    split at hsome
    · cases hsome
    rename_i k hfree
    obtain ⟨hk, hh⟩ := Prod.mk.inj hsome
    obtain rfl := Option.some.inj hk
    subst hh
    have hjdead := freeSocket_eq_some hfree
    have hij : k ≠ i := by
      rintro rfl
      rw [setSocket_self] at hjdead
      exact absurd (hi.symm.trans hjdead) nofun
    rw [setSocket_of_ne hij] at hjdead
    apply Sound.open
    · rw [setSocket_self]
      have hidem : ∀ (host : Host) (a b : Socket), (host.setSocket k a).setSocket k b = host.setSocket k b := by
        intro host a b
        unfold Host.setSocket
        simp [Function.update_idem]
      rw [hidem]
      exact hs.moveEntry hi hl hpos hjdead (.fresh rfl rfl rfl) (holds_stream rfl rfl rfl)
    · rw [setSocket_self]
      rw [setSocket_self]

theorem Sound.sysShutdown (hs : Sound h) (i : Fin maxSockets)
    (hstate : (h.sockets i).inUse = true → (h.sockets i).sockType = SOCK_STREAM →
      ∀ c, h.conn? (h.sockets i).tcpConnIdx = some c →
        (h.tcp.connections c).state = .established ∨ (h.tcp.connections c).state = .closeWait) :
    Sound (sysShutdown h i) := by
  unfold Net.sysShutdown
  dsimp only
  split
  · rename_i hcall
    unfold Host.closeConnection
    split
    · exact hs
    · rename_i c hc
      unfold Tcp.close
      rw [if_pos (conn?_eq_some hc).2]
      refine hs.setConn ?_
      unfold closeConn
      rcases hstate hcall.1 hcall.2 c hc with hst | hst
      · rw [hst]
        exact (hs.slots c).move rfl nofun (by rintro (h | h | h) <;> cases h)
      · rw [hst]
        exact (hs.slots c).move rfl nofun (by rintro (h | h | h) <;> cases h)
  · exact hs

/-! ## Data -/

theorem SlotOk.sameState (h : SlotOk conn n) (huse : conn'.inUse = conn.inUse) (hstate : conn'.state = conn.state) :
    SlotOk conn' n :=
  h.move huse (fun hst => hstate ▸ hst) fun hst => .inl (hstate ▸ hst)

theorem Sound.socketRead (hs : Sound h) (hi : (h.sockets i).inUse = true) (count pid : Nat) :
    Sound (socketRead h i count pid).2.2 := by
  have hok := hs.socketOk hi
  unfold Net.socketRead
  dsimp only
  split
  · split
    · exact hs
    · rename_i c hc
      refine hs.setConn ?_
      have hrecv : SlotOk (recvConn (h.tcp.connections c) count).2.2 (h.refs c) :=
        (hs.slots c).sameState (recvConn_inUse _ _) (recvConn_state _ _)
      split
      · exact hrecv.sameState rfl rfl
      · exact hrecv
  split
  · split
    · exact hs
    · exact hs.setSocket_same (fun _ => ⟨hok.head_lt, hok.listening, hok.queue⟩) rfl
  split
  · split
    · exact hs
    · exact hs.setSocket_same (fun _ => ⟨hok.head_lt, hok.listening, hok.queue⟩) rfl
  · exact hs

theorem Sound.socketWrite (hs : Sound h) {data : List Byte} {sent : Bool} {r : Int × Host}
    (hw : socketWrite env h i data sent = some r) : Sound r.2 := by
  unfold Net.socketWrite at hw
  dsimp only at hw
  split at hw
  · split at hw
    · cases hw
      exact hs
    · rename_i c hc
      obtain ⟨q, hq, hw⟩ := Option.map_eq_some_iff.1 hw
      cases hw
      exact hs.setConn ((hs.slots c).sameRx (sendConn_sameRx hq))
  split at hw
  · split at hw <;> cases hw <;> exact hs
  · cases hw
    exact hs

theorem Sound.deliverUdp (hs : Sound h) (dstPort : BitVec 16) (data : List Byte) :
    Sound { h with sockets := deliverUdp h.sockets dstPort data } := by
  unfold Net.deliverUdp
  split
  · exact hs
  · rename_i i _
    have hok := hs.sockets i
    exact hs.setSocket_same (s := receiveUdp (h.sockets i) data)
      (fun hi => ⟨(hok hi).head_lt, (hok hi).listening, (hok hi).queue⟩) rfl

theorem Sound.deliverIcmpReply (hs : Sound h) (srcIp : BitVec 32) (data : List Byte) :
    Sound { h with sockets := deliverIcmpReply h.sockets srcIp data } := by
  unfold Net.deliverIcmpReply
  split
  · exact hs
  · rename_i i _
    have hok := hs.sockets i
    exact hs.setSocket_same (s := receiveIcmp (h.sockets i) srcIp data)
      (fun hi => ⟨(hok hi).head_lt, (hok hi).listening, (hok hi).queue⟩) rfl

theorem Sound.timerPoll (hs : Sound h) : Sound { h with tcp := (tcpTimerPoll env h.tcp).1 } where
  sockets := hs.sockets
  slots c := (hs.slots c).sameRx (pollConn_sameRx .x86 env.ticks _)

end

end Zigix.Net
