import Mathlib.Data.List.Forall2
import Zigix.Net.Socket

/-!
# Datagrams in a socket (`deliverUdp`, `socketRead` in `kernel/net/socket.zig`, `sysRecvfrom`)

A socket keeps the bytes of all datagrams in one ring and not where they end.

* `datagrams_kept` : then every read returns the beginning of one datagram, in the order of arrival, each at most once;
* `datagrams_merged` : two datagrams in one read, and one that is cut.
-/

namespace Zigix.Net

open Tcp

variable {h h' : Host} {i : Fin maxSockets} {port : BitVec 16} {data : List Byte}

/-- The kernel's buffer for a call. -/
def recvBufSize : Nat := 4096

/-- Each type of socket is read as `socketRead` does it. `valid` and `mapped` : the user's buffer passes its check, and can be
written. -/
def sysRecvfrom (h : Host) (i : Fin maxSockets) (len pid : Nat) (valid mapped : Bool) : Int × List Byte × Host :=
  if valid = false then (-14, [], h)
  else if (h.sockets i).inUse = false then (-9, [], h)
  else
    let (result, bytes, h) := socketRead h i (min len recvBufSize) pid
    if result < 0 then (result, [], h)
    else if 0 < result ∧ mapped = false then (-14, [], h)
    else (result, bytes, h)

structure BoundTo (h : Host) (i : Fin maxSockets) (port : BitVec 16) : Prop where
  inUse : (h.sockets i).inUse = true
  sockType : (h.sockets i).sockType = SOCK_DGRAM
  boundPort : (h.sockets i).boundPort = port
  first : ∀ j < i, ¬ ((h.sockets j).inUse = true ∧ (h.sockets j).sockType = SOCK_DGRAM ∧ (h.sockets j).boundPort = port)

def Socket.content (s : Socket) : List Byte := Ring.slice udpRxBufSize s.udpRxBuf s.udpRxHead s.udpRxCount

/-! ## Steps -/

inductive UdpEvent where
  | deliver (data : List Byte)
  | read (count pid : Nat)
  | recvfrom (len pid : Nat) (valid mapped : Bool)

def udpStep (h : Host) (i : Fin maxSockets) (port : BitVec 16) : UdpEvent → Int × List Byte × Host
  | .deliver data => (0, [], { h with sockets := deliverUdp h.sockets port data })
  | .read count pid => socketRead h i count pid
  | .recvfrom len pid valid mapped => sysRecvfrom h i len pid valid mapped

/-- What a call asks the socket for; `none` where it does not come to the socket. -/
def UdpEvent.asks : UdpEvent → Option Nat
  | .deliver _ => none
  | .read count _ => some count
  | .recvfrom len _ valid _ => if valid then some (min len recvBufSize) else none

structure Mail where
  rest : List Byte
  queued : List (List Byte)

def Mail.bytes (m : Mail) : List Byte := m.rest ++ m.queued.flatten

def Mail.arrive (m : Mail) (room : Nat) (data : List Byte) : Mail :=
  if data = [] ∨ room = 0 then m else { m with queued := m.queued ++ [data] }

/-- The first `n` bytes of the first datagram are read. -/
def Mail.take (m : Mail) (n : Nat) : Mail :=
  if n = 0 then m else match m.queued with
    | [] => m
    | d :: ds => ⟨d.drop n, ds⟩

def Socket.room (s : Socket) : Nat := udpRxBufSize - s.udpRxCount

def UdpEvent.mail (s : Socket) (m : Mail) (e : UdpEvent) : Mail :=
  match e with
  | .deliver data => m.arrive s.room data
  | _ => match e.asks with
    | none => m
    | some n => m.take (min n s.udpRxCount)

def UdpEvent.Whole (s : Socket) (m : Mail) (e : UdpEvent) : Prop :=
  (∀ data, e = .deliver data → data.length ≤ s.room ∨ s.room = 0) ∧
  ∀ n, e.asks = some n → 0 < min n s.udpRxCount → m.rest = [] ∧ ∃ d ds, m.queued = d :: ds ∧ min n s.udpRxCount ≤ d.length

structure Holds (h : Host) (i : Fin maxSockets) (port : BitVec 16) (m : Mail) : Prop where
  bound : BoundTo h i port
  content : (h.sockets i).content = m.bytes
  nonempty : ∀ d ∈ m.queued, d ≠ []

/-! ## The ring -/

theorem length_content (s : Socket) : s.content.length = s.udpRxCount := Ring.length_slice ..

theorem udp_mod (n : Nat) : n % 2 ^ 16 % udpRxBufSize = n % udpRxBufSize := Nat.mod_mod_of_dvd n (by decide)

theorem receiveUdp_content (s : Socket) (data : List Byte) :
    (receiveUdp s data).content = s.content ++ data.take s.room := by
  have hle := s.udp_le
  have hpos : udpPos s = fun j => (s.udpRxHead + s.udpRxCount + j) % udpRxBufSize := by
    funext j
    exact udp_mod _
  unfold receiveUdp Socket.content Socket.room
  dsimp only
  rw [hpos, Ring.slice_store (by omega), Ring.map_getD_take _ _ (Nat.min_le_left ..)]
  congr 1
  rw [Nat.min_comm, ← List.take_take, List.take_length]

theorem readUdp_content (s : Socket) {n : Nat} (hn : n ≤ s.udpRxCount) :
    (List.range n).map (fun j => s.udpRxBuf ((s.udpRxHead + j) % 2 ^ 16 % udpRxBufSize)) = s.content.take n ∧
      (s.readUdp n).content = s.content.drop n := by
  have hsplit : Ring.slice udpRxBufSize s.udpRxBuf s.udpRxHead s.udpRxCount =
      Ring.slice udpRxBufSize s.udpRxBuf s.udpRxHead n ++
        Ring.slice udpRxBufSize s.udpRxBuf ((s.udpRxHead + n) % udpRxBufSize) (s.udpRxCount - n) := Ring.slice_advance hn
  have hfirst : (List.range n).map (fun j => s.udpRxBuf ((s.udpRxHead + j) % 2 ^ 16 % udpRxBufSize)) =
      Ring.slice udpRxBufSize s.udpRxBuf s.udpRxHead n := by
    unfold Ring.slice
    apply List.map_congr_left
    intro j _
    rw [udp_mod]
  have hlen := Ring.length_slice udpRxBufSize s.udpRxBuf s.udpRxHead n
  unfold Socket.content Socket.readUdp
  dsimp only
  rw [hfirst, udp_mod, hsplit]
  constructor
  · rw [List.take_left' hlen]
  · rw [List.drop_left' hlen]

/-! ## One step -/

theorem BoundTo.set (h₀ : BoundTo h i port) {s : Socket} (huse : s.inUse = (h.sockets i).inUse)
    (htype : s.sockType = (h.sockets i).sockType) (hport : s.boundPort = (h.sockets i).boundPort) :
    BoundTo (h.setSocket i s) i port := by
  have hself : (h.setSocket i s).sockets i = s := Function.update_self ..
  refine ⟨?_, ?_, ?_, fun j hj => ?_⟩
  · rw [hself, huse]
    exact h₀.inUse
  · rw [hself, htype]
    exact h₀.sockType
  · rw [hself, hport]
    exact h₀.boundPort
  · have hother : (h.setSocket i s).sockets j = h.sockets j := Function.update_of_ne (ne_of_lt hj) ..
    rw [hother]
    exact h₀.first j hj

theorem deliverUdp_bound (h₀ : BoundTo h i port) (data : List Byte) :
    ({ h with sockets := deliverUdp h.sockets port data } : Host) = h.setSocket i (receiveUdp (h.sockets i) data) := by
  have hfind : (Fin.find? fun i => (h.sockets i).inUse && (h.sockets i).sockType == SOCK_DGRAM &&
      (h.sockets i).boundPort == port) = some i := by
    rw [Fin.find?_eq_some_iff]
    refine ⟨?_, fun j hj => ?_⟩
    · rw [h₀.inUse, h₀.sockType, h₀.boundPort]
      simp
    · have := h₀.first j hj
      rw [← Bool.not_eq_true]
      simpa [and_assoc] using this
  unfold deliverUdp Host.setSocket
  rw [hfind]

theorem socketRead_bound (h₀ : BoundTo h i port) (n pid : Nat) :
    ∃ h', BoundTo h' i port ∧ (h'.sockets i).content = (h.sockets i).content.drop (min n (h.sockets i).udpRxCount) ∧
      (socketRead h i n pid = (-11, [], h') ∧ (h.sockets i).udpRxCount = 0 ∨
        socketRead h i n pid = (((min n (h.sockets i).udpRxCount : Nat) : Int),
          (h.sockets i).content.take (min n (h.sockets i).udpRxCount), h')) := by
  have hne : SOCK_DGRAM ≠ SOCK_STREAM := by decide
  unfold socketRead
  dsimp only
  rw [h₀.sockType, if_neg hne, if_pos rfl]
  split
  · next hzero =>
    refine ⟨h, h₀, ?_, .inl ⟨rfl, hzero⟩⟩
    rw [hzero, Nat.min_zero, List.drop_zero]
  · obtain ⟨htake, hdrop⟩ := readUdp_content (h.sockets i) (Nat.min_le_right n (h.sockets i).udpRxCount)
    refine ⟨h.setSocket i ((h.sockets i).readUdp (min n (h.sockets i).udpRxCount)), h₀.set rfl rfl rfl, ?_, .inr ?_⟩
    · rw [← hdrop]
      exact congrArg Socket.content (Function.update_self ..)
    · rw [htake]

theorem udpStep_asks (h₀ : BoundTo h i port) {e : UdpEvent} {n : Nat} (hasks : e.asks = some n) :
    BoundTo (udpStep h i port e).2.2 i port ∧
      ((udpStep h i port e).2.2.sockets i).content = (h.sockets i).content.drop (min n (h.sockets i).udpRxCount) ∧
      (0 < (udpStep h i port e).1 → 0 < min n (h.sockets i).udpRxCount ∧
        (udpStep h i port e).2.1 = (h.sockets i).content.take (min n (h.sockets i).udpRxCount)) := by
  cases e with
  | deliver data => cases hasks
  | read count pid =>
    obtain rfl : count = n := Option.some.inj hasks
    obtain ⟨h', hb', hcontent, ⟨heq, -⟩ | heq⟩ := socketRead_bound h₀ count pid <;> unfold udpStep <;> dsimp only <;> rw [heq]
    · exact ⟨hb', hcontent, fun hpos => by cases hpos⟩
    · exact ⟨hb', hcontent, fun hpos => ⟨Int.natCast_pos.1 hpos, rfl⟩⟩
  | recvfrom len pid valid mapped =>
    cases valid with
    | false => cases hasks
    | true =>
      obtain rfl : min len recvBufSize = n := Option.some.inj hasks
      obtain ⟨h', hb', hcontent, ⟨heq, -⟩ | heq⟩ := socketRead_bound h₀ (min len recvBufSize) pid <;>
        unfold udpStep sysRecvfrom <;> dsimp only <;> rw [if_neg (by decide), h₀.inUse, if_neg (by decide), heq]
      · exact ⟨hb', hcontent, fun hpos => by cases hpos⟩
      · dsimp only
        rw [if_neg (by omega)]
        split
        · exact ⟨hb', hcontent, fun hpos => by cases hpos⟩
        · exact ⟨hb', hcontent, fun hpos => ⟨Int.natCast_pos.1 hpos, rfl⟩⟩

theorem Mail.arrive_bytes (m : Mail) {room : Nat} (hfit : data.length ≤ room ∨ room = 0) :
    (m.arrive room data).bytes = m.bytes ++ data.take room := by
  unfold arrive
  split
  · next hnone =>
    have htake : data.take room = [] := by
      rcases hnone with rfl | rfl
      · exact List.take_nil
      · exact List.take_zero
    rw [htake, List.append_nil]
  · next hsome =>
    have hlen : data.length ≤ room := hfit.resolve_right fun h => hsome (.inr h)
    unfold bytes
    rw [List.take_of_length_le hlen, List.flatten_append, List.flatten_singleton, List.append_assoc]

/-- **One step** whose datagrams stay whole: the ring holds the mail, and a read returns the beginning of the first datagram. -/
theorem Holds.step {m : Mail} {e : UdpEvent} (hh : Holds h i port m) (hwhole : e.Whole (h.sockets i) m) :
    Holds (udpStep h i port e).2.2 i port (e.mail (h.sockets i) m) ∧
      (0 < (udpStep h i port e).1 → ∃ d ds, m.queued = d :: ds ∧ (udpStep h i port e).2.1 <+: d ∧
        (e.mail (h.sockets i) m).queued = ds) := by
  obtain ⟨hb, hcontent, hnonempty⟩ := hh
  cases hasks : e.asks with
  | none =>
    cases e with
    | deliver data =>
      have hfit := hwhole.1 data rfl
      have hset := deliverUdp_bound hb data
      unfold udpStep UdpEvent.mail
      dsimp only
      rw [hset]
      refine ⟨⟨hb.set rfl rfl rfl, ?_, fun d hd => ?_⟩, fun hpos => absurd hpos (by decide)⟩
      · rw [m.arrive_bytes hfit, ← hcontent, ← receiveUdp_content]
        exact congrArg Socket.content (Function.update_self ..)
      · unfold Mail.arrive at hd
        split at hd
        · exact hnonempty d hd
        · next hsome =>
          rcases List.mem_append.1 hd with hd | hd
          · exact hnonempty d hd
          · rw [List.mem_singleton.1 hd]
            exact fun he => hsome (.inl he)
    | read count pid => cases hasks
    | recvfrom len pid valid mapped =>
      cases valid with
      | true => cases hasks
      | false => exact ⟨⟨hb, hcontent, hnonempty⟩, fun hpos => by cases hpos⟩
  | some n =>
    obtain ⟨hb', hcontent', hresult⟩ := udpStep_asks hb hasks
    have hmail : e.mail (h.sockets i) m = m.take (min n (h.sockets i).udpRxCount) := by
      cases e with
      | deliver data => cases hasks
      | read count pid =>
        obtain rfl := Option.some.inj hasks
        rfl
      | recvfrom len pid valid mapped =>
        unfold UdpEvent.mail
        rw [hasks]
    rw [hmail]
    rw [hcontent] at hcontent' hresult
    by_cases hzero : min n (h.sockets i).udpRxCount = 0
    · rw [hzero] at hcontent' hresult ⊢
      exact ⟨⟨hb', hcontent', hnonempty⟩, fun hpos => absurd (hresult hpos).1 (Nat.lt_irrefl 0)⟩
    · obtain ⟨hrest, d, ds, hqueued, hle⟩ := hwhole.2 n hasks (Nat.pos_of_ne_zero hzero)
      have htake : m.take (min n (h.sockets i).udpRxCount) = ⟨d.drop (min n (h.sockets i).udpRxCount), ds⟩ := by
        unfold Mail.take
        rw [if_neg hzero, hqueued]
      have hbytes : m.bytes = d ++ ds.flatten := by
        unfold Mail.bytes
        rw [hrest, hqueued, List.nil_append, List.flatten_cons]
      rw [htake]
      rw [hbytes] at hcontent' hresult
      refine ⟨⟨hb', ?_, fun x hx => hnonempty x (by rw [hqueued]; exact List.mem_cons_of_mem _ hx)⟩,
        fun hpos => ⟨d, ds, hqueued, ?_, rfl⟩⟩
      · rw [hcontent', List.drop_append_of_le_length hle]
        rfl
      · rw [(hresult hpos).2, List.take_append_of_le_length hle]
        exact List.take_prefix ..

/-! ## Runs -/

def UdpEvent.sent : UdpEvent → List (List Byte)
  | .deliver data => [data]
  | _ => []

/-- What a successful call returned. -/
def received (n : Int) (bytes : List Byte) : List (List Byte) := if 0 < n then [bytes] else []

inductive UdpRun (slot : Fin maxSockets) (bound : BitVec 16) : Host → Mail → List (List Byte) → List (List Byte) → Prop
  | start {host} : BoundTo host slot bound → (host.sockets slot).udpRxCount = 0 → UdpRun slot bound host ⟨[], []⟩ [] []
  | step {host m sent got e} : UdpRun slot bound host m sent got → UdpEvent.Whole (host.sockets slot) m e →
      UdpRun slot bound (udpStep host slot bound e).2.2 (e.mail (host.sockets slot) m) (sent ++ e.sent)
        (got ++ received (udpStep host slot bound e).1 (udpStep host slot bound e).2.1)

section
variable {m : Mail} {sent got : List (List Byte)}

theorem mail_sublist {e : UdpEvent} (s : Socket) : (e.mail s m).queued.Sublist (m.queued ++ e.sent) := by
  have htake : ∀ n, (m.take n).queued.Sublist m.queued := fun n => by
    unfold Mail.take
    split
    · exact List.Sublist.refl _
    · split
      · exact List.Sublist.refl _
      · next d ds heq =>
        rw [heq]
        exact List.sublist_cons_self d ds
  cases e with
  | deliver data =>
    show (m.arrive s.room data).queued.Sublist _
    unfold Mail.arrive
    split
    · exact List.sublist_append_left ..
    · exact List.Sublist.refl _
  | read count pid => exact (htake _).trans (List.sublist_append_left ..)
  | recvfrom len pid valid mapped =>
    cases valid with
    | true => exact (htake _).trans (List.sublist_append_left ..)
    | false => exact List.sublist_append_left ..

/-- The results are beginnings of datagrams that arrived before those in the ring. -/
theorem udpRun_kept (run : UdpRun i port h m sent got) :
    Holds h i port m ∧ ∃ ds, (ds ++ m.queued).Sublist sent ∧ List.Forall₂ (· <+: ·) got ds := by
  induction run with
  | start hb hzero =>
    refine ⟨⟨hb, ?_, nofun⟩, [], List.Sublist.refl _, .nil⟩
    exact List.length_eq_zero_iff.1 ((length_content _).trans hzero)
  | @step h m sent got e _ hwhole ih =>
    obtain ⟨hholds, ds, hsub, hall⟩ := ih
    obtain ⟨hholds', hresult⟩ := hholds.step hwhole
    refine ⟨hholds', ?_⟩
    unfold received
    split
    · next hpos =>
      obtain ⟨d, rest, hqueued, hprefix, hqueued'⟩ := hresult hpos
      refine ⟨ds ++ [d], ?_, List.rel_append hall (.cons hprefix .nil)⟩
      rw [hqueued', List.append_assoc, List.singleton_append, ← hqueued]
      exact hsub.trans (List.sublist_append_left ..)
    · refine ⟨ds, ?_, by rwa [List.append_nil]⟩
      refine ((mail_sublist (h.sockets i)).append_left ds).trans ?_
      rw [← List.append_assoc]
      exact hsub.append_right _

/-- **Datagrams.** In a run in which datagrams fit and every read begins with a datagram and ends in it: the results are
beginnings of different datagrams in the order of arrival, and a datagram is stored as a whole or not at all. -/
theorem datagrams_kept (run : UdpRun i port h m sent got) :
    (∃ ds, ds.Sublist sent ∧ List.Forall₂ (· <+: ·) got ds) ∧
    ∀ data, (UdpEvent.deliver data).Whole (h.sockets i) m →
      ((udpStep h i port (.deliver data)).2.2.sockets i).content = (h.sockets i).content ++ data ∨
      ((udpStep h i port (.deliver data)).2.2.sockets i).content = (h.sockets i).content := by
  obtain ⟨hholds, ds, hsub, hall⟩ := udpRun_kept run
  refine ⟨⟨ds, (List.sublist_append_left ..).trans hsub, hall⟩, fun data hwhole => ?_⟩
  have hcontent : ((udpStep h i port (.deliver data)).2.2.sockets i).content =
      (h.sockets i).content ++ data.take (h.sockets i).room := by
    rw [← receiveUdp_content]
    show ((({ h with sockets := deliverUdp h.sockets port data } : Host)).sockets i).content = _
    rw [deliverUdp_bound hholds.bound]
    exact congrArg Socket.content (Function.update_self ..)
  rw [hcontent]
  obtain hfit | hfull := hwhole.1 data rfl
  · exact .inl (by rw [List.take_of_length_le hfit])
  · exact .inr (by rw [hfull, List.take_zero, List.append_nil])

end

def firstSocket : Fin maxSockets := ⟨0, by decide⟩

def boundHost : Host :=
  Host.boot.setSocket firstSocket { emptySocket with inUse := true, sockType := SOCK_DGRAM, boundPort := 53 }

theorem boundHost_bound : BoundTo boundHost firstSocket 53 where
  inUse := rfl
  sockType := rfl
  boundPort := rfl
  first := fun _ hj => absurd hj (Nat.not_lt_zero _)

/-- A datagram that is read before the next one arrives. -/
theorem datagrams_kept_one :
    ∃ ds, ds.Sublist [[1, 2]] ∧
      List.Forall₂ (· <+: ·) [(udpStep (udpStep boundHost firstSocket 53 (.deliver [1, 2])).2.2 firstSocket 53 (.read 8 1)).2.1] ds := by
  have delivered := UdpRun.step (e := .deliver [1, 2]) (UdpRun.start boundHost_bound rfl)
    ⟨fun _ h => by cases h; exact .inl (by decide), nofun⟩
  have read := UdpRun.step (e := .read 8 1) delivered
    ⟨nofun, fun n h _ => ⟨rfl, [1, 2], [], rfl, by cases h; decide⟩⟩
  exact (datagrams_kept read).1

/-- Two datagrams in one read, which is the beginning of neither. -/
theorem datagrams_merged :
    let h := (udpStep (udpStep boundHost firstSocket 53 (.deliver [1])).2.2 firstSocket 53 (.deliver [2])).2.2
    BoundTo boundHost firstSocket 53 ∧ (boundHost.sockets firstSocket).udpRxCount = 0 ∧ (udpStep h firstSocket 53 (.read 2 1)).1 = 2 ∧
      ¬ ∃ d ∈ ([[1], [2]] : List (List Byte)), (udpStep h firstSocket 53 (.read 2 1)).2.1 <+: d := by
  refine ⟨boundHost_bound, rfl, by decide +kernel, ?_⟩
  decide +kernel

end Zigix.Net
