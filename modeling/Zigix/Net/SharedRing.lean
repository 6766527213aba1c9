import Zigix.Lib.Ring
import Zigix.Lib.Serial
import Mathlib.Data.List.Perm.Basic

/-!
# The shared ring of received frames (`kernel/arch/aarch64/net_ring.zig`)

The kernel copies frames into the buffers of a pool and describes them in a ring that a process reads without system
calls. Both sides run at the same time; an event is one access to the shared memory, a descriptor being one.

* `System.step` : `deliverRx` byte by byte, `reclaimRx`, and a reader as the head of the source file describes it
  (steps 4 and 5 of its receive path);
* `Inv` : what the slots and the buffers hold between the two indices, for indices that have gone round any number
  of times;
* `reader_sees_delivered` : over every interleaving the reader sees the delivered frames, in order, with their bytes,
  and no buffer is lost.

The calls of the kernel come one after another: `poll` takes no lock, so this means one polling CPU. The reader
transmits nothing, so `processTx` has nothing to do. The barriers order the accesses as written here.
-/

namespace Zigix.SharedRing

abbrev Byte := BitVec 8

def ringSize : Nat := 256

def bufCount : Nat := 64

def bufSize : Nat := 4096

/-- `_pad` is left out. -/
structure PacketDesc where
  bufIdx : Nat
  length : Nat
  flags : Nat

structure NetRing where
  rxProd : BitVec 32
  rxCons : BitVec 32
  rxRing : Nat → PacketDesc
  bufs : Nat → Nat → Byte
  bufInUse : Nat → Bool
  freeStack : Nat → Nat
  freeCount : Nat
  kernelRxCons : BitVec 32
  active : Bool

def slot (index : BitVec 32) : Nat := index.toNat % ringSize

def create : NetRing where
  rxProd := 0
  rxCons := 0
  rxRing _ := ⟨0, 0, 0⟩
  bufs _ _ := 0
  bufInUse _ := false
  freeStack i := i
  freeCount := bufCount
  kernelRxCons := 0
  active := false

/-- The mapping of the pages is left out. -/
def attach (r : NetRing) : Option NetRing := if r.active then none else some { r with active := true }

/-! ## The kernel -/

def allocBuf (r : NetRing) : Option (Nat × NetRing) :=
  if r.freeCount = 0 then none
  else
    let idx := r.freeStack (r.freeCount - 1)
    some (idx, { r with freeCount := r.freeCount - 1, bufInUse := Function.update r.bufInUse idx true })

def freeBuf (r : NetRing) (idx : Nat) : NetRing :=
  if bufCount ≤ idx then r
  else if r.bufInUse idx then
    { r with
      bufInUse := Function.update r.bufInUse idx false
      freeStack := Function.update r.freeStack r.freeCount idx
      freeCount := r.freeCount + 1 }
  else r

def copyByte (r : NetRing) (data : List Byte) (bufIdx i : Nat) : NetRing :=
  { r with bufs := Function.update r.bufs bufIdx (Function.update (r.bufs bufIdx) i (data.getD i 0)) }

def describe (r : NetRing) (data : List Byte) (prod : BitVec 32) (bufIdx : Nat) : NetRing :=
  { r with rxRing := Function.update r.rxRing (slot prod) ⟨bufIdx, min data.length bufSize, 0⟩ }

/-- The result is whether the frame is in the ring. -/
def deliverRx (r : NetRing) (data : List Byte) : NetRing × Bool :=
  if !r.active then (r, false)
  else
    let prod := r.rxProd
    if ringSize ≤ (prod - r.rxCons).toNat then (r, false)
    else
      match allocBuf r with
      | none => (r, false)
      | some (bufIdx, r) =>
        let copied := (List.range (min data.length bufSize)).foldl (fun r i => copyByte r data bufIdx i) r
        ({ describe copied data prod bufIdx with rxProd := prod + 1 }, true)

/-- `fuel` turns of the loop. -/
def reclaimLoop (cons : BitVec 32) : Nat → NetRing → NetRing
  | 0, r => r
  | fuel + 1, r =>
    if r.kernelRxCons = cons then r
    else
      let freed := freeBuf r (r.rxRing (slot r.kernelRxCons)).bufIdx
      reclaimLoop cons fuel { freed with kernelRxCons := r.kernelRxCons + 1 }

/-- The index moves by one in each turn: the loop has as many turns as it is behind. -/
def reclaimRx (r : NetRing) : NetRing :=
  if !r.active then r else reclaimLoop r.rxCons (r.rxCons - r.kernelRxCons).toNat r

/-- Where `deliverRx` stands. -/
inductive Delivery
  | idle
  /-- with `i` bytes copied -/
  | copying (data : List Byte) (prod : BitVec 32) (bufIdx i : Nat)
  /-- with the descriptor written -/
  | publishing (data : List Byte) (prod : BitVec 32) (bufIdx : Nat)

/-- `deliverRx` up to the copy. -/
def start (r : NetRing) (data : List Byte) : NetRing × Delivery :=
  if !r.active then (r, .idle)
  else if ringSize ≤ (r.rxProd - r.rxCons).toNat then (r, .idle)
  else
    match allocBuf r with
    | none => (r, .idle)
    | some (bufIdx, r') => (r', .copying data r.rxProd bufIdx 0)

/-- The next access of `deliverRx`. -/
def advance (r : NetRing) : Delivery → NetRing × Delivery
  | .idle => (r, .idle)
  | .copying data prod bufIdx i =>
    if i < min data.length bufSize then (copyByte r data bufIdx i, .copying data prod bufIdx (i + 1))
    else (describe r data prod bufIdx, .publishing data prod bufIdx)
  | .publishing _ prod _ => ({ r with rxProd := prod + 1 }, .idle)

/-- The accesses of `deliverRx`, one after another. -/
def accesses : Nat → NetRing × Delivery → NetRing × Delivery
  | 0, rd => rd
  | n + 1, rd => accesses n (advance rd.1 rd.2)

theorem accesses_copying (data : List Byte) (prod : BitVec 32) (bufIdx : Nat) (n : Nat) {i : Nat} (r : NetRing)
    (h : i + n = min data.length bufSize) :
    accesses n (r, .copying data prod bufIdx i) =
      ((List.range' i n).foldl (fun r i => copyByte r data bufIdx i) r, .copying data prod bufIdx (i + n)) := by
  induction n generalizing i r with
  | zero => rfl
  | succ n ih =>
    have hi : i < min data.length bufSize := by omega
    simp only [accesses, advance, if_pos hi]
    rw [ih (copyByte r data bufIdx i) (by omega), List.range'_succ, List.foldl_cons, Nat.add_assoc,
      Nat.add_comm 1 n]

/-- Alone, the accesses are the function. -/
theorem accesses_deliverRx (r : NetRing) (data : List Byte) :
    accesses (min data.length bufSize + 2) (start r data) = ((deliverRx r data).1, .idle) := by
  have hidle : ∀ (n : Nat) (r : NetRing), accesses n (r, .idle) = (r, .idle) := by
    intro n
    induction n with
    | zero => intro r; rfl
    | succ n ih => intro r; exact ih r
  have hadd : ∀ (n m : Nat) (rd : NetRing × Delivery), accesses (n + m) rd = accesses m (accesses n rd) := by
    intro n m
    induction n with
    | zero => intro rd; simp [accesses]
    | succ n ih =>
      intro rd
      rw [Nat.succ_add]
      exact ih (advance rd.1 rd.2)
  unfold start deliverRx
  by_cases hactive : r.active = true
  · by_cases hfull : ringSize ≤ (r.rxProd - r.rxCons).toNat
    · simp only [hactive, hfull, Bool.not_true, Bool.false_eq_true, if_true, if_false]
      apply hidle
    · simp only [hactive, hfull, Bool.not_true, Bool.false_eq_true, if_false]
      rcases allocBuf r with - | ⟨bufIdx, r'⟩
      · apply hidle
      · rw [hadd, accesses_copying data r.rxProd bufIdx _ r' (Nat.zero_add _), ← List.range_eq_range', Nat.zero_add]
        simp [accesses, advance]
  · simp only [hactive, Bool.not_false, if_true]
    apply hidle

/-! ## The system -/

/-- What the reader of a frame gets. -/
abbrev Frame := List Byte

structure System where
  ring : NetRing
  delivery : Delivery
  /-- the reader's copy of `rx_prod` -/
  looked : BitVec 32
  /-- the reader's own index -/
  cons : BitVec 32
  /-- the descriptor that the reader has fetched, and the bytes that it has read so far -/
  reading : Option (PacketDesc × Frame)
  delivered : List Frame
  seen : List Frame

inductive Event
  /-- a call of `deliverRx`, up to the copy -/
  | deliver (data : List Byte)
  /-- the next access of `deliverRx` -/
  | advance
  | reclaim
  /-- the reader reads `rx_prod` -/
  | look
  /-- the reader reads a descriptor -/
  | fetch
  /-- the reader reads the next byte of the frame, or goes to the next frame -/
  | read
  /-- the reader writes `rx_cons` -/
  | release

/-- The frame that the next access puts in the ring. -/
def Delivery.published : Delivery → List Frame
  | .publishing data _ _ => [data.take bufSize]
  | _ => []

def System.step (s : System) : Event → System
  | .deliver data =>
    match s.delivery with
    | .idle => { s with ring := (start s.ring data).1, delivery := (start s.ring data).2 }
    | _ => s
  | .advance =>
    { s with
      ring := (SharedRing.advance s.ring s.delivery).1
      delivery := (SharedRing.advance s.ring s.delivery).2
      delivered := s.delivered ++ s.delivery.published }
  | .reclaim =>
    match s.delivery with
    | .idle => { s with ring := reclaimRx s.ring }
    | _ => s
  | .look => { s with looked := s.ring.rxProd }
  | .fetch =>
    match s.reading with
    | none => if s.cons = s.looked then s else { s with reading := some (s.ring.rxRing (slot s.cons), []) }
    | some _ => s
  | .read =>
    match s.reading with
    | none => s
    | some (desc, bytes) =>
      if bytes.length < desc.length then
        { s with reading := some (desc, bytes ++ [s.ring.bufs desc.bufIdx bytes.length]) }
      else { s with reading := none, seen := s.seen ++ [bytes], cons := s.cons + 1 }
  | .release => { s with ring := { s.ring with rxCons := s.cons } }

/-- A process has attached the ring. -/
def System.boot : System where
  ring := { create with active := true }
  delivery := .idle
  looked := 0
  cons := 0
  reading := none
  delivered := []
  seen := []

def System.run (events : List Event) : System := events.foldl System.step .boot

/-- The buffers on the free stack. -/
def free (r : NetRing) : List Nat := (List.range r.freeCount).map r.freeStack

/-- The buffers behind the descriptors that the kernel has not reclaimed. -/
def behind (r : NetRing) : List Nat :=
  (Ring.slice ringSize r.rxRing r.kernelRxCons.toNat (r.rxProd - r.kernelRxCons).toNat).map PacketDesc.bufIdx

/-- The buffer that a delivery fills. -/
def Delivery.filling : Delivery → List Nat
  | .idle => []
  | .copying _ _ bufIdx _ | .publishing _ _ bufIdx => [bufIdx]

/-! ## The invariant -/

section
open Serial (num num_eq_num)

theorem slot_num (k : Nat) : slot (num 0#32 k) = k % ringSize := by
  have hnum : (num 0#32 k).toNat = k % 2 ^ 32 := by simp [num]
  rw [slot, hnum]
  apply Nat.mod_mod_of_dvd
  decide

/-- What is in the ring at a position: a buffer with the bytes of a frame, behind its descriptor. -/
def Holds (r : NetRing) (position : Nat) (x : Nat × Frame) : Prop :=
  r.rxRing (position % ringSize) = ⟨x.1, x.2.length, 0⟩ ∧ ∀ i < x.2.length, r.bufs x.1 i = x.2.getD i 0

/-- What a delivery has done so far, for the frame at a position. -/
def Delivery.Fills (r : NetRing) (position : Nat) : Delivery → Prop
  | .idle => True
  | .copying data prod bufIdx i =>
    prod = num 0#32 position ∧ i ≤ min data.length bufSize ∧ ∀ j < i, r.bufs bufIdx j = data.getD j 0
  | .publishing data prod bufIdx => prod = num 0#32 position ∧ Holds r position (bufIdx, data.take bufSize)

/-- The kernel has reclaimed `k` frames, the reader has released `c` and has looked at the index of frame `u`; the
frames `laid` from the `k`-th on are in the ring. -/
structure Inv (s : System) (laid : List (Nat × Frame)) (k c u : Nat) : Prop where
  active : s.ring.active = true
  prod : s.ring.rxProd = num 0#32 s.delivered.length
  reclaimed : s.ring.kernelRxCons = num 0#32 k
  released : s.ring.rxCons = num 0#32 c
  looked : s.looked = num 0#32 u
  own : s.cons = num 0#32 s.seen.length
  order : k ≤ c ∧ c ≤ s.seen.length ∧ s.seen.length ≤ u ∧ u ≤ s.delivered.length
  waiting : laid.map Prod.snd = s.delivered.drop k
  holds : ∀ i x, laid[i]? = some x → Holds s.ring (k + i) x
  seen : s.seen <+: s.delivered
  pool : (free s.ring ++ laid.map Prod.fst ++ s.delivery.filling).Perm (List.range bufCount)
  inUse : ∀ b, s.ring.bufInUse b = true ↔ b ∈ laid.map Prod.fst ++ s.delivery.filling
  delivery : s.delivery.Fills s.ring s.delivered.length
  reading : ∀ desc bytes, s.reading = some (desc, bytes) →
    s.seen.length < u ∧ ∃ x, laid[s.seen.length - k]? = some x ∧ desc = ⟨x.1, x.2.length, 0⟩ ∧ bytes <+: x.2

variable {s : System} {laid : List (Nat × Frame)} {k c u : Nat}

theorem Inv.length (h : Inv s laid k c u) : k + laid.length = s.delivered.length := by
  have hlen := congrArg List.length h.waiting
  have horder := h.order
  simp only [List.length_map, List.length_drop] at hlen
  omega

theorem Inv.count (h : Inv s laid k c u) :
    s.ring.freeCount + laid.length + s.delivery.filling.length = bufCount := by
  simpa [free, Nat.add_assoc] using h.pool.length_eq

/-- Never more than the 64 buffers are in the ring. -/
theorem Inv.room (h : Inv s laid k c u) : s.delivered.length - k ≤ bufCount := by
  have hlen := h.length
  have hcount := h.count
  omega

/-- Indices of frames in the ring are as far apart as their positions, also when they have gone round. -/
theorem Inv.distance (h : Inv s laid k c u) {i j : Nat} (hi : k ≤ i) (hij : i ≤ j) (hj : j ≤ s.delivered.length) :
    (num 0#32 j - num 0#32 i).toNat = j - i ∧ (num 0#32 i = num 0#32 j ↔ i = j) := by
  have hroom := h.room
  have hlt : j - i < 2 ^ 32 := by
    unfold bufCount at hroom
    omega
  exact ⟨Serial.toNat_num_sub_num hij hlt, num_eq_num hij hlt⟩

theorem boot_inv : Inv .boot [] 0 0 0 where
  active := rfl
  prod := rfl
  reclaimed := rfl
  released := rfl
  looked := rfl
  own := rfl
  order := by simp [System.boot]
  waiting := rfl
  holds i x hx := by simp at hx
  seen := List.prefix_refl _
  pool := by simp [System.boot, create, free, Delivery.filling]
  inUse b := by simp [System.boot, create, Delivery.filling]
  delivery := trivial
  reading _ _ hr := by simp [System.boot] at hr

/-! ## The kernel's steps -/

theorem allocBuf_some {r r' : NetRing} {b : Nat} (h : allocBuf r = some (b, r')) :
    ∃ n, r.freeCount = n + 1 ∧ b = r.freeStack n ∧
      r' = { r with freeCount := n, bufInUse := Function.update r.bufInUse b true } := by
  unfold allocBuf at h
  split at h
  · simp at h
  · obtain ⟨rfl, rfl⟩ := Prod.mk.inj (Option.some.inj h)
    exact ⟨r.freeCount - 1, by omega, rfl, rfl⟩

theorem free_succ {r : NetRing} {n : Nat} (h : r.freeCount = n + 1) :
    free r = (List.range n).map r.freeStack ++ [r.freeStack n] := by
  rw [free, h, List.range_succ, List.map_append]
  rfl

theorem freeBuf_eq {r : NetRing} {b : Nat} (hb : b < bufCount) (hu : r.bufInUse b = true) :
    freeBuf r b =
      { r with
        bufInUse := Function.update r.bufInUse b false
        freeStack := Function.update r.freeStack r.freeCount b
        freeCount := r.freeCount + 1 } := by
  rw [freeBuf, if_neg (by omega), if_pos hu]

theorem free_freeBuf {r : NetRing} {b : Nat} (hb : b < bufCount) (hu : r.bufInUse b = true) :
    free (freeBuf r b) = free r ++ [b] := by
  rw [freeBuf_eq hb hu]
  simp only [free, List.range_succ, List.map_append, List.map_singleton, Function.update_self]
  congr 1
  apply List.map_congr_left
  intro i hi
  rw [List.mem_range] at hi
  exact Function.update_of_ne (Nat.ne_of_lt hi) b r.freeStack

theorem Inv.nodup (h : Inv s laid k c u) : (laid.map Prod.fst ++ s.delivery.filling).Nodup := by
  have hnd := h.pool.nodup_iff.2 List.nodup_range
  rw [List.append_assoc] at hnd
  exact (List.nodup_append.1 hnd).2.1

/-- A delivery is refused only when no buffer is free. -/
theorem Inv.start_eq (h : Inv s laid k c u) (data : List Byte) :
    start s.ring data = match allocBuf s.ring with
      | none => (s.ring, .idle)
      | some (b, r') => (r', .copying data s.ring.rxProd b 0) := by
  have hroom := h.room
  have horder := h.order
  have hfull : ¬ ringSize ≤ (s.ring.rxProd - s.ring.rxCons).toNat := by
    rw [h.prod, h.released, (h.distance horder.1 (by omega) le_rfl).1]
    unfold ringSize bufCount at *
    omega
  unfold start
  rw [h.active, if_neg (by simp), if_neg hfull]

theorem Inv.deliver (h : Inv s laid k c u) (data : List Byte) : Inv (s.step (.deliver data)) laid k c u := by
  unfold System.step
  rcases hd : s.delivery with - | ⟨data', prod, b, i⟩ | ⟨data', prod, b⟩
  · have hpool := h.pool
    have hin := h.inUse
    rw [hd] at hpool hin
    simp only [h.start_eq]
    rcases ha : allocBuf s.ring with - | ⟨b, r'⟩
    · exact { h with delivery := trivial, pool := hpool, inUse := hin }
    · obtain ⟨n, hn, rfl, rfl⟩ := allocBuf_some ha
      rw [free_succ hn, Delivery.filling, List.append_nil] at hpool
      refine { h with delivery := ⟨h.prod, by simp, by simp⟩, pool := ?_, inUse := ?_ }
      · refine List.Perm.trans ?_ hpool
        rw [List.append_assoc, List.append_assoc]
        exact (List.perm_append_comm).append_left _
      · intro b
        simp only [Delivery.filling, List.append_nil] at hin
        by_cases hb : b = s.ring.freeStack n
        · simp [hb, Delivery.filling]
        · simp [hb, Delivery.filling, hin b]
  · exact h
  · exact h

/-! Frames of the positions: what an access leaves alone. -/

theorem Holds.congr {r r' : NetRing} {i : Nat} {x : Nat × Frame} (h : Holds r i x)
    (hring : r'.rxRing (i % ringSize) = r.rxRing (i % ringSize)) (hbufs : r'.bufs x.1 = r.bufs x.1) : Holds r' i x :=
  ⟨hring.trans h.1, fun j hj => (congrFun hbufs j).trans (h.2 j hj)⟩

theorem Inv.apart {b i : Nat} (h : Inv s laid k c u) (hb : b ∈ s.delivery.filling) {x : Nat × Frame}
    (hx : laid[i]? = some x) : x.1 ≠ b := by
  intro he
  have hmem : x.1 ∈ laid.map Prod.fst := List.mem_map_of_mem (List.mem_of_getElem? hx)
  exact (List.nodup_append.1 h.nodup).2.2 x.1 hmem b hb he

/-- The slot after the last frame is none of theirs. -/
theorem Inv.slot_ne (h : Inv s laid k c u) {i : Nat} {x : Nat × Frame} (hx : laid[i]? = some x) :
    (k + i) % ringSize ≠ s.delivered.length % ringSize := by
  have hi := (List.getElem?_eq_some_iff.1 hx).1
  have hlen := h.length
  have hroom := h.room
  unfold bufCount ringSize at *
  omega

theorem Inv.copy (h : Inv s laid k c u) {data : List Byte} {prod : BitVec 32} {b i : Nat}
    (hd : s.delivery = .copying data prod b i) (hi : i < min data.length bufSize) :
    Inv { s with ring := copyByte s.ring data b i, delivery := .copying data prod b (i + 1) } laid k c u := by
  have hfills := h.delivery
  have hpool := h.pool
  have hin := h.inUse
  rw [hd] at hfills hpool hin
  obtain ⟨hprod, -, hbytes⟩ := hfills
  refine { h with holds := ?_, pool := hpool, inUse := hin, delivery := ⟨hprod, hi, ?_⟩ }
  · intro j x hx
    have hne := h.apart (b := b) (by simp [hd, Delivery.filling]) hx
    exact (h.holds j x hx).congr rfl (Function.update_of_ne hne _ _)
  · intro j hj
    simp only [copyByte, Function.update_self]
    by_cases hji : j = i
    · rw [hji, Function.update_self]
    · rw [Function.update_of_ne hji]
      apply hbytes
      omega

theorem Inv.describe (h : Inv s laid k c u) {data : List Byte} {prod : BitVec 32} {b i : Nat}
    (hd : s.delivery = .copying data prod b i) (hi : ¬ i < min data.length bufSize) :
    Inv { s with ring := describe s.ring data prod b, delivery := .publishing data prod b } laid k c u := by
  have hfills := h.delivery
  have hpool := h.pool
  have hin := h.inUse
  rw [hd] at hfills hpool hin
  obtain ⟨rfl, hle, hbytes⟩ := hfills
  refine { h with holds := ?_, pool := hpool, inUse := hin, delivery := ⟨rfl, ?_, ?_⟩ }
  · intro j x hx
    refine (h.holds j x hx).congr ?_ rfl
    simp only [SharedRing.describe, slot_num]
    exact Function.update_of_ne (h.slot_ne hx) _ _
  · simp [SharedRing.describe, slot_num, Nat.min_comm]
  · intro j hj
    rw [List.length_take] at hj
    simp only [SharedRing.describe, hbytes j (by omega), List.getD_eq_getElem?_getD]
    rw [List.getElem?_take_of_lt (by omega)]

theorem Inv.publish (h : Inv s laid k c u) {data : List Byte} {prod : BitVec 32} {b : Nat}
    (hd : s.delivery = .publishing data prod b) :
    Inv { s with
      ring := { s.ring with rxProd := prod + 1 }
      delivery := .idle
      delivered := s.delivered ++ [data.take bufSize] } (laid ++ [(b, data.take bufSize)]) k c u := by
  have hfills := h.delivery
  have hpool := h.pool
  have hin := h.inUse
  rw [hd] at hfills hpool hin
  obtain ⟨rfl, hholds⟩ := hfills
  have horder := h.order
  have hlen := h.length
  refine { h with
    prod := ?_, order := ?_, waiting := ?_, holds := ?_, seen := ?_, pool := ?_, inUse := ?_, delivery := trivial,
    reading := ?_ }
  · rw [List.length_append, List.length_singleton, Serial.num_add]
    rfl
  · show k ≤ c ∧ c ≤ s.seen.length ∧ s.seen.length ≤ u ∧ u ≤ (s.delivered ++ [_]).length
    rw [List.length_append]
    omega
  · rw [List.map_append, h.waiting, List.drop_append_of_le_length (by omega)]
    rfl
  · intro i x hx
    by_cases hi : i < laid.length
    · rw [List.getElem?_append_left hi] at hx
      exact h.holds i x hx
    · rw [List.getElem?_append_right (by omega)] at hx
      obtain ⟨hzero, rfl⟩ : i - laid.length = 0 ∧ (b, data.take bufSize) = x := by
        simpa [List.getElem?_singleton] using hx
      rw [show k + i = s.delivered.length by omega]
      exact hholds
  · exact h.seen.trans (List.prefix_append _ _)
  · simpa [Delivery.filling, free] using hpool
  · intro b
    simpa [Delivery.filling] using hin b
  · intro desc bytes hr
    obtain ⟨hlt, x, hx, hrest⟩ := h.reading desc bytes hr
    exact ⟨hlt, x, List.getElem?_append_left (List.getElem?_eq_some_iff.1 hx).1 ▸ hx, hrest⟩

theorem Inv.advance (h : Inv s laid k c u) : ∃ laid', Inv (s.step .advance) laid' k c u := by
  simp only [System.step]
  rcases hd : s.delivery with - | ⟨data, prod, b, i⟩ | ⟨data, prod, b⟩
  · refine ⟨laid, ?_⟩
    simpa [SharedRing.advance, Delivery.published, ← hd] using h
  · refine ⟨laid, ?_⟩
    simp only [SharedRing.advance, Delivery.published, List.append_nil]
    split
    · exact h.copy hd ‹_›
    · exact h.describe hd ‹_›
  · exact ⟨_, h.publish hd⟩

/-- One turn of the loop of `reclaimRx`. -/
theorem Inv.reclaimTurn (h : Inv s laid k c u) (hd : s.delivery = .idle) (hk : k < c) :
    ∃ laid', Inv { s with ring :=
      { freeBuf s.ring (s.ring.rxRing (slot s.ring.kernelRxCons)).bufIdx with
        kernelRxCons := s.ring.kernelRxCons + 1 } } laid' (k + 1) c u := by
  have hlen := h.length
  have horder := h.order
  have hpool := h.pool
  have hin := h.inUse
  have hnd := h.nodup
  have hwaiting := h.waiting
  rw [hd] at hpool hin hnd
  rcases laid with - | ⟨⟨b, frame⟩, rest⟩
  · simp at hlen
    omega
  · have hholds := h.holds 0 (b, frame) rfl
    have hb : b ∈ List.range bufCount := hpool.subset (by simp)
    have huse : s.ring.bufInUse b = true := (hin b).2 (by simp)
    rw [List.mem_range] at hb
    rw [h.reclaimed, slot_num, show s.ring.rxRing (k % ringSize) = _ from hholds.1]
    have hfree := free_freeBuf hb huse
    have hsame := freeBuf_eq hb huse
    refine ⟨rest, ?_, ?_, ?_, ?_, h.looked, h.own, ⟨hk, horder.2⟩, ?_, ?_, h.seen, ?_, ?_, ?_, ?_⟩
    · simpa [hsame] using h.active
    · simpa [hsame] using h.prod
    · rw [Serial.num_add]
      rfl
    · simpa [hsame] using h.released
    · have hdrop := congrArg List.tail hwaiting
      simpa using hdrop
    · intro i x hx
      rw [show k + 1 + i = k + (i + 1) by omega, hsame]
      exact h.holds (i + 1) x hx
    · show (free (freeBuf s.ring b) ++ _ ++ _).Perm _
      rw [hfree, hd]
      simpa using hpool
    · intro b'
      rw [hd, hsame]
      have hmem := hin b'
      simp only [List.map_cons, List.cons_append, List.nodup_cons, List.mem_cons] at hnd hmem
      show Function.update s.ring.bufInUse b false b' = true ↔ _
      by_cases hb' : b' = b
      · rw [hb', Function.update_self]
        simpa using hnd.1
      · rw [Function.update_of_ne hb', hmem]
        simp [hb']
    · rw [hd]
      trivial
    · intro desc bytes hr
      obtain ⟨hlt, x, hx, hrest⟩ := h.reading desc bytes hr
      refine ⟨hlt, x, ?_, hrest⟩
      rw [show s.seen.length - k = s.seen.length - (k + 1) + 1 by omega, List.getElem?_cons_succ] at hx
      exact hx

theorem Inv.reclaimLoop (h : Inv s laid k c u) (hd : s.delivery = .idle) {n : Nat} (hn : c = k + n) :
    ∃ laid', Inv { s with ring := reclaimLoop (num 0#32 c) n s.ring } laid' c c u := by
  induction n generalizing s laid k with
  | zero =>
    rw [Nat.add_zero] at hn
    subst hn
    exact ⟨laid, h⟩
  | succ n ih =>
    have horder := h.order
    have hne : s.ring.kernelRxCons ≠ num 0#32 c := by
      rw [h.reclaimed, ne_eq, (h.distance le_rfl horder.1 (by omega)).2]
      omega
    rw [SharedRing.reclaimLoop, if_neg hne]
    obtain ⟨laid', h'⟩ := h.reclaimTurn hd (by omega)
    exact ih h' hd (by omega)

theorem Inv.reclaim (h : Inv s laid k c u) (hd : s.delivery = .idle) :
    ∃ laid', Inv { s with ring := reclaimRx s.ring } laid' c c u := by
  have horder := h.order
  unfold reclaimRx
  rw [h.active, h.released, h.reclaimed, (h.distance le_rfl horder.1 (by omega)).1]
  exact h.reclaimLoop hd (by omega)

/-! ## The reader's steps -/

theorem Inv.look (h : Inv s laid k c u) : Inv (s.step .look) laid k c s.delivered.length := by
  have horder := h.order
  refine { h with looked := h.prod, order := by simp only [System.step]; omega, reading := ?_ }
  intro desc bytes hr
  obtain ⟨hlt, hrest⟩ := h.reading desc bytes hr
  exact ⟨by simp only [System.step]; omega, hrest⟩

/-- What is at the reader's position. -/
theorem Inv.current (h : Inv s laid k c u) (hlt : s.seen.length < u) :
    ∃ x, laid[s.seen.length - k]? = some x ∧ s.delivered[s.seen.length]? = some x.2 := by
  have horder := h.order
  have hlen := h.length
  have hi : s.seen.length - k < laid.length := by omega
  refine ⟨_, List.getElem?_eq_getElem hi, ?_⟩
  have hsnd : (laid.map Prod.snd)[s.seen.length - k]? = some laid[s.seen.length - k].2 := by
    rw [List.getElem?_map, List.getElem?_eq_getElem hi]
    rfl
  rw [h.waiting, List.getElem?_drop, Nat.add_sub_cancel' (by omega)] at hsnd
  exact hsnd

theorem Inv.fetch (h : Inv s laid k c u) : Inv (s.step .fetch) laid k c u := by
  have horder := h.order
  simp only [System.step]
  rcases hr : s.reading with - | ⟨desc, bytes⟩
  · by_cases hne : s.cons = s.looked
    · simpa only [if_pos hne] using h
    · have hlt : s.seen.length < u := by
        rw [h.own, h.looked, (h.distance (by omega) horder.2.2.1 horder.2.2.2).2] at hne
        omega
      obtain ⟨x, hx, -⟩ := h.current hlt
      have hholds := h.holds _ x hx
      rw [Nat.add_sub_cancel' (by omega)] at hholds
      simp only [if_neg hne]
      refine { h with reading := ?_ }
      intro desc bytes hr'
      obtain ⟨rfl, rfl⟩ := Prod.mk.inj (Option.some.inj hr')
      refine ⟨hlt, x, hx, ?_, List.nil_prefix⟩
      rw [h.own, slot_num]
      exact hholds.1
  · exact h

theorem prefix_next {α : Type*} {l l' : List α} {x : α} (h : l <+: l') (hx : l'[l.length]? = some x) :
    l ++ [x] <+: l' := by
  obtain ⟨rest, rfl⟩ := h
  rcases rest with - | ⟨y, rest⟩
  · simp at hx
  · obtain rfl : y = x := by simpa using hx
    exact ⟨rest, by simp⟩

theorem Inv.read (h : Inv s laid k c u) : Inv (s.step .read) laid k c u := by
  have horder := h.order
  simp only [System.step]
  rcases hr : s.reading with - | ⟨desc, bytes⟩
  · exact h
  · obtain ⟨hlt, x, hx, rfl, hprefix⟩ := h.reading desc bytes hr
    have hholds := h.holds _ x hx
    by_cases hmore : bytes.length < x.2.length
    · -- the next byte is the next one of the frame
      simp only [if_pos hmore]
      refine { h with reading := ?_ }
      intro desc' bytes' hr'
      obtain ⟨rfl, rfl⟩ := Prod.mk.inj (Option.some.inj hr')
      refine ⟨hlt, x, hx, rfl, ?_⟩
      apply prefix_next hprefix
      simp [hholds.2 _ hmore, List.getElem?_eq_getElem hmore]
    · simp only [if_neg hmore]
      obtain ⟨y, hy, hframe⟩ := h.current hlt
      obtain rfl : x = y := Option.some.inj (hx.symm.trans hy)
      obtain rfl : bytes = x.2 := hprefix.eq_of_length (by have := hprefix.length_le; omega)
      have hlength : (s.seen ++ [x.2]).length = s.seen.length + 1 := by simp
      refine { h with own := ?_, order := ?_, seen := prefix_next h.seen hframe, reading := nofun }
      · rw [hlength, Serial.num_add, h.own]
        rfl
      · rw [hlength]
        exact ⟨horder.1, by omega, hlt, horder.2.2.2⟩

theorem Inv.release (h : Inv s laid k c u) : Inv (s.step .release) laid k s.seen.length u := by
  have horder := h.order
  exact { h with released := h.own, order := by simp only [System.step]; omega }

theorem Inv.step (h : Inv s laid k c u) (e : Event) : ∃ laid' k' c' u', Inv (s.step e) laid' k' c' u' := by
  rcases e with data | - | - | - | - | - | -
  · exact ⟨_, _, _, _, h.deliver data⟩
  · obtain ⟨laid', h'⟩ := h.advance
    exact ⟨_, _, _, _, h'⟩
  · rcases hd : s.delivery with - | ⟨data, prod, b, i⟩ | ⟨data, prod, b⟩
    · obtain ⟨laid', h'⟩ := h.reclaim hd
      refine ⟨laid', c, c, u, ?_⟩
      simpa only [System.step, hd] using h'
    · exact ⟨laid, k, c, u, by simpa only [System.step, hd] using h⟩
    · exact ⟨laid, k, c, u, by simpa only [System.step, hd] using h⟩
  · exact ⟨_, _, _, _, h.look⟩
  · exact ⟨_, _, _, _, h.fetch⟩
  · exact ⟨_, _, _, _, h.read⟩
  · exact ⟨_, _, _, _, h.release⟩

theorem Inv.run (h : Inv s laid k c u) (events : List Event) :
    ∃ laid' k' c' u', Inv (events.foldl System.step s) laid' k' c' u' := by
  induction events generalizing s laid k c u with
  | nil => exact ⟨laid, k, c, u, h⟩
  | cons e events ih =>
    obtain ⟨_, _, _, _, h'⟩ := h.step e
    exact ih h'

/-! ## Results -/

theorem Inv.behind_eq (h : Inv s laid k c u) : behind s.ring = laid.map Prod.fst := by
  have hlen := h.length
  have hmod : (num 0#32 k).toNat % ringSize = k % ringSize := slot_num k
  unfold behind
  rw [h.prod, h.reclaimed, (h.distance le_rfl (by omega) le_rfl).1, ← Ring.slice_mod, hmod, Ring.slice_mod, Ring.slice,
    List.map_map]
  apply List.ext_getElem
  · simp
    omega
  · intro i hi hi'
    rw [List.length_map] at hi'
    have hholds := (h.holds i _ (List.getElem?_eq_getElem hi')).1
    simp [hholds]

/-- **The two sides of the ring.** Whatever the order of the accesses of the kernel and of the reader, after any number
of frames: what the reader has seen is a prefix of what was delivered, and every buffer is either free, or behind a
descriptor that the kernel has not reclaimed, or being filled. A frame is refused only when no buffer is free, and once
the reader has released everything all 64 buffers are free after a reclaim. -/
theorem reader_sees_delivered (events : List Event) :
    (System.run events).seen <+: (System.run events).delivered ∧
      (free (System.run events).ring ++ behind (System.run events).ring ++ (System.run events).delivery.filling).Perm
        (List.range bufCount) ∧
      (∀ data, (System.run events).delivery = .idle →
        ((System.run (events ++ [.deliver data])).delivery = .idle ↔ free (System.run events).ring = [])) ∧
      ((System.run events).delivery = .idle → (System.run events).ring.rxCons = (System.run events).ring.rxProd →
        (free (System.run (events ++ [.reclaim])).ring).Perm (List.range bufCount)) := by
  obtain ⟨laid, k, c, u, h⟩ := boot_inv.run events
  change Inv (System.run events) laid k c u at h
  have hsnoc : ∀ e, System.run (events ++ [e]) = (System.run events).step e := by
    intro e
    simp [System.run]
  refine ⟨h.seen, ?_, ?_, ?_⟩
  · rw [h.behind_eq]
    exact h.pool
  · intro data hd
    rw [hsnoc]
    simp only [System.step, hd, h.start_eq]
    by_cases hzero : (System.run events).ring.freeCount = 0
    · simp [allocBuf, hzero, free]
    · simp [allocBuf, hzero, free]
  · intro hd hall
    have horder := h.order
    rw [h.released, h.prod, (h.distance horder.1 (by omega) le_rfl).2] at hall
    obtain ⟨laid', h'⟩ := h.reclaim hd
    have hlen : c + laid'.length = (System.run events).delivered.length := h'.length
    obtain rfl : laid' = [] := List.eq_nil_of_length_eq_zero (by omega)
    have hpool := h'.pool
    rw [hsnoc]
    simp only [System.step, hd]
    simpa [hd, Delivery.filling] using hpool

end

end Zigix.SharedRing
