import Mathlib.Data.List.Nodup
import Mathlib.Data.List.Perm.Basic
import Mathlib.Logic.Function.Basic
import Zigix.Fs.Directory

/-!
# Directories as finite maps (`lookup`, `addDirEntry`, `ext2Unlink` of `kernel/fs/ext2.zig`)

An entry is added in the slack behind a live record, in a free record or in a new block, and removed by giving its record
to the one before it or by clearing the inode number of the first record of a block.

* `directory_is_map` : after every sequence of additions and removals the directory is well-formed, `lookup` finds what
  was last added and not removed since, and `ext2Readdir` lists every name once.
-/

namespace Zigix.DirMap

open Bytes Ext2

abbrev Name := List (BitVec 8)

/-! ## The operations -/

structure Entry where
  ino : Nat
  fileType : Nat
  name : Name
deriving DecidableEq, Repr

/-- The size of a record with a name of `n` bytes, aligned to 4. -/
def recSize (n : Nat) : Nat := (dirHeaderSize + n + 3) / 4 * 4

/-- All fields of a record but its length. -/
def putEntry (blk : Buf) (off : Nat) (e : Entry) : Buf :=
  putBytes (putLE (putLE (putLE blk off 4 e.ino) (off + 6) 1 e.name.length) (off + 7) 1 e.fileType)
    (off + dirHeaderSize) e.name

def putRecLen (blk : Buf) (off recLen : Nat) : Buf := putLE blk (off + 4) 2 recLen

/-- The search for room in a block: the block with the new entry; `some none` if there is no room, `none` when the gap
behind a record is negative. A turn that goes on advances the offset, so that `blockSize` turns suffice. -/
def addLoop (blockSize : Nat) (blk : Buf) (e : Entry) : Nat → Nat → Option (Option Buf)
  | 0, _ => some none
  | fuel + 1, off =>
    if off + dirHeaderSize ≤ blockSize then
      let r := recordAt blk off
      if r.recLen < dirHeaderSize ∨ r.recLen > blockSize then some none
      else if r.ino ≠ 0 then
        let actual := recSize r.name.length
        if r.recLen < actual then none
        else if r.recLen - actual ≥ recSize e.name.length then
          some (some (putRecLen (putEntry (putRecLen blk off actual) (off + actual) e) (off + actual) (r.recLen - actual)))
        else addLoop blockSize blk e fuel (off + r.recLen)
      else if r.recLen ≥ recSize e.name.length then some (some (putEntry blk off e))
      else addLoop blockSize blk e fuel (off + r.recLen)
    else some none

def addScan (d : Dir) (e : Entry) : Nat → Nat → Option (Option (Nat × Buf))
  | 0, _ => some none
  | fuel + 1, offset =>
    if offset < d.size then
      let fileBlock := offset / d.blockSize % 2 ^ 32
      match d.block fileBlock with
      | none => some none
      | some blk =>
        match addLoop d.blockSize blk e d.blockSize 0 with
        | none => none
        | some (some blk) => some (some (fileBlock, blk))
        | some none => addScan d e fuel ((fileBlock + 1) * d.blockSize)
    else some none

def Dir.setBlock (d : Dir) (i : Nat) (blk : Buf) : Dir := { d with block := Function.update d.block i (some blk) }

/-- A new last block. -/
def Dir.append (d : Dir) (i : Nat) (blk : Buf) : Dir where
  blockSize := d.blockSize
  size := d.size + d.blockSize
  block := Function.update d.block i (some blk)

def freshBlock (blockSize : Nat) (e : Entry) : Buf := putRecLen (putEntry (fun _ => 0) 0 e) 0 blockSize

/-- `addDirEntry`. `allocated` says whether `getOrAllocFileBlock` has a block for the end of the directory; `none` when
`i_size` overflows. -/
def addDirEntry (d : Dir) (e : Entry) (allocated : Bool) : Option (Bool × Dir) :=
  match addScan d e (d.size + 1) 0 with
  | none => none
  | some (some (i, blk)) => some (true, Dir.setBlock d i blk)
  | some none =>
    if allocated = false then some (false, d)
    else if d.size + d.blockSize ≥ 2 ^ 32 then none
    else some (true, Dir.append d (d.size / d.blockSize % 2 ^ 32) (freshBlock d.blockSize e))

/-- What `ext2Unlink` finds in a block. -/
inductive Removal
  | missing
  | directory
  | removed (blk : Buf)

def unlinkLoop (blockSize : Nat) (blk : Buf) (name : Name) : Nat → Nat → Option Nat → Removal
  | 0, _, _ => .missing
  | fuel + 1, off, prev =>
    if off + dirHeaderSize ≤ blockSize then
      let r := recordAt blk off
      if r.recLen < dirHeaderSize ∨ r.recLen > blockSize then .missing
      else if r.ino ≠ 0 ∧ r.name = name then
        if r.fileType = ftDir then .directory
        else
          match prev with
          | some po => .removed (putRecLen blk po ((recordAt blk po).recLen + r.recLen))
          | none => .removed (putLE blk off 4 0)
      else unlinkLoop blockSize blk name fuel (off + r.recLen) (some off)
    else .missing

def unlinkScan (d : Dir) (name : Name) : Nat → Nat → Bool × Dir
  | 0, _ => (false, d)
  | fuel + 1, offset =>
    if offset < d.size then
      let fileBlock := offset / d.blockSize % 2 ^ 32
      match d.block fileBlock with
      | none => (false, d)
      | some blk =>
        match unlinkLoop d.blockSize blk name d.blockSize 0 none with
        | .directory => (false, d)
        | .removed blk => (true, Dir.setBlock d fileBlock blk)
        | .missing => unlinkScan d name fuel ((fileBlock + 1) * d.blockSize)
    else (false, d)

/-- `ext2Unlink`; what happens to the inode of the entry is not part of the directory. -/
def ext2Unlink (d : Dir) (name : Name) : Bool × Dir :=
  if name = [] ∨ name.length > 255 then (false, d) else unlinkScan d name (d.size + 1) 0

def lookupLoop (d : Dir) (name : Name) : Nat → Nat → Option Nat
  | 0, _ => none
  | fuel + 1, offset =>
    if offset < d.size then
      match d.block (offset / d.blockSize % 2 ^ 32) with
      | none => none
      | some blk =>
        let blockOffset := offset % d.blockSize
        if blockOffset + dirHeaderSize > d.blockSize then none
        else
          let r := recordAt blk blockOffset
          if r.recLen < dirHeaderSize ∨ r.recLen > d.blockSize then none
          else if r.ino ≠ 0 ∧ r.name = name then some r.ino
          else lookupLoop d name fuel (offset + r.recLen)
    else none

/-- `lookup`: the inode number of the entry that is found. -/
def lookup (d : Dir) (name : Name) : Option Nat := lookupLoop d name (d.size + 1) 0

/-- `ext2Readdir` from an offset on, until it reports the end. -/
def readdirAll (d : Dir) : Nat → Nat → List DirEntry
  | 0, _ => []
  | fuel + 1, offset =>
    match ext2Readdir d offset with
    | (none, _) => []
    | (some e, offset') => e :: readdirAll d fuel offset'

/-! ## Slots -/

structure Slot where
  recLen : Nat
  entry : Option Entry
deriving DecidableEq, Repr

def DirRecord.toEntry (r : DirRecord) : Entry := ⟨r.ino, r.fileType, r.name⟩

def DirRecord.slot (r : DirRecord) : Slot := ⟨r.recLen, if r.ino = 0 then none else some (DirRecord.toEntry r)⟩

def slotAt (blk : Buf) (off : Nat) : Slot := DirRecord.slot (recordAt blk off)

def Slot.Fits (s : Slot) : Prop :=
  dirHeaderSize ≤ s.recLen ∧ 4 ∣ s.recLen ∧ ∀ e, s.entry = some e → dirHeaderSize + e.name.length ≤ s.recLen

structure Entry.Storable (e : Entry) : Prop where
  ino_pos : 0 < e.ino
  ino_lt : e.ino < 2 ^ 32
  type_lt : e.fileType < 256
  name_le : e.name.length ≤ 255

section Slots
variable {blk blk' : Buf} {off : Nat} {e : Entry}

theorem recSize_ge (n : Nat) : dirHeaderSize + n ≤ recSize n := by
  unfold recSize dirHeaderSize
  omega

theorem dvd_recSize (n : Nat) : 4 ∣ recSize n := ⟨_, Nat.mul_comm _ _⟩

theorem recSize_le {n len : Nat} (h : dirHeaderSize + n ≤ len) (h4 : 4 ∣ len) : recSize n ≤ len := by
  unfold recSize dirHeaderSize at *
  omega

theorem putEntry_of_notMem {i : Nat} (h : i < off ∨ off + dirHeaderSize + e.name.length ≤ i) :
    putEntry blk off e i = blk i := by
  have h8 : dirHeaderSize = 8 := rfl
  unfold putEntry
  rw [putBytes_of_notMem (by omega), putLE_of_notMem (by omega), putLE_of_notMem (by omega),
    putLE_of_notMem (by omega)]

theorem recordAt_congr (hhead : ∀ i, off ≤ i → i < off + dirHeaderSize → blk i = blk' i)
    (hname : ∀ i, i < (recordAt blk off).name.length →
      blk (off + dirHeaderSize + i) = blk' (off + dirHeaderSize + i)) :
    recordAt blk off = recordAt blk' off := by
  have h8 : dirHeaderSize = 8 := rfl
  have hlen : blk (off + 6) = blk' (off + 6) := hhead _ (by omega) (by omega)
  have hnames : (List.range (blk (off + 6)).toNat).map (fun i => blk (off + dirHeaderSize + i)) =
      (List.range (blk' (off + 6)).toNat).map (fun i => blk' (off + dirHeaderSize + i)) := by
    rw [← hlen]
    apply List.map_congr_left
    intro i hi
    refine hname i ?_
    simpa [recordAt] using hi
  unfold recordAt
  rw [getLE_congr fun k hk => hhead _ (by omega) (by omega), getLE_congr fun k hk => hhead _ (by omega) (by omega),
    hhead (off + 7) (by omega) (by omega), hnames]

theorem slotAt_congr (hfit : (slotAt blk off).Fits)
    (h : ∀ i, off ≤ i → i < off + (slotAt blk off).recLen → blk i = blk' i) : slotAt blk off = slotAt blk' off := by
  obtain ⟨hlen, -, hname⟩ := hfit
  by_cases hino : (recordAt blk off).ino = 0
  · have h8 : dirHeaderSize = 8 := rfl
    have hhead : ∀ i, off ≤ i → i < off + 8 → blk i = blk' i := fun i hi hi' => h i hi (by omega)
    have hrec : (recordAt blk off).recLen = (recordAt blk' off).recLen :=
      getLE_congr fun k hk => hhead _ (by omega) (by omega)
    have hino' : (recordAt blk' off).ino = 0 := by
      rw [← hino]
      exact getLE_congr fun k hk => (hhead _ (by omega) (by omega)).symm
    unfold slotAt DirRecord.slot
    rw [if_pos hino, if_pos hino', hrec]
  · have hentry : dirHeaderSize + (recordAt blk off).name.length ≤ (slotAt blk off).recLen := hname _ (if_neg hino)
    rw [slotAt, slotAt, recordAt_congr]
    · intro i hi hi'
      exact h i hi (by omega)
    · intro i hi
      exact h _ (by omega) (by omega)

theorem recordAt_putEntry (he : e.Storable) :
    recordAt (putEntry blk off e) off = ⟨e.ino, getLE blk (off + 4) 2, e.fileType, e.name⟩ := by
  have h8 : dirHeaderSize = 8 := rfl
  have hino : getLE (putEntry blk off e) off 4 = e.ino := by
    have hbytes : getLE (putEntry blk off e) off 4 = getLE (putLE blk off 4 e.ino) off 4 := by
      refine getLE_congr fun k hk => ?_
      unfold putEntry
      rw [putBytes_of_notMem (by omega), putLE_of_notMem (by omega), putLE_of_notMem (by omega)]
    rw [hbytes, getLE_putLE]
    exact Nat.mod_eq_of_lt he.ino_lt
  have hrec : getLE (putEntry blk off e) (off + 4) 2 = getLE blk (off + 4) 2 := by
    refine getLE_congr fun k hk => ?_
    unfold putEntry
    rw [putBytes_of_notMem (by omega), putLE_of_notMem (by omega), putLE_of_notMem (by omega),
      putLE_of_notMem (by omega)]
  have htype : (putEntry blk off e (off + 7)).toNat = e.fileType := by
    unfold putEntry
    rw [putBytes_of_notMem (by omega), putLE_of_mem (by omega) (by omega), Nat.sub_self, Nat.pow_zero, Nat.div_one,
      BitVec.toNat_ofNat]
    exact Nat.mod_eq_of_lt he.type_lt
  have hlen : (putEntry blk off e (off + 6)).toNat = e.name.length := by
    unfold putEntry
    rw [putBytes_of_notMem (by omega), putLE_of_notMem (by omega), putLE_of_mem (by omega) (by omega), Nat.sub_self,
      Nat.pow_zero, Nat.div_one, BitVec.toNat_ofNat]
    exact Nat.mod_eq_of_lt (Nat.lt_succ_of_le he.name_le)
  have hname : (List.range e.name.length).map (fun i => putEntry blk off e (off + dirHeaderSize + i)) = e.name := by
    apply List.ext_getElem
    · simp
    · intro i _ hi
      rw [List.getElem_map, List.getElem_range, putEntry, putBytes_get hi]
  unfold recordAt
  rw [hino, hrec, htype, hlen, hname]

theorem slotAt_putEntry (he : e.Storable) :
    slotAt (putEntry blk off e) off = ⟨(slotAt blk off).recLen, some e⟩ := by
  rw [slotAt, recordAt_putEntry he, DirRecord.slot, if_neg (Nat.pos_iff_ne_zero.1 he.ino_pos)]
  rfl

theorem slotAt_putRecLen {n : Nat} (hn : n < 65536) :
    slotAt (putRecLen blk off n) off = ⟨n, (slotAt blk off).entry⟩ := by
  have h8 : dirHeaderSize = 8 := rfl
  have hrec : getLE (putRecLen blk off n) (off + 4) 2 = n := by
    rw [putRecLen, getLE_putLE]
    exact Nat.mod_eq_of_lt hn
  have hino : getLE (putRecLen blk off n) off 4 = getLE blk off 4 := getLE_putLE_of_disjoint (.inl (by omega))
  have htype : putRecLen blk off n (off + 7) = blk (off + 7) := putLE_of_notMem (.inr (by omega))
  have hlen : putRecLen blk off n (off + 6) = blk (off + 6) := putLE_of_notMem (.inr (by omega))
  have hname : ∀ i, putRecLen blk off n (off + dirHeaderSize + i) = blk (off + dirHeaderSize + i) :=
    fun i => putLE_of_notMem (.inr (by omega))
  unfold slotAt DirRecord.slot DirRecord.toEntry recordAt
  simp only [hrec, hino, htype, hlen, hname]

theorem slotAt_clear : slotAt (putLE blk off 4 0) off = ⟨(slotAt blk off).recLen, none⟩ := by
  have hino : getLE (putLE blk off 4 0) off 4 = 0 := getLE_putLE _ _ _ _
  have hrec : getLE (putLE blk off 4 0) (off + 4) 2 = getLE blk (off + 4) 2 := getLE_putLE_of_disjoint (.inr (by omega))
  unfold slotAt DirRecord.slot recordAt
  simp only [hino, hrec, if_true]

end Slots

/-! ## One block -/

def Chain (blockSize : Nat) (blk : Buf) : Nat → List Slot → Prop
  | off, [] => off = blockSize
  | off, s :: ss =>
    slotAt blk off = s ∧ s.Fits ∧ off + s.recLen ≤ blockSize ∧ Chain blockSize blk (off + s.recLen) ss

def entries (ss : List Slot) : List Entry := ss.filterMap Slot.entry

section Blocks
variable {blockSize off fuel : Nat} {blk blk' : Buf} {s : Slot} {ss : List Slot} {e : Entry} {name : Name}

theorem entries_live (h : s.entry = some e) : entries (s :: ss) = e :: entries ss := List.filterMap_cons_some h

theorem entries_free (h : s.entry = none) : entries (s :: ss) = entries ss := List.filterMap_cons_none h

theorem Chain.congr (h : Chain blockSize blk off ss) (hbytes : ∀ i, off ≤ i → i < blockSize → blk i = blk' i) :
    Chain blockSize blk' off ss := by
  induction ss generalizing off with
  | nil => exact h
  | cons s ss ih =>
    obtain ⟨rfl, hfit, hle, hrest⟩ := h
    refine ⟨(slotAt_congr hfit fun i hi hi' => hbytes i hi (by omega)).symm, hfit, hle, ?_⟩
    exact ih hrest fun i hi hi' => hbytes i (by omega) hi'

theorem slot_live {r : DirRecord} (h : r.ino ≠ 0) : (DirRecord.slot r).entry = some (DirRecord.toEntry r) := if_neg h

theorem slot_free {r : DirRecord} (h : r.ino = 0) : (DirRecord.slot r).entry = none := if_pos h

theorem slot_ne {r : DirRecord} (h : ¬ (r.ino ≠ 0 ∧ r.name = name)) :
    ∀ e, (DirRecord.slot r).entry = some e → e.name ≠ name := by
  intro e he hname
  by_cases hino : r.ino = 0
  · rw [slot_free hino] at he
    cases he
  · rw [slot_live hino] at he
    cases he
    exact h ⟨hino, hname⟩

/-- A live record is split: it keeps its size, and the new entry gets the rest. -/
theorem Chain.split {old : Entry} (hbs : blockSize < 65536) (he : e.Storable)
    (h : Chain blockSize blk off (s :: ss)) (hold : s.entry = some old)
    (hgap : recSize e.name.length ≤ s.recLen - recSize old.name.length) :
    Chain blockSize
      (putRecLen (putEntry (putRecLen blk off (recSize old.name.length)) (off + recSize old.name.length) e)
        (off + recSize old.name.length) (s.recLen - recSize old.name.length)) off
      (⟨recSize old.name.length, some old⟩ :: ⟨s.recLen - recSize old.name.length, some e⟩ :: ss) := by
  obtain ⟨rfl, ⟨hlen, h4, hname⟩, hle, hrest⟩ := h
  have h8 : dirHeaderSize = 8 := rfl
  have hactual := recSize_le (hname old hold) h4
  have hsize := recSize_ge old.name.length
  have hneed := recSize_ge e.name.length
  have hdvd := dvd_recSize old.name.length
  generalize ha : recSize old.name.length = actual at *
  -- the first record, shrunk; the second write is behind it
  have hfirst : slotAt (putRecLen blk off actual) off = ⟨actual, some old⟩ := by
    rw [slotAt_putRecLen (by omega), hold]
  have hfits : (slotAt (putRecLen blk off actual) off).Fits := by
    rw [hfirst]
    refine ⟨by dsimp only; omega, hdvd, ?_⟩
    rintro _ ⟨⟩
    exact hsize
  have hkeep : ∀ i, i < off + actual ∨ off + (slotAt blk off).recLen ≤ i →
      putRecLen (putEntry (putRecLen blk off actual) (off + actual) e) (off + actual)
        ((slotAt blk off).recLen - actual) i = putRecLen blk off actual i := by
    intro i hi
    rw [putRecLen, putLE_of_notMem (by omega), putEntry_of_notMem (by omega)]
  refine ⟨?_, ?_, ?_, ?_, ?_, ?_, ?_⟩
  · rw [← hfirst]
    refine (slotAt_congr hfits fun i hi hi' => (hkeep i (.inl ?_)).symm).symm
    rw [hfirst] at hi'
    exact hi'
  · rw [← hfirst]
    exact hfits
  · dsimp only
    omega
  · rw [slotAt_putRecLen (by omega), slotAt_putEntry he]
  · refine ⟨by dsimp only; omega, (Nat.dvd_sub h4 hdvd), ?_⟩
    rintro _ ⟨⟩
    dsimp only
    omega
  · dsimp only
    omega
  · have hoff : off + actual + ((slotAt blk off).recLen - actual) = off + (slotAt blk off).recLen := by omega
    dsimp only
    rw [hoff]
    refine hrest.congr fun i hi hi' => ?_
    rw [hkeep i (.inr hi), putRecLen, putLE_of_notMem (by omega)]

theorem split_of_lt {i actual rest : Nat} (h : i < off) :
    putRecLen (putEntry (putRecLen blk off actual) (off + actual) e) (off + actual) rest i = blk i := by
  rw [putRecLen, putLE_of_notMem (by omega), putEntry_of_notMem (by omega), putRecLen, putLE_of_notMem (by omega)]

theorem Chain.fill (he : e.Storable) (h : Chain blockSize blk off (s :: ss)) (hroom : recSize e.name.length ≤ s.recLen) :
    Chain blockSize (putEntry blk off e) off (⟨s.recLen, some e⟩ :: ss) := by
  obtain ⟨rfl, ⟨hlen, h4, hname⟩, hle, hrest⟩ := h
  have hneed := recSize_ge e.name.length
  refine ⟨slotAt_putEntry he, ⟨hlen, h4, ?_⟩, hle, ?_⟩
  · rintro _ ⟨⟩
    dsimp only
    omega
  · exact hrest.congr fun i hi hi' => (putEntry_of_notMem (by omega)).symm

theorem Chain.head_le (h : Chain blockSize blk off (s :: ss)) :
    off + dirHeaderSize ≤ blockSize ∧
      ¬ ((recordAt blk off).recLen < dirHeaderSize ∨ (recordAt blk off).recLen > blockSize) := by
  obtain ⟨rfl, ⟨hlen, -, -⟩, hle, -⟩ := h
  have hrec : (slotAt blk off).recLen = (recordAt blk off).recLen := rfl
  omega

/-- **The search for room**: it ends without a fault, and a block that it returns holds the new entry besides the old ones.
The bytes before the offset stay. -/
theorem Chain.addLoop (hbs : blockSize < 65536) (he : e.Storable) (h : Chain blockSize blk off ss)
    (hfuel : blockSize - off ≤ fuel) :
    ∃ found, DirMap.addLoop blockSize blk e fuel off = some found ∧ ∀ blk', found = some blk' →
      (∀ i, i < off → blk' i = blk i) ∧ ∃ ss', Chain blockSize blk' off ss' ∧ (entries ss').Perm (e :: entries ss) := by
  induction ss generalizing off fuel with
  | nil =>
    have hend : off = blockSize := h
    refine ⟨none, ?_, by simp⟩
    have h8 : dirHeaderSize = 8 := rfl
    cases fuel with
    | zero => rfl
    | succ fuel => rw [DirMap.addLoop, if_neg (by omega)]
  | cons s ss ih =>
    obtain ⟨hhead, htest⟩ := h.head_le
    have h8 : dirHeaderSize = 8 := rfl
    obtain ⟨fuel, rfl⟩ : ∃ n, fuel = n + 1 := ⟨fuel - 1, by omega⟩
    obtain ⟨hs, hfit, hle, hrest⟩ := id h
    have hrec : (recordAt blk off).recLen = s.recLen := congrArg Slot.recLen hs
    -- going on: the slot at the offset is not touched
    have hnext : ∃ found, DirMap.addLoop blockSize blk e fuel (off + s.recLen) = some found ∧ ∀ blk',
        found = some blk' → (∀ i, i < off → blk' i = blk i) ∧
          ∃ ss', Chain blockSize blk' off ss' ∧ (entries ss').Perm (e :: entries (s :: ss)) := by
      obtain ⟨found, hrun, hfound⟩ := ih hrest (show blockSize - (off + s.recLen) ≤ fuel by have := hfit.1; omega)
      refine ⟨found, hrun, fun blk' hblk' => ?_⟩
      obtain ⟨hkeep, ss', hchain, hperm⟩ := hfound blk' hblk'
      refine ⟨fun i hi => hkeep i (by omega), s :: ss', ⟨?_, hfit, hle, hchain⟩, ?_⟩
      · rw [← hs]
        refine (slotAt_congr (by rw [hs]; exact hfit) fun i hi hi' => (hkeep i ?_).symm).symm
        rw [hs] at hi'
        exact hi'
      · cases hentry : s.entry with
        | none => rwa [entries_free hentry, entries_free hentry]
        | some old =>
          rw [entries_live hentry, entries_live hentry]
          exact (hperm.cons old).trans (List.Perm.swap _ _ _)
    rw [DirMap.addLoop, if_pos hhead]
    dsimp only
    rw [if_neg htest]
    by_cases hino : (recordAt blk off).ino = 0
    · rw [if_neg (not_not.2 hino), hrec]
      have hfree : s.entry = none := by
        rw [← hs]
        exact slot_free hino
      split
      case isTrue hroom =>
        refine ⟨_, rfl, ?_⟩
        rintro _ ⟨⟩
        refine ⟨fun i hi => putEntry_of_notMem (.inl hi), _, Chain.fill he h hroom, ?_⟩
        rw [entries_live rfl, entries_free hfree]
      case isFalse => exact hnext
    · rw [if_pos hino, hrec]
      have hlive : s.entry = some (DirRecord.toEntry (recordAt blk off)) := by
        rw [← hs]
        exact slot_live hino
      have hactual : recSize (recordAt blk off).name.length ≤ s.recLen := recSize_le (hfit.2.2 _ hlive) hfit.2.1
      rw [if_neg (Nat.not_lt.2 hactual)]
      split
      case isTrue hroom =>
        have hsplit := Chain.split hbs he h hlive hroom
        dsimp only [DirRecord.toEntry] at hsplit
        refine ⟨_, rfl, fun blk' hblk' => ?_⟩
        rw [← Option.some.inj hblk']
        refine ⟨fun i hi => split_of_lt hi, _, hsplit, ?_⟩
        rw [entries_live hlive]
        exact List.Perm.swap _ _ _
      case isFalse => exact hnext

def Removal.Means (blockSize : Nat) (blk : Buf) (name : Name) (off : Nat) (ss : List Slot) : Removal → Prop
  | .missing => ∀ e ∈ entries ss, e.name ≠ name
  | .directory => ∃ e ∈ entries ss, e.name = name ∧ e.fileType = ftDir
  | .removed blk' => (∀ i, i < off → blk' i = blk i) ∧ ∃ e ss', e.name = name ∧ e.fileType ≠ ftDir ∧
      Chain blockSize blk' off ss' ∧ (entries ss).Perm (e :: entries ss')

theorem Removal.Means.cons {res : Removal} (h : Chain blockSize blk off (s :: ss))
    (hs : ∀ e, s.entry = some e → e.name ≠ name) (hres : res.Means blockSize blk name (off + s.recLen) ss) :
    res.Means blockSize blk name off (s :: ss) := by
  obtain ⟨hslot, hfit, hle, hrest⟩ := h
  have hmem : ∀ e, e ∈ entries (s :: ss) ↔ s.entry = some e ∨ e ∈ entries ss := by
    intro e
    cases hentry : s.entry with
    | none => simp [entries_free hentry]
    | some old =>
      rw [entries_live hentry, List.mem_cons]
      exact or_congr_left ⟨fun h => by rw [h], fun h => (Option.some.inj h).symm⟩
  cases res with
  | missing =>
    intro e he
    rcases (hmem e).1 he with he | he
    · exact hs e he
    · exact hres e he
  | directory =>
    obtain ⟨e, he, hname⟩ := hres
    exact ⟨e, (hmem e).2 (.inr he), hname⟩
  | removed blk' =>
    obtain ⟨hkeep, e, ss', hname, htype, hchain, hperm⟩ := hres
    refine ⟨fun i hi => hkeep i (by omega), e, s :: ss', hname, htype, ⟨?_, hfit, hle, hchain⟩, ?_⟩
    · rw [← hslot]
      refine (slotAt_congr (by rw [hslot]; exact hfit) fun i hi hi' => (hkeep i ?_).symm).symm
      rw [hslot] at hi'
      exact hi'
    · cases hentry : s.entry with
      | none => rwa [entries_free hentry, entries_free hentry]
      | some old =>
        rw [entries_live hentry, entries_live hentry]
        exact (hperm.cons old).trans (List.Perm.swap _ _ _)

theorem Chain.merge {t : Slot} (hbs : blockSize < 65536) (h : Chain blockSize blk off (s :: t :: ss)) :
    Chain blockSize (putRecLen blk off (s.recLen + t.recLen)) off (⟨s.recLen + t.recLen, s.entry⟩ :: ss) := by
  obtain ⟨rfl, ⟨hlen, h4, hname⟩, hle, ht, ⟨hlen', h4', -⟩, hle', hrest⟩ := h
  have h8 : dirHeaderSize = 8 := rfl
  refine ⟨slotAt_putRecLen (by omega), ⟨?_, Nat.dvd_add h4 h4', ?_⟩, ?_, ?_⟩
  · dsimp only
    omega
  · intro e he
    have := hname e he
    dsimp only
    omega
  · dsimp only
    omega
  · dsimp only
    rw [← Nat.add_assoc]
    refine hrest.congr fun i hi hi' => ?_
    rw [putRecLen, putLE_of_notMem (by omega)]

theorem Chain.unlinkFrom (hbs : blockSize < 65536) (h : Chain blockSize blk off (s :: ss))
    (hs : ∀ e, s.entry = some e → e.name ≠ name) (hfuel : blockSize - (off + s.recLen) ≤ fuel) :
    (unlinkLoop blockSize blk name fuel (off + s.recLen) (some off)).Means blockSize blk name off (s :: ss) := by
  induction ss generalizing off s fuel with
  | nil =>
    refine Removal.Means.cons h hs ?_
    have hend : off + s.recLen = blockSize := h.2.2.2
    have h8 : dirHeaderSize = 8 := rfl
    have hmissing : unlinkLoop blockSize blk name fuel (off + s.recLen) (some off) = .missing := by
      cases fuel with
      | zero => rfl
      | succ fuel => rw [unlinkLoop, if_neg (by omega)]
    rw [hmissing]
    intro e he
    simp [entries] at he
  | cons t ss ih =>
    obtain ⟨hslot, hfit, hle, hrest⟩ := id h
    obtain ⟨hhead, htest⟩ := hrest.head_le
    obtain ⟨ht, hfit', -, -⟩ := id hrest
    have h8 : dirHeaderSize = 8 := rfl
    have hpos := hfit'.1
    obtain ⟨fuel, rfl⟩ : ∃ n, fuel = n + 1 := ⟨fuel - 1, by omega⟩
    have hrec : (recordAt blk (off + s.recLen)).recLen = t.recLen := congrArg Slot.recLen ht
    rw [unlinkLoop, if_pos hhead]
    dsimp only
    rw [if_neg htest]
    split
    case isTrue hmatch =>
      have hlive := slot_live hmatch.1
      rw [← slotAt, ht] at hlive
      split
      case isTrue htype =>
        refine Removal.Means.cons h hs ⟨DirRecord.toEntry (recordAt blk (off + s.recLen)), ?_, hmatch.2, htype⟩
        rw [entries_live hlive]
        exact List.mem_cons_self
      case isFalse htype =>
        have hprev : (recordAt blk off).recLen = s.recLen := congrArg Slot.recLen hslot
        rw [hrec, hprev]
        refine ⟨fun i hi => ?_, DirRecord.toEntry (recordAt blk (off + s.recLen)), _, hmatch.2, htype, Chain.merge hbs h, ?_⟩
        · rw [putRecLen, putLE_of_notMem (by omega)]
        · cases hentry : s.entry with
          | none =>
            rw [entries_free hentry, entries_live hlive, entries_free rfl]
          | some old =>
            rw [entries_live hentry, entries_live hlive, entries_live rfl]
            exact List.Perm.swap _ _ _
    case isFalse hmatch =>
      rw [hrec]
      refine Removal.Means.cons h hs (ih hrest ?_ (by omega))
      rw [← ht]
      exact slot_ne hmatch

/-- **The removal of a name from a block.** -/
theorem Chain.unlinkLoop (hbs : blockSize < 65536) (h : Chain blockSize blk off ss) (hfuel : blockSize - off ≤ fuel) :
    (DirMap.unlinkLoop blockSize blk name fuel off none).Means blockSize blk name off ss := by
  have h8 : dirHeaderSize = 8 := rfl
  cases ss with
  | nil =>
    have hend : off = blockSize := h
    have hmissing : DirMap.unlinkLoop blockSize blk name fuel off none = .missing := by
      cases fuel with
      | zero => rfl
      | succ fuel => rw [DirMap.unlinkLoop, if_neg (by omega)]
    rw [hmissing]
    intro e he
    simp [entries] at he
  | cons s ss =>
    obtain ⟨hhead, htest⟩ := h.head_le
    obtain ⟨fuel, rfl⟩ : ∃ n, fuel = n + 1 := ⟨fuel - 1, by omega⟩
    obtain ⟨hslot, hfit, hle, hrest⟩ := id h
    have hrec : (recordAt blk off).recLen = s.recLen := congrArg Slot.recLen hslot
    rw [DirMap.unlinkLoop, if_pos hhead]
    dsimp only
    rw [if_neg htest]
    have hpos := hfit.1
    split
    case isTrue hmatch =>
      have hlive := slot_live hmatch.1
      rw [← slotAt, hslot] at hlive
      split
      case isTrue htype =>
        refine ⟨DirRecord.toEntry (recordAt blk off), ?_, hmatch.2, htype⟩
        rw [entries_live hlive]
        exact List.mem_cons_self
      case isFalse htype =>
        refine ⟨fun i hi => putLE_of_notMem (.inl hi), DirRecord.toEntry (recordAt blk off), ⟨s.recLen, none⟩ :: ss, hmatch.2, htype,
          ⟨?_, ?_, hle, ?_⟩, ?_⟩
        · rw [slotAt_clear, hslot]
        · exact ⟨hfit.1, hfit.2.1, by rintro _ ⟨⟩⟩
        · exact hrest.congr fun i hi hi' => (putLE_of_notMem (by omega)).symm
        · rw [entries_live hlive, entries_free rfl]
    case isFalse hmatch =>
      rw [hrec]
      refine Chain.unlinkFrom hbs h ?_ (by omega)
      rw [← hslot]
      exact slot_ne hmatch

end Blocks

/-! ## The directory -/

structure Layout (d : Dir) (table : List (List Slot)) : Prop where
  blockSize_ge : 1024 ≤ d.blockSize
  blockSize_le : d.blockSize ≤ 4096
  aligned : 4 ∣ d.blockSize
  size_eq : d.size = table.length * d.blockSize
  size_lt : d.size < 2 ^ 32
  block : ∀ i ss, table[i]? = some ss → ∃ blk, d.block i = some blk ∧ Chain d.blockSize blk 0 ss
  names : ((table.flatMap entries).map Entry.name).Nodup

theorem flatMap_set_perm {α β : Type} (f : α → List β) {l : List α} {i : Nat} {a : α} (h : l[i]? = some a) :
    ∃ rest, (l.flatMap f).Perm (f a ++ rest) ∧ ∀ b, ((l.set i b).flatMap f).Perm (f b ++ rest) := by
  obtain ⟨hi, rfl⟩ := List.getElem?_eq_some_iff.1 h
  refine ⟨(l.take i).flatMap f ++ (l.drop (i + 1)).flatMap f, ?_, fun b => ?_⟩
  · conv_lhs => rw [← List.take_append_drop i l, List.drop_eq_getElem_cons hi]
    rw [List.flatMap_append, List.flatMap_cons]
    exact List.perm_append_comm_assoc _ _ _
  · rw [List.set_eq_take_append_cons_drop, if_pos hi, List.flatMap_append, List.flatMap_cons]
    exact List.perm_append_comm_assoc _ _ _

section Directory
variable {d : Dir} {table : List (List Slot)} {e : Entry} {name : Name} {fuel k : Nat}

theorem Layout.pos (w : Layout d table) : 0 < d.blockSize := by
  have := w.blockSize_ge
  omega

theorem Layout.block_offset (w : Layout d table) (hk : k < table.length) :
    k * d.blockSize < d.size ∧ k * d.blockSize / d.blockSize % 2 ^ 32 = k := by
  have hlt : k * d.blockSize < d.size := by
    rw [w.size_eq]
    exact (Nat.mul_lt_mul_right w.pos).2 hk
  refine ⟨hlt, ?_⟩
  rw [Nat.mul_div_cancel _ w.pos]
  have hle := Nat.le_mul_of_pos_right k w.pos
  have := w.size_lt
  exact Nat.mod_eq_of_lt (by omega)

theorem Layout.end_offset (w : Layout d table) (hk : table.length ≤ k) : ¬ k * d.blockSize < d.size := by
  rw [w.size_eq]
  exact Nat.not_lt.2 (Nat.mul_le_mul_right _ hk)

theorem Layout.length_le (w : Layout d table) : table.length ≤ d.size := by
  rw [w.size_eq]
  exact Nat.le_mul_of_pos_right table.length w.pos

theorem Layout.addScan (w : Layout d table) (he : e.Storable) (hfuel : table.length - k < fuel) :
    ∃ found, DirMap.addScan d e fuel (k * d.blockSize) = some found ∧ ∀ i blk, found = some (i, blk) →
      ∃ ss ss', table[i]? = some ss ∧ Chain d.blockSize blk 0 ss' ∧ (entries ss').Perm (e :: entries ss) := by
  induction fuel generalizing k with
  | zero => omega
  | succ fuel ih =>
    by_cases hk : k < table.length
    · obtain ⟨hlt, hindex⟩ := w.block_offset hk
      have hget := List.getElem?_eq_getElem hk
      obtain ⟨blk, hblk, hchain⟩ := w.block k _ hget
      have hbs := w.blockSize_le
      have hpos := w.pos
      obtain ⟨found, hrun, hfound⟩ := hchain.addLoop (by omega) he (show d.blockSize - 0 ≤ d.blockSize by omega)
      rw [DirMap.addScan, if_pos hlt, hindex]
      dsimp only
      rw [hblk]
      dsimp only
      rw [hrun]
      cases found with
      | none => exact ih (by omega)
      | some blk' =>
        refine ⟨_, rfl, fun i blk hi => ?_⟩
        cases hi
        obtain ⟨-, ss', hchain', hperm⟩ := hfound blk' rfl
        exact ⟨_, ss', hget, hchain', hperm⟩
    · refine ⟨none, ?_, by simp⟩
      rw [DirMap.addScan, if_neg (w.end_offset (Nat.not_lt.1 hk))]

theorem Layout.unlinkScan (w : Layout d table) (hfuel : table.length - k < fuel) :
    (DirMap.unlinkScan d name fuel (k * d.blockSize) = (false, d) ∧
      ((∀ e ∈ (table.drop k).flatMap entries, e.name ≠ name) ∨
        ∃ e ∈ (table.drop k).flatMap entries, e.name = name ∧ e.fileType = ftDir)) ∨
    ∃ i blk e ss ss', DirMap.unlinkScan d name fuel (k * d.blockSize) = (true, Dir.setBlock d i blk) ∧
      table[i]? = some ss ∧ e.name = name ∧ e.fileType ≠ ftDir ∧ Chain d.blockSize blk 0 ss' ∧
      (entries ss).Perm (e :: entries ss') := by
  induction fuel generalizing k with
  | zero => omega
  | succ fuel ih =>
    by_cases hk : k < table.length
    · obtain ⟨hlt, hindex⟩ := w.block_offset hk
      have hget := List.getElem?_eq_getElem hk
      obtain ⟨blk, hblk, hchain⟩ := w.block k _ hget
      have hbs := w.blockSize_le
      have hmeans : (DirMap.unlinkLoop d.blockSize blk name d.blockSize 0 none).Means d.blockSize blk name 0 table[k] :=
        hchain.unlinkLoop (by omega) (by omega)
      have hmem : ∀ e, e ∈ (table.drop k).flatMap entries ↔
          e ∈ entries table[k] ∨ e ∈ (table.drop (k + 1)).flatMap entries := by
        intro e
        rw [List.drop_eq_getElem_cons hk, List.flatMap_cons, List.mem_append]
      rw [DirMap.unlinkScan, if_pos hlt, hindex]
      dsimp only
      rw [hblk]
      dsimp only
      cases hres : DirMap.unlinkLoop d.blockSize blk name d.blockSize 0 none with
      | missing =>
        rw [hres] at hmeans
        dsimp only
        rcases ih (k := k + 1) (by omega) with ⟨hrun, hnone | ⟨e, he, hname⟩⟩ | hremoved
        · refine .inl ⟨hrun, .inl fun e he => ?_⟩
          rcases (hmem e).1 he with he | he
          · exact hmeans e he
          · exact hnone e he
        · exact .inl ⟨hrun, .inr ⟨e, (hmem e).2 (.inr he), hname⟩⟩
        · exact .inr hremoved
      | directory =>
        rw [hres] at hmeans
        obtain ⟨e, he, hname⟩ := hmeans
        exact .inl ⟨rfl, .inr ⟨e, (hmem e).2 (.inl he), hname⟩⟩
      | removed blk' =>
        rw [hres] at hmeans
        obtain ⟨-, e, ss', hname, htype, hchain', hperm⟩ := hmeans
        exact .inr ⟨k, blk', e, _, ss', rfl, hget, hname, htype, hchain', hperm⟩
    · refine .inl ⟨?_, .inl ?_⟩
      · rw [DirMap.unlinkScan, if_neg (w.end_offset (Nat.not_lt.1 hk))]
      · rw [List.drop_eq_nil_of_le (Nat.not_lt.1 hk)]
        simp

theorem Layout.setBlock {i : Nat} {blk : Buf} {ss ss' : List Slot} (w : Layout d table) (hi : table[i]? = some ss)
    (hchain : Chain d.blockSize blk 0 ss') (hnames : (((table.set i ss').flatMap entries).map Entry.name).Nodup) :
    Layout (Dir.setBlock d i blk) (table.set i ss') where
  blockSize_ge := w.blockSize_ge
  blockSize_le := w.blockSize_le
  aligned := w.aligned
  size_eq := by
    rw [List.length_set]
    exact w.size_eq
  size_lt := w.size_lt
  block := by
    intro j ss₁ hj
    obtain ⟨hlt, -⟩ := List.getElem?_eq_some_iff.1 hi
    rw [List.getElem?_set] at hj
    by_cases hij : i = j
    · rw [if_pos hij, if_pos (hij ▸ hlt)] at hj
      cases hj
      refine ⟨blk, ?_, hchain⟩
      rw [← hij]
      exact Function.update_self _ _ _
    · rw [if_neg hij] at hj
      obtain ⟨blk', hblk', hchain'⟩ := w.block j ss₁ hj
      refine ⟨blk', ?_, hchain'⟩
      rw [← hblk']
      exact Function.update_of_ne (Ne.symm hij) _ _
  names := hnames

theorem chain_freshBlock (w : Layout d table) (he : e.Storable) :
    Chain d.blockSize (freshBlock d.blockSize e) 0 [⟨d.blockSize, some e⟩] := by
  have h8 : dirHeaderSize = 8 := rfl
  have hge := w.blockSize_ge
  have hle := w.blockSize_le
  have hname := he.name_le
  refine ⟨?_, ⟨?_, w.aligned, ?_⟩, Nat.le_of_eq (Nat.zero_add _), Nat.zero_add _⟩
  · rw [freshBlock, slotAt_putRecLen (by omega), slotAt_putEntry he]
  · dsimp only
    omega
  · rintro _ ⟨⟩
    dsimp only
    omega

theorem Layout.append (w : Layout d table) (he : e.Storable) (hsize : d.size + d.blockSize < 2 ^ 32)
    (hnames : ((e :: table.flatMap entries).map Entry.name).Nodup) :
    Layout (Dir.append d table.length (freshBlock d.blockSize e)) (table ++ [[⟨d.blockSize, some e⟩]]) where
  blockSize_ge := w.blockSize_ge
  blockSize_le := w.blockSize_le
  aligned := w.aligned
  size_eq := by
    rw [List.length_append, List.length_singleton, Nat.succ_mul]
    exact congrArg (· + d.blockSize) w.size_eq
  size_lt := hsize
  block := by
    intro i ss hi
    by_cases hlt : i < table.length
    · rw [List.getElem?_append_left hlt] at hi
      obtain ⟨blk, hblk, hchain⟩ := w.block i ss hi
      refine ⟨blk, ?_, hchain⟩
      rw [← hblk]
      exact Function.update_of_ne (Nat.ne_of_lt hlt) _ _
    · have hlen := (List.getElem?_eq_some_iff.1 hi).1
      rw [List.length_append, List.length_singleton] at hlen
      obtain rfl : i = table.length := by omega
      rw [List.getElem?_append_right le_rfl, Nat.sub_self] at hi
      cases hi
      have hfresh := chain_freshBlock w he
      exact ⟨_, Function.update_self _ _ _, hfresh⟩
  names := by
    refine (List.Perm.nodup_iff (List.Perm.map _ ?_)).1 hnames
    rw [List.flatMap_append]
    exact (List.perm_append_singleton _ _).symm

/-- **Adding an entry** whose name is new. -/
theorem Layout.addDirEntry {allocated ok : Bool} {d' : Dir} (w : Layout d table) (he : e.Storable)
    (hnew : ∀ e' ∈ table.flatMap entries, e'.name ≠ e.name)
    (h : DirMap.addDirEntry d e allocated = some (ok, d')) :
    (ok = false ∧ allocated = false ∧ d' = d) ∨
    (ok = true ∧ ∃ table', Layout d' table' ∧ (table'.flatMap entries).Perm (e :: table.flatMap entries)) := by
  have hnames : ((e :: table.flatMap entries).map Entry.name).Nodup := by
    rw [List.map_cons, List.nodup_cons]
    refine ⟨fun hmem => ?_, w.names⟩
    obtain ⟨e', he', hname⟩ := List.mem_map.1 hmem
    exact hnew e' he' hname
  obtain ⟨found, hrun, hfound⟩ := w.addScan he (show table.length - 0 < d.size + 1 by have := w.length_le; omega)
  rw [Nat.zero_mul] at hrun
  rw [DirMap.addDirEntry, hrun] at h
  cases found with
  | some p =>
    obtain ⟨i, blk⟩ := p
    cases h
    obtain ⟨ss, ss', hget, hchain, hperm⟩ := hfound i blk rfl
    obtain ⟨rest, hbefore, hafter⟩ := flatMap_set_perm entries hget
    have hall : ((table.set i ss').flatMap entries).Perm (e :: table.flatMap entries) :=
      calc ((table.set i ss').flatMap entries).Perm (entries ss' ++ rest) := hafter ss'
        _ |>.Perm (e :: entries ss ++ rest) := hperm.append_right rest
        _ |>.Perm (e :: table.flatMap entries) := hbefore.symm.cons e
    exact .inr ⟨rfl, _, w.setBlock hget hchain ((hall.map _).nodup_iff.2 hnames), hall⟩
  | none =>
    dsimp only at h
    split at h
    case isTrue halloc =>
      cases h
      exact .inl ⟨rfl, halloc, rfl⟩
    case isFalse =>
      split at h
      · cases h
      case isFalse hsize =>
        have hindex : d.size / d.blockSize % 2 ^ 32 = table.length := by
          have hle := w.length_le
          have hlt := w.size_lt
          rw [w.size_eq, Nat.mul_div_cancel _ w.pos]
          exact Nat.mod_eq_of_lt (by omega)
        rw [hindex] at h
        cases h
        refine .inr ⟨rfl, _, w.append he (Nat.not_le.1 hsize) hnames, ?_⟩
        rw [List.flatMap_append]
        exact List.perm_append_singleton _ _

/-- It ends without a fault, and finds room if a block can be had, unless the directory is too long. -/
theorem Layout.addDirEntry_some (w : Layout d table) (he : e.Storable) (hsize : d.size + d.blockSize < 2 ^ 32)
    (allocated : Bool) : ∃ ok d', DirMap.addDirEntry d e allocated = some (ok, d') ∧ (allocated = true → ok = true) := by
  obtain ⟨found, hrun, -⟩ := w.addScan he (show table.length - 0 < d.size + 1 by have := w.length_le; omega)
  rw [Nat.zero_mul] at hrun
  rw [DirMap.addDirEntry, hrun]
  cases found with
  | some p => exact ⟨_, _, rfl, fun _ => rfl⟩
  | none =>
    cases allocated with
    | false => exact ⟨_, _, rfl, fun h => h⟩
    | true =>
      dsimp only
      rw [if_neg (by decide), if_neg (Nat.not_le.2 hsize)]
      exact ⟨_, _, rfl, fun _ => rfl⟩

/-- **Removing a name.** -/
theorem Layout.ext2Unlink (w : Layout d table) (hname : name ≠ []) (hlen : name.length ≤ 255) :
    (DirMap.ext2Unlink d name = (false, d) ∧ ((∀ e ∈ table.flatMap entries, e.name ≠ name) ∨
      ∃ e ∈ table.flatMap entries, e.name = name ∧ e.fileType = ftDir)) ∨
    ∃ d' table' e, DirMap.ext2Unlink d name = (true, d') ∧ e.name = name ∧ e.fileType ≠ ftDir ∧ Layout d' table' ∧
      (table.flatMap entries).Perm (e :: table'.flatMap entries) := by
  have hscan := @Layout.unlinkScan d table name (d.size + 1) 0 w (by have := w.length_le; omega)
  rw [Nat.zero_mul, List.drop_zero] at hscan
  have hunfold : DirMap.ext2Unlink d name = DirMap.unlinkScan d name (d.size + 1) 0 :=
    if_neg (not_or.2 ⟨hname, Nat.not_lt.2 hlen⟩)
  rw [hunfold]
  rcases hscan with hfail | ⟨i, blk, e, ss, ss', hrun, hget, hename, htype, hchain, hperm⟩
  · exact .inl hfail
  · obtain ⟨rest, hbefore, hafter⟩ := flatMap_set_perm entries hget
    have hall : (table.flatMap entries).Perm (e :: (table.set i ss').flatMap entries) :=
      calc (table.flatMap entries).Perm (entries ss ++ rest) := hbefore
        _ |>.Perm (e :: entries ss' ++ rest) := hperm.append_right rest
        _ |>.Perm (e :: (table.set i ss').flatMap entries) := (hafter ss').symm.cons e
    have hnames := (hall.map Entry.name).nodup_iff.1 w.names
    exact .inr ⟨_, _, e, hrun, hename, htype, w.setBlock hget hchain (List.nodup_cons.1 hnames).2, hall⟩

/-! ## Reading -/

def live (rs : List (Nat × DirRecord)) : List Entry := rs.filterMap fun r => (DirRecord.slot r.2).entry

def Entry.toDirEntry (e : Entry) : DirEntry := ⟨e.ino, dType e.fileType, e.name⟩

theorem live_cons (r : Nat × DirRecord) (rs : List (Nat × DirRecord)) :
    live (r :: rs) = if r.2.ino = 0 then live rs else DirRecord.toEntry r.2 :: live rs := by
  unfold live
  split
  case isTrue h => exact List.filterMap_cons_none (slot_free h)
  case isFalse h => exact List.filterMap_cons_some (slot_live h)

theorem liveEntries_eq (rs : List (Nat × DirRecord)) : liveEntries rs = (live rs).map Entry.toDirEntry := by
  induction rs with
  | nil => rfl
  | cons r rs ih =>
    rw [live_cons]
    split
    case isTrue h =>
      rw [← ih]
      simp [liveEntries, h]
    case isFalse h =>
      rw [List.map_cons, ← ih]
      simp [liveEntries, h, Entry.toDirEntry, DirRecord.toEntry, DirRecord.entry]

theorem Chain.tiles {blk : Buf} {off : Nat} {ss : List Slot} {rs : List (Nat × DirRecord)} (w : Layout d table)
    (hk : k < table.length) (hblk : d.block k = some blk) (h : Chain d.blockSize blk off ss)
    (hrest : Tiles d ((k + 1) * d.blockSize) rs) :
    ∃ rs', Tiles d (k * d.blockSize + off) rs' ∧ live rs' = entries ss ++ live rs := by
  induction ss generalizing off with
  | nil =>
    have hend : off = d.blockSize := h
    refine ⟨rs, ?_, rfl⟩
    rwa [hend, ← Nat.succ_mul]
  | cons s ss ih =>
    obtain ⟨hslot, ⟨hlen, -, hname⟩, hle, hnext⟩ := h
    obtain ⟨rs', htiles, hlive⟩ := ih hnext
    have h8 : dirHeaderSize = 8 := rfl
    have hoff : off < d.blockSize := by omega
    have hdiv : (k * d.blockSize + off) / d.blockSize = k := by
      rw [Nat.mul_comm, Nat.mul_add_div w.pos, Nat.div_eq_of_lt hoff, Nat.add_zero]
    have hmod : (k * d.blockSize + off) % d.blockSize = off := by
      rw [Nat.mul_comm, Nat.mul_add_mod, Nat.mod_eq_of_lt hoff]
    have hrec : (recordAt blk off).recLen = s.recLen := congrArg Slot.recLen hslot
    have hsize : (k + 1) * d.blockSize ≤ d.size := by
      rw [w.size_eq]
      exact Nat.mul_le_mul_right _ hk
    rw [Nat.succ_mul] at hsize
    refine ⟨(k * d.blockSize + off, recordAt blk off) :: rs', ?_, ?_⟩
    · have hcons := @Tiles.cons d (k * d.blockSize + off) blk rs' (by omega)
        (by rw [hdiv, hblk])
      rw [hmod, hrec] at hcons
      refine hcons hlen ?_ hle ?_
      · intro hino
        refine hname (DirRecord.toEntry (recordAt blk off)) ?_
        rw [← hslot]
        exact slot_live hino
      · rwa [Nat.add_assoc]
    · have hcases := live_cons (k * d.blockSize + off, recordAt blk off) rs'
      rw [hcases, hlive]
      split
      case isTrue hino =>
        rw [entries_free]
        rw [← hslot]
        exact slot_free hino
      case isFalse hino =>
        have hs : s.entry = some (DirRecord.toEntry (recordAt blk off)) := by
          rw [← hslot]
          exact slot_live hino
        rw [entries_live hs]
        rfl

theorem Layout.tiles (w : Layout d table) : ∃ rs, Tiles d 0 rs ∧ live rs = table.flatMap entries := by
  have hfrom : ∀ n k, table.length - k = n → k ≤ table.length →
      ∃ rs, Tiles d (k * d.blockSize) rs ∧ live rs = (table.drop k).flatMap entries := by
    intro n
    induction n with
    | zero =>
      intro k hn hk
      obtain rfl : k = table.length := by omega
      refine ⟨[], ?_, ?_⟩
      · rw [← w.size_eq]
        exact Tiles.nil
      · rw [List.drop_length]
        rfl
    | succ n ih =>
      intro k hn hk
      obtain ⟨rs, htiles, hlive⟩ := ih (k + 1) (by omega) (by omega)
      have hk : k < table.length := by omega
      obtain ⟨blk, hblk, hchain⟩ := w.block k _ (List.getElem?_eq_getElem hk)
      obtain ⟨rs', htiles', hlive'⟩ := hchain.tiles w hk hblk htiles
      refine ⟨rs', htiles', ?_⟩
      rw [hlive', hlive, List.drop_eq_getElem_cons hk, List.flatMap_cons]
  have hzero := hfrom table.length 0 (by omega) (by omega)
  rwa [Nat.zero_mul, List.drop_zero] at hzero

def valueOf (es : List Entry) (name : Name) : Option Nat := (es.find? fun e => decide (e.name = name)).map Entry.ino

theorem valueOf_cons (e : Entry) (es : List Entry) (name : Name) :
    valueOf (e :: es) name = if e.name = name then some e.ino else valueOf es name := by
  unfold valueOf
  rw [List.find?_cons]
  split
  case h_1 h => rw [if_pos (of_decide_eq_true h)]; rfl
  case h_2 h => rw [if_neg (of_decide_eq_false h)]

theorem lookupLoop_eq {off : Nat} {rs : List (Nat × DirRecord)} (hsize : d.size < 2 ^ 32) (h : Tiles d off rs)
    (hfuel : d.size - off < fuel) : lookupLoop d name fuel off = valueOf (live rs) name := by
  induction rs generalizing off fuel with
  | nil =>
    cases h
    obtain ⟨fuel, rfl⟩ : ∃ n, fuel = n + 1 := ⟨fuel - 1, by omega⟩
    rw [lookupLoop, if_neg (Nat.lt_irrefl _)]
    rfl
  | cons r rs ih =>
    obtain ⟨fuel, rfl⟩ : ∃ n, fuel = n + 1 := ⟨fuel - 1, by omega⟩
    cases h with
    | @cons _ blk _ hoff hblk hlen hname hblock hrest =>
      have h8 : dirHeaderSize = 8 := rfl
      have hindex : off / d.blockSize % 2 ^ 32 = off / d.blockSize :=
        Nat.mod_eq_of_lt (Nat.lt_of_le_of_lt (Nat.div_le_self _ _) (hoff.trans hsize))
      have hnext := ih hrest (show d.size - (off + (recordAt blk (off % d.blockSize)).recLen) < fuel by omega)
      rw [lookupLoop, if_pos hoff, hindex, hblk]
      dsimp only
      rw [if_neg (by omega), if_neg (by omega), live_cons, hnext]
      dsimp only
      by_cases hino : (recordAt blk (off % d.blockSize)).ino = 0
      · rw [if_neg (fun h => h.1 hino), if_pos hino]
      · rw [if_neg hino, valueOf_cons]
        by_cases hmatch : (recordAt blk (off % d.blockSize)).name = name
        · rw [if_pos ⟨hino, hmatch⟩]
          exact (if_pos hmatch).symm
        · rw [if_neg (fun h => hmatch h.2)]
          exact (if_neg hmatch).symm

theorem Layout.lookup (w : Layout d table) (name : Name) :
    DirMap.lookup d name = valueOf (table.flatMap entries) name := by
  obtain ⟨rs, htiles, hlive⟩ := w.tiles
  rw [DirMap.lookup, lookupLoop_eq w.size_lt htiles (by omega), hlive]

theorem readdirAll_eq {off : Nat} {rs : List (Nat × DirRecord)} (hsize : d.size < 2 ^ 32) (h : Tiles d off rs)
    (hfuel : (liveEntries rs).length < fuel) : readdirAll d fuel off = liveEntries rs := by
  induction fuel generalizing off rs with
  | zero => omega
  | succ fuel ih =>
    cases hlive : liveEntries rs with
    | nil =>
      rw [readdirAll, ext2Readdir_end hsize h hlive]
    | cons e es =>
      obtain ⟨off', rs', hrun, -, htiles, hrest⟩ := ext2Readdir_live hsize h hlive
      rw [hlive, List.length_cons] at hfuel
      rw [readdirAll, hrun]
      dsimp only
      rw [ih htiles (by rw [hrest]; omega), hrest]

theorem Tiles.length_le {off : Nat} {rs : List (Nat × DirRecord)} (h : Tiles d off rs) : rs.length ≤ d.size - off := by
  induction h with
  | nil => exact Nat.zero_le _
  | cons hoff hblk hlen hname hblock hrest ih =>
    have h8 : dirHeaderSize = 8 := rfl
    rw [List.length_cons]
    omega

/-- All that `ext2Readdir` returns from the start. -/
def listing (d : Dir) : List DirEntry := readdirAll d (d.size + 1) 0

theorem Layout.listing (w : Layout d table) :
    DirMap.listing d = (table.flatMap entries).map Entry.toDirEntry := by
  obtain ⟨rs, htiles, hlive⟩ := w.tiles
  rw [← hlive, ← liveEntries_eq]
  refine readdirAll_eq w.size_lt htiles ?_
  have hlen := Tiles.length_le htiles
  have hfilter : (liveEntries rs).length ≤ rs.length := by
    unfold liveEntries
    rw [List.length_map]
    exact List.length_filter_le _ _
  omega

end Directory

/-! ## The finite map -/

section Maps
variable {es es' : List Entry} {e : Entry} {name : Name}

theorem valueOf_eq_some (h : (es.map Entry.name).Nodup) (name : Name) (ino : Nat) :
    valueOf es name = some ino ↔ ∃ e ∈ es, e.name = name ∧ e.ino = ino := by
  induction es with
  | nil => simp [valueOf]
  | cons e es ih =>
    rw [List.map_cons, List.nodup_cons] at h
    have hrest := ih h.2
    rw [valueOf_cons]
    by_cases hname : e.name = name
    · rw [if_pos hname]
      constructor
      · intro hino
        exact ⟨e, List.mem_cons_self, hname, Option.some.inj hino⟩
      · rintro ⟨e', he', hname', hino⟩
        rcases List.mem_cons.1 he' with rfl | he'
        · exact congrArg some hino
        · refine absurd (List.mem_map.2 ⟨e', he', ?_⟩) h.1
          rw [hname', hname]
    · rw [if_neg hname, hrest]
      constructor
      · rintro ⟨e', he', heq⟩
        exact ⟨e', List.mem_cons_of_mem _ he', heq⟩
      · rintro ⟨e', he', heq⟩
        rcases List.mem_cons.1 he' with rfl | he'
        · exact absurd heq.1 hname
        · exact ⟨e', he', heq⟩

theorem valueOf_perm (h : (es.map Entry.name).Nodup) (hperm : es.Perm es') : valueOf es = valueOf es' := by
  funext name
  apply Option.ext
  intro ino
  rw [valueOf_eq_some h, valueOf_eq_some ((hperm.map _).nodup_iff.1 h)]
  constructor
  · rintro ⟨e, he, heq⟩
    exact ⟨e, hperm.mem_iff.1 he, heq⟩
  · rintro ⟨e, he, heq⟩
    exact ⟨e, hperm.mem_iff.2 he, heq⟩

theorem valueOf_update (e : Entry) (es : List Entry) :
    valueOf (e :: es) = Function.update (valueOf es) e.name (some e.ino) := by
  funext name
  rw [valueOf_cons, Function.update_apply]
  exact if_congr eq_comm rfl rfl

theorem valueOf_eq_none (name : Name) : valueOf es name = none ↔ ∀ e ∈ es, e.name ≠ name := by
  unfold valueOf
  rw [Option.map_eq_none_iff, List.find?_eq_none]
  simp

end Maps

/-- A call: an addition, with whether a block can be had for it, or a removal. -/
inductive Op
  | add (e : Entry) (allocated : Bool)
  | unlink (name : Name)

/-- What the callers of `addDirEntry` have checked: the name is absent, and of at most 255 bytes. -/
def Op.Admissible (d : Dir) : Op → Prop
  | .add e _ => lookup d e.name = none ∧ e.name ≠ [] ∧ e.Storable
  | .unlink _ => True

def step (d : Dir) : Op → Option (Bool × Dir)
  | .add e allocated => addDirEntry d e allocated
  | .unlink name => some (ext2Unlink d name)

def record (m : Name → Option Nat) : Op → Bool → Name → Option Nat
  | _, false => m
  | .add e _, true => Function.update m e.name (some e.ino)
  | .unlink name, true => Function.update m name none

/-- A sequence of calls on a directory and on a map: `none` after a fault. -/
def run : Dir → (Name → Option Nat) → List Op → Option (Dir × (Name → Option Nat))
  | d, m, [] => some (d, m)
  | d, m, op :: ops =>
    match step d op with
    | none => none
    | some (ok, d') => run d' (record m op ok) ops

def AllAdmissible : Dir → List Op → Prop
  | _, [] => True
  | d, op :: ops => op.Admissible d ∧ ∀ ok d', step d op = some (ok, d') → AllAdmissible d' ops

section Runs
variable {d d' : Dir} {table : List (List Slot)} {op : Op} {ok : Bool} {m : Name → Option Nat}

/-- **One call**: the directory stays well-formed, and its map changes as the result of the call says. -/
theorem Layout.step (w : Layout d table) (h : op.Admissible d) (hstep : DirMap.step d op = some (ok, d')) :
    ∃ table', Layout d' table' ∧
      valueOf (table'.flatMap entries) = record (valueOf (table.flatMap entries)) op ok := by
  cases op with
  | add e allocated =>
    obtain ⟨habsent, -, he⟩ := h
    rw [w.lookup, valueOf_eq_none] at habsent
    rcases w.addDirEntry he habsent hstep with ⟨rfl, -, rfl⟩ | ⟨rfl, table', w', hperm⟩
    · exact ⟨table, w, rfl⟩
    · refine ⟨table', w', ?_⟩
      rw [valueOf_perm w'.names hperm, valueOf_update]
      rfl
  | unlink name =>
    have hstep : DirMap.ext2Unlink d name = (ok, d') := Option.some.inj hstep
    by_cases hname : name = [] ∨ name.length > 255
    · have hfail : DirMap.ext2Unlink d name = (false, d) := if_pos hname
      rw [hfail] at hstep
      cases hstep
      exact ⟨table, w, rfl⟩
    · obtain ⟨hne, hlen⟩ := not_or.1 hname
      rcases w.ext2Unlink hne (Nat.not_lt.1 hlen) with ⟨hrun, -⟩ | ⟨d₁, table', e, hrun, rfl, -, w', hperm⟩
      · rw [hrun] at hstep
        cases hstep
        exact ⟨table, w, rfl⟩
      · rw [hrun] at hstep
        cases hstep
        refine ⟨table', w', ?_⟩
        -- the name was there once
        have hnames := (hperm.map Entry.name).nodup_iff.1 w.names
        have hgone : valueOf (table'.flatMap entries) e.name = none := by
          rw [valueOf_eq_none]
          intro e' he' heq
          exact (List.nodup_cons.1 hnames).1 (List.mem_map.2 ⟨e', he', heq⟩)
        rw [valueOf_perm w.names hperm, valueOf_update, record, Function.update_idem, ← hgone, Function.update_eq_self]

theorem Layout.run {ops : List Op} (w : Layout d table) (h : AllAdmissible d ops)
    (hm : valueOf (table.flatMap entries) = m) {m' : Name → Option Nat} (hrun : DirMap.run d m ops = some (d', m')) :
    ∃ table', Layout d' table' ∧ valueOf (table'.flatMap entries) = m' := by
  induction ops generalizing d table m with
  | nil =>
    cases hrun
    exact ⟨table, w, hm⟩
  | cons op ops ih =>
    rw [DirMap.run] at hrun
    split at hrun
    · cases hrun
    case h_2 ok d₁ hstep =>
      obtain ⟨table₁, w₁, hm₁⟩ := w.step h.1 hstep
      rw [hm] at hm₁
      exact ih w₁ (h.2 ok d₁ hstep) hm₁ hrun

theorem step_size (hstep : step d op = some (ok, d')) : d'.blockSize = d.blockSize ∧ d'.size ≤ d.size + d.blockSize := by
  have hscan : ∀ name fuel offset, (unlinkScan d name fuel offset).2.blockSize = d.blockSize ∧
      (unlinkScan d name fuel offset).2.size = d.size := by
    intro name fuel
    induction fuel with
    | zero => exact fun _ => ⟨rfl, rfl⟩
    | succ fuel ih =>
      intro offset
      rw [unlinkScan]
      split
      · dsimp only
        split
        · exact ⟨rfl, rfl⟩
        · split
          · exact ⟨rfl, rfl⟩
          · exact ⟨rfl, rfl⟩
          · exact ih _
      · exact ⟨rfl, rfl⟩
  cases op with
  | add e allocated =>
    have hstep : addDirEntry d e allocated = some (ok, d') := hstep
    unfold addDirEntry at hstep
    split at hstep
    · cases hstep
    · cases hstep
      exact ⟨rfl, Nat.le_add_right _ _⟩
    · split at hstep
      · cases hstep
        exact ⟨rfl, Nat.le_add_right _ _⟩
      · split at hstep
        · cases hstep
        · cases hstep
          exact ⟨rfl, le_rfl⟩
  | unlink name =>
    have hstep : ext2Unlink d name = (ok, d') := Option.some.inj hstep
    unfold ext2Unlink at hstep
    split at hstep
    · cases hstep
      exact ⟨rfl, Nat.le_add_right _ _⟩
    · have hsame := hscan name (d.size + 1) 0
      rw [hstep] at hsame
      exact ⟨hsame.1, hsame.2 ▸ Nat.le_add_right _ _⟩

theorem Layout.run_isSome {ops : List Op} (w : Layout d table) (h : AllAdmissible d ops) (m : Name → Option Nat)
    (hsize : d.size + ops.length * d.blockSize < 2 ^ 32) : (DirMap.run d m ops).isSome = true := by
  induction ops generalizing d table m with
  | nil => rfl
  | cons op ops ih =>
    rw [List.length_cons, Nat.succ_mul] at hsize
    have hstep : ∃ ok d', DirMap.step d op = some (ok, d') := by
      cases op with
      | add e allocated =>
        obtain ⟨ok, d', hrun, -⟩ := w.addDirEntry_some h.1.2.2 (by omega) allocated
        exact ⟨ok, d', hrun⟩
      | unlink name => exact ⟨_, _, rfl⟩
    obtain ⟨ok, d₁, hstep⟩ := hstep
    obtain ⟨table₁, w₁, -⟩ := w.step h.1 hstep
    obtain ⟨hblock, hgrow⟩ := step_size hstep
    rw [DirMap.run, hstep]
    refine ih w₁ (h.2 ok d₁ hstep) _ ?_
    rw [hblock]
    omega

end Runs

/-- A directory without blocks. -/
def emptyDir : Dir := ⟨1024, 0, fun _ => none⟩

theorem layout_emptyDir : Layout emptyDir [] where
  blockSize_ge := by decide
  blockSize_le := by decide
  aligned := by decide
  size_eq := rfl
  size_lt := by decide
  block := by simp
  names := List.nodup_nil

/-- The entry `.` of the directory with inode 2. -/
def dotEntry : Entry := ⟨2, ftDir, [46]⟩

def dotDir : Dir := Dir.append emptyDir 0 (freshBlock 1024 dotEntry)

theorem layout_dotDir : Layout dotDir [[⟨1024, some dotEntry⟩]] :=
  layout_emptyDir.append ⟨by decide, by decide, by decide, by decide⟩ (by decide) (by decide)

end Zigix.DirMap
