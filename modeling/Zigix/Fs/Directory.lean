import Mathlib.Data.List.Basic
import Zigix.Lib.Bytes

/-!
# Directory records and their listing (`ext2Readdir` of `kernel/fs/ext2.zig`)

A directory is a file of records: inode number, record length, name length, file type, name. A record with inode number 0
is free. `Tiles` says that records fill the blocks of the directory from a position on, each within its block; `Listing`
is a directory with the records that do.

* `ext2Readdir_live`, `ext2Readdir_end` : from a record on, the entry returned is the first live one, and the position
  behind it is again one of a record; without one the end is reported.
-/

namespace Zigix.Ext2

open Bytes

/-- `EXT2_DIR_HEADER_SIZE`. -/
def dirHeaderSize : Nat := 8

def ftRegFile : Nat := 1

def ftDir : Nat := 2

def ftSymlink : Nat := 7

structure DirRecord where
  ino : Nat
  recLen : Nat
  fileType : Nat
  name : List (BitVec 8)
deriving DecidableEq, Repr

def recordAt (blk : Buf) (off : Nat) : DirRecord where
  ino := getLE blk off 4
  recLen := getLE blk (off + 4) 2
  fileType := (blk (off + 7)).toNat
  name := (List.range (blk (off + 6)).toNat).map fun i => blk (off + dirHeaderSize + i)

structure Dir where
  blockSize : Nat
  /-- `i_size` -/
  size : Nat
  /-- the data of a file block; `none` if it is not mapped or not readable -/
  block : Nat → Option Buf

/-- `vfs.DirEntry`. -/
structure DirEntry where
  ino : Nat
  dType : Nat
  name : List (BitVec 8)
deriving DecidableEq, Repr

def dtDir : Nat := 4

def dtReg : Nat := 8

def dtLnk : Nat := 10

/-- The `d_type` of a file type. -/
def dType (fileType : Nat) : Nat :=
  if fileType = ftDir then dtDir
  else if fileType = ftRegFile then dtReg
  else if fileType = ftSymlink then dtLnk
  else dtReg

def DirRecord.entry (r : DirRecord) : DirEntry := ⟨r.ino, dType r.fileType, r.name⟩

/-- The loop of `ext2Readdir`: the entry, if there is one, and the new offset. A turn that goes on advances the offset, so
`size` turns suffice. -/
def readdirLoop (d : Dir) : Nat → Nat → Option DirEntry × Nat
  | 0, offset => (none, offset)
  | fuel + 1, offset =>
    if offset < d.size then
      match d.block (offset / d.blockSize % 2 ^ 32) with
      | none => (none, offset)
      | some blk =>
        let blockOffset := offset % d.blockSize
        if blockOffset + dirHeaderSize > d.blockSize then (none, offset)
        else
          let r := recordAt blk blockOffset
          if r.recLen < dirHeaderSize ∨ r.recLen > d.blockSize then (none, offset)
          else if r.ino = 0 then readdirLoop d fuel (offset + r.recLen)
          else (some r.entry, offset + r.recLen)
    else (none, offset)

def ext2Readdir (d : Dir) (offset : Nat) : Option DirEntry × Nat := readdirLoop d (d.size + 1) offset

/-! ## Well-formed directories -/

/-- The records `rs` tile the directory from a position on. Each lies in one block, and one in use has its name. -/
inductive Tiles (d : Dir) : Nat → List (Nat × DirRecord) → Prop
  | nil : Tiles d d.size []
  | cons {off : Nat} {blk : Buf} {rs : List (Nat × DirRecord)} (hoff : off < d.size)
      (hblk : d.block (off / d.blockSize) = some blk) (hlen : dirHeaderSize ≤ (recordAt blk (off % d.blockSize)).recLen)
      (hname : (recordAt blk (off % d.blockSize)).ino ≠ 0 →
        dirHeaderSize + (recordAt blk (off % d.blockSize)).name.length ≤ (recordAt blk (off % d.blockSize)).recLen)
      (hblock : off % d.blockSize + (recordAt blk (off % d.blockSize)).recLen ≤ d.blockSize)
      (hrest : Tiles d (off + (recordAt blk (off % d.blockSize)).recLen) rs) :
      Tiles d off ((off, recordAt blk (off % d.blockSize)) :: rs)

/-- A well-formed directory: its records, with their positions. `i_size` is a `u32`. -/
structure Listing (d : Dir) where
  records : List (Nat × DirRecord)
  tiles : Tiles d 0 records
  size_lt : d.size < 2 ^ 32

def liveEntries (rs : List (Nat × DirRecord)) : List DirEntry :=
  (rs.filter fun r => r.2.ino ≠ 0).map fun r => r.2.entry

def Listing.live {d : Dir} (w : Listing d) : List DirEntry := liveEntries w.records

section Readdir
variable {d : Dir} {off fuel : Nat} {rs : List (Nat × DirRecord)}

theorem Tiles.le (h : Tiles d off rs) : off ≤ d.size := by
  cases h with
  | nil => exact Nat.le_refl _
  | cons hoff => exact hoff.le

theorem readdirLoop_record (fuel : Nat) {r : Nat × DirRecord} (hsize : d.size < 2 ^ 32) (h : Tiles d off (r :: rs)) :
    readdirLoop d (fuel + 1) off =
        (if r.2.ino = 0 then readdirLoop d fuel (off + r.2.recLen) else (some r.2.entry, off + r.2.recLen)) ∧
      dirHeaderSize ≤ r.2.recLen ∧ Tiles d (off + r.2.recLen) rs := by
  cases h with
  | @cons _ blk _ hoff hblk hlen hname hblock hrest =>
    refine ⟨?_, hlen, hrest⟩
    have hindex : off / d.blockSize % 2 ^ 32 = off / d.blockSize :=
      Nat.mod_eq_of_lt (Nat.lt_of_le_of_lt (Nat.div_le_self _ _) (hoff.trans hsize))
    rw [readdirLoop, if_pos hoff, hindex, hblk]
    simp only
    rw [if_neg (by omega), if_neg (by omega)]

theorem readdirLoop_spec (hsize : d.size < 2 ^ 32) (h : Tiles d off rs) (hfuel : d.size - off < fuel) :
    (liveEntries rs = [] ∧ readdirLoop d fuel off = (none, d.size)) ∨
    ∃ e off' rs', readdirLoop d fuel off = (some e, off') ∧ off + dirHeaderSize ≤ off' ∧ Tiles d off' rs' ∧
      liveEntries rs = e :: liveEntries rs' := by
  induction rs generalizing off fuel with
  | nil =>
    cases h
    obtain ⟨fuel, rfl⟩ := Nat.exists_eq_add_of_lt hfuel
    refine .inl ⟨rfl, ?_⟩
    rw [readdirLoop, if_neg (Nat.lt_irrefl _)]
  | cons r rs ih =>
    obtain ⟨fuel, rfl⟩ : ∃ n, fuel = n + 1 := ⟨fuel - 1, by omega⟩
    obtain ⟨hstep, hlen, hrest⟩ := readdirLoop_record fuel hsize h
    have hle := hrest.le
    rw [hstep]
    by_cases hfree : r.2.ino = 0
    · have hlive : liveEntries (r :: rs) = liveEntries rs := by
        simp [liveEntries, hfree]
      rw [if_pos hfree, hlive]
      have hpos : 0 < dirHeaderSize := by decide
      obtain hend | ⟨e, off', rs', hrun, hoff, htiles, heq⟩ := ih hrest (show d.size - (off + r.2.recLen) < fuel by omega)
      · exact .inl hend
      · exact .inr ⟨e, off', rs', hrun, by omega, htiles, heq⟩
    · refine .inr ⟨r.2.entry, off + r.2.recLen, rs, if_neg hfree, by omega, hrest, ?_⟩
      simp [liveEntries, hfree]

theorem ext2Readdir_end (hsize : d.size < 2 ^ 32) (h : Tiles d off rs) (hlive : liveEntries rs = []) :
    ext2Readdir d off = (none, d.size) := by
  obtain ⟨-, hrun⟩ | ⟨e, off', rs', -, -, -, heq⟩ := readdirLoop_spec hsize h (show d.size - off < d.size + 1 by omega)
  · exact hrun
  · rw [hlive] at heq
    cases heq

theorem ext2Readdir_live {e : DirEntry} {es : List DirEntry} (hsize : d.size < 2 ^ 32) (h : Tiles d off rs)
    (hlive : liveEntries rs = e :: es) :
    ∃ off' rs', ext2Readdir d off = (some e, off') ∧ off < off' ∧ Tiles d off' rs' ∧ liveEntries rs' = es := by
  obtain ⟨hnil, -⟩ | ⟨e', off', rs', hrun, hoff, htiles, heq⟩ := readdirLoop_spec hsize h (show d.size - off < d.size + 1 by omega)
  · rw [hlive] at hnil
    cases hnil
  · rw [hlive] at heq
    cases heq
    exact ⟨off', rs', hrun, by unfold dirHeaderSize at hoff; omega, htiles, rfl⟩

end Readdir

end Zigix.Ext2
