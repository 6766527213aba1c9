import Zigix.Mm.Pmm
import Mathlib.Algebra.GroupWithZero.Nat
import Mathlib.Data.Fin.Basic

/-!
# Virtual memory areas (`kernel/mm/vma.zig`)

A process has a table of 1024 slots. A pointer to an area is the index of its slot; an inode pointer is a number.

* `findVma`, `findHeapVma` : first match in slot order;
* `addVma`, `addMmapVma`, `addMmapVmaHuge`, `addElfVma` : one placement, four records;
* `handleRangeRemoval`, `splitForProtect` : trimming and splitting.

A sum that does not fit in 64 bits stops the kernel: `none`.
-/

namespace Zigix

/-- The `VMA_*` bits. -/
structure Vma.Flags where
  read : Bool := false
  write : Bool := false
  exec : Bool := false
  user : Bool := false
  anon : Bool := false
  hugepage : Bool := false
  gigapage : Bool := false
  deriving DecidableEq

def Vma.pageSize4K : Nat := 4096

structure Vma where
  /-- inclusive -/
  start : Nat
  /-- `end`, exclusive -/
  stop : Nat
  flags : Vma.Flags
  inUse : Bool
  guardPages : Nat := 0
  pageSize : Nat := Vma.pageSize4K
  physBase : Nat := 0
  inode : Option Nat
  fileOffset : Nat
  fileSize : Nat
  deriving DecidableEq

namespace Vma

open Pmm (addU64)

def pageSize2M : Nat := 2 * 1024 * 1024

def pageSize1G : Nat := 1024 * 1024 * 1024

def maxVmas : Nat := 1024

instance : NeZero maxVmas := ⟨by decide⟩

abbrev VmaList := Fin maxVmas → Vma

def emptyVma : Vma :=
  { start := 0, stop := 0, flags := {}, inUse := false, inode := none, fileOffset := 0, fileSize := 0 }

def emptyVmaList : VmaList := fun _ => emptyVma

/-! ## Searching -/

def contains (v : Vma) (addr : Nat) : Bool := v.inUse && decide (v.start ≤ addr) && decide (addr < v.stop)

def findVma (list : VmaList) (addr : Nat) : Option (Fin maxVmas) := Fin.find? fun i => (list i).contains addr

/-- `findHeapVma` and the search of `removeVma`. -/
def findStart (list : VmaList) (start : Nat) : Option (Fin maxVmas) :=
  Fin.find? fun i => (list i).inUse && decide ((list i).start = start)

def findHeapVma : VmaList → Nat → Option (Fin maxVmas) := findStart

def firstFree (list : VmaList) : Option (Fin maxVmas) := Fin.find? fun i => !(list i).inUse

/-! ## Adding, removing, resizing -/

/-- The first free slot takes the area; `none` when there is no free slot. -/
def place (list : VmaList) (v : Vma) : Option VmaList := (firstFree list).map fun i => Function.update list i v

def addElfVma (list : VmaList) (start stop : Nat) (flags : Flags) (inode : Option Nat) (fileOffset fileSize : Nat) :
    Option VmaList := place list { start, stop, flags, inUse := true, inode, fileOffset, fileSize }

def addMmapVma (list : VmaList) (start stop : Nat) (flags : Flags) (inode : Option Nat) (fileOffset : Nat) :
    Option VmaList := addElfVma list start stop flags inode fileOffset 0

def addVma (list : VmaList) (start stop : Nat) (flags : Flags) : Option VmaList :=
  addMmapVma list start stop flags none 0

def addMmapVmaHuge (list : VmaList) (start stop : Nat) (flags : Flags) (physBase : Nat) : Option VmaList :=
  place list
    { start, stop, flags, inUse := true, pageSize := if flags.gigapage then pageSize1G else pageSize2M, physBase,
      inode := none, fileOffset := 0, fileSize := 0 }

def removeVma (list : VmaList) (start : Nat) : Bool × VmaList :=
  match findStart list start with
  | none => (false, list)
  | some i => (true, Function.update list i { list i with inUse := false })

/-- `extendVma` and `shrinkVma`. -/
def setStop (list : VmaList) (i : Fin maxVmas) (newEnd : Nat) : VmaList :=
  Function.update list i { list i with stop := newEnd }

/-! ## Pieces of an area -/

/-- The part `[start, cut)`. -/
def left (v : Vma) (cut : Nat) : Vma :=
  { v with
    stop := cut
    fileSize := if v.fileSize > cut - v.start then cut - v.start else v.fileSize }

/-- The offset in the file of address `at'` of the area. -/
def offsetAt (v : Vma) (at' : Nat) : Option Nat :=
  if v.inode.isSome then addU64 v.fileOffset (at' - v.start) else some 0

/-- The offset in the file when the area is cut to start at `at'`. -/
def shiftedOffset (v : Vma) (at' : Nat) : Option Nat :=
  if v.inode.isSome then addU64 v.fileOffset (at' - v.start) else some v.fileOffset

/-- The bytes of file data from address `at'` on. -/
def sizeFrom (v : Vma) (at' : Nat) : Nat :=
  if v.fileSize > at' - v.start then v.fileSize - (at' - v.start) else 0

/-- A new area `[start, stop)` cut out of `v`: guard pages and the backing page size are not carried over. -/
def piece (v : Vma) (start stop : Nat) (flags : Flags) (fileOffset fileSize : Nat) : Vma :=
  { start, stop, flags, inUse := true, inode := v.inode, fileOffset, fileSize }

/-! ## Removing a range -/

/-- One turn of `handleRangeRemoval`; the flag is false when a split finds no slot. -/
def removeFrom (rmStart rmEnd : Nat) (list : VmaList) (i : Fin maxVmas) : Option (Bool × VmaList) :=
  let v := list i
  if !v.inUse then some (true, list)
  else if v.stop ≤ rmStart ∨ v.start ≥ rmEnd then some (true, list)
  else if v.start ≥ rmStart ∧ v.stop ≤ rmEnd then
    some (true, Function.update list i { v with inUse := false })
  else if v.start < rmStart ∧ v.stop > rmEnd then do
    let list := Function.update list i (v.left rmStart)
    let right := v.piece rmEnd v.stop v.flags (← v.offsetAt rmEnd) (v.sizeFrom rmEnd)
    match place list right with
    | none => some (false, list)
    | some list => some (true, list)
  else if v.start < rmStart then some (true, Function.update list i (v.left rmStart))
  else do
    let fileOffset ← v.shiftedOffset rmEnd
    some (true, Function.update list i { v with start := rmEnd, fileOffset, fileSize := v.sizeFrom rmEnd })

def removeLoop (rmStart rmEnd : Nat) : List (Fin maxVmas) → VmaList → Option (Bool × VmaList)
  | [], list => some (true, list)
  | i :: is, list =>
    match removeFrom rmStart rmEnd list i with
    | none => none
    | some (true, list) => removeLoop rmStart rmEnd is list
    | some (false, list) => some (false, list)

def handleRangeRemoval (list : VmaList) (rmStart rmEnd : Nat) : Option (Bool × VmaList) :=
  removeLoop rmStart rmEnd (List.finRange maxVmas) list

def handleMapFixedOverlap (list : VmaList) (mapStart mapEnd : Nat) : Option (Bool × VmaList) :=
  handleRangeRemoval list mapStart mapEnd

/-! ## Changing the protection of a range -/

def twoFree (list : VmaList) : Option (Fin maxVmas × Fin maxVmas) := do
  let mid ← firstFree list
  let right ← Fin.find? fun j => !(list j).inUse && decide (j ≠ mid)
  return (mid, right)

/-- `false` when no area covers `protStart` or the free slots do not suffice; the area is then as it was. -/
def splitForProtect (list : VmaList) (protStart protEnd : Nat) (newFlags : Flags) : Option (Bool × VmaList) :=
  match findVma list protStart with
  | none => some (false, list)
  | some vi => do
    let v := list vi
    let clampedEnd := if protEnd > v.stop then v.stop else protEnd
    if protStart = v.start ∧ clampedEnd = v.stop then
      some (true, Function.update list vi { v with flags := newFlags })
    else if protStart = v.start then do
      let trimmed := Function.update list vi { v.left clampedEnd with flags := newFlags }
      let right := v.piece clampedEnd v.stop v.flags (← v.offsetAt clampedEnd) (v.sizeFrom clampedEnd)
      match place trimmed right with
      | none => some (false, list)
      | some list => some (true, list)
    else if clampedEnd = v.stop then do
      let trimmed := Function.update list vi (v.left protStart)
      let right := v.piece protStart v.stop newFlags (← v.offsetAt protStart) (v.sizeFrom protStart)
      match place trimmed right with
      | none => some (false, list)
      | some list => some (true, list)
    else do
      let trimmed := Function.update list vi (v.left protStart)
      let mid := v.piece protStart clampedEnd newFlags (← v.offsetAt protStart)
        (min (v.sizeFrom protStart) (clampedEnd - protStart))
      let right := v.piece clampedEnd v.stop v.flags (← v.offsetAt clampedEnd) (v.sizeFrom clampedEnd)
      match twoFree trimmed with
      | none => some (false, list)
      | some (midSlot, rightSlot) =>
        some (true, Function.update (Function.update trimmed midSlot mid) rightSlot right)

end Vma

end Zigix
