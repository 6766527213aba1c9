import Zigix.Fs.FileRead
import Zigix.Mm.Cow
import Zigix.Proc.Process

/-!
# Page faults (`kernel/mm/fault.zig`)

* `resolve` : the decision tree of the handler; `demandPageUser` : the entry the system calls use.

The swap-in branch of `resolve` cannot be taken and has no counterpart: it asks for an absent entry, and `getPTE`
only returns present ones. `none` is a kernel panic.
-/

namespace Zigix.Fault

open Vma Vmm Ext2
open Pmm (addU64 subU64)

structure FileSystem where
  disk : Disk
  inode : Nat → Inode

/-- `PageFaultError`. -/
structure ErrorCode where
  present : Bool
  write : Bool
  user : Bool
  reservedWrite : Bool := false

def mapFlags (v : Vma) : MapFlags :=
  { writable := v.flags.write, user := v.flags.user, noExecute := !v.flags.exec }

/-- The page at offset `pageOffset` straddles the end of the file data. -/
def isBssBoundary (v : Vma) (pageOffset : Nat) : Bool :=
  decide (0 < v.fileSize) && decide (v.fileSize < pageOffset + Pmm.pageSize) && decide (pageOffset < v.fileSize)

def pageIndex (filePos : Nat) : Nat := filePos / Pmm.pageSize % 2 ^ 32

def readLen (v : Vma) (pageOffset : Nat) : Nat :=
  if 0 < v.fileSize then min (v.fileSize - pageOffset) Pmm.pageSize else Pmm.pageSize

/-- Fill frame `f` from the file: from the page cache, or by a read that is then cached. -/
def fillFromFile (fs : FileSystem) (v : Vma) (inode : Inode) (pageOffset filePos f : Nat) (m : Machine) :
    Bool × Machine :=
  let ino := inode.ino % 2 ^ 32
  match if isBssBoundary v pageOffset then (none, m) else m.lookup ino (pageIndex filePos) with
  | (some cached, m) => (true, m.copyPage f cached)
  | (none, m) =>
    if !inode.hasRead then (false, m.freePage f)
    else
      let (bytes, m) := ext2Read fs.disk inode filePos (readLen v pageOffset) m
      let m := storeBytes m f 0 bytes
      (true, if isBssBoundary v pageOffset then m else m.insert ino (pageIndex filePos) f)

/-- Fill the zeroed frame `f` for a page of area `v`. -/
def fillPage (fs : FileSystem) (v : Vma) (faultPage f : Nat) (m : Machine) : Option (Bool × Machine) :=
  match v.inode with
  | none => some (true, m)
  | some ptr => do
    let pageOffset ← subU64 faultPage v.start
    if 0 < v.fileSize ∧ v.fileSize ≤ pageOffset then some (true, m)
    else
      let filePos ← addU64 v.fileOffset pageOffset
      some (fillFromFile fs v (fs.inode ptr) pageOffset filePos f m)

/-- Map a fresh page at `faultPage`, unless there is one already. -/
def handleDemandPage (fs : FileSystem) (pml4 : Nat) (v : Vma) (faultPage : Nat) (m : Machine) :
    Option (Bool × Machine) :=
  if (translate m pml4 faultPage).isSome then some (true, m)
  else
    match m.allocPage with
    | (none, m) => some (false, m)
    | (some f, m) => do
      match ← fillPage fs v faultPage f (m.zeroPage f) with
      | (false, m) => some (false, m)
      | (true, m) =>
        match mapPage m pml4 faultPage f (mapFlags v) with
        | (false, m) => some (false, m.freePage f)
        | (true, m) => some (true, m)

def inGuard (v : Vma) (addr : Nat) : Option Bool :=
  if 0 < v.guardPages then (addU64 v.start (v.guardPages * Pmm.pageSize)).map fun limit => decide (addr < limit)
  else some false

/-- Try to resolve a page fault of process `p` at `cr2`. -/
def resolve (fs : FileSystem) (p : Process) (cr2 : Nat) (err : ErrorCode) (m : Machine) : Option (Bool × Machine) :=
  if !err.user then some (false, m)
  else if err.reservedWrite then some (false, m)
  else
    match findVma p.vmas cr2 with
    | none => some (false, m)
    | some i => do
      if ← inGuard (p.vmas i) cr2 then some (false, m)
      else if !err.present then handleDemandPage fs p.pageTable (p.vmas i) (pageBase cr2) m
      else if err.write then some (handleCow p.pageTable (pageBase cr2) m)
      else some (false, m)

def demandPageUser (fs : FileSystem) (p : Process) (addr : Nat) (m : Machine) : Option (Bool × Machine) :=
  match findVma p.vmas addr with
  | none => some (false, m)
  | some i => do
    if ← inGuard (p.vmas i) addr then some (false, m)
    else handleDemandPage fs p.pageTable (p.vmas i) (pageBase addr) m

/-- The fault that a user access at `virt` raises: an absent page, or a store to a read-only one. -/
def userFault (p : Process) (virt : Nat) (write : Bool) (m : Machine) : Option ErrorCode :=
  match getPTE m p.pageTable virt with
  | none => some { present := false, write, user := true }
  | some (pt, i) =>
    if write && !Pte.isWritable (m.mem pt i) then some { present := true, write, user := true } else none

end Zigix.Fault
