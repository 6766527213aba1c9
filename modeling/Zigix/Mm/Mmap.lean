import Zigix.Lib.Loop
import Zigix.Proc.Process

/-!
# Memory mapping system calls (`kernel/mm/mmap.zig`, `sysBrk` of `kernel/proc/memory.zig`)

A call returns an error or a value together with the new state; `none` is a kernel panic, from a sum or difference
that does not fit in 64 bits.

* `sysMmap` : anonymous, huge and file-backed mappings;
* `sysMunmap`, `sysMprotect`, `sysMremap`, `sysBrk`.
-/

namespace Zigix.Mmap

open Pmm (pageSize addU64 subU64 mulU64)
open Vma hiding pageSize
open Vmm

/-- The outcome of a system call. -/
abbrev Result := Option (Except Errno Nat × Sys)

def fail (e : Errno) (s : Sys) : Result := some (.error e, s)

/-! ## Flags and alignment -/

/-- `PROT_WRITE`. -/
def protWrite (prot : Nat) : Bool := prot.testBit 1

/-- `PROT_EXEC`. -/
def protExec (prot : Nat) : Bool := prot.testBit 2

/-- `MAP_FIXED`. -/
def mapFixed (flags : Nat) : Bool := flags.testBit 4

/-- `MAP_ANONYMOUS`. -/
def mapAnonymous (flags : Nat) : Bool := flags.testBit 5

/-- `MAP_HUGETLB`. -/
def mapHugetlb (flags : Nat) : Bool := flags.testBit 18

/-- `flags & MAP_HUGE_MASK == MAP_HUGE_1GB`. -/
def useGiga (flags : Nat) : Bool := flags / 2 ^ 26 % 64 == 30

def hugeSize (flags : Nat) : Nat := if useGiga flags then pageSize1G else pageSize2M

/-- `n & ~(size - 1)` for a power of two. -/
def alignDown (size n : Nat) : Nat := n / size * size

/-- `(len + size - 1) & ~(size - 1)`. -/
def alignUp (size len : Nat) : Option Nat := (addU64 len size).map fun n => alignDown size (n - 1)

def protToVmaFlags (prot : Nat) : Flags :=
  { user := true, read := prot.testBit 0, write := protWrite prot, exec := protExec prot }

/-- `allocMmapRegion`, and the same steps for huge pages: lower the hint and align it. -/
def allocMmapRegion (size : Nat) (p : Process) (len : Nat) : Option (Nat × Process) :=
  (subU64 p.mmapHint len).map fun h => (alignDown size h, { p with mmapHint := alignDown size h })

/-! ## Pages of a range -/

/-- The page addresses from `start` up to `stop`. -/
def pagesOf (start stop : Nat) : List Nat :=
  (List.range ((stop - start + (pageSize - 1)) / pageSize)).map fun k => start + k * pageSize

/-- Unmap and free the page at `page`, if there is one. -/
def dropPage (pml4 : Nat) (m : Machine) (page : Nat) : Machine :=
  match translate m pml4 page with
  | none => m
  | some phys => (unmapPage m pml4 page).freePage (phys / pageSize)

def dropPages (m : Machine) (pml4 start stop : Nat) : Machine := (pagesOf start stop).foldl (dropPage pml4) m

/-! ## mmap -/

structure MmapArgs where
  addr : Nat
  length : Nat
  prot : Nat
  flags : Nat
  fd : Nat
  offset : Nat

/-- Physical memory for a huge mapping: one 1 GiB page, or `count` contiguous 2 MiB pages. -/
def allocHuge (giga : Bool) (count : Nat) (pmm : Pmm.State) : Option (Option Pmm.PhysAddr × Pmm.State) :=
  if giga then some (Pmm.allocGigaPage pmm) else Pmm.allocHugePages pmm count

/-- Map pages `is` of a huge mapping; `some i` is the page at which memory ran out. -/
def mapHugeRun (giga : Bool) (pageSz pml4 base phys : Nat) (flags : MapFlags) :
    List Nat → Machine → Option (Option Nat × Machine)
  | [], m => some (none, m)
  | i :: is, m => do
    let virt ← addU64 base (← mulU64 i pageSz)
    let physI ← addU64 phys (← mulU64 i pageSz)
    match if giga then mapGigaPage m pml4 virt (physI / pageSize) flags
        else mapHugePage m pml4 virt (physI / pageSize) flags with
    | (true, m) => mapHugeRun giga pageSz pml4 base phys flags is m
    | (false, m) => some (some i, m)

/-- Undo the first `n` pages of a huge mapping and give back (the first page of) its memory. -/
def undoHuge (giga : Bool) (pageSz pml4 base phys n : Nat) (m : Machine) : Option Machine :=
  let m := (List.range n).foldl (fun m j =>
    if giga then unmapGigaPage m pml4 (base + j * pageSz) else unmapHugePage m pml4 (base + j * pageSz)) m
  (if giga then Pmm.freeGigaPage m.pmm phys else Pmm.freeHugePage m.pmm phys).map fun pmm => { m with pmm }

def mmapHugeAt (a : MmapArgs) (len base : Nat) (s : Sys) : Result := do
  let giga := useGiga a.flags
  let pageSz := hugeSize a.flags
  let pml4 := s.proc.pageTable
  let (phys, pmm) ← allocHuge giga (len / pageSz) s.machine.pmm
  let s := { s with machine.pmm := pmm }
  match phys with
  | none => fail .ENOMEM s
  | some phys => do
    let mapFlags : MapFlags := { writable := protWrite a.prot, user := true, noExecute := !protExec a.prot }
    match ← mapHugeRun giga pageSz pml4 base phys mapFlags (List.range (len / pageSz)) s.machine with
    | (some i, m) => fail .ENOMEM { s with machine := ← undoHuge giga pageSz pml4 base phys i m }
    | (none, m) => do
      let flags := { protToVmaFlags a.prot with anon := true, gigapage := giga, hugepage := !giga }
      match addMmapVmaHuge s.proc.vmas base (← addU64 base len) flags phys with
      | none => fail .ENOMEM { s with machine := ← undoHuge giga pageSz pml4 base phys (len / pageSz) m }
      | some vmas => some (.ok base, { machine := m, proc := { s.proc with vmas } })

/-- `MAP_ANONYMOUS | MAP_HUGETLB`: no area is removed, also for `MAP_FIXED`. -/
def mmapHuge (a : MmapArgs) (s : Sys) : Result := do
  let len ← alignUp (hugeSize a.flags) a.length
  if mapFixed a.flags then
    if a.addr % hugeSize a.flags ≠ 0 then fail .EINVAL s else mmapHugeAt a len a.addr s
  else do
    let (base, proc) ← allocMmapRegion (hugeSize a.flags) s.proc len
    mmapHugeAt a len base { s with proc }

/-- Record the area of a mapping with small pages. -/
def mmapAt (base len : Nat) (flags : Flags) (inode : Option Nat) (offset : Nat) (s : Sys) : Result := do
  match addMmapVma s.proc.vmas base (← addU64 base len) flags inode offset with
  | none => fail .ENOMEM s
  | some vmas => some (.ok base, { s with proc.vmas := vmas })

/-- A mapping with small pages: `MAP_FIXED` first removes what overlaps. -/
def mmapSmall (a : MmapArgs) (len : Nat) (flags : Flags) (inode : Option Nat) (offset : Nat) (s : Sys) : Result :=
  if mapFixed a.flags then
    if a.addr % pageSize ≠ 0 then fail .EINVAL s
    else do
      let (_, vmas) ← handleMapFixedOverlap s.proc.vmas a.addr (← addU64 a.addr len)
      mmapAt a.addr len flags inode offset { s with proc.vmas := vmas }
  else do
    let (base, proc) ← allocMmapRegion pageSize s.proc len
    mmapAt base len flags inode offset { s with proc }

def sysMmap (a : MmapArgs) (s : Sys) : Result :=
  if a.length = 0 then fail .EINVAL s
  else do
    let len ← alignUp pageSize a.length
    if protWrite a.prot && protExec a.prot then fail .EINVAL s
    else if mapAnonymous a.flags then
      if mapHugetlb a.flags then mmapHuge a s
      else mmapSmall a len { protToVmaFlags a.prot with anon := true } none 0 s
    else if 2 ^ 63 ≤ a.fd then fail .EBADF s
    else
      match s.proc.fdGet a.fd with
      | none => fail .EBADF s
      | some inode => mmapSmall a len (protToVmaFlags a.prot) (some inode) a.offset s

/-! ## munmap, mprotect -/

def sysMunmap (addr length : Nat) (s : Sys) : Result :=
  if addr % pageSize ≠ 0 ∨ length = 0 then fail .EINVAL s
  else do
    let unmapEnd ← addU64 addr (← alignUp pageSize length)
    let machine := dropPages s.machine s.proc.pageTable addr unmapEnd
    let (_, vmas) ← handleRangeRemoval s.proc.vmas addr unmapEnd
    some (.ok 0, { machine, proc := { s.proc with vmas } })

/-- The raw update of `sysMprotect`: the writable, no-execute and user bits. -/
def protectEntry (w : Pte.Word) (writable noExecute user : Bool) : Pte.Word :=
  let w := if writable then w ||| 2#64 else w &&& ~~~(2#64)
  let w := if noExecute then w ||| (1#64 <<< 63) else w &&& ~~~(1#64 <<< 63)
  if user then w ||| 4#64 else w &&& ~~~(4#64)

def protectPage (pml4 : Nat) (writable noExecute user : Bool) (m : Machine) (page : Nat) : Machine :=
  match getPTE m pml4 page with
  | none => m
  | some (pt, i) => m.setWord pt i (protectEntry (m.mem pt i) writable noExecute user)

/-- The areas are split before write and execute are rejected together. -/
def sysMprotect (addr length prot : Nat) (s : Sys) : Result :=
  if addr % pageSize ≠ 0 ∨ length = 0 then fail .EINVAL s
  else do
    let protEnd ← addU64 addr (← alignUp pageSize length)
    match findVma s.proc.vmas addr with
    | none => fail .ENOMEM s
    | some vi => do
      let newFlags := { protToVmaFlags prot with anon := (s.proc.vmas vi).inode.isNone }
      let (done, vmas) ← splitForProtect s.proc.vmas addr protEnd newFlags
      let s := { s with proc.vmas := vmas }
      if !done then fail .ENOMEM s
      else if protWrite prot && protExec prot then fail .EINVAL s
      else
        let protect := protectPage s.proc.pageTable (protWrite prot) (!protExec prot) newFlags.user
        some (.ok 0, { s with machine := (pagesOf addr protEnd).foldl protect s.machine })

/-! ## mremap -/

/-- Nothing but the area itself (same start and end) meets `[from, newEnd)`. -/
def canGrow (list : VmaList) (v : Vma) (from' newEnd : Nat) : Bool :=
  (List.finRange maxVmas).all fun i =>
    !(list i).inUse || (decide ((list i).start = v.start) && decide ((list i).stop = v.stop)) ||
      !(decide ((list i).start < newEnd) && decide (from' < (list i).stop))

def movePage (pml4 oldAddr newAddr : Nat) (flags : MapFlags) (page : Nat) (m : Machine) : Bool × Machine :=
  match translate m pml4 (oldAddr + page * pageSize) with
  | none => (true, m)
  | some oldPhys =>
    match m.allocPage with
    | (none, m) => (false, m)
    | (some f, m) =>
      match mapPage (m.copyPage f (oldPhys / pageSize)) pml4 (newAddr + page * pageSize) f flags with
      | (false, m) => (false, m.freePage f)
      | (true, m) => (true, (unmapPage m pml4 (oldAddr + page * pageSize)).freePage (oldPhys / pageSize))

def sysMremap (oldAddr oldSize newSize flags : Nat) (s : Sys) : Result :=
  if oldAddr % pageSize ≠ 0 ∨ oldSize = 0 ∨ newSize = 0 then fail .EINVAL s
  else do
    let alignedOld ← alignUp pageSize oldSize
    let alignedNew ← alignUp pageSize newSize
    let pml4 := s.proc.pageTable
    match findVma s.proc.vmas oldAddr with
    | none => fail .EFAULT s
    | some vi =>
      let v := s.proc.vmas vi
      if alignedNew ≤ alignedOld then do
        let newEnd ← addU64 oldAddr alignedNew
        let machine := dropPages s.machine pml4 newEnd (← addU64 oldAddr alignedOld)
        some (.ok oldAddr, { machine, proc := { s.proc with vmas := setStop s.proc.vmas vi newEnd } })
      else do
        let newEnd ← addU64 oldAddr alignedNew
        if canGrow s.proc.vmas v (oldAddr + alignedOld) newEnd then
          some (.ok oldAddr, { s with proc.vmas := setStop s.proc.vmas vi newEnd })
        else if !flags.testBit 0 then fail .ENOMEM s
        else do
          let (newAddr, proc) ← allocMmapRegion pageSize s.proc alignedNew
          match addMmapVma proc.vmas newAddr (← addU64 newAddr alignedNew) v.flags v.inode v.fileOffset with
          | none => fail .ENOMEM { s with proc }
          | some vmas =>
            let mapFlags : MapFlags :=
              { writable := v.flags.write, user := v.flags.user, noExecute := !v.flags.exec }
            let machine := (Loop.loop (movePage pml4 oldAddr newAddr mapFlags) (List.range (alignedOld / pageSize))
              s.machine).2
            some (.ok newAddr, { machine, proc := { proc with vmas := (removeVma vmas oldAddr).2 } })

/-! ## brk -/

def maxHeap : Nat := 1024 * 1024 * 1024

def heapFlags : Flags := { read := true, write := true, user := true }

def heapVma (p : Process) : Option (Fin maxVmas) :=
  if p.heapCurrent > p.heapStart then
    (findVma p.vmas (p.heapCurrent - 1)).filter fun i =>
      (p.vmas i).inode.isNone && (p.vmas i).flags.read && (p.vmas i).flags.write && (p.vmas i).flags.user
  else
    (findHeapVma p.vmas p.heapStart).filter fun i => (p.vmas i).inode.isNone

def expandHeap (p : Process) (newBreak : Nat) : VmaList :=
  match heapVma p with
  | some i => setStop p.vmas i newBreak
  | none => (addVma p.vmas (max p.heapCurrent p.heapStart) newBreak heapFlags).getD p.vmas

def shrinkHeap (p : Process) (newBreak : Nat) : VmaList :=
  if newBreak > p.heapStart then
    match findVma p.vmas (newBreak - 1) with
    | some i => setStop p.vmas i newBreak
    | none => p.vmas
  else p.vmas

def sysBrk (requested : Nat) (s : Sys) : Result :=
  if requested = 0 then some (.ok s.proc.heapCurrent, s)
  else do
    let newBreak ← alignUp pageSize requested
    if newBreak < s.proc.heapStart then some (.ok s.proc.heapCurrent, s)
    else if newBreak - s.proc.heapStart > maxHeap then some (.ok s.proc.heapCurrent, s)
    else if newBreak > s.proc.heapCurrent then
      let vmas := expandHeap s.proc newBreak
      some (.ok newBreak, { s with proc := { s.proc with vmas, heapCurrent := newBreak } })
    else if newBreak < s.proc.heapCurrent then
      let machine := dropPages s.machine s.proc.pageTable newBreak s.proc.heapCurrent
      let vmas := shrinkHeap s.proc newBreak
      some (.ok newBreak, { machine, proc := { s.proc with vmas, heapCurrent := newBreak } })
    else some (.ok s.proc.heapCurrent, s)

/-! ## Any call -/

inductive Call
  | mmap (a : MmapArgs)
  | munmap (addr length : Nat)
  | mprotect (addr length prot : Nat)
  | mremap (oldAddr oldSize newSize flags : Nat)
  | brk (requested : Nat)

def syscall : Call → Sys → Result
  | .mmap a => sysMmap a
  | .munmap addr length => sysMunmap addr length
  | .mprotect addr length prot => sysMprotect addr length prot
  | .mremap oldAddr oldSize newSize flags => sysMremap oldAddr oldSize newSize flags
  | .brk requested => sysBrk requested

end Zigix.Mmap
