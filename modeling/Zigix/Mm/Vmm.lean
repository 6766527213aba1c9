import Zigix.Mm.Machine

/-!
# Four-level page tables (`kernel/mm/vmm.zig`)

PML4 → PDPT → PD → PT, 512 entries each. Tables are named by their frames; a pointer to an entry is a pair of a
table and an index. TLB maintenance has no counterpart: accesses go through the tables in memory.

* `mapPage`, `mapHugePage`, `mapGigaPage`, `unmapPage`, `unmapHugePage`, `unmapGigaPage`;
* `createAddressSpace`, `destroyUserPages`, `destroyAddressSpace`.
-/

namespace Zigix.Vmm

open Pte (Word)
open Pmm (pageSize)

def pml4Idx (virt : Nat) : Nat := virt / 2 ^ 39 % 512

def pdptIdx (virt : Nat) : Nat := virt / 2 ^ 30 % 512

def pdIdx (virt : Nat) : Nat := virt / 2 ^ 21 % 512

def ptIdx (virt : Nat) : Nat := virt / 2 ^ 12 % 512

/-- `MapFlags`. -/
structure MapFlags where
  writable : Bool := false
  user : Bool := false
  noExecute : Bool := false
  global : Bool := false
  writeThrough : Bool := false
  cacheDisable : Bool := false

def MapFlags.entry (flags : MapFlags) (hugePage : Bool) : Pte.Flags where
  present := true
  writable := flags.writable
  user := flags.user
  noExecute := flags.noExecute
  global := flags.global
  writeThrough := flags.writeThrough
  cacheDisable := flags.cacheDisable
  hugePage := hugePage

/-! ## Building tables -/

def newTable (m : Machine) : Option Nat × Machine :=
  match m.allocPage with
  | (none, m) => (none, m)
  | (some f, m) => (some f, (m.incRef f).zeroPage f)

/-- `ensureTable` on the entry `i` of table `t`; `none` is `error.OutOfMemory`. -/
def ensureTable (m : Machine) (t i : Nat) : Option Nat × Machine :=
  if Pte.isPresent (m.mem t i) then (some (Pte.frame (m.mem t i)), m)
  else
    match newTable m with
    | (none, m) => (none, m)
    | (some f, m) => (some f, m.setWord t i (Pte.table f))

/-- Run `k` on the table found or made, unless memory ran out. -/
def withTable (r : Option Nat × Machine) (k : Nat → Machine → Bool × Machine) : Bool × Machine :=
  match r with
  | (none, m) => (false, m)
  | (some t, m) => k t m

/-- `false` is `error.OutOfMemory`. -/
def mapPage (m : Machine) (pml4 : Nat) (virt : Nat) (frame : Nat) (flags : MapFlags) : Bool × Machine :=
  withTable (ensureTable m pml4 (pml4Idx virt)) fun pdpt m =>
  withTable (ensureTable m pdpt (pdptIdx virt)) fun pd m =>
  withTable (ensureTable m pd (pdIdx virt)) fun pt m =>
  (true, m.setWord pt (ptIdx virt) (Pte.make (flags.entry false) frame))

def mapHugePage (m : Machine) (pml4 : Nat) (virt : Nat) (frame : Nat) (flags : MapFlags) : Bool × Machine :=
  withTable (ensureTable m pml4 (pml4Idx virt)) fun pdpt m =>
  withTable (ensureTable m pdpt (pdptIdx virt)) fun pd m =>
  (true, m.setWord pd (pdIdx virt) (Pte.make (flags.entry true) frame))

def mapGigaPage (m : Machine) (pml4 : Nat) (virt : Nat) (frame : Nat) (flags : MapFlags) : Bool × Machine :=
  withTable (ensureTable m pml4 (pml4Idx virt)) fun pdpt m =>
  (true, m.setWord pdpt (pdptIdx virt) (Pte.make (flags.entry true) frame))

/-! ## Walking tables -/

/-- The table a present entry points to. -/
def follow (m : Machine) (t i : Nat) : Option Nat :=
  if Pte.isPresent (m.mem t i) then some (Pte.frame (m.mem t i)) else none

def unmapGigaPage (m : Machine) (pml4 : Nat) (virt : Nat) : Machine :=
  match follow m pml4 (pml4Idx virt) with
  | none => m
  | some pdpt => m.setWord pdpt (pdptIdx virt) 0

def unmapHugePage (m : Machine) (pml4 : Nat) (virt : Nat) : Machine :=
  match (follow m pml4 (pml4Idx virt)).bind fun pdpt => follow m pdpt (pdptIdx virt) with
  | none => m
  | some pd => m.setWord pd (pdIdx virt) 0

def unmapPage (m : Machine) (pml4 : Nat) (virt : Nat) : Machine :=
  match (follow m pml4 (pml4Idx virt)).bind fun pdpt => (follow m pdpt (pdptIdx virt)).bind fun pd =>
      follow m pd (pdIdx virt) with
  | none => m
  | some pt => m.setWord pt (ptIdx virt) 0

/-- The physical address mapped at `virt`. -/
def translate (m : Machine) (pml4 : Nat) (virt : Nat) : Option Nat := do
  let pdpt ← follow m pml4 (pml4Idx virt)
  let pd ← follow m pdpt (pdptIdx virt)
  if Pte.isHuge (m.mem pdpt (pdptIdx virt)) then return pd * pageSize + virt % 2 ^ 30
  let pt ← follow m pd (pdIdx virt)
  if Pte.isHuge (m.mem pd (pdIdx virt)) then return pt * pageSize + virt % 2 ^ 21
  let page ← follow m pt (ptIdx virt)
  return page * pageSize + virt % 2 ^ 12

/-- The table and index of the present leaf entry of `virt`; no leaf below a huge entry. -/
def getPTE (m : Machine) (pml4 : Nat) (virt : Nat) : Option (Nat × Nat) := do
  let pdpt ← follow m pml4 (pml4Idx virt)
  let pd ← follow m pdpt (pdptIdx virt)
  if Pte.isHuge (m.mem pdpt (pdptIdx virt)) then none
  let pt ← follow m pd (pdIdx virt)
  if Pte.isHuge (m.mem pd (pdIdx virt)) then none
  let _ ← follow m pt (ptIdx virt)
  return (pt, ptIdx virt)

/-! ## Address spaces -/

/-- The user half is cleared, the kernel half shared with `kernelPml4`; `none` is `error.OutOfMemory`. -/
def createAddressSpace (m : Machine) (kernelPml4 : Nat) : Option Nat × Machine :=
  match m.allocPage with
  | (none, m) => (none, m)
  | (some f, m) =>
    let m := m.incRef f
    (some f, m.setPage f fun i => if i < 256 then 0 else if i < 512 then m.mem kernelPml4 i else m.mem f i)

/-- `phys == 0 or phys >= max_phys`: a corrupted entry. -/
def badFrame (m : Machine) (f : Nat) : Bool := f == 0 || decide (m.pmm.highestPhys ≤ f * pageSize)

/-- One leaf in `destroyUserPages`: copy-on-write pages go through `decRef`, the others through `freePage`. -/
def destroyLeaf (pt : Nat) (m : Machine) (i : Nat) : Machine :=
  let e := m.mem pt i
  if !Pte.isPresent e then m
  else if badFrame m (Pte.frame e) then m.setWord pt i 0
  else (if Pte.isCow e then m.decRef (Pte.frame e) else m.freePage (Pte.frame e)).setWord pt i 0

def destroyPt (m : Machine) (pt : Nat) : Machine := (List.range 512).foldl (destroyLeaf pt) m

def releaseTable (m : Machine) (t : Nat) : Machine :=
  if 0 < m.getRef t then
    let m := m.freePage t
    if 0 < m.getRef t then m.freePage t else m
  else m

/-- `pmm.freeHugePage`: a frame number has 40 bits, so the addresses cannot overflow. -/
def freeHugePage (m : Machine) (f : Nat) : Machine :=
  (List.range 512).foldl (fun m i => m.freePage (f + i)) m

/-- What a loop of `destroyUserPages` does with a huge entry `i` of `t`. -/
inductive HugeRule
  /-- the PML4 loop does not look at the bit -/
  | ignore
  /-- the PDPT loop skips 1 GiB pages -/
  | skip
  /-- the PD loop frees 2 MiB pages -/
  | free

/-- One entry of a table above the last level in `destroyUserPages`. -/
def destroyEntry (rule : HugeRule) (sub : Machine → Nat → Machine) (t : Nat) (m : Machine) (i : Nat) : Machine :=
  let e := m.mem t i
  if !Pte.isPresent e then m
  else
    match rule, Pte.isHuge e with
    | .skip, true => m
    | .free, true => (if badFrame m (Pte.frame e) then m else freeHugePage m (Pte.frame e)).setWord t i 0
    | _, _ =>
      if badFrame m (Pte.frame e) then m.setWord t i 0
      else (releaseTable (sub m (Pte.frame e)) (Pte.frame e)).setWord t i 0

def destroyTable (entries : Nat) (rule : HugeRule) (sub : Machine → Nat → Machine) (m : Machine) (t : Nat) :
    Machine := (List.range entries).foldl (destroyEntry rule sub t) m

def destroyPd : Machine → Nat → Machine := destroyTable 512 .free destroyPt

def destroyPdpt : Machine → Nat → Machine := destroyTable 512 .skip destroyPd

/-- The user half of a PML4. -/
def destroyUserPages : Machine → Nat → Machine := destroyTable 256 .ignore destroyPdpt

def destroyAddressSpace (m : Machine) (pml4 : Nat) : Machine := releaseTable (destroyUserPages m pml4) pml4

end Zigix.Vmm
