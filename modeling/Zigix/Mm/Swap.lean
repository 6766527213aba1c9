import Zigix.Lib.Loop
import Zigix.Proc.System

/-!
# Swapping (`kernel/mm/swap.zig`, `kernel/mm/fault.zig`)

A page that was evicted is in a slot of the swap file; its entry is absent and names the slot.

* `allocSwapSlot`, `freeSwapSlot`, `writeSwapPage`, `readSwapPage` : slots;
* `swapIn`, `resolve` : the page fault handler with its branch for evicted pages.

The processes of a `System` are those that are no zombies. The swap file is modelled by what is stored in its slots and
by which slots can be written and read.
-/

namespace Zigix.Swap

open Pte Vmm Fault

def maxSwapSlots : Nat := 4096

def maxProcesses : Nat := 256

structure SwapFile where
  pages : Nat → Nat → Word
  writable : Nat → Bool
  readable : Nat → Bool

structure State where
  active : Bool
  /-- the bitmap -/
  free : Nat → Bool
  used : Nat
  file : SwapFile
  clockHand : Nat

structure Swapping where
  system : System
  swap : State

namespace Swapping

def machine (s : Swapping) : Machine := s.system.machine

def withMachine (s : Swapping) (m : Machine) : Swapping := { s with system := { s.system with machine := m } }

end Swapping

/-! ## Entries of evicted pages -/

/-- `pte.* = .{}`, `os_bits = 2`, `phys_frame = slot`. -/
def swapPte (slot : Nat) : Word := Pte.make { osBits := 2 } slot

def isSwapPte (w : Word) : Bool := !isPresent w && w.getLsbD 10

def getSwapSlot (w : Word) : Nat := frame w % 2 ^ 32

def isAccessed (w : Word) : Bool := w.getLsbD 5

def clearAccessed (w : Word) : Word := w &&& ~~~(1#64 <<< 5)

/-! ## Slots -/

def allocSwapSlot (s : State) : Option Nat × State :=
  match (List.range' 1 (maxSwapSlots - 1)).find? s.free with
  | none => (none, s)
  | some i => (some i, { s with free := Function.update s.free i false, used := s.used + 1 })

def freeSwapSlot (slot : Nat) (s : State) : State :=
  if slot = 0 ∨ maxSwapSlots ≤ slot then s
  else { s with free := Function.update s.free slot true, used := s.used - 1 }

def writeSwapPage (slot : Nat) (page : Nat → Word) (s : State) : Bool × State :=
  if s.file.writable slot then
    (true, { s with file := { s.file with pages := Function.update s.file.pages slot page } })
  else (false, s)

def readSwapPage (slot : Nat) (s : State) : Option (Nat → Word) :=
  if s.file.readable slot then some (s.file.pages slot) else none

/-! ## Eviction -/

/-- One entry of a page table; a result ends the sweep. -/
def evictEntry (pt i : Nat) (s : Swapping) : Option Bool × Swapping :=
  let e := s.machine.mem pt i
  if !isPresent e then (none, s)
  else if isAccessed e then (none, s.withMachine (s.machine.setWord pt i (clearAccessed e)))
  else if frame e = 0 then (none, s)
  else if 1 < s.machine.getRef (frame e) then (none, s)
  else
    match allocSwapSlot s.swap with
    | (none, swap) => (some false, { s with swap })
    | (some slot, swap) =>
      match writeSwapPage slot (s.machine.mem (frame e)) swap with
      | (false, swap) => (some false, { s with swap := freeSwapSlot slot swap })
      | (true, swap) =>
        (some true, { s with swap }.withMachine ((s.machine.setWord pt i (swapPte slot)).freePage (frame e)))

def evictPt (pt : Nat) : Swapping → Option Bool × Swapping := Loop.search (evictEntry pt) (List.range 512)

def evictPdEntry (pd i : Nat) (s : Swapping) : Option Bool × Swapping :=
  let e := s.machine.mem pd i
  if !isPresent e || isHuge e || frame e == 0 then (none, s) else evictPt (frame e) s

def evictPd (pd : Nat) : Swapping → Option Bool × Swapping := Loop.search (evictPdEntry pd) (List.range 512)

/-- The loop over a PDPT is left after the first directory, with a result or without one. -/
def evictPdptEntry (pdpt i : Nat) (s : Swapping) : Option (Option Bool) × Swapping :=
  let e := s.machine.mem pdpt i
  if !isPresent e || frame e == 0 then (none, s)
  else
    let (r, s) := evictPd (frame e) s
    (some r, s)

def evictPdpt (pdpt : Nat) (s : Swapping) : Option Bool × Swapping :=
  let (r, s) := Loop.search (evictPdptEntry pdpt) (List.range 512) s
  (r.join, s)

def evictAt (current : Option Nat) (procIdx pml4Idx : Nat) (s : Swapping) : Option Bool × Swapping :=
  match s.system.procs procIdx with
  | none => (none, s)
  | some p =>
    if current = some procIdx ∨ 256 ≤ pml4Idx then (none, s)
    else
      match follow s.machine p.pageTable pml4Idx with
      | none => (none, s)
      | some pdpt => if pdpt = 0 then (none, s) else evictPdpt pdpt s

def evictLoop (current : Option Nat) : Nat → Swapping → Bool × Swapping
  | 0, s => (false, s)
  | attempts + 1, s =>
    let hand := s.swap.clockHand
    let s := { s with swap := { s.swap with clockHand := (hand + 1) % (maxProcesses * 512) } }
    match evictAt current (hand / 512) (hand % 512) s with
    | (none, s) => evictLoop current attempts s
    | (some r, s) => (r, s)

def evictOnePage (current : Option Nat) (s : Swapping) : Bool × Swapping :=
  if !s.swap.active then (false, s) else evictLoop current (2 * maxProcesses * 512) s

/-! ## Page faults -/

def swapIn (pt i : Nat) (writable user noExecute : Bool) (s : Swapping) : Bool × Swapping :=
  let slot := getSwapSlot (s.machine.mem pt i)
  if slot = 0 ∨ maxSwapSlots ≤ slot then (false, s)
  else
    match s.machine.allocPage with
    | (none, m) => (false, s.withMachine m)
    | (some f, m) =>
      match readSwapPage slot s.swap with
      | none => (false, s.withMachine (m.freePage f))
      | some page =>
        let m := (m.setPage f page).setWord pt i (Pte.make { present := true, writable, user, noExecute } f)
        (true, { s with swap := freeSwapSlot slot s.swap }.withMachine m)

/-- An absent page of area `v`: an evicted one is swapped in, another one is demand-paged. -/
def resolveAbsent (fs : FileSystem) (p : Process) (v : Vma) (faultPage : Nat) (s : Swapping) :
    Option (Bool × Swapping) :=
  let demand := (handleDemandPage fs p.pageTable v faultPage s.machine).map fun (ok, m) => (ok, s.withMachine m)
  if s.swap.active then
    match getPTE s.machine p.pageTable faultPage with
    | none => demand
    | some (pt, i) =>
      if isSwapPte (s.machine.mem pt i) then some (swapIn pt i v.flags.write v.flags.user (!v.flags.exec) s)
      else demand
  else demand

/-- `resolve`, with the swap branch. -/
def resolve (fs : FileSystem) (p : Process) (cr2 : Nat) (err : ErrorCode) (s : Swapping) : Option (Bool × Swapping) :=
  if !err.user then some (false, s)
  else if err.reservedWrite then some (false, s)
  else
    match Vma.findVma p.vmas cr2 with
    | none => some (false, s)
    | some i => do
      if ← inGuard (p.vmas i) cr2 then some (false, s)
      else if !err.present then resolveAbsent fs p (p.vmas i) (pageBase cr2) s
      else if err.write then
        let (ok, m) := handleCow p.pageTable (pageBase cr2) s.machine
        some (ok, s.withMachine m)
      else some (false, s)

/-! ## References to slots -/

/-- The slot that the leaf entry of `virt` refers to. -/
def swapSlotAt (m : Machine) (pml4 virt : Nat) : Option Nat := do
  let pdpt ← follow m pml4 (pml4Idx virt)
  let pd ← follow m pdpt (pdptIdx virt)
  let pt ← follow m pd (pdIdx virt)
  if isSwapPte (m.mem pt (ptIdx virt)) then some (getSwapSlot (m.mem pt (ptIdx virt))) else none

def Swapping.Refers (s : Swapping) (slot : Nat) : Prop :=
  ∃ pid p virt, s.system.procs pid = some p ∧ virt < userEnd ∧ swapSlotAt s.machine p.pageTable virt = some slot

end Zigix.Swap
