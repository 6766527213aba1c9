import Zigix.Mm.Vmm

/-!
# Copy-on-write faults and user accesses

* `handleCow` of `kernel/mm/fault.zig`;
* `userRead`, `userWrite` : what the processor does for a user-mode access: a read goes through the translation, a
  write to a writable leaf goes straight to its frame, and a write to a present read-only leaf traps to `handleCow`
  and is retried once the fault is resolved.
-/

namespace Zigix.Fault

open Pte Vmm
open Pmm (pageSize)

def pageBase (virt : Nat) : Nat := virt - virt % pageSize

def cowFlags (nx : Bool) : Flags := { present := true, writable := true, user := true, noExecute := nx }

def handleCow (pml4 : Nat) (faultPage : Nat) (m : Machine) : Bool × Machine :=
  match getPTE m pml4 faultPage with
  | none => (false, m)
  | some (pt, i) =>
    let pte := m.mem pt i
    if !isCow pte then (false, m)
    else
      let old := frame pte
      if m.getRef old ≤ 1 then (true, m.setWord pt i (clearCow pte))
      else
        match m.allocPage with
        | (none, m) => (false, m)
        | (some new, m) =>
          let m := m.copyPage new old
          let m := m.decRef old
          let nx := noExecute (m.mem pt i)
          (true, m.setWord pt i (make (cowFlags nx) new))

/-- One past the user half of the address space. -/
def userEnd : Nat := 2 ^ 47

/-- A user-mode load; `none` is a fault that no translation resolves. -/
def userRead (pml4 : Nat) (virt : Nat) (m : Machine) : Option (BitVec 8) :=
  if virt < userEnd then
    (translate m pml4 virt).map fun phys => Machine.pageByte (m.mem (phys / pageSize)) (phys % pageSize)
  else none

/-- The store itself, when the leaf of `virt` is writable. -/
def storeThrough (pml4 : Nat) (virt : Nat) (b : BitVec 8) (m : Machine) : Option Machine :=
  match getPTE m pml4 virt with
  | none => none
  | some (pt, i) =>
    if isWritable (m.mem pt i) then some (m.storeByte (frame (m.mem pt i)) (virt % pageSize) b) else none

/-- A user-mode store; the flag says whether it was performed. -/
def userWrite (pml4 : Nat) (virt : Nat) (b : BitVec 8) (m : Machine) : Bool × Machine :=
  if virt < userEnd then
    match storeThrough pml4 virt b m with
    | some m' => (true, m')
    | none =>
      match handleCow pml4 (pageBase virt) m with
      | (false, m') => (false, m')
      | (true, m') =>
        match storeThrough pml4 virt b m' with
        | some m'' => (true, m'')
        | none => (false, m')
  else (false, m)

end Zigix.Fault
