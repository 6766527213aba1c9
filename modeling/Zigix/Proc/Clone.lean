import Zigix.Mm.Vmm
import Zigix.Lib.Loop

/-!
# Copy-on-write duplication of an address space (`cowCopyUserPages` of `kernel/proc/clone.zig`)

The parent's tables are pinned, its leaves are marked copy-on-write and shared with freshly built child tables,
and the pins are dropped again. Running out of memory returns early, with the child partially filled and the pins
in place.
-/

namespace Zigix.Clone

open Vmm (badFrame newTable)

/-- The entry `i` of `t` leads to a next-level table the loops descend into. -/
def descends (m : Machine) (skipHuge : Bool) (t i : Nat) : Bool :=
  Pte.isPresent (m.mem t i) && !(skipHuge && Pte.isHuge (m.mem t i)) && !badFrame m (Pte.frame (m.mem t i))

/-! ## Pinning -/

/-- The pin loops above the last level: each table is pinned before its own tables are visited. -/
def pinTable (entries : Nat) (skipHuge : Bool) (sub : Machine → Nat → Machine) (m : Machine) (t : Nat) : Machine :=
  (List.range entries).foldl (fun m i =>
    if descends m skipHuge t i then sub (m.incRef (Pte.frame (m.mem t i))) (Pte.frame (m.mem t i)) else m) m

def pinPd : Machine → Nat → Machine := pinTable 512 true fun m _ => m

def pinPdpt : Machine → Nat → Machine := pinTable 512 true pinPd

def pinPml4 : Machine → Nat → Machine := pinTable 256 false pinPdpt

def unpinTable (entries : Nat) (skipHuge : Bool) (sub : Machine → Nat → Machine) (m : Machine) (t : Nat) : Machine :=
  (List.range entries).foldl (fun m i =>
    if descends m skipHuge t i then (sub m (Pte.frame (m.mem t i))).decRef (Pte.frame (m.mem t i)) else m) m

def unpinPd : Machine → Nat → Machine := unpinTable 512 true fun m _ => m

def unpinPdpt : Machine → Nat → Machine := unpinTable 512 true unpinPd

def unpinPml4 : Machine → Nat → Machine := unpinTable 256 false unpinPdpt

/-! ## Sharing -/

def shareLeaf (parent child i : Nat) (m : Machine) : Bool × Machine :=
  if descends m false parent i then
    let phys := Pte.frame (m.mem parent i)
    let m := m.setWord parent i (Pte.markCow (m.mem parent i))
    let m := m.setWord child i (m.mem parent i)
    (true, m.incRef phys)
  else (true, m)

def copyPt (parent child : Nat) : Machine → Bool × Machine := Loop.loop (shareLeaf parent child) (List.range 512)

def copyEntry (skipHuge : Bool) (sub : Nat → Nat → Machine → Bool × Machine) (parent child i : Nat) (m : Machine) :
    Bool × Machine :=
  if descends m skipHuge parent i then
    match newTable m with
    | (none, m) => (false, m)
    | (some f, m') => sub (Pte.frame (m.mem parent i)) f (m'.setWord child i (Pte.table f))
  else (true, m)

/-- The copy loops above the last level. -/
def copyTable (entries : Nat) (skipHuge : Bool) (sub : Nat → Nat → Machine → Bool × Machine) (parent child : Nat) :
    Machine → Bool × Machine :=
  Loop.loop (copyEntry skipHuge sub parent child) (List.range entries)

def copyPd : Nat → Nat → Machine → Bool × Machine := copyTable 512 true copyPt

def copyPdpt : Nat → Nat → Machine → Bool × Machine := copyTable 512 true copyPd

def copyPml4 : Nat → Nat → Machine → Bool × Machine := copyTable 256 false copyPdpt

/-- Returns `false` when memory ran out. -/
def cowCopyUserPages (parent child : Nat) (m : Machine) : Bool × Machine :=
  match copyPml4 parent child (pinPml4 m parent) with
  | (false, m) => (false, m)
  | (true, m) => (true, unpinPml4 m parent)

end Zigix.Clone
