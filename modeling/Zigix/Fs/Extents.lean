import Zigix.Lib.Bytes
import Zigix.Lib.Bisect

/-!
# The extent tree (`kernel/fs/ext4/extents.zig`)

* `Extent` : the entry of a leaf, whose length encodes whether it has been written;
* `lookup` : down the index entries, by bisection, then along the leaf;
* `insertInLeaf` : an extent goes into a leaf that has room;
* `WellFormed` : a tree of a given depth for the blocks between two bounds, and its `extents`.

A node is a buffer that starts with its header. `none` is a kernel panic, or a walk that is not done with its fuel.
-/

namespace Zigix.Ext4

open Bytes Bisect

/-! ## Entries -/

/-- `EXTENT_MAGIC`. -/
def extentMagic : Nat := 0xF30A

@[ext] structure Extent where
  block : Nat
  len : Nat
  startHi : Nat
  startLo : Nat
  block_lt : block < 2 ^ 32
  len_lt : len < 2 ^ 16
  startHi_lt : startHi < 2 ^ 16
  startLo_lt : startLo < 2 ^ 32
deriving DecidableEq

namespace Extent
variable (e : Extent)

def physicalBlock : Nat := e.startHi * 2 ^ 32 + e.startLo

def blockCount : Nat := if e.len ≤ 32768 then e.len else e.len - 32768

def isUninitialized : Bool := decide (32768 < e.len)

/-- The sum has 32 bits. -/
def endBlock : Option Nat := if e.block + e.blockCount < 2 ^ 32 then some (e.block + e.blockCount) else none

def contains (logical : Nat) : Option Bool :=
  if e.block ≤ logical then e.endBlock.map fun stop => decide (logical < stop) else some false

def translate (logical : Nat) : Option (Option Nat) := do
  if ← e.contains logical then some (some (e.physicalBlock + (logical - e.block))) else some none

def covers (logical : Nat) : Bool := decide (e.block ≤ logical) && decide (logical < e.block + e.blockCount)

def place (logical : Nat) : Nat := e.physicalBlock + (logical - e.block)

end Extent

/-- No block is in both. -/
def Disjoint (e e' : Extent) : Prop := ∀ l, ¬ (e.covers l = true ∧ e'.covers l = true)

/-! ## Nodes -/

def magic (buf : Buf) : Nat := getLE buf 0 2

def entries (buf : Buf) : Nat := getLE buf 2 2

/-- `max` -/
def maxEntries (buf : Buf) : Nat := getLE buf 4 2

def depth (buf : Buf) : Nat := getLE buf 6 2

def isValid (buf : Buf) : Bool := decide (magic buf = extentMagic) && decide (entries buf ≤ maxEntries buf)

def isLeaf (buf : Buf) : Bool := decide (depth buf = 0)

/-- `extents[i]` -/
def extentAt (buf : Buf) (i : Nat) : Extent where
  block := getLE buf (12 + 12 * i) 4
  len := getLE buf (12 + 12 * i + 4) 2
  startHi := getLE buf (12 + 12 * i + 6) 2
  startLo := getLE buf (12 + 12 * i + 8) 4
  block_lt := getLE_lt buf _ 4
  len_lt := getLE_lt buf _ 2
  startHi_lt := getLE_lt buf _ 2
  startLo_lt := getLE_lt buf _ 4

/-- `extents[i] = e` -/
def setExtent (buf : Buf) (i : Nat) (e : Extent) : Buf :=
  let buf := putLE buf (12 + 12 * i) 4 e.block
  let buf := putLE buf (12 + 12 * i + 4) 2 e.len
  let buf := putLE buf (12 + 12 * i + 6) 2 e.startHi
  putLE buf (12 + 12 * i + 8) 4 e.startLo

/-- `indices[i].block` -/
def indexBlock (buf : Buf) (i : Nat) : Nat := getLE buf (12 + 12 * i) 4

/-- `indices[i].childBlock()` -/
def childBlock (buf : Buf) (i : Nat) : Nat := getLE buf (12 + 12 * i + 8) 2 * 2 ^ 32 + getLE buf (12 + 12 * i + 4) 4

/-! ## Lookup -/

/-- The loop over the entries of a leaf. -/
def searchLeaf (buf : Buf) (logical : Nat) : List Nat → Option (Option Nat)
  | [] => some none
  | i :: is => do
    match ← (extentAt buf i).translate logical with
    | some phys => some (some phys)
    | none => searchLeaf buf logical is

def findIndex (buf : Buf) (logical : Nat) : Option Nat :=
  if !isValid buf || isLeaf buf || decide (entries buf = 0) then none
  else
    let lo := bisect (fun mid => decide (indexBlock buf mid ≤ logical)) (entries buf) 0 (entries buf)
    if 0 < lo then some (lo - 1) else some 0

section Lookup
variable (read : Nat → Option Buf)

def descend (logical : Nat) : Nat → Option Nat → Buf → Option (Option (Option Nat × Buf))
  | fuel, at_, buf =>
    if depth buf = 0 then some (some (at_, buf))
    else
      match fuel with
      | 0 => none
      | fuel + 1 =>
        match findIndex buf logical with
        | none => some none
        | some idx =>
          match read (childBlock buf idx) with
          | none => some none
          | some child => if isValid child then descend logical fuel (some (childBlock buf idx)) child else some none

def lookup (fuel : Nat) (iblock : Buf) (logical : Nat) : Option (Option Nat) :=
  if isValid iblock then do
    match ← descend read logical fuel none iblock with
    | none => some none
    | some (_, leaf) => searchLeaf leaf logical (List.range (entries leaf))
  else some none

end Lookup

/-! ## Insertion -/

def insertPos (buf : Buf) (ext : Extent) : Nat :=
  ((List.range (entries buf)).find? fun i => decide (ext.block < (extentAt buf i).block)).getD (entries buf)

/-- The entries from `pos` on, `n` of them, go one place up. -/
def shiftRight (pos : Nat) : Nat → Buf → Buf
  | 0, buf => buf
  | n + 1, buf => shiftRight pos n (setExtent buf (pos + n + 1) (extentAt buf (pos + n)))

def insertInLeaf (buf : Buf) (ext : Extent) : Option (Bool × Buf) :=
  if !isValid buf || !isLeaf buf || decide (maxEntries buf ≤ entries buf) then some (false, buf)
  else
    let pos := insertPos buf ext
    let buf' := setExtent (shiftRight pos (entries buf - pos) buf) pos ext
    if entries buf + 1 < 2 ^ 16 then some (true, putLE buf' 2 2 (entries buf + 1)) else none

/-! ## Trees -/

def leafExtents (buf : Buf) : List Extent := (List.range (entries buf)).map (extentAt buf)

structure Leaf (buf : Buf) : Prop where
  valid : isValid buf = true
  leaf : depth buf = 0
  sorted : (leafExtents buf).Pairwise fun e e' => e.block ≤ e'.block
  disjoint : (leafExtents buf).Pairwise Disjoint
  bound : ∀ e ∈ leafExtents buf, e.block + e.blockCount ≤ 2 ^ 32 - 1

def childEnd (buf : Buf) (hi i : Nat) : Nat := if i + 1 < entries buf then indexBlock buf (i + 1) else hi

section Trees
variable (read : Nat → Option Buf)

/-- A tree of this depth whose extents lie between two blocks. -/
def WellFormed : Nat → Buf → Nat → Nat → Prop
  | 0, buf, lo, hi => Leaf buf ∧ ∀ e ∈ leafExtents buf, lo ≤ e.block ∧ e.block + e.blockCount ≤ hi
  | d + 1, buf, lo, hi => isValid buf = true ∧ depth buf = d + 1 ∧ ∀ i, i < entries buf →
    lo ≤ indexBlock buf i ∧ indexBlock buf i ≤ childEnd buf hi i ∧ childEnd buf hi i ≤ hi ∧
      ∃ child, read (childBlock buf i) = some child ∧ WellFormed d child (indexBlock buf i) (childEnd buf hi i)

def extents : Nat → Buf → List Extent
  | 0, buf => leafExtents buf
  | d + 1, buf => (List.range (entries buf)).flatMap fun i =>
    match read (childBlock buf i) with
    | some child => extents d child
    | none => []

end Trees

end Zigix.Ext4
