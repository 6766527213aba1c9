import Mathlib.Data.Nat.Count
import Mathlib.Data.Finset.Card
import Mathlib.Logic.Function.Basic

/-!
# The physical page allocator (`kernel/mm/pmm.zig`)

A bitmap (`1` = free), one reference count per page, the counter `free_pages` and a search hint:

* `allocPageInner`, `allocPage` : one page, scanned from the hint with one wrap-around; `allocPage` runs the
  out-of-memory recovery chain between two attempts;
* `freePage`, `incRef`, `decRef`, `getRef` : reference counting, saturating at `65535`;
* `allocPages`, `allocHugePages`, `allocGigaPage`, `freePages` : contiguous runs;
* `allocPagesGuarded`, `freePagesGuarded` : runs with pinned buffer pages on both sides.

`none` as the result of an operation is a Zig safety panic (a checked `u64` addition, multiplication or
subtraction that leaves its range); the kernel stops there.
-/

namespace Zigix.Pmm

/-- A physical byte address (`types.PhysAddr`). -/
abbrev PhysAddr := Nat

/-- `types.PAGE_SIZE`. -/
def pageSize : Nat := 4096

/-- `MIN_ALLOC_PAGE`: pages of the first 2 MiB are never handed out. -/
def minAllocPage : Nat := 512

/-- `PAGES_PER_HUGE`. -/
def pagesPerHuge : Nat := 512

/-- `PAGES_PER_GIGA`. -/
def pagesPerGiga : Nat := 262144

/-- The count at which a page is pinned for good. -/
def saturated : Nat := 65535

/-! ## Checked `u64` arithmetic -/

/-- `a + b` in `u64`, or a panic. -/
def addU64 (a b : Nat) : Option Nat := if a + b < 2 ^ 64 then some (a + b) else none

/-- `a * b` in `u64`, or a panic. -/
def mulU64 (a b : Nat) : Option Nat := if a * b < 2 ^ 64 then some (a * b) else none

/-- `a - b` in `u64`, or a panic. -/
def subU64 (a b : Nat) : Option Nat := if b ≤ a then some (a - b) else none

/-! ## The bitmap -/

/-- The bitmap bytes; bit `page % 8` of byte `page / 8` is page `page`. -/
abbrev Bitmap := Nat → BitVec 8

def setBit (b : Bitmap) (page : Nat) : Bitmap :=
  Function.update b (page / 8) (b (page / 8) ||| (1#8 <<< (page % 8)))

def clearBit (b : Bitmap) (page : Nat) : Bitmap :=
  Function.update b (page / 8) (b (page / 8) &&& ~~~(1#8 <<< (page % 8)))

def testBit (b : Bitmap) (page : Nat) : Bool := (b (page / 8) &&& (1#8 <<< (page % 8))) != 0#8

theorem getLsbD_mask (i j : Nat) (hi : i < 8) : (1#8 <<< j).getLsbD i = decide (i = j) := by
  simp only [BitVec.getLsbD_shiftLeft, BitVec.getLsbD_one, hi, decide_true, Bool.true_and]
  rcases Nat.lt_trichotomy i j with h | h | h
  · simp [h, Nat.ne_of_lt h]
  · simp [h]
  · have h1 : ¬ i < j := by omega
    have h2 : i - j ≠ 0 := by omega
    simp [h1, h2, Nat.ne_of_gt h]

theorem testBit_eq (b : Bitmap) (p : Nat) : testBit b p = (b (p / 8)).getLsbD (p % 8) := by
  have hp : p % 8 < 8 := Nat.mod_lt _ (by decide)
  have h : (1#8 <<< (p % 8)) = BitVec.twoPow 8 (p % 8) := by rw [BitVec.twoPow]
  rw [testBit, h, BitVec.and_twoPow]
  cases hb : (b (p / 8)).getLsbD (p % 8) with
  | false => simp
  | true =>
    have hne : BitVec.twoPow 8 (p % 8) ≠ 0#8 := by
      intro h0
      have := congrArg (fun x => x.getLsbD (p % 8)) h0
      simp [hp] at this
    simpa using hne

theorem testBit_setBit (b : Bitmap) (q p : Nat) :
    testBit (setBit b q) p = (decide (p = q) || testBit b p) := by
  have hp : p % 8 < 8 := Nat.mod_lt _ (by decide)
  rw [testBit_eq, testBit_eq, setBit]
  by_cases hd : p / 8 = q / 8
  · have hpq : (p % 8 = q % 8) = (p = q) := by apply propext; omega
    rw [hd, Function.update_self, BitVec.getLsbD_or, getLsbD_mask _ _ hp, Bool.or_comm]
    simp only [hpq]
  · have : p ≠ q := fun h => hd (by rw [h])
    rw [Function.update_of_ne hd]
    simp [this]

theorem testBit_clearBit (b : Bitmap) (q p : Nat) :
    testBit (clearBit b q) p = (decide (p ≠ q) && testBit b p) := by
  have hp : p % 8 < 8 := Nat.mod_lt _ (by decide)
  rw [testBit_eq, testBit_eq, clearBit]
  by_cases hd : p / 8 = q / 8
  · have hpq : (p % 8 = q % 8) = (p = q) := by apply propext; omega
    rw [hd, Function.update_self, BitVec.getLsbD_and, BitVec.getLsbD_not, getLsbD_mask _ _ hp, Bool.and_comm]
    simp only [hpq, hp, decide_true, Bool.true_and, decide_not]
  · have : p ≠ q := fun h => hd (by rw [h])
    rw [Function.update_of_ne hd]
    simp [this]

/-! ## The allocator state -/

/-- The module variables of `pmm.zig`. -/
structure State where
  bitmap : Bitmap
  /-- `total_pages`. -/
  totalPages : Nat
  /-- `free_pages`. -/
  freePageCount : Nat
  /-- `highest_phys`. -/
  highestPhys : Nat
  /-- `ref_counts`: one `u16` per page. -/
  refCounts : Nat → Nat
  /-- `next_free_hint`. -/
  nextFreeHint : Nat

namespace State
variable (s : State)

/-- Page `p` is free: its bit is set. -/
def isFree (p : Nat) : Bool := testBit s.bitmap p

/-- Mark a free page used with one reference: the three writes every allocation path makes per page. -/
def take (p : Nat) : State :=
  { s with bitmap := clearBit s.bitmap p, freePageCount := s.freePageCount - 1,
           refCounts := Function.update s.refCounts p 1 }

/-- Mark a page free again: the tail of `freePage` and `decRef`. -/
def give (p : Nat) : State :=
  if s.isFree p then s
  else { s with bitmap := setBit s.bitmap p, freePageCount := s.freePageCount + 1,
                nextFreeHint := if p < s.nextFreeHint then p else s.nextFreeHint }

def setRef (p n : Nat) : State := { s with refCounts := Function.update s.refCounts p n }

end State

/-! ## One page -/

/-- The first free page in `[lo, hi)`: the scan loops of `allocPageInner`. -/
def firstFree (s : State) (lo hi : Nat) : Option Nat := (List.range' lo (hi - lo)).find? s.isFree

/-- The found branch of `allocPageInner`. -/
def takeAt (s : State) (page : Nat) : Option PhysAddr × State :=
  (some (page * pageSize), { s.take page with nextFreeHint := page + 1 })

def allocPageInner (s : State) : Option PhysAddr × State :=
  if s.freePageCount = 0 then (none, s)
  else
    let page := if minAllocPage ≤ s.nextFreeHint then s.nextFreeHint else minAllocPage
    match firstFree s page s.totalPages with
    | some page => takeAt s page
    | none =>
      match firstFree s minAllocPage s.nextFreeHint with
      | some page => takeAt s page
      | none => (none, s)

def freePage (s : State) (phys : PhysAddr) : State :=
  if phys % pageSize ≠ 0 then s
  else
    let page := phys / pageSize
    if s.totalPages ≤ page then s
    else if page = 0 then s
    else if s.refCounts page = 0 then s
    else if s.refCounts page = saturated then s
    else if 1 < s.refCounts page then s.setRef page (s.refCounts page - 1)
    else (s.setRef page 0).give page

def incRef (s : State) (phys : PhysAddr) : State :=
  let page := phys / pageSize
  if s.totalPages ≤ page then s
  else if page = 0 then s
  else if s.refCounts page < saturated then s.setRef page (s.refCounts page + 1)
  else s

/-- `decRef` returns the new count. -/
def decRef (s : State) (phys : PhysAddr) : Nat × State :=
  let page := phys / pageSize
  if s.totalPages ≤ page then (0, s)
  else if page = 0 then (0, s)
  else if s.refCounts page = saturated then (saturated, s)
  else if s.refCounts page = 0 then (0, s)
  else
    let newCount := s.refCounts page - 1
    let s' := s.setRef page newCount
    if newCount = 0 then (newCount, s'.give page) else (newCount, s')

def getRef (s : State) (phys : PhysAddr) : Nat :=
  let page := phys / pageSize
  if s.totalPages ≤ page then 0 else s.refCounts page

/-- What one run of the recovery chain does to the allocator: the addresses its tiers pass to `freePage`, in
order, and whether a tier reported success. -/
structure Recovery where
  released : List PhysAddr
  succeeded : Bool

/-- `allocPageWithRecovery`, the body of `allocPage`. -/
def allocPage (s : State) (recovery : Recovery) : Option PhysAddr × State :=
  match allocPageInner s with
  | (some p, s') => (some p, s')
  | (none, s') =>
    let s'' := recovery.released.foldl freePage s'
    if recovery.succeeded then allocPageInner s'' else (none, s'')

/-! ## Runs of pages -/

/-- Mark every page of a run used. -/
def takeAll (s : State) (pages : List Nat) : State := pages.foldl State.take s

/-- The scan of `allocPages` over the pages still to visit, with its `run_start` and `run_len`. -/
def findRun (s : State) (count : Nat) : List Nat → Nat → Nat → Option Nat
  | [], _, _ => none
  | page :: rest, runStart, runLen =>
    if s.isFree page then
      let runStart := if runLen = 0 then page else runStart
      if runLen + 1 = count then some runStart else findRun s count rest runStart (runLen + 1)
    else findRun s count rest runStart 0

def allocPages (s : State) (count : Nat) : Option PhysAddr × State :=
  if count = 0 then (none, s)
  else if s.freePageCount < count then (none, s)
  else
    match findRun s count (List.range' minAllocPage (s.totalPages - minAllocPage)) minAllocPage 0 with
    | some runStart => (some (runStart * pageSize), takeAll s (List.range' runStart count))
    | none => (none, s)

/-- The loop shared by `allocHugePages` and `allocGigaPage`: the first multiple of `align` (from `align` on) at
which `totalNeeded` pages below `total_pages` are all free. -/
def findAligned (s : State) (align totalNeeded : Nat) : Option Nat :=
  (((List.range s.totalPages).map fun i => align * (i + 1)).takeWhile
    fun base => base + totalNeeded ≤ s.totalPages).find?
    fun base => (List.range' base totalNeeded).all s.isFree

def allocAligned (s : State) (align totalNeeded : Nat) : Option PhysAddr × State :=
  if s.freePageCount < totalNeeded then (none, s)
  else
    match findAligned s align totalNeeded with
    | some base => (some (base * pageSize), takeAll s (List.range' base totalNeeded))
    | none => (none, s)

def allocHugePages (s : State) (count : Nat) : Option (Option PhysAddr × State) :=
  if count = 0 then some (none, s)
  else do
    let totalNeeded ← mulU64 count pagesPerHuge
    return allocAligned s pagesPerHuge totalNeeded

def allocGigaPage (s : State) : Option PhysAddr × State := allocAligned s pagesPerGiga pagesPerGiga

/-- The loop of `freePages`, `freeHugePage` and `freeGigaPage`: `freePage` on every page of a list. -/
def freeEach (s : State) : List Nat → Option State
  | [] => some s
  | p :: rest => do
    let phys ← mulU64 p pageSize
    freeEach (freePage s phys) rest

def freePages (s : State) (phys : PhysAddr) (count : Nat) : Option State := do
  let startPage := phys / pageSize
  let _ ← addU64 startPage count
  freeEach s (List.range' startPage count)

def freeHugePage (s : State) (phys : PhysAddr) : Option State := freePages s phys pagesPerHuge

def freeGigaPage (s : State) (phys : PhysAddr) : Option State := freePages s phys pagesPerGiga

/-- The pinning loop of `allocPagesGuarded`. -/
def pinGuards (s : State) (base count guard : Nat) : State :=
  (List.range guard).foldl
    (fun s i => incRef (incRef s (base + i * pageSize)) (base + (count + guard + i) * pageSize)) s

def allocPagesGuarded (s : State) (count guard : Nat) : Option (Option PhysAddr × State) := do
  let twice ← mulU64 2 guard
  let total ← addU64 count twice
  match allocPages s total with
  | (none, s') => return (none, s')
  | (some base, s') => return (some (base + guard * pageSize), pinGuards s' base count guard)

/-- One guard page of `freePagesGuarded`: `decRef`, then `freePage`. -/
def unpinGuard (s : State) (phys : PhysAddr) : State := freePage (decRef s phys).2 phys

/-- The unpinning loop of `freePagesGuarded` over the guard indices still to visit. -/
def unpinGuards (base count guard : Nat) : List Nat → State → Option State
  | [], s => some s
  | i :: rest, s => do
    let upper ← mulU64 (count + guard + i) pageSize
    let upper ← addU64 base upper
    unpinGuards base count guard rest (unpinGuard (unpinGuard s (base + i * pageSize)) upper)

def freePagesGuarded (s : State) (phys : PhysAddr) (count guard : Nat) : Option State := do
  let below ← mulU64 guard pageSize
  let base ← subU64 phys below
  let s' ← unpinGuards base count guard (List.range guard) s
  freePages s' phys count

end Zigix.Pmm
