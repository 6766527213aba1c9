import Zigix.Lib.Linked

/-!
# The slab allocator (`kernel/arch/aarch64/slab.zig`)

Objects of nine size classes live in slabs of one page. A slab's free slots are linked through their own first words;
the slabs of a cache are on one of three lists, linked through `slab_pool`.

* `addToList`, `removeFromList` : the list edits;
* `allocFromSlab`, `freeToSlab`, `growCache`, `maybeReclaim` : one slab at a time;
* `Cache.alloc`, `Cache.free`, `kmalloc`, `kfree`, `shrink`.

The page allocator is outside: a call that may need pages carries its answer, and `free` is what it has. Physical and
virtual addresses are the same. `none` is a walk that does not end.
-/

namespace Zigix.SlabAlloc

open Chains (search)

/-- `PAGE_SIZE`. -/
def pageSize : Nat := 4096

/-- `MAX_SLABS`. -/
def maxSlabs : Nat := 512

/-- `NULL_SLAB`. -/
def nullSlab : Nat := 0xFFFF

/-- `SIZE_CLASSES`. -/
def sizeClasses : List Nat := [16, 32, 64, 128, 256, 512, 1024, 2048, 4096]

/-- `NUM_SIZE_CLASSES`: the caches that `init` creates, in order. -/
def numSizeClasses : Nat := 9

/-- `MAX_CACHES`. -/
def maxCaches : Nat := 16

/-- The three lists of a cache. -/
inductive Shelf
  | partly
  | full
  | empty
  deriving DecidableEq

structure Slab where
  pagePhys : Nat
  pageVirt : Nat
  /-- head of the free list; `0` ends it -/
  nextFree : Nat
  inUse : Nat
  capacity : Nat
  active : Bool
  cacheIdx : Nat
  next : Nat
  prev : Nat

structure Cache where
  objectSize : Nat
  slabPages : Nat
  /-- `partial`, `full` and `empty` -/
  heads : Shelf → Nat
  totalAlloc : Nat
  totalFree : Nat
  activeSlabs : Nat
  active : Bool

structure State where
  /-- `slab_pool` -/
  pool : Nat → Slab
  /-- `cache_pool` -/
  caches : Nat → Cache
  /-- the 64-bit word at an address -/
  mem : Nat → Nat
  /-- the pages that the page allocator has -/
  free : Nat → Bool

namespace State
variable (s : State) (i j c : Nat)

def modify (f : Slab → Slab) : State := { s with pool := Function.update s.pool i (f (s.pool i)) }

def modifyCache (f : Cache → Cache) : State := { s with caches := Function.update s.caches c (f (s.caches c)) }

def setHead (w : Shelf) (idx : Nat) : State :=
  s.modifyCache c fun k => { k with heads := Function.update k.heads w idx }

/-- The pages `[first, first + n)` go to the page allocator, or come from it. -/
def setPages (first n : Nat) (b : Bool) : State :=
  { s with free := fun p => if first ≤ p ∧ p < first + n then b else s.free p }

def next : Nat := (s.pool i).next

def prev : Nat := (s.pool i).prev

def head (w : Shelf) : Nat := (s.caches c).heads w

@[simp] theorem pool_modify (f : Slab → Slab) :
    (s.modify i f).pool j = if j = i then f (s.pool i) else s.pool j := by
  simp [modify, Function.update_apply]

@[simp] theorem caches_modify (f : Slab → Slab) : (s.modify i f).caches = s.caches := rfl

@[simp] theorem pool_modifyCache (f : Cache → Cache) : (s.modifyCache c f).pool = s.pool := rfl

@[simp] theorem caches_modifyCache (f : Cache → Cache) (k : Nat) :
    (s.modifyCache c f).caches k = if k = c then f (s.caches c) else s.caches k := by
  simp [modifyCache, Function.update_apply]

end State

/-! ## The lists -/

def addToList (s : State) (c : Nat) (w : Shelf) (idx : Nat) : State :=
  let head := s.head c w
  let s := s.modify idx fun b => { b with prev := nullSlab, next := head }
  let s := if head ≠ nullSlab then s.modify head fun b => { b with prev := idx } else s
  s.setHead c w idx

/-- The first half of `removeFromList`: what led to slab `idx` leads to its successor. -/
def linkNext (s : State) (c : Nat) (w : Shelf) (prev next : Nat) : State :=
  if prev ≠ nullSlab then s.modify prev fun b => { b with next := next } else s.setHead c w next

/-- The second half, for the link that leads back. -/
def linkPrev (s : State) (prev next : Nat) : State :=
  if next ≠ nullSlab then s.modify next fun b => { b with prev := prev } else s

def removeFromList (s : State) (c : Nat) (w : Shelf) (idx : Nat) : State :=
  let prev := s.prev idx
  let next := s.next idx
  (linkPrev (linkNext s c w prev next) prev next).modify idx fun b => { b with prev := nullSlab, next := nullSlab }

/-! ## One slab -/

/-- Enough steps for any list of distinct slabs. -/
def fuel : Nat := maxSlabs + 1

/-- The first slot `obj` of slab `idx` leaves its free list. -/
def popFree (s : State) (c idx obj : Nat) : State :=
  let s := s.modify idx fun b => { b with nextFree := s.mem obj, inUse := b.inUse + 1 }
  s.modifyCache c fun k => { k with totalAlloc := k.totalAlloc + 1 }

/-- `allocFromSlab`: the address of the object. -/
def allocFromSlab (s : State) (c idx : Nat) : Option Nat × State :=
  let obj := (s.pool idx).nextFree
  if obj = 0 then (none, s)
  else
    let s := popFree s c idx obj
    if (s.pool idx).inUse = (s.pool idx).capacity then
      (some obj, addToList (removeFromList s c .partly idx) c .full idx)
    else (some obj, s)

/-- The page of slab `idx` goes back to the page allocator and its metadata to the pool. -/
def retire (s : State) (c idx : Nat) : State :=
  let s := s.setPages ((s.pool idx).pagePhys / pageSize) (s.caches c).slabPages true
  let s := s.modify idx fun b => { b with active := false }
  s.modifyCache c fun k => { k with activeSlabs := k.activeSlabs - 1 }

/-- The empty slab `idx` goes back: a turn of `maybeReclaim` and of `shrink`. -/
def releaseSlab (s : State) (c idx : Nat) : State := retire (removeFromList s c .empty idx) c idx

def listLength (s : State) : Nat → Nat → Option Nat
  | 0, _ => none
  | fuel + 1, idx => if idx = nullSlab then some 0 else (listLength s fuel (s.next idx)).map (· + 1)

/-- The second loop of `maybeReclaim`. -/
def reclaimLoop (c : Nat) : Nat → State → State
  | count + 2, s =>
    if s.head c .empty = nullSlab then s else reclaimLoop c (count + 1) (releaseSlab s c (s.head c .empty))
  | _, s => s

/-- `maybeReclaim`: all empty slabs but one go back. -/
def maybeReclaim (s : State) (c : Nat) : Option State := do
  let count ← listLength s fuel (s.head c .empty)
  return reclaimLoop c count s

/-- The slot at `addr` goes back to the head of slab `idx`'s free list. -/
def pushFree (s : State) (c idx addr : Nat) : State :=
  let s := { s with mem := Function.update s.mem addr (s.pool idx).nextFree }
  let s := s.modify idx fun b => { b with nextFree := addr, inUse := b.inUse - 1 }
  s.modifyCache c fun k => { k with totalFree := k.totalFree + 1 }

def freeToSlab (s : State) (c idx addr : Nat) : Option State :=
  let wasFull := (s.pool idx).inUse = (s.pool idx).capacity
  let s := pushFree s c idx addr
  if wasFull then some (addToList (removeFromList s c .full idx) c .partly idx)
  else if (s.pool idx).inUse = 0 then maybeReclaim (addToList (removeFromList s c .partly idx) c .empty idx) c
  else some s

def buildFreeList (virt size : Nat) : Nat → Nat → (Nat → Nat) → Nat × (Nat → Nat)
  | 0, head, mem => (head, mem)
  | i + 1, head, mem => buildFreeList virt size i (virt + i * size) (Function.update mem (virt + i * size) head)

/-- `allocSlabMeta`: the first slot of the pool that is not active. -/
def allocSlabMeta (s : State) : Option Nat := (List.range maxSlabs).find? fun i => !(s.pool i).active

/-- Page `p` becomes slab `idx` of cache `c`: zeroed, its slots linked, its metadata filled in. -/
def carve (s : State) (c idx p : Nat) : State :=
  let size := (s.caches c).objectSize
  let virt := p * pageSize
  let slabSize := (s.caches c).slabPages * pageSize
  let capacity := slabSize / size
  let zeroed := fun a => if virt ≤ a ∧ a < virt + slabSize then 0 else s.mem a
  let built := buildFreeList virt size capacity 0 zeroed
  let s := s.setPages p (s.caches c).slabPages false
  { s with
    mem := built.2
    pool := Function.update s.pool idx
      { pagePhys := virt, pageVirt := virt, nextFree := built.1, inUse := 0, capacity, active := true, cacheIdx := c,
        next := nullSlab, prev := nullSlab } }

/-- `growCache`; `page` is what the page allocator answers. A page without a slot in the pool goes back. -/
def growCache (s : State) (c : Nat) (page : Option Nat) : Option Nat × State :=
  match page with
  | none => (none, s)
  | some p =>
    match allocSlabMeta s with
    | none => (none, s)
    | some idx =>
      let s := addToList (carve s c idx p) c .partly idx
      (some idx, s.modifyCache c fun k => { k with activeSlabs := k.activeSlabs + 1 })

/-! ## A cache -/

/-- `Cache.alloc`. -/
def allocObject (s : State) (c : Nat) (page : Option Nat) : Option Nat × State :=
  if s.head c .partly ≠ nullSlab then allocFromSlab s c (s.head c .partly)
  else if s.head c .empty ≠ nullSlab then
    let idx := s.head c .empty
    allocFromSlab (addToList (removeFromList s c .empty idx) c .partly idx) c idx
  else
    match growCache s c page with
    | (none, s) => (none, s)
    | (some idx, s) => allocFromSlab s c idx

def Slab.contains (b : Slab) (slabSize addr : Nat) : Bool := b.pageVirt ≤ addr && addr < b.pageVirt + slabSize

/-- `findSlab`: the partial list first, then the full and the empty one. -/
def findSlab (s : State) (c addr : Nat) : Option (Option Nat) := do
  let slabSize := (s.caches c).slabPages * pageSize
  let on := fun w => search s.next nullSlab (fun i => (s.pool i).contains slabSize addr) fuel (s.head c w)
  match ← on .partly with
  | some idx => return some idx
  | none =>
    match ← on .full with
    | some idx => return some idx
    | none => on .empty

/-- `Cache.free`. -/
def freeObject (s : State) (c ptr : Nat) : Option State := do
  match ← findSlab s c ptr with
  | some idx => freeToSlab s c idx ptr
  | none => return s

/-! ## `kmalloc`, `kfree`, `shrink` -/

def sizeClassIndex (size : Nat) : Option Nat := sizeClasses.findIdx? (size ≤ ·)

def pagesFor (size : Nat) : Nat := (size + pageSize - 1) / pageSize

/-- `kmalloc`; `page` is the first page that the page allocator answers with, should it be asked. -/
def kmalloc (s : State) (size : Nat) (page : Option Nat) : Option Nat × State :=
  if size = 0 then (none, s)
  else
    match sizeClassIndex size with
    | some c => allocObject s c page
    | none =>
      match page with
      | none => (none, s)
      | some p => (some (p * pageSize), s.setPages p (pagesFor size) false)

def kfree (s : State) (ptr size : Nat) : Option State :=
  match sizeClassIndex size with
  | some c => freeObject s c ptr
  | none => some (s.setPages (ptr / pageSize) (pagesFor size) true)

/-- The loop of `shrink` along an empty list. -/
def shrinkList (c : Nat) : Nat → Nat → State → Option State
  | 0, _, _ => none
  | fuel + 1, idx, s =>
    if idx = nullSlab then some s else shrinkList c fuel (s.next idx) (releaseSlab s c idx)

/-- The loop of `shrink` over the caches still to visit. -/
def shrinkCaches : List Nat → State → Option State
  | [], s => some s
  | c :: rest, s => do
    let s ← if (s.caches c).active then shrinkList c fuel (s.head c .empty) s else some s
    shrinkCaches rest s

def shrink (s : State) : Option State := shrinkCaches (List.range maxCaches) s

/-- The allocator after `init`. -/
def init (free : Nat → Bool) : State where
  pool := fun _ =>
    { pagePhys := 0, pageVirt := 0, nextFree := 0, inUse := 0, capacity := 0, active := false, cacheIdx := 0,
      next := nullSlab, prev := nullSlab }
  caches := fun c =>
    { objectSize := sizeClasses.getD c 0, slabPages := 1, heads := fun _ => nullSlab, totalAlloc := 0, totalFree := 0,
      activeSlabs := 0, active := decide (c < numSizeClasses) }
  mem := fun _ => 0
  free := free

end Zigix.SlabAlloc
