import Zigix.Lib.Linked
import Zigix.Mm.PageCache
import Zigix.Mm.Pmm

/-!
# The tables behind the page cache (`kernel/mm/page_cache.zig`)

The array of entries, threaded by the hash chains and by the LRU list:

* `lruRemove`, `lruTouch` : the edits of the LRU list; `unhash` : the edit of a hash chain;
* `lookup`, `insert`, `evictEntry`, `evictOne`, `invalidatePage`, `invalidateInode`, `markDirty`.

`none` as the result of an operation is a walk that does not end, or the safety panic of `last_page_index + 1`. What
an operation does to the allocator is part of its result: the pages it frees, and whether it pins the page it caches.
-/

namespace Zigix.PageCacheTable

open Chains (Seg Threaded search predecessor)
open PageCache (maxCachedPages)
open Pmm (PhysAddr)

/-- `HASH_SIZE`. -/
def hashSize : Nat := 2048

/-- `NONE`: no index. -/
def noIndex : Nat := 0xFFFF

/-- `CacheEntry`. -/
structure CacheEntry where
  inodeNum : Nat
  pageIndex : Nat
  phys : PhysAddr
  dirty : Bool
  inUse : Bool
  lruPrev : Nat
  lruNext : Nat
  hashNext : Nat

/-- The module variables. -/
structure Table where
  entries : Nat → CacheEntry
  hashTable : Nat → Nat
  lruHead : Nat
  lruTail : Nat
  cacheUsed : Nat
  lastInode : Nat
  lastPageIndex : Nat
  sequentialCount : Nat

def init : Table where
  entries := fun _ =>
    { inodeNum := 0, pageIndex := 0, phys := 0, dirty := false, inUse := false, lruPrev := noIndex,
      lruNext := noIndex, hashNext := noIndex }
  hashTable := fun _ => noIndex
  lruHead := noIndex
  lruTail := noIndex
  cacheUsed := 0
  lastInode := 0
  lastPageIndex := 0
  sequentialCount := 0

def cacheHash (inodeNum pageIndex : Nat) : Nat := (inodeNum * 2654435761 + pageIndex) % hashSize

namespace Table
variable (s : Table) (i j : Nat)

def modify (f : CacheEntry → CacheEntry) : Table :=
  { s with entries := Function.update s.entries i (f (s.entries i)) }

def bucket : Nat := cacheHash (s.entries i).inodeNum (s.entries i).pageIndex

/-- The links of the tables. -/
def next : Nat := (s.entries i).lruNext

def prev : Nat := (s.entries i).lruPrev

def hashNext : Nat := (s.entries i).hashNext

def hasKey (inodeNum pageIndex : Nat) : Bool :=
  (s.entries i).inUse && (s.entries i).inodeNum == inodeNum && (s.entries i).pageIndex == pageIndex

@[simp] theorem entries_modify (f : CacheEntry → CacheEntry) :
    (s.modify i f).entries j = if j = i then f (s.entries i) else s.entries j := by
  simp [modify, Function.update_apply]

end Table

/-! ## The LRU list -/

/-- The first half of `lruRemove`: what led forward to `e`, at index `idx`, leads to its successor. -/
def linkNext (s : Table) (e : CacheEntry) (idx : Nat) : Table :=
  if e.lruPrev ≠ noIndex then s.modify e.lruPrev fun p => { p with lruNext := e.lruNext }
  else if s.lruHead = idx then { s with lruHead := e.lruNext }
  else s

/-- The second half, for the links that lead back. -/
def linkPrev (s : Table) (e : CacheEntry) (idx : Nat) : Table :=
  if e.lruNext ≠ noIndex then s.modify e.lruNext fun n => { n with lruPrev := e.lruPrev }
  else if s.lruTail = idx then { s with lruTail := e.lruPrev }
  else s

def lruRemove (s : Table) (idx : Nat) : Table :=
  let e := s.entries idx
  (linkPrev (linkNext s e idx) e idx).modify idx fun e => { e with lruPrev := noIndex, lruNext := noIndex }

/-- The insertion at the head in `lruTouch`. -/
def pushHead (s : Table) (idx : Nat) : Table :=
  let head := s.lruHead
  let s := s.modify idx fun e => { e with lruPrev := noIndex, lruNext := head }
  let s := if head ≠ noIndex then s.modify head fun h => { h with lruPrev := idx } else s
  { s with lruHead := idx, lruTail := if s.lruTail = noIndex then idx else s.lruTail }

def lruTouch (s : Table) (idx : Nat) : Table := if s.lruHead = idx then s else pushHead (lruRemove s idx) idx

/-! ## The operations -/

/-- Enough steps for any chain of distinct entries. -/
def fuel : Nat := maxCachedPages + 1

def findEntry (s : Table) (inodeNum pageIndex : Nat) : Option (Option Nat) :=
  search s.hashNext noIndex (fun i => s.hasKey i inodeNum pageIndex) fuel (s.hashTable (cacheHash inodeNum pageIndex))

def lookup (s : Table) (inodeNum pageIndex : Nat) : Option (Option PhysAddr × Table) := do
  match ← findEntry s inodeNum pageIndex with
  | some idx => return (some (s.entries idx).phys, lruTouch s idx)
  | none => return (none, s)

/-- Take an entry out of its hash chain. -/
def unhash (s : Table) (idx : Nat) : Option Table := do
  match ← predecessor s.hashNext noIndex idx fuel noIndex (s.hashTable (s.bucket idx)) with
  | some prev =>
    if prev = noIndex then
      return { s with hashTable := Function.update s.hashTable (s.bucket idx) (s.hashNext idx) }
    else return s.modify prev fun p => { p with hashNext := s.hashNext idx }
  | none => return s

def vacate (s : Table) (idx : Nat) : Table :=
  { s.modify idx fun e => { e with inUse := false, hashNext := noIndex } with cacheUsed := s.cacheUsed - 1 }

/-- The edits that `evictEntry` and `evictOne` share. -/
def drop (s : Table) (idx : Nat) : Option Table := do
  let s ← unhash s idx
  return vacate (lruRemove s idx) idx

def evictEntry (s : Table) (idx : Nat) : Option (List PhysAddr × Table) :=
  let e := s.entries idx
  if !e.inUse then some ([], s)
  else do
    let s ← drop s idx
    return (if e.phys ≠ 0 then [e.phys] else [], s)

/-- The least recently used clean entry is taken out; its page goes to the caller. -/
def evictOne (s : Table) : Option (Option PhysAddr × Table) := do
  match ← search s.prev noIndex (fun i => (s.entries i).inUse && !(s.entries i).dirty) fuel s.lruTail with
  | some idx => return (some (s.entries idx).phys, ← drop s idx)
  | none => return (none, s)

def freeSlot (s : Table) : Option Nat := (List.range maxCachedPages).find? fun i => !(s.entries i).inUse

def isSequential (s : Table) (inodeNum pageIndex : Nat) : Option Bool :=
  if inodeNum = s.lastInode then
    if s.lastPageIndex + 1 < 2 ^ 32 then some (pageIndex == s.lastPageIndex + 1) else none
  else some false

def trackSequential (s : Table) (inodeNum pageIndex : Nat) : Option Table := do
  let sequential ← isSequential s inodeNum pageIndex
  return { s with
    sequentialCount :=
      if sequential then (if s.sequentialCount < 255 then s.sequentialCount + 1 else s.sequentialCount) else 0
    lastInode := inodeNum
    lastPageIndex := pageIndex }

def fill (s : Table) (slot inodeNum pageIndex : Nat) (phys : PhysAddr) : Table :=
  let bucket := cacheHash inodeNum pageIndex
  { s with
    entries := Function.update s.entries slot
      { inodeNum, pageIndex, phys, dirty := false, inUse := true, lruPrev := noIndex, lruNext := noIndex,
        hashNext := s.hashTable bucket }
    hashTable := Function.update s.hashTable bucket slot }

/-- Fill a slot and make it the most recently used one. -/
def place (s : Table) (slot inodeNum pageIndex : Nat) (phys : PhysAddr) : Table :=
  lruTouch (fill s slot inodeNum pageIndex phys) slot

/-- The outcome of `insert`: nothing was added, or the page was cached and pinned after freeing some pages. -/
inductive Inserted
  | present
  | added (freed : List PhysAddr)

def insert (s : Table) (inodeNum pageIndex : Nat) (phys : PhysAddr) : Option (Inserted × Table) := do
  let (hit, s) ← lookup s inodeNum pageIndex
  if hit.isSome then return (.present, s)
  match if s.cacheUsed < maxCachedPages then freeSlot s else none with
  | some slot =>
    let s := place { s with cacheUsed := s.cacheUsed + 1 } slot inodeNum pageIndex phys
    let s ← trackSequential s inodeNum pageIndex
    return (.added [], s)
  | none =>
    let slot := s.lruTail
    if slot = noIndex then return (.present, s)
    let (freed, s) ← evictEntry s slot
    let s ← trackSequential (place s slot inodeNum pageIndex phys) inodeNum pageIndex
    return (.added freed, s)

def markDirty (s : Table) (inodeNum pageIndex : Nat) : Option Table := do
  match ← findEntry s inodeNum pageIndex with
  | some idx => return s.modify idx fun e => { e with dirty := true }
  | none => return s

def invalidatePage (s : Table) (inodeNum pageIndex : Nat) : Option (List PhysAddr × Table) := do
  match ← findEntry s inodeNum pageIndex with
  | some idx => evictEntry s idx
  | none => return ([], s)

/-- The loop of `invalidateInode` over the entries still to visit. -/
def invalidateEntries (inodeNum : Nat) : List Nat → Table → Option (List PhysAddr × Table)
  | [], s => some ([], s)
  | i :: rest, s => do
    let (freed, s) ←
      if (s.entries i).inUse && (s.entries i).inodeNum == inodeNum then evictEntry s i else some ([], s)
    let (more, s) ← invalidateEntries inodeNum rest s
    return (freed ++ more, s)

def invalidateInode (s : Table) (inodeNum : Nat) : Option (List PhysAddr × Table) :=
  invalidateEntries inodeNum (List.range maxCachedPages) s

end Zigix.PageCacheTable
