import Mathlib.Data.List.Basic

/-!
# The page cache (`kernel/mm/page_cache.zig`)

The entries in LRU order, most recently used first. The source keeps them in an array threaded by hash chains and
a doubly linked list; an operation here is its effect on that list. The frames an operation gives back to the
allocator are part of its result, in the order in which the source frees them.
-/

namespace Zigix.PageCache

/-- `MAX_CACHED_PAGES`. -/
def maxCachedPages : Nat := 16384

/-- `CacheEntry`, with its physical page as a frame number. -/
structure Entry where
  inodeNum : Nat
  pageIndex : Nat
  frame : Nat
  dirty : Bool

abbrev Cache := List Entry

def Entry.hasKey (inodeNum pageIndex : Nat) (e : Entry) : Bool :=
  e.inodeNum == inodeNum && e.pageIndex == pageIndex

/-- A hit moves the entry to the front. -/
def lookup (c : Cache) (inodeNum pageIndex : Nat) : Option Nat × Cache :=
  match c.find? (Entry.hasKey inodeNum pageIndex) with
  | some e => (some e.frame, e :: c.eraseP (Entry.hasKey inodeNum pageIndex))
  | none => (none, c)

/-- The outcome of `insert`: the page was cached before, a free slot took it, or the LRU entry made room. -/
inductive Inserted
  | present (c : Cache)
  | added (c : Cache)
  | replaced (victim : Entry) (c : Cache)

def insert (c : Cache) (inodeNum pageIndex frame : Nat) : Inserted :=
  match lookup c inodeNum pageIndex with
  | (some _, c') => .present c'
  | (none, c') =>
    let e : Entry := { inodeNum, pageIndex, frame, dirty := false }
    if c'.length < maxCachedPages then .added (e :: c')
    else
      match c'.getLast? with
      | some victim => .replaced victim (e :: c'.dropLast)
      | none => .present c'

def invalidatePage (c : Cache) (inodeNum pageIndex : Nat) : Option Entry × Cache :=
  (c.find? (Entry.hasKey inodeNum pageIndex), c.eraseP (Entry.hasKey inodeNum pageIndex))

/-- Take out the least recently used clean entry. -/
def evictOne (c : Cache) : Option (Nat × Cache) :=
  match c.reverse.find? (fun e => !e.dirty) with
  | some e => some (e.frame, (c.reverse.eraseP fun e => !e.dirty).reverse)
  | none => none

/-- The loop of `evictPageCacheAction`: the frames evicted, in order. -/
def evictUpTo : Nat → Cache → List Nat × Cache
  | 0, c => ([], c)
  | n + 1, c =>
    match evictOne c with
    | some (f, c') => (f :: (evictUpTo n c').1, (evictUpTo n c').2)
    | none => ([], c)

/-! ## How often a frame is cached -/

def cached (c : Cache) (f : Nat) : Nat := c.countP fun e => e.frame == f

theorem perm_of_find? {p : Entry → Bool} {c : Cache} {e : Entry} (h : c.find? p = some e) :
    (e :: c.eraseP p).Perm c := by
  induction c with
  | nil => cases h
  | cons a c ih =>
    rw [List.find?_cons] at h
    cases hp : p a with
    | true =>
      rw [hp] at h
      cases h
      rw [List.eraseP_cons_of_pos hp]
    | false =>
      rw [hp] at h
      rw [List.eraseP_cons_of_neg (by simp [hp])]
      exact (List.Perm.swap a e _).trans ((ih h).cons a)

theorem cached_cons (e : Entry) (c : Cache) (f : Nat) :
    cached (e :: c) f = cached c f + if e.frame = f then 1 else 0 := by
  simp [cached, List.countP_cons]

theorem cached_perm {c c' : Cache} (h : c.Perm c') (f : Nat) : cached c f = cached c' f := h.countP_eq _

theorem lookup_perm (c : Cache) (inodeNum pageIndex : Nat) : (lookup c inodeNum pageIndex).2.Perm c := by
  unfold lookup
  split
  · next e he => exact perm_of_find? he
  · exact .refl c

theorem evictOne_perm {c c' : Cache} {f : Nat} (h : evictOne c = some (f, c')) :
    ∃ e : Entry, e.frame = f ∧ (e :: c').Perm c := by
  unfold evictOne at h
  split at h
  · next e he =>
    cases h
    refine ⟨e, rfl, ?_⟩
    exact ((List.reverse_perm _).cons e).trans ((perm_of_find? he).trans (List.reverse_perm c))
  · cases h

end Zigix.PageCache
