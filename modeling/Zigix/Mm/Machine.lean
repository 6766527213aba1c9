import Zigix.Mm.Pmm
import Zigix.Mm.Pte
import Zigix.Mm.PageCache

/-!
# Physical memory, the allocator and the page cache together

A page is named by its frame number: `hhdm.physToPtr(phys)` reaches the 512 words of frame `phys / 4096`. The
allocator's own arrays live outside the frames it hands out, so `pmm` and `mem` are separate fields.

`Machine.allocPage` is `pmm.allocPage` with the recovery chain `initRecovery` registers: its first tier evicts up
to 32 clean page-cache entries, its second tier (swap) is inactive while no `/swapfile` was opened.
-/

namespace Zigix

open Pte (Word)
open Pmm (pageSize)

structure Machine where
  pmm : Pmm.State
  /-- the 64-bit words of every frame -/
  mem : Nat → Nat → Word
  cache : PageCache.Cache

namespace Machine
variable (m : Machine)

/-! ## Memory -/

/-- The word at index `i` of frame `f` becomes `w`. -/
def setWord (f i : Nat) (w : Word) : Machine :=
  { m with mem := Function.update m.mem f (Function.update (m.mem f) i w) }

def setPage (f : Nat) (contents : Nat → Word) : Machine := { m with mem := Function.update m.mem f contents }

/-- `zeroPage`, `zeroPageTable`. -/
def zeroPage (f : Nat) : Machine := m.setPage f fun _ => 0

def copyPage (dst src : Nat) : Machine := m.setPage dst (m.mem src)

/-- Byte `k` of a word, the least significant one first. -/
def wordByte (w : Word) (k : Nat) : BitVec 8 := w.extractLsb' (8 * k) 8

/-- Byte `k` of `w` becomes `b`. -/
def setWordByte (w : Word) (k : Nat) (b : BitVec 8) : Word :=
  (w &&& ~~~((255#64) <<< (8 * k))) ||| ((b.setWidth 64) <<< (8 * k))

/-- Byte `off` of a page. -/
def pageByte (page : Nat → Word) (off : Nat) : BitVec 8 := wordByte (page (off / 8)) (off % 8)

def setPageByte (page : Nat → Word) (off : Nat) (b : BitVec 8) : Nat → Word :=
  Function.update page (off / 8) (setWordByte (page (off / 8)) (off % 8) b)

def storeByte (f off : Nat) (b : BitVec 8) : Machine := m.setPage f (setPageByte (m.mem f) off b)

theorem getLsbD_byteMask (k i : Nat) (hi : i < 64) :
    ((255#64) <<< (8 * k)).getLsbD i = decide (8 * k ≤ i ∧ i < 8 * k + 8) := by
  have h255 : ∀ j, (255#64).getLsbD j = decide (j < 8) := by
    intro j
    have h : (255#64) = (BitVec.allOnes 8).setWidth 64 := rfl
    rw [h, BitVec.getLsbD_setWidth, BitVec.getLsbD_allOnes]
    by_cases hj : j < 8
    · simp [hj, show j < 64 by omega]
    · simp [hj]
  have hiff : 8 * k ≤ i → (i - 8 * k < 8 ↔ i < 8 * k + 8) := by omega
  rw [BitVec.getLsbD_shiftLeft, h255]
  by_cases h1 : i < 8 * k
  · simp [h1]
  · have h2 : 8 * k ≤ i := by omega
    simp only [h1, hi, h2, hiff h2, decide_true, decide_false, Bool.not_false, Bool.true_and, true_and]

theorem wordByte_setWordByte (w : Word) (b : BitVec 8) (j k : Nat) (hj : j < 8) (hk : k < 8) :
    wordByte (setWordByte w k b) j = if j = k then b else wordByte w j := by
  apply BitVec.eq_of_getLsbD_eq
  intro i hi
  have hlt : 8 * j + i < 64 := by omega
  unfold wordByte setWordByte
  rw [BitVec.getLsbD_extractLsb', BitVec.getLsbD_or, BitVec.getLsbD_and, BitVec.getLsbD_not,
    getLsbD_byteMask _ _ hlt, BitVec.getLsbD_shiftLeft, BitVec.getLsbD_setWidth]
  by_cases hjk : j = k
  · subst hjk
    have h1 : ¬ 8 * j + i < 8 * j := by omega
    have h2 : 8 * j + i - 8 * j = i := by omega
    have h3 : i < 64 := by omega
    simp [hi, hlt, h3]
  · have h1 : ¬ (8 * k ≤ 8 * j + i ∧ 8 * j + i < 8 * k + 8) := by omega
    have h2 : (!decide (8 * j + i < 8 * k) && (decide (8 * j + i - 8 * k < 64) &&
        b.getLsbD (8 * j + i - 8 * k))) = false := by
      by_cases h3 : 8 * j + i < 8 * k
      · simp [h3]
      · have h4 : b.getLsbD (8 * j + i - 8 * k) = false := BitVec.getLsbD_of_ge _ _ (by omega)
        simp [h4]
    simp only [h1, h2, hjk, hi, hlt, decide_true, decide_false, Bool.not_false, Bool.and_true, Bool.true_and,
      Bool.or_false, if_false, BitVec.getLsbD_extractLsb']

theorem pageByte_setPageByte (c : Nat → Word) (off off' : Nat) (b : BitVec 8) :
    pageByte (setPageByte c off b) off' = if off' = off then b else pageByte c off' := by
  have h8 : ∀ n : Nat, n % 8 < 8 := fun n => Nat.mod_lt _ (by decide)
  unfold pageByte setPageByte
  by_cases hd : off' / 8 = off / 8
  · rw [hd, Function.update_self, wordByte_setWordByte _ _ _ _ (h8 _) (h8 _)]
    have hiff : off' % 8 = off % 8 ↔ off' = off := by omega
    simp only [hiff]
  · have hne : off' ≠ off := fun h => hd (by rw [h])
    rw [Function.update_of_ne hd, if_neg hne]

/-! ## The allocator -/

def incRef (f : Nat) : Machine := { m with pmm := Pmm.incRef m.pmm (f * pageSize) }

def decRef (f : Nat) : Machine := { m with pmm := (Pmm.decRef m.pmm (f * pageSize)).2 }

def freePage (f : Nat) : Machine := { m with pmm := Pmm.freePage m.pmm (f * pageSize) }

def getRef (f : Nat) : Nat := Pmm.getRef m.pmm (f * pageSize)

/-- `evictPageCacheAction`: the addresses it frees and the cache it leaves. -/
def evictPageCacheAction : Pmm.Recovery × PageCache.Cache :=
  let (frames, cache) := PageCache.evictUpTo 32 m.cache
  ({ released := frames.map (· * pageSize), succeeded := !frames.isEmpty }, cache)

/-- `pmm.allocPage`; the page is returned as a frame number. -/
def allocPage : Option Nat × Machine :=
  let (recovery, cache) := m.evictPageCacheAction
  let (phys, pmm) := Pmm.allocPage m.pmm recovery
  (phys.map (· / pageSize),
    { m with pmm, cache := if (Pmm.allocPageInner m.pmm).1.isSome then m.cache else cache })

/-! ## The page cache -/

def lookup (inodeNum pageIndex : Nat) : Option Nat × Machine :=
  let (frame, cache) := PageCache.lookup m.cache inodeNum pageIndex
  (frame, { m with cache })

/-- `evictEntry` on an entry already taken out of the list: page 0 stands for no page. -/
def dropEntry (e : PageCache.Entry) : Machine := if e.frame ≠ 0 then m.freePage e.frame else m

/-- `page_cache.insert`. -/
def insert (inodeNum pageIndex frame : Nat) : Machine :=
  match PageCache.insert m.cache inodeNum pageIndex frame with
  | .present cache => { m with cache }
  | .added cache => ({ m with cache }).incRef frame
  | .replaced victim cache => (({ m with cache }).dropEntry victim).incRef frame

/-- `page_cache.invalidatePage`. -/
def invalidatePage (inodeNum pageIndex : Nat) : Machine :=
  match PageCache.invalidatePage m.cache inodeNum pageIndex with
  | (some e, cache) => ({ m with cache }).dropEntry e
  | (none, cache) => { m with cache }

def boot : Machine where
  pmm :=
    { bitmap := fun byte => if 64 ≤ byte ∧ byte < 66 then 255 else 0
      totalPages := 528
      freePageCount := 16
      highestPhys := 528 * pageSize
      refCounts := fun _ => 0
      nextFreeHint := 512 }
  mem := fun _ _ => 0
  cache := []

end Machine

end Zigix
