import Zigix.Mm.FaultSpec
import Zigix.Mm.PageSearch

/-!
# Can cached frames be reclaimed? (`ext2Read`, `insert`, `evictPageCacheAction`)

`ext2Read` takes a page (one reference) and hands it to `insert`, which adds a reference and leaves the first one to
nobody: a frame that only the page cache holds has two, and an eviction drops one of them.

* `Quiet` : a call that caches nothing; `cached_frames_reclaimable_iff`.
-/

namespace Zigix.Ext2

open Pmm (pageSize)

/-! ## Reads, block by block -/

/-- The states that `readLoop` goes through, one after each block. -/
def readTrace (disk : Disk) (inode : Inode) : Nat → Nat → Nat → Machine → List Machine
  | 0, _, _, _ => []
  | fuel + 1, offset, remaining, m =>
    if remaining = 0 then []
    else
      let chunk := min remaining (disk.blockSize - offset % disk.blockSize)
      match readChunk disk inode (offset / disk.blockSize % 2 ^ 32) (offset % disk.blockSize) chunk m with
      | (none, m) => [m]
      | (some _, m) => m :: readTrace disk inode fuel (offset + chunk) (remaining - chunk) m

def ext2ReadTrace (disk : Disk) (inode : Inode) (offset count : Nat) (m : Machine) : List Machine :=
  if inode.size ≤ offset then []
  else
    let toRead := min count (inode.size - offset)
    readTrace disk inode toRead offset toRead m

theorem readLoop_trace (disk : Disk) (inode : Inode) (fuel offset remaining : Nat) (m : Machine) :
    (readLoop disk inode fuel offset remaining m).2 = (readTrace disk inode fuel offset remaining m).getLastD m := by
  induction fuel generalizing offset remaining m with
  | zero => rfl
  | succ fuel ih =>
    rw [readLoop, readTrace]
    split
    · rfl
    · dsimp only
      rcases readChunk disk inode (offset / disk.blockSize % 2 ^ 32) (offset % disk.blockSize)
        (min remaining (disk.blockSize - offset % disk.blockSize)) m with ⟨_ | bytes, m'⟩
      · rfl
      · dsimp only
        rw [List.getLastD_cons, ← ih]

/-- `evictPageCacheAction` as a call of its own: the evicted pages go to `freePage`. -/
def recover (m : Machine) : Machine :=
  let (recovery, cache) := m.evictPageCacheAction
  { m with pmm := recovery.released.foldl Pmm.freePage m.pmm, cache }

inductive Call
  | read (disk : Disk) (inode : Inode) (offset count : Nat)
  | recover
  | invalidatePage (ino pageIndex : Nat)

def Call.exec : Call → Machine → Machine
  | .read disk inode offset count, m => (ext2Read disk inode offset count m).2
  | .recover, m => Ext2.recover m
  | .invalidatePage ino pageIndex, m => m.invalidatePage ino pageIndex

/-- The states a call goes through. -/
def Call.trace : Call → Machine → List Machine
  | .read disk inode offset count, m => ext2ReadTrace disk inode offset count m
  | .recover, m => [Ext2.recover m]
  | .invalidatePage ino pageIndex, m => [m.invalidatePage ino pageIndex]

def states (m : Machine) : List Call → List Machine
  | [] => [m]
  | c :: cs => m :: c.trace m ++ states (c.exec m) cs

/-! ## What is promised, and when it holds -/

structure Reclaimable (m : Machine) : Prop where
  one : ∀ e ∈ m.cache, m.pmm.refCounts e.frame = 1
  returned : ∀ e ∈ m.cache, (m.freePage e.frame).pmm.isFree e.frame = true
  progress : (∃ e ∈ m.cache, e.dirty = false) → m.pmm.freePageCount < (recover m).pmm.freePageCount

/-- No page is left for `allocPage`. -/
def OutOfPages (m : Machine) : Prop := ∀ p, 512 ≤ p → m.pmm.isFree p = false

/-- The byte at `pos` is in a block on the disk that can be read. -/
def Readable (disk : Disk) (inode : Inode) (pos : Nat) : Prop :=
  ∃ b data, inode.getFileBlock (pos / disk.blockSize % 2 ^ 32) = some b ∧ disk.readBlock b = some data

/-- The byte at `pos` is in a block that cannot be read. -/
def Unreadable (disk : Disk) (inode : Inode) (pos : Nat) : Prop :=
  ∃ b, inode.getFileBlock (pos / disk.blockSize % 2 ^ 32) = some b ∧ disk.readBlock b = none

/-- Between `offset` and `last` a read meets no readable block, or an unreadable one first. -/
def NothingToCache (disk : Disk) (inode : Inode) (offset last : Nat) : Prop :=
  ∀ pos, offset ≤ pos → pos < last → Readable disk inode pos →
    ∃ pos', offset ≤ pos' ∧ pos' < pos ∧ Unreadable disk inode pos'

def Quiet (m : Machine) : Call → Prop
  | .read disk inode offset count =>
    OutOfPages m ∨ NothingToCache disk inode offset (min (offset + count) inode.size)
  | _ => True

def AllQuiet : Machine → List Call → Prop
  | _, [] => True
  | m, c :: cs => Quiet m c ∧ AllQuiet (c.exec m) cs

/-- The file systems that are read have blocks of at least one byte. -/
def Call.Sized : Call → Prop
  | .read disk _ _ _ => 0 < disk.blockSize
  | _ => True

/-! ## One block -/

section Block
variable {disk : Disk} {inode : Inode} {m : Machine}

def Leaks (m : Machine) : Prop := ∃ e ∈ m.cache, m.pmm.refCounts e.frame = 2

theorem Leaks.not_reclaimable (h : Leaks m) : ¬ Reclaimable m := by
  obtain ⟨e, he, hr⟩ := h
  intro hm
  have := hm.one e he
  omega

theorem reclaimable_of_empty (h : m.cache = []) : Reclaimable m := by
  refine ⟨?_, ?_, ?_⟩ <;> simp [h]

theorem outOfPages_iff (hi : Pmm.Inv m.pmm) : OutOfPages m ↔ (Pmm.allocPageInner m.pmm).1 = none := by
  have hf := Pmm.allocPageInner_finds hi
  constructor
  · intro h
    cases hr : (Pmm.allocPageInner m.pmm).1 with
    | none => rfl
    | some a =>
      rw [hr] at hf
      obtain ⟨p, _, hp, hfree⟩ := hf
      rw [h p hp] at hfree
      cases hfree
  · intro h p hp
    rw [h] at hf
    exact Bool.not_eq_true _ ▸ fun hfree => hf p ⟨hp, hfree⟩

theorem evictPageCacheAction_empty (hc : m.cache = []) : m.evictPageCacheAction = (⟨[], false⟩, []) := by
  unfold Machine.evictPageCacheAction
  rw [hc]
  rfl

theorem allocPage_outOfPages (hi : Pmm.Inv m.pmm) (hc : m.cache = []) (ho : OutOfPages m) :
    m.allocPage = (none, m) := by
  have hnone := (outOfPages_iff hi).1 ho
  have hinner : Pmm.allocPageInner m.pmm = (none, m.pmm) := by
    rcases Pmm.allocPageInner_cases m.pmm with h | ⟨p, h, -⟩
    · exact h
    · rw [h] at hnone
      cases hnone
  have halloc : Pmm.allocPage m.pmm ⟨[], false⟩ = (none, m.pmm) := by
    rw [Pmm.allocPage, hinner]
    rfl
  obtain ⟨pmm, mem, cache⟩ := m
  subst hc
  unfold Machine.allocPage
  rw [evictPageCacheAction_empty rfl]
  dsimp only at *
  rw [halloc, hinner]
  rfl

/-- With a page left, a block that is read leaves an entry whose frame has two references. -/
theorem cacheBlock_leaks (hi : Pmm.Inv m.pmm) (hc : m.cache = []) (ho : ¬ OutOfPages m) (ino fileBlock : Nat)
    (data : Nat → BitVec 8) : Leaks (cacheBlock disk ino fileBlock data m) := by
  rw [outOfPages_iff hi] at ho
  rcases Pmm.allocPageInner_cases m.pmm with h | ⟨p, h, hfree, hmin⟩
  · rw [h] at ho
    exact absurd rfl ho
  have halloc : Pmm.allocPage m.pmm ⟨[], false⟩ = Pmm.takeAt m.pmm p := by
    rw [Pmm.allocPage, h]
    rfl
  have hsome : m.allocPage = (some p, { m with pmm := (Pmm.takeAt m.pmm p).2 }) := by
    unfold Machine.allocPage
    rw [evictPageCacheAction_empty hc]
    dsimp only
    rw [halloc, h]
    simp [Pmm.takeAt, Pmm.mul_div_pageSize]
  unfold cacheBlock
  rw [hsome]
  dsimp only
  obtain ⟨c, hstore⟩ := Fault.storeBytes_eq { m with pmm := (Pmm.takeAt m.pmm p).2 } p 0
    ((List.range disk.blockSize).map data)
  have hmin' : 0 < p := Nat.lt_of_lt_of_le (by decide) hmin
  have hlt : p < (Pmm.takeAt m.pmm p).2.totalPages := hi.free_lt p hfree
  have hone : (Pmm.takeAt m.pmm p).2.refCounts p = 1 := by
    change (m.pmm.take p).refCounts p = 1
    rw [Pmm.refCounts_take, if_pos rfl]
  have htwo := Pmm.refCounts_incRef hlt hmin' p
  rw [hone, if_pos ⟨rfl, by decide⟩] at htwo
  rw [hstore]
  refine ⟨⟨ino, fileBlock, p, false⟩, ?_, ?_⟩
  · simp [Machine.insert, Machine.setPage, PageCache.insert, PageCache.lookup, hc, PageCache.maxCachedPages,
      Machine.incRef]
  · simpa [Machine.insert, Machine.setPage, PageCache.insert, PageCache.lookup, hc, PageCache.maxCachedPages,
      Machine.incRef] using htwo

/-! The three kinds of blocks. -/

theorem lookup_empty (hc : m.cache = []) (ino fileBlock : Nat) : m.lookup ino fileBlock = (none, m) := by
  obtain ⟨pmm, mem, cache⟩ := m
  subst hc
  rfl

variable {fileBlock off n b : Nat} {data : Nat → BitVec 8}

theorem readChunk_hole (hh : inode.getFileBlock fileBlock = none) :
    readChunk disk inode fileBlock off n m = (some (List.replicate n 0), m) := by
  rw [readChunk, hh]

theorem readChunk_unreadable (hc : m.cache = []) (hb : inode.getFileBlock fileBlock = some b)
    (hd : disk.readBlock b = none) : readChunk disk inode fileBlock off n m = (none, m) := by
  rw [readChunk, hb]
  dsimp only
  rw [lookup_empty hc]
  dsimp only
  rw [hd]

theorem readChunk_readable (hc : m.cache = []) (hb : inode.getFileBlock fileBlock = some b)
    (hd : disk.readBlock b = some data) : readChunk disk inode fileBlock off n m =
      (some ((List.range n).map fun i => data (off + i)), cacheBlock disk inode.ino fileBlock data m) := by
  rw [readChunk, hb]
  dsimp only
  rw [lookup_empty hc]
  dsimp only
  rw [hd]

end Block

/-! ## A whole read -/

section Read
variable {disk : Disk} {inode : Inode} {m : Machine}

theorem div_of_chunk {bs offset pos remaining : Nat} (hbs : 0 < bs) (h1 : offset ≤ pos)
    (h2 : pos < offset + min remaining (bs - offset % bs)) : pos / bs = offset / bs := by
  have hmod := Nat.mod_lt offset hbs
  have hdiv := Nat.div_add_mod offset bs
  refine Nat.div_eq_of_lt_le ?_ ?_
  · rw [Nat.mul_comm]
    omega
  · rw [Nat.succ_mul, Nat.mul_comm]
    omega

theorem nothingToCache_skip (last : Nat) {offset chunk : Nat}
    (hhole : ∀ pos, offset ≤ pos → pos < offset + chunk →
      inode.getFileBlock (pos / disk.blockSize % 2 ^ 32) = none) :
    NothingToCache disk inode offset last ↔ NothingToCache disk inode (offset + chunk) last := by
  have hin : ∀ pos b, offset ≤ pos → inode.getFileBlock (pos / disk.blockSize % 2 ^ 32) = some b →
      offset + chunk ≤ pos := fun pos b h1 hb => by
    by_contra hlt
    rw [hhole pos h1 (by omega)] at hb
    cases hb
  constructor
  · intro h pos h1 h2 hr
    obtain ⟨pos', h3, h4, b, hb, hd⟩ := h pos (by omega) h2 hr
    exact ⟨pos', hin pos' b h3 hb, h4, b, hb, hd⟩
  · intro h pos h1 h2 hr
    obtain ⟨b, data, hb, hd⟩ := hr
    obtain ⟨pos', h3, h4, hu⟩ := h pos (hin pos b h1 hb) h2 ⟨b, data, hb, hd⟩
    exact ⟨pos', by omega, h4, hu⟩

theorem readTrace_empty (inode : Inode) (hi : Pmm.Inv m.pmm) (hc : m.cache = []) (hbs : 0 < disk.blockSize) :
    ∀ fuel offset remaining, remaining ≤ fuel →
      ((OutOfPages m ∨ NothingToCache disk inode offset (offset + remaining)) →
        ∀ x ∈ readTrace disk inode fuel offset remaining m, x = m) ∧
      (¬ (OutOfPages m ∨ NothingToCache disk inode offset (offset + remaining)) →
        ∃ x ∈ readTrace disk inode fuel offset remaining m, Leaks x) := by
  intro fuel
  induction fuel with
  | zero =>
    intro offset remaining hle
    refine ⟨fun _ x hx => absurd hx List.not_mem_nil, fun hn => absurd (.inr fun pos h1 h2 => ?_) hn⟩
    omega
  | succ fuel ih =>
    intro offset remaining hle
    rw [readTrace]
    by_cases h0 : remaining = 0
    · rw [if_pos h0]
      refine ⟨fun _ x hx => absurd hx List.not_mem_nil, fun hn => absurd (.inr fun pos h1 h2 => ?_) hn⟩
      omega
    rw [if_neg h0]
    dsimp only
    have hmod := Nat.mod_lt offset hbs
    generalize hchunk : min remaining (disk.blockSize - offset % disk.blockSize) = chunk
    have hpos : 0 < chunk := by omega
    have hblock : ∀ pos, offset ≤ pos → pos < offset + chunk → pos / disk.blockSize = offset / disk.blockSize :=
      fun pos h1 h2 => div_of_chunk hbs h1 (hchunk ▸ h2)
    have hrest := ih (offset + chunk) (remaining - chunk) (by omega)
    have hlast : offset + chunk + (remaining - chunk) = offset + remaining := by omega
    rw [hlast] at hrest
    cases hg : inode.getFileBlock (offset / disk.blockSize % 2 ^ 32) with
    | none =>
      have hskip := nothingToCache_skip (offset + remaining) fun pos h1 h2 => by
        rw [hblock pos h1 h2]
        exact hg
      rw [readChunk_hole hg, hskip]
      dsimp only
      refine ⟨fun hq x hx => ?_, fun hn => ?_⟩
      · rcases List.mem_cons.1 hx with rfl | hx
        · rfl
        · exact hrest.1 hq x hx
      · obtain ⟨x, hx, hl⟩ := hrest.2 hn
        exact ⟨x, List.mem_cons_of_mem m hx, hl⟩
    | some b =>
      cases hd : disk.readBlock b with
      | none =>
        rw [readChunk_unreadable hc hg hd]
        refine ⟨fun _ x hx => List.mem_singleton.1 hx, fun hn => absurd (.inr fun pos h1 h2 hr => ?_) hn⟩
        -- the read stops at its first byte
        have hne : pos ≠ offset := by
          rintro rfl
          obtain ⟨b', data, hb', hd'⟩ := hr
          rw [hg] at hb'
          cases hb'
          rw [hd] at hd'
          cases hd'
        exact ⟨offset, Nat.le_refl _, by omega, b, hg, hd⟩
      | some data =>
        rw [readChunk_readable hc hg hd]
        dsimp only
        have hsome : ¬ NothingToCache disk inode offset (offset + remaining) := fun h => by
          obtain ⟨pos', h1, h2, -⟩ := h offset (Nat.le_refl _) (by omega) ⟨b, data, hg, hd⟩
          omega
        refine ⟨fun hq x hx => ?_, fun hn => ⟨_, List.mem_cons_self, ?_⟩⟩
        · have ho := hq.resolve_right hsome
          have hkeep : cacheBlock disk inode.ino (offset / disk.blockSize % 2 ^ 32) data m = m := by
            rw [cacheBlock, allocPage_outOfPages hi hc ho]
          rw [hkeep] at hx
          rcases List.mem_cons.1 hx with rfl | hx
          · rfl
          · exact hrest.1 (.inl ho) x hx
        · exact cacheBlock_leaks hi hc (fun ho => hn (.inl ho)) _ _ _

theorem getLastD_of_forall {l : List Machine} (h : ∀ x ∈ l, x = m) : l.getLastD m = m := by
  by_cases hl : l = []
  · rw [hl]
    rfl
  · rw [List.getLastD_eq_getLast?, List.getLast?_eq_some_getLast hl]
    exact h _ (List.getLast_mem hl)

theorem Call.trace_empty (c : Call) (hi : Pmm.Inv m.pmm) (hc : m.cache = []) (hs : c.Sized) :
    (Quiet m c → (∀ x ∈ c.trace m, x = m) ∧ c.exec m = m) ∧ (¬ Quiet m c → ∃ x ∈ c.trace m, Leaks x) := by
  have hempty : m = { m with cache := [] } := by rw [← hc]
  cases c with
  | read disk inode offset count =>
    have hread := readTrace_empty inode hi hc hs (min count (inode.size - offset)) offset
      (min count (inode.size - offset)) (Nat.le_refl _)
    simp only [Call.trace, Call.exec, Quiet, ext2ReadTrace, ext2Read]
    by_cases hoff : inode.size ≤ offset
    · rw [if_pos hoff, if_pos hoff]
      refine ⟨fun _ => ⟨fun x hx => absurd hx List.not_mem_nil, rfl⟩, fun hn => absurd (.inr fun pos h1 h2 => ?_) hn⟩
      omega
    · have hlast : min (offset + count) inode.size = offset + min count (inode.size - offset) := by omega
      rw [if_neg hoff, if_neg hoff, hlast]
      refine ⟨fun hq => ⟨hread.1 hq, ?_⟩, hread.2⟩
      rw [readLoop_trace]
      exact getLastD_of_forall (hread.1 hq)
  | recover =>
    have hrec : Ext2.recover m = m := by
      rw [Ext2.recover, evictPageCacheAction_empty hc]
      exact hempty.symm
    exact ⟨fun _ => ⟨fun x hx => (List.mem_singleton.1 hx).trans hrec, hrec⟩, fun hn => absurd trivial hn⟩
  | invalidatePage ino pageIndex =>
    have hinv : m.invalidatePage ino pageIndex = m := by
      rw [Machine.invalidatePage, hc]
      exact hempty.symm
    exact ⟨fun _ => ⟨fun x hx => (List.mem_singleton.1 hx).trans hinv, hinv⟩, fun hn => absurd trivial hn⟩

end Read

/-- **Cached frames are reclaimable exactly while nothing was cached.** In a run of reads and evictions from an empty
page cache every state reached, also between two blocks of a read, is `Reclaimable` if and only if every call is quiet
in the state in which it is made. -/
theorem cached_frames_reclaimable_iff {m : Machine} (hi : Pmm.Inv m.pmm) (hc : m.cache = []) {calls : List Call}
    (hs : ∀ c ∈ calls, c.Sized) : (∀ x ∈ states m calls, Reclaimable x) ↔ AllQuiet m calls := by
  induction calls with
  | nil => exact ⟨fun _ => trivial, fun _ x hx => List.mem_singleton.1 hx ▸ reclaimable_of_empty hc⟩
  | cons c cs ih =>
    have hstep := c.trace_empty hi hc (hs c List.mem_cons_self)
    have hrest := ih fun d hd => hs d (List.mem_cons_of_mem c hd)
    by_cases hq : Quiet m c
    · obtain ⟨htrace, hexec⟩ := hstep.1 hq
      rw [states, AllQuiet, hexec]
      constructor
      · exact fun h => ⟨hq, hrest.1 fun x hx => h x (List.mem_append_right _ hx)⟩
      · rintro ⟨-, h⟩ x hx
        rcases List.mem_append.1 hx with hx | hx
        · have hxm : x = m := by
            rcases List.mem_cons.1 hx with hx | hx
            · exact hx
            · exact htrace x hx
          exact hxm ▸ reclaimable_of_empty hc
        · exact hrest.2 h x hx
    · obtain ⟨x, hx, hl⟩ := hstep.2 hq
      refine ⟨fun h => absurd (h x ?_) hl.not_reclaimable, fun h => absurd h.1 hq⟩
      exact List.mem_append_left _ (List.mem_cons_of_mem m hx)

/-! ## One block -/

def oneBlockDisk : Disk where
  blockSize := 4096
  readBlock := fun b => if b = 7 then some fun _ => 0 else none

def oneByteFile : Inode where
  ino := 11
  size := 1
  getFileBlock := fun _ => some 7
  hasRead := true

def holeFile : Inode := { oneByteFile with getFileBlock := fun _ => none }

theorem cached_frames_reclaimable_hole : holeFile.getFileBlock 0 = none ∧
    ∀ x ∈ states .boot [.read oneBlockDisk holeFile 0 1, .recover], Reclaimable x := by
  refine ⟨rfl, (cached_frames_reclaimable_iff Space.boot_inv.pmm rfl fun c hc => ?_).2 ⟨.inr ?_, trivial, trivial⟩⟩
  · simp only [List.mem_cons, List.not_mem_nil, or_false] at hc
    rcases hc with rfl | rfl
    · exact show 0 < 4096 by decide
    · trivial
  · rintro pos - - ⟨b, data, hb, -⟩
    cases hb

/-- After one byte was read, the frame of its block has two references; the recovery empties the cache, and the frame
is still not free. -/
theorem read_leaks_frame :
    (∃ x ∈ states .boot [.read oneBlockDisk oneByteFile 0 1], ¬ Reclaimable x) ∧
      (recover ((Call.read oneBlockDisk oneByteFile 0 1).exec .boot)).cache.length = 0 ∧
      (recover ((Call.read oneBlockDisk oneByteFile 0 1).exec .boot)).pmm.isFree 512 = false := by
  have hnot : ¬ Quiet .boot (.read oneBlockDisk oneByteFile 0 1) := by
    rintro (ho | hn)
    · exact absurd (ho 512 (Nat.le_refl _)) (by decide)
    · obtain ⟨pos', -, hlt, -⟩ := hn 0 (Nat.le_refl _) Nat.one_pos ⟨7, fun _ => 0, rfl, rfl⟩
      omega
  obtain ⟨x, hx, hl⟩ := ((Call.read oneBlockDisk oneByteFile 0 1).trace_empty Space.boot_inv.pmm rfl
    (show 0 < 4096 by decide)).2 hnot
  refine ⟨⟨x, List.mem_append_left _ (List.mem_cons_of_mem _ hx), hl.not_reclaimable⟩, ?_, ?_⟩
  · decide +kernel
  · decide +kernel

end Zigix.Ext2
