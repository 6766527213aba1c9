import Zigix.Fs.Mballoc
import Zigix.Fs.FreeInodes

/-!
# Allocating blocks (`allocBlockContiguous` of `kernel/fs/ext2.zig`)

* `alloc_live` : what has changed when it returns a run;
* `alloc_fresh_iff` : the blocks that are returned were free exactly where blocks are numbered from 0 on.
-/

namespace Zigix.FreeBlocks

open Bytes BlockCache Mballoc
open Ext3 (InJournal JournalState)

variable {mnt : Mount} {v v' v'' : Nat → Buf} {s s' s'' : State} {b n start count goal : Nat} {buf : Buf} {bs : List Nat}

/-! ## `allocBlockContiguous` -/

/-- `count` is taken off a counter of `n` bytes. -/
def decrement (buf : Buf) (off n count : Nat) : Option Buf :=
  if count ≤ getLE buf off n then some (putLE buf off n (getLE buf off n - count)) else none

section Calls
variable (mnt : Mount)

def zeroed (buf : Buf) : Buf := fun i => if i < mnt.blockSize then 0 else buf i

def zeroBlocks : List Nat → State → Option (Bool × State)
  | [], s => some (true, s)
  | b :: bs, s => do
    let (p, s) ← readBlock mnt b s
    match p with
    | none => return (false, s)
    | some p =>
      let s := s.poke p (zeroed mnt (s.deref p))
      match ← writeBlock mnt b (s.deref p) s with
      | (false, s) => return (false, s)
      | (true, s) => zeroBlocks bs s

/-- The first block and `count_out`. The group is taken to start at block 0. -/
def allocBlockContiguous (count goal : Nat) (s : State) : Option (Option (Nat × Nat) × State) := do
  match ← readBlockGroup mnt 0 s with
  | (none, s) => return (none, s)
  | (some bgd, s) =>
    let bitmap := getLE bgd blockBitmap.bitmap 4
    match ← readBlock mnt bitmap s with
    | (none, s) => return (none, s)
    | (some p, s) =>
      match allocFromBitmap (s.deref p) mnt.blocksPerGroup ⟨count, goal, 1⟩ ⟨0, mnt.blocksPerGroup, 0⟩ with
      | none => return (none, s)
      | some (start, n, bmap) =>
        let s := s.poke p bmap
        let superblock ← decrement s.superblock blockBitmap.sbCount 4 n
        let bgd ← decrement bgd blockBitmap.bgdCount 2 (n % 2 ^ 16)
        match ← writeMetadata mnt bitmap p bgd { s with superblock } with
        | (false, s) => return (none, s)
        | (true, s) =>
          match ← zeroBlocks mnt ((List.range n).map (start % 2 ^ 32 + ·)) s with
          | (false, s) => return (none, s)
          | (true, s) => return (some (start % 2 ^ 32, n), s)

def allocBlock (s : State) : Option (Option Nat × State) :=
  (allocBlockContiguous mnt 1 20 s).map fun r => (r.1.map (·.1), r.2)

end Calls

/-! ## What it does -/

theorem zeroBlocks_live (hm : mnt.Smooth) (h : Live v s) (hlt : ∀ b ∈ bs, b < 2 ^ 32) :
    ∃ s' v', zeroBlocks mnt bs s = some (true, s') ∧ Live v' s' ∧ s'.superblock = s.superblock ∧
      (∀ b ∈ bs, ∀ i, i < mnt.blockSize → v' b i = 0) ∧ (∀ b, b ∉ bs → v' b = v b) ∧
      After (bs.map slot) 0 s s' := by
  induction bs generalizing v s with
  | nil => exact ⟨s, v, rfl, h, rfl, nofun, fun _ _ => rfl, .refl s⟩
  | cons b bs ih =>
    have hb := hlt b (List.mem_cons_self ..)
    obtain ⟨s₁, hread, h₁⟩ := readBlock_cached hm h.toHeld (by omega : b < 2 ^ 61)
    have hfew : s₁.cache.journalTxActive = true → s₁.cache.journal.handle.queued.length < Ext3.maxTxEntries := fun htx => by
      rw [h₁.tx, h.closed] at htx
      cases htx
    generalize hx : zeroed mnt (s₁.deref (slot b)) = x
    obtain ⟨s₂, hwrite, h₂⟩ := writeBlock_live hm h₁.held hb h₁.holds hfew x
    have hlive₂ : Live (Function.update v b x) s₂ := ⟨h₂.held, h₂.tx.trans (h₁.tx.trans h.closed)⟩
    obtain ⟨s₃, v₃, hzero, h₃, hsb₃, hzero₃, hother₃, hafter₃⟩ := ih hlive₂ fun b hb => hlt b (List.mem_cons_of_mem _ hb)
    refine ⟨s₃, v₃, ?_, h₃, hsb₃.trans (h₂.superblock.trans h₁.superblock), fun b' hb' i hi => ?_, fun b' hb' => ?_, ?_⟩
    · rw [zeroBlocks, hread]
      simp only [bind, Option.bind_some]
      rw [poke_deref, writeBlock_poke hm, hx, hwrite]
      simp only [Option.bind_some]
      exact hzero
    · by_cases hin : b' ∈ bs
      · exact hzero₃ b' hin i hi
      · obtain rfl := (List.mem_cons.1 hb').resolve_right hin
        rw [hother₃ b' hin, Function.update_self, ← hx]
        exact if_pos hi
    · rw [List.mem_cons, not_or] at hb'
      rw [hother₃ b' hb'.2, Function.update_of_ne hb'.1]
    · exact ((h₁.after.trans h₂.after).trans hafter₃).mono (by simp) (by omega)

structure Allocated (mnt : Mount) (count start n : Nat) (v v' : Nat → Buf) (s s' : State) : Prop where
  live : Live v' s'
  run : ZeroRun (v (bitmapOf mnt v blockBitmap 0)) mnt.blocksPerGroup start n
  le : n ≤ count
  least : n = count ∨ 1 ≤ n
  total : n ≤ getLE s.superblock 12 4
  superblock : s'.superblock = putLE s.superblock 12 4 (getLE s.superblock 12 4 - n)
  group : n ≤ getLE (v (bgdtBlock mnt)) 12 2
  zero : ∀ b, start ≤ b → b < start + n → ∀ i, i < mnt.blockSize → v' b i = 0
  others : ∀ b, ¬ (start ≤ b ∧ b < start + n) →
    v' b = recorded mnt v (bitmapOf mnt v blockBitmap 0) (setRange (v (bitmapOf mnt v blockBitmap 0)) start n)
      s'.superblock (putLE (v (bgdtBlock mnt)) 12 2 (getLE (v (bgdtBlock mnt)) 12 2 - n)) b
  journal : Onward 1 s.cache.journal.state s'.cache.journal.state

theorem decrement_some {off k : Nat} {buf' : Buf} (h : decrement buf off n k = some buf') :
    k ≤ getLE buf off n ∧ buf' = putLE buf off n (getLE buf off n - k) := by
  unfold decrement at h
  split at h
  · next hle => exact ⟨hle, (Option.some.inj h).symm⟩
  · cases h

theorem alloc_live (hr : WellMounted mnt s) (hroom : Room 1 s.cache.journal.state)
    (h : allocBlockContiguous mnt count goal s = some (some (start, n), s')) :
    ∃ v', Allocated mnt count start n s.cache.view v' s s' := by
  have hsize := hr.size
  have hgroups := hr.groups
  unfold maxBlockSize at hsize
  obtain ⟨s₁, s₂, hgroup, hread, h₂, hroom₂, hp₂, hholds, hdata, hsuper, hafter⟩ :=
    readBitmap_live hr.smooth hr.live hroom (hr.layout.placed mem_block)
  unfold allocBlockContiguous at h
  rw [hgroup] at h
  simp only [bind, Option.bind_some] at h
  rw [← bitmapOf_zero, hread] at h
  simp only [Option.bind_some] at h
  rw [hdata] at h
  cases halloc : allocFromBitmap (s.cache.view (bitmapOf mnt s.cache.view blockBitmap 0)) mnt.blocksPerGroup
      ⟨count, goal, 1⟩ ⟨0, mnt.blocksPerGroup, 0⟩ with
  | none =>
    rw [halloc] at h
    cases Option.some.inj h
  | some r =>
    obtain ⟨first, k, bmap⟩ := r
    rw [halloc] at h
    dsimp only at h
    obtain ⟨bit, hfirst, hrun, hbmap, hle, hmin⟩ := allocFromBitmap_spec halloc
    have hstart : (⟨0, mnt.blocksPerGroup, 0⟩ : BlockGroupState).startBlock = 0 := by
      show 0 + 0 * mnt.blocksPerGroup = 0
      omega
    rw [hstart, Nat.zero_add] at hfirst
    subst hfirst
    have hend := hrun.1
    have hfirst : first % 2 ^ 32 = first := Nat.mod_eq_of_lt (by omega)
    have hk : k % 2 ^ 16 = k := Nat.mod_eq_of_lt (by omega)
    rw [hfirst, hk] at h
    obtain ⟨sb, hsb, h⟩ := Option.bind_eq_some_iff.1 h
    obtain ⟨bgd, hbgd, h⟩ := Option.bind_eq_some_iff.1 h
    obtain ⟨htotal, hsb⟩ := decrement_some hsb
    obtain ⟨hgd, hbgd⟩ := decrement_some hbgd
    have hsuper' : (s₂.poke (slot (bitmapOf mnt s.cache.view blockBitmap 0)) bmap).superblock = s.superblock := hsuper
    rw [hsuper'] at htotal hsb
    have ht : Live s.cache.view { s₂ with superblock := sb } := ⟨⟨h₂.coherent, h₂.queued⟩, h₂.closed⟩
    obtain ⟨s₃, hmeta, h₃, hsb₃, hafter₃⟩ := writeMetadata_live hr.smooth ht hroom₂ hp₂ hholds bmap bgd
    have hstate : ({ s₂.poke (slot (bitmapOf mnt s.cache.view blockBitmap 0)) bmap with superblock := sb } : State) =
        { s₂ with superblock := sb }.poke (slot (bitmapOf mnt s.cache.view blockBitmap 0)) bmap := rfl
    rw [hstate, hmeta] at h
    simp only [Option.bind_some] at h
    have hrange : ∀ b ∈ (List.range k).map (first + ·), b < 2 ^ 32 := fun b hb => by
      obtain ⟨i, hi, rfl⟩ := List.mem_map.1 hb
      rw [List.mem_range] at hi
      omega
    obtain ⟨s₄, v₄, hzero, h₄, hsb₄, hzero₄, hother₄, hafter₄⟩ := zeroBlocks_live hr.smooth h₃ hrange
    rw [hzero] at h
    simp only [Option.bind_some] at h
    obtain ⟨hpair, rfl⟩ := Prod.mk.inj (Option.some.inj h)
    obtain ⟨rfl, rfl⟩ := Prod.mk.inj (Option.some.inj hpair)
    have hmem : ∀ b, b ∈ (List.range k).map (first + ·) ↔ first ≤ b ∧ b < first + k := fun b => by
      simp only [List.mem_map, List.mem_range]
      constructor
      · rintro ⟨i, hi, rfl⟩
        omega
      · exact fun hb => ⟨b - first, by omega, by omega⟩
    have hfinal : s₄.superblock = sb := hsb₄.trans hsb₃
    refine ⟨v₄, h₄, hrun, hle, hmin, htotal, hfinal.trans hsb, hgd, fun b hb hb' => hzero₄ b ((hmem b).2 ⟨hb, hb'⟩),
      fun b hb => ?_, ?_⟩
    · rw [hother₄ b fun hin => hb ((hmem b).1 hin), hfinal, ← hbmap]
      exact congrArg (fun bgd => recorded mnt _ _ bmap sb bgd b) hbgd
    · have hafter₂₃ : After _ _ s s₃ := hafter.trans ⟨hafter₃.slots, hafter₃.journal⟩
      exact (hafter₂₃.trans hafter₄).journal

/-! ## Freshness -/

/-- The blocks `start, …, start + n - 1` were free and are marked, nothing else is, the counters follow, and what was in
use before is as it was. -/
structure Fresh (mnt : Mount) (start n : Nat) (v v' : Nat → Buf) (sb sb' : Buf) (st : JournalState) : Prop where
  free : ∀ b, start ≤ b → b < start + n → mnt.firstDataBlock ≤ b ∧ groupOf mnt b = 0 ∧
    blockInUse mnt v b = false ∧ blockInUse mnt v' b = true
  others : ∀ b, mnt.firstDataBlock ≤ b → groupOf mnt b < mnt.numGroups → ¬ (start ≤ b ∧ b < start + n) →
    blockInUse mnt v' b = blockInUse mnt v b
  total : freeBlocksCount sb' + n = freeBlocksCount sb
  groups : ∀ g, g < mnt.numGroups → groupFree mnt v' g + (if g = 0 then n else 0) = groupFree mnt v g
  desc : ∀ i, i < 12 ∨ 14 ≤ i → v' (bgdtBlock mnt) i = v (bgdtBlock mnt) i
  superblock : v' (sbBlock mnt) = blit (v (sbBlock mnt)) (sbOffset mnt) sb' superblockSize
  kept : ∀ b, mnt.firstDataBlock ≤ b → groupOf mnt b < mnt.numGroups → blockInUse mnt v b = true →
    b ∉ metaBlocks mnt v blockBitmap → ¬ InJournal st b → v' b = v b

def Metadata (mnt : Mount) (v : Nat → Buf) (b : Nat) : Prop :=
  b = sbBlock mnt ∨ ∃ g, g < mnt.numGroups ∧ (b = descBlock mnt g ∨ ∃ kind ∈ kinds, b = bitmapOf mnt v kind g)

def MetadataInUse (mnt : Mount) (v : Nat → Buf) : Prop :=
  ∀ b, Metadata mnt v b → mnt.firstDataBlock ≤ b → blockInUse mnt v b = true

theorem testBit_of_zero {bit : Nat} (h : buf (bit / 8) = 0) : testBit buf bit = false := by
  unfold testBit
  rw [h]
  exact BitVec.getLsbD_zero

theorem Allocated.view (h : Allocated mnt count start n s.cache.view v' s s')
    (hb : ¬ InJournal s.cache.journal.state b) : s'.cache.view b = v' b :=
  h.live.coherent.view b fun hin => hb (h.journal.inJournal.1 hin)

theorem Allocated.apart (h : Allocated mnt count start n s.cache.view v' s s') (hcase : mnt.firstDataBlock = 0 ∨ n = 0)
    (hb : blockInUse mnt s.cache.view b = true) : ¬ (start ≤ b ∧ b < start + n) := by
  rintro ⟨hle, hlt⟩
  have hend := h.run.1
  have hfirst : mnt.firstDataBlock = 0 := hcase.resolve_right (by omega)
  unfold blockInUse groupOf at hb
  rw [hfirst, Nat.sub_zero, Nat.div_eq_of_lt (by omega), Nat.mod_eq_of_lt (by omega), h.run.2 b hle hlt] at hb
  cases hb

theorem Allocated.metadata (h : Allocated mnt count start n s.cache.view v' s s')
    (hused : MetadataInUse mnt s.cache.view) (hcase : mnt.firstDataBlock = 0 ∨ n = 0)
    (hb : Metadata mnt s.cache.view b) : ¬ (start ≤ b ∧ b < start + n) := fun hin => by
  have hfirst : mnt.firstDataBlock = 0 := hcase.resolve_right (by omega)
  exact h.apart hcase (hused b hb (hfirst ▸ Nat.zero_le _)) hin

section Fresh
variable (hr : WellMounted mnt s) (h : Allocated mnt count start n s.cache.view v' s s')
include hr h

theorem Allocated.zeroBit (hb : ¬ InJournal s.cache.journal.state b) (hle : start ≤ b) (hlt : b < start + n) {bit : Nat}
    (hbit : bit < mnt.blocksPerGroup) : testBit (s'.cache.view b) bit = false := by
  have := hr.groups
  rw [h.view hb]
  exact testBit_of_zero (h.zero b hle hlt _ (by omega))

theorem Allocated.not_fresh (hpos : 0 < n) (hfirst : mnt.firstDataBlock ≠ 0) :
    ¬ Fresh mnt start n s.cache.view s'.cache.view s.superblock s'.superblock s.cache.journal.state := by
  intro hf
  obtain ⟨hle, hgroup, hfree, hused⟩ := hf.free start le_rfl (by omega)
  obtain ⟨-, hbm, -⟩ := hr.layout.bitmap 0 hr.layout.groups blockBitmap mem_block
  have hsame : bitmapOf mnt s'.cache.view blockBitmap 0 = bitmapOf mnt s.cache.view blockBitmap 0 := by
    rw [bitmapOf_zero, bitmapOf_zero]
    exact getLE_congr fun k _ => hf.desc _ (.inl (by rw [blockBitmap_bitmap]; omega))
  unfold blockInUse at hfree hused
  rw [hgroup] at hfree hused
  rw [hsame] at hused
  have hrun := h.run
  have hlt : start - mnt.firstDataBlock < mnt.blocksPerGroup := by
    have := hrun.1
    omega
  rw [Nat.mod_eq_of_lt hlt] at hfree hused
  by_cases hin : start ≤ bitmapOf mnt s.cache.view blockBitmap 0 ∧ bitmapOf mnt s.cache.view blockBitmap 0 < start + n
  · rw [h.zeroBit hr hbm hin.1 hin.2 hlt] at hused
    cases hused
  · rw [h.view hbm, h.others _ hin, recorded_bitmap (hr.layout.placed mem_block), testBit_setRange, hfree,
      Bool.false_or, decide_eq_true_eq] at hused
    omega

/-- **Where blocks are numbered from 0 on** the run is fresh, and an empty one always. -/
theorem Allocated.fresh (hused : MetadataInUse mnt s.cache.view) (hcase : mnt.firstDataBlock = 0 ∨ n = 0) :
    Fresh mnt start n s.cache.view s'.cache.view s.superblock s'.superblock s.cache.journal.state := by
  have hl := hr.layout
  have hplaced := hl.placed mem_block
  have htotal := h.total
  have hgroup := h.group
  generalize hw : recorded mnt s.cache.view (bitmapOf mnt s.cache.view blockBitmap 0)
    (setRange (s.cache.view (bitmapOf mnt s.cache.view blockBitmap 0)) start n) s'.superblock
    (putLE (s.cache.view (bgdtBlock mnt)) 12 2 (getLE (s.cache.view (bgdtBlock mnt)) 12 2 - n)) = w
  have hbgdt : w (bgdtBlock mnt) =
      putLE (s.cache.view (bgdtBlock mnt)) 12 2 (getLE (s.cache.view (bgdtBlock mnt)) 12 2 - n) := by
    rw [← hw, recorded_bgdt hplaced]
    exact blit_putLE _ _ (by decide)
  have hbitmap : w (bitmapOf mnt s.cache.view blockBitmap 0) =
      setRange (s.cache.view (bitmapOf mnt s.cache.view blockBitmap 0)) start n := by
    rw [← hw, recorded_bitmap hplaced]
  have hchanged : Changed mnt blockBitmap s.cache.view w :=
    ⟨fun i hi => by rw [hbgdt]; exact putLE_of_notMem (by omega), fun b hb => by rw [← hw]; exact recorded_others _ _ hb⟩
  have hdescs := hchanged.descs hl mem_block
  -- what is read of the metadata is what was recorded
  have hview : ∀ b, Metadata mnt s.cache.view b → ¬ InJournal s.cache.journal.state b → s'.cache.view b = w b :=
    fun b hb hj => by rw [h.view hj, h.others b (h.metadata hused hcase hb), hw]
  have hdesc : ∀ g, g < mnt.numGroups → s'.cache.view (descBlock mnt g) = w (descBlock mnt g) := fun g hg =>
    hview _ (.inr ⟨g, hg, .inl rfl⟩) (hl.desc g hg).2
  have hbm : ∀ g, g < mnt.numGroups → ∀ kind ∈ kinds,
      s'.cache.view (bitmapOf mnt s.cache.view kind g) = w (bitmapOf mnt s.cache.view kind g) := fun g hg kind hk =>
    hview _ (.inr ⟨g, hg, .inr ⟨kind, hk, rfl⟩⟩) (hl.bitmap g hg kind hk).2.1
  have hof : ∀ g, g < mnt.numGroups → bitmapOf mnt s'.cache.view blockBitmap g = bitmapOf mnt s.cache.view blockBitmap g :=
    fun g hg => by
      rw [← hdescs.bitmapOf hg mem_block]
      unfold FreeBlocks.bitmapOf
      rw [hdesc g hg]
  have huse : ∀ b, groupOf mnt b < mnt.numGroups → blockInUse mnt s'.cache.view b =
      (blockInUse mnt s.cache.view b || decide (start ≤ b ∧ b < start + n)) := fun b hg => by
    have hend := h.run.1
    unfold blockInUse
    rw [hof _ hg, hbm _ hg _ mem_block]
    by_cases hg0 : groupOf mnt b = 0
    · rw [hg0, hbitmap, testBit_setRange]
      congr 1
      refine decide_eq_decide.2 ?_
      rcases hcase with hfirst | hn
      · rcases Nat.div_eq_zero_iff.1 (show (b - mnt.firstDataBlock) / mnt.blocksPerGroup = 0 from hg0) with hz | hlt
        · rw [hz, Nat.mod_zero, hfirst, Nat.sub_zero]
        · rw [Nat.mod_eq_of_lt hlt, hfirst, Nat.sub_zero]
      · omega
    · have hno : ¬ (start ≤ b ∧ b < start + n) := fun hin => hg0 (by
        have hfirst : mnt.firstDataBlock = 0 := hcase.resolve_right (by omega)
        unfold groupOf
        rw [hfirst, Nat.sub_zero, Nat.div_eq_of_lt (by omega)])
      rw [hchanged.bitmaps hl mem_block mem_block hg fun hn => hg0 hn.1, decide_eq_false hno, Bool.or_false]
  refine ⟨fun b hle hlt => ?_, fun b _ hg hno => ?_, ?_, fun g hg => ?_, fun i hi => ?_, ?_, fun b _ hg hb hm hj => ?_⟩
  · have hend := h.run.1
    have hfirst : mnt.firstDataBlock = 0 := hcase.resolve_right (by omega)
    have hg0 : groupOf mnt b = 0 := by
      unfold groupOf
      rw [hfirst, Nat.sub_zero, Nat.div_eq_of_lt (by omega)]
    refine ⟨by omega, hg0, ?_, ?_⟩
    · rw [← Bool.not_eq_true]
      exact fun hb => h.apart hcase hb ⟨hle, hlt⟩
    · rw [huse b (hg0 ▸ hl.groups), decide_eq_true (And.intro hle hlt), Bool.or_true]
  · rw [huse b hg, decide_eq_false hno, Bool.or_false]
  · have hlt : getLE s.superblock 12 4 - n < 256 ^ 4 := lt_of_le_of_lt (Nat.sub_le ..) (getLE_lt s.superblock 12 4)
    unfold freeBlocksCount
    rw [h.superblock, getLE_putLE, Nat.mod_eq_of_lt hlt]
    omega
  · unfold groupFree
    rw [hdesc g hg]
    by_cases hg0 : g = 0
    · subst hg0
      have hlt : getLE (s.cache.view (bgdtBlock mnt)) 12 2 - n < 256 ^ 2 :=
        lt_of_le_of_lt (Nat.sub_le ..) (getLE_lt (s.cache.view (bgdtBlock mnt)) 12 2)
      rw [if_pos rfl, descBlock_zero, descOffset_zero, Nat.zero_add, hbgdt, getLE_putLE, Nat.mod_eq_of_lt hlt]
      omega
    · rw [if_neg hg0, hdescs.getLE hg fun h0 => absurd h0 hg0]
      exact Nat.add_zero _
  · rw [← descBlock_zero, hdesc 0 hl.groups, descBlock_zero, hbgdt]
    exact putLE_of_notMem hi
  · rw [hview _ (.inl rfl) hl.sb, ← hw, recorded_superblock hplaced]
  · rw [h.view hj, h.others b (h.apart hcase hb), hw]
    exact hchanged.others b hm

end Fresh

/-- **Allocated blocks are fresh** exactly where block 0 is the first of group 0, or none is asked for: elsewhere bit `i`
stands for another block than the one that is handed out and zeroed. -/
theorem alloc_fresh_iff (hr : WellMounted mnt s) (hused : MetadataInUse mnt s.cache.view)
    (hroom : Room 1 s.cache.journal.state) (h : allocBlockContiguous mnt count goal s = some (some (start, n), s')) :
    Fresh mnt start n s.cache.view s'.cache.view s.superblock s'.superblock s.cache.journal.state ↔
      mnt.firstDataBlock = 0 ∨ count = 0 := by
  obtain ⟨v', ha⟩ := alloc_live hr hroom h
  constructor
  · intro hf
    by_contra hn
    rw [not_or] at hn
    have := ha.least
    exact ha.not_fresh hr (by omega) hn.1 hf
  · intro hcase
    have := ha.le
    exact ha.fresh hr hused (hcase.imp_right fun hc => by omega)

/-! ### Two block sizes -/

section Small

/-- Bitmaps in blocks 3 and 4, and blocks in use up to bit 29. -/
def allocDisk (bgdt : Nat) : Nat → Buf := fun b =>
  if b = bgdt then bytesAt Ext3.zeros [(0, 3), (4, 4), (8, 5), (12, 100), (14, 20)]
  else if b = 3 then bytesAt Ext3.zeros [(0, 255), (1, 255), (2, 255), (3, 63)]
  else Ext3.zeros

def allocMount (blockSize firstDataBlock : Nat) : Mount :=
  { smallMount with blockSize, firstDataBlock, blocksPerGroup := 8 * blockSize }

def allocState (bgdt : Nat) : State :=
  { smallState with cache := { smallState.cache with journal := { smallState.cache.journal with
      device := { blocks := allocDisk bgdt, log := [] } } } }

theorem allocState_view (bgdt b : Nat) : (allocState bgdt).cache.view b = allocDisk bgdt b := if_neg fun hh =>
  Bool.false_ne_true hh.1

theorem allocState_wellMounted {bs first bgdt : Nat} (hle : bs ≤ maxBlockSize) (hge : 32 ≤ 8 * bs)
    (hl : Layout (allocMount bs first) (allocDisk bgdt) (allocState bgdt).cache.journal.state) :
    WellMounted (allocMount bs first) (allocState bgdt) where
  smooth := ⟨fun _ => rfl, fun _ => rfl, fun _ => rfl⟩
  mounted := ⟨_, [], ⟨by show 8 ≤ 8; decide, fun _ _ => rfl, rfl, rfl, rfl⟩, .init⟩
  closed := rfl
  size := hle
  inodes := hge
  groups := le_rfl
  layout := by
    rw [funext (allocState_view bgdt)]
    exact hl

theorem alloc_fresh_iff_small : ∃ s', allocBlockContiguous (allocMount 4096 0) 1 20 (allocState 1) = some (some (30, 1), s') ∧
    Fresh (allocMount 4096 0) 30 1 (allocState 1).cache.view s'.cache.view (allocState 1).superblock s'.superblock
      (allocState 1).cache.journal.state := by
  have hwell : WellMounted (allocMount 4096 0) (allocState 1) := by
    refine allocState_wellMounted (by decide) (by decide) ⟨by decide, by decide, by decide, by decide, ?_, ?_, ?_⟩
    · decide +kernel
    · decide +kernel
    · decide +kernel
  have hused : MetadataInUse (allocMount 4096 0) (allocState 1).cache.view := by
    rw [funext (allocState_view 1)]
    rintro b (rfl | ⟨g, hg, rfl | ⟨kind, hk, rfl⟩⟩) -
    · decide +kernel
    · revert g
      decide +kernel
    · revert g kind
      decide +kernel
  have hrun : (allocBlockContiguous (allocMount 4096 0) 1 20 (allocState 1)).map (·.1) = some (some (30, 1)) := by
    decide +kernel
  obtain ⟨⟨r, s'⟩, hs', rfl⟩ := Option.map_eq_some_iff.1 hrun
  exact ⟨s', hs', (alloc_fresh_iff hwell hused (fun ha => absurd ha Bool.false_ne_true) hs').2 (.inl rfl)⟩

/-- **Blocks of 1 KiB**: bit 30 is free, so block 30 is handed out and zeroed, which bit 29 says is in use. -/
theorem alloc_hands_out_neighbour : ∃ s', WellMounted (allocMount 1024 1) (allocState 2) ∧
    MetadataInUse (allocMount 1024 1) (allocState 2).cache.view ∧
    allocBlockContiguous (allocMount 1024 1) 1 20 (allocState 2) = some (some (30, 1), s') ∧
    ¬ Fresh (allocMount 1024 1) 30 1 (allocState 2).cache.view s'.cache.view (allocState 2).superblock s'.superblock
      (allocState 2).cache.journal.state := by
  have hwell : WellMounted (allocMount 1024 1) (allocState 2) := by
    refine allocState_wellMounted (by decide) (by decide) ⟨by decide, by decide, by decide, by decide, ?_, ?_, ?_⟩
    · decide +kernel
    · decide +kernel
    · decide +kernel
  have hused : MetadataInUse (allocMount 1024 1) (allocState 2).cache.view := by
    rw [funext (allocState_view 2)]
    rintro b (rfl | ⟨g, hg, rfl | ⟨kind, hk, rfl⟩⟩) -
    · decide +kernel
    · revert g
      decide +kernel
    · revert g kind
      decide +kernel
  have hrun : (allocBlockContiguous (allocMount 1024 1) 1 20 (allocState 2)).map (·.1) = some (some (30, 1)) := by
    decide +kernel
  obtain ⟨⟨r, s'⟩, hs', rfl⟩ := Option.map_eq_some_iff.1 hrun
  refine ⟨s', hwell, hused, hs', fun hf => ?_⟩
  have hbit : blockInUse (allocMount 1024 1) (allocState 2).cache.view 30 = true := by
    rw [funext (allocState_view 2)]
    decide +kernel
  obtain ⟨-, -, hfree, -⟩ := hf.free 30 le_rfl (by decide)
  rw [hbit] at hfree
  cases hfree

end Small

end Zigix.FreeBlocks
