import Zigix.Fs.FreeWalk

/-!
# Frees that are exact

* `Exact` composes; the walk over a file's blocks, the write of its inode and the release of its number are each exact.
-/

namespace Zigix.FreeBlocks

open Bytes BlockCache
open Ext3 (InJournal JournalState)

variable {mnt : Mount} {v v' v'' : Nat → Buf} {s s' s'' : State} {st st' : JournalState} {b p n k ino g : Nat}
  {buf inode sb sb' sb'' : Buf} {T L bs bs' is is' : List Nat} {kind kind' : BitmapKind}

/-! ## Where the metadata is -/

def kinds : List BitmapKind := [blockBitmap, inodeBitmap]

structure Layout (mnt : Mount) (v : Nat → Buf) (st : JournalState) : Prop where
  large : 32 ≤ mnt.descSize
  fits : mnt.descSize ≤ mnt.blockSize
  groups : 0 < mnt.numGroups
  sb : ¬ InJournal st (sbBlock mnt)
  desc : ∀ g, g < mnt.numGroups → descBlock mnt g < 2 ^ 32 ∧ ¬ InJournal st (descBlock mnt g)
  bitmap : ∀ g, g < mnt.numGroups → ∀ kind ∈ kinds, bitmapOf mnt v kind g ≠ sbBlock mnt ∧
    ¬ InJournal st (bitmapOf mnt v kind g) ∧ ∀ g', g' < mnt.numGroups → bitmapOf mnt v kind g ≠ descBlock mnt g'
  apart : ∀ g, g < mnt.numGroups → ∀ g', g' < mnt.numGroups → ∀ kind ∈ kinds, ∀ kind' ∈ kinds,
    bitmapOf mnt v kind g = bitmapOf mnt v kind' g' → g = g' ∧ kind = kind'

def SameDescs (mnt : Mount) (v v' : Nat → Buf) : Prop :=
  ∀ g, g < mnt.numGroups → ∀ off, (g = 0 → off < 12 ∨ 16 ≤ off) →
    v' (descBlock mnt g) (descOffset mnt g + off) = v (descBlock mnt g) (descOffset mnt g + off)

theorem descBlock_ne_sbBlock : descBlock mnt g ≠ sbBlock mnt := by
  unfold descBlock bgdtBlock sbBlock
  generalize g / bgdPerBlock mnt = q
  split
  · omega
  · omega

theorem SameDescs.getLE (h : SameDescs mnt v v') (hg : g < mnt.numGroups) {off : Nat}
    (hzero : g = 0 → off + n ≤ 12 ∨ 16 ≤ off) :
    getLE (v' (descBlock mnt g)) (descOffset mnt g + off) n = Bytes.getLE (v (descBlock mnt g)) (descOffset mnt g + off) n :=
  getLE_congr fun i hi => by
    rw [Nat.add_assoc]
    refine h g hg _ fun h0 => ?_
    have := hzero h0
    omega

theorem kinds_bitmap (hk : kind ∈ kinds) : kind.bitmap + 4 ≤ 12 := by
  simp only [kinds, List.mem_cons, List.not_mem_nil, or_false] at hk
  rcases hk with rfl | rfl
  · decide
  · decide

theorem SameDescs.bitmapOf (h : SameDescs mnt v v') (hg : g < mnt.numGroups) (hk : kind ∈ kinds) :
    bitmapOf mnt v' kind g = bitmapOf mnt v kind g :=
  have := kinds_bitmap hk
  h.getLE hg fun _ => .inl (by omega)

theorem Layout.of_same (hl : Layout mnt v st) (h : SameDescs mnt v v') (hin : ∀ b, InJournal st' b ↔ InJournal st b) :
    Layout mnt v' st' where
  large := hl.large
  fits := hl.fits
  groups := hl.groups
  sb h := hl.sb ((hin _).1 h)
  desc g hg := ⟨(hl.desc g hg).1, fun h => (hl.desc g hg).2 ((hin _).1 h)⟩
  bitmap g hg kind hk := by
    rw [h.bitmapOf hg hk]
    obtain ⟨hsb, hout, hdesc⟩ := hl.bitmap g hg kind hk
    exact ⟨hsb, fun h => hout ((hin _).1 h), hdesc⟩
  apart g hg g' hg' kind hk kind' hk' heq := by
    rw [h.bitmapOf hg hk, h.bitmapOf hg' hk'] at heq
    exact hl.apart g hg g' hg' kind hk kind' hk' heq

theorem Layout.descOffset_le (hl : Layout mnt v st) (hg : g ≠ 0) (heq : descBlock mnt g = bgdtBlock mnt) :
    32 ≤ descOffset mnt g := by
  have hpos : 0 < bgdPerBlock mnt := Nat.div_pos hl.fits (by have := hl.large; omega)
  have hdiv : g / bgdPerBlock mnt = 0 := by
    unfold descBlock at heq
    omega
  have hlt : g < bgdPerBlock mnt := by
    rcases Nat.div_eq_zero_iff.1 hdiv with h | h
    · omega
    · exact h
  unfold descOffset
  rw [Nat.mod_eq_of_lt hlt]
  calc 32 ≤ 1 * mnt.descSize := by rw [Nat.one_mul]; exact hl.large
    _ ≤ g * mnt.descSize := Nat.mul_le_mul_right _ (by omega)

theorem Layout.placed (hl : Layout mnt v st) (hk : kind ∈ kinds) : Placed mnt v kind st := by
  obtain ⟨hsb, hout, hdesc⟩ := hl.bitmap 0 hl.groups kind hk
  have hbgdt := hdesc 0 hl.groups
  rw [descBlock_zero] at hbgdt
  refine ⟨hsb, hbgdt, fun b hb => ?_⟩
  simp only [metaBlocks, List.mem_cons, List.not_mem_nil, or_false] at hb
  rcases hb with rfl | rfl | rfl
  · exact hout
  · exact hl.sb
  · rw [← descBlock_zero]
    exact (hl.desc 0 hl.groups).2

structure Changed (mnt : Mount) (kind : BitmapKind) (v v' : Nat → Buf) : Prop where
  bgdt : ∀ i, i < 12 ∨ 16 ≤ i → v' (bgdtBlock mnt) i = v (bgdtBlock mnt) i
  others : ∀ b, b ∉ metaBlocks mnt v kind → v' b = v b

theorem Changed.descs (h : Changed mnt kind v v') (hl : Layout mnt v st) (hk : kind ∈ kinds) : SameDescs mnt v v' :=
  fun g hg off hoff => by
    by_cases heq : descBlock mnt g = bgdtBlock mnt
    · rw [heq]
      by_cases hg0 : g = 0
      · subst hg0
        rw [descOffset_zero, Nat.zero_add]
        exact h.bgdt _ (hoff rfl)
      · have := hl.descOffset_le hg0 heq
        exact h.bgdt _ (.inr (by omega))
    · rw [h.others]
      simp only [metaBlocks, List.mem_cons, List.not_mem_nil, or_false, not_or]
      exact ⟨fun hb => (hl.bitmap 0 hl.groups kind hk).2.2 g hg hb.symm, descBlock_ne_sbBlock, heq⟩

theorem Changed.bitmaps (h : Changed mnt kind v v') (hl : Layout mnt v st) (hk : kind ∈ kinds) (hk' : kind' ∈ kinds)
    (hg : g < mnt.numGroups) (hne : ¬ (g = 0 ∧ kind' = kind)) :
    v' (bitmapOf mnt v kind' g) = v (bitmapOf mnt v kind' g) := by
  obtain ⟨hsb, -, hdesc⟩ := hl.bitmap g hg kind' hk'
  refine h.others _ ?_
  simp only [metaBlocks, List.mem_cons, List.not_mem_nil, or_false, not_or]
  refine ⟨fun heq => hne ?_, hsb, ?_⟩
  · exact hl.apart g hg 0 hl.groups kind' hk' kind hk heq
  · rw [← descBlock_zero]
    exact hdesc 0 hl.groups

structure WellMounted (mnt : Mount) (s : State) : Prop where
  smooth : mnt.Smooth
  mounted : ∃ s₀ ops, Mounted s₀ ∧ Run Lossless s₀ ops s.cache
  closed : s.cache.journalTxActive = false
  size : mnt.blockSize ≤ maxBlockSize
  inodes : mnt.inodesPerGroup ≤ 8 * mnt.blockSize
  groups : mnt.blocksPerGroup ≤ 8 * mnt.blockSize
  layout : Layout mnt s.cache.view s.cache.journal.state

theorem WellMounted.live (h : WellMounted mnt s) : Live s.cache.view s := by
  obtain ⟨s₀, ops, h₀, hrun⟩ := h.mounted
  obtain ⟨hc, -⟩ := coherent_run h₀ hrun
  refine ⟨⟨⟨hc.small, hc.slots, hc.sectors, hc.clean, fun _ _ => rfl, hc.tx, hc.room, hc.pos⟩, fun ha => ?_⟩, h.closed⟩
  rw [← hc.tx, h.closed] at ha
  cases ha

/-! ## `Exact` composes -/

theorem Exact.trans (h : Exact mnt bs is v v' sb sb') (h' : Exact mnt bs' is' v' v'' sb' sb'') :
    Exact mnt (bs ++ bs') (is ++ is') v v'' sb sb'' where
  blocks b hfirst hg := by
    rw [h'.blocks b hfirst hg, h.blocks b hfirst hg, Bool.and_assoc, ← Bool.not_or]
    simp
  inodes i hpos hg := by
    rw [h'.inodes i hpos hg, h.inodes i hpos hg, Bool.and_assoc, ← Bool.not_or]
    simp
  total := by
    rw [h'.total, h.total, List.length_append]
    omega
  group g hg := by
    rw [h'.group g hg, h.group g hg, List.filter_append, List.length_append]
    omega

theorem mem_block : blockBitmap ∈ kinds := List.mem_cons_self ..

theorem mem_inode : inodeBitmap ∈ kinds := by simp [kinds]

theorem Exact.same (hsame : ∀ g, g < mnt.numGroups → v' (descBlock mnt g) = v (descBlock mnt g))
    (hbit : ∀ g, g < mnt.numGroups → ∀ kind ∈ kinds, v' (bitmapOf mnt v kind g) = v (bitmapOf mnt v kind g)) :
    Exact mnt [] [] v v' sb sb := by
  have hof : ∀ g, g < mnt.numGroups → ∀ kind, bitmapOf mnt v' kind g = bitmapOf mnt v kind g := fun g hg kind => by
    unfold FreeBlocks.bitmapOf
    rw [hsame g hg]
  refine ⟨fun b _ hg => ?_, fun i _ hg => ?_, (Nat.add_zero _).symm, fun g hg => ?_⟩
  · unfold blockInUse
    rw [hof _ hg, hbit _ hg _ mem_block]
    simp
  · unfold inodeInUse
    rw [hof _ hg, hbit _ hg _ mem_inode]
    simp
  · unfold groupFree
    rw [hsame g hg]
    exact (Nat.add_zero _).symm

def Apart (mnt : Mount) (v : Nat → Buf) (t : Nat) : Prop :=
  ∀ g, g < mnt.numGroups → t ≠ descBlock mnt g ∧ ∀ kind ∈ kinds, t ≠ bitmapOf mnt v kind g

theorem Exact.update {t : Nat} (ht : Apart mnt v t) (data : Buf) :
    Exact mnt [] [] v (Function.update v t data) sb sb :=
  .same (fun g hg => Function.update_of_ne (ht g hg).1.symm ..) fun g hg kind hk =>
    Function.update_of_ne ((ht g hg).2 kind hk).symm ..

theorem Exact.view (h : Exact mnt bs is v v' sb sb') (hs : Live v' s') (hl : Layout mnt v' s'.cache.journal.state) :
    Exact mnt bs is v s'.cache.view sb sb' := by
  have hsame : Exact mnt [] [] v' s'.cache.view sb' sb' :=
    .same (fun g hg => hs.coherent.view _ (hl.desc g hg).2) fun g hg kind hk =>
      hs.coherent.view _ (hl.bitmap g hg kind hk).2.1
  have := h.trans hsame
  rwa [List.append_nil, List.append_nil] at this

theorem Freed.changed (h : Freed mnt T L v v' s s') : Changed mnt blockBitmap v v' :=
  ⟨fun i hi => h.bgdt i (by omega), h.others⟩

/-- **The walk** over blocks of group 0. -/
theorem Freed.exact (h : Freed mnt T L v v' s s') (hl : Layout mnt v st) (hfirst : mnt.firstDataBlock = 0)
    (hgroup : ∀ b ∈ L, b < mnt.blocksPerGroup) : Exact mnt L [] v v' s.superblock s'.superblock := by
  have hdescs := h.changed.descs hl mem_block
  have hzero : ∀ b ∈ L, groupOf mnt b = 0 := fun b hb => by
    unfold groupOf
    rw [hfirst, Nat.sub_zero, Nat.div_eq_of_lt (hgroup b hb)]
  refine ⟨fun b _ hg => ?_, fun i _ hg => ?_, h.total, fun g hg => ?_⟩
  · unfold blockInUse
    rw [hdescs.bitmapOf hg mem_block]
    by_cases hg0 : groupOf mnt b = 0
    · rw [hg0, h.bits]
      have hiff : L.contains ((b - mnt.firstDataBlock) % mnt.blocksPerGroup) = L.contains b := by
        rcases Nat.div_eq_zero_iff.1 (show (b - mnt.firstDataBlock) / mnt.blocksPerGroup = 0 from hg0) with hz | hlt'
        · rw [hz, Nat.mod_zero, hfirst, Nat.sub_zero]
        · rw [Nat.mod_eq_of_lt hlt', hfirst, Nat.sub_zero]
      rw [hiff]
    · have hnot : L.contains b = false := by
        rw [List.contains_eq_mem, decide_eq_false_iff_not]
        exact fun hb => hg0 (hzero b hb)
      rw [h.changed.bitmaps hl mem_block mem_block hg fun hn => hg0 hn.1, hnot, Bool.not_false, Bool.and_true]
  · unfold inodeInUse
    rw [hdescs.bitmapOf hg mem_inode, h.changed.bitmaps hl mem_block mem_inode hg fun hn => by
      have := congrArg BitmapKind.bitmap hn.2
      revert this
      decide]
    simp
  · unfold groupFree
    by_cases hg0 : g = 0
    · subst hg0
      rw [descBlock_zero, descOffset_zero, Nat.zero_add, h.group, List.filter_eq_self.2 fun b hb => by
        rw [hzero b hb]
        rfl]
    · rw [hdescs.getLE hg fun h0 => absurd h0 hg0, List.filter_eq_nil_iff.2 fun b hb => by
        rw [hzero b hb]
        simpa using fun h0 => hg0 h0.symm]
      exact (Nat.add_zero _).symm

theorem Released.changed (h : Released mnt inodeBitmap n v v' s s') : Changed mnt inodeBitmap v v' where
  bgdt i hi := by
    rw [h.bgdt]
    exact putLE_of_notMem (show i < 14 ∨ 14 + 2 ≤ i by omega)
  others := h.others

/-- **One inode** of group 0. -/
theorem Released.exact (h : Released mnt inodeBitmap (ino - 1) v v' s s') (hl : Layout mnt v st) (hpos : 0 < ino)
    (hle : ino ≤ mnt.inodesPerGroup) (hsize : mnt.inodesPerGroup ≤ 8 * mnt.blockSize) :
    Exact mnt [] [ino] v v' s.superblock s'.superblock := by
  have hdescs := h.changed.descs hl mem_inode
  have hother : blockBitmap ≠ inodeBitmap := fun hn => by
    have := congrArg BitmapKind.bitmap hn
    revert this
    decide
  have hbyte : (ino - 1) / 8 < mnt.blockSize := by omega
  refine ⟨fun b _ hg => ?_, fun i hi hg => ?_, ?_, fun g hg => ?_⟩
  · unfold blockInUse
    rw [hdescs.bitmapOf hg mem_block, h.changed.bitmaps hl mem_inode mem_block hg fun hn => hother hn.2]
    simp
  · unfold inodeInUse
    rw [hdescs.bitmapOf hg mem_inode]
    have hdiv := Nat.div_add_mod (i - 1) mnt.inodesPerGroup
    by_cases hg0 : (i - 1) / mnt.inodesPerGroup = 0
    · rw [hg0, Nat.mul_zero, Nat.zero_add] at hdiv
      rw [hg0, h.bitmap, if_pos hbyte, testBit_clearBit, hdiv]
      have hbit : decide (i - 1 ≠ ino - 1) = !([ino].contains i) := by
        by_cases heq : i = ino
        · simp [heq]
        · have hne : i - 1 ≠ ino - 1 := by omega
          simp [heq, hne]
      rw [hbit]
    · have hne : i ≠ ino := fun he => hg0 (Nat.div_eq_of_lt (by omega))
      rw [h.changed.bitmaps hl mem_inode mem_inode hg fun hn => hg0 hn.1]
      simp [hne]
  · unfold freeBlocksCount
    refine Eq.trans ?_ (Nat.add_zero _).symm
    rw [h.superblock]
    exact getLE_putLE_of_disjoint (.inl (by decide))
  · unfold groupFree
    refine Eq.trans ?_ (Nat.add_zero _).symm
    by_cases hg0 : g = 0
    · subst hg0
      rw [descBlock_zero, descOffset_zero, Nat.zero_add, h.bgdt]
      exact getLE_putLE_of_disjoint (.inl (by decide))
    · exact hdescs.getLE hg fun h0 => absurd h0 hg0

/-! ## The inode table -/

def tableStart (mnt : Mount) (v : Nat → Buf) (g : Nat) : Nat :=
  let lo := getLE (v (descBlock mnt g)) (descOffset mnt g + 0x08) 4
  if !mnt.is64bitMode || decide (mnt.descSize < 64) then lo
  else getLE (v (descBlock mnt g)) (descOffset mnt g + 0x28) 4 * 2 ^ 32 + lo

def tableBlock (mnt : Mount) (v : Nat → Buf) (ino : Nat) : Nat :=
  tableStart mnt v ((ino - 1) / mnt.inodesPerGroup) + blockInTable mnt ino

def inodeAt (mnt : Mount) (v : Nat → Buf) (ino : Nat) : Buf := fun i =>
  v (tableBlock mnt v ino) (inodeOffset mnt ino + i)

theorem SameDescs.tableBlock (h : SameDescs mnt v v') (hg : (ino - 1) / mnt.inodesPerGroup < mnt.numGroups) :
    tableBlock mnt v' ino = tableBlock mnt v ino := by
  unfold FreeBlocks.tableBlock tableStart
  rw [h.getLE hg fun _ => .inl (by decide), h.getLE hg fun _ => .inr (by decide)]

section Inode
variable (hm : mnt.Smooth) (h : Held v s) (hino : ino ≠ 0)
  (hdesc : descBlock mnt ((ino - 1) / mnt.inodesPerGroup) < 2 ^ 32)
  (hdescOut : ¬ InJournal s.cache.journal.state (descBlock mnt ((ino - 1) / mnt.inodesPerGroup)))
  (ht : tableBlock mnt v ino < 2 ^ 32) (htOut : ¬ InJournal s.cache.journal.state (tableBlock mnt v ino))
include hm h hdesc hdescOut

theorem blockGroupInodeTable64_live :
    ∃ s', blockGroupInodeTable64 mnt ((ino - 1) / mnt.inodesPerGroup) s =
        some (some (tableStart mnt v ((ino - 1) / mnt.inodesPerGroup)), s') ∧
      HasRead v (descBlock mnt ((ino - 1) / mnt.inodesPerGroup)) s s' := by
  obtain ⟨s', hread, hr⟩ := readBlock_live hm h (by omega) hdescOut
  refine ⟨s', ?_, hr⟩
  unfold blockGroupInodeTable64
  rw [hread]
  simp only [bind, Option.bind_some, Option.map_some, pure, hr.data]
  rfl

include hino ht htOut

theorem loadInodeDisk_live :
    ∃ s', loadInodeDisk mnt ino s = some (some (inodeAt mnt v ino), s') ∧ Held v s' ∧ s'.superblock = s.superblock ∧
      s'.cache.journalTxActive = s.cache.journalTxActive ∧
      Onward 0 s.cache.journal.state s'.cache.journal.state := by
  obtain ⟨s₁, htable, h₁⟩ := blockGroupInodeTable64_live hm h hdesc hdescOut
  obtain ⟨s₂, hread, h₂⟩ := readBlock_live (b := tableBlock mnt v ino) hm h₁.held (by omega) fun hin =>
    htOut (h₁.after.journal.inJournal.1 hin)
  refine ⟨s₂, ?_, h₂.held, h₂.superblock.trans h₁.superblock, h₂.tx.trans h₁.tx,
    h₁.after.journal.trans h₂.after.journal⟩
  unfold loadInodeDisk
  rw [if_neg hino, htable]
  unfold tableBlock at hread h₂
  simp only [bind, Option.bind_some]
  rw [hread]
  simp only [Option.bind_some, Option.map_some, pure, h₂.data]
  rfl

theorem writeInodeDisk_live (hclosed : s.cache.journalTxActive = false) (hroom : Room 1 s.cache.journal.state)
    (inode : Buf) :
    ∃ s' data, writeInodeDisk mnt ino inode s = some (true, s') ∧
      Live (Function.update v (tableBlock mnt v ino) data) s' ∧ s'.superblock = s.superblock ∧
      Onward 1 s.cache.journal.state s'.cache.journal.state := by
  obtain ⟨s₁, htable, h₁⟩ := blockGroupInodeTable64_live hm h hdesc hdescOut
  obtain ⟨s₂, hread, h₂⟩ := readBlock_live (b := tableBlock mnt v ino) hm h₁.held (by omega) fun hin =>
    htOut (h₁.after.journal.inJournal.1 hin)
  have hon₂ := h₁.after.journal.trans h₂.after.journal
  have hlive₂ : Live v s₂ := ⟨h₂.held, (h₂.tx.trans h₁.tx).trans hclosed⟩
  have hroom₂ : Room 1 s₂.cache.journal.state := hroom.same hon₂
  obtain ⟨s₃, hbegin, h₃, hsb₃, hentries₃, hon₃, hempty₃⟩ := beginJournalTx_live hlive₂ hroom₂ 1
  unfold tableBlock at hread h₂ ht ⊢
  generalize hx : mnt.storeChecksum (blit (v (tableStart mnt v ((ino - 1) / mnt.inodesPerGroup) + blockInTable mnt ino))
    (inodeOffset mnt ino) inode 128) (inodeOffset mnt ino) ino = x
  obtain ⟨s₄, hwrite, h₄⟩ := writeBlock_live hm h₃ ht (by rw [hentries₃]; exact h₂.holds) (fun htx => by
    rw [hempty₃ htx]
    decide) x
  obtain ⟨h₅, hsb₅, hafter₅⟩ := commitJournalTx_live hm h₄.held
  refine ⟨commitJournalTx mnt s₄, x, ?_, h₅, ?_, ?_⟩
  · unfold writeInodeDisk
    rw [if_neg hino, htable]
    simp only [bind, Option.bind_some]
    rw [hread]
    simp only [Option.bind_some]
    rw [h₂.data, hx, beginJournalTx_poke, hbegin]
    simp only [Option.map_some, Option.bind_some]
    rw [poke_deref, writeBlock_poke hm, hwrite]
    rfl
  · exact hsb₅.trans (h₄.superblock.trans (hsb₃.trans (h₂.superblock.trans h₁.superblock)))
  · exact (hon₂.trans (hon₃.trans h₄.after.journal)).trans hafter₅.journal

end Inode

end Zigix.FreeBlocks
