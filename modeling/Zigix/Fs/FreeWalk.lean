import Zigix.Fs.FreeBlocksSpec

/-!
# The walk of `freeFileBlocks`

* `freeIndirect_freed`, `freeDouble_freed`, `freeFileBlocks_freed` : on such blocks the walk frees what is mapped.
-/

namespace Zigix.FreeBlocks

open Bytes BlockCache
open Ext3 (InJournal JournalState)

variable {mnt : Mount} {v v' v'' : Nat → Buf} {s s' s'' : State} {b p n k : Nat} {buf inode : Buf} {T L L' : List Nat}

/-! ## Bits -/

theorem getLsbD_clear (x : BitVec 8) {i j : Nat} (hj : j < 8) :
    (x &&& ~~~(1#8 <<< i)).getLsbD j = (x.getLsbD j && decide (j ≠ i)) := by
  rw [BitVec.getLsbD_and, BitVec.getLsbD_not, BitVec.getLsbD_shiftLeft, BitVec.getLsbD_one]
  by_cases hlt : j < i
  · simp [hj, hlt, Nat.ne_of_lt hlt]
  · have hiff : j - i = 0 ↔ j = i := by omega
    simp [hj, hlt, hiff]

theorem testBit_clearBit (buf : Buf) (bit b : Nat) : testBit (clearBit buf bit) b = (testBit buf b && decide (b ≠ bit)) := by
  unfold testBit clearBit
  by_cases hbyte : b / 8 = bit / 8
  · rw [hbyte, Function.update_self, getLsbD_clear _ (Nat.mod_lt _ (by decide))]
    have hiff : b % 8 ≠ bit % 8 ↔ b ≠ bit := by omega
    rw [decide_eq_decide.2 hiff]
  · have hne : b ≠ bit := fun he => hbyte (by rw [he])
    rw [Function.update_of_ne hbyte, decide_eq_true hne, Bool.and_true]

/-! ## Frees -/

/-- The blocks of `L` are freed; only slots in `T` have changed. -/
structure Freed (mnt : Mount) (T L : List Nat) (v v' : Nat → Buf) (s s' : State) : Prop where
  live : Live v' s'
  total : getLE s'.superblock 12 4 = getLE s.superblock 12 4 + L.length
  superblock : ∀ i, i < 12 ∨ 16 ≤ i → s'.superblock i = s.superblock i
  bits : ∀ b, testBit (v' (bitmapOf mnt v blockBitmap 0)) b =
    (testBit (v (bitmapOf mnt v blockBitmap 0)) b && !L.contains b)
  group : getLE (v' (bgdtBlock mnt)) 12 2 = getLE (v (bgdtBlock mnt)) 12 2 + L.length
  bgdt : ∀ i, i < 12 ∨ 14 ≤ i → v' (bgdtBlock mnt) i = v (bgdtBlock mnt) i
  others : ∀ b, b ∉ metaBlocks mnt v blockBitmap → v' b = v b
  after : After T L.length s s'

theorem Freed.bitmapOf (h : Freed mnt T L v v' s s') : bitmapOf mnt v' blockBitmap 0 = bitmapOf mnt v blockBitmap 0 := by
  rw [bitmapOf_zero, bitmapOf_zero, blockBitmap_bitmap]
  refine getLE_congr fun i hi => h.bgdt _ (.inl ?_)
  omega

theorem Freed.metaBlocks (h : Freed mnt T L v v' s s') : metaBlocks mnt v' blockBitmap = metaBlocks mnt v blockBitmap := by
  unfold FreeBlocks.metaBlocks
  rw [h.bitmapOf]

theorem Freed.mono {T' : List Nat} (h : Freed mnt T L v v' s s') (hT : ∀ i ∈ T, i ∈ T') : Freed mnt T' L v v' s s' :=
  { h with after := h.after.mono hT le_rfl }

theorem Freed.nil (h : Live v s) : Freed mnt T [] v v s s where
  live := h
  total := (Nat.add_zero _).symm
  superblock _ _ := rfl
  bits b := by rw [List.contains_nil, Bool.not_false, Bool.and_true]
  group := (Nat.add_zero _).symm
  bgdt _ _ := rfl
  others _ _ := rfl
  after := (After.refl s).mono nofun le_rfl

theorem Freed.trans (h : Freed mnt T L v v' s s') (h' : Freed mnt T L' v' v'' s' s'') :
    Freed mnt T (L ++ L') v v'' s s'' where
  live := h'.live
  total := by
    rw [h'.total, h.total, List.length_append]
    omega
  superblock i hi := (h'.superblock i hi).trans (h.superblock i hi)
  bits b := by
    have hb := h'.bits b
    rw [h.bitmapOf, h.bits b] at hb
    rw [hb, List.contains_eq_any_beq, List.contains_eq_any_beq, List.contains_eq_any_beq, List.any_append, Bool.not_or,
      Bool.and_assoc]
  group := by
    rw [h'.group, h.group, List.length_append]
    omega
  bgdt i hi := (h'.bgdt i hi).trans (h.bgdt i hi)
  others b hb := (h'.others b (by rwa [h.metaBlocks])).trans (h.others b hb)
  after := by
    rw [List.length_append]
    exact (h.after.trans h'.after).mono (by simp) le_rfl

/-- There is room for `n` more blocks in the counters and in the journal. -/
structure Ready (mnt : Mount) (n : Nat) (v : Nat → Buf) (s : State) : Prop where
  live : Live v s
  room : Room n s.cache.journal.state
  placed : Placed mnt v blockBitmap s.cache.journal.state
  total : getLE s.superblock 12 4 + n < 256 ^ 4
  group : getLE (v (bgdtBlock mnt)) 12 2 + n < 256 ^ 2

theorem Ready.freed (h : Ready mnt n v s) (hf : Freed mnt T L v v' s s') (hn : L.length + k ≤ n) : Ready mnt k v' s' where
  live := hf.live
  room := (h.room.mono hn).onward hf.after.journal
  placed := by
    have houtside := h.placed.outside
    refine ⟨?_, ?_, fun b hb hin => ?_⟩
    · rw [hf.bitmapOf]
      exact h.placed.apartSb
    · rw [hf.bitmapOf]
      exact h.placed.apartBgdt
    · rw [hf.metaBlocks] at hb
      exact houtside b hb (hf.after.journal.inJournal.1 hin)
  total := by
    rw [hf.total]
    have := h.total
    omega
  group := by
    rw [hf.group]
    have := h.group
    omega

theorem revoke_live (hm : mnt.Smooth) (h : Live v s) (hroom : Room 0 s.cache.journal.state) (b : Nat) :
    Live v (revoke mnt b s) ∧ After [] 0 s (revoke mnt b s) := by
  unfold revoke
  dsimp only
  rw [hm.write]
  by_cases hactive : s.cache.journal.state.active = true
  · obtain ⟨hcoh, hq⟩ := h.coherent.revoke h.queued (b := b) (hroom hactive).1
    refine ⟨⟨⟨hcoh, hq⟩, h.closed⟩, fun _ _ => rfl, ?_⟩
    show Onward 0 s.cache.journal.state (Ext3.revoke true b s.cache.journal).2.state
    unfold Ext3.revoke
    rw [hactive]
    exact ⟨rfl, rfl, rfl, rfl, le_rfl⟩
  · have hsame : Ext3.revoke true b s.cache.journal = (false, s.cache.journal) := by
      unfold Ext3.revoke
      rw [if_pos (by simpa using hactive)]
    rw [hsame]
    exact ⟨h, (After.refl s)⟩

/-- **One block.** -/
theorem freeBlock_freed (hm : mnt.Smooth) (h : Ready mnt (n + 1) v s) (hb : b ≠ 0) (hlt : b / 8 < mnt.blockSize)
    (hsize : mnt.blockSize ≤ maxBlockSize) :
    ∃ s' v', freeBlock mnt b s = some (true, s') ∧
      Freed mnt ((metaBlocks mnt v blockBitmap).map slot) [b] v v' s s' := by
  have hroom : Room (1 + 0) s.cache.journal.state := h.room.mono (by omega)
  have htotal := h.total
  have hgroup := h.group
  have hsb : getLE s.superblock 12 4 + 1 < 256 ^ 4 := by omega
  have hgd : getLE (v (bgdtBlock mnt)) 12 2 + 1 < 256 ^ 2 := by omega
  obtain ⟨s₁, v₁, hres, h₁⟩ := release_live b hm h.live blockBitmap_proper hroom h.placed (by omega) hsb hgd
  obtain ⟨h₂, hafter₂⟩ := revoke_live hm h₁.live (hroom.onward h₁.after.journal) b
  refine ⟨revoke mnt b s₁, v₁, ?_, h₂, ?_, fun i hi => ?_, fun b' => ?_, ?_, fun i hi => ?_, h₁.others, ?_⟩
  · unfold freeBlock
    rw [if_neg hb, hres]
    rfl
  · show getLE s₁.superblock 12 4 = _
    rw [h₁.superblock, blockBitmap_sbCount, getLE_putLE, Nat.mod_eq_of_lt hsb, List.length_singleton]
  · show s₁.superblock i = _
    rw [h₁.superblock, blockBitmap_sbCount, putLE_of_notMem hi]
  · rw [h₁.bitmap, if_pos hlt, testBit_clearBit]
    simp
  · rw [h₁.bgdt, blockBitmap_bgdCount, getLE_putLE, Nat.mod_eq_of_lt hgd, List.length_singleton]
  · rw [h₁.bgdt, blockBitmap_bgdCount, putLE_of_notMem hi]
  · exact (h₁.after.trans hafter₂).mono (by simp) le_rfl

/-! ## The direct blocks -/

def nonzero (bs : List Nat) : List Nat := bs.filter (· ≠ 0)

theorem nonzero_cons (b : Nat) (bs : List Nat) : nonzero (b :: bs) = nonzero [b] ++ nonzero bs := by
  unfold nonzero
  rw [← List.filter_append]
  rfl

theorem freeAddr_freed (hm : mnt.Smooth) (hsize : mnt.blockSize ≤ maxBlockSize)
    (h : Ready mnt n v s) (hn : (nonzero [b]).length ≤ n) (hlt : ∀ b' ∈ nonzero [b], b' / 8 < mnt.blockSize) :
    ∃ s' v', (if b ≠ 0 then (freeBlock mnt b s).map (·.2) else some s) = some s' ∧
      Freed mnt ((metaBlocks mnt v blockBitmap).map slot) (nonzero [b]) v v' s s' := by
  by_cases hb : b = 0
  · subst hb
    exact ⟨s, v, rfl, .nil h.live⟩
  · have hone : nonzero [b] = [b] := by simp [nonzero, hb]
    rw [hone] at hn hlt ⊢
    obtain ⟨m, rfl⟩ : ∃ m, n = m + 1 := ⟨n - 1, by
      rw [List.length_singleton] at hn
      omega⟩
    obtain ⟨s', v', hres, hf⟩ := freeBlock_freed hm h hb (hlt b (List.mem_singleton_self b)) hsize
    refine ⟨s', v', ?_, hf⟩
    rw [if_pos hb, hres]
    rfl

section Walk
variable (hm : mnt.Smooth) (hsize : mnt.blockSize ≤ maxBlockSize)
include hm hsize

theorem freeDirect_freed {is : List Nat} (h : Ready mnt n v s) (hn : (nonzero (is.map (iBlock inode))).length ≤ n)
    (hlt : ∀ b ∈ nonzero (is.map (iBlock inode)), b / 8 < mnt.blockSize) :
    ∃ s' v', freeDirect mnt inode is s = some s' ∧
      Freed mnt ((metaBlocks mnt v blockBitmap).map slot) (nonzero (is.map (iBlock inode))) v v' s s' := by
  induction is generalizing n v s with
  | nil => exact ⟨s, v, rfl, .nil h.live⟩
  | cons i is ih =>
    rw [List.map_cons, nonzero_cons] at hn hlt ⊢
    rw [List.length_append] at hn
    obtain ⟨s₁, v₁, hres₁, hf₁⟩ := freeAddr_freed hm hsize h (by omega) fun b hb => hlt b (List.mem_append_left _ hb)
    have h₁ : Ready mnt _ v₁ s₁ := h.freed hf₁ hn
    obtain ⟨s₂, v₂, hres₂, hf₂⟩ := ih h₁ le_rfl fun b hb => hlt b (List.mem_append_right _ hb)
    rw [hf₁.metaBlocks] at hf₂
    refine ⟨s₂, v₂, ?_, hf₁.trans hf₂⟩
    rw [freeDirect, hres₁]
    exact hres₂

/-! ## Indirect blocks -/

theorem freeAddrs_freed {is : List Nat} (h : Ready mnt n v s)
    (hp : p ∉ (metaBlocks mnt v blockBitmap).map slot) (hbuf : s.deref p = buf)
    (hn : (nonzero (is.map (word buf))).length ≤ n) (hlt : ∀ b ∈ nonzero (is.map (word buf)), b / 8 < mnt.blockSize) :
    ∃ s' v', freeAddrs mnt p is s = some s' ∧
      Freed mnt ((metaBlocks mnt v blockBitmap).map slot) (nonzero (is.map (word buf))) v v' s s' := by
  induction is generalizing n v s with
  | nil => exact ⟨s, v, rfl, .nil h.live⟩
  | cons i is ih =>
    rw [List.map_cons, nonzero_cons] at hn hlt ⊢
    rw [List.length_append] at hn
    obtain ⟨s₁, v₁, hres₁, hf₁⟩ := freeAddr_freed hm hsize h (by omega) fun b hb => hlt b (List.mem_append_left _ hb)
    have h₁ : Ready mnt _ v₁ s₁ := h.freed hf₁ hn
    have hbuf₁ : s₁.deref p = buf := by
      rw [← hbuf]
      exact congrArg CacheEntry.data (hf₁.after.slots p hp)
    obtain ⟨s₂, v₂, hres₂, hf₂⟩ := ih h₁ (by rwa [hf₁.metaBlocks]) hbuf₁ le_rfl fun b hb =>
      hlt b (List.mem_append_right _ hb)
    rw [hf₁.metaBlocks] at hf₂
    refine ⟨s₂, v₂, ?_, hf₁.trans hf₂⟩
    rw [freeAddrs, hbuf]
    dsimp only [bind]
    rw [hres₁]
    exact hres₂

end Walk

theorem words_eq (k : Nat) (buf : Buf) : words k buf = nonzero ((List.range k).map (word buf)) := rfl

theorem flatMap_mapped_zero (mnt : Mount) (v : Nat → Buf) (bs : List Nat) : bs.flatMap (mapped mnt v 0) = nonzero bs := by
  induction bs with
  | nil => rfl
  | cons b bs ih =>
    rw [List.flatMap_cons, ih, nonzero_cons]
    congr 1
    by_cases hb : b = 0
    · simp [mapped, nonzero, hb]
    · simp [mapped, nonzero, hb]

theorem nonzero_nonzero (bs : List Nat) : nonzero (nonzero bs) = nonzero bs := by
  unfold nonzero
  rw [List.filter_filter]
  simp

theorem mapped_one (hb : b ≠ 0) : mapped mnt v 1 b = words (addrsPerBlock mnt) (v b) ++ [b] := by
  rw [mapped, if_neg hb, flatMap_mapped_zero, words_eq, nonzero_nonzero]

theorem mapped_two (hb : b ≠ 0) :
    mapped mnt v 2 b = (words (addrsPerBlock mnt) (v b)).flatMap (mapped mnt v 1) ++ [b] := by
  rw [mapped, if_neg hb]

@[simp] theorem mapped_zero (level : Nat) : mapped mnt v level 0 = [] := by
  cases level with
  | zero => exact if_pos rfl
  | succ level => exact if_pos rfl

theorem mapped_one_congr (h : v' b = v b) : mapped mnt v' 1 b = mapped mnt v 1 b := by
  by_cases hb : b = 0
  · rw [hb, mapped_zero, mapped_zero]
  · rw [mapped_one hb, mapped_one hb, h]

structure Stable (mnt : Mount) (v : Nat → Buf) (st : JournalState) (b : Nat) : Prop where
  small : b < 2 ^ 61
  outside : ¬ InJournal st b
  slot : slot b ∉ (metaBlocks mnt v blockBitmap).map slot

theorem Stable.notMeta {st : JournalState} (h : Stable mnt v st b) : b ∉ metaBlocks mnt v blockBitmap := fun hm =>
  h.slot (List.mem_map_of_mem hm)

theorem Stable.freed (h : Stable mnt v s.cache.journal.state b) (hf : Freed mnt T L v v' s s') :
    Stable mnt v' s'.cache.journal.state b where
  small := h.small
  outside hin := h.outside (hf.after.journal.inJournal.1 hin)
  slot := by
    rw [hf.metaBlocks]
    exact h.slot

theorem Ready.read (h : Ready mnt n v s) (hr : HasRead v b s s') : Ready mnt n v s' where
  live := hr.live h.live
  room := h.room.same hr.after.journal
  placed := ⟨h.placed.apartSb, h.placed.apartBgdt, fun b hb hin =>
    h.placed.outside b hb (hr.after.journal.inJournal.1 hin)⟩
  total := by
    rw [hr.superblock]
    exact h.total
  group := h.group

theorem Freed.read (hr : HasRead v b s s') (hf : Freed mnt T L v v' s' s'') : Freed mnt (slot b :: T) L v v' s s'' where
  live := hf.live
  total := by rw [hf.total, hr.superblock]
  superblock i hi := (hf.superblock i hi).trans (by rw [hr.superblock])
  bits := hf.bits
  group := hf.group
  bgdt := hf.bgdt
  others := hf.others
  after := (hr.after.trans hf.after).mono (by simp) (by omega)

section Indirect
variable (hm : mnt.Smooth) (hsize : mnt.blockSize ≤ maxBlockSize)
include hm hsize

/-- **An indirect block** that stays readable. -/
theorem freeIndirect_freed (h : Ready mnt n v s) (hb : b ≠ 0) (hst : Stable mnt v s.cache.journal.state b)
    (hn : (mapped mnt v 1 b).length ≤ n) (hlt : ∀ x ∈ mapped mnt v 1 b, x / 8 < mnt.blockSize) :
    ∃ s' v', freeIndirect mnt b s = some s' ∧
      Freed mnt (slot b :: (metaBlocks mnt v blockBitmap).map slot) (mapped mnt v 1 b) v v' s s' := by
  rw [mapped_one hb] at hn hlt ⊢
  rw [List.length_append, List.length_singleton] at hn
  obtain ⟨s₁, hread, hr⟩ := readBlock_live hm h.live.toHeld hst.small hst.outside
  have h₁ := h.read hr
  have hlt₁ : ∀ x ∈ words (addrsPerBlock mnt) (v b), x / 8 < mnt.blockSize := fun x hx => hlt x (List.mem_append_left _ hx)
  rw [words_eq] at hn hlt₁ ⊢
  obtain ⟨s₂, v₂, hres₂, hf₂⟩ := freeAddrs_freed hm hsize h₁ hst.slot hr.data (by omega) hlt₁
  have h₂ : Ready mnt (0 + 1) v₂ s₂ := h₁.freed hf₂ (by omega)
  obtain ⟨s₃, v₃, hres₃, hf₃⟩ := freeBlock_freed hm h₂ hb (hlt b (List.mem_append_right _ (List.mem_singleton_self b))) hsize
  rw [hf₂.metaBlocks] at hf₃
  refine ⟨s₃, v₃, ?_, (hf₂.trans hf₃).read hr⟩
  unfold freeIndirect
  rw [hread]
  simp only [bind, Option.bind_some]
  rw [hres₂]
  simp only [Option.bind_some]
  rw [hres₃]
  rfl

theorem freeIndirect_turn (h : Ready mnt n v s) (hst : b ≠ 0 → Stable mnt v s.cache.journal.state b)
    (hn : ((nonzero [b]).flatMap (mapped mnt v 1)).length ≤ n)
    (hlt : ∀ x ∈ (nonzero [b]).flatMap (mapped mnt v 1), x / 8 < mnt.blockSize) :
    ∃ s' v', (if b ≠ 0 then freeIndirect mnt b s else some s) = some s' ∧
      Freed mnt ((nonzero [b]).map slot ++ (metaBlocks mnt v blockBitmap).map slot)
        ((nonzero [b]).flatMap (mapped mnt v 1)) v v' s s' := by
  by_cases hb : b = 0
  · subst hb
    exact ⟨s, v, rfl, .nil h.live⟩
  · have hone : nonzero [b] = [b] := by simp [nonzero, hb]
    rw [hone, List.flatMap_singleton] at hn hlt ⊢
    obtain ⟨s', v', hres, hf⟩ := freeIndirect_freed hm hsize h hb (hst hb) hn hlt
    refine ⟨s', v', ?_, hf⟩
    rw [if_pos hb, hres]

theorem freeIndirects_freed {is : List Nat} (h : Ready mnt n v s)
    (hp : p ∉ (nonzero (is.map (word buf))).map slot ++ (metaBlocks mnt v blockBitmap).map slot)
    (hbuf : s.deref p = buf) (hst : ∀ b ∈ nonzero (is.map (word buf)), Stable mnt v s.cache.journal.state b)
    (hn : ((nonzero (is.map (word buf))).flatMap (mapped mnt v 1)).length ≤ n)
    (hlt : ∀ x ∈ (nonzero (is.map (word buf))).flatMap (mapped mnt v 1), x / 8 < mnt.blockSize) :
    ∃ s' v', freeIndirects mnt p is s = some s' ∧
      Freed mnt ((nonzero (is.map (word buf))).map slot ++ (metaBlocks mnt v blockBitmap).map slot)
        ((nonzero (is.map (word buf))).flatMap (mapped mnt v 1)) v v' s s' := by
  induction is generalizing n v s with
  | nil => exact ⟨s, v, rfl, .nil h.live⟩
  | cons i is ih =>
    rw [List.map_cons, nonzero_cons] at hp hst hn hlt ⊢
    rw [List.flatMap_append] at hn hlt ⊢
    rw [List.length_append] at hn
    rw [List.map_append, List.append_assoc, List.mem_append, not_or] at hp
    have hst₁ : word buf i ≠ 0 → Stable mnt v s.cache.journal.state (word buf i) := fun hne =>
      hst _ (List.mem_append_left _ (by simp [nonzero, hne]))
    obtain ⟨s₁, v₁, hres₁, hf₁⟩ := freeIndirect_turn hm hsize h hst₁ (by omega) fun x hx =>
      hlt x (List.mem_append_left _ hx)
    have h₁ : Ready mnt _ v₁ s₁ := h.freed hf₁ hn
    have hstRest : ∀ b ∈ nonzero (is.map (word buf)), Stable mnt v s.cache.journal.state b := fun b hb =>
      hst b (List.mem_append_right _ hb)
    -- the other indirect blocks are as they were
    have hsame : (nonzero (is.map (word buf))).flatMap (mapped mnt v₁ 1) =
        (nonzero (is.map (word buf))).flatMap (mapped mnt v 1) :=
      List.flatMap_congr fun b hb => mapped_one_congr (hf₁.others b (hstRest b hb).notMeta)
    have hp₁ : p ∉ (nonzero [word buf i]).map slot ++ (metaBlocks mnt v blockBitmap).map slot := by
      rw [List.mem_append, not_or] at hp ⊢
      exact ⟨hp.1, hp.2.2⟩
    have hbuf₁ : s₁.deref p = buf := by
      rw [← hbuf]
      exact congrArg CacheEntry.data (hf₁.after.slots p hp₁)
    obtain ⟨s₂, v₂, hres₂, hf₂⟩ := ih h₁ (by rw [hf₁.metaBlocks]; exact hp.2) hbuf₁
      (fun b hb => (hstRest b hb).freed hf₁) (by rw [hsame]) (by
        rw [hsame]
        exact fun x hx => hlt x (List.mem_append_right _ hx))
    rw [hf₁.metaBlocks, hsame] at hf₂
    refine ⟨s₂, v₂, ?_, (hf₁.mono ?_).trans (hf₂.mono ?_)⟩
    · rw [freeIndirects, hbuf]
      dsimp only [bind]
      rw [hres₁]
      exact hres₂
    · simp only [List.map_append, List.mem_append]
      tauto
    · simp only [List.map_append, List.mem_append]
      tauto

/-- The mapping blocks behind a doubly indirect block stay readable, and do not have its slot. -/
structure StableTree (mnt : Mount) (v : Nat → Buf) (st : JournalState) (b : Nat) : Prop where
  root : Stable mnt v st b
  child : ∀ x ∈ words (addrsPerBlock mnt) (v b), Stable mnt v st x ∧ slot x ≠ slot b

/-- **A doubly indirect block** that stays readable. -/
theorem freeDouble_freed (h : Ready mnt n v s) (hb : b ≠ 0) (hst : StableTree mnt v s.cache.journal.state b)
    (hn : (mapped mnt v 2 b).length ≤ n) (hlt : ∀ x ∈ mapped mnt v 2 b, x / 8 < mnt.blockSize) :
    ∃ s' v' T, freeDouble mnt b s = some s' ∧ Freed mnt T (mapped mnt v 2 b) v v' s s' := by
  rw [mapped_two hb] at hn hlt ⊢
  rw [List.length_append, List.length_singleton] at hn
  obtain ⟨s₁, hread, hr⟩ := readBlock_live hm h.live.toHeld hst.root.small hst.root.outside
  have h₁ := h.read hr
  have hlt₁ : ∀ x ∈ (words (addrsPerBlock mnt) (v b)).flatMap (mapped mnt v 1), x / 8 < mnt.blockSize := fun x hx =>
    hlt x (List.mem_append_left _ hx)
  have hchild := hst.child
  rw [words_eq] at hn hlt₁ hchild ⊢
  have hp : slot b ∉ (nonzero ((List.range (addrsPerBlock mnt)).map (word (v b)))).map slot ++
      (metaBlocks mnt v blockBitmap).map slot := by
    rw [List.mem_append, not_or]
    refine ⟨fun hmem => ?_, hst.root.slot⟩
    obtain ⟨x, hx, heq⟩ := List.mem_map.1 hmem
    exact (hchild x hx).2 heq
  have hst₁ : ∀ x ∈ nonzero ((List.range (addrsPerBlock mnt)).map (word (v b))),
      Stable mnt v s₁.cache.journal.state x := fun x hx =>
    ⟨(hchild x hx).1.small, fun hin => (hchild x hx).1.outside (hr.after.journal.inJournal.1 hin), (hchild x hx).1.slot⟩
  obtain ⟨s₂, v₂, hres₂, hf₂⟩ := freeIndirects_freed hm hsize h₁ hp hr.data hst₁ (by omega) hlt₁
  have h₂ : Ready mnt (0 + 1) v₂ s₂ := h₁.freed hf₂ (by omega)
  obtain ⟨s₃, v₃, hres₃, hf₃⟩ := freeBlock_freed hm h₂ hb (hlt b (List.mem_append_right _ (List.mem_singleton_self b))) hsize
  rw [hf₂.metaBlocks] at hf₃
  refine ⟨s₃, v₃, _, ?_, (hf₂.trans (hf₃.mono fun i hi => List.mem_append_right _ hi)).read hr⟩
  unfold freeDouble
  rw [hread]
  simp only [bind, Option.bind_some]
  rw [hres₂]
  simp only [Option.bind_some]
  rw [hres₃]
  rfl

end Indirect

/-! ## `freeFileBlocks` -/

def walked (mnt : Mount) (v : Nat → Buf) (inode : Buf) : List Nat :=
  nonzero ((List.range 12).map (iBlock inode)) ++ mapped mnt v 1 (iBlock inode 12) ++ mapped mnt v 2 (iBlock inode 13)

/-- The mapping blocks of the inode stay readable during the walk. -/
structure StableMaps (mnt : Mount) (v : Nat → Buf) (st : JournalState) (inode : Buf) : Prop where
  single : iBlock inode 12 ≠ 0 → Stable mnt v st (iBlock inode 12)
  double : iBlock inode 13 ≠ 0 → StableTree mnt v st (iBlock inode 13)

theorem StableTree.freed (h : StableTree mnt v s.cache.journal.state b) (hf : Freed mnt T L v v' s s') :
    StableTree mnt v' s'.cache.journal.state b where
  root := h.root.freed hf
  child x hx := by
    rw [hf.others b h.root.notMeta] at hx
    exact ⟨(h.child x hx).1.freed hf, (h.child x hx).2⟩

theorem StableTree.mapped_eq (h : StableTree mnt v s.cache.journal.state b) (hf : Freed mnt T L v v' s s') :
    mapped mnt v' 2 b = mapped mnt v 2 b := by
  by_cases hb : b = 0
  · rw [hb, mapped_zero, mapped_zero]
  · rw [mapped_two hb, mapped_two hb, hf.others b h.root.notMeta]
    congr 1
    exact List.flatMap_congr fun x hx => mapped_one_congr (hf.others x (h.child x hx).1.notMeta)

/-- **The walk** frees the blocks that it visits. -/
theorem freeFileBlocks_freed (hm : mnt.Smooth) (hsize : mnt.blockSize ≤ maxBlockSize) (h : Ready mnt n v s)
    (hst : StableMaps mnt v s.cache.journal.state inode) (hn : (walked mnt v inode).length ≤ n)
    (hlt : ∀ x ∈ walked mnt v inode, x / 8 < mnt.blockSize) :
    ∃ s' v' T, freeFileBlocks mnt inode s = some (emptied inode, s') ∧
      Freed mnt T (walked mnt v inode) v v' s s' := by
  unfold walked at hn hlt ⊢
  simp only [List.length_append, List.mem_append] at hn hlt
  obtain ⟨s₁, v₁, hres₁, hf₁⟩ := freeDirect_freed hm hsize h (by omega) fun x hx => hlt x (.inl (.inl hx))
  have h₁ : Ready mnt ((mapped mnt v 1 (iBlock inode 12)).length + (mapped mnt v 2 (iBlock inode 13)).length) v₁ s₁ :=
    h.freed hf₁ (by omega)
  -- the indirect block
  have hsingle : ∃ s₂ v₂, (if iBlock inode 12 ≠ 0 then freeIndirect mnt (iBlock inode 12) s₁ else some s₁) = some s₂ ∧
      Freed mnt (slot (iBlock inode 12) :: (metaBlocks mnt v₁ blockBitmap).map slot)
        (mapped mnt v 1 (iBlock inode 12)) v₁ v₂ s₁ s₂ := by
    by_cases hb : iBlock inode 12 = 0
    · rw [hb, mapped_zero]
      exact ⟨s₁, v₁, if_neg (not_not.2 rfl), .nil h₁.live⟩
    · have hst₁ := hst.single hb
      have hsame : mapped mnt v₁ 1 (iBlock inode 12) = mapped mnt v 1 (iBlock inode 12) :=
        mapped_one_congr (hf₁.others _ hst₁.notMeta)
      rw [if_pos hb, ← hsame]
      rw [← hsame] at h₁ hlt
      exact freeIndirect_freed hm hsize h₁ hb (hst₁.freed hf₁) (by omega) fun x hx => hlt x (.inl (.inr hx))
  obtain ⟨s₂, v₂, hres₂, hf₂⟩ := hsingle
  have hT₁ : ∀ i ∈ (metaBlocks mnt v blockBitmap).map slot,
      i ∈ slot (iBlock inode 12) :: (metaBlocks mnt v₁ blockBitmap).map slot := fun i hi => by
    rw [hf₁.metaBlocks]
    exact List.mem_cons_of_mem _ hi
  have hf₁₂ := (hf₁.mono hT₁).trans hf₂
  have h₂ : Ready mnt (mapped mnt v 2 (iBlock inode 13)).length v₂ s₂ := h₁.freed hf₂ (by omega)
  -- the doubly indirect block
  have hdouble : ∃ s₃ v₃ T, (if iBlock inode 13 ≠ 0 then freeDouble mnt (iBlock inode 13) s₂ else some s₂) = some s₃ ∧
      Freed mnt T (mapped mnt v 2 (iBlock inode 13)) v₂ v₃ s₂ s₃ := by
    by_cases hb : iBlock inode 13 = 0
    · rw [hb, mapped_zero]
      exact ⟨s₂, v₂, [], if_neg (not_not.2 rfl), .nil h₂.live⟩
    · have hst₂ := hst.double hb
      have hsame := hst₂.mapped_eq hf₁₂
      rw [if_pos hb, ← hsame]
      rw [← hsame] at h₂ hlt
      exact freeDouble_freed hm hsize h₂ hb (hst₂.freed hf₁₂) le_rfl fun x hx => hlt x (.inr hx)
  obtain ⟨s₃, v₃, T, hres₃, hf₃⟩ := hdouble
  refine ⟨s₃, v₃, _, ?_, (hf₁₂.mono fun i hi => List.mem_append_left T hi).trans
    (hf₃.mono fun i hi => List.mem_append_right _ hi)⟩
  exact Option.bind_eq_some_iff.2 ⟨s₁, hres₁, Option.bind_eq_some_iff.2 ⟨s₂, hres₂,
    Option.bind_eq_some_iff.2 ⟨s₃, hres₃, rfl⟩⟩⟩

end Zigix.FreeBlocks
