import Zigix.Fs.FreeBlocks

/-!
# What `freeBlock` does to the blocks of the disk

* `readBlock_live`, `writeBlock_live` : the accesses of a device without errors;
* `release_live` : `freeBlock` and `freeInode` clear a bit and count it; all other blocks stay.
-/

namespace Zigix.FreeBlocks

open Bytes BlockCache
open Ext3 (InJournal JournalState)

variable {mnt : Mount} {v : Nat → Buf} {s s' s'' : State} {b p n k : Nat} {data bgd : Buf} {T U : List Nat}

/-! ## States between two calls -/

/-- The journal may have been written to, in at most `n` more transactions. -/
structure Onward (n : Nat) (st st' : JournalState) : Prop where
  active : st'.active = st.active
  first : st'.firstBlock = st.firstBlock
  max : st'.maxBlocks = st.maxBlocks
  start : st'.diskStartBlock = st.diskStartBlock
  sequence : st'.sequence ≤ st.sequence + n

theorem Onward.refl (st : JournalState) : Onward 0 st st := ⟨rfl, rfl, rfl, rfl, le_rfl⟩

theorem Onward.trans {st st' st'' : JournalState} (h : Onward n st st') (h' : Onward k st' st'') :
    Onward (n + k) st st'' :=
  ⟨h'.active.trans h.active, h'.first.trans h.first, h'.max.trans h.max, h'.start.trans h.start, by
    have := h.sequence
    have := h'.sequence
    omega⟩

theorem Onward.inJournal {st st' : JournalState} (h : Onward n st st') : InJournal st' b ↔ InJournal st b := by
  unfold InJournal
  rw [h.start, h.max]

/-- The journal has blocks, and numbers for `n` more transactions. -/
def Room (n : Nat) (st : JournalState) : Prop :=
  st.active = true → st.firstBlock < st.maxBlocks ∧ st.sequence + n < Ext3.u32Max

theorem Room.onward {st st' : JournalState} (h : Room (n + k) st) (ho : Onward n st st') : Room k st' := fun ha => by
  obtain ⟨hlt, hseq⟩ := h (ho.active ▸ ha)
  have := ho.sequence
  rw [ho.first, ho.max]
  exact ⟨hlt, by omega⟩

theorem Room.same {st st' : JournalState} (h : Room n st) (ho : Onward 0 st st') : Room n st' :=
  Room.onward (n := 0) (by rwa [Nat.zero_add]) ho

theorem Room.mono {st : JournalState} (h : Room n st) (hk : k ≤ n) : Room k st := fun ha =>
  ⟨(h ha).1, by have := (h ha).2; omega⟩

/-- The slots in `T` may have changed, and the journal. -/
structure After (T : List Nat) (n : Nat) (s s' : State) : Prop where
  slots : ∀ i, i ∉ T → s'.cache.entries i = s.cache.entries i
  journal : Onward n s.cache.journal.state s'.cache.journal.state

theorem After.refl (s : State) : After [] 0 s s := ⟨fun _ _ => rfl, .refl _⟩

theorem After.trans (h : After T n s s') (h' : After U k s' s'') : After (T ++ U) (n + k) s s'' where
  slots i hi := by
    rw [List.mem_append, not_or] at hi
    exact (h'.slots i hi.2).trans (h.slots i hi.1)
  journal := h.journal.trans h'.journal

theorem After.mono (h : After T n s s') (hT : ∀ i ∈ T, i ∈ U) (hn : n ≤ k) : After U k s s' where
  slots i hi := h.slots i fun hm => hi (hT i hm)
  journal := { h.journal with sequence := h.journal.sequence.trans (by omega) }

/-- The cache and the disk together hold `v`, in a transaction too. -/
structure Held (v : Nat → Buf) (s : State) : Prop where
  coherent : Coherent v s.cache
  queued : Queued v s.cache.journal

/-- Between two calls. -/
structure Live (v : Nat → Buf) (s : State) : Prop extends Held v s where
  closed : s.cache.journalTxActive = false

structure Mount.Smooth (mnt : Mount) : Prop where
  read : ∀ b, mnt.okRead b = true
  write : ∀ b, mnt.okWrite b = true
  commit : ∀ i, mnt.okCommit i = true

/-! ## Reads -/

/-- What a read leaves. -/
structure HasCached (v : Nat → Buf) (b : Nat) (s s' : State) : Prop where
  held : Held v s'
  superblock : s'.superblock = s.superblock
  handle : s'.cache.journal.handle = s.cache.journal.handle
  tx : s'.cache.journalTxActive = s.cache.journalTxActive
  holds : (s'.cache.entries (slot b)).Holds b
  after : After [slot b] 0 s s'

structure HasRead (v : Nat → Buf) (b : Nat) (s s' : State) : Prop extends HasCached v b s s' where
  data : s'.deref (slot b) = v b

theorem HasRead.live (h : HasRead v b s s') (hs : Live v s) : Live v s' := ⟨h.held, h.tx.trans hs.closed⟩

theorem flushEntry_entries {ok : Bool} {c c' : BlockCache.State} {idx : Nat} (h : flushEntry ok idx c = some c') :
    (∀ i, i ≠ idx → c'.entries i = c.entries i) ∧ c'.journalTxActive = c.journalTxActive := by
  rcases flushEntry_cases h with ⟨-, rfl⟩ | ⟨-, -, rfl⟩
  · exact ⟨fun _ _ => rfl, rfl⟩
  · cases ok with
    | false => exact ⟨fun i hi => Function.update_of_ne hi .., rfl⟩
    | true => exact ⟨fun i hi => Function.update_of_ne hi .., rfl⟩

theorem sector_lt {c : BlockCache.State} (h : Coherent v c) (hb : b < 2 ^ 61) : b * c.sectorsPerBlock < 2 ^ 64 := by
  have hle : b ≤ 2 ^ 61 - 1 := Nat.le_pred_of_lt hb
  have := Nat.mul_le_mul hle h.small
  omega

theorem readBlock_cached (hm : mnt.Smooth) (h : Held v s) (hb : b < 2 ^ 61) :
    ∃ s', readBlock mnt b s = some (some (slot b), s') ∧ HasCached v b s s' := by
  obtain ⟨r, c, hread⟩ := h.coherent.readBlock_returns (sector_lt h.coherent hb)
  obtain ⟨hc, hsame, -⟩ := h.coherent.readBlock hread
  have hq := hsame.queued h.queued
  have hmodel : readBlock mnt b s = some (r.map fun _ => slot b, { s with cache := c }) := by
    unfold readBlock
    rw [hm.read, hm.write, hread]
    rfl
  by_cases hhit : (s.cache.entries (slot b)).Holds b
  · rw [readBlock_hit hhit] at hread
    obtain ⟨rfl, rfl⟩ := Prod.mk.inj (Option.some.inj hread)
    exact ⟨_, hmodel, ⟨hc, hq⟩, rfl, rfl, rfl, hhit, (After.refl s).mono nofun le_rfl⟩
  · rw [readBlock_miss hhit] at hread
    obtain ⟨c₁, hflush, hread⟩ := Option.bind_eq_some_iff.1 hread
    obtain ⟨_, -, hread⟩ := Option.bind_eq_some_iff.1 hread
    obtain ⟨rfl, rfl⟩ := Prod.mk.inj (Option.some.inj hread)
    obtain ⟨hentries, htx⟩ := flushEntry_entries hflush
    refine ⟨_, hmodel, ⟨hc, hq⟩, rfl, hsame.handle, htx, ?_, fun i hi => ?_, ?_⟩
    · show CacheEntry.Holds ((c₁.setEntry (slot b) _).entries (slot b)) b
      rw [show ∀ e, (c₁.setEntry (slot b) e).entries (slot b) = e from fun e => Function.update_self ..]
      exact ⟨rfl, rfl⟩
    · have hne : i ≠ slot b := fun he => hi (List.mem_singleton.2 he)
      exact (Function.update_of_ne hne ..).trans (hentries i hne)
    · show Onward 0 s.cache.journal.state _
      rw [hsame.state]
      exact .refl _

theorem readBlock_live (hm : mnt.Smooth) (h : Held v s) (hb : b < 2 ^ 61) (hout : ¬ InJournal s.cache.journal.state b) :
    ∃ s', readBlock mnt b s = some (some (slot b), s') ∧ HasRead v b s s' := by
  obtain ⟨s', hread, hr⟩ := readBlock_cached hm h hb
  refine ⟨s', hread, hr, ?_⟩
  have hdata := hr.held.coherent.data (slot_lt b) hr.holds.1 (by
    rw [hr.holds.2, hr.after.journal.inJournal]
    exact hout)
  rwa [hr.holds.2] at hdata

/-! ## Writes -/

theorem poke_deref (s : State) (p : Nat) (data : Buf) : (s.poke p data).deref p = data := by
  show (Function.update s.cache.entries p { s.cache.entries p with data } p).data = data
  rw [Function.update_self]

theorem writeBlock_poke (hm : mnt.Smooth) (b : Nat) (s : State) (x data : Buf) :
    writeBlock mnt b data (s.poke (slot b) x) = writeBlock mnt b data s := by
  have hset : ∀ (c : BlockCache.State) e e', (c.setEntry (slot b) e).setEntry (slot b) e' = c.setEntry (slot b) e' :=
    fun c e e' => by
      unfold BlockCache.State.setEntry
      rw [Function.update_idem]
  have hcache : ∀ e, BlockCache.writeBlock true b data (s.cache.setEntry (slot b) e) =
      BlockCache.writeBlock true b data s.cache := fun e => by
    unfold BlockCache.writeBlock
    by_cases htx : s.cache.journalTxActive = true
    · rw [if_pos htx, if_pos (show (s.cache.setEntry (slot b) e).journalTxActive = true from htx)]
      exact congrArg (fun c => some (true, c)) (hset { s.cache with
        journal := (Ext3.writeBlock data (b % 2 ^ 32) s.cache.journal).2 } e _)
    · rw [if_neg htx, if_neg (show ¬ (s.cache.setEntry (slot b) e).journalTxActive = true from htx)]
      refine congrArg (Option.bind (s.cache.sectorStart b)) (funext fun _ => ?_)
      exact congrArg (fun c => some (true, c)) (hset (s.cache.writeSectors true b data) e _)
  unfold writeBlock State.poke
  rw [hm.write, hcache]

theorem beginJournalTx_poke (s : State) (p : Nat) (x : Buf) :
    beginJournalTx n (s.poke p x) = (beginJournalTx n s).map fun s => s.poke p x := by
  unfold beginJournalTx State.poke
  unfold BlockCache.beginJournalTx
  by_cases hcond : (s.cache.journal.state.active && !s.cache.journalTxActive) = true
  · rw [if_pos hcond, if_pos (show ((s.cache.setEntry p { s.cache.entries p with data := x }).journal.state.active &&
      !(s.cache.setEntry p { s.cache.entries p with data := x }).journalTxActive) = true from hcond)]
    show ((Ext3.start n s.cache.journal).bind _).map _ = (((Ext3.start n s.cache.journal).bind _).map _).map _
    cases Ext3.start n s.cache.journal with
    | none => rfl
    | some r => rfl
  · rw [if_neg hcond, if_neg (show ¬ ((s.cache.setEntry p { s.cache.entries p with data := x }).journal.state.active &&
      !(s.cache.setEntry p { s.cache.entries p with data := x }).journalTxActive) = true from hcond)]
    rfl

structure HasWritten (v : Nat → Buf) (b : Nat) (data : Buf) (s s' : State) : Prop where
  held : Held (Function.update v b data) s'
  superblock : s'.superblock = s.superblock
  tx : s'.cache.journalTxActive = s.cache.journalTxActive
  few : s'.cache.journal.handle.queued.length ≤ s.cache.journal.handle.queued.length + 1
  after : After [slot b] 0 s s'

theorem writeBlock_live (hm : mnt.Smooth) (h : Held v s) (hb : b < 2 ^ 32) (hh : (s.cache.entries (slot b)).Holds b)
    (hfew : s.cache.journalTxActive = true → s.cache.journal.handle.queued.length < Ext3.maxTxEntries) (data : Buf) :
    ∃ s', writeBlock mnt b data s = some (true, s') ∧ HasWritten v b data s s' := by
  have hlossless : Lossless s.cache (.writeBlock true b data) :=
    ⟨rfl, fun _ hne => absurd hh.2 hne, fun htx => ⟨hb, fun hfull => absurd (hfew htx) (Nat.not_lt.2 hfull)⟩⟩
  have hres : ∃ c, BlockCache.writeBlock true b data s.cache = some (true, c) := by
    unfold BlockCache.writeBlock
    split
    · exact ⟨_, rfl⟩
    · rw [sectorStart_of_lt (sector_lt h.coherent (by omega))]
      exact ⟨_, rfl⟩
  obtain ⟨c, hc⟩ := hres
  obtain ⟨hcoh, hq⟩ := h.coherent.writeBlock h.queued hlossless hc
  refine ⟨{ s with cache := c }, ?_, ⟨hcoh, hq⟩, rfl, ?_, ?_, fun i hi => ?_, ?_⟩
  · unfold writeBlock
    rw [hm.write, hc]
    rfl
  · rcases writeBlock_cases hc with ⟨-, rfl⟩ | ⟨-, -, ⟨hfalse, -⟩ | ⟨-, rfl⟩⟩
    · rfl
    · cases hfalse
    · rfl
  · rcases writeBlock_cases hc with ⟨-, rfl⟩ | ⟨-, -, ⟨hfalse, -⟩ | ⟨-, rfl⟩⟩
    · show (Ext3.writeBlock data (b % 2 ^ 32) s.cache.journal).2.handle.queued.length ≤ _
      unfold Ext3.writeBlock
      split
      · exact Nat.le_succ _
      · split
        · exact Nat.le_succ _
        · rw [List.length_append]
          exact le_rfl
    · cases hfalse
    · exact Nat.le_succ _
  · have hne : i ≠ slot b := fun he => hi (List.mem_singleton.2 he)
    rcases writeBlock_cases hc with ⟨-, rfl⟩ | ⟨-, -, ⟨hfalse, -⟩ | ⟨-, rfl⟩⟩
    · exact Function.update_of_ne hne ..
    · cases hfalse
    · exact Function.update_of_ne hne ..
  · rcases writeBlock_cases hc with ⟨-, rfl⟩ | ⟨-, -, ⟨hfalse, -⟩ | ⟨-, rfl⟩⟩
    · show Onward 0 s.cache.journal.state (Ext3.writeBlock data (b % 2 ^ 32) s.cache.journal).2.state
      rw [(queue_frame data _ _).1]
      exact .refl _
    · cases hfalse
    · exact .refl _

/-! ## Transactions -/

theorem beginJournalTx_live (h : Live v s) (hroom : Room 1 s.cache.journal.state) (k : Nat) :
    ∃ s', beginJournalTx k s = some s' ∧ Held v s' ∧ s'.superblock = s.superblock ∧
      s'.cache.entries = s.cache.entries ∧ Onward 1 s.cache.journal.state s'.cache.journal.state ∧
      (s'.cache.journalTxActive = true → s'.cache.journal.handle.queued = []) := by
  have hres : ∃ c, BlockCache.beginJournalTx k s.cache = some c := by
    unfold BlockCache.beginJournalTx
    split
    · next hcond =>
      have hactive : s.cache.journal.state.active = true := (Bool.and_eq_true_iff.1 hcond).1
      obtain ⟨hlt, hseq⟩ := hroom hactive
      have hstart : ∃ r, Ext3.start k s.cache.journal = some r := by
        unfold Ext3.start
        split
        · exact ⟨_, rfl⟩
        split
        · exact ⟨_, rfl⟩
        split
        · exact ⟨_, rfl⟩
        rw [Ext3.JournalState.freeSpace, if_pos hlt.le]
        simp only [bind, Option.bind_some]
        split
        · exact ⟨_, rfl⟩
        · rw [if_neg (by omega)]
          exact ⟨_, rfl⟩
      obtain ⟨r, hr⟩ := hstart
      rw [hr]
      exact ⟨_, rfl⟩
    · exact ⟨_, rfl⟩
  obtain ⟨c, hc⟩ := hres
  obtain ⟨hcoh, hq⟩ := h.coherent.beginJournalTx h.queued hc
  refine ⟨{ s with cache := c }, ?_, ⟨hcoh, hq⟩, rfl, ?_⟩
  · unfold beginJournalTx
    rw [hc]
    rfl
  · have hclosed : ∀ {P : Prop}, s.cache.journalTxActive = true → P := fun htx => by
      rw [h.closed] at htx
      cases htx
    rcases beginJournalTx_cases hc with rfl | ⟨-, started, j, hstart, rfl⟩
    · exact ⟨rfl, { Onward.refl _ with sequence := Nat.le_succ _ }, fun htx => hclosed htx⟩
    · rcases Ext3.start_cases hstart with ⟨rfl, rfl⟩ | ⟨rfl, -, -, rfl⟩
      · exact ⟨rfl, { Onward.refl _ with sequence := Nat.le_succ _ }, nofun⟩
      · exact ⟨rfl, ⟨rfl, rfl, rfl, rfl, le_rfl⟩, fun _ => rfl⟩

theorem commitJournalTx_live (hm : mnt.Smooth) (h : Held v s) :
    Live v (commitJournalTx mnt s) ∧ (commitJournalTx mnt s).superblock = s.superblock ∧
      After [] 0 s (commitJournalTx mnt s) := by
  obtain ⟨hcoh, hq⟩ := h.coherent.commitJournalTx h.queued hm.commit
  refine ⟨⟨⟨hcoh, hq⟩, ?_⟩, rfl, fun i _ => ?_, ?_⟩
  · show (BlockCache.commitJournalTx mnt.okCommit s.cache).journalTxActive = false
    unfold BlockCache.commitJournalTx
    split
    · rfl
    · next htx => simpa using htx
  · show (BlockCache.commitJournalTx mnt.okCommit s.cache).entries i = _
    unfold BlockCache.commitJournalTx
    split
    · rfl
    · rfl
  · show Onward 0 s.cache.journal.state (BlockCache.commitJournalTx mnt.okCommit s.cache).journal.state
    unfold BlockCache.commitJournalTx
    split
    · next htx =>
      obtain ⟨k, hstop⟩ := stop_all hm.commit (h.coherent.tx.symm.trans htx)
      rw [hstop]
      exact ⟨rfl, rfl, rfl, rfl, le_rfl⟩
    · exact .refl _

/-! ## Metadata -/

theorem HasRead.written {d : Buf} (h : HasRead v b s s') (h' : HasWritten v b d s' s'') : HasWritten v b d s s'' where
  held := h'.held
  superblock := h'.superblock.trans h.superblock
  tx := h'.tx.trans h.tx
  few := by
    rw [← h.handle]
    exact h'.few
  after := (h.after.trans h'.after).mono (by simp) le_rfl

theorem HasRead.room (h : HasRead v b s s')
    (hfew : s.cache.journalTxActive = true → s.cache.journal.handle.queued.length < k) :
    s'.cache.journalTxActive = true → s'.cache.journal.handle.queued.length < k := by
  rw [h.tx, h.handle]
  exact hfew

section Metadata
variable (hm : mnt.Smooth) (h : Held v s)
  (hfew : s.cache.journalTxActive = true → s.cache.journal.handle.queued.length < Ext3.maxTxEntries)
include hm h hfew

theorem writeSuperblock_live (hout : ¬ InJournal s.cache.journal.state (sbBlock mnt)) :
    ∃ s', writeSuperblock mnt s = some (true, s') ∧ HasWritten v (sbBlock mnt)
      (blit (v (sbBlock mnt)) (sbOffset mnt) s.superblock superblockSize) s s' := by
  have hsb : sbBlock mnt < 2 ^ 32 := by
    unfold sbBlock
    split
    · decide
    · decide
  obtain ⟨s₁, hread, h₁⟩ := readBlock_live hm h (by omega) hout
  unfold writeSuperblock
  rw [hread]
  simp only [bind, Option.bind_some]
  rw [poke_deref, writeBlock_poke hm, h₁.data, h₁.superblock]
  obtain ⟨s₂, hwrite, h₂⟩ := writeBlock_live hm h₁.held hsb h₁.holds (h₁.room hfew) _
  exact ⟨s₂, hwrite, h₁.written h₂⟩

theorem writeBlockGroupDesc_live {group : Nat} (hb : descBlock mnt group < 2 ^ 32)
    (hout : ¬ InJournal s.cache.journal.state (descBlock mnt group)) (bgd : Buf) :
    ∃ s', writeBlockGroupDesc mnt group bgd s = some (true, s') ∧ HasWritten v (descBlock mnt group)
      (blit (v (descBlock mnt group)) (descOffset mnt group) bgd 32) s s' := by
  obtain ⟨s₁, hread, h₁⟩ := readBlock_live hm h (by omega) hout
  unfold writeBlockGroupDesc
  rw [hread]
  simp only [bind, Option.bind_some]
  rw [poke_deref, writeBlock_poke hm, h₁.data]
  obtain ⟨s₂, hwrite, h₂⟩ := writeBlock_live hm h₁.held hb h₁.holds (h₁.room hfew) _
  exact ⟨s₂, hwrite, h₁.written h₂⟩

end Metadata

def metaBlocks (mnt : Mount) (v : Nat → Buf) (kind : BitmapKind) : List Nat :=
  [bitmapOf mnt v kind 0, sbBlock mnt, bgdtBlock mnt]

theorem descBlock_zero : descBlock mnt 0 = bgdtBlock mnt := by
  unfold descBlock
  rw [Nat.zero_div, Nat.add_zero]

theorem descOffset_zero : descOffset mnt 0 = 0 := by
  unfold descOffset
  rw [Nat.zero_mod, Nat.zero_mul]

theorem bitmapOf_zero (kind : BitmapKind) : bitmapOf mnt v kind 0 = getLE (v (bgdtBlock mnt)) kind.bitmap 4 := by
  unfold bitmapOf
  rw [descBlock_zero, descOffset_zero, Nat.zero_add]

theorem bgdtBlock_le : bgdtBlock mnt ≤ 2 := by
  unfold bgdtBlock
  split
  · exact le_rfl
  · decide

theorem sbBlock_ne_bgdtBlock : sbBlock mnt ≠ bgdtBlock mnt := by
  unfold sbBlock bgdtBlock
  split
  · decide
  · decide

structure Placed (mnt : Mount) (v : Nat → Buf) (kind : BitmapKind) (st : JournalState) : Prop where
  apartSb : bitmapOf mnt v kind 0 ≠ sbBlock mnt
  apartBgdt : bitmapOf mnt v kind 0 ≠ bgdtBlock mnt
  outside : ∀ b ∈ metaBlocks mnt v kind, ¬ InJournal st b

/-- Bytes 12 to 31 of a descriptor follow the block numbers. -/
structure BitmapKind.Proper (kind : BitmapKind) : Prop where
  bitmap : kind.bitmap + 4 ≤ kind.bgdCount
  count : kind.bgdCount + 2 ≤ 32
  sb : kind.sbCount + 4 ≤ superblockSize

@[simp] theorem blockBitmap_bitmap : blockBitmap.bitmap = 0 := rfl

@[simp] theorem blockBitmap_sbCount : blockBitmap.sbCount = 12 := rfl

@[simp] theorem blockBitmap_bgdCount : blockBitmap.bgdCount = 12 := rfl

theorem blockBitmap_proper : blockBitmap.Proper := ⟨by decide, by decide, by decide⟩

theorem inodeBitmap_proper : inodeBitmap.Proper := ⟨by decide, by decide, by decide⟩

structure Released (mnt : Mount) (kind : BitmapKind) (bit : Nat) (v v' : Nat → Buf) (s s' : State) : Prop where
  live : Live v' s'
  superblock : s'.superblock = putLE s.superblock kind.sbCount 4 (getLE s.superblock kind.sbCount 4 + 1)
  bitmap : v' (bitmapOf mnt v kind 0) = if bit / 8 < mnt.blockSize then clearBit (v (bitmapOf mnt v kind 0)) bit
    else v (bitmapOf mnt v kind 0)
  bgdt : v' (bgdtBlock mnt) =
    putLE (v (bgdtBlock mnt)) kind.bgdCount 2 (getLE (v (bgdtBlock mnt)) kind.bgdCount 2 + 1)
  others : ∀ b, b ∉ metaBlocks mnt v kind → v' b = v b
  after : After ((metaBlocks mnt v kind).map slot) 1 s s'

theorem poke_self (s : State) (p : Nat) : s.poke p (s.deref p) = s := by
  unfold State.poke State.deref BlockCache.State.setEntry
  rw [show ({ s.cache.entries p with data := (s.cache.entries p).data } : CacheEntry) = s.cache.entries p from rfl,
    Function.update_eq_self]

/-- The first bytes of a descriptor, with a counter changed, go back. -/
theorem blit_putLE {buf : Buf} {off : Nat} (n x : Nat) (h : off + n ≤ 32) :
    blit buf 0 (putLE buf off n x) 32 = putLE buf off n x := by
  funext i
  unfold blit
  split
  · rw [Nat.sub_zero]
  · rw [putLE_of_notMem (by omega)]

/-- The blocks after the writes of `writeMetadata`. -/
def recorded (mnt : Mount) (v : Nat → Buf) (bitmap : Nat) (x superblock bgd : Buf) : Nat → Buf :=
  let v := Function.update v bitmap x
  let v := Function.update v (sbBlock mnt) (blit (v (sbBlock mnt)) (sbOffset mnt) superblock superblockSize)
  Function.update v (bgdtBlock mnt) (blit (v (bgdtBlock mnt)) 0 bgd 32)

section Recorded
variable {kind : BitmapKind} {st : JournalState} (hp : Placed mnt v kind st) (x superblock : Buf)
include hp

theorem recorded_bitmap : recorded mnt v (bitmapOf mnt v kind 0) x superblock bgd (bitmapOf mnt v kind 0) = x := by
  show Function.update _ (bgdtBlock mnt) _ (bitmapOf mnt v kind 0) = _
  rw [Function.update_of_ne hp.apartBgdt, Function.update_of_ne hp.apartSb, Function.update_self]

theorem recorded_bgdt : recorded mnt v (bitmapOf mnt v kind 0) x superblock bgd (bgdtBlock mnt) =
    blit (v (bgdtBlock mnt)) 0 bgd 32 := by
  show Function.update _ (bgdtBlock mnt) _ (bgdtBlock mnt) = _
  rw [Function.update_self, Function.update_of_ne sbBlock_ne_bgdtBlock.symm, Function.update_of_ne hp.apartBgdt.symm]

theorem recorded_superblock : recorded mnt v (bitmapOf mnt v kind 0) x superblock bgd (sbBlock mnt) =
    blit (v (sbBlock mnt)) (sbOffset mnt) superblock superblockSize := by
  show Function.update _ (bgdtBlock mnt) _ (sbBlock mnt) = _
  rw [Function.update_of_ne sbBlock_ne_bgdtBlock, Function.update_self, Function.update_of_ne hp.apartSb.symm]

end Recorded

theorem recorded_others {kind : BitmapKind} (x superblock : Buf) (hb : b ∉ metaBlocks mnt v kind) :
    recorded mnt v (bitmapOf mnt v kind 0) x superblock bgd b = v b := by
  simp only [metaBlocks, List.mem_cons, List.not_mem_nil, or_false, not_or] at hb
  show Function.update _ (bgdtBlock mnt) _ b = _
  rw [Function.update_of_ne hb.2.2, Function.update_of_ne hb.2.1, Function.update_of_ne hb.1]

theorem writeMetadata_live {kind : BitmapKind} (hm : mnt.Smooth) (h : Live v s)
    (hroom : Room 1 s.cache.journal.state) (hp : Placed mnt v kind s.cache.journal.state)
    (hh : (s.cache.entries (slot (bitmapOf mnt v kind 0))).Holds (bitmapOf mnt v kind 0)) (x bgd : Buf) :
    ∃ s', writeMetadata mnt (bitmapOf mnt v kind 0) (slot (bitmapOf mnt v kind 0)) bgd
        (s.poke (slot (bitmapOf mnt v kind 0)) x) = some (true, s') ∧
      Live (recorded mnt v (bitmapOf mnt v kind 0) x s.superblock bgd) s' ∧ s'.superblock = s.superblock ∧
      After ((metaBlocks mnt v kind).map slot) 1 s s' := by
  have hbm : bitmapOf mnt v kind 0 < 2 ^ 32 := getLE_lt _ _ 4
  have hout := hp.outside
  unfold metaBlocks at hout ⊢
  generalize bitmapOf mnt v kind 0 = bm at hh hbm hout ⊢
  obtain ⟨s₁, hbegin, h₁, hsb₁, hentries₁, hon₁, hempty₁⟩ := beginJournalTx_live h hroom 3
  have hfew₁ : s₁.cache.journalTxActive = true → s₁.cache.journal.handle.queued.length < 1 := fun htx => by
    rw [hempty₁ htx]
    decide
  have hafter₁ : After [] 1 s s₁ := ⟨fun i _ => congrFun hentries₁ i, hon₁⟩
  -- the bitmap
  obtain ⟨s₂, hwrite, h₂⟩ := writeBlock_live hm h₁ hbm (by rwa [hentries₁]) (fun htx => (hfew₁ htx).trans (by decide)) x
  have hfew₂ : s₂.cache.journalTxActive = true → s₂.cache.journal.handle.queued.length < 2 := fun htx => by
    have := hfew₁ (h₂.tx ▸ htx)
    have := h₂.few
    omega
  have hafter₂ := hafter₁.trans h₂.after
  -- the superblock
  have hout₂ : ¬ InJournal s₂.cache.journal.state (sbBlock mnt) := fun hin =>
    hout _ (by simp) (hafter₂.journal.inJournal.1 hin)
  obtain ⟨s₃, hsuper, h₃⟩ := writeSuperblock_live hm h₂.held (fun htx => (hfew₂ htx).trans (by decide)) hout₂
  have hfew₃ : s₃.cache.journalTxActive = true → s₃.cache.journal.handle.queued.length < 3 := fun htx => by
    have := hfew₂ (h₃.tx ▸ htx)
    have := h₃.few
    omega
  have hafter₃ := hafter₂.trans h₃.after
  -- the descriptor
  have hout₃ : ¬ InJournal s₃.cache.journal.state (descBlock mnt 0) := fun hin =>
    hout _ (by simp [descBlock_zero]) (hafter₃.journal.inJournal.1 hin)
  have hgd : descBlock mnt 0 < 2 ^ 32 := by
    rw [descBlock_zero]
    exact lt_of_le_of_lt bgdtBlock_le (by decide)
  obtain ⟨s₄, hdesc, h₄⟩ := writeBlockGroupDesc_live hm h₃.held (fun htx => (hfew₃ htx).trans (by decide)) hgd hout₃ bgd
  obtain ⟨h₅, hsb₅, hafter₅⟩ := commitJournalTx_live hm h₄.held
  refine ⟨commitJournalTx mnt s₄, ?_, ?_, ?_, ?_⟩
  · unfold writeMetadata
    rw [beginJournalTx_poke, hbegin]
    simp only [Option.map_some, bind, Option.bind_some, pure]
    rw [poke_deref, writeBlock_poke hm, hwrite]
    simp only [Option.bind_some]
    rw [hsuper]
    simp only [Option.bind_some]
    rw [hdesc]
    rfl
  · unfold recorded
    have hsb₂ : s₂.superblock = s.superblock := h₂.superblock.trans hsb₁
    rw [descBlock_zero, descOffset_zero, hsb₂] at h₅
    exact h₅
  · exact hsb₅.trans (h₄.superblock.trans (h₃.superblock.trans (h₂.superblock.trans hsb₁)))
  · refine ((hafter₃.trans h₄.after).trans hafter₅).mono (fun i hi => ?_) le_rfl
    rw [descBlock_zero] at hi
    simpa using hi

theorem readBitmap_live {kind : BitmapKind} (hm : mnt.Smooth) (h : Live v s) (hroom : Room n s.cache.journal.state)
    (hp : Placed mnt v kind s.cache.journal.state) :
    ∃ s₁ s₂, readBlockGroup mnt 0 s = some (some (v (bgdtBlock mnt)), s₁) ∧
      readBlock mnt (bitmapOf mnt v kind 0) s₁ = some (some (slot (bitmapOf mnt v kind 0)), s₂) ∧
      Live v s₂ ∧ Room n s₂.cache.journal.state ∧ Placed mnt v kind s₂.cache.journal.state ∧
      (s₂.cache.entries (slot (bitmapOf mnt v kind 0))).Holds (bitmapOf mnt v kind 0) ∧
      s₂.deref (slot (bitmapOf mnt v kind 0)) = v (bitmapOf mnt v kind 0) ∧ s₂.superblock = s.superblock ∧
      After ((metaBlocks mnt v kind).map slot) 0 s s₂ := by
  have hout : ∀ b ∈ metaBlocks mnt v kind, ¬ InJournal s.cache.journal.state b := hp.outside
  obtain ⟨s₁, hread₁, h₁⟩ := readBlock_live (b := bgdtBlock mnt) hm h.toHeld
    (lt_of_le_of_lt bgdtBlock_le (by decide)) (hout _ (by simp [metaBlocks]))
  have hbmOut : ¬ InJournal s₁.cache.journal.state (bitmapOf mnt v kind 0) := fun hin =>
    hout _ (by simp [metaBlocks]) (h₁.after.journal.inJournal.1 hin)
  have hbm : bitmapOf mnt v kind 0 < 2 ^ 32 := getLE_lt _ _ 4
  obtain ⟨s₂, hread₂, h₂⟩ := readBlock_live hm h₁.held (by omega) hbmOut
  have hafter₂ := h₁.after.trans h₂.after
  refine ⟨s₁, s₂, ?_, hread₂, ⟨h₂.held, (h₂.tx.trans h₁.tx).trans h.closed⟩, hroom.same hafter₂.journal,
    ⟨hp.apartSb, hp.apartBgdt, fun b hb hin => hout b hb (hafter₂.journal.inJournal.1 hin)⟩, h₂.holds, h₂.data,
    h₂.superblock.trans h₁.superblock, hafter₂.mono (fun i hi => ?_) le_rfl⟩
  · have hbgd : (fun i => s₁.deref (slot (bgdtBlock mnt)) (descOffset mnt 0 + i)) = v (bgdtBlock mnt) := by
      funext i
      rw [h₁.data, descOffset_zero, Nat.zero_add]
    unfold readBlockGroup
    rw [descBlock_zero, hread₁]
    simp only [bind, Option.bind_some, Option.map_some, pure]
    rw [hbgd]
  · simp only [metaBlocks, List.map_cons, List.map_nil, List.mem_append, List.mem_cons, List.not_mem_nil,
      or_false] at hi ⊢
    tauto

theorem release_eq {kind : BitmapKind} (bit : Nat) (hm : mnt.Smooth) (h : Live v s)
    (hroom : Room n s.cache.journal.state) (hp : Placed mnt v kind s.cache.journal.state) :
    ∃ s₂, Live v s₂ ∧ Room n s₂.cache.journal.state ∧ Placed mnt v kind s₂.cache.journal.state ∧
      (s₂.cache.entries (slot (bitmapOf mnt v kind 0))).Holds (bitmapOf mnt v kind 0) ∧
      After ((metaBlocks mnt v kind).map slot) 0 s s₂ ∧
      release mnt kind bit s = if maxBlockSize ≤ bit / 8 then none
        else (increment s.superblock kind.sbCount 4).bind fun sb =>
          (increment (v (bgdtBlock mnt)) kind.bgdCount 2).bind fun bgd =>
            writeMetadata mnt (bitmapOf mnt v kind 0) (slot (bitmapOf mnt v kind 0)) bgd
              ({ s₂ with superblock := sb }.poke (slot (bitmapOf mnt v kind 0))
                (if bit / 8 < mnt.blockSize then clearBit (v (bitmapOf mnt v kind 0)) bit
                  else v (bitmapOf mnt v kind 0))) := by
  obtain ⟨s₁, s₂, hgroup, hread, h₂, hroom₂, hp₂, hholds, hdata, hsuper, hafter⟩ := readBitmap_live hm h hroom hp
  refine ⟨s₂, h₂, hroom₂, hp₂, hholds, hafter, ?_⟩
  have hpoke : (if bit / 8 < mnt.blockSize then
      s₂.poke (slot (bitmapOf mnt v kind 0)) (clearBit (s₂.deref (slot (bitmapOf mnt v kind 0))) bit) else s₂) =
      s₂.poke (slot (bitmapOf mnt v kind 0)) (if bit / 8 < mnt.blockSize then
        clearBit (v (bitmapOf mnt v kind 0)) bit else v (bitmapOf mnt v kind 0)) := by
    split
    · rw [hdata]
    · rw [← hdata, poke_self]
  unfold release
  rw [hgroup]
  simp only [bind, Option.bind_some]
  rw [← bitmapOf_zero, hread]
  simp only [Option.bind_some]
  rw [hpoke, ← hsuper]
  rfl

theorem release_live {kind : BitmapKind} (bit : Nat) (hm : mnt.Smooth) (h : Live v s) (hkind : kind.Proper)
    (hroom : Room 1 s.cache.journal.state) (hp : Placed mnt v kind s.cache.journal.state) (hbit : bit / 8 < maxBlockSize)
    (hsb : getLE s.superblock kind.sbCount 4 + 1 < 256 ^ 4)
    (hgd : getLE (v (bgdtBlock mnt)) kind.bgdCount 2 + 1 < 256 ^ 2) :
    ∃ s' v', release mnt kind bit s = some (true, s') ∧ Released mnt kind bit v v' s s' := by
  obtain ⟨s₂, h₂, hroom₂, hp₂, hh₂, hafter₂, heq⟩ := release_eq bit hm h hroom hp
  rw [if_neg (Nat.not_le.2 hbit), increment, if_pos hsb, increment, if_pos hgd, Option.bind_some, Option.bind_some] at heq
  generalize hx : (if bit / 8 < mnt.blockSize then clearBit (v (bitmapOf mnt v kind 0)) bit
    else v (bitmapOf mnt v kind 0)) = x at heq
  generalize hsb' : putLE s.superblock kind.sbCount 4 (getLE s.superblock kind.sbCount 4 + 1) = sb at heq
  generalize hbgd : putLE (v (bgdtBlock mnt)) kind.bgdCount 2 (getLE (v (bgdtBlock mnt)) kind.bgdCount 2 + 1) = bgd at heq
  have ht : Live v { s₂ with superblock := sb } := ⟨⟨h₂.coherent, h₂.queued⟩, h₂.closed⟩
  obtain ⟨s₃, hmeta, h₃, hsb₃, hafter₃⟩ := writeMetadata_live hm ht hroom₂ hp₂ hh₂ x bgd
  refine ⟨s₃, _, heq.trans hmeta, h₃, hsb₃.trans hsb'.symm, (recorded_bitmap hp x _).trans hx.symm, ?_,
    fun b hb => recorded_others x _ hb, ?_⟩
  · rw [recorded_bgdt hp x, ← hbgd]
    exact blit_putLE _ _ hkind.count
  · have hafter : After _ _ s s₃ := hafter₂.trans ⟨hafter₃.slots, hafter₃.journal⟩
    exact hafter.mono (by simp) le_rfl

theorem release_checked {kind : BitmapKind} {bit : Nat} {r : Bool × State} (hm : mnt.Smooth) (h : Live v s)
    (hroom : Room 1 s.cache.journal.state) (hp : Placed mnt v kind s.cache.journal.state)
    (hr : release mnt kind bit s = some r) : bit / 8 < maxBlockSize ∧
      getLE s.superblock kind.sbCount 4 + 1 < 256 ^ 4 ∧ getLE (v (bgdtBlock mnt)) kind.bgdCount 2 + 1 < 256 ^ 2 := by
  obtain ⟨s₂, -, -, -, -, -, heq⟩ := release_eq bit hm h hroom hp
  rw [hr] at heq
  split at heq
  · cases heq
  · next hbit =>
    obtain ⟨sb, hsb, heq⟩ := Option.bind_eq_some_iff.1 heq.symm
    obtain ⟨bgd, hbgd, -⟩ := Option.bind_eq_some_iff.1 heq
    unfold increment at hsb hbgd
    refine ⟨Nat.lt_of_not_le hbit, ?_, ?_⟩
    · by_contra hn
      rw [if_neg hn] at hsb
      cases hsb
    · by_contra hn
      rw [if_neg hn] at hbgd
      cases hbgd

end Zigix.FreeBlocks
