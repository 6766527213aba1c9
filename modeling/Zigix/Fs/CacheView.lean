import Zigix.Fs.BlockCache

/-!
# What a read sees

* `cache_transparent` : in every run of lossless calls `readBlock` returns what was written last.
-/

namespace Zigix.BlockCache

open Bytes
open Ext3 (Device Journal InJournal InRing lastTo)

/-- The contents of block `b`. -/
def State.view (s : State) (b : Nat) : Buf :=
  if (s.entries (slot b)).Holds b then (s.entries (slot b)).data else s.journal.device.blocks b

/-- What was written to `b` last. -/
def lastWritten (b : Nat) (ops : List Op) : Option Buf :=
  ops.foldl (fun acc op => match op with
    | .writeBlock _ b' data => if b' = b then some data else acc
    | _ => acc) none

/-- Calls without I/O errors, in which `writeBlock` does not replace a block whose contents are not on the disk and a
transaction takes every block that it holds already. -/
def Lossless (s : State) : Op → Prop
  | .readBlock okFlush okRead _ => okFlush = true ∧ okRead = true
  | .writeBlock ok b _ =>
    ok = true ∧
    ((s.entries (slot b)).valid = true → (s.entries (slot b)).blockNum ≠ b →
      s.journal.device.blocks (s.entries (slot b)).blockNum = (s.entries (slot b)).data) ∧
    (s.journalTxActive = true → b < 2 ^ 32 ∧
      (Ext3.maxTxEntries ≤ s.journal.handle.queued.length → ∀ q ∈ s.journal.handle.queued, q.1 ≠ b))
  | .flushEntry ok _ => ok = true
  | .invalidateCache ok => ∀ i, ok i = true
  | .beginJournalTx _ => True
  | .commitJournalTx ok => ∀ i, ok i = true
  | .revoke ok _ => ok = true ∧ s.journal.state.firstBlock < s.journal.state.maxBlocks

/-! ## Coherence -/

/-- The cache and the disk together hold what was written last. -/
structure Coherent (latest : Nat → Buf) (s : State) : Prop where
  small : s.sectorsPerBlock ≤ 8
  slots : ∀ i, i < blockCacheSize → (s.entries i).valid = true → slot (s.entries i).blockNum = i
  sectors : ∀ i, i < blockCacheSize → (s.entries i).valid = true → (s.entries i).blockNum * s.sectorsPerBlock < 2 ^ 64
  clean : ∀ i, i < blockCacheSize → (s.entries i).valid = true → (s.entries i).dirty = false →
    ¬ InJournal s.journal.state (s.entries i).blockNum →
    s.journal.device.blocks (s.entries i).blockNum = (s.entries i).data
  view : ∀ b, ¬ InJournal s.journal.state b → s.view b = latest b
  tx : s.journalTxActive = s.journal.handle.active
  room : s.journal.handle.active = true → s.journal.state.firstBlock < s.journal.state.maxBlocks
  pos : s.journal.state.firstBlock < s.journal.state.maxBlocks → InRing s.journal.state s.journal.state.writePos

def Queued (latest : Nat → Buf) (j : Journal) : Prop :=
  j.handle.active = true → ∀ b, ¬ InJournal j.state b → ∀ data, lastTo b j.handle.queued = some data → data = latest b

section Coherence
variable {latest : Nat → Buf} {s s' : State}

theorem Coherent.of_mounted {s₀ : State} (h : Mounted s₀) : Coherent s₀.journal.device.blocks s₀ := by
  have hinvalid : ∀ i, i < blockCacheSize → ¬ (s₀.entries i).valid = true := fun i hi => by rw [h.cache i hi]; decide
  have hidle : ¬ s₀.journal.handle.active = true := by rw [h.idle]; decide
  refine ⟨h.sectors, fun i hi hv => absurd hv (hinvalid i hi), fun i hi hv => absurd hv (hinvalid i hi),
    fun i hi hv => absurd hv (hinvalid i hi), fun b _ => ?_, ?_, fun ha => absurd ha hidle, fun hlt => ?_⟩
  · exact if_neg fun hh => hinvalid _ (slot_lt b) hh.1
  · rw [h.closed, h.idle]
  · rw [h.pos]
    exact ⟨le_rfl, hlt⟩

theorem Coherent.data (h : Coherent latest s) {i : Nat} (hi : i < blockCacheSize) (hv : (s.entries i).valid = true)
    (hout : ¬ InJournal s.journal.state (s.entries i).blockNum) : (s.entries i).data = latest (s.entries i).blockNum := by
  have hslot := h.slots i hi hv
  rw [← h.view _ hout, State.view, hslot, if_pos ⟨hv, rfl⟩]

theorem Coherent.journal (h : Coherent latest s) {j : Journal} {tx : Bool}
    (hstart : j.state.diskStartBlock = s.journal.state.diskStartBlock)
    (hmax : j.state.maxBlocks = s.journal.state.maxBlocks)
    (hdisk : ∀ b, ¬ InJournal s.journal.state b → j.device.blocks b = s.journal.device.blocks b ∨
      j.device.blocks b = latest b)
    (htx : tx = j.handle.active) (hroom : j.handle.active = true → j.state.firstBlock < j.state.maxBlocks)
    (hpos : j.state.firstBlock < j.state.maxBlocks → InRing j.state j.state.writePos) :
    Coherent latest { s with journal := j, journalTxActive := tx } := by
  have hin : ∀ b, InJournal j.state b ↔ InJournal s.journal.state b := fun b => by
    unfold InJournal
    rw [hstart, hmax]
  refine ⟨h.small, h.slots, h.sectors, fun i hi hv hd hout => ?_, fun b hout => ?_, htx, hroom, hpos⟩
  · have hout := (hin _).not.1 hout
    rcases hdisk _ hout with heq | heq
    · exact heq.trans (h.clean i hi hv hd hout)
    · exact heq.trans (h.data hi hv hout).symm
  · have hout := (hin b).not.1 hout
    rw [← h.view b hout]
    unfold State.view
    by_cases hh : (s.entries (slot b)).Holds b
    · rw [if_pos hh, if_pos hh]
    · have hview : s.journal.device.blocks b = latest b := by
        rw [← h.view b hout, State.view, if_neg hh]
      rw [if_neg hh, if_neg hh]
      rcases hdisk b hout with heq | heq
      · exact heq
      · exact heq.trans hview.symm

theorem Coherent.setEntry (h : Coherent latest s) {latest' : Nat → Buf} {idx : Nat} {e : CacheEntry}
    (hslot : e.valid = true → slot e.blockNum = idx)
    (hsector : e.valid = true → e.blockNum * s.sectorsPerBlock < 2 ^ 64)
    (hclean : e.valid = true → e.dirty = false → ¬ InJournal s.journal.state e.blockNum →
      s.journal.device.blocks e.blockNum = e.data)
    (hnew : ∀ b, ¬ InJournal s.journal.state b → e.Holds b → e.data = latest' b)
    (hold : ∀ b, ¬ InJournal s.journal.state b → slot b = idx → ¬ e.Holds b → s.journal.device.blocks b = latest' b)
    (hother : ∀ b, slot b ≠ idx → latest' b = latest b) : Coherent latest' (s.setEntry idx e) := by
  have hself : (s.setEntry idx e).entries idx = e := Function.update_self _ _ _
  have hne : ∀ {i}, i ≠ idx → (s.setEntry idx e).entries i = s.entries i := fun hi => Function.update_of_ne hi _ _
  refine ⟨h.small, fun i hi => ?_, fun i hi => ?_, fun i hi => ?_, fun b hout => ?_, h.tx, h.room, h.pos⟩
  · by_cases heq : i = idx
    · rw [heq, hself]
      exact hslot
    · rw [hne heq]
      exact h.slots i hi
  · by_cases heq : i = idx
    · rw [heq, hself]
      exact hsector
    · rw [hne heq]
      exact h.sectors i hi
  · by_cases heq : i = idx
    · rw [heq, hself]
      exact hclean
    · rw [hne heq]
      exact h.clean i hi
  · unfold State.view
    by_cases heq : slot b = idx
    · rw [heq, hself]
      split
      · next hh => exact hnew b hout hh
      · next hh => exact hold b hout heq hh
    · rw [hne heq, hother b heq]
      exact h.view b hout

theorem Coherent.on_disk (h : Coherent latest s) {b : Nat} (hout : ¬ InJournal s.journal.state b)
    (hh : ¬ (s.entries (slot b)).Holds b) : s.journal.device.blocks b = latest b := by
  rw [← h.view b hout, State.view, if_neg hh]

/-- What is left alone by reads and flushes. -/
structure SameJournal (s s' : State) : Prop where
  handle : s'.journal.handle = s.journal.handle
  state : s'.journal.state = s.journal.state

theorem SameJournal.trans {s₁ s₂ s₃ : State} (h : SameJournal s₁ s₂) (h' : SameJournal s₂ s₃) : SameJournal s₁ s₃ :=
  ⟨h'.handle.trans h.handle, h'.state.trans h.state⟩

theorem SameJournal.queued (h : SameJournal s s') (hq : Queued latest s.journal) : Queued latest s'.journal := by
  unfold Queued
  rw [h.handle, h.state]
  exact hq

theorem Coherent.flushEntry (h : Coherent latest s) {idx : Nat} (hidx : idx < blockCacheSize)
    (hf : flushEntry true idx s = some s') :
    Coherent latest s' ∧ SameJournal s s' ∧ (s'.entries idx).valid = (s.entries idx).valid ∧
      (s'.entries idx).blockNum = (s.entries idx).blockNum ∧
      ((s'.entries idx).valid = true → (s'.entries idx).dirty = false) := by
  rcases flushEntry_cases hf with ⟨hnot, rfl⟩ | ⟨hv, hd, rfl⟩
  · refine ⟨h, ⟨rfl, rfl⟩, rfl, rfl, fun hv => ?_⟩
    by_contra hd
    exact hnot ⟨hv, by simpa using hd⟩
  · generalize he : s.entries idx = e at hv hd ⊢
    have hself : ∀ s₁ : State, (s₁.setEntry idx { e with dirty := false }).entries idx = { e with dirty := false } :=
      fun s₁ => Function.update_self _ _ _
    have hdata : ¬ InJournal s.journal.state e.blockNum → e.data = latest e.blockNum := by
      have := h.data hidx (by rw [he]; exact hv)
      rwa [he] at this
    have hslot : slot e.blockNum = idx := by
      have := h.slots idx hidx (by rw [he]; exact hv)
      rwa [he] at this
    have hsector : e.blockNum * s.sectorsPerBlock < 2 ^ 64 := by
      have := h.sectors idx hidx (by rw [he]; exact hv)
      rwa [he] at this
    have hwritten : Coherent latest (s.writeSectors true e.blockNum e.data) := by
      refine h.journal rfl rfl (fun b hout => ?_) h.tx h.room h.pos
      show Function.update s.journal.device.blocks e.blockNum e.data b = _ ∨
        Function.update s.journal.device.blocks e.blockNum e.data b = _
      by_cases hb : b = e.blockNum
      · rw [hb, Function.update_self]
        exact .inr (hdata (hb ▸ hout))
      · rw [Function.update_of_ne hb]
        exact .inl rfl
    refine ⟨hwritten.setEntry (fun _ => hslot) (fun _ => hsector) (fun _ _ _ => Function.update_self _ _ _)
      (fun b hout hh => ?_) (fun b hout hb hh => ?_) fun _ _ => rfl, ⟨rfl, rfl⟩, ?_, ?_, ?_⟩
    · rw [← hh.2]
      exact hdata (hh.2.symm ▸ hout)
    · have hne : b ≠ e.blockNum := fun hb => hh ⟨hv, hb.symm⟩
      show Function.update s.journal.device.blocks e.blockNum e.data b = _
      rw [Function.update_of_ne hne]
      refine h.on_disk hout fun hh => hne ?_
      rw [hb, he] at hh
      exact hh.2.symm
    · rw [hself]
    · rw [hself]
    · rw [hself]
      exact fun _ => rfl

theorem Coherent.flushEntry_returns (h : Coherent latest s) {idx : Nat} (hidx : idx < blockCacheSize) {ok : Bool} :
    ∃ s', BlockCache.flushEntry ok idx s = some s' ∧ s'.sectorsPerBlock = s.sectorsPerBlock := by
  by_cases hclean : (s.entries idx).valid = true ∧ (s.entries idx).dirty = true
  · refine ⟨_, flushEntry_dirty hclean.1 hclean.2 (h.sectors idx hidx hclean.1), ?_⟩
    cases ok
    · rfl
    · rfl
  · exact ⟨s, flushEntry_clean hclean, rfl⟩

theorem Coherent.dropped (h : Coherent latest s) {idx : Nat} (hidx : idx < blockCacheSize)
    (hclean : (s.entries idx).valid = true → (s.entries idx).dirty = false) {b : Nat}
    (hout : ¬ InJournal s.journal.state b) (hb : slot b = idx) : s.journal.device.blocks b = latest b := by
  by_cases hh : (s.entries (slot b)).Holds b
  · rw [hb] at hh
    have heq := h.clean idx hidx hh.1 (hclean hh.1) (by rwa [hh.2])
    rw [hh.2] at heq
    rw [heq, h.data hidx hh.1 (by rwa [hh.2]), hh.2]
  · exact h.on_disk hout hh

theorem Coherent.fill (h : Coherent latest s) {b : Nat} (hsector : b * s.sectorsPerBlock < 2 ^ 64)
    (hclean : (s.entries (slot b)).valid = true → (s.entries (slot b)).dirty = false) :
    Coherent latest (s.setEntry (slot b)
      { blockNum := b, data := s.journal.device.blocks b, valid := true, dirty := false }) := by
  refine h.setEntry (fun _ => rfl) (fun _ => hsector) (fun _ _ _ => rfl) (fun b' hout hh => ?_)
    (fun b' hout hb _ => h.dropped (slot_lt b) hclean hout hb) fun _ _ => rfl
  have hb : b = b' := hh.2
  rw [← hb]
  exact h.dropped (slot_lt b) hclean (hb ▸ hout) rfl

theorem Coherent.invalidate (h : Coherent latest s) {idx : Nat} (hidx : idx < blockCacheSize)
    (hclean : (s.entries idx).valid = true → (s.entries idx).dirty = false) :
    Coherent latest (s.setEntry idx { s.entries idx with valid := false }) :=
  h.setEntry nofun nofun nofun (fun _ _ hh => absurd hh.1 Bool.false_ne_true)
    (fun _ hout hb _ => h.dropped hidx hclean hout hb) fun _ _ => rfl

theorem Coherent.readBlock (h : Coherent latest s) {b : Nat} {r : Option Buf}
    (hres : readBlock true true b s = some (r, s')) :
    Coherent latest s' ∧ SameJournal s s' ∧ (¬ InJournal s.journal.state b → r = some (latest b)) := by
  by_cases hhit : (s.entries (slot b)).Holds b
  · rw [readBlock_hit hhit] at hres
    obtain ⟨rfl, rfl⟩ := Prod.mk.inj (Option.some.inj hres)
    refine ⟨h, ⟨rfl, rfl⟩, fun hout => ?_⟩
    rw [← h.view b hout, State.view, if_pos hhit]
  · rw [readBlock_miss hhit] at hres
    obtain ⟨s₁, hflush, hres⟩ := Option.bind_eq_some_iff.1 hres
    obtain ⟨n, hn, hres⟩ := Option.bind_eq_some_iff.1 hres
    obtain ⟨rfl, rfl⟩ := Prod.mk.inj (Option.some.inj hres)
    obtain ⟨hc, hsame, hv, hb, hclean⟩ := h.flushEntry (slot_lt b) hflush
    refine ⟨hc.fill (sectorStart_some hn) hclean, ⟨hsame.handle, hsame.state⟩, fun hout => ?_⟩
    rw [hc.on_disk (by rwa [hsame.state])]
    rintro ⟨hvalid, hnum⟩
    exact hhit ⟨hv ▸ hvalid, hb ▸ hnum⟩

theorem Coherent.readBlock_returns (h : Coherent latest s) {b : Nat} (hsector : b * s.sectorsPerBlock < 2 ^ 64) :
    ∃ r s', BlockCache.readBlock true true b s = some (r, s') := by
  by_cases hhit : (s.entries (slot b)).Holds b
  · exact ⟨_, _, readBlock_hit hhit⟩
  · rw [readBlock_miss hhit]
    obtain ⟨s₁, hflush, hsame⟩ := h.flushEntry_returns (slot_lt b)
    rw [hflush, Option.bind_some, sectorStart_of_lt (by rwa [hsame])]
    exact ⟨_, _, rfl⟩

theorem Coherent.invalidateLoop (h : Coherent latest s) {ok : Nat → Bool} (hok : ∀ i, ok i = true) {is : List Nat}
    (his : ∀ i ∈ is, i < blockCacheSize) (hres : invalidateLoop ok is s = some s') :
    Coherent latest s' ∧ SameJournal s s' := by
  induction is generalizing s with
  | nil =>
    obtain rfl := Option.some.inj hres
    exact ⟨h, rfl, rfl⟩
  | cons i rest ih =>
    obtain ⟨s₁, hflush, hres⟩ := Option.bind_eq_some_iff.1 hres
    rw [hok i] at hflush
    have hi := his i List.mem_cons_self
    obtain ⟨hc, hsame, -, -, hclean⟩ := h.flushEntry hi hflush
    obtain ⟨hc', hsame'⟩ := ih (hc.invalidate hi hclean) (fun i hi => his i (List.mem_cons_of_mem _ hi)) hres
    exact ⟨hc', hsame.trans ⟨hsame'.handle, hsame'.state⟩⟩

theorem update_latest {b b' : Nat} {data : Buf} (h : slot b' ≠ slot b) : Function.update latest b data b' = latest b' := by
  refine Function.update_of_ne ?_ _ _
  rintro rfl
  exact h rfl

theorem Coherent.store (h : Coherent latest s) {b : Nat} (data : Buf) (hsector : b * s.sectorsPerBlock < 2 ^ 64)
    (hsaved : (s.entries (slot b)).valid = true → (s.entries (slot b)).blockNum ≠ b →
      s.journal.device.blocks (s.entries (slot b)).blockNum = (s.entries (slot b)).data) :
    Coherent (Function.update latest b data)
      (s.setEntry (slot b) { blockNum := b, data, valid := true, dirty := true }) := by
  refine h.setEntry (fun _ => rfl) (fun _ => hsector) nofun (fun b' hout hh => ?_) (fun b' hout hb hh => ?_)
    fun b' hb => update_latest hb
  · have hb : b = b' := hh.2
    rw [← hb, Function.update_self]
  · have hne : b' ≠ b := fun heq => hh ⟨rfl, heq.symm⟩
    rw [Function.update_of_ne hne]
    by_cases hheld : (s.entries (slot b')).Holds b'
    · rw [hb] at hheld
      have heq := hsaved hheld.1 (by rw [hheld.2]; exact hne)
      rw [hheld.2] at heq
      rw [heq, h.data (slot_lt b) hheld.1 (by rwa [hheld.2]), hheld.2]
    · exact h.on_disk hout hheld

theorem Queued.writeBlock {j : Journal} (hq : Queued latest j) {b : Nat} {data : Buf}
    (hactive : j.handle.active = true)
    (hfull : Ext3.maxTxEntries ≤ j.handle.queued.length → ∀ q ∈ j.handle.queued, q.1 ≠ b) :
    Queued (Function.update latest b data) (Ext3.writeBlock data b j).2 := by
  intro _ b' hout d hd
  obtain ⟨hstate, -, -, -⟩ := queue_frame data b j
  rw [hstate] at hout
  rcases queue_cases data b hactive with ⟨hmany, hsame⟩ | happend
  · rw [hsame] at hd
    have hne : b' ≠ b := by
      rintro rfl
      rw [Ext3.lastTo_eq_none.2 (hfull hmany)] at hd
      cases hd
    rw [Function.update_of_ne hne]
    exact hq hactive b' hout d hd
  · rw [happend, Ext3.lastTo_append] at hd
    by_cases hb : b = b'
    · rw [if_pos hb] at hd
      rw [← hb, Function.update_self]
      exact (Option.some.inj hd).symm
    · rw [if_neg hb] at hd
      rw [Function.update_of_ne (Ne.symm hb)]
      exact hq hactive b' hout d hd

theorem Coherent.writeBlock (h : Coherent latest s) (hq : Queued latest s.journal) {b : Nat} {data : Buf} {res : Bool}
    (ha : Lossless s (.writeBlock true b data)) (hres : writeBlock true b data s = some (res, s')) :
    Coherent (Function.update latest b data) s' ∧ Queued (Function.update latest b data) s'.journal := by
  obtain ⟨-, hsaved, htx⟩ := ha
  rcases writeBlock_cases hres with ⟨htxa, rfl⟩ | ⟨htxa, hsector, ⟨hok, -⟩ | ⟨-, rfl⟩⟩
  · obtain ⟨hlt, hfull⟩ := htx htxa
    have hactive : s.journal.handle.active = true := h.tx.symm.trans htxa
    have hsector : b * s.sectorsPerBlock < 2 ^ 64 := by
      have := Nat.mul_le_mul (Nat.le_of_lt hlt) h.small
      omega
    rw [Nat.mod_eq_of_lt hlt]
    refine ⟨?_, hq.writeBlock hactive hfull⟩
    obtain ⟨hstate, hdevice, hhandle, -⟩ := queue_frame data b s.journal
    refine (h.store data hsector hsaved).journal (congrArg _ hstate) (congrArg _ hstate) (fun b' _ => .inl ?_) ?_ ?_ ?_
    · rw [hdevice]
      rfl
    · rw [hhandle]
      exact h.tx
    · rw [hhandle, hstate]
      exact h.room
    · rw [hstate]
      exact h.pos
  · cases hok
  · have hidle : ¬ s.journal.handle.active = true := by
      rw [← h.tx, htxa]
      decide
    refine ⟨(h.store data hsector hsaved).journal rfl rfl (fun b' hout => ?_) h.tx h.room h.pos,
      fun ha => absurd ha hidle⟩
    show Function.update s.journal.device.blocks b data b' = _ ∨ Function.update s.journal.device.blocks b data b' = _
    by_cases hb : b' = b
    · rw [hb, Function.update_self, Function.update_self]
      exact .inr rfl
    · rw [Function.update_of_ne hb]
      exact .inl rfl

theorem Coherent.beginJournalTx (h : Coherent latest s) (hq : Queued latest s.journal) {n : Nat}
    (hres : beginJournalTx n s = some s') : Coherent latest s' ∧ Queued latest s'.journal := by
  rcases beginJournalTx_cases hres with rfl | ⟨htx, started, j, hstart, rfl⟩
  · exact ⟨h, hq⟩
  · rcases Ext3.start_cases hstart with ⟨rfl, rfl⟩ | ⟨rfl, -, -, rfl⟩
    · refine ⟨h.journal rfl rfl (fun _ _ => .inl rfl) ?_ h.room h.pos, hq⟩
      rw [← h.tx, htx]
    · have hroom := start_room hstart
      exact ⟨h.journal rfl rfl (fun _ _ => .inl rfl) rfl (fun _ => hroom) h.pos, fun _ _ _ _ hd => nomatch hd⟩

theorem Coherent.commitJournalTx (h : Coherent latest s) (hq : Queued latest s.journal) {ok : Nat → Bool}
    (hok : ∀ i, ok i = true) :
    Coherent latest (commitJournalTx ok s) ∧ Queued latest (commitJournalTx ok s).journal := by
  unfold BlockCache.commitJournalTx
  split
  · next htx =>
    have hactive : s.journal.handle.active = true := h.tx.symm.trans htx
    have hring := h.pos (h.room hactive)
    obtain ⟨k, hstop⟩ := stop_all hok hactive
    rw [hstop]
    refine ⟨h.journal rfl rfl (fun b hout => ?_) rfl nofun fun _ => hring.iterate k, nofun⟩
    show (s.journal.device.writeAll _).blocks b = _ ∨ (s.journal.device.writeAll _).blocks b = _
    rw [stopWrites_blocks hring hout]
    cases hd : lastTo b s.journal.handle.queued with
    | none => exact .inl rfl
    | some data => exact .inr (hq hactive b hout data hd)
  · exact ⟨h, hq⟩

theorem Coherent.revoke (h : Coherent latest s) (hq : Queued latest s.journal) {b : Nat}
    (hroom : s.journal.state.firstBlock < s.journal.state.maxBlocks) :
    Coherent latest { s with journal := (Ext3.revoke true b s.journal).2 } ∧
      Queued latest (Ext3.revoke true b s.journal).2 := by
  have hring := h.pos hroom
  unfold Ext3.revoke
  split
  · exact ⟨h, hq⟩
  · rw [if_pos rfl]
    refine ⟨h.journal rfl rfl (fun b' hout => .inl ?_) h.tx h.room fun _ => hring.iterate 1, hq⟩
    refine Function.update_of_ne ?_ _ _
    rintro rfl
    exact hout hring.inJournal

/-! ## Runs -/

def Op.after (latest : Nat → Buf) : Op → Nat → Buf
  | .writeBlock _ b data => Function.update latest b data
  | _ => latest

theorem Coherent.step (h : Coherent latest s) (hq : Queued latest s.journal) {op : Op} (ha : Lossless s op)
    (hres : op.run s = some s') : Coherent (op.after latest) s' ∧ Queued (op.after latest) s'.journal := by
  cases op with
  | readBlock okFlush okRead b =>
    obtain ⟨rfl, rfl⟩ := ha
    obtain ⟨⟨r, s₁⟩, hread, rfl⟩ := Option.map_eq_some_iff.1 hres
    obtain ⟨hc, hsame, -⟩ := h.readBlock hread
    exact ⟨hc, hsame.queued hq⟩
  | writeBlock ok b data =>
    obtain rfl := ha.1
    obtain ⟨⟨r, s₁⟩, hwrite, rfl⟩ := Option.map_eq_some_iff.1 hres
    exact h.writeBlock hq ha hwrite
  | flushEntry ok idx =>
    obtain rfl : ok = true := ha
    obtain ⟨hc, hsame, -⟩ := h.flushEntry idx.isLt hres
    exact ⟨hc, hsame.queued hq⟩
  | invalidateCache ok =>
    obtain ⟨hc, hsame⟩ := h.invalidateLoop ha (fun i => List.mem_range.1) hres
    exact ⟨hc, hsame.queued hq⟩
  | beginJournalTx n => exact h.beginJournalTx hq hres
  | commitJournalTx ok =>
    obtain rfl := Option.some.inj hres
    exact h.commitJournalTx hq ha
  | revoke ok b =>
    obtain ⟨rfl, hroom⟩ := ha
    obtain rfl := Option.some.inj hres
    exact h.revoke hq hroom

theorem lastWritten_append (b : Nat) (ops : List Op) (op : Op) (d : Nat → Buf) :
    (lastWritten b (ops ++ [op])).getD (d b) = op.after (fun b => (lastWritten b ops).getD (d b)) b := by
  rw [lastWritten, List.foldl_append]
  cases op with
  | writeBlock ok b' data =>
    show (if b' = b then some data else lastWritten b ops).getD (d b) =
      Function.update (fun b => (lastWritten b ops).getD (d b)) b' data b
    by_cases hb : b' = b
    · rw [if_pos hb, ← hb, Function.update_self]
      rfl
    · rw [if_neg hb, Function.update_of_ne (Ne.symm hb)]
  | _ => rfl

theorem coherent_run {s₀ : State} {ops : List Op} (h₀ : Mounted s₀) (hrun : Run Lossless s₀ ops s) :
    Coherent (fun b => (lastWritten b ops).getD (s₀.journal.device.blocks b)) s ∧
      Queued (fun b => (lastWritten b ops).getD (s₀.journal.device.blocks b)) s.journal := by
  induction hrun with
  | init =>
    refine ⟨Coherent.of_mounted h₀, fun ha => ?_⟩
    rw [h₀.idle] at ha
    cases ha
  | @step ops s s' op _ ha hres ih =>
    obtain ⟨hc, hq⟩ := ih.1.step ih.2 ha hres
    have hlatest : (fun b => (lastWritten b (ops ++ [op])).getD (s₀.journal.device.blocks b)) =
        op.after fun b => (lastWritten b ops).getD (s₀.journal.device.blocks b) :=
      funext fun b => lastWritten_append b ops op _
    rw [hlatest]
    exact ⟨hc, hq⟩

/-- **The cache is transparent** in every run of lossless calls: `readBlock` returns what was written last, or what the
disk held from the beginning. -/
theorem cache_transparent {s₀ : State} {ops : List Op} (h₀ : Mounted s₀) (hrun : Run Lossless s₀ ops s) {b : Nat}
    (hout : ¬ InJournal s.journal.state b) (hsector : b * s.sectorsPerBlock < 2 ^ 64) :
    ∃ s', readBlock true true b s = some (some ((lastWritten b ops).getD (s₀.journal.device.blocks b)), s') := by
  obtain ⟨hc, -⟩ := coherent_run h₀ hrun
  obtain ⟨r, s', hread⟩ := hc.readBlock_returns hsector
  obtain ⟨-, -, hr⟩ := hc.readBlock hread
  exact ⟨s', by rw [hread, hr hout]⟩

end Coherence

/-! ### Two blocks of one slot -/

section Collision

def blankFs : State where
  sectorsPerBlock := 2
  entries := fun _ => { blockNum := 0, data := Ext3.zeros, valid := false, dirty := false }
  journalTxActive := false
  journal := Ext3.blank

theorem blankFs_mounted : Mounted blankFs := ⟨by decide, fun _ _ => rfl, rfl, rfl, rfl⟩

def plainOp (_ : State) : Op → Bool
  | .writeBlock ok _ _ => ok
  | .beginJournalTx _ => true
  | _ => false

theorem plainOp_smooth (s : State) (op : Op) (h : plainOp s op = true) : op.Smooth := by
  cases op with
  | writeBlock ok b data => exact h
  | beginJournalTx n => trivial
  | _ => cases h

/-- Blocks 5 and 517 have the same slot: in a transaction the second write drops the first, and reading it back gives what
is on the disk. -/
theorem collision_loses_write :
    ∃ (ops : List Op) (s s' : State) (buf : Buf), Run (fun _ op => op.Smooth) blankFs ops s ∧
      readBlock true true 5 s = some (some buf, s') ∧
      buf ≠ (lastWritten 5 ops).getD (blankFs.journal.device.blocks 5) := by
  have hrun : (runOps plainOp [.beginJournalTx 2, .writeBlock true 5 fun _ => 7, .writeBlock true 517 fun _ => 8]
      blankFs).bind (fun s => (readBlock true true 5 s).bind fun r => r.1.map fun buf => buf 0) = some 0 := by
    decide +kernel
  obtain ⟨s, hops, hread⟩ := Option.bind_eq_some_iff.1 hrun
  obtain ⟨⟨r, s'⟩, hread, hbuf⟩ := Option.bind_eq_some_iff.1 hread
  obtain ⟨buf, rfl, hzero⟩ := Option.map_eq_some_iff.1 hbuf
  refine ⟨_, s, s', buf, (run_of_runOps .init hops).mono plainOp_smooth, hread, fun heq => ?_⟩
  rw [heq] at hzero
  exact absurd hzero (by decide)

def roomyOp (s : State) : Op → Bool
  | .writeBlock ok b _ =>
    ok && !(s.entries (slot b)).valid && decide (b < 2 ^ 32) && decide (s.journal.handle.queued.length < Ext3.maxTxEntries)
  | .beginJournalTx _ => true
  | _ => false

theorem roomyOp_lossless (s : State) (op : Op) (h : roomyOp s op = true) : Lossless s op := by
  cases op with
  | writeBlock ok b data =>
    simp only [roomyOp, Bool.and_eq_true, Bool.not_eq_true', decide_eq_true_eq] at h
    obtain ⟨⟨⟨rfl, hempty⟩, hlt⟩, hroom⟩ := h
    refine ⟨rfl, fun hv => ?_, fun _ => ⟨hlt, fun hfull => absurd hroom (by omega)⟩⟩
    rw [hempty] at hv
    cases hv
  | beginJournalTx n => trivial
  | _ => cases h

theorem cache_transparent_in_tx :
    ∃ (s s' : State), readBlock true true 5 s = some (some fun _ => 7, s') ∧ s.journalTxActive = true := by
  have hrun : (runOps roomyOp [.beginJournalTx 2, .writeBlock true 5 fun _ => 7, .writeBlock true 6 fun _ => 8]
      blankFs).map (fun s => (s.journalTxActive, s.sectorsPerBlock, decide (InJournal s.journal.state 5))) =
      some (true, 2, false) := by
    decide +kernel
  obtain ⟨s, hops, hval⟩ := Option.map_eq_some_iff.1 hrun
  simp only [Prod.mk.injEq, decide_eq_false_iff_not] at hval
  obtain ⟨htx, hspb, hout⟩ := hval
  have hreach := (run_of_runOps .init hops).mono roomyOp_lossless
  obtain ⟨s', hread⟩ := cache_transparent blankFs_mounted hreach hout (by rw [hspb]; decide)
  exact ⟨s, s', hread, htx⟩

end Collision

end Zigix.BlockCache
