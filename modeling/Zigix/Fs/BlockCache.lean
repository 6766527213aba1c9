import Zigix.Fs.JournalCrash

/-!
# The block cache (block cache and journal helpers of `kernel/fs/ext2.zig`)

A direct-mapped cache of 512 blocks with write-back, in front of the disk and of the journal:

* `flushEntry`, `invalidateCache`, `readBlock`, `writeBlock` : the cache;
* `beginJournalTx`, `commitJournalTx` : the transactions in which `writeBlock` queues instead of writing;
* `Op`, `Run` : sequences of such calls.

The LRU list of the cache decides nothing and is left out. A read or a write that fails leaves its buffer or its block as
it was. `none` is a kernel panic: the number of a sector does not fit 64 bits.
-/

namespace Zigix.BlockCache

open Bytes
open Ext3 (Device Journal InJournal InRing)

def blockCacheSize : Nat := 512

structure CacheEntry where
  blockNum : Nat
  data : Buf
  valid : Bool
  dirty : Bool

/-- The entry holds block `b`. -/
def CacheEntry.Holds (e : CacheEntry) (b : Nat) : Prop := e.valid = true ∧ e.blockNum = b

instance (e : CacheEntry) (b : Nat) : Decidable (e.Holds b) := inferInstanceAs (Decidable (_ ∧ _))

structure State where
  sectorsPerBlock : Nat
  /-- `block_cache`; the entries below `blockCacheSize` are in use -/
  entries : Nat → CacheEntry
  journalTxActive : Bool
  /-- the journal, with the disk that it shares with the cache -/
  journal : Journal

def slot (b : Nat) : Nat := b % blockCacheSize

def State.setEntry (s : State) (idx : Nat) (e : CacheEntry) : State :=
  { s with entries := Function.update s.entries idx e }

/-- `block_io.writeSectors` on a whole block. -/
def State.writeSectors (s : State) (ok : Bool) (b : Nat) (data : Buf) : State :=
  if ok then { s with journal := { s.journal with device := s.journal.device.write b data } } else s

def State.sectorStart (s : State) (b : Nat) : Option Nat :=
  if b * s.sectorsPerBlock < 2 ^ 64 then some (b * s.sectorsPerBlock) else none

/-! ## The cache -/

def flushEntry (ok : Bool) (idx : Nat) (s : State) : Option State :=
  let e := s.entries idx
  if !e.valid || !e.dirty then some s
  else do
    let _ ← s.sectorStart e.blockNum
    return (s.writeSectors ok e.blockNum e.data).setEntry idx { e with dirty := false }

/-- The loop of `invalidateCache`. -/
def invalidateLoop (ok : Nat → Bool) : List Nat → State → Option State
  | [], s => some s
  | i :: rest, s => do
    let s ← flushEntry (ok i) i s
    invalidateLoop ok rest (s.setEntry i { s.entries i with valid := false })

def invalidateCache (ok : Nat → Bool) (s : State) : Option State := invalidateLoop ok (List.range blockCacheSize) s

/-- `okFlush` and `okRead` say whether the write of the evicted block and the read succeed. -/
def readBlock (okFlush okRead : Bool) (b : Nat) (s : State) : Option (Option Buf × State) :=
  let e := s.entries (slot b)
  if e.Holds b then some (some e.data, s)
  else do
    let s ← (if e.valid && e.dirty then flushEntry okFlush (slot b) s else some s)
    let _ ← s.sectorStart b
    if !okRead then return (none, s)
    let data := s.journal.device.blocks b
    return (some data, s.setEntry (slot b) { blockNum := b, data, valid := true, dirty := false })

/-- The journal takes the number of the block modulo `2 ^ 32`, and its refusal is ignored. -/
def writeBlock (ok : Bool) (b : Nat) (data : Buf) (s : State) : Option (Bool × State) :=
  let update (s : State) := s.setEntry (slot b) { blockNum := b, data, valid := true, dirty := true }
  if s.journalTxActive then
    some (true, update { s with journal := (Ext3.writeBlock data (b % 2 ^ 32) s.journal).2 })
  else do
    let _ ← s.sectorStart b
    if !ok then return (false, s)
    return (true, update (s.writeSectors true b data))

/-! ## Transactions -/

def beginJournalTx (maxBlocks : Nat) (s : State) : Option State :=
  if s.journal.state.active && !s.journalTxActive then do
    let (started, j) ← Ext3.start maxBlocks s.journal
    return { s with journal := j, journalTxActive := started }
  else some s

def commitJournalTx (ok : Nat → Bool) (s : State) : State :=
  if s.journalTxActive then { s with journal := (Ext3.stop ok s.journal).2, journalTxActive := false } else s

/-! ## Runs -/

/-- A call, with the results of its reads and writes. `revoke` is the call that `freeBlock` makes. -/
inductive Op where
  | readBlock (okFlush okRead : Bool) (b : Nat)
  | writeBlock (ok : Bool) (b : Nat) (data : Buf)
  | flushEntry (ok : Bool) (idx : Fin blockCacheSize)
  | invalidateCache (ok : Nat → Bool)
  | beginJournalTx (maxBlocks : Nat)
  | commitJournalTx (ok : Nat → Bool)
  | revoke (ok : Bool) (b : Nat)

def Op.run (s : State) : Op → Option State
  | .readBlock okFlush okRead b => (BlockCache.readBlock okFlush okRead b s).map (·.2)
  | .writeBlock ok b data => (BlockCache.writeBlock ok b data s).map (·.2)
  | .flushEntry ok idx => BlockCache.flushEntry ok idx s
  | .invalidateCache ok => BlockCache.invalidateCache ok s
  | .beginJournalTx n => BlockCache.beginJournalTx n s
  | .commitJournalTx ok => some (BlockCache.commitJournalTx ok s)
  | .revoke ok b => some { s with journal := (Ext3.revoke ok b s.journal).2 }

/-- The runs all of whose calls meet a condition. -/
inductive Run (Allowed : State → Op → Prop) (s₀ : State) : List Op → State → Prop
  | init : Run Allowed s₀ [] s₀
  | step {ops : List Op} {s s' : State} {op : Op} :
    Run Allowed s₀ ops s → Allowed s op → op.run s = some s' → Run Allowed s₀ (ops ++ [op]) s'

theorem Run.mono {Allowed Allowed' : State → Op → Prop} {s₀ s : State} {ops : List Op} (hrun : Run Allowed s₀ ops s)
    (h : ∀ s op, Allowed s op → Allowed' s op) : Run Allowed' s₀ ops s := by
  induction hrun with
  | init => exact .init
  | step _ ha hres ih => exact ih.step (h _ _ ha) hres

/-- The call meets no I/O error. -/
def Op.Smooth : Op → Prop
  | .readBlock okFlush okRead _ => okFlush = true ∧ okRead = true
  | .writeBlock ok _ _ => ok = true
  | .flushEntry ok _ => ok = true
  | .invalidateCache ok => ∀ i, ok i = true
  | .beginJournalTx _ => True
  | .commitJournalTx ok => ∀ i, ok i = true
  | .revoke ok _ => ok = true

structure Mounted (s₀ : State) : Prop where
  sectors : s₀.sectorsPerBlock ≤ 8
  cache : ∀ i, i < blockCacheSize → (s₀.entries i).valid = false
  closed : s₀.journalTxActive = false
  idle : s₀.journal.handle.active = false
  pos : s₀.journal.state.writePos = s₀.journal.state.firstBlock

/-! ### Runs that can be evaluated -/

def runOps (allowed : State → Op → Bool) : List Op → State → Option State
  | [], s => some s
  | op :: ops, s => if allowed s op then (op.run s).bind (runOps allowed ops) else none

theorem run_of_runOps {allowed : State → Op → Bool} {s₀ s s' : State} {ops ops' : List Op}
    (hrun : Run (fun s op => allowed s op = true) s₀ ops s) (h : runOps allowed ops' s = some s') :
    Run (fun s op => allowed s op = true) s₀ (ops ++ ops') s' := by
  induction ops' generalizing ops s with
  | nil =>
    obtain rfl := Option.some.inj h
    rwa [List.append_nil]
  | cons op ops' ih =>
    rw [runOps] at h
    split at h
    · next ha =>
      obtain ⟨s₁, hres, h⟩ := Option.bind_eq_some_iff.1 h
      have := ih (hrun.step ha hres) h
      rwa [List.append_assoc, List.singleton_append] at this
    · cases h

/-! ## What the calls do -/

section Calls
variable {s s' : State} {b idx : Nat} {data : Buf}

theorem slot_lt (b : Nat) : slot b < blockCacheSize := Nat.mod_lt _ (by decide)

theorem flushEntry_cases {ok : Bool} (h : flushEntry ok idx s = some s') :
    (¬ ((s.entries idx).valid = true ∧ (s.entries idx).dirty = true) ∧ s' = s) ∨
      ((s.entries idx).valid = true ∧ (s.entries idx).dirty = true ∧
        s' = (s.writeSectors ok (s.entries idx).blockNum (s.entries idx).data).setEntry idx
          { s.entries idx with dirty := false }) := by
  unfold flushEntry at h
  by_cases hclean : (!(s.entries idx).valid || !(s.entries idx).dirty) = true
  · rw [if_pos hclean] at h
    refine .inl ⟨fun hboth => ?_, (Option.some.inj h).symm⟩
    rw [hboth.1, hboth.2] at hclean
    cases hclean
  · rw [if_neg hclean] at h
    obtain ⟨-, -, heq⟩ := Option.bind_eq_some_iff.1 h
    simp only [Bool.or_eq_true, Bool.not_eq_true', not_or, Bool.not_eq_false] at hclean
    exact .inr ⟨hclean.1, hclean.2, (Option.some.inj heq).symm⟩

theorem flushEntry_clean {ok : Bool} (h : ¬ ((s.entries idx).valid = true ∧ (s.entries idx).dirty = true)) :
    flushEntry ok idx s = some s := by
  unfold flushEntry
  rw [if_pos]
  by_contra hne
  simp only [Bool.or_eq_true, Bool.not_eq_true', not_or, Bool.not_eq_false] at hne
  exact h hne

theorem sectorStart_some {n : Nat} (h : s.sectorStart b = some n) : b * s.sectorsPerBlock < 2 ^ 64 := by
  unfold State.sectorStart at h
  split at h
  · assumption
  · cases h

theorem sectorStart_of_lt (h : b * s.sectorsPerBlock < 2 ^ 64) : s.sectorStart b = some (b * s.sectorsPerBlock) := if_pos h

theorem flushEntry_dirty {ok : Bool} (hv : (s.entries idx).valid = true) (hd : (s.entries idx).dirty = true)
    (hsector : (s.entries idx).blockNum * s.sectorsPerBlock < 2 ^ 64) :
    flushEntry ok idx s = some ((s.writeSectors ok (s.entries idx).blockNum (s.entries idx).data).setEntry idx
      { s.entries idx with dirty := false }) := by
  have hdirty : ¬ (!(s.entries idx).valid || !(s.entries idx).dirty) = true := by
    rw [hv, hd]
    decide
  unfold flushEntry
  rw [if_neg hdirty, sectorStart_of_lt hsector]
  rfl

theorem readBlock_miss {okFlush okRead : Bool} (hmiss : ¬ (s.entries (slot b)).Holds b) :
    readBlock okFlush okRead b s = (flushEntry okFlush (slot b) s).bind fun s₁ => (s₁.sectorStart b).bind fun _ =>
      if !okRead then some (none, s₁)
      else some (some (s₁.journal.device.blocks b), s₁.setEntry (slot b)
        { blockNum := b, data := s₁.journal.device.blocks b, valid := true, dirty := false }) := by
  have hflush : (if (s.entries (slot b)).valid && (s.entries (slot b)).dirty then flushEntry okFlush (slot b) s else some s) =
      flushEntry okFlush (slot b) s := by
    split
    · rfl
    · next hclean => rw [flushEntry_clean (by simpa using hclean)]
  unfold readBlock
  simp only [if_neg hmiss, hflush]
  rfl

theorem readBlock_hit {okFlush okRead : Bool} (hhit : (s.entries (slot b)).Holds b) :
    readBlock okFlush okRead b s = some (some (s.entries (slot b)).data, s) := by
  unfold readBlock
  exact if_pos hhit

theorem writeBlock_cases {ok res : Bool} (h : writeBlock ok b data s = some (res, s')) :
    (s.journalTxActive = true ∧
      s' = { s with journal := (Ext3.writeBlock data (b % 2 ^ 32) s.journal).2 }.setEntry (slot b)
        { blockNum := b, data, valid := true, dirty := true }) ∨
      (s.journalTxActive = false ∧ b * s.sectorsPerBlock < 2 ^ 64 ∧
        (ok = false ∧ s' = s ∨
          ok = true ∧ s' = (s.writeSectors true b data).setEntry (slot b)
            { blockNum := b, data, valid := true, dirty := true })) := by
  unfold writeBlock at h
  by_cases htx : s.journalTxActive = true
  · rw [if_pos htx] at h
    exact .inl ⟨htx, (Prod.mk.inj (Option.some.inj h)).2.symm⟩
  · rw [if_neg htx] at h
    obtain ⟨n, hn, h⟩ := Option.bind_eq_some_iff.1 h
    refine .inr ⟨by simpa using htx, sectorStart_some hn, ?_⟩
    cases ok with
    | false => exact .inl ⟨rfl, (Prod.mk.inj (Option.some.inj h)).2.symm⟩
    | true => exact .inr ⟨rfl, (Prod.mk.inj (Option.some.inj h)).2.symm⟩

theorem beginJournalTx_cases {n : Nat} (h : beginJournalTx n s = some s') :
    s' = s ∨ (s.journalTxActive = false ∧ ∃ started j, Ext3.start n s.journal = some (started, j) ∧
      s' = { s with journal := j, journalTxActive := started }) := by
  unfold beginJournalTx at h
  split at h
  · next hcond =>
    simp only [Bool.and_eq_true, Bool.not_eq_true'] at hcond
    obtain ⟨⟨started, j⟩, hstart, heq⟩ := Option.bind_eq_some_iff.1 h
    exact .inr ⟨hcond.2, started, j, hstart, (Option.some.inj heq).symm⟩
  · exact .inl (Option.some.inj h).symm

end Calls

/-! ## What the calls of the journal do -/

section JournalCalls
variable {j j' : Journal} {b : Nat} {data : Buf}

theorem queue_frame (data : Buf) (b : Nat) (j : Journal) :
    (Ext3.writeBlock data b j).2.state = j.state ∧ (Ext3.writeBlock data b j).2.device = j.device ∧
    (Ext3.writeBlock data b j).2.handle.active = j.handle.active ∧
    (Ext3.writeBlock data b j).2.handle.sequence = j.handle.sequence := by
  unfold Ext3.writeBlock
  split
  · exact ⟨rfl, rfl, rfl, rfl⟩
  · split
    · exact ⟨rfl, rfl, rfl, rfl⟩
    · exact ⟨rfl, rfl, rfl, rfl⟩

theorem queue_cases (data : Buf) (b : Nat) (hactive : j.handle.active = true) :
    (Ext3.maxTxEntries ≤ j.handle.queued.length ∧ (Ext3.writeBlock data b j).2.handle.queued = j.handle.queued) ∨
      (Ext3.writeBlock data b j).2.handle.queued = j.handle.queued ++ [(b, data)] := by
  unfold Ext3.writeBlock
  rw [if_neg (by rw [hactive]; decide)]
  split
  · next hfull => exact .inl ⟨hfull, rfl⟩
  · exact .inr rfl

theorem start_room {n : Nat} (h : Ext3.start n j = some (true, j')) : j.state.firstBlock < j.state.maxBlocks := by
  unfold Ext3.start at h
  split at h
  · cases h
  · split at h
    · cases h
    · split at h
      · cases h
      · obtain ⟨free, hfree, h⟩ := Option.bind_eq_some_iff.1 h
        unfold Ext3.JournalState.freeSpace at hfree
        split at hfree
        · split at h
          · cases h
          · next hroom =>
            obtain rfl := Option.some.inj hfree
            omega
        · cases hfree

theorem start_device {n : Nat} {res : Bool} (h : Ext3.start n j = some (res, j')) : j'.device.log = j.device.log := by
  rcases Ext3.start_cases h with ⟨-, rfl⟩ | ⟨-, -, -, rfl⟩
  · rfl
  · rfl

theorem stop_all {ok : Nat → Bool} (hok : ∀ i, ok i = true) (hactive : j.handle.active = true) :
    ∃ k, (Ext3.stop ok j).2 = { j with
      device := j.device.writeAll (Ext3.stopWrites j)
      state := { j.state with writePos := j.state.nextBlock^[k] j.state.writePos }
      handle := { j.handle with active := false } } := by
  have hdevice := Ext3.stop_device hok hactive
  by_cases hempty : j.handle.queued = []
  · refine ⟨0, ?_⟩
    rw [← hdevice]
    simp [Ext3.stop, hactive, hempty]
  · refine ⟨j.txBufs.length, ?_⟩
    rw [← hdevice, Ext3.stop_eq ok hactive hempty, if_pos (Ext3.okCount_of_forall hok _)]
    rfl

theorem stopWrites_blocks (hring : InRing j.state j.state.writePos) (hout : ¬ InJournal j.state b) :
    (j.device.writeAll (Ext3.stopWrites j)).blocks b = (Ext3.lastTo b j.handle.queued).getD (j.device.blocks b) := by
  unfold Ext3.stopWrites
  split
  · next hempty =>
    rw [List.isEmpty_iff.1 hempty]
    rfl
  · rw [Ext3.writeAll_append, Ext3.writeAll_blocks, Ext3.writeAll_of_notMem fun w hw heq => hout ?_]
    obtain ⟨i, -, hat, -⟩ := Ext3.mem_placed hw
    rw [← heq, hat]
    exact (hring.iterate i).inJournal

end JournalCalls

end Zigix.BlockCache
