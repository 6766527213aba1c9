import Zigix.Fs.CacheView

/-!
# The write-ahead rule

The calls of the cache and of the journal as a trace of events:

* `uncommitted` : the transaction that wrote a block and whose commit block is not in the journal;
* `WriteAhead` : no such block reaches its place on the disk;
* `Respects` : no flush evicts such a block;
* `write_ahead` : the rule holds in every run that respects it, whatever fails.
-/

namespace Zigix.BlockCache

open Bytes
open Ext3 (Device Journal InJournal InRing)

/-! ## Events -/

inductive Event where
  /-- block `b` is written in transaction `seq` -/
  | queued (seq b : Nat)
  /-- block `b` is written outside any transaction -/
  | direct (b : Nat)
  /-- a flush or a commit writes block `b` of the disk -/
  | disk (b : Nat)
  /-- the commit block of transaction `seq` is written -/
  | commit (seq : Nat)
  deriving DecidableEq

def Event.own (owner : Nat → Option Nat) : Event → Nat → Option Nat
  | .queued seq b => Function.update owner b (some seq)
  | .direct b => Function.update owner b none
  | .disk _ => owner
  | .commit seq => fun b => if owner b = some seq then none else owner b

def uncommitted (tr : List Event) : Nat → Option Nat := tr.foldl Event.own fun _ => none

/-- **The write-ahead rule**: a block goes to the disk when the transaction that wrote it is committed. -/
def WriteAhead (tr : List Event) : Prop :=
  ∀ pre b post, tr = pre ++ Event.disk b :: post → uncommitted pre b = none

section Events
variable {tr : List Event} {e : Event} {b : Nat}

theorem uncommitted_snoc (tr : List Event) (e : Event) : uncommitted (tr ++ [e]) = e.own (uncommitted tr) := by
  rw [uncommitted, List.foldl_append]
  rfl

theorem WriteAhead.snoc (h : WriteAhead tr) (he : ∀ b, e = .disk b → uncommitted tr b = none) : WriteAhead (tr ++ [e]) := by
  intro pre b post heq
  rcases List.eq_nil_or_concat post with rfl | ⟨post', e', rfl⟩
  · obtain ⟨rfl, hlast⟩ := List.append_inj' heq rfl
    exact he b (List.singleton_inj.1 hlast)
  · rw [List.concat_eq_append, ← List.cons_append, ← List.append_assoc] at heq
    exact h pre b post' (List.append_inj' heq rfl).1

theorem WriteAhead.disks (h : WriteAhead tr) {ws : List Nat} (hws : ∀ b ∈ ws, uncommitted tr b = none) :
    WriteAhead (tr ++ ws.map Event.disk) ∧ uncommitted (tr ++ ws.map Event.disk) = uncommitted tr := by
  induction ws using List.reverseRecOn with
  | nil =>
    rw [List.map_nil, List.append_nil]
    exact ⟨h, rfl⟩
  | append_singleton ws b ih =>
    obtain ⟨hah, hun⟩ := ih fun b' hb' => hws b' (List.mem_append_left _ hb')
    rw [List.map_append, ← List.append_assoc]
    refine ⟨hah.snoc fun b' he => ?_, ?_⟩
    · rw [hun, ← Event.disk.inj he]
      exact hws b (by simp)
    · exact (uncommitted_snoc _ _).trans hun

end Events

/-! ## Runs with their events -/

/-- The blocks of the disk that were written between two states. -/
def newWrites (s s' : State) : List Nat := (s'.journal.device.log.drop s.journal.device.log.length).map (·.1)

def Op.events (s s' : State) : Op → List Event
  | .writeBlock _ b _ =>
    if s.journalTxActive then [.queued s.journal.handle.sequence b] else (newWrites s s').map .direct
  | .commitJournalTx _ =>
    let ws := newWrites s s'
    let n := s.journal.handle.queued.length + 2
    if ws.length < n then ws.map .disk
    else (ws.take n).map .disk ++ [.commit s.journal.handle.sequence] ++ (ws.drop n).map .disk
  | _ => (newWrites s s').map .disk

inductive Traced (Allowed : List Event → State → Op → Prop) (s₀ : State) : List Event → State → Prop
  | init : Traced Allowed s₀ [] s₀
  | step {tr : List Event} {s s' : State} {op : Op} :
    Traced Allowed s₀ tr s → Allowed tr s op → op.run s = some s' → Traced Allowed s₀ (tr ++ op.events s s') s'

def Flushable (tr : List Event) (e : CacheEntry) : Prop :=
  e.valid = true → e.dirty = true → uncommitted tr e.blockNum = none

def Respects (tr : List Event) (s : State) : Op → Prop
  | .readBlock _ _ b => ¬ (s.entries (slot b)).Holds b → Flushable tr (s.entries (slot b))
  | .writeBlock _ b _ => s.journalTxActive = true → b < 2 ^ 32 ∧ ¬ InJournal s.journal.state b
  | .flushEntry _ idx => Flushable tr (s.entries idx)
  | .invalidateCache _ => ∀ i, i < blockCacheSize → Flushable tr (s.entries i)
  | .beginJournalTx _ => True
  | .commitJournalTx _ => True
  | .revoke _ _ => s.journal.state.firstBlock < s.journal.state.maxBlocks

/-- What holds between the calls. -/
structure AheadInv (tr : List Event) (s : State) : Prop where
  ahead : WriteAhead tr
  outside : ∀ b seq, uncommitted tr b = some seq → ¬ InJournal s.journal.state b
  tx : s.journalTxActive = s.journal.handle.active
  room : s.journal.handle.active = true → s.journal.state.firstBlock < s.journal.state.maxBlocks
  pos : s.journal.state.firstBlock < s.journal.state.maxBlocks → InRing s.journal.state s.journal.state.writePos
  queue : s.journal.handle.active = true →
    ∀ q ∈ s.journal.handle.queued, uncommitted tr q.1 = some s.journal.handle.sequence

section Step
variable {tr : List Event} {s s' : State}

theorem newWrites_of_log {ws : List (Nat × Buf)} (h : s'.journal.device.log = s.journal.device.log ++ ws) :
    newWrites s s' = ws.map (·.1) := by
  rw [newWrites, h, List.drop_left]

theorem newWrites_nil (h : s'.journal.device.log = s.journal.device.log) : newWrites s s' = [] := by
  rw [newWrites, h, List.drop_length, List.map_nil]

theorem flushEntry_log {ok : Bool} {idx : Nat} (h : flushEntry ok idx s = some s') :
    ∃ ws : List (Nat × Buf), s'.journal.device.log = s.journal.device.log ++ ws ∧
      (∀ w ∈ ws, (s.entries idx).valid = true ∧ (s.entries idx).dirty = true ∧ w.1 = (s.entries idx).blockNum) ∧
      s'.journal.handle = s.journal.handle ∧ s'.journal.state = s.journal.state ∧
      s'.journalTxActive = s.journalTxActive ∧ ∀ i, i ≠ idx → s'.entries i = s.entries i := by
  have hother : ∀ {s₁ : State} {e : CacheEntry} {i : Nat}, i ≠ idx → (s₁.setEntry idx e).entries i = s₁.entries i :=
    fun hi => Function.update_of_ne hi _ _
  rcases flushEntry_cases h with ⟨-, rfl⟩ | ⟨hv, hd, rfl⟩
  · exact ⟨[], (List.append_nil _).symm, nofun, rfl, rfl, rfl, fun _ _ => rfl⟩
  · cases ok with
    | false => exact ⟨[], (List.append_nil _).symm, nofun, rfl, rfl, rfl, fun _ hi => hother hi⟩
    | true =>
      refine ⟨[(_, _)], rfl, fun w hw => ⟨hv, hd, ?_⟩, rfl, rfl, rfl, fun _ hi => hother hi⟩
      rw [List.mem_singleton.1 hw]

theorem invalidateLoop_log {ok : Nat → Bool} {is : List Nat} (hnodup : is.Nodup)
    (h : invalidateLoop ok is s = some s') :
    ∃ ws : List (Nat × Buf), s'.journal.device.log = s.journal.device.log ++ ws ∧
      (∀ w ∈ ws, ∃ i ∈ is, (s.entries i).valid = true ∧ (s.entries i).dirty = true ∧ w.1 = (s.entries i).blockNum) ∧
      s'.journal.handle = s.journal.handle ∧ s'.journal.state = s.journal.state ∧
      s'.journalTxActive = s.journalTxActive := by
  induction is generalizing s with
  | nil =>
    obtain rfl := Option.some.inj h
    exact ⟨[], (List.append_nil _).symm, nofun, rfl, rfl, rfl⟩
  | cons i rest ih =>
    obtain ⟨hi, hnodup⟩ := List.nodup_cons.1 hnodup
    obtain ⟨s₁, hflush, h⟩ := Option.bind_eq_some_iff.1 h
    obtain ⟨ws, hlog, hws, hhandle, hstate, htx, hentries⟩ := flushEntry_log hflush
    obtain ⟨ws', hlog', hws', hhandle', hstate', htx'⟩ := ih hnodup h
    refine ⟨ws ++ ws', ?_, fun w hw => ?_, hhandle'.trans hhandle, hstate'.trans hstate, htx'.trans htx⟩
    · rw [hlog', ← List.append_assoc, ← hlog]
      rfl
    · rcases List.mem_append.1 hw with hw | hw
      · exact ⟨i, List.mem_cons_self, hws w hw⟩
      · obtain ⟨i', hi', hmem⟩ := hws' w hw
        have hne : i' ≠ i := fun heq => hi (heq ▸ hi')
        have hentry : (s₁.setEntry i { s₁.entries i with valid := false }).entries i' = s.entries i' :=
          (Function.update_of_ne hne _ _).trans (hentries i' hne)
        rw [hentry] at hmem
        exact ⟨i', List.mem_cons_of_mem _ hi', hmem⟩

theorem AheadInv.disks (h : AheadInv tr s) {ws : List (Nat × Buf)} (hws : ∀ w ∈ ws, uncommitted tr w.1 = none)
    (hlog : s'.journal.device.log = s.journal.device.log ++ ws) (hhandle : s'.journal.handle = s.journal.handle)
    {p : Nat} (hstate : s'.journal.state = { s.journal.state with writePos := p })
    (hp : s.journal.state.firstBlock < s.journal.state.maxBlocks → InRing s.journal.state p)
    (htx : s'.journalTxActive = s.journalTxActive) : AheadInv (tr ++ (newWrites s s').map .disk) s' := by
  have hblocks : ∀ b ∈ ws.map (·.1), uncommitted tr b = none := fun b hb => by
    obtain ⟨w, hw, rfl⟩ := List.mem_map.1 hb
    exact hws w hw
  obtain ⟨hahead, hun⟩ := h.ahead.disks hblocks
  rw [newWrites_of_log hlog]
  refine ⟨hahead, ?_, ?_, ?_, ?_, ?_⟩
  · rw [hun, hstate]
    exact h.outside
  · rw [htx, hhandle]
    exact h.tx
  · rw [hhandle, hstate]
    exact h.room
  · rw [hstate]
    exact hp
  · rw [hun, hhandle]
    exact h.queue

theorem AheadInv.silent (h : AheadInv tr s) (hlog : s'.journal.device.log = s.journal.device.log)
    (hhandle : s'.journal.handle = s.journal.handle) (hstate : s'.journal.state = s.journal.state)
    (htx : s'.journalTxActive = s.journalTxActive) : AheadInv (tr ++ (newWrites s s').map .disk) s' :=
  h.disks (fun _ hw => absurd hw List.not_mem_nil) (hlog.trans (List.append_nil _).symm) hhandle hstate h.pos htx

theorem AheadInv.journal (h : AheadInv tr s) {b : Nat} (hb : InJournal s.journal.state b) : uncommitted tr b = none := by
  cases hun : uncommitted tr b with
  | none => rfl
  | some seq => exact absurd hb (h.outside b seq hun)

theorem AheadInv.placed (h : AheadInv tr s) (hring : InRing s.journal.state s.journal.state.writePos) (bufs : List Buf) :
    ∀ w ∈ Ext3.placed s.journal.state bufs s.journal.state.writePos, uncommitted tr w.1 = none := by
  intro w hw
  obtain ⟨i, -, hat, -⟩ := Ext3.mem_placed hw
  rw [hat]
  exact h.journal (hring.iterate i).inJournal

theorem AheadInv.writeBlock (h : AheadInv tr s) {ok res : Bool} {b : Nat} {data : Buf}
    (ha : Respects tr s (.writeBlock ok b data)) (hres : writeBlock ok b data s = some (res, s')) :
    AheadInv (tr ++ (Op.writeBlock ok b data).events s s') s' := by
  rcases writeBlock_cases hres with ⟨htx, rfl⟩ | ⟨htx, -, ⟨-, rfl⟩ | ⟨-, rfl⟩⟩
  · obtain ⟨hlt, hout⟩ := ha htx
    have hactive : s.journal.handle.active = true := h.tx.symm.trans htx
    rw [Nat.mod_eq_of_lt hlt, Op.events, if_pos htx]
    have hun := uncommitted_snoc tr (.queued s.journal.handle.sequence b)
    have hframe := queue_frame data b s.journal
    have hcases := queue_cases data b hactive
    generalize (Ext3.writeBlock data b s.journal).2 = j at hframe hcases ⊢
    obtain ⟨hstate, -, hhandle, hseq⟩ := hframe
    refine ⟨h.ahead.snoc nofun, fun b' seq hb' => ?_, h.tx.trans hhandle.symm, fun ha => ?_, fun hlt => ?_,
      fun _ q hq => ?_⟩
    · show ¬ InJournal j.state b'
      rw [hun, Event.own] at hb'
      rw [hstate]
      by_cases hb : b' = b
      · rw [hb]
        exact hout
      · rw [Function.update_of_ne hb] at hb'
        exact h.outside b' seq hb'
    · show j.state.firstBlock < j.state.maxBlocks
      rw [hstate]
      exact h.room hactive
    · show InRing j.state j.state.writePos
      rw [hstate]
      exact h.pos (hstate ▸ hlt)
    · show _ = some j.handle.sequence
      rw [hun, Event.own, hseq]
      by_cases hb : q.1 = b
      · rw [hb, Function.update_self]
      · rw [Function.update_of_ne hb]
        refine h.queue hactive q ?_
        rcases hcases with ⟨-, hsame⟩ | happend
        · exact hsame ▸ hq
        · rcases List.mem_append.1 (happend ▸ hq) with hq | hq
          · exact hq
          · exact absurd (congrArg Prod.fst (List.mem_singleton.1 hq)) hb
  · have hnone : newWrites s' s' = [] := newWrites_nil rfl
    rw [Op.events, if_neg (by rw [htx]; decide), hnone, List.map_nil, List.append_nil]
    exact h
  · have hone : newWrites s ((s.writeSectors true b data).setEntry (slot b)
        { blockNum := b, data, valid := true, dirty := true }) = [b] := newWrites_of_log (show _ = _ ++ [(b, data)] from rfl)
    have hidle : ¬ s.journal.handle.active = true := by
      rw [← h.tx, htx]
      decide
    rw [Op.events, if_neg (by rw [htx]; decide), hone]
    refine ⟨h.ahead.snoc nofun, fun b' seq hseq => ?_, h.tx, h.room, h.pos, fun ha => absurd ha hidle⟩
    rw [List.map_singleton, uncommitted_snoc, Event.own] at hseq
    by_cases hb : b' = b
    · rw [hb, Function.update_self] at hseq
      cases hseq
    · rw [Function.update_of_ne hb] at hseq
      exact h.outside b' seq hseq

theorem commit_events {ok : Nat → Bool} (ws home : List (Nat × Buf)) (hlen : ws.length = s.journal.handle.queued.length + 2)
    (hlog : s'.journal.device.log = s.journal.device.log ++ (ws ++ home)) :
    (Op.commitJournalTx ok).events s s' =
      (ws.map (·.1)).map .disk ++ [.commit s.journal.handle.sequence] ++ (home.map (·.1)).map .disk := by
  have hlen' : (ws.map (·.1)).length = s.journal.handle.queued.length + 2 := by rw [List.length_map, hlen]
  simp only [Op.events, newWrites_of_log hlog, List.map_append]
  rw [if_neg, ← hlen', List.take_left, List.drop_left]
  rw [List.length_append, hlen']
  omega

theorem failed_events {ok : Nat → Bool} (ws : List (Nat × Buf)) (hlen : ws.length < s.journal.handle.queued.length + 2)
    (hlog : s'.journal.device.log = s.journal.device.log ++ ws) :
    (Op.commitJournalTx ok).events s s' = (newWrites s s').map .disk := by
  have hlt : (newWrites s s').length < s.journal.handle.queued.length + 2 := by
    rw [newWrites_of_log hlog, List.length_map]
    exact hlen
  exact if_pos hlt

theorem WriteAhead.commit (h : WriteAhead tr) (seq : Nat) {ws home : List Nat} (hws : ∀ b ∈ ws, uncommitted tr b = none)
    (hhome : ∀ b ∈ home, uncommitted tr b = some seq) :
    WriteAhead (tr ++ (ws.map .disk ++ [.commit seq] ++ home.map .disk)) ∧
      ∀ b, uncommitted (tr ++ (ws.map .disk ++ [.commit seq] ++ home.map .disk)) b =
        if uncommitted tr b = some seq then none else uncommitted tr b := by
  obtain ⟨hahead, hun⟩ := h.disks hws
  have hcommit := uncommitted_snoc (tr ++ ws.map .disk) (.commit seq)
  rw [hun] at hcommit
  have hdone : ∀ b ∈ home, uncommitted (tr ++ ws.map .disk ++ [.commit seq]) b = none := fun b hb => by
    rw [hcommit]
    exact if_pos (hhome b hb)
  obtain ⟨hahead', hun'⟩ := (hahead.snoc (e := .commit seq) nofun).disks hdone
  rw [← List.append_assoc, ← List.append_assoc]
  refine ⟨hahead', fun b => ?_⟩
  rw [hun', hcommit]
  rfl

theorem AheadInv.commitJournalTx (h : AheadInv tr s) (ok : Nat → Bool) :
    AheadInv (tr ++ (Op.commitJournalTx ok).events s (commitJournalTx ok s)) (commitJournalTx ok s) := by
  have hnone : ∀ {s' : State}, s'.journal.device.log = s.journal.device.log →
      (Op.commitJournalTx ok).events s s' = [] := by
    intro s' hlog
    have hnew : newWrites s s' = [] := newWrites_nil hlog
    rw [Op.events]
    simp only [hnew, List.length_nil, List.map_nil]
    exact if_pos (Nat.succ_pos _)
  by_cases htx : s.journalTxActive = true
  · have hactive : s.journal.handle.active = true := h.tx.symm.trans htx
    have hring := h.pos (h.room hactive)
    have hcommit : BlockCache.commitJournalTx ok s =
        { s with journal := (Ext3.stop ok s.journal).2, journalTxActive := false } := if_pos htx
    rw [hcommit]
    by_cases hempty : s.journal.handle.queued = []
    · have hstop : (Ext3.stop ok s.journal).2 =
          { s.journal with handle := { s.journal.handle with active := false } } := by
        simp [Ext3.stop, hactive, hempty]
      rw [hstop, hnone, List.append_nil]
      · exact ⟨h.ahead, h.outside, rfl, by intros; contradiction, h.pos, by intros; contradiction⟩
      · rfl
    · have hlen : s.journal.txBufs.length = s.journal.handle.queued.length + 2 := Ext3.txBlocks_length _ _ _
      rw [Ext3.stop_eq ok hactive hempty]
      split
      · -- the commit block is written, and then the blocks of the transaction
        obtain ⟨hahead, hun⟩ := h.ahead.commit s.journal.handle.sequence
          (List.forall_mem_map.2 (h.placed hring s.journal.txBufs))
          (List.forall_mem_map.2 fun w (hw : w ∈ Ext3.homeWrites (fun i => ok (s.journal.txBufs.length + i)) _) =>
            h.queue hactive w (Ext3.mem_homeWrites hw))
        rw [commit_events (Ext3.placed s.journal.state s.journal.txBufs s.journal.state.writePos)
          (Ext3.homeWrites (fun i => ok (s.journal.txBufs.length + i)) s.journal.handle.queued)
          (by rw [Ext3.placed_length, hlen])
          (by rw [← List.append_assoc, ← Ext3.writeAll_log, ← Ext3.writeAll_log]; rfl)]
        refine ⟨hahead, fun b seq hb => ?_, rfl, by intros; contradiction, fun _ => hring.iterate _, by intros; contradiction⟩
        rw [hun] at hb
        split at hb
        · cases hb
        · exact h.outside b seq hb
      · next hfail =>
        -- only journal blocks are written
        have hle := Ext3.okCount_le ok s.journal.txBufs.length
        obtain ⟨hahead, hun⟩ := h.ahead.disks (List.forall_mem_map.2
          (h.placed hring (s.journal.txBufs.take (Ext3.okCount ok s.journal.txBufs.length))))
        rw [failed_events (Ext3.placed s.journal.state (s.journal.txBufs.take
            (Ext3.okCount ok s.journal.txBufs.length)) s.journal.state.writePos)
          (by rw [Ext3.placed_length, List.length_take]; omega) (by rw [← Ext3.writeAll_log]; rfl),
          newWrites_of_log (by rw [← Ext3.writeAll_log]; rfl)]
        refine ⟨hahead, ?_, rfl, by intros; contradiction, fun _ => hring.iterate _, by intros; contradiction⟩
        rw [hun]
        exact h.outside
  · have hcommit : BlockCache.commitJournalTx ok s = s := if_neg htx
    rw [hcommit, hnone rfl, List.append_nil]
    exact h

theorem AheadInv.of_mounted {s₀ : State} (h : Mounted s₀) : AheadInv [] s₀ := by
  have hidle : ¬ s₀.journal.handle.active = true := by rw [h.idle]; decide
  refine ⟨fun pre b post heq => ?_, nofun, ?_, fun ha => absurd ha hidle, fun hlt => ?_, fun ha => absurd ha hidle⟩
  · cases pre <;> cases heq
  · rw [h.closed, h.idle]
  · rw [h.pos]
    exact ⟨le_rfl, hlt⟩

theorem AheadInv.flushEntry (h : AheadInv tr s) {ok : Bool} {idx : Nat} (ha : Flushable tr (s.entries idx))
    (hres : BlockCache.flushEntry ok idx s = some s') : AheadInv (tr ++ (newWrites s s').map .disk) s' := by
  obtain ⟨ws, hlog, hws, hhandle, hstate, htx, -⟩ := flushEntry_log hres
  refine h.disks (fun w hw => ?_) hlog hhandle hstate h.pos htx
  obtain ⟨hv, hd, heq⟩ := hws w hw
  rw [heq]
  exact ha hv hd

theorem AheadInv.step (h : AheadInv tr s) {op : Op} (ha : Respects tr s op) (hres : op.run s = some s') :
    AheadInv (tr ++ op.events s s') s' := by
  cases op with
  | readBlock okFlush okRead b =>
    obtain ⟨⟨r, s₁⟩, hread, rfl⟩ := Option.map_eq_some_iff.1 hres
    by_cases hhit : (s.entries (slot b)).Holds b
    · rw [readBlock_hit hhit] at hread
      obtain ⟨-, rfl⟩ := Prod.mk.inj (Option.some.inj hread)
      exact h.silent rfl rfl rfl rfl
    · rw [readBlock_miss hhit] at hread
      obtain ⟨s₂, hflush, hread⟩ := Option.bind_eq_some_iff.1 hread
      obtain ⟨-, -, hread⟩ := Option.bind_eq_some_iff.1 hread
      have hflushed := h.flushEntry (ha hhit) hflush
      cases okRead with
      | false =>
        obtain ⟨-, rfl⟩ := Prod.mk.inj (Option.some.inj hread)
        exact hflushed
      | true =>
        obtain ⟨-, rfl⟩ := Prod.mk.inj (Option.some.inj hread)
        exact ⟨hflushed.ahead, hflushed.outside, hflushed.tx, hflushed.room, hflushed.pos, hflushed.queue⟩
  | writeBlock ok b data =>
    obtain ⟨⟨r, s₁⟩, hwrite, rfl⟩ := Option.map_eq_some_iff.1 hres
    exact h.writeBlock ha hwrite
  | flushEntry ok idx => exact h.flushEntry ha hres
  | invalidateCache ok =>
    obtain ⟨ws, hlog, hws, hhandle, hstate, htx⟩ := invalidateLoop_log List.nodup_range hres
    refine h.disks (fun w hw => ?_) hlog hhandle hstate h.pos htx
    obtain ⟨i, hi, hv, hd, heq⟩ := hws w hw
    rw [heq]
    exact ha i (List.mem_range.1 hi) hv hd
  | beginJournalTx n =>
    rcases beginJournalTx_cases hres with rfl | ⟨htx, started, j, hstart, rfl⟩
    · exact h.silent rfl rfl rfl rfl
    · have hnone : newWrites s { s with journal := j, journalTxActive := started } = [] :=
        newWrites_nil (start_device hstart)
      show AheadInv (tr ++ (newWrites s _).map .disk) _
      rw [hnone, List.map_nil, List.append_nil]
      rcases Ext3.start_cases hstart with ⟨rfl, rfl⟩ | ⟨rfl, -, -, rfl⟩
      · exact ⟨h.ahead, h.outside, htx.symm.trans h.tx, h.room, h.pos, h.queue⟩
      · have hroom := start_room hstart
        exact ⟨h.ahead, h.outside, rfl, fun _ => hroom, h.pos, fun _ => nofun⟩
  | commitJournalTx ok =>
    obtain rfl := Option.some.inj hres
    exact h.commitJournalTx ok
  | revoke ok b =>
    obtain rfl := Option.some.inj hres
    have hring := h.pos ha
    unfold Ext3.revoke
    split
    · exact h.silent rfl rfl rfl rfl
    · split
      · refine h.disks (fun w hw => ?_) (show _ = _ ++ [(_, _)] from rfl) rfl rfl (fun _ => hring.iterate 1) rfl
        rw [List.mem_singleton.1 hw]
        exact h.journal hring.inJournal
      · exact h.silent rfl rfl rfl rfl

/-- **The write-ahead rule** holds in every run that respects it: no block of a transaction reaches the disk before the
commit block. -/
theorem write_ahead {s₀ : State} (h₀ : Mounted s₀) (hrun : Traced Respects s₀ tr s) : WriteAhead tr := by
  have hi : AheadInv tr s := by
    induction hrun with
    | init => exact .of_mounted h₀
    | step _ ha hres ih => exact ih.step ha hres
  exact hi.ahead

end Step

/-! ### A read in the middle of a transaction -/

section Eviction

def runTraced (allowed : State → Op → Bool) : List Op → List Event → State → Option (List Event × State)
  | [], tr, s => some (tr, s)
  | op :: ops, tr, s =>
    if allowed s op then (op.run s).bind fun s' => runTraced allowed ops (tr ++ op.events s s') s' else none

theorem traced_of_runTraced {allowed : State → Op → Bool} {Allowed : List Event → State → Op → Prop}
    (ha : ∀ tr s op, allowed s op = true → Allowed tr s op) {s₀ s s' : State} {ops : List Op} {tr tr' : List Event}
    (hrun : Traced Allowed s₀ tr s) (h : runTraced allowed ops tr s = some (tr', s')) : Traced Allowed s₀ tr' s' := by
  induction ops generalizing tr s with
  | nil =>
    obtain ⟨rfl, rfl⟩ := Prod.mk.inj (Option.some.inj h)
    exact hrun
  | cons op ops ih =>
    rw [runTraced] at h
    split at h
    · next hop =>
      obtain ⟨s₁, hres, h⟩ := Option.bind_eq_some_iff.1 h
      exact ih (hrun.step (ha tr s op hop) hres) h
    · cases h

def readingOp (_ : State) : Op → Bool
  | .writeBlock ok _ _ => ok
  | .readBlock okFlush okRead _ => okFlush && okRead
  | .beginJournalTx _ => true
  | _ => false

theorem readingOp_smooth (s : State) (op : Op) (h : readingOp s op = true) : op.Smooth := by
  cases op with
  | readBlock okFlush okRead b => exact (Bool.and_eq_true _ _).mp h
  | writeBlock ok b data => exact h
  | beginJournalTx n => trivial
  | _ => cases h

/-- Reading block 517 writes block 5 home, while its transaction is open. -/
theorem eviction_writes_ahead :
    ∃ tr s, Traced (fun _ _ op => op.Smooth) blankFs tr s ∧ s.journalTxActive = true ∧ ¬ WriteAhead tr := by
  have hrun : (runTraced readingOp [.beginJournalTx 2, .writeBlock true 5 fun _ => 7, .readBlock true true 517] []
      blankFs).map (fun r => (r.1, r.2.journalTxActive)) = some ([.queued 1 5, .disk 5], true) := by decide +kernel
  obtain ⟨⟨tr, s⟩, hops, hval⟩ := Option.map_eq_some_iff.1 hrun
  obtain ⟨rfl, htx⟩ := Prod.mk.inj hval
  refine ⟨_, s, traced_of_runTraced (fun _ => readingOp_smooth) .init hops, htx, fun hahead => ?_⟩
  exact absurd (hahead [.queued 1 5] 5 [] rfl) (by decide)

def journaledOp (s : State) : Op → Bool
  | .writeBlock _ b _ => decide (b < 2 ^ 32) && !decide (InJournal s.journal.state b)
  | .beginJournalTx _ => true
  | .commitJournalTx _ => true
  | _ => false

theorem journaledOp_respects (tr : List Event) (s : State) (op : Op) (h : journaledOp s op = true) : Respects tr s op := by
  cases op with
  | writeBlock ok b data =>
    simp only [journaledOp, Bool.and_eq_true, Bool.not_eq_true', decide_eq_true_eq, decide_eq_false_iff_not] at h
    exact fun _ => h
  | beginJournalTx n => trivial
  | commitJournalTx ok => trivial
  | _ => cases h

theorem write_ahead_commit :
    WriteAhead [.queued 1 5, .queued 1 6, .disk 101, .disk 102, .disk 103, .disk 104, .commit 1, .disk 5, .disk 6] := by
  have hrun : (runTraced journaledOp [.beginJournalTx 2, .writeBlock true 5 fun _ => 7, .writeBlock true 6 fun _ => 8,
      .commitJournalTx fun _ => true] [] blankFs).map (·.1) = some
      [.queued 1 5, .queued 1 6, .disk 101, .disk 102, .disk 103, .disk 104, .commit 1, .disk 5, .disk 6] := by
    decide +kernel
  obtain ⟨⟨tr, s⟩, hops, hval⟩ := Option.map_eq_some_iff.1 hrun
  have hval : tr = _ := hval
  rw [← hval]
  exact write_ahead blankFs_mounted (traced_of_runTraced journaledOp_respects .init hops)

end Eviction

end Zigix.BlockCache
