import Zigix.Fs.JournalRuns

/-!
# Crashes

A crash keeps a prefix of the writes that `stop` issues: the journal blocks first, then the home locations.

* `crash_atomic` : a crash leaves the home locations of the transaction as they were or as they become, unless it falls
  between the first and the last of the home writes.
-/

namespace Zigix.Ext3

open Bytes

/-! ## Mounting -/

section Mount
variable {info : MountInfo} {d₀ d : Device} {j₀ j : Journal}

def MountInfo.inodeOffset (info : MountInfo) : Nat :=
  ((if info.journalInum ≠ 0 then info.journalInum else journalIno) - 1) * info.inodeSize

def MountInfo.inodeBlock (info : MountInfo) : Nat := info.inodeTableBlock + info.inodeOffset / info.blockSize

def MountInfo.journalStart (info : MountInfo) (inode : Buf) : Nat :=
  getLE inode (info.inodeOffset % info.blockSize + 0x28) 4

/-- The state with which `initJournal` replays. -/
def superblockState (info : MountInfo) (start : Nat) (jsb : Buf) : JournalState :=
  { active := false, writePos := getBE jsb 0x14 4, sequence := getBE jsb 0x08 4, firstBlock := getBE jsb 0x14 4
    maxBlocks := getBE jsb 0x10 4, diskStartBlock := start, blockSize := info.blockSize, maxTxBlocks := 0 }

/-- What `initJournal` needs of the disk. -/
structure Mountable (info : MountInfo) (start : Nat) (blocks : Nat → Buf) : Prop where
  inode : info.journalStart (blocks info.inodeBlock) = start
  magic : getBE (blocks start) 0x00 4 = jbd2Magic
  blocktype : getBE (blocks start) 0x04 4 = blocktypeSuperblockV1 ∨ getBE (blocks start) 0x04 4 = blocktypeSuperblockV2

def needsReplay (info : MountInfo) (jsb : Buf) : Prop :=
  getBE jsb 0x08 4 ≠ 0 ∨ info.featureIncompat &&& incompatRecover ≠ 0

instance (info : MountInfo) (jsb : Buf) : Decidable (needsReplay info jsb) := inferInstanceAs (Decidable (_ ∨ _))

theorem initJournal_eq {start : Nat} (hj : info.featureCompat &&& hasJournal ≠ 0) (hstart : start ≠ 0)
    (h : Mountable info start d.blocks) :
    initJournal info d =
      (if needsReplay info (d.blocks start) then replayJournal (superblockState info start (d.blocks start)) d
        else some d).bind fun d' =>
      if getBE (d.blocks start) 0x08 4 = u32Max then none
      else some (true, some (init d' start (getBE (d.blocks start) 0x10 4) (getBE (d.blocks start) 0x14 4)
        (if getBE (d.blocks start) 0x08 4 ≠ 0 then getBE (d.blocks start) 0x08 4 + 1 else 1) info.blockSize), d') := by
  have hinode : getLE (d.blocks (info.inodeTableBlock +
      ((if info.journalInum ≠ 0 then info.journalInum else journalIno) - 1) * info.inodeSize / info.blockSize))
      (((if info.journalInum ≠ 0 then info.journalInum else journalIno) - 1) * info.inodeSize % info.blockSize + 0x28) 4 =
      start := h.inode
  have htype : ¬ (getBE (d.blocks start) 0x04 4 ≠ blocktypeSuperblockV1 ∧
      getBE (d.blocks start) 0x04 4 ≠ blocktypeSuperblockV2) := by
    rcases h.blocktype with ht | ht
    · exact fun hne => hne.1 ht
    · exact fun hne => hne.2 ht
  unfold initJournal
  rw [if_neg hj]
  simp only [hinode, if_neg hstart, h.magic, ne_eq, not_true_eq_false, if_false]
  rw [if_neg htype]
  by_cases hneeds : needsReplay info (d.blocks start)
  · have hne : ¬ getBE (d.blocks start) 0x08 4 = 0 ∨ ¬ info.featureIncompat &&& incompatRecover = 0 := hneeds
    rw [if_pos hneeds, if_pos hne]
    rfl
  · have hne : ¬ (¬ getBE (d.blocks start) 0x08 4 = 0 ∨ ¬ info.featureIncompat &&& incompatRecover = 0) := hneeds
    rw [if_neg hneeds, if_neg hne]
    rfl

structure Sealed (info : MountInfo) (st : JournalState) (blocks : Nat → Buf) : Prop where
  mountable : Mountable info st.diskStartBlock blocks
  first : getBE (blocks st.diskStartBlock) 0x14 4 = st.firstBlock
  maxlen : getBE (blocks st.diskStartBlock) 0x10 4 = st.maxBlocks
  clean : getBE (blocks st.diskStartBlock) 0x08 4 = 0
  ring : ∀ pos, InRing st pos → TailBlock 0 (fun _ => True) (blocks (st.journalToDisk pos))

/-- **Mounting a sealed disk** replays nothing: outside the journal the blocks stay as they are. -/
theorem initJournal_sealed {st : JournalState} (hj : info.featureCompat &&& hasJournal ≠ 0)
    (hstart : st.diskStartBlock ≠ 0) (hring : InRing st st.firstBlock) (h : Sealed info st d.blocks) :
    ∃ j₁ d', initJournal info d = some (true, some j₁, d') ∧ ∀ b, ¬ InJournal st b → d'.blocks b = d.blocks b := by
  have hseq : ¬ getBE (d.blocks st.diskStartBlock) 0x08 4 = u32Max := by
    rw [h.clean]
    decide
  rw [initJournal_eq hj hstart h.mountable]
  by_cases hneeds : needsReplay info (d.blocks st.diskStartBlock)
  · rw [if_pos hneeds, replayJournal_eq]
    generalize hst : superblockState info st.diskStartBlock (d.blocks st.diskStartBlock) = st'
    have hfirst : st'.firstBlock = st.firstBlock := by
      rw [← hst]
      exact h.first
    have hmax : st'.maxBlocks = st.maxBlocks := by
      rw [← hst]
      exact h.maxlen
    have hdisk : st'.diskStartBlock = st.diskStartBlock := by
      rw [← hst]
      rfl
    have hzero : st'.sequence = 0 := by
      rw [← hst]
      exact h.clean
    have hin : ∀ pos, InRing st' pos ↔ InRing st pos := by
      intro pos
      unfold InRing
      rw [hfirst, hmax]
    have hnothing : replayed st' d = some d := by
      refine replayed_nothing (P := fun _ => True) ?_ fun pos hpos => ?_
      · rw [hin, hfirst]
        exact hring
      · rw [hzero, JournalState.journalToDisk, hdisk]
        exact h.ring pos ((hin pos).1 hpos)
    rw [hnothing]
    simp only [Option.map_some, Option.bind_some, if_neg hseq]
    refine ⟨_, _, rfl, fun b hb => ?_⟩
    refine Function.update_of_ne (fun heq => hb ?_) _ _
    unfold InRing at hring
    unfold InJournal
    rw [JournalState.journalToDisk, hdisk] at heq
    omega
  · rw [if_neg hneeds]
    simp only [Option.bind_some, if_neg hseq]
    exact ⟨_, _, rfl, fun b _ => rfl⟩

theorem mountable_of_initJournal (h : initJournal info d₀ = some (true, some j₀, d)) :
    info.featureCompat &&& hasJournal ≠ 0 ∧ ∃ start, start ≠ 0 ∧ Mountable info start d₀.blocks := by
  generalize hstart : info.journalStart (d₀.blocks info.inodeBlock) = start
  have hfail : initJournal info d₀ ≠ some (false, none, d₀) := fun heq => by
    rw [heq] at h
    cases h
  by_cases hj : info.featureCompat &&& hasJournal = 0
  · rw [initJournal, if_pos hj] at h
    cases h
  have hbody : initJournal info d₀ = _ := if_neg hj
  by_cases hzero : start = 0
  · exact absurd (hbody.trans (if_pos (hstart.trans hzero))) hfail
  have hbody := hbody.trans (if_neg (fun hz => hzero (hstart.symm.trans hz)))
  by_cases hmagic : getBE (d₀.blocks start) 0x00 4 = jbd2Magic
  · subst hstart
    have hbody := hbody.trans (if_neg (not_not.2 hmagic))
    by_cases htype : getBE (d₀.blocks (info.journalStart (d₀.blocks info.inodeBlock))) 0x04 4 ≠ blocktypeSuperblockV1 ∧
        getBE (d₀.blocks (info.journalStart (d₀.blocks info.inodeBlock))) 0x04 4 ≠ blocktypeSuperblockV2
    · exact absurd (hbody.trans (if_pos htype)) hfail
    · rw [not_and_or, not_not, not_not] at htype
      exact ⟨hj, _, hzero, rfl, hmagic, htype⟩
  · subst hstart
    exact absurd (hbody.trans (if_pos hmagic)) hfail

theorem pass4Clear_clean (st : JournalState) (d : Device) :
    getBE ((pass4Clear st d).blocks (st.journalToDisk 0)) 0x08 4 = 0 := by
  have hat : (pass4Clear st d).blocks (st.journalToDisk 0) =
      putBE (putBE (d.blocks (st.journalToDisk 0)) 0x08 4 0) 0x18 4 0 := Function.update_self _ _ _
  rw [hat, getBE_putBE_of_disjoint (by omega), getBE_putBE]
  rfl

theorem initJournal_spec (h : initJournal info d₀ = some (true, some j₀, d)) :
    info.featureCompat &&& hasJournal ≠ 0 ∧ j₀.state.diskStartBlock ≠ 0 ∧
      getBE (d.blocks j₀.state.diskStartBlock) 0x08 4 = 0 ∧ j₀.handle.active = false ∧ j₀.handle.queued = [] ∧
      j₀.state.writePos = j₀.state.firstBlock ∧ 1 ≤ j₀.state.sequence ∧ j₀.state.sequence ≤ u32Max := by
  obtain ⟨hj, start, hstart, hmount⟩ := mountable_of_initJournal h
  rw [initJournal_eq hj hstart hmount] at h
  obtain ⟨d', hd', h⟩ := Option.bind_eq_some_iff.1 h
  split at h
  · exact nomatch h
  · next hmax =>
    obtain ⟨hj₀, hd⟩ := Prod.mk.inj (Prod.mk.inj (Option.some.inj h)).2
    subst hd
    obtain rfl := (Option.some.inj hj₀).symm
    have hseq : (1 ≤ if getBE (d₀.blocks start) 0x08 4 ≠ 0 then getBE (d₀.blocks start) 0x08 4 + 1 else 1) ∧
        (if getBE (d₀.blocks start) 0x08 4 ≠ 0 then getBE (d₀.blocks start) 0x08 4 + 1 else 1) ≤ u32Max := by
      have hlt := getBE_lt (d₀.blocks start) 0x08 4
      unfold u32Max at hmax ⊢
      split
      · omega
      · omega
    refine ⟨hj, hstart, ?_, rfl, rfl, rfl, hseq⟩
    show getBE (d'.blocks start) 0x08 4 = 0
    split at hd'
    · -- the superblock was cleared last
      rw [replayJournal_eq] at hd'
      obtain ⟨d'', -, rfl⟩ := Option.map_eq_some_iff.1 hd'
      exact pass4Clear_clean (superblockState info start (d₀.blocks start)) d''
    · next hneeds =>
      cases hd'
      exact not_not.1 fun hne => hneeds (.inl hne)

structure Mounted (info : MountInfo) (d₀ : Device) (j₀ : Journal) : Prop where
  mount : initJournal info d₀ = some (true, some j₀, j₀.device)
  mountable : Mountable info j₀.state.diskStartBlock j₀.device.blocks
  first : getBE (j₀.device.blocks j₀.state.diskStartBlock) 0x14 4 = j₀.state.firstBlock
  maxlen : getBE (j₀.device.blocks j₀.state.diskStartBlock) 0x10 4 = j₀.state.maxBlocks
  inode : ¬ InJournal j₀.state info.inodeBlock
  positive : 0 < j₀.state.firstBlock
  ring : InRing j₀.state j₀.state.firstBlock
  quiet : ∀ pos, InRing j₀.state pos → TailBlock 0 (fun _ => True) (j₀.device.blocks (j₀.state.journalToDisk pos))

theorem Mounted.sealed (h : Mounted info d₀ j₀) : Sealed info j₀.state j₀.device.blocks :=
  ⟨h.mountable, h.first, h.maxlen, (initJournal_spec h.mount).2.2.1, h.quiet⟩

end Mount

/-! ## Runs -/

section Crash
variable {info : MountInfo} {d₀ : Device} {j₀ j : Journal} {h : History}

def Plain (info : MountInfo) (j₀ : Journal) (_ : History) (_ : Journal) : Op → Prop
  | .start _ => True
  | .writeBlock data b => ¬ InJournal j₀.state b.toNat ∧
    (b.toNat = info.inodeBlock → info.journalStart data = j₀.state.diskStartBlock)
  | .stop ok => ∀ i, ok i = true
  | .revoke _ _ => False

def Harmless (info : MountInfo) (st : JournalState) (w : Nat × Buf) : Prop :=
  (∃ pos, InRing st pos ∧ w.1 = st.journalToDisk pos ∧ TailBlock 0 (fun _ => True) w.2) ∨
    (¬ InJournal st w.1 ∧ (w.1 = info.inodeBlock → info.journalStart w.2 = st.diskStartBlock))

theorem Sealed.write {st : JournalState} {d : Device} (hs : Sealed info st d.blocks) (hpos : 0 < st.firstBlock)
    (hring : InRing st st.firstBlock) (hinode : ¬ InJournal st info.inodeBlock) {w : Nat × Buf}
    (hw : Harmless info st w) : Sealed info st (d.write w.1 w.2).blocks := by
  have hsuper : InJournal st st.diskStartBlock := by
    unfold InRing at hring
    unfold InJournal
    omega
  have hne : w.1 ≠ st.diskStartBlock := by
    rintro heq
    rcases hw with ⟨pos, hin, hat, -⟩ | ⟨hout, -⟩
    · rw [heq, JournalState.journalToDisk] at hat
      have := hin.1
      omega
    · exact hout (heq ▸ hsuper)
  have hjsb : (d.write w.1 w.2).blocks st.diskStartBlock = d.blocks st.diskStartBlock :=
    Function.update_of_ne hne.symm _ _
  have hstart : info.journalStart ((d.write w.1 w.2).blocks info.inodeBlock) = st.diskStartBlock := by
    show info.journalStart (Function.update d.blocks w.1 w.2 info.inodeBlock) = _
    by_cases heq : w.1 = info.inodeBlock
    · rw [← heq, Function.update_self]
      rcases hw with ⟨pos, hin, hat, -⟩ | ⟨-, hkeep⟩
      · exact absurd (by rw [← heq, hat]; exact hin.inJournal) hinode
      · exact hkeep heq
    · rw [Function.update_of_ne (Ne.symm heq)]
      exact hs.mountable.inode
  refine ⟨⟨hstart, ?_, ?_⟩, ?_, ?_, ?_, fun pos hin => ?_⟩
  · rw [hjsb]
    exact hs.mountable.magic
  · rw [hjsb]
    exact hs.mountable.blocktype
  · rw [hjsb]
    exact hs.first
  · rw [hjsb]
    exact hs.maxlen
  · rw [hjsb]
    exact hs.clean
  · show TailBlock 0 _ (Function.update d.blocks w.1 w.2 (st.journalToDisk pos))
    by_cases heq : w.1 = st.journalToDisk pos
    · rw [← heq, Function.update_self]
      rcases hw with ⟨-, -, -, htail⟩ | ⟨hout, -⟩
      · exact htail
      · exact absurd (by rw [heq]; exact hin.inJournal) hout
    · rw [Function.update_of_ne (Ne.symm heq)]
      exact hs.ring pos hin

theorem Sealed.writeAll {st : JournalState} {d : Device} (hs : Sealed info st d.blocks) (hpos : 0 < st.firstBlock)
    (hring : InRing st st.firstBlock) (hinode : ¬ InJournal st info.inodeBlock) {ws : List (Nat × Buf)}
    (hws : ∀ w ∈ ws, Harmless info st w) : Sealed info st (d.writeAll ws).blocks := by
  induction ws using List.reverseRecOn with
  | nil => exact hs
  | append_singleton ws w ih =>
    rw [writeAll_append]
    exact (ih fun x hx => hws x (List.mem_append_left _ hx)).write hpos hring hinode (hws w (by simp))

structure CrashInv (info : MountInfo) (j₀ j : Journal) : Prop where
  sealed : Sealed info j₀.state j.device.blocks
  state : j.state = { j₀.state with writePos := j.state.writePos, sequence := j.state.sequence }
  pos : InRing j₀.state j.state.writePos
  sequence : 1 ≤ j.state.sequence
  bound : j.state.sequence ≤ u32Max
  handle : j.handle.active = true → 1 ≤ j.handle.sequence ∧ j.handle.sequence < 2 ^ 32
  queue : ∀ q ∈ j.handle.queued, Harmless info j₀.state q ∧ ¬ InJournal j₀.state q.1

/-- The writes of `stop`. -/
def stopWrites (j : Journal) : List (Nat × Buf) :=
  if j.handle.queued.isEmpty then [] else placed j.state j.txBufs j.state.writePos ++ j.handle.queued

theorem placed_length (st : JournalState) (bufs : List Buf) (pos : Nat) : (placed st bufs pos).length = bufs.length := by
  induction bufs generalizing pos with
  | nil => rfl
  | cons buf rest ih => rw [placed, List.length_cons, List.length_cons, ih]

theorem homeWrites_all {ok : Nat → Bool} (hok : ∀ i, ok i = true) (queued : List (Nat × Buf)) :
    homeWrites ok queued = queued := by
  induction queued generalizing ok with
  | nil => rfl
  | cons q rest ih => rw [homeWrites, if_pos (hok 0), ih fun i => hok (i + 1), List.singleton_append]

theorem okCount_of_forall {ok : Nat → Bool} (hok : ∀ i, ok i = true) (n : Nat) : okCount ok n = n := by
  obtain rfl : ok = fun _ => true := funext hok
  exact okCount_all n

theorem stop_device {ok : Nat → Bool} (hok : ∀ i, ok i = true) (hactive : j.handle.active = true) :
    (stop ok j).2.device = j.device.writeAll (stopWrites j) := by
  unfold stopWrites
  split
  · next hempty =>
    simp [stop, hactive, hempty]
    rfl
  · next hne =>
    have hne : j.handle.queued ≠ [] := fun he => hne (List.isEmpty_iff.2 he)
    rw [stop_eq ok hactive hne, if_pos (okCount_of_forall hok _), writeAll_append, homeWrites_all fun i => hok _]
    rfl

theorem CrashInv.stopWrites (hi : CrashInv info j₀ j) (hactive : j.handle.active = true) :
    ∀ w ∈ stopWrites j, Harmless info j₀.state w := by
  intro w hw
  unfold Ext3.stopWrites at hw
  split at hw
  · cases hw
  · rcases List.mem_append.1 hw with hw | hw
    · obtain ⟨hone, hlt⟩ := hi.handle hactive
      have hplaced : placed j.state j.txBufs j.state.writePos = placed j₀.state j.txBufs j.state.writePos := by
        rw [hi.state]
        exact placed_state _ _ _ _ _
      rw [hplaced] at hw
      obtain ⟨i, -, hat, hmem⟩ := mem_placed hw
      exact .inl ⟨_, hi.pos.iterate i, hat, tailBlock_txBlocks _ hlt (by omega) hmem⟩
    · exact (hi.queue w hw).1

theorem Mounted.crashInv (hm : Mounted info d₀ j₀) : CrashInv info j₀ j₀ := by
  obtain ⟨-, -, -, hidle, hempty, hpos, hone, hbound⟩ := initJournal_spec hm.mount
  refine ⟨hm.sealed, rfl, ?_, hone, hbound, fun ha => ?_, ?_⟩
  · rw [hpos]
    exact hm.ring
  · rw [hidle] at ha
    cases ha
  · rw [hempty]
    exact nofun

theorem CrashInv.step (hm : Mounted info d₀ j₀) (hi : CrashInv info j₀ j) {op : Op} {res : Bool} {j' : Journal}
    (ha : Plain info j₀ h j op) (hres : op.run j = some (res, j')) : CrashInv info j₀ j' := by
  cases op with
  | start n =>
    rcases start_cases hres with ⟨-, rfl⟩ | ⟨-, -, hne, rfl⟩
    · exact hi
    · have hbound := hi.bound
      have hone := hi.sequence
      refine ⟨hi.sealed, ?_, hi.pos, Nat.le_succ_of_le hone, ?_, fun _ => ⟨hone, ?_⟩, by intros; contradiction⟩
      · show { j.state with sequence := j.state.sequence + 1 } = _
        rw [hi.state]
      · show j.state.sequence + 1 ≤ u32Max
        omega
      · show j.state.sequence < 2 ^ 32
        unfold u32Max at hbound
        omega
  | writeBlock data b =>
    obtain ⟨rfl, rfl⟩ := eq_of_some_pair hres
    unfold Ext3.writeBlock
    split
    · exact hi
    · split
      · exact hi
      · refine ⟨hi.sealed, hi.state, hi.pos, hi.sequence, hi.bound, hi.handle, fun q hq => ?_⟩
        rcases List.mem_append.1 hq with hq | hq
        · exact hi.queue q hq
        · rw [List.mem_singleton.1 hq]
          exact ⟨.inr ha, ha.1⟩
  | stop ok =>
    obtain ⟨rfl, rfl⟩ := eq_of_some_pair hres
    cases hactive : j.handle.active with
    | false =>
      have hstop : Ext3.stop ok j = (false, j) := by
        simp [Ext3.stop, hactive]
      rw [hstop]
      exact hi
    | true =>
      have hdev := stop_device ha hactive
      have hsealed : Sealed info j₀.state (Ext3.stop ok j).2.device.blocks := by
        rw [hdev]
        exact hi.sealed.writeAll hm.positive hm.ring hm.inode (hi.stopWrites hactive)
      by_cases hempty : j.handle.queued = []
      · have hstop : Ext3.stop ok j = (true, { j with handle := { j.handle with active := false } }) := by
          simp [Ext3.stop, hactive, hempty]
        rw [hstop]
        exact ⟨hi.sealed, hi.state, hi.pos, hi.sequence, hi.bound, by intros; contradiction, hi.queue⟩
      · rw [stop_eq ok hactive hempty, if_pos (okCount_of_forall ha _)] at hsealed ⊢
        refine ⟨hsealed, ?_, ?_, hi.sequence, hi.bound, by intros; contradiction, hi.queue⟩
        · show { j.state with writePos := j.state.nextBlock^[j.txBufs.length] j.state.writePos } =
            { j₀.state with
              writePos := j.state.nextBlock^[j.txBufs.length] j.state.writePos, sequence := j.state.sequence }
          generalize j.state.nextBlock^[j.txBufs.length] j.state.writePos = p
          conv_lhs => rw [hi.state]
        · show InRing j₀.state (j.state.nextBlock^[j.txBufs.length] j.state.writePos)
          have hnext : j.state.nextBlock = j₀.state.nextBlock := by
            rw [hi.state]
            rfl
          rw [hnext]
          exact hi.pos.iterate _
  | revoke ok b => exact ha.elim

/-- What `stop` is going to write when nothing fails. -/
def issued (j : Journal) : List (Nat × Buf) := (stop (fun _ => true) j).2.device.log.drop j.device.log.length

/-- The disk after a crash that kept `k` of these writes. -/
def crashed (j : Journal) (k : Nat) : Device := j.device.writeAll ((issued j).take k)

theorem issued_eq (hactive : j.handle.active = true) : issued j = stopWrites j := by
  rw [issued, stop_device (fun _ => rfl) hactive, writeAll_log, List.drop_left]

/-- **Crash atomicity.** After any run of transactions on a mounted journal, a crash during `stop` that falls before the
first home write or behind the last one leaves the home locations all as before or all as after; mounting again changes
none of them. -/
theorem crash_atomic (hm : Mounted info d₀ j₀) (hrun : Run (Plain info j₀) j₀ h j) (hactive : j.handle.active = true)
    {k : Nat} (hk : k ≤ j.handle.queued.length + 2 ∨ (issued j).length ≤ k) :
    ∃ j₁ d', initJournal info (crashed j k) = some (true, some j₁, d') ∧
      ((∀ q ∈ j.handle.queued, d'.blocks q.1 = j.device.blocks q.1) ∨
        ∀ q ∈ j.handle.queued, d'.blocks q.1 = (stop (fun _ => true) j).2.device.blocks q.1) := by
  have hi : CrashInv info j₀ j := by
    clear hk hactive
    induction hrun with
    | init => exact hm.crashInv
    | step _ ha hres ih => exact ih.step hm ha hres
  obtain ⟨hj, hstart, -⟩ := initJournal_spec hm.mount
  have hissued := issued_eq hactive
  have hsealed : Sealed info j₀.state (crashed j k).blocks := by
    refine hi.sealed.writeAll hm.positive hm.ring hm.inode fun w hw => ?_
    rw [hissued] at hw
    exact hi.stopWrites hactive w (List.mem_of_mem_take hw)
  obtain ⟨j₁, d', hmount, hkeep⟩ := initJournal_sealed hj hstart hm.ring hsealed
  refine ⟨j₁, d', hmount, ?_⟩
  rcases hk with hk | hk
  · -- only journal blocks are on the disk
    refine .inl fun q hq => ?_
    rw [hkeep _ (hi.queue q hq).2]
    refine writeAll_of_notMem fun w hw heq => (hi.queue q hq).2 ?_
    rw [hissued, Ext3.stopWrites] at hw
    split at hw
    · rw [List.take_nil] at hw
      cases hw
    · have hlen : (placed j.state j.txBufs j.state.writePos).length = j.handle.queued.length + 2 := by
        rw [placed_length, Journal.txBufs, txBlocks_length]
      rw [List.take_append_of_le_length (by omega)] at hw
      obtain ⟨i, -, hat, -⟩ := mem_placed (List.mem_of_mem_take hw)
      have hstate := hi.state
      rw [← heq, hat, hstate]
      exact (hi.pos.iterate i).inJournal
  · refine .inr fun q hq => ?_
    rw [hkeep _ (hi.queue q hq).2, crashed, List.take_of_length_le hk, hissued, stop_device (fun _ => rfl) hactive]

end Crash

/-! ## A crash between two home writes -/

def smallDisk : MountInfo where
  featureCompat := hasJournal
  featureIncompat := 0
  journalInum := 0
  blockSize := 1024
  inodeSize := 128
  inodeTableBlock := 3

def smallDevice : Device where
  blocks := fun b =>
    if b = 3 then putLE zeros (896 + 0x28) 4 100
    else if b = 100 then putBE (putBE (header blocktypeSuperblockV2 0) 0x10 4 12) 0x14 4 1
    else zeros
  log := []

def smallJournal : Journal := init smallDevice 100 12 1 1 1024

theorem smallDisk_mount : initJournal smallDisk smallDevice = some (true, some smallJournal, smallDevice) := by
  have hmount : Mountable smallDisk 100 smallDevice.blocks := ⟨by decide +kernel, by decide +kernel, .inr (by decide +kernel)⟩
  have hclean : getBE (smallDevice.blocks 100) 0x08 4 = 0 := by decide +kernel
  have hmax : getBE (smallDevice.blocks 100) 0x10 4 = 12 := by decide +kernel
  have hfirst : getBE (smallDevice.blocks 100) 0x14 4 = 1 := by decide +kernel
  have hneeds : ¬ needsReplay smallDisk (smallDevice.blocks 100) := by decide +kernel
  rw [initJournal_eq (by decide) (by decide) hmount, if_neg hneeds, Option.bind_some, hclean, hmax, hfirst]
  rfl

theorem smallDisk_mounted : Mounted smallDisk smallDevice smallJournal where
  mount := smallDisk_mount
  mountable := ⟨by decide +kernel, by decide +kernel, .inr (by decide +kernel)⟩
  first := by decide +kernel
  maxlen := by decide +kernel
  inode := by
    unfold InJournal
    decide +kernel
  positive := by decide
  ring := by
    unfold InRing
    decide
  quiet := by
    intro pos hpos hmagic
    have hblank : smallJournal.device.blocks (smallJournal.state.journalToDisk pos) = zeros := by
      have h1 : 1 ≤ pos := hpos.1
      show (if 100 + pos = 3 then _ else if 100 + pos = 100 then _ else zeros) = zeros
      rw [if_neg (by omega), if_neg (by omega)]
    rw [hblank] at hmagic
    exact absurd hmagic (by decide)

def twoBlocks : List Op := [.start 2, .writeBlock (fun _ => 7) 5, .writeBlock (fun _ => 8) 6]

/-- What a crash after five of the writes shows of blocks 5 and 6: the disk after mounting, before and after `stop`. -/
def tornView (j : Journal) : Option (List Nat × Bool × List (BitVec 8) × List (BitVec 8) × List (BitVec 8)) :=
  (initJournal smallDisk (crashed j 5)).bind fun x =>
    x.2.1.map fun _ => (j.handle.queued.map (·.1), x.1, [x.2.2.blocks 5 0, x.2.2.blocks 6 0],
      [j.device.blocks 5 0, j.device.blocks 6 0],
      [(stop allOk j).2.device.blocks 5 0, (stop allOk j).2.device.blocks 6 0])

/-- A crash after the first of the two home writes: block 5 is new and block 6 is old, and mounting again leaves it so. -/
theorem torn_transaction :
    ∃ (h : History) (j : Journal) (j₁ : Journal) (d' : Device), Run (fun _ _ _ => True) smallJournal h j ∧
      initJournal smallDisk (crashed j 5) = some (true, some j₁, d') ∧
      ¬ ((∀ q ∈ j.handle.queued, d'.blocks q.1 = j.device.blocks q.1) ∨
        ∀ q ∈ j.handle.queued, d'.blocks q.1 = (stop (fun _ => true) j).2.device.blocks q.1) := by
  have hrun : (runOps (fun _ _ _ => True) twoBlocks ⟨[], []⟩ smallJournal).bind (fun r => tornView r.2) =
      some ([5, 6], true, [7, 0], [0, 0], [7, 8]) := by decide +kernel
  obtain ⟨⟨h, j⟩, hops, hview⟩ := Option.bind_eq_some_iff.1 hrun
  obtain ⟨⟨ok, j₁, d'⟩, hmount, hview⟩ := Option.bind_eq_some_iff.1 hview
  obtain ⟨j₁, rfl, hview⟩ := Option.map_eq_some_iff.1 hview
  simp only [Prod.mk.injEq, List.cons.injEq, and_true] at hview
  obtain ⟨hqueued, rfl, ⟨h5, h6⟩, ⟨hold5, hold6⟩, hnew5, hnew6⟩ := hview
  have hmem5 : ∃ q ∈ j.handle.queued, q.1 = 5 := by
    have : 5 ∈ j.handle.queued.map (·.1) := by rw [hqueued]; decide
    simpa using this
  have hmem6 : ∃ q ∈ j.handle.queued, q.1 = 6 := by
    have : 6 ∈ j.handle.queued.map (·.1) := by rw [hqueued]; decide
    simpa using this
  refine ⟨h, j, j₁, d', run_of_runOps _ .init hops, hmount, ?_⟩
  rintro (hall | hall)
  · obtain ⟨q, hq, hq5⟩ := hmem5
    have heq := congrFun (hall q hq) 0
    rw [hq5, h5, hold5] at heq
    cases heq
  · obtain ⟨q, hq, hq6⟩ := hmem6
    have heq := congrFun (hall q hq) 0
    rw [hq6, h6] at heq
    exact absurd (heq.trans hnew6) (by decide)

noncomputable instance (info : MountInfo) (j₀ : Journal) (h : History) (j : Journal) :
    (op : Op) → Decidable (Plain info j₀ h j op)
  | .start _ => .isTrue trivial
  | .writeBlock _ _ => inferInstanceAs (Decidable (_ ∧ (_ → _)))
  | .stop _ => Classical.propDecidable _
  | .revoke _ _ => .isFalse id

/-- The same transaction and a crash before the home writes. -/
theorem crash_atomic_before_home :
    ∃ (h : History) (j : Journal), Run (Plain smallDisk smallJournal) smallJournal h j ∧ j.handle.queued.length = 2 ∧
      ∃ j₁ d', initJournal smallDisk (crashed j 4) = some (true, some j₁, d') ∧
        ((∀ q ∈ j.handle.queued, d'.blocks q.1 = j.device.blocks q.1) ∨
          ∀ q ∈ j.handle.queued, d'.blocks q.1 = (stop (fun _ => true) j).2.device.blocks q.1) := by
  have hrun : (runOps (Plain smallDisk smallJournal) twoBlocks ⟨[], []⟩ smallJournal).map
      (fun r => (r.2.handle.active, r.2.handle.queued.length)) = some (true, 2) := by decide +kernel
  obtain ⟨⟨h, j⟩, hops, hval⟩ := Option.map_eq_some_iff.1 hrun
  obtain ⟨hactive, hlen⟩ := Prod.mk.inj hval
  have hlen : j.handle.queued.length = 2 := hlen
  have hreach := run_of_runOps _ .init hops
  exact ⟨h, j, hreach, hlen, crash_atomic smallDisk_mounted hreach hactive (.inl (by omega))⟩

end Zigix.Ext3
