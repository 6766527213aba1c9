import Zigix.Fs.RecoverySafe

/-!
# The checks of the recovery change nothing

On a disk that answers, a recovery with checks that comes to its end (`Recovery.replayJournal`) writes what the one without
checks does (`Ext3.replayJournal`): turn by turn (`turn_scan`), entry by entry (`replayEntry_device`), and so on sound
journals it always does (`sound_recovery_refines`).
-/

namespace Zigix.Ext3.Recovery

open Bytes

/-! ## The recovery of a disk that answers -/

section Answers
variable {st : JournalState} {buf : Buf} {d : Device}

/-- The variables that the scan without checks has. -/
def Vars.scan (v : Vars) : Scan where
  pos := v.pos
  expectedSeq := v.expectedSeq
  blocksScanned := v.blocksScanned
  entries := v.entries
  revokes := v.revokes
  transactionsFound := v.result.transactionsFound

theorem push_of_store {α : Type} {cap : Nat} {table table' : List α} {x : α} (h : store cap table x = some table') :
    push cap table x = table' := by
  obtain ⟨hlt, rfl⟩ := store_eq_some h
  exact if_pos hlt

theorem descriptorTags_scan {sequence : Nat} (fuel fuel' off : Nat) {v v' : Vars} {s : Scan}
    (h : descriptorTags st buf sequence fuel off v = some v') (hoff : off ≤ st.blockSize)
    (hfuel : st.blockSize + 8 < off + 8 * (fuel' + 1)) (hs : s = { v.scan with blocksScanned := v.blocksScanned + 1 }) :
    scanTags st buf sequence fuel' off s = { v'.scan with blocksScanned := v'.blocksScanned + 1 } := by
  induction fuel generalizing off v s fuel' with
  | zero => cases h
  | succ fuel ih =>
    unfold descriptorTags at h
    by_cases hend : st.blockSize < off + 8
    · rw [if_pos hend] at h
      cases h
      cases fuel' with
      | zero => exact hs
      | succ fuel' =>
        unfold scanTags
        rw [if_pos hend]
        exact hs
    rw [if_neg hend] at h
    cases fuel' with
    | zero => omega
    | succ fuel' =>
      obtain ⟨fsBlock, hblock, h⟩ := Option.bind_eq_some_iff.1 h
      obtain ⟨flags, hflags, h⟩ := Option.bind_eq_some_iff.1 h
      obtain ⟨entries, hentries, h⟩ := Option.bind_eq_some_iff.1 h
      obtain ⟨pos, hpos, h⟩ := Option.bind_eq_some_iff.1 h
      obtain ⟨scanned, hscanned, h⟩ := Option.bind_eq_some_iff.1 h
      obtain rfl := readBE_eq_some hblock
      obtain rfl := readBE_eq_some hflags
      obtain ⟨-, rfl⟩ := nextBlock_eq_some hpos
      obtain ⟨-, rfl⟩ := inc_eq_some.1 hscanned
      have hpush : (if getBE buf (off + 4) 2 &&& flagDeleted = 0 then push maxReplayEntries v.entries
          { sequence, fsBlock := getBE buf off 4, journalBlock := v.pos
            escaped := getBE buf (off + 4) 2 &&& flagEscape != 0, valid := false } else v.entries) = entries := by
        unfold addEntry at hentries
        split at hentries
        · next hkeep =>
          rw [if_pos hkeep.1]
          exact push_of_store hentries
        · next hskip =>
          cases hentries
          split
          · next hkeep => exact if_neg fun hlt => hskip ⟨hkeep, hlt⟩
          · rfl
      unfold scanTags
      rw [if_neg hend]
      dsimp only
      rw [hs]
      dsimp only [Vars.scan]
      rw [hpush]
      split at h
      · next hlast =>
        rw [if_pos hlast]
        cases h
        rfl
      · next hlast =>
        rw [if_neg hlast]
        exact ih fuel' (off + 8) h (by omega) (by omega) rfl

theorem revokedBlocks_scan {sequence : Nat} (n off : Nat) {v v' : Vars}
    (h : revokedBlocks st buf sequence n off v = some v') :
    scanRevokes st buf sequence n off v.revokes = v'.revokes := by
  induction n generalizing off v with
  | zero =>
    cases h
    rfl
  | succ n ih =>
    unfold revokedBlocks at h
    unfold scanRevokes
    split at h
    · next hend =>
      rw [if_pos hend]
      cases h
      rfl
    next hend =>
    rw [if_neg hend]
    split at h
    · obtain ⟨fsBlock, hblock, h⟩ := Option.bind_eq_some_iff.1 h
      obtain rfl := readBE_eq_some hblock
      obtain ⟨revokes, hrevokes, h⟩ := Option.bind_eq_some_iff.1 h
      obtain ⟨count, -, h⟩ := Option.bind_eq_some_iff.1 h
      rw [push_of_store hrevokes]
      exact ih (off + 4) h
    · next hfull =>
      rw [push, if_neg hfull]
      exact ih (off + 4) h

theorem advance_scan {go : Bool} {v v' : Vars} (h : advance st v = some (go, v')) :
    go = true ∧ v'.scan = { v.scan with pos := st.nextBlock v.pos, blocksScanned := v.blocksScanned + 1 } := by
  obtain ⟨-, -, hgo, rfl⟩ := advance_eq_some h
  exact ⟨hgo, rfl⟩

theorem turn_scan {fuel : Nat} {go : Bool} {v v' : Vars} (hmore : v.blocksScanned < st.maxBlocks)
    (h : turn st (d.blocks (st.journalToDisk v.pos)) v = some (go, v')) :
    Ext3.scanLoop st d.blocks (fuel + 1) v.scan =
      if go = true then Ext3.scanLoop st d.blocks fuel v'.scan else some v'.scan := by
  rw [Ext3.scanLoop, if_pos (show v.scan.blocksScanned < st.maxBlocks from hmore)]
  rw [show v.scan.pos = v.pos from rfl]
  generalize d.blocks (st.journalToDisk v.pos) = buf at h
  dsimp only
  obtain ⟨magic, hmagic, h⟩ := Option.bind_eq_some_iff.1 h
  obtain rfl := readBE_eq_some hmagic
  obtain ⟨blocktype, htype, h⟩ := Option.bind_eq_some_iff.1 h
  obtain rfl := readBE_eq_some htype
  obtain ⟨sequence, hsequence, h⟩ := Option.bind_eq_some_iff.1 h
  obtain rfl := readBE_eq_some hsequence
  split at h
  · next hm =>
    rw [if_pos hm]
    cases h
    rfl
  next hm =>
  rw [if_neg hm]
  split at h
  · next hdesc =>
    rw [if_pos hdesc]
    obtain ⟨pos, hpos, h⟩ := Option.bind_eq_some_iff.1 h
    obtain ⟨-, rfl⟩ := nextBlock_eq_some hpos
    obtain ⟨v₁, htags, h⟩ := Option.bind_eq_some_iff.1 h
    obtain ⟨scanned, hscanned, h⟩ := Option.bind_eq_some_iff.1 h
    obtain ⟨-, rfl⟩ := inc_eq_some.1 hscanned
    cases h
    rw [if_pos rfl]
    by_cases hsmall : 12 ≤ st.blockSize
    · exact congrArg (Ext3.scanLoop st d.blocks fuel) (descriptorTags_scan _ st.blockSize 12 htags hsmall (by omega) rfl)
    · exact absurd (show 8 + 4 ≤ st.blockSize by
        unfold readBE at hsequence
        split at hsequence
        · assumption
        · cases hsequence) (by omega)
  next hdesc =>
  rw [if_neg hdesc]
  split at h
  · next hcommit =>
    rw [if_pos hcommit]
    split at h
    · next hseq =>
      rw [if_pos (show getBE buf 8 4 ≠ v.scan.expectedSeq from hseq)]
      cases h
      rfl
    next hseq =>
    rw [if_neg (show ¬ getBE buf 8 4 ≠ v.scan.expectedSeq from hseq)]
    obtain ⟨found, hfound, h⟩ := Option.bind_eq_some_iff.1 h
    obtain ⟨-, rfl⟩ := inc_eq_some.1 hfound
    obtain ⟨expected, hexpected, h⟩ := Option.bind_eq_some_iff.1 h
    obtain ⟨he, rfl⟩ := inc_eq_some.1 hexpected
    obtain ⟨rfl, hscan⟩ := advance_scan h
    rw [if_neg (show ¬ v.scan.expectedSeq = u32Max from Nat.ne_of_lt he), if_pos rfl, hscan]
    rfl
  next hcommit =>
  rw [if_neg hcommit]
  split at h
  · next hrevoke =>
    rw [if_pos hrevoke]
    obtain ⟨count, hcount, h⟩ := Option.bind_eq_some_iff.1 h
    obtain rfl := readBE_eq_some hcount
    split at h
    · cases h
    next hlow =>
    rw [if_neg hlow]
    obtain ⟨v₁, hrevoked, h⟩ := Option.bind_eq_some_iff.1 h
    obtain ⟨rfl, hscan⟩ := advance_scan h
    have hr := revokedBlocks_spec _ _ hrevoked
    rw [if_pos rfl, hscan, hr.pos, hr.scanned]
    unfold Vars.scan
    dsimp only
    rw [revokedBlocks_scan _ _ hrevoked, hr.expected, hr.entries, hr.found]
  · next hrevoke =>
    rw [if_neg hrevoke]
    obtain ⟨rfl, hscan⟩ := advance_scan h
    rw [if_pos rfl, hscan]
    rfl

theorem scanLoop_scan (fuel fuel' : Nat) {k : Nat} {v : Vars} {r : Nat × Vars}
    (h : scanLoop st (fun _ => true) d fuel k v = some r) (hfuel : st.maxBlocks - v.blocksScanned ≤ fuel')
    (hw : WellTyped st) (hat : At st (fun _ => true) d.blocks k v) :
    Ext3.scanLoop st d.blocks fuel' v.scan = some r.2.scan ∧ r.2.result.errors = 0 := by
  induction fuel generalizing k v fuel' with
  | zero => cases h
  | succ fuel ih =>
    by_cases hend : st.maxBlocks ≤ v.blocksScanned
    · unfold scanLoop at h
      rw [if_pos hend] at h
      cases h
      refine ⟨?_, hat.tables.errors⟩
      cases fuel' with
      | zero => rfl
      | succ fuel' => exact if_neg (Nat.not_lt_of_le hend)
    have hmore := Nat.lt_of_not_le hend
    cases fuel' with
    | zero => omega
    | succ fuel' =>
      obtain ⟨fuel₁, go, v', heq, hturn, hnext⟩ := scanLoop_turn h hmore rfl
      obtain rfl := Nat.succ.inj heq
      rw [turn_scan hmore hturn]
      rcases hat.turn hw hmore rfl (turn_cases hturn) with ⟨rfl, rfl⟩ | ⟨rfl, hlt, hat'⟩
      · rw [if_neg Bool.false_ne_true] at hnext ⊢
        rw [hnext]
        exact ⟨rfl, hat.tables.errors⟩
      · rw [if_pos rfl] at hnext ⊢
        exact ih fuel' hnext (by omega) hat'

theorem readDiskBlock_true {b : Nat} {answer : Option Buf} (h : readDiskBlock st true d b = some answer) :
    answer = some (d.blocks b) := by
  unfold readDiskBlock at h
  split at h
  · exact (Option.some.inj h).symm
  · cases h

theorem writeDiskBlock_true {b : Nat} {r : Bool × Device} (h : writeDiskBlock st true d b buf = some r) :
    r = (true, d.write b buf) := by
  unfold writeDiskBlock at h
  split at h
  · exact (Option.some.inj h).symm
  · cases h

theorem journalToDisk_eq_some {pos block : Nat} (h : journalToDisk st pos = some block) :
    block = st.journalToDisk pos := by
  unfold journalToDisk at h
  split at h
  · exact (Option.some.inj h).symm
  · cases h

theorem replayEntry_device {e : ReplayEntry} {r r' : Replay} (h : replayEntry st (fun _ => true) e r = some r') :
    r'.device = if e.valid = true then r.device.write e.fsBlock (entryData st r.device.blocks e) else r.device := by
  unfold replayEntry at h
  split at h
  · next hvalid =>
    cases h
    rw [hvalid]
    rfl
  next hvalid =>
  rw [if_pos (by simpa using hvalid)]
  obtain ⟨block, hblock, h⟩ := Option.bind_eq_some_iff.1 h
  obtain rfl := journalToDisk_eq_some hblock
  obtain ⟨answer, hanswer, h⟩ := Option.bind_eq_some_iff.1 h
  obtain rfl := readDiskBlock_true hanswer
  dsimp only at h
  obtain ⟨written, hwritten, h⟩ := Option.bind_eq_some_iff.1 h
  obtain rfl := writeDiskBlock_true hwritten
  dsimp only at h
  rw [if_pos rfl] at h
  obtain ⟨count, -, h⟩ := Option.bind_eq_some_iff.1 h
  cases h
  rfl

theorem pass3Replay_device {es : List ReplayEntry} {r r' : Replay} (h : pass3Replay st (fun _ => true) es r = some r') :
    r'.device = Ext3.pass3Replay st es r.device := by
  induction es generalizing r with
  | nil =>
    cases h
    rfl
  | cons e es ih =>
    obtain ⟨r₁, hone, hrest⟩ := Option.bind_eq_some_iff.1 h
    rw [ih hrest, replayEntry_device hone]
    rfl

theorem pass4Clear_device {r r' : Replay} (h : pass4Clear st (fun _ => true) r = some r') :
    r'.device = Ext3.pass4Clear st r.device := by
  obtain ⟨block, hblock, h⟩ := Option.bind_eq_some_iff.1 h
  obtain rfl := journalToDisk_eq_some hblock
  obtain ⟨answer, hanswer, h⟩ := Option.bind_eq_some_iff.1 h
  obtain rfl := readDiskBlock_true hanswer
  dsimp only at h
  obtain ⟨written, hwritten, h⟩ := Option.bind_eq_some_iff.1 h
  obtain rfl := writeDiskBlock_true hwritten
  dsimp only at h
  rw [if_pos rfl] at h
  cases h
  rfl

theorem replayJournal_unchecked (hw : WellTyped st) {result : ReplayResult} {d' : Device}
    (h : replayJournal st (fun _ => true) d = some (result, d')) : Ext3.replayJournal st d = some d' := by
  obtain ⟨⟨calls, v⟩, hscan, h⟩ := Option.bind_eq_some_iff.1 h
  obtain ⟨r, hreplay, h⟩ := Option.bind_eq_some_iff.1 h
  obtain ⟨r', hclear, h⟩ := Option.bind_eq_some_iff.1 h
  cases h
  have hloop := (scanLoop_scan (st.maxBlocks + 1) st.maxBlocks hscan (Nat.sub_le _ _) hw (startVars_at hw)).1
  refine Option.bind_eq_some_iff.2 ⟨v.scan, hloop, ?_⟩
  rw [pass4Clear_device hclear, pass3Replay_device hreplay]
  rfl

/-- **The checks change nothing.** On a disk that answers, the recovery of a journal in which the scan can get past every block
comes to its end without a fault and leaves what the recovery without checks leaves. -/
theorem sound_recovery_refines (hw : WellTyped st) (hs : AllSound st (fun _ => true) d.blocks) :
    ∃ result d', replayJournal st (fun _ => true) d = some (result, d') ∧ Ext3.replayJournal st d = some d' := by
  obtain ⟨result, d', -, hrun, -⟩ := replay_safe hw hs
  exact ⟨result, d', hrun, replayJournal_unchecked hw hrun⟩

end Answers

theorem sound_recovery_refines_small : ∃ result d', replayJournal smallState (fun _ => true) oneWrite = some (result, d') ∧
    Ext3.replayJournal smallState oneWrite = some d' := by
  have hrun : (pass1Scan smallState (fun _ => true) oneWrite).isSome := by decide +kernel
  obtain ⟨s, hscan⟩ := Option.isSome_iff_exists.1 hrun
  exact sound_recovery_refines smallState_typed (pass1Scan_sound hscan)

end Zigix.Ext3.Recovery
