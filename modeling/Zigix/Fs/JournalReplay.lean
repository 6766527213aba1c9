import Zigix.Fs.JournalScan
import Mathlib.Data.List.Induction
import Mathlib.Data.Nat.ModEq

/-!
# Replaying a journal

* `roundTrip_iff` : what one `stop` puts into the journal is replayed exactly when the transaction does not cross the end
  of the ring.
-/

namespace Zigix.Ext3

open Bytes

variable {st : JournalState} {blocks : Nat → Buf}

/-- The passes that write to the file system. -/
def replayed (st : JournalState) (d : Device) : Option Device := do
  let scan ← pass1Scan st d.blocks
  return pass3Replay st (pass2Filter scan.revokes scan.entries) d

theorem replayJournal_eq (st : JournalState) (d : Device) : replayJournal st d = (replayed st d).map (pass4Clear st) := by
  unfold replayJournal replayed
  cases pass1Scan st d.blocks with
  | none => rfl
  | some s => rfl

/-! ## Writes to a device -/

section Writes

def Device.writeAll (d : Device) (ws : List (Nat × Buf)) : Device := ws.foldl (fun d w => d.write w.1 w.2) d

/-- What the last write to `b` leaves there. -/
def lastTo (b : Nat) (ws : List (Nat × Buf)) : Option Buf :=
  ws.foldl (fun acc w => if w.1 = b then some w.2 else acc) none

theorem writeAll_log (d : Device) (ws : List (Nat × Buf)) : (d.writeAll ws).log = d.log ++ ws := by
  induction ws generalizing d with
  | nil => exact (List.append_nil _).symm
  | cons w ws ih =>
    rw [Device.writeAll, List.foldl_cons]
    refine (ih _).trans ?_
    rw [Device.write, List.append_assoc, List.singleton_append]

theorem writeAll_append (d : Device) (ws ws' : List (Nat × Buf)) : d.writeAll (ws ++ ws') = (d.writeAll ws).writeAll ws' :=
  List.foldl_append

theorem lastTo_append (b : Nat) (ws : List (Nat × Buf)) (w : Nat × Buf) :
    lastTo b (ws ++ [w]) = if w.1 = b then some w.2 else lastTo b ws := by
  rw [lastTo, List.foldl_append]
  rfl

theorem writeAll_blocks (d : Device) (ws : List (Nat × Buf)) (b : Nat) :
    (d.writeAll ws).blocks b = (lastTo b ws).getD (d.blocks b) := by
  induction ws using List.reverseRecOn with
  | nil => rfl
  | append_singleton ws w ih =>
    rw [writeAll_append, lastTo_append]
    show Function.update (d.writeAll ws).blocks w.1 w.2 b = _
    by_cases h : w.1 = b
    · rw [if_pos h, ← h, Function.update_self]
      rfl
    · rw [if_neg h, Function.update_of_ne (Ne.symm h), ih]

theorem lastTo_eq_none {b : Nat} {ws : List (Nat × Buf)} : lastTo b ws = none ↔ ∀ w ∈ ws, w.1 ≠ b := by
  induction ws using List.reverseRecOn with
  | nil => simp [lastTo]
  | append_singleton ws w ih =>
    rw [lastTo_append, List.forall_mem_append]
    by_cases h : w.1 = b
    · rw [if_pos h]
      exact ⟨nofun, fun hall => absurd h (hall.2 w (List.mem_singleton_self w))⟩
    · rw [if_neg h, ih]
      exact ⟨fun hws => ⟨hws, fun x hx => by rw [List.mem_singleton.1 hx]; exact h⟩, fun hall => hall.1⟩

theorem writeAll_of_notMem {d : Device} {ws : List (Nat × Buf)} {b : Nat} (h : ∀ w ∈ ws, w.1 ≠ b) :
    (d.writeAll ws).blocks b = d.blocks b := by
  rw [writeAll_blocks, lastTo_eq_none.2 h]
  rfl

end Writes

/-! ## The second and the third pass -/

section Passes

def InJournal (st : JournalState) (b : Nat) : Prop := st.diskStartBlock ≤ b ∧ b < st.diskStartBlock + st.maxBlocks

instance (st : JournalState) (b : Nat) : Decidable (InJournal st b) := inferInstanceAs (Decidable (_ ∧ _))

theorem InRing.inJournal {pos : Nat} (h : InRing st pos) : InJournal st (st.journalToDisk pos) := by
  unfold InRing at h
  unfold InJournal JournalState.journalToDisk
  omega

theorem pass3Replay_eq {entries : List ReplayEntry} (d : Device)
    (h : ∀ e ∈ entries, e.valid = true → InRing st e.journalBlock ∧ ¬ InJournal st e.fsBlock) :
    pass3Replay st entries d =
      d.writeAll ((entries.filter fun e => e.valid).map fun e => (e.fsBlock, entryData st d.blocks e)) := by
  induction entries using List.reverseRecOn with
  | nil => rfl
  | append_singleton entries e ih =>
    have hih := ih fun x hx => h x (List.mem_append_left _ hx)
    rw [pass3Replay, List.foldl_append] at *
    simp only [List.foldl_cons, List.foldl_nil, List.filter_append, List.map_append, writeAll_append]
    rw [← hih]
    by_cases hv : e.valid = true
    · have hsame : entryData st (List.foldl (fun d e => if e.valid = true then d.write e.fsBlock (entryData st d.blocks e) else d)
          d entries).blocks e = entryData st d.blocks e := by
        have hread : (List.foldl (fun d e => if e.valid = true then d.write e.fsBlock (entryData st d.blocks e) else d)
            d entries).blocks (st.journalToDisk e.journalBlock) = d.blocks (st.journalToDisk e.journalBlock) := by
          rw [hih]
          refine writeAll_of_notMem fun w hw heq => ?_
          obtain ⟨x, hx, rfl⟩ := List.mem_map.1 hw
          obtain ⟨hx, hxv⟩ := List.mem_filter.1 hx
          have heq : x.fsBlock = st.journalToDisk e.journalBlock := heq
          refine (h x (List.mem_append_left _ hx) hxv).2 ?_
          rw [heq]
          exact (h e (by simp) hv).1.inJournal
        rw [entryData, entryData, hread]
      rw [if_pos hv, hsame]
      simp [hv, Device.writeAll]
    · rw [if_neg hv]
      simp [hv, Device.writeAll]

/-- `r` revokes the write of block `b` by transaction `seq`. -/
def kills (r : RevokeEntry) (seq b : Nat) : Bool := r.fsBlock == b && decide (seq ≤ r.sequence)

theorem pass2Filter_filter (revokes : List RevokeEntry) (entries : List ReplayEntry) :
    (pass2Filter revokes entries).filter (fun e => e.valid) =
      entries.filter fun e => e.valid && !revokes.any fun r => kills r e.sequence e.fsBlock := by
  induction entries with
  | nil => rfl
  | cons e entries ih =>
    rw [pass2Filter, List.map_cons, List.filter_cons, List.filter_cons]
    rw [pass2Filter] at ih
    rw [ih]
    by_cases hk : (revokes.any fun r => kills r e.sequence e.fsBlock) = true
    · have hk' : (revokes.any fun r => r.fsBlock == e.fsBlock && decide (e.sequence ≤ r.sequence)) = true := hk
      simp [hk, hk']
    · have hk' : ¬ (revokes.any fun r => r.fsBlock == e.fsBlock && decide (e.sequence ≤ r.sequence)) = true := hk
      rw [if_neg hk', eq_false_of_ne_true hk, Bool.not_false, Bool.and_true]

end Passes

/-! ## Records -/

section Records
variable {recs : List Record}

/-- The block writes of the committed transactions: number, block, contents. -/
def writesOf (recs : List Record) : List (Nat × Nat × Buf) :=
  (txs recs).flatMap fun t => t.2.map fun q => (t.1, q.1, q.2)

def entryWrite (st : JournalState) (blocks : Nat → Buf) (e : ReplayEntry) : Nat × Nat × Buf :=
  (e.sequence, e.fsBlock, entryData st blocks e)

theorem txEntries_write {seq pos : Nat} {valid : Bool} {queued : List (Nat × Buf)}
    (h : Holds st blocks (queued.map fun q => escape q.2) pos) :
    (txEntries st seq valid queued pos).map (entryWrite st blocks) = queued.map fun q => (seq, q.1, q.2) := by
  induction queued generalizing pos with
  | nil => rfl
  | cons q rest ih =>
    obtain ⟨hq, hrest⟩ := h
    rw [txEntries, List.map_cons, List.map_cons, ih hrest]
    have hq : blocks (st.journalToDisk pos) = escape q.2 := hq
    have hdata := unescape q.2
    rw [← hq] at hdata
    exact congrArg (fun data => (seq, q.1, data) :: _) hdata

theorem entriesOf_write {pos : Nat} (h : Holds st blocks (image st.blockSize recs) pos) :
    (entriesOf st recs pos).map (entryWrite st blocks) = writesOf recs := by
  induction recs generalizing pos with
  | nil => rfl
  | cons r recs ih =>
    rw [image_cons, holds_append] at h
    obtain ⟨hr, hrest⟩ := h
    cases r with
    | tx seq queued =>
      rw [Record.bufs, txBlocks, List.cons_append, Holds, holds_append] at hr
      rw [Record.bufs, txBlocks_length] at hrest
      rw [entriesOf, List.map_append, txEntries_write hr.2.1, ih hrest]
      rfl
    | rev seq fsBlock => exact ih hrest

theorem mem_txEntries_pos {seq pos : Nat} {valid : Bool} {queued : List (Nat × Buf)} {e : ReplayEntry} (hpos : InRing st pos)
    (h : e ∈ txEntries st seq valid queued pos) : InRing st e.journalBlock := by
  induction queued generalizing pos with
  | nil => cases h
  | cons q rest ih =>
    rcases List.mem_cons.1 h with rfl | h
    · exact hpos
    · exact ih hpos.next h

theorem mem_entriesOf {pos : Nat} {e : ReplayEntry} (hpos : InRing st pos) (h : e ∈ entriesOf st recs pos) :
    e.valid = true ∧ InRing st e.journalBlock := by
  induction recs generalizing pos with
  | nil => cases h
  | cons r recs ih =>
    cases r with
    | tx seq queued =>
      rcases List.mem_append.1 h with h | h
      · exact ⟨(mem_txEntries h).2, mem_txEntries_pos hpos.next h⟩
      · exact ih (hpos.iterate _) h
    | rev seq fsBlock => exact ih hpos.next h

def unrevoked (revokes : List RevokeEntry) (w : Nat × Nat × Buf) : Bool := !revokes.any fun r => kills r w.1 w.2.1

structure Recorded (st : JournalState) (blocks : Nat → Buf) (recs : List Record) (P : RevokeEntry → Prop) : Prop where
  ring : InRing st st.firstBlock
  bs : 20 ≤ st.blockSize
  holds : Holds st blocks (image st.blockSize recs) st.firstBlock
  numbered : Numbered st.sequence recs
  fits : ∀ r ∈ recs, r.Fits st.blockSize
  length : (image st.blockSize recs).length ≤ st.maxBlocks
  sequence : st.sequence + (txs recs).length ≤ u32Max
  entries : queuedCount recs ≤ maxReplayEntries
  tail : ∀ pos, InRing st pos → TailBlock (st.sequence + (txs recs).length) P (blocks (st.journalToDisk pos))

/-- **The replay of the records.** When what is revoked behind the records is revoked by them already, exactly the
writes that no record revokes are carried out, in order. -/
theorem replayed_eq {d : Device}
    (h : Recorded st d.blocks recs fun y => ∀ w ∈ writesOf recs, kills y w.1 w.2.1 = true → unrevoked (revs recs) w = false)
    (hrevs : (revs recs).length ≤ maxRevokeEntries) (hout : ∀ w ∈ writesOf recs, ¬ InJournal st w.2.1) :
    replayed st d = some (d.writeAll (((writesOf recs).filter (unrevoked (revs recs))).map fun w => w.2)) := by
  obtain ⟨s, hs, -, ⟨X, hX, hinvalid⟩, ⟨Y, hY, hP⟩⟩ := pass1Scan_records h.ring h.bs h.holds h.numbered h.fits h.length
    h.sequence h.entries h.tail
  rw [foldl_push (by rw [List.length_nil, Nat.zero_add]; exact hrevs), List.nil_append] at hY
  have hwrites := entriesOf_write h.holds
  have hmem : ∀ e ∈ entriesOf st recs st.firstBlock, entryWrite st d.blocks e ∈ writesOf recs := by
    intro e he
    rw [← hwrites]
    exact List.mem_map_of_mem he
  -- the entries that survive are those of the records that the records do not revoke
  have hsurvive : (pass2Filter s.revokes s.entries).filter (fun e => e.valid) =
      (entriesOf st recs st.firstBlock).filter fun e => unrevoked (revs recs) (entryWrite st d.blocks e) := by
    rw [pass2Filter_filter, hX, List.filter_append]
    have hnone : X.filter (fun e => e.valid && !s.revokes.any fun r => kills r e.sequence e.fsBlock) = [] := by
      refine List.filter_eq_nil_iff.2 fun x hx => ?_
      rw [hinvalid x hx]
      exact Bool.false_ne_true
    rw [hnone, List.append_nil]
    refine List.filter_congr fun e he => ?_
    rw [(mem_entriesOf h.ring he).1, Bool.true_and, hY, List.any_append]
    show _ = !(revs recs).any fun r => kills r e.sequence e.fsBlock
    cases hR : (revs recs).any fun r => kills r e.sequence e.fsBlock with
    | true => rfl
    | false =>
      rw [Bool.false_or, Bool.not_inj_iff, List.any_eq_false]
      intro y hy hkill
      have hun : unrevoked (revs recs) (entryWrite st d.blocks e) = true := by
        show (!(revs recs).any fun r => kills r e.sequence e.fsBlock) = true
        rw [hR]
        rfl
      rw [hP y hy _ (hmem e he) hkill] at hun
      cases hun
  have hgood : ∀ e ∈ pass2Filter s.revokes s.entries, e.valid = true → InRing st e.journalBlock ∧ ¬ InJournal st e.fsBlock := by
    intro e he hv
    have he : e ∈ (entriesOf st recs st.firstBlock).filter fun e => unrevoked (revs recs) (entryWrite st d.blocks e) := by
      rw [← hsurvive]
      exact List.mem_filter.2 ⟨he, hv⟩
    have he := (List.mem_filter.1 he).1
    exact ⟨(mem_entriesOf h.ring he).2, hout _ (hmem e he)⟩
  simp only [replayed, hs, Option.bind_eq_bind, Option.bind_some, Option.pure_def]
  rw [pass3Replay_eq d hgood, hsurvive, ← hwrites, List.filter_map, List.map_map]
  rfl

end Records

/-! ## Positions -/

section Positions

theorem iterate_next {pos : Nat} (h : InRing st pos) (k : Nat) :
    st.nextBlock^[k] pos = st.firstBlock + (pos - st.firstBlock + k) % (st.maxBlocks - st.firstBlock) := by
  unfold InRing at h
  induction k with
  | zero =>
    rw [Function.iterate_zero, id, Nat.add_zero, Nat.mod_eq_of_lt (by omega)]
    omega
  | succ k ih =>
    rw [Function.iterate_succ_apply', ih, JournalState.nextBlock]
    clear ih
    generalize hR : st.maxBlocks - st.firstBlock = R
    have hpos : 0 < R := by omega
    have hlt := Nat.mod_lt (pos - st.firstBlock + k) hpos
    have hsucc := Nat.mod_add_mod (pos - st.firstBlock + k) R 1
    rw [← Nat.add_assoc, ← hsucc]
    by_cases hend : (pos - st.firstBlock + k) % R + 1 = R
    · rw [if_pos (by omega), hend, Nat.mod_self, Nat.add_zero]
    · rw [if_neg (by omega), Nat.mod_eq_of_lt (Nat.lt_of_le_of_ne hlt hend), Nat.add_assoc]

theorem iterate_next_injective {pos i k : Nat} (h : InRing st pos) (hi : i < st.maxBlocks - st.firstBlock)
    (hk : k < st.maxBlocks - st.firstBlock) (heq : st.nextBlock^[i] pos = st.nextBlock^[k] pos) : i = k := by
  rw [iterate_next h, iterate_next h] at heq
  have hmod : pos - st.firstBlock + i ≡ pos - st.firstBlock + k [MOD st.maxBlocks - st.firstBlock] := Nat.add_left_cancel heq
  have hik := Nat.ModEq.add_left_cancel' _ hmod
  exact Nat.ModEq.eq_of_lt_of_lt hik hi hk

theorem iterate_next_lt {pos k : Nat} (h : pos + k < st.maxBlocks) : st.nextBlock^[k] pos = pos + k := by
  induction k with
  | zero => rfl
  | succ k ih =>
    rw [Function.iterate_succ_apply', ih (by omega), JournalState.nextBlock, if_neg (by omega), Nat.add_assoc]

theorem holds_iff {bufs : List Buf} {pos : Nat} :
    Holds st blocks bufs pos ↔ ∀ i (h : i < bufs.length), blocks (st.journalToDisk (st.nextBlock^[i] pos)) = bufs[i] := by
  induction bufs generalizing pos with
  | nil => exact ⟨fun _ i h => absurd h (Nat.not_lt_zero i), fun _ => trivial⟩
  | cons buf rest ih =>
    rw [Holds, ih]
    constructor
    · rintro ⟨hbuf, hrest⟩ i h
      cases i with
      | zero => exact hbuf
      | succ i => exact hrest i (Nat.lt_of_succ_lt_succ h)
    · intro h
      exact ⟨h 0 (Nat.zero_lt_succ _), fun i hi => h (i + 1) (Nat.succ_lt_succ hi)⟩

/-- The writes that put `bufs` into the ring from `pos` on. -/
def placed (st : JournalState) : List Buf → Nat → List (Nat × Buf)
  | [], _ => []
  | buf :: rest, pos => (st.journalToDisk pos, buf) :: placed st rest (st.nextBlock pos)

theorem mem_placed {bufs : List Buf} {pos : Nat} {w : Nat × Buf} (h : w ∈ placed st bufs pos) :
    ∃ i, i < bufs.length ∧ w.1 = st.journalToDisk (st.nextBlock^[i] pos) ∧ w.2 ∈ bufs := by
  induction bufs generalizing pos with
  | nil => cases h
  | cons buf rest ih =>
    rcases List.mem_cons.1 h with rfl | h
    · exact ⟨0, Nat.zero_lt_succ _, rfl, List.mem_cons_self⟩
    · obtain ⟨i, hi, hw, hmem⟩ := ih h
      exact ⟨i + 1, Nat.succ_lt_succ hi, hw, List.mem_cons_of_mem _ hmem⟩

theorem placed_append (bufs bufs' : List Buf) (pos : Nat) :
    placed st (bufs ++ bufs') pos = placed st bufs pos ++ placed st bufs' (st.nextBlock^[bufs.length] pos) := by
  induction bufs generalizing pos with
  | nil => rfl
  | cons buf rest ih => rw [List.cons_append, placed, ih, placed, List.cons_append, List.length_cons, Function.iterate_succ_apply]

theorem holds_placed {bufs : List Buf} {pos : Nat} (d : Device) (hpos : InRing st pos)
    (hlen : bufs.length ≤ st.maxBlocks - st.firstBlock) : Holds st (d.writeAll (placed st bufs pos)).blocks bufs pos := by
  induction bufs using List.reverseRecOn with
  | nil => trivial
  | append_singleton bufs buf ih =>
    rw [List.length_append, List.length_singleton] at hlen
    rw [placed_append, writeAll_append, holds_append]
    have hloc : ∀ i, i < bufs.length →
        st.journalToDisk (st.nextBlock^[i] pos) ≠ st.journalToDisk (st.nextBlock^[bufs.length] pos) := by
      intro i hi heq
      have := iterate_next_injective hpos (by omega) (by omega) (Nat.add_left_cancel heq)
      omega
    refine ⟨holds_iff.2 fun i hi => ?_, Function.update_self _ _ _, trivial⟩
    rw [← holds_iff.1 (ih (by omega)) i hi]
    exact Function.update_of_ne (hloc i hi) _ _

end Positions

/-! ## What a call writes -/

section Calls
variable {j : Journal}

/-- How many of `n` writes precede the first failure. -/
def okCount (ok : Nat → Bool) : Nat → Nat
  | 0 => 0
  | n + 1 => if ok 0 then okCount (fun i => ok (i + 1)) n + 1 else 0

theorem okCount_le (ok : Nat → Bool) (n : Nat) : okCount ok n ≤ n := by
  induction n generalizing ok with
  | zero => exact le_rfl
  | succ n ih =>
    rw [okCount]
    split
    · exact Nat.succ_le_succ (ih _)
    · exact Nat.zero_le _

theorem okCount_all (n : Nat) : okCount (fun _ => true) n = n := by
  induction n with
  | zero => rfl
  | succ n ih => rw [okCount, if_pos rfl, ih]

/-- `bufs` were appended. -/
def appended (bufs : List Buf) (j : Journal) : Journal :=
  { j with
    device := j.device.writeAll (placed j.state bufs j.state.writePos)
    state := { j.state with writePos := j.state.nextBlock^[bufs.length] j.state.writePos } }

theorem placed_state (st : JournalState) (p q : Nat) (bufs : List Buf) (pos : Nat) :
    placed { st with writePos := p, sequence := q } bufs pos = placed st bufs pos := by
  induction bufs generalizing pos with
  | nil => rfl
  | cons buf rest ih => exact congrArg _ (ih _)

theorem appended_cons (buf : Buf) (rest : List Buf) (j : Journal) :
    appended (buf :: rest) j = appended rest (append buf j) := by
  have hplaced : placed (append buf j).state rest (append buf j).state.writePos =
      placed j.state rest (j.state.nextBlock j.state.writePos) := placed_state j.state _ j.state.sequence _ _
  rw [appended, appended, hplaced]
  rfl

theorem appendAll_eq (ok : Nat → Bool) (bufs : List Buf) (j : Journal) :
    appendAll ok bufs j =
      (decide (okCount ok bufs.length = bufs.length), appended (bufs.take (okCount ok bufs.length)) j) := by
  induction bufs generalizing ok j with
  | nil => rfl
  | cons buf rest ih =>
    rw [appendAll, List.length_cons, okCount]
    split
    · rw [ih]
      have hdec : decide (okCount (fun i => ok (i + 1)) rest.length = rest.length) =
          decide (okCount (fun i => ok (i + 1)) rest.length + 1 = rest.length + 1) := by
        simp
      rw [hdec, ← appended_cons]
      rfl
    · rfl

def homeWrites (ok : Nat → Bool) : List (Nat × Buf) → List (Nat × Buf)
  | [] => []
  | q :: rest => (if ok 0 then [q] else []) ++ homeWrites (fun i => ok (i + 1)) rest

theorem writeHome_eq (ok : Nat → Bool) (queued : List (Nat × Buf)) (d : Device) :
    writeHome ok queued d = d.writeAll (homeWrites ok queued) := by
  induction queued generalizing ok d with
  | nil => rfl
  | cons q rest ih =>
    rw [writeHome, ih, homeWrites, writeAll_append]
    split
    · rfl
    · rfl

theorem mem_homeWrites {ok : Nat → Bool} {queued : List (Nat × Buf)} {w : Nat × Buf} (h : w ∈ homeWrites ok queued) :
    w ∈ queued := by
  induction queued generalizing ok with
  | nil => cases h
  | cons q rest ih =>
    rcases List.mem_append.1 h with h | h
    · split at h
      · exact List.mem_cons.2 (.inl (List.mem_singleton.1 h))
      · cases h
    · exact List.mem_cons_of_mem _ (ih h)

def Journal.txBufs (j : Journal) : List Buf := txBlocks j.state.blockSize j.handle.sequence j.handle.queued

theorem stop_eq (ok : Nat → Bool) (hactive : j.handle.active = true) (hne : j.handle.queued ≠ []) :
    stop ok j =
      if okCount ok j.txBufs.length = j.txBufs.length then
        (true, { appended j.txBufs j with
          device := (appended j.txBufs j).device.writeAll
            (homeWrites (fun i => ok (j.txBufs.length + i)) j.handle.queued)
          handle := { j.handle with active := false } })
      else
        (false, { appended (j.txBufs.take (okCount ok j.txBufs.length)) j with
          handle := { j.handle with active := false } }) := by
  have hempty : j.handle.queued.isEmpty = false := by
    cases hq : j.handle.queued with
    | nil => exact absurd hq hne
    | cons q rest => rfl
  unfold stop
  rw [hactive, hempty]
  simp only [Bool.not_true, Bool.false_eq_true, if_false]
  erw [appendAll_eq ok j.txBufs j]
  by_cases hall : okCount ok j.txBufs.length = j.txBufs.length
  · rw [if_pos hall, decide_eq_true hall, hall, List.take_length]
    simp only [writeHome_eq]
    rfl
  · rw [if_neg hall, decide_eq_false hall]
    rfl

end Calls

/-! ## The round trip of one transaction -/

section RoundTrip

theorem TailBlock.mono {e : Nat} {P Q : RevokeEntry → Prop} {buf : Buf} (h : TailBlock e P buf) (hPQ : ∀ y, P y → Q y) :
    TailBlock e Q buf :=
  fun hm => ⟨(h hm).1, fun hr => ⟨((h hm).2 hr).1, fun off h1 h2 => hPQ _ (((h hm).2 hr).2 off h1 h2)⟩⟩

/-- A block that is no journal block, or one from before `seq`. -/
def Old (seq : Nat) (buf : Buf) : Prop :=
  getBE buf 0 4 = jbd2Magic → getBE buf 8 4 < seq ∧ (getBE buf 4 4 = blocktypeRevoke → 16 ≤ getBE buf 12 4)

theorem Old.tailBlock {seq e : Nat} {buf : Buf} (h : Old seq buf) (he : seq ≤ e) :
    TailBlock e (fun y => y.sequence < seq) buf := by
  intro hm
  obtain ⟨hlt, hcount⟩ := h hm
  exact ⟨fun _ => Nat.ne_of_lt (Nat.lt_of_lt_of_le hlt he), fun hr => ⟨hcount hr, fun _ _ _ => hlt⟩⟩

theorem tailBlock_uncommitted {bs seq : Nat} {queued : List (Nat × Buf)} {buf : Buf} (e : Nat) (P : RevokeEntry → Prop)
    (hseq : seq < 2 ^ 32) (h : buf ∈ descriptorBlock bs seq queued :: queued.map fun q => escape q.2) : TailBlock e P buf := by
  intro hm
  rcases List.mem_cons.1 h with rfl | h
  · obtain ⟨-, ht, -⟩ := descriptorBlock_fields bs queued hseq
    rw [ht]
    exact ⟨fun hc => absurd hc (by decide), fun hr => absurd hr (by decide)⟩
  · obtain ⟨q, -, rfl⟩ := List.mem_map.1 h
    exact absurd hm (escape_magic q.2)

theorem tailBlock_txBlocks {bs seq e : Nat} {queued : List (Nat × Buf)} {buf : Buf} (P : RevokeEntry → Prop)
    (hseq : seq < 2 ^ 32) (he : seq ≠ e) (h : buf ∈ txBlocks bs seq queued) : TailBlock e P buf := by
  rcases List.mem_append.1 h with h | h
  · exact tailBlock_uncommitted e P hseq h
  · intro _
    rw [List.mem_singleton.1 h]
    obtain ⟨-, ht, hs⟩ := commitBlock_fields hseq
    rw [ht, hs]
    exact ⟨fun _ => he, fun hr => absurd hr (by decide)⟩

theorem replayed_nothing {d : Device} {P : RevokeEntry → Prop} (hring : InRing st st.firstBlock)
    (htail : ∀ pos, InRing st pos → TailBlock st.sequence P (d.blocks (st.journalToDisk pos))) :
    replayed st d = some d := by
  obtain ⟨s, hs, hext⟩ := scanLoop_tail st.maxBlocks
    { pos := st.firstBlock, expectedSeq := st.sequence, blocksScanned := 0, entries := [], revokes := []
      transactionsFound := 0 } hring htail
  obtain ⟨X, hX, hinvalid⟩ := hext.entries
  have hnone : (pass2Filter s.revokes s.entries).filter (fun e => e.valid) = [] := by
    rw [pass2Filter_filter, hX, List.nil_append]
    refine List.filter_eq_nil_iff.2 fun x hx => ?_
    rw [hinvalid x hx]
    exact Bool.false_ne_true
  have hgood : ∀ e ∈ pass2Filter s.revokes s.entries, e.valid = true → InRing st e.journalBlock ∧ ¬ InJournal st e.fsBlock := by
    intro e he hv
    exact absurd (List.mem_filter.2 ⟨he, hv⟩) (by rw [hnone]; exact List.not_mem_nil)
  have hscan : pass1Scan st d.blocks = some s := hs
  simp only [replayed, hscan, Option.bind_eq_bind, Option.bind_some, Option.pure_def]
  rw [pass3Replay_eq d hgood, hnone]
  rfl

structure Stoppable (j : Journal) : Prop where
  active : j.handle.active = true
  count : j.handle.queued.length ≤ maxTxEntries
  nr : ∀ q ∈ j.handle.queued, q.1 < 2 ^ 32
  home : ∀ q ∈ j.handle.queued, ¬ InJournal j.state q.1
  sequence : j.handle.sequence < u32Max
  ring : InRing j.state j.state.writePos
  room : j.handle.queued.length + 2 ≤ j.state.maxBlocks - j.state.firstBlock
  /-- the tags fit one block -/
  bs : 12 + 8 * maxTxEntries ≤ j.state.blockSize

def Journal.replayState (j : Journal) : JournalState :=
  { j.state with firstBlock := j.state.writePos, sequence := j.handle.sequence }

theorem stop_blocks {j : Journal} (h : Stoppable j) (hne : j.handle.queued ≠ []) {i : Nat}
    (hi : j.state.writePos + i < j.state.maxBlocks) :
    (∀ hlt : i < j.txBufs.length,
      (stop (fun _ => true) j).2.device.blocks (j.state.journalToDisk (j.state.writePos + i)) = j.txBufs[i]) ∧
    (j.txBufs.length ≤ i → j.state.writePos + j.txBufs.length ≤ j.state.maxBlocks →
      (stop (fun _ => true) j).2.device.blocks (j.state.journalToDisk (j.state.writePos + i)) =
        j.device.blocks (j.state.journalToDisk (j.state.writePos + i))) := by
  have hlen : j.txBufs.length = j.handle.queued.length + 2 := txBlocks_length _ _ _
  have hroom := h.room
  have hring := h.ring
  have hin : InJournal j.state (j.state.journalToDisk (j.state.writePos + i)) :=
    InRing.inJournal ⟨by have := hring.1; omega, hi⟩
  have hdev : (stop (fun _ => true) j).2.device.blocks (j.state.journalToDisk (j.state.writePos + i)) =
      (j.device.writeAll (placed j.state j.txBufs j.state.writePos)).blocks
        (j.state.journalToDisk (j.state.writePos + i)) := by
    rw [stop_eq _ h.active hne, if_pos (okCount_all _)]
    refine writeAll_of_notMem fun w hw heq => ?_
    rw [← heq] at hin
    exact h.home w (mem_homeWrites hw) hin
  rw [hdev]
  constructor
  · intro hlt
    have hholds := holds_placed j.device hring (by rw [hlen]; exact hroom : j.txBufs.length ≤ _)
    have hat := holds_iff.1 hholds i hlt
    rw [iterate_next_lt hi] at hat
    exact hat
  · intro hle hend
    refine writeAll_of_notMem fun w hw heq => ?_
    obtain ⟨k, hk, hw, -⟩ := mem_placed hw
    rw [hw, iterate_next_lt (by omega)] at heq
    have := Nat.add_left_cancel heq
    omega

/-- **The round trip.** The journal image of a transaction is replayed exactly when the transaction does not cross the
end of the ring: the replay wraps around to the block where it starts, the write path to the first block of the ring. -/
theorem roundTrip_iff {j : Journal} (h : Stoppable j)
    (hold : ∀ pos, InRing j.state pos → Old j.handle.sequence (j.device.blocks (j.state.journalToDisk pos)))
    {d : Device} (hd : ∀ b, InJournal j.state b → d.blocks b = (stop (fun _ => true) j).2.device.blocks b) :
    replayed j.replayState d = some (d.writeAll j.handle.queued) ↔
      j.handle.queued = [] ∨ j.state.writePos + j.handle.queued.length + 2 ≤ j.state.maxBlocks := by
  have hlen : j.txBufs.length = j.handle.queued.length + 2 := txBlocks_length _ _ _
  have hring := h.ring
  have hseq : j.handle.sequence < 2 ^ 32 := by
    have := h.sequence
    unfold u32Max at this
    omega
  have hring' : InRing j.replayState j.replayState.firstBlock := ⟨le_rfl, hring.2⟩
  have hup : ∀ {pos}, InRing j.replayState pos → InRing j.state pos := fun hpos => ⟨Nat.le_trans hring.1 hpos.1, hpos.2⟩
  by_cases hne : j.handle.queued = []
  · -- nothing was written
    have hstop : (stop (fun _ => true) j).2.device = j.device := by
      simp [stop, h.active, hne]
    have hnothing : replayed j.replayState d = some d := by
      refine replayed_nothing (P := fun y => y.sequence < j.handle.sequence) hring' fun pos hpos => ?_
      have hblock : d.blocks (j.replayState.journalToDisk pos) = j.device.blocks (j.state.journalToDisk pos) := by
        rw [← hstop]
        exact hd _ (hup hpos).inJournal
      rw [hblock]
      exact (hold pos (hup hpos)).tailBlock le_rfl
    rw [hnothing, hne]
    exact ⟨fun _ => .inl rfl, fun _ => rfl⟩
  · -- the block at a place of the ring that the replay can see
    have hat : ∀ {i}, j.state.writePos + i < j.state.maxBlocks →
        d.blocks (j.state.journalToDisk (j.state.writePos + i)) =
          (stop (fun _ => true) j).2.device.blocks (j.state.journalToDisk (j.state.writePos + i)) := by
      intro i hi
      exact hd _ (InRing.inJournal ⟨by have := hring.1; omega, hi⟩)
    by_cases hend : j.state.writePos + j.handle.queued.length + 2 ≤ j.state.maxBlocks
    · refine ⟨fun _ => .inr hend, fun _ => ?_⟩
      have hwrites : writesOf [.tx j.handle.sequence j.handle.queued] =
          j.handle.queued.map fun q => (j.handle.sequence, q.1, q.2) := List.flatMap_singleton _ _
      have himage : image j.replayState.blockSize [.tx j.handle.sequence j.handle.queued] = j.txBufs :=
        List.flatMap_singleton _ _
      have htail : ∀ pos, InRing j.replayState pos → TailBlock (j.handle.sequence + 1)
          (fun y => y.sequence < j.handle.sequence) (d.blocks (j.state.journalToDisk pos)) := by
        intro pos hpos
        obtain ⟨i, rfl⟩ := Nat.exists_eq_add_of_le hpos.1
        have hi : j.state.writePos + i < j.state.maxBlocks := hpos.2
        show TailBlock _ _ (d.blocks (j.state.journalToDisk (j.state.writePos + i)))
        rw [hat hi]
        by_cases hlt : i < j.txBufs.length
        · rw [(stop_blocks h hne hi).1 hlt]
          exact tailBlock_txBlocks _ hseq (Nat.ne_of_lt (Nat.lt_succ_self _)) (List.getElem_mem hlt)
        · rw [(stop_blocks h hne hi).2 (by omega) (by omega)]
          exact (hold _ (hup hpos)).tailBlock (Nat.le_succ _)
      have hrec : Recorded j.replayState d.blocks [.tx j.handle.sequence j.handle.queued]
          fun y => ∀ w ∈ writesOf [.tx j.handle.sequence j.handle.queued], kills y w.1 w.2.1 = true →
            unrevoked (revs [.tx j.handle.sequence j.handle.queued]) w = false := by
        have hfits : TxFits j.state.blockSize j.handle.queued := by
          have hcount := h.count
          have hbs := h.bs
          exact ⟨hne, by omega, h.nr⟩
        refine
          { ring := hring'
            bs := by have := h.bs; show 20 ≤ j.state.blockSize; unfold maxTxEntries at this; omega
            holds := ?_
            numbered := ⟨rfl, trivial⟩
            fits := fun r hr => by rw [List.mem_singleton.1 hr]; exact hfits
            length := by rw [himage, hlen]; show _ ≤ j.state.maxBlocks; omega
            sequence := h.sequence
            entries := ?_
            tail := fun pos hpos => (htail pos hpos).mono fun y hy w hw hk => ?_ }
        · rw [himage]
          refine holds_iff.2 fun i hi => ?_
          have hlt : j.state.writePos + i < j.state.maxBlocks := by omega
          have hpos : j.replayState.nextBlock^[i] j.state.writePos = j.state.writePos + i := iterate_next_lt hlt
          show d.blocks (j.state.journalToDisk (j.replayState.nextBlock^[i] j.state.writePos)) = _
          rw [hpos, hat hlt, (stop_blocks h hne hlt).1 hi]
        · have hcount := h.count
          show j.handle.queued.length + 0 ≤ maxReplayEntries
          exact Nat.le_trans hcount (by decide)
        · -- what is older than the transaction does not revoke its blocks
          rw [hwrites] at hw
          obtain ⟨q, -, rfl⟩ := List.mem_map.1 hw
          unfold kills at hk
          rw [Bool.and_eq_true, decide_eq_true_iff] at hk
          exact absurd hk.2 (Nat.not_le.2 hy)
      have hout : ∀ w ∈ writesOf [.tx j.handle.sequence j.handle.queued], ¬ InJournal j.replayState w.2.1 := by
        intro w hw
        rw [hwrites] at hw
        obtain ⟨q, hq, rfl⟩ := List.mem_map.1 hw
        exact h.home q hq
      rw [replayed_eq hrec (Nat.zero_le _) hout, hwrites]
      have hall : ∀ w ∈ j.handle.queued.map (fun q => (j.handle.sequence, q.1, q.2)), unrevoked [] w = true :=
        fun w _ => rfl
      show some (d.writeAll (List.map _ (List.filter (unrevoked []) _))) = _
      rw [List.filter_eq_self.2 hall, List.map_map]
      exact congrArg (fun ws => some (d.writeAll ws)) (List.map_id _)
    · -- the commit block is out of reach
      have hnothing : replayed j.replayState d = some d := by
        refine replayed_nothing (P := fun _ => True) hring' fun pos hpos => ?_
        obtain ⟨i, rfl⟩ := Nat.exists_eq_add_of_le hpos.1
        have hi : j.state.writePos + i < j.state.maxBlocks := hpos.2
        have hlt : i < (descriptorBlock j.state.blockSize j.handle.sequence j.handle.queued ::
            j.handle.queued.map fun q => escape q.2).length := by
          rw [List.length_cons, List.length_map]
          omega
        show TailBlock _ _ (d.blocks (j.state.journalToDisk (j.state.writePos + i)))
        have hlt' : i < j.txBufs.length := by omega
        rw [hat hi, (stop_blocks h hne hi).1 hlt']
        have hmem : j.txBufs[i] ∈ descriptorBlock j.state.blockSize j.handle.sequence j.handle.queued ::
            j.handle.queued.map fun q => escape q.2 := by
          have hget : j.txBufs[i] = _ := List.getElem_append_left hlt
          rw [hget]
          exact List.getElem_mem hlt
        exact tailBlock_uncommitted _ _ hseq hmem
      rw [hnothing]
      refine ⟨fun heq => ?_, fun hor => absurd hor (by simp [hne, hend])⟩
      have hlog := congrArg Device.log (Option.some.inj heq)
      rw [writeAll_log] at hlog
      exact absurd (List.self_eq_append_right.1 hlog) hne

end RoundTrip

/-- A blank journal of ten blocks at block 100, with one block queued and `writePos` as given. -/
def oneQueued (writePos : Nat) : Journal where
  state :=
    { active := true, writePos, sequence := 2, firstBlock := 1, maxBlocks := 10, diskStartBlock := 100, blockSize := 1024
      maxTxBlocks := 2 }
  handle := { sequence := 1, reservedBlocks := 1, queued := [(5, fun _ => 7)], active := true }
  device := { blocks := fun _ => zeros, log := [] }

theorem oneQueued_stoppable {writePos : Nat} (h : 1 ≤ writePos) (h' : writePos < 10) : Stoppable (oneQueued writePos) where
  active := rfl
  count := show 1 ≤ 64 by decide
  nr := by simp [oneQueued]
  home := by simp [oneQueued, InJournal]
  sequence := show 1 < u32Max by decide
  ring := ⟨h, h'⟩
  room := show 1 + 2 ≤ 10 - 1 by decide
  bs := show 12 + 8 * 64 ≤ 1024 by decide

theorem zeros_old (seq : Nat) : Old seq zeros := fun h => absurd h (by decide)

/-- The descriptor is in the last block of the ring, the data and the commit block are at its beginning. -/
theorem wrapped_transaction_lost :
    Stoppable (oneQueued 9) ∧
      replayed (oneQueued 9).replayState (stop (fun _ => true) (oneQueued 9)).2.device ≠
        some ((stop (fun _ => true) (oneQueued 9)).2.device.writeAll (oneQueued 9).handle.queued) := by
  refine ⟨oneQueued_stoppable (by decide) (by decide), fun heq => ?_⟩
  have hlog := congrArg (Option.map fun d => d.log.length) heq
  have hrun : (replayed (oneQueued 9).replayState (stop (fun _ => true) (oneQueued 9)).2.device).map
      (fun d => d.log.length) = some 4 := by decide +kernel
  rw [hrun] at hlog
  exact absurd hlog (by decide +kernel)

theorem roundTrip_iff_first :
    replayed (oneQueued 1).replayState (stop (fun _ => true) (oneQueued 1)).2.device =
      some ((stop (fun _ => true) (oneQueued 1)).2.device.writeAll (oneQueued 1).handle.queued) :=
  (roundTrip_iff (oneQueued_stoppable le_rfl (by decide)) (fun _ _ => zeros_old _) fun _ _ => rfl).2 (.inr (by decide))

end Zigix.Ext3
