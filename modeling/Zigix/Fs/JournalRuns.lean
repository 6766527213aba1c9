import Zigix.Fs.JournalReplay

/-!
# Runs of the journal

* `Inv` : what the ring holds in every state, `Inv.step`;
* `committed_replayable` : every committed transaction is found again as long as no transaction is started after one that
  came to nothing.
-/

namespace Zigix.Ext3

open Bytes

/-! ## Runs -/

inductive Op
  | start (nblocks : Nat)
  | writeBlock (data : Buf) (fsBlock : BitVec 32)
  | stop (ok : Nat → Bool)
  | revoke (ok : Bool) (fsBlock : BitVec 32)

def Op.run : Op → Journal → Option (Bool × Journal)
  | .start n, j => Ext3.start n j
  | .writeBlock data b, j => some (Ext3.writeBlock data b.toNat j)
  | .stop ok, j => some (Ext3.stop ok j)
  | .revoke ok b, j => some (Ext3.revoke ok b.toNat j)

inductive Event
  | write (sequence fsBlock : Nat) (data : Buf)
  | rev (sequence fsBlock : Nat)

structure History where
  records : List Record
  events : List Event

/-- What a call with result `res` adds to the history. -/
def History.add (h : History) (j : Journal) (res : Bool) : Op → History
  | .start _ => h
  | .writeBlock data b => if res then { h with events := h.events ++ [.write j.handle.sequence b.toNat data] } else h
  | .stop _ =>
    if res && !j.handle.queued.isEmpty then { h with records := h.records ++ [.tx j.handle.sequence j.handle.queued] } else h
  | .revoke _ b =>
    if res then
      { records := h.records ++ [.rev j.state.sequence b.toNat], events := h.events ++ [.rev j.state.sequence b.toNat] }
    else h

/-- The runs from `j₀` all of whose calls are allowed. -/
inductive Run (Allowed : History → Journal → Op → Prop) (j₀ : Journal) : History → Journal → Prop
  | init : Run Allowed j₀ ⟨[], []⟩ j₀
  | step {h : History} {j j' : Journal} {op : Op} {res : Bool} :
    Run Allowed j₀ h j → Allowed h j op → op.run j = some (res, j') → Run Allowed j₀ (h.add j res op) j'

/-- A journal as `init` leaves it, whose ring holds nothing from now on. -/
structure Ready (j₀ : Journal) : Prop where
  active : j₀.state.active = true
  idle : j₀.handle.active = false
  pos : j₀.state.writePos = j₀.state.firstBlock
  ring : InRing j₀.state j₀.state.firstBlock
  bs : 12 + 8 * maxTxEntries ≤ j₀.state.blockSize
  sequence : j₀.state.sequence ≤ u32Max
  log : j₀.device.log = []
  old : ∀ pos, InRing j₀.state pos → Old j₀.state.sequence (j₀.device.blocks (j₀.state.journalToDisk pos))

def written (st : JournalState) (d : Device) : List Buf :=
  (d.log.filter fun w => decide (InJournal st w.1)).map fun w => w.2

/-! ## The ring -/

section Core
variable {j₀ j : Journal} {bufs : List Buf}

/-- The ring holds what was written since `j₀`, and behind it what it held then. -/
structure Core (j₀ j : Journal) : Prop where
  ring : InRing j₀.state j₀.state.firstBlock
  state : j.state = { j₀.state with
    writePos := j₀.state.nextBlock^[(written j₀.state j.device).length] j₀.state.firstBlock
    sequence := j.state.sequence }
  room : (written j₀.state j.device).length ≤ j₀.state.maxBlocks - j₀.state.firstBlock
  holds : Holds j₀.state j.device.blocks (written j₀.state j.device) j₀.state.firstBlock
  rest : ∀ i, (written j₀.state j.device).length ≤ i → j₀.state.firstBlock + i < j₀.state.maxBlocks →
    j.device.blocks (j₀.state.journalToDisk (j₀.state.firstBlock + i)) =
      j₀.device.blocks (j₀.state.journalToDisk (j₀.state.firstBlock + i))

theorem Ready.core (h : Ready j₀) : Core j₀ j₀ := by
  have hnone : written j₀.state j₀.device = [] := by
    rw [written, h.log]
    rfl
  refine ⟨h.ring, ?_, ?_, ?_, fun _ _ _ => rfl⟩
  · rw [hnone]
    have hpos := h.pos
    cases hst : j₀.state with
    | mk => rw [hst] at hpos; simp_all
  · rw [hnone]
    exact Nat.zero_le _
  · rw [hnone]
    trivial

theorem written_writeAll (st : JournalState) (d : Device) (ws : List (Nat × Buf)) :
    written st (d.writeAll ws) = written st d ++ (ws.filter fun w => decide (InJournal st w.1)).map fun w => w.2 := by
  rw [written, writeAll_log, List.filter_append, List.map_append]
  rfl

theorem written_home {d : Device} {ws : List (Nat × Buf)} {st : JournalState} (h : ∀ w ∈ ws, ¬ InJournal st w.1) :
    written st (d.writeAll ws) = written st d := by
  have hnone : (ws.filter fun w => decide (InJournal st w.1)) = [] :=
    List.filter_eq_nil_iff.2 fun w hw hin => h w hw (of_decide_eq_true hin)
  rw [written_writeAll, hnone, List.map_nil, List.append_nil]

theorem written_placed {d : Device} {st : JournalState} {pos : Nat} (hpos : InRing st pos) (bufs : List Buf) :
    written st (d.writeAll (placed st bufs pos)) = written st d ++ bufs := by
  have hall : ∀ w ∈ placed st bufs pos, decide (InJournal st w.1) = true := by
    intro w hw
    obtain ⟨i, -, hw, -⟩ := mem_placed hw
    rw [hw]
    exact decide_eq_true (hpos.iterate i).inJournal
  have hsnd : (placed st bufs pos).map (fun w => w.2) = bufs := by
    clear hall hpos
    induction bufs generalizing pos with
    | nil => rfl
    | cons buf rest ih => rw [placed, List.map_cons, ih]
  rw [written_writeAll, List.filter_eq_self.2 hall, hsnd]

theorem Core.home (h : Core j₀ j) {ws : List (Nat × Buf)} (hws : ∀ w ∈ ws, ¬ InJournal j₀.state w.1)
    (handle : TransactionHandle) : Core j₀ { j with device := j.device.writeAll ws, handle } := by
  have hw : written j₀.state (j.device.writeAll ws) = written j₀.state j.device := written_home hws
  have hframe : ∀ b, InJournal j₀.state b → (j.device.writeAll ws).blocks b = j.device.blocks b := by
    intro b hb
    refine writeAll_of_notMem fun w hw heq => hws w hw ?_
    rw [heq]
    exact hb
  refine ⟨h.ring, ?_, ?_, ?_, fun i hi hlt => ?_⟩
  · rw [hw]
    exact h.state
  · rw [hw]
    exact h.room
  · rw [hw]
    refine holds_iff.2 fun i hi => ?_
    rw [hframe _ (h.ring.iterate i).inJournal]
    exact holds_iff.1 h.holds i hi
  · rw [hw] at hi
    rw [← h.rest i hi hlt]
    exact hframe _ (InRing.inJournal ⟨Nat.le_add_right _ _, hlt⟩)

theorem Core.appended (h : Core j₀ j)
    (hroom : (written j₀.state j.device).length + bufs.length ≤ j₀.state.maxBlocks - j₀.state.firstBlock) :
    Core j₀ (appended bufs j) ∧ written j₀.state (Ext3.appended bufs j).device = written j₀.state j.device ++ bufs := by
  generalize hn : (written j₀.state j.device).length = n at hroom
  have hstate := h.state
  rw [hn] at hstate
  have hpos : InRing j₀.state (j₀.state.nextBlock^[n] j₀.state.firstBlock) := h.ring.iterate n
  have hdev : (Ext3.appended bufs j).device =
      j.device.writeAll (placed j₀.state bufs (j₀.state.nextBlock^[n] j₀.state.firstBlock)) := by
    rw [Ext3.appended, hstate]
    exact congrArg _ (placed_state _ _ _ _ _)
  have hw : written j₀.state (Ext3.appended bufs j).device = written j₀.state j.device ++ bufs := by
    rw [hdev, written_placed hpos]
  -- the blocks that were there before
  have hframe : ∀ i, (i < n ∨ n + bufs.length ≤ i) → i < j₀.state.maxBlocks - j₀.state.firstBlock →
      (Ext3.appended bufs j).device.blocks (j₀.state.journalToDisk (j₀.state.nextBlock^[i] j₀.state.firstBlock)) =
        j.device.blocks (j₀.state.journalToDisk (j₀.state.nextBlock^[i] j₀.state.firstBlock)) := by
    intro i hi hlt
    rw [hdev]
    refine writeAll_of_notMem fun w hw heq => ?_
    obtain ⟨k, hk, hw, -⟩ := mem_placed hw
    rw [hw, ← Function.iterate_add_apply] at heq
    have := iterate_next_injective h.ring (by omega) hlt (Nat.add_left_cancel heq)
    omega
  refine ⟨⟨h.ring, ?_, ?_, ?_, fun i hi hlt => ?_⟩, hw⟩
  · rw [hw, List.length_append, hn]
    show { j.state with writePos := j.state.nextBlock^[bufs.length] j.state.writePos } = _
    rw [hstate, Nat.add_comm, Function.iterate_add_apply]
    rfl
  · rw [hw, List.length_append, hn]
    exact hroom
  · rw [hw, holds_append]
    constructor
    · refine holds_iff.2 fun i hi => ?_
      rw [hn] at hi
      rw [hframe i (.inl hi) (by omega)]
      exact holds_iff.1 h.holds i (by omega)
    · rw [hdev, hn]
      exact holds_placed _ hpos (by omega)
  · rw [hw, List.length_append, hn] at hi
    have hat := hframe i (.inr hi) (by omega)
    rw [iterate_next_lt hlt] at hat
    rw [hat]
    exact h.rest i (by omega) hlt

end Core

/-! ## The invariant -/

section Inv
variable {j₀ j : Journal} {h : History}

def Tidy (q : Nat) (j : Journal) : Prop :=
  if j.handle.active then j.handle.sequence = q ∧ j.state.sequence = q + 1 else j.state.sequence = q

def nextSeq (j₀ : Journal) (h : History) : Nat := j₀.state.sequence + (txs h.records).length

/-- Not taken for a transaction numbered `e` or more. -/
def Inert (e : Nat) (buf : Buf) : Prop := ∀ e', e ≤ e' → TailBlock e' (fun _ => True) buf

structure Inv (j₀ : Journal) (h : History) (j : Journal) : Prop where
  core : Core j₀ j
  active : j.state.active = true
  numbered : Numbered j₀.state.sequence h.records
  fits : ∀ r ∈ h.records, r.Fits j₀.state.blockSize
  entries : queuedCount h.records ≤ maxReplayEntries
  sequence : j.state.sequence ≤ u32Max
  /-- a transaction that came to nothing leaves the number it had -/
  phase : Tidy (nextSeq j₀ h) j ∨ (j.handle.active = false ∧ nextSeq j₀ h < j.state.sequence)
  /-- the committed transactions stand at the beginning of the ring -/
  records : ∃ pre post, h.records = pre ++ post ∧ txs post = [] ∧
    image j₀.state.blockSize pre <+: written j₀.state j.device ∧
    (Tidy (nextSeq j₀ h) j → post = [] ∧ image j₀.state.blockSize pre = written j₀.state j.device)
  inert : ∀ buf ∈ written j₀.state j.device, Inert (nextSeq j₀ h) buf
  queue : j.handle.active = true → j.handle.queued.length ≤ maxTxEntries ∧
    ∀ q ∈ j.handle.queued, q.1 < 2 ^ 32 ∧ ¬ InJournal j₀.state q.1

def Orderly (j₀ : Journal) (h : History) (j : Journal) : Op → Prop
  | .start _ => j.handle.active = false → j.state.sequence = nextSeq j₀ h
  | .writeBlock _ b => ¬ InJournal j₀.state b.toNat
  | .stop _ => j.handle.active = true → j.handle.queued ≠ [] →
    (written j₀.state j.device).length + j.handle.queued.length + 2 ≤ j₀.state.maxBlocks - j₀.state.firstBlock ∧
      queuedCount h.records + j.handle.queued.length ≤ maxReplayEntries
  | .revoke _ _ => (written j₀.state j.device).length + 1 ≤ j₀.state.maxBlocks - j₀.state.firstBlock

theorem Ready.inv (hr : Ready j₀) : Inv j₀ ⟨[], []⟩ j₀ where
  core := hr.core
  active := hr.active
  numbered := trivial
  fits := nofun
  entries := Nat.zero_le _
  sequence := hr.sequence
  phase := by
    left
    rw [Tidy, hr.idle]
    rfl
  records := by
    have hnone : written j₀.state j₀.device = [] := by
      rw [written, hr.log]
      rfl
    exact ⟨[], [], rfl, rfl, List.nil_prefix, fun _ => ⟨rfl, hnone.symm⟩⟩
  inert := by
    rw [written, hr.log]
    exact nofun
  queue := fun ha => absurd (hr.idle.symm.trans ha) Bool.false_ne_true

/-! ### One call -/

theorem txs_append (recs recs' : List Record) : txs (recs ++ recs') = txs recs ++ txs recs' := by
  induction recs with
  | nil => rfl
  | cons r recs ih =>
    cases r with
    | tx seq queued => rw [List.cons_append, txs, txs, ih, List.cons_append]
    | rev seq b => exact ih

theorem revs_append (recs recs' : List Record) : revs (recs ++ recs') = revs recs ++ revs recs' := by
  induction recs with
  | nil => rfl
  | cons r recs ih =>
    cases r with
    | tx seq queued => exact ih
    | rev seq b => rw [List.cons_append, revs, revs, ih, List.cons_append]

theorem numbered_append {e : Nat} {recs recs' : List Record} :
    Numbered e (recs ++ recs') ↔ Numbered e recs ∧ Numbered (e + (txs recs).length) recs' := by
  induction recs generalizing e with
  | nil => exact ⟨fun h => ⟨trivial, h⟩, fun h => h.2⟩
  | cons r recs ih =>
    cases r with
    | tx seq queued =>
      rw [List.cons_append, Numbered, Numbered, ih, txs, List.length_cons, and_assoc, Nat.add_assoc, Nat.add_comm 1]
    | rev seq b => exact ih

theorem queuedCount_append (recs recs' : List Record) :
    queuedCount (recs ++ recs') = queuedCount recs + queuedCount recs' := by
  rw [queuedCount, txs_append, List.map_append, List.sum_append]
  rfl

theorem Core.retag (hc : Core j₀ j) (q : Nat) (handle : TransactionHandle) :
    Core j₀ { j with handle, state := { j.state with sequence := q } } := by
  refine ⟨hc.ring, ?_, hc.room, hc.holds, hc.rest⟩
  have hstate := hc.state
  show { j.state with sequence := q } = _
  rw [hstate]

theorem start_cases {n : Nat} {res : Bool} {j' : Journal} (hres : start n j = some (res, j')) :
    (res = false ∧ j' = j) ∨ (res = true ∧ j.handle.active = false ∧ j.state.sequence ≠ u32Max ∧
      j' = { j with
        handle := { sequence := j.state.sequence, reservedBlocks := n, queued := [], active := true }
        state := { j.state with sequence := j.state.sequence + 1 } }) := by
  have hfalse : ∀ {res j'}, some (false, j) = some (res, j') → res = false ∧ j' = j := by
    intro res j' heq
    obtain ⟨rfl, rfl⟩ := Prod.mk.inj (Option.some.inj heq)
    exact ⟨rfl, rfl⟩
  unfold start at hres
  split at hres
  · exact .inl (hfalse hres)
  · split at hres
    · exact .inl (hfalse hres)
    · next hidle =>
      split at hres
      · exact .inl (hfalse hres)
      · obtain ⟨free, -, hres⟩ := Option.bind_eq_some_iff.1 hres
        split at hres
        · exact .inl (hfalse hres)
        · split at hres
          · exact nomatch hres
          · next hseq =>
            obtain ⟨rfl, rfl⟩ := Prod.mk.inj (Option.some.inj hres)
            exact .inr ⟨rfl, eq_false_of_ne_true hidle, hseq, rfl⟩

theorem Inv.start (hi : Inv j₀ h j) {n : Nat} {res : Bool} {j' : Journal} (ha : Orderly j₀ h j (.start n))
    (hres : start n j = some (res, j')) : Inv j₀ h j' := by
  rcases start_cases hres with ⟨-, rfl⟩ | ⟨-, hidle, hne, rfl⟩
  · exact hi
  · have hseq : j.state.sequence = nextSeq j₀ h := ha hidle
    have htidy : Tidy (nextSeq j₀ h) j := by
      rw [Tidy, hidle]
      exact hseq
    obtain ⟨pre, post, hrec, hpost, hpre, hfull⟩ := hi.records
    have hle := hi.sequence
    exact
      { core := hi.core.retag _ _
        active := hi.active
        numbered := hi.numbered
        fits := hi.fits
        entries := hi.entries
        sequence := by show j.state.sequence + 1 ≤ u32Max; omega
        phase := .inl ⟨hseq, by rw [hseq]⟩
        records := ⟨pre, post, hrec, hpost, hpre, fun _ => hfull htidy⟩
        inert := hi.inert
        queue := fun _ => ⟨Nat.zero_le _, nofun⟩ }

theorem Inv.writeBlock (hi : Inv j₀ h j) {data : Buf} {b : BitVec 32} (ha : Orderly j₀ h j (.writeBlock data b)) :
    Inv j₀ h (writeBlock data b.toNat j).2 := by
  unfold Ext3.writeBlock
  split
  · exact hi
  · next hactive =>
    have hactive : j.handle.active = true := by simpa using hactive
    split
    · exact hi
    · next hcount =>
      obtain ⟨hlen, hq⟩ := hi.queue hactive
      exact
        { core := hi.core.retag j.state.sequence _
          active := hi.active
          numbered := hi.numbered
          fits := hi.fits
          entries := hi.entries
          sequence := hi.sequence
          phase := hi.phase
          records := hi.records
          inert := hi.inert
          queue := fun _ => by
            refine ⟨?_, fun q hmem => ?_⟩
            · show (j.handle.queued ++ [(b.toNat, data)]).length ≤ _
              rw [List.length_append, List.length_singleton]
              omega
            · rcases List.mem_append.1 hmem with hmem | hmem
              · exact hq q hmem
              · rw [List.mem_singleton.1 hmem]
                exact ⟨b.isLt, ha⟩ }

theorem inert_revokeBlock {e seq b : Nat} (hseq : seq < 2 ^ 32) (hb : b < 2 ^ 32) : Inert e (revokeBlock seq b) := by
  intro e' _ _
  obtain ⟨-, ht, -, hcount, -⟩ := revokeBlock_fields hseq hb
  rw [ht, hcount]
  exact ⟨fun hc => absurd hc (by decide), fun _ => ⟨by decide, fun _ _ _ => trivial⟩⟩

theorem Inert.mono {e e' : Nat} {buf : Buf} (h : Inert e buf) (hle : e ≤ e') : Inert e' buf :=
  fun e'' hle' => h e'' (Nat.le_trans hle hle')

theorem Core.blockSize (hc : Core j₀ j) : j.state.blockSize = j₀.state.blockSize := by rw [hc.state]

theorem Inv.tidy_of_active (hi : Inv j₀ h j) (hactive : j.handle.active = true) :
    j.handle.sequence = nextSeq j₀ h ∧ j.state.sequence = nextSeq j₀ h + 1 := by
  rcases hi.phase with ht | ⟨hidle, -⟩
  · rw [Tidy, hactive, if_pos rfl] at ht
    exact ht
  · rw [hactive] at hidle
    cases hidle

theorem Inv.abandon (hi : Inv j₀ h j) (hactive : j.handle.active = true) {bufs : List Buf}
    (hbufs : ∀ buf ∈ bufs, Inert (nextSeq j₀ h) buf)
    (hroom : (written j₀.state j.device).length + bufs.length ≤ j₀.state.maxBlocks - j₀.state.firstBlock) :
    Inv j₀ h { appended bufs j with handle := { j.handle with active := false } } := by
  obtain ⟨hseq, hnext⟩ := hi.tidy_of_active hactive
  obtain ⟨hcore, hw⟩ := hi.core.appended hroom
  obtain ⟨pre, post, hrec, hpost, hpre, -⟩ := hi.records
  have huntidy : ¬ Tidy (nextSeq j₀ h) { appended bufs j with handle := { j.handle with active := false } } := by
    rw [Tidy, if_neg Bool.false_ne_true]
    show ¬ j.state.sequence = nextSeq j₀ h
    omega
  exact
    { core := hcore.retag _ _
      active := hi.active
      numbered := hi.numbered
      fits := hi.fits
      entries := hi.entries
      sequence := hi.sequence
      phase := .inr ⟨rfl, by show nextSeq j₀ h < j.state.sequence; omega⟩
      records := by
        refine ⟨pre, post, hrec, hpost, ?_, fun ht => absurd ht huntidy⟩
        show image j₀.state.blockSize pre <+: written j₀.state (appended bufs j).device
        rw [hw]
        exact hpre.trans (List.prefix_append _ _)
      inert := by
        show ∀ buf ∈ written j₀.state (appended bufs j).device, Inert (nextSeq j₀ h) buf
        rw [hw]
        exact List.forall_mem_append.2 ⟨hi.inert, hbufs⟩
      queue := fun ha => absurd ha Bool.false_ne_true }

theorem Inv.commit (hr : Ready j₀) (hi : Inv j₀ h j) (hactive : j.handle.active = true) (hne : j.handle.queued ≠ [])
    (hroom : (written j₀.state j.device).length + j.txBufs.length ≤ j₀.state.maxBlocks - j₀.state.firstBlock)
    (hcap : queuedCount h.records + j.handle.queued.length ≤ maxReplayEntries) {ws : List (Nat × Buf)}
    (hws : ∀ w ∈ ws, w ∈ j.handle.queued) :
    Inv j₀ { h with records := h.records ++ [.tx j.handle.sequence j.handle.queued] }
      { appended j.txBufs j with
        device := (appended j.txBufs j).device.writeAll ws, handle := { j.handle with active := false } } := by
  obtain ⟨hseq, hnext⟩ := hi.tidy_of_active hactive
  obtain ⟨hlen, hq⟩ := hi.queue hactive
  obtain ⟨hcore, hw⟩ := hi.core.appended hroom
  obtain ⟨pre, post, hrec, hpost, -, hfull⟩ := hi.records
  have htidy : Tidy (nextSeq j₀ h) j := by
    rw [Tidy, hactive]
    exact ⟨hseq, hnext⟩
  obtain ⟨rfl, himage⟩ := hfull htidy
  rw [List.append_nil] at hrec
  have hout : ∀ w ∈ ws, ¬ InJournal j₀.state w.1 := fun w hmem => (hq w (hws w hmem)).2
  have hhome : written j₀.state ((appended j.txBufs j).device.writeAll ws) = written j₀.state j.device ++ j.txBufs := by
    rw [written_home hout, hw]
  have htxs : nextSeq j₀ { h with records := h.records ++ [.tx j.handle.sequence j.handle.queued] } = nextSeq j₀ h + 1 := by
    rw [nextSeq, txs_append, List.length_append]
    rfl
  have hlt : j.handle.sequence < 2 ^ 32 := by
    have := hi.sequence
    unfold u32Max at this
    omega
  have hbs := hr.bs
  exact
    { core := hcore.home hout _
      active := hi.active
      numbered := numbered_append.2 ⟨hi.numbered, hseq, trivial⟩
      fits := fun r hmem => by
        rcases List.mem_append.1 hmem with hmem | hmem
        · exact hi.fits r hmem
        · rw [List.mem_singleton.1 hmem]
          exact ⟨hne, by omega, fun q hmem => (hq q hmem).1⟩
      entries := by
        rw [queuedCount_append]
        exact hcap
      sequence := hi.sequence
      phase := .inl (by
        rw [htxs, Tidy, if_neg Bool.false_ne_true]
        exact hnext)
      records := by
        refine ⟨h.records ++ [.tx j.handle.sequence j.handle.queued], [], (List.append_nil _).symm, rfl, ?_⟩
        have himg : image j₀.state.blockSize (h.records ++ [.tx j.handle.sequence j.handle.queued]) =
            written j₀.state j.device ++ j.txBufs := by
          rw [image_append, hrec, himage, Journal.txBufs, hi.core.blockSize]
          exact congrArg _ (List.flatMap_singleton _ _)
        show image _ _ <+: written j₀.state ((appended j.txBufs j).device.writeAll ws) ∧ (_ → _ ∧ image _ _ = written j₀.state ((appended j.txBufs j).device.writeAll ws))
        rw [hhome, himg]
        exact ⟨List.prefix_rfl, fun _ => ⟨rfl, rfl⟩⟩
      inert := by
        show ∀ buf ∈ written j₀.state ((appended j.txBufs j).device.writeAll ws), _
        rw [hhome, htxs]
        refine List.forall_mem_append.2 ⟨fun buf hmem => (hi.inert buf hmem).mono (Nat.le_succ _), fun buf hmem e' hle => ?_⟩
        exact tailBlock_txBlocks _ hlt (by omega) hmem
      queue := fun ha => absurd ha Bool.false_ne_true }

theorem inert_uncommitted {buf : Buf} {bs seq e k : Nat} {queued : List (Nat × Buf)} (hseq : seq < 2 ^ 32)
    (hk : k ≤ queued.length + 1) (h : buf ∈ (txBlocks bs seq queued).take k) : Inert e buf := by
  intro e' _
  rw [txBlocks, List.take_append_of_le_length (by simpa using hk)] at h
  exact tailBlock_uncommitted e' _ hseq (List.mem_of_mem_take h)

theorem Inv.stop (hr : Ready j₀) (hi : Inv j₀ h j) {ok : Nat → Bool} (ha : Orderly j₀ h j (.stop ok)) :
    Inv j₀ (h.add j (stop ok j).1 (.stop ok)) (stop ok j).2 := by
  by_cases hactive : j.handle.active = true
  · by_cases hne : j.handle.queued = []
    · -- an empty transaction
      have hstop : Ext3.stop ok j = (true, { j with handle := { j.handle with active := false } }) := by
        simp [Ext3.stop, hactive, hne]
      have hadd : h.add j true (.stop ok) = h := by
        simp [History.add, hne]
      rw [hstop, hadd]
      have hroom : (written j₀.state j.device).length + ([] : List Buf).length ≤ _ := hi.core.room
      refine hi.abandon hactive ?_ hroom
      intros
      contradiction
    · obtain ⟨hroom, hcap⟩ := ha hactive hne
      have hlen : j.txBufs.length = j.handle.queued.length + 2 := txBlocks_length _ _ _
      have hnotempty : j.handle.queued.isEmpty = false := by
        rw [Bool.eq_false_iff]
        exact fun he => hne (List.isEmpty_iff.1 he)
      have hle := okCount_le ok j.txBufs.length
      rw [stop_eq ok hactive hne]
      split
      · have hadd : h.add j true (.stop ok) =
            { h with records := h.records ++ [.tx j.handle.sequence j.handle.queued] } := by
          simp [History.add, hnotempty]
        rw [hadd]
        exact hi.commit hr hactive hne (by omega) hcap fun w hw => mem_homeWrites hw
      · next hfail =>
        have hadd : h.add j false (.stop ok) = h := rfl
        rw [hadd]
        have hseq : j.handle.sequence < 2 ^ 32 := by
          have h1 := hi.sequence
          have h2 := (hi.tidy_of_active hactive).1
          have h3 := (hi.tidy_of_active hactive).2
          unfold u32Max at h1
          omega
        refine hi.abandon hactive (fun buf hmem => inert_uncommitted hseq (by omega) hmem) ?_
        rw [List.length_take]
        omega
  · have hstop : Ext3.stop ok j = (false, j) := by
      simp [Ext3.stop, hactive]
    rw [hstop]
    exact hi

theorem Inv.revoke (hi : Inv j₀ h j) {ok : Bool} {b : BitVec 32} (ha : Orderly j₀ h j (.revoke ok b)) :
    Inv j₀ (h.add j (revoke ok b.toNat j).1 (.revoke ok b)) (revoke ok b.toNat j).2 := by
  cases ok with
  | false =>
    have hrev : Ext3.revoke false b.toNat j = (false, j) := by
      simp [Ext3.revoke]
    rw [hrev]
    exact hi
  | true =>
    have hrev : Ext3.revoke true b.toNat j = (true, appended [revokeBlock j.state.sequence b.toNat] j) := by
      simp [Ext3.revoke, hi.active]
      rfl
    rw [hrev]
    have hroom : (written j₀.state j.device).length + [revokeBlock j.state.sequence b.toNat].length ≤
        j₀.state.maxBlocks - j₀.state.firstBlock := ha
    obtain ⟨hcore, hw⟩ := hi.core.appended hroom
    have hseq : j.state.sequence < 2 ^ 32 := by
      have := hi.sequence
      unfold u32Max at this
      omega
    have htxs : nextSeq j₀ (h.add j true (.revoke true b)) = nextSeq j₀ h := by
      show j₀.state.sequence + (txs (h.records ++ [.rev j.state.sequence b.toNat])).length = _
      rw [txs_append, txs, txs, List.append_nil]
      rfl
    have htidy : Tidy (nextSeq j₀ h) (appended [revokeBlock j.state.sequence b.toNat] j) ↔ Tidy (nextSeq j₀ h) j := Iff.rfl
    obtain ⟨pre, post, hrec, hpost, hpre, hfull⟩ := hi.records
    exact
      { core := hcore
        active := hi.active
        numbered := numbered_append.2 ⟨hi.numbered, trivial⟩
        fits := fun r hmem => by
          rcases List.mem_append.1 hmem with hmem | hmem
          · exact hi.fits r hmem
          · rw [List.mem_singleton.1 hmem]
            exact ⟨hseq, b.isLt⟩
        entries := by
          show queuedCount (h.records ++ [.rev j.state.sequence b.toNat]) ≤ _
          rw [queuedCount_append]
          exact hi.entries
        sequence := hi.sequence
        phase := by
          rw [htxs]
          exact hi.phase
        records := by
          rw [htxs, htidy, hw]
          show ∃ pre post, h.records ++ [.rev j.state.sequence b.toNat] = pre ++ post ∧ _
          by_cases ht : Tidy (nextSeq j₀ h) j
          · obtain ⟨rfl, himage⟩ := hfull ht
            rw [List.append_nil] at hrec
            have himg : image j₀.state.blockSize (h.records ++ [.rev j.state.sequence b.toNat]) =
                written j₀.state j.device ++ [revokeBlock j.state.sequence b.toNat] := by
              rw [image_append, hrec, himage]
              exact congrArg _ (List.flatMap_singleton _ _)
            refine ⟨_, [], (List.append_nil _).symm, rfl, ?_, fun _ => ⟨rfl, himg⟩⟩
            simp only [himg, List.prefix_rfl]
          · refine ⟨pre, post ++ [.rev j.state.sequence b.toNat], by rw [hrec, List.append_assoc], ?_,
              hpre.trans (List.prefix_append _ _), fun ht' => absurd ht' ht⟩
            rw [txs_append, hpost]
            rfl
        inert := by
          rw [htxs, hw]
          refine List.forall_mem_append.2 ⟨hi.inert, fun buf hmem => ?_⟩
          rw [List.mem_singleton.1 hmem]
          exact inert_revokeBlock hseq b.isLt
        queue := hi.queue }

theorem eq_of_some_pair {α β : Type} {p : α × β} {a : α} {b : β} (h : some p = some (a, b)) : a = p.1 ∧ b = p.2 := by
  rw [Option.some.inj h]
  exact ⟨rfl, rfl⟩

theorem Inv.of_records (hi : Inv j₀ h j) {h' : History} (hrec : h'.records = h.records) : Inv j₀ h' j := by
  obtain ⟨records, events⟩ := h
  obtain ⟨records', events'⟩ := h'
  cases hrec
  exact ⟨hi.core, hi.active, hi.numbered, hi.fits, hi.entries, hi.sequence, hi.phase, hi.records, hi.inert, hi.queue⟩

theorem Inv.step (hr : Ready j₀) (hi : Inv j₀ h j) {op : Op} {res : Bool} {j' : Journal} (ha : Orderly j₀ h j op)
    (hres : op.run j = some (res, j')) : Inv j₀ (h.add j res op) j' := by
  cases op with
  | start n => exact hi.start ha hres
  | writeBlock data b =>
    obtain ⟨rfl, rfl⟩ := eq_of_some_pair hres
    refine (hi.writeBlock ha).of_records ?_
    cases (Ext3.writeBlock data b.toNat j).1 with
    | true => rfl
    | false => rfl
  | stop ok =>
    obtain ⟨rfl, rfl⟩ := eq_of_some_pair hres
    exact hi.stop hr ha
  | revoke ok b =>
    obtain ⟨rfl, rfl⟩ := eq_of_some_pair hres
    exact hi.revoke ha

theorem run_inv (hr : Ready j₀) (hrun : Run (Orderly j₀) j₀ h j) : Inv j₀ h j := by
  induction hrun with
  | init => exact hr.inv
  | step _ ha hres ih => exact ih.step hr ha hres

theorem Inv.block (hr : Ready j₀) (hi : Inv j₀ h j) {pos : Nat} (hpos : InRing j₀.state pos) :
    j.device.blocks (j₀.state.journalToDisk pos) ∈ written j₀.state j.device ∨
      Old j₀.state.sequence (j.device.blocks (j₀.state.journalToDisk pos)) := by
  obtain ⟨i, rfl⟩ := Nat.exists_eq_add_of_le hpos.1
  by_cases hlt : i < (written j₀.state j.device).length
  · left
    have hat := holds_iff.1 hi.core.holds i hlt
    rw [iterate_next_lt hpos.2] at hat
    rw [hat]
    exact List.getElem_mem hlt
  · right
    rw [hi.core.rest i (Nat.not_lt.1 hlt) hpos.2]
    exact hr.old _ hpos

theorem Inv.nextSeq_le (hi : Inv j₀ h j) : nextSeq j₀ h ≤ u32Max := by
  have hseq := hi.sequence
  rcases hi.phase with ht | ⟨-, hlt⟩
  · unfold Tidy at ht
    split at ht
    · omega
    · omega
  · omega

end Inv

/-! ## Committed transactions -/

section Committed
variable {j₀ j : Journal} {h : History}

/-- The scan from the first block and the number of `st` finds the transactions of `recs` in order, with all their
blocks, and nothing behind them. -/
def Replayable (st : JournalState) (blocks : Nat → Buf) (recs : List Record) : Prop :=
  ∃ s, pass1Scan st blocks = some s ∧ s.transactionsFound = (txs recs).length ∧
    (s.entries.filter fun e => e.valid).map (entryWrite st blocks) = writesOf recs

/-- **Committed transactions are replayable**, in every state of a run in which no transaction is started after one that
was closed empty or failed. -/
theorem committed_replayable (hr : Ready j₀) (hrun : Run (Orderly j₀) j₀ h j) :
    Replayable j₀.state j.device.blocks h.records := by
  have hi := run_inv hr hrun
  obtain ⟨pre, post, hrec, hpost, hpre, -⟩ := hi.records
  have htxs : txs h.records = txs pre := by
    rw [hrec, txs_append, hpost, List.append_nil]
  have hq : queuedCount h.records = queuedCount pre := by
    rw [queuedCount, htxs]
    rfl
  have hholds : Holds j₀.state j.device.blocks (image j₀.state.blockSize pre) j₀.state.firstBlock := by
    obtain ⟨rest, hrest⟩ := hpre
    have hall := hi.core.holds
    rw [← hrest, holds_append] at hall
    exact hall.1
  have hbs : 20 ≤ j₀.state.blockSize := Nat.le_trans (by decide) hr.bs
  have hroom := hi.core.room
  have hlen := hpre.length_le
  have hnum := hi.numbered
  rw [hrec, numbered_append] at hnum
  have hseq := hi.nextSeq_le
  rw [nextSeq, htxs] at hseq
  obtain ⟨s, hs, hfound, ⟨X, hX, hinvalid⟩, -⟩ := pass1Scan_records (P := fun _ => True) hr.ring hbs hholds hnum.1
    (fun r hmem => hi.fits r (by rw [hrec]; exact List.mem_append_left _ hmem)) (by omega) hseq
    (by rw [← hq]; exact hi.entries) fun pos hpos => by
      rcases hi.block hr hpos with hmem | hold
      · have hinert := hi.inert _ hmem
        rw [nextSeq, htxs] at hinert
        exact hinert _ le_rfl
      · exact (hold.tailBlock (Nat.le_add_right _ _)).mono fun _ _ => trivial
  refine ⟨s, hs, by rw [hfound, htxs], ?_⟩
  have hvalid : s.entries.filter (fun e => e.valid) = entriesOf j₀.state pre j₀.state.firstBlock := by
    rw [hX, List.filter_append, List.filter_eq_self.2 fun e he => (mem_entriesOf hr.ring he).1]
    rw [List.filter_eq_nil_iff.2 fun x hx => by rw [hinvalid x hx]; exact Bool.false_ne_true, List.append_nil]
  rw [hvalid, entriesOf_write hholds, writesOf, writesOf, htxs]

end Committed

/-! ### Two runs -/

section Runs

def runOps (Allowed : History → Journal → Op → Prop) [∀ h j op, Decidable (Allowed h j op)] :
    List Op → History → Journal → Option (History × Journal)
  | [], h, j => some (h, j)
  | op :: ops, h, j =>
    if Allowed h j op then
      match op.run j with
      | none => none
      | some (res, j') => runOps Allowed ops (h.add j res op) j'
    else none

theorem run_of_runOps {Allowed : History → Journal → Op → Prop} [∀ h j op, Decidable (Allowed h j op)] {j₀ : Journal}
    (ops : List Op) {h h' : History} {j j' : Journal} (hrun : Run Allowed j₀ h j)
    (hops : runOps Allowed ops h j = some (h', j')) : Run Allowed j₀ h' j' := by
  induction ops generalizing h j with
  | nil =>
    obtain ⟨rfl, rfl⟩ := Prod.mk.inj (Option.some.inj hops)
    exact hrun
  | cons op ops ih =>
    rw [runOps] at hops
    split at hops
    · next ha =>
      split at hops
      · cases hops
      · next hres => exact ih (hrun.step ha hres) hops
    · cases hops

instance (j₀ : Journal) (h : History) (j : Journal) : (op : Op) → Decidable (Orderly j₀ h j op)
  | .start _ => inferInstanceAs (Decidable (_ → _))
  | .writeBlock _ _ => inferInstanceAs (Decidable (¬ _))
  | .stop _ => inferInstanceAs (Decidable (_ → _ → _))
  | .revoke _ _ => inferInstanceAs (Decidable (_ ≤ _))

def blank : Journal := init { blocks := fun _ => zeros, log := [] } 100 12 1 1 1024

theorem blank_ready : Ready blank where
  active := rfl
  idle := rfl
  pos := rfl
  ring := by
    unfold InRing
    decide
  bs := by decide
  sequence := by decide
  log := rfl
  old := fun _ _ => zeros_old _

def allOk : Nat → Bool := fun _ => true

def emptyFirst : List Op :=
  [.start 1, .stop allOk, .start 1, .writeBlock (fun _ => 7) 5, .stop allOk]

/-- After an empty transaction the next one is committed, but the scan does not find it. -/
theorem empty_transaction_hides :
    ∃ h j, Run (fun _ _ _ => True) blank h j ∧ (txs h.records).length = 1 ∧
      ¬ Replayable blank.state j.device.blocks h.records := by
  have hrun : (runOps (fun _ _ _ => True) emptyFirst ⟨[], []⟩ blank).map (fun r => ((txs r.1.records).length,
      (pass1Scan blank.state r.2.device.blocks).map fun s => s.transactionsFound)) = some (1, some 0) := by decide +kernel
  obtain ⟨⟨h, j⟩, hops, hval⟩ := Option.map_eq_some_iff.1 hrun
  obtain ⟨hcount, hfound⟩ := Prod.mk.inj hval
  refine ⟨h, j, run_of_runOps _ .init hops, hcount, ?_⟩
  rintro ⟨s, hs, hs', -⟩
  have hs : pass1Scan blank.state j.device.blocks = some s := hs
  rw [hs] at hfound
  have hzero : s.transactionsFound = 0 := Option.some.inj hfound
  have hcount : (txs h.records).length = 1 := hcount
  omega

theorem committed_replayable_one :
    ∃ (h : History) (j : Journal), (txs h.records).length = 1 ∧ Replayable blank.state j.device.blocks h.records := by
  have hrun : (runOps (Orderly blank) [.start 1, .writeBlock (fun _ => 7) 5, .stop allOk] ⟨[], []⟩ blank).map
      (fun r => (txs r.1.records).length) = some 1 := by decide +kernel
  obtain ⟨⟨h, j⟩, hops, hcount⟩ := Option.map_eq_some_iff.1 hrun
  exact ⟨h, j, hcount, committed_replayable blank_ready (run_of_runOps _ .init hops)⟩

end Runs

end Zigix.Ext3
