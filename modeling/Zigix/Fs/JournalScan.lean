import Zigix.Fs.Journal

/-!
# Scanning a journal

What the write path puts into the ring is a list of records. `scanLoop` reads it back record by record.

* `Record.bufs` : the blocks of a record; `Holds` : the ring holds these blocks from a position on;
* `scanLoop_tail` : behind it, as long as no commit block carries the expected number, nothing else is found.
-/

namespace Zigix.Ext3

open Bytes

variable {st : JournalState} {blocks : Nat → Buf}

/-! ## Journal blocks -/

section Blocks
variable {t seq : Nat}

theorem header_magic (t seq : Nat) : getBE (header t seq) 0 4 = jbd2Magic := by
  rw [header, getBE_putBE_of_disjoint (by omega), getBE_putBE_of_disjoint (by omega), getBE_putBE]
  rfl

theorem header_type (h : t < 2 ^ 32) : getBE (header t seq) 4 4 = t := by
  rw [header, getBE_putBE_of_disjoint (by omega), getBE_putBE, Nat.mod_eq_of_lt (by omega)]

theorem header_sequence (h : seq < 2 ^ 32) : getBE (header t seq) 8 4 = seq := by
  rw [header, getBE_putBE, Nat.mod_eq_of_lt (by omega)]

theorem commitBlock_fields (h : seq < 2 ^ 32) :
    getBE (commitBlock seq) 0 4 = jbd2Magic ∧ getBE (commitBlock seq) 4 4 = blocktypeCommit ∧
      getBE (commitBlock seq) 8 4 = seq :=
  ⟨header_magic _ _, header_type (by decide), header_sequence h⟩

theorem revokeBlock_fields {fsBlock : Nat} (h : seq < 2 ^ 32) (hb : fsBlock < 2 ^ 32) :
    getBE (revokeBlock seq fsBlock) 0 4 = jbd2Magic ∧ getBE (revokeBlock seq fsBlock) 4 4 = blocktypeRevoke ∧
      getBE (revokeBlock seq fsBlock) 8 4 = seq ∧ getBE (revokeBlock seq fsBlock) 12 4 = 20 ∧
      getBE (revokeBlock seq fsBlock) 16 4 = fsBlock := by
  have hlow : ∀ off, off + 4 ≤ 12 → getBE (revokeBlock seq fsBlock) off 4 = getBE (header blocktypeRevoke seq) off 4 := by
    intro off hoff
    rw [revokeBlock, getBE_putBE_of_disjoint (by omega), getBE_putBE_of_disjoint (by omega)]
  refine ⟨(hlow 0 (by omega)).trans (header_magic _ _), (hlow 4 (by omega)).trans (header_type (by decide)),
    (hlow 8 (by omega)).trans (header_sequence h), ?_, ?_⟩
  · rw [revokeBlock, getBE_putBE_of_disjoint (by omega), getBE_putBE]
    rfl
  · rw [revokeBlock, getBE_putBE, Nat.mod_eq_of_lt (by omega)]

/-- The journal copy of a data block is not taken for a journal block. -/
theorem escape_magic (data : Buf) : getBE (escape data) 0 4 ≠ jbd2Magic := by
  unfold escape
  split
  · rw [getBE_putBE]
    decide
  · next h => exact fun he => h (by rw [startsWithMagic, he]; rfl)

theorem unescape (data : Buf) :
    (if startsWithMagic data then putBE (escape data) 0 4 jbd2Magic else escape data) = data := by
  unfold escape
  split
  · next h =>
    have hmagic : getBE data 0 4 = jbd2Magic := by simpa [startsWithMagic] using h
    rw [putBE_putBE, ← hmagic, putBE_getBE]
  · rfl

end Blocks

/-! ## Tags -/

section Tags

/-- The tags of `queued` stand at `offset` and behind. -/
def HasTags (buf : Buf) : List (Nat × Buf) → Nat → Prop
  | [], _ => True
  | (blocknr, data) :: rest, offset =>
    getBE buf offset 4 = blocknr ∧ getBE buf (offset + 4) 2 = tagFlags rest.isEmpty data ∧ HasTags buf rest (offset + 8)

theorem putTags_below (bs : Nat) (queued : List (Nat × Buf)) (offset : Nat) (b : Buf) {off n : Nat} (h : off + n ≤ offset) :
    getBE (putTags bs queued offset b) off n = getBE b off n := by
  induction queued generalizing offset b with
  | nil => rfl
  | cons q rest ih =>
    rw [putTags]
    split
    · rfl
    · rw [ih _ _ (by omega), getBE_putBE_of_disjoint (by omega), getBE_putBE_of_disjoint (by omega),
        getBE_putBE_of_disjoint (by omega)]

theorem tagFlags_lt (last : Bool) (data : Buf) : tagFlags last data < 256 ^ 2 := by
  unfold tagFlags
  cases last <;> cases startsWithMagic data <;> decide

theorem hasTags_putTags (bs : Nat) (queued : List (Nat × Buf)) (offset : Nat) (b : Buf)
    (hfit : offset + 8 * queued.length ≤ bs) (hnr : ∀ q ∈ queued, q.1 < 2 ^ 32) :
    HasTags (putTags bs queued offset b) queued offset := by
  induction queued generalizing offset b with
  | nil => trivial
  | cons q rest ih =>
    rw [List.length_cons] at hfit
    have hq := hnr q List.mem_cons_self
    rw [putTags, if_neg (by omega)]
    refine ⟨?_, ?_, ih _ _ (by omega) fun x hx => hnr x (List.mem_cons_of_mem _ hx)⟩
    · rw [putTags_below _ _ _ _ (by omega), getBE_putBE_of_disjoint (by omega), getBE_putBE_of_disjoint (by omega),
        getBE_putBE, Nat.mod_eq_of_lt (by omega)]
    · rw [putTags_below _ _ _ _ (by omega), getBE_putBE_of_disjoint (by omega), getBE_putBE,
        Nat.mod_eq_of_lt (tagFlags_lt _ _)]

def txEntries (st : JournalState) (seq : Nat) (valid : Bool) : List (Nat × Buf) → Nat → List ReplayEntry
  | [], _ => []
  | (blocknr, data) :: rest, pos =>
    { sequence := seq, fsBlock := blocknr, journalBlock := pos, escaped := startsWithMagic data, valid } ::
      txEntries st seq valid rest (st.nextBlock pos)

theorem txEntries_length (st : JournalState) (seq : Nat) (valid : Bool) (queued : List (Nat × Buf)) (pos : Nat) :
    (txEntries st seq valid queued pos).length = queued.length := by
  induction queued generalizing pos with
  | nil => rfl
  | cons q rest ih => rw [txEntries, List.length_cons, List.length_cons, ih]

theorem tagFlags_bits (last : Bool) (data : Buf) :
    tagFlags last data &&& flagDeleted = 0 ∧ (tagFlags last data &&& flagEscape != 0) = startsWithMagic data ∧
      (tagFlags last data &&& flagLastTag ≠ 0 ↔ last = true) := by
  unfold tagFlags
  cases last <;> cases startsWithMagic data <;> decide

theorem scanTags_eq {buf : Buf} {seq : Nat} {queued : List (Nat × Buf)} {fuel offset : Nat} {s : Scan}
    (htags : HasTags buf queued offset) (hne : queued ≠ []) (hfit : offset + 8 * queued.length ≤ st.blockSize)
    (hfuel : queued.length ≤ fuel) (hcap : s.entries.length + queued.length ≤ maxReplayEntries) :
    scanTags st buf seq fuel offset s =
      { s with
        entries := s.entries ++ txEntries st seq false queued s.pos
        pos := st.nextBlock^[queued.length] s.pos
        blocksScanned := s.blocksScanned + queued.length } := by
  induction queued generalizing fuel offset s with
  | nil => exact absurd rfl hne
  | cons q rest ih =>
    rw [List.length_cons] at hfit hfuel hcap
    obtain ⟨hnr, hflags, hrest⟩ := htags
    obtain ⟨hdel, hesc, hlast⟩ := tagFlags_bits rest.isEmpty q.2
    cases fuel with
    | zero => omega
    | succ fuel =>
      rw [scanTags, if_neg (by omega)]
      simp only [hnr, hflags, hdel, hesc, if_true, push, if_pos (show s.entries.length < maxReplayEntries by omega)]
      cases rest with
      | nil =>
        rw [if_pos (hlast.2 rfl)]
        rfl
      | cons x rest =>
        rw [if_neg (fun h => Bool.false_ne_true (hlast.1 h))]
        rw [ih hrest (List.cons_ne_nil _ _) (by rw [List.length_cons] at hfit ⊢; omega) (by omega)
          (by simp only [List.length_append, List.length_singleton]; omega)]
        simp only [List.append_assoc, txEntries, List.length_cons, Function.iterate_succ_apply, List.singleton_append]
        congr 1
        omega

theorem scanTags_frame (st : JournalState) (buf : Buf) (seq fuel offset : Nat) (s : Scan) :
    ∃ X, (scanTags st buf seq fuel offset s).entries = s.entries ++ X ∧ (∀ x ∈ X, x.valid = false) ∧
      (scanTags st buf seq fuel offset s).expectedSeq = s.expectedSeq ∧
      (scanTags st buf seq fuel offset s).revokes = s.revokes ∧
      (scanTags st buf seq fuel offset s).transactionsFound = s.transactionsFound ∧
      ∃ k, (scanTags st buf seq fuel offset s).pos = st.nextBlock^[k] s.pos := by
  induction fuel generalizing offset s with
  | zero => exact ⟨[], (List.append_nil _).symm, nofun, rfl, rfl, rfl, 0, rfl⟩
  | succ fuel ih =>
    rw [scanTags]
    split
    · exact ⟨[], (List.append_nil _).symm, nofun, rfl, rfl, rfl, 0, rfl⟩
    · -- one more entry, or none when the tag is deleted or the table is full
      have hpush : ∀ e : ReplayEntry, e.valid = false →
          ∃ X, (if getBE buf (offset + 4) 2 &&& flagDeleted = 0 then push maxReplayEntries s.entries e else s.entries) =
            s.entries ++ X ∧ ∀ x ∈ X, x.valid = false := by
        intro e he
        unfold push
        split
        · split
          · exact ⟨[e], rfl, fun x hx => by rw [List.mem_singleton.1 hx]; exact he⟩
          · exact ⟨[], (List.append_nil _).symm, nofun⟩
        · exact ⟨[], (List.append_nil _).symm, nofun⟩
      obtain ⟨X, hX, hinvalid⟩ := hpush ⟨seq, getBE buf offset 4, s.pos, getBE buf (offset + 4) 2 &&& flagEscape != 0, false⟩ rfl
      dsimp only
      rw [hX]
      split
      · exact ⟨X, rfl, hinvalid, rfl, rfl, rfl, 1, rfl⟩
      · obtain ⟨Y, hY, hinv, h1, h2, h3, k, hk⟩ := ih (offset + 8)
          { s with entries := s.entries ++ X, pos := st.nextBlock s.pos, blocksScanned := s.blocksScanned + 1 }
        refine ⟨X ++ Y, ?_, fun x hx => ?_, h1, h2, h3, k + 1, hk⟩
        · rw [hY, List.append_assoc]
        · rcases List.mem_append.1 hx with hx | hx
          · exact hinvalid x hx
          · exact hinv x hx

end Tags

/-! ## Records -/

/-- What the write path puts into the ring: a committed transaction or a revoked block. -/
inductive Record
  | tx (sequence : Nat) (queued : List (Nat × Buf))
  | rev (sequence fsBlock : Nat)

def Record.bufs (bs : Nat) : Record → List Buf
  | .tx seq queued => txBlocks bs seq queued
  | .rev seq fsBlock => [revokeBlock seq fsBlock]

/-- From `pos` on the ring holds these blocks. -/
def Holds (st : JournalState) (blocks : Nat → Buf) : List Buf → Nat → Prop
  | [], _ => True
  | buf :: rest, pos => blocks (st.journalToDisk pos) = buf ∧ Holds st blocks rest (st.nextBlock pos)

theorem holds_append {bufs bufs' : List Buf} {pos : Nat} :
    Holds st blocks (bufs ++ bufs') pos ↔
      Holds st blocks bufs pos ∧ Holds st blocks bufs' (st.nextBlock^[bufs.length] pos) := by
  induction bufs generalizing pos with
  | nil => exact ⟨fun h => ⟨trivial, h⟩, fun h => h.2⟩
  | cons buf rest ih =>
    rw [List.cons_append, Holds, ih, Holds, List.length_cons, Function.iterate_succ_apply, and_assoc]

theorem txBlocks_length (bs seq : Nat) (queued : List (Nat × Buf)) : (txBlocks bs seq queued).length = queued.length + 2 := by
  simp [txBlocks]

/-- A transaction that one descriptor block can describe. -/
structure TxFits (bs : Nat) (queued : List (Nat × Buf)) : Prop where
  ne : queued ≠ []
  fit : 12 + 8 * queued.length ≤ bs
  nr : ∀ q ∈ queued, q.1 < 2 ^ 32

section Turns
variable {s : Scan} {seq : Nat} {queued : List (Nat × Buf)}

theorem descriptorBlock_fields (bs : Nat) (queued : List (Nat × Buf)) (hseq : seq < 2 ^ 32) :
    getBE (descriptorBlock bs seq queued) 0 4 = jbd2Magic ∧
      getBE (descriptorBlock bs seq queued) 4 4 = blocktypeDescriptor ∧ getBE (descriptorBlock bs seq queued) 8 4 = seq := by
  have hlow : ∀ off, off + 4 ≤ 12 →
      getBE (descriptorBlock bs seq queued) off 4 = getBE (header blocktypeDescriptor seq) off 4 := by
    intro off hoff
    exact putTags_below _ _ _ _ hoff
  exact ⟨(hlow 0 (by omega)).trans (header_magic _ _), (hlow 4 (by omega)).trans (header_type (by decide)),
    (hlow 8 (by omega)).trans (header_sequence hseq)⟩

theorem txEntries_mark (st : JournalState) (seq : Nat) (queued : List (Nat × Buf)) (pos : Nat) :
    (txEntries st seq false queued pos).map (markValid seq) = txEntries st seq true queued pos := by
  induction queued generalizing pos with
  | nil => rfl
  | cons q rest ih =>
    rw [txEntries, List.map_cons, ih]
    simp [txEntries, markValid]

theorem map_markValid_of_ne {entries : List ReplayEntry} (h : ∀ e ∈ entries, e.sequence ≠ seq) :
    entries.map (markValid seq) = entries := by
  have hid : ∀ e ∈ entries, markValid seq e = id e := fun e he => if_neg (h e he)
  rw [List.map_congr_left hid, List.map_id]

/-- The two turns over a committed transaction that has the expected number. -/
theorem scanLoop_tx (fuel : Nat) (hfits : TxFits st.blockSize queued) (hseq : seq < u32Max) (hexp : s.expectedSeq = seq)
    (hholds : Holds st blocks (txBlocks st.blockSize seq queued) s.pos)
    (hscan : s.blocksScanned + queued.length + 2 ≤ st.maxBlocks)
    (hcap : s.entries.length + queued.length ≤ maxReplayEntries) (hold : ∀ e ∈ s.entries, e.sequence ≠ seq) :
    scanLoop st blocks (fuel + 2) s =
      scanLoop st blocks fuel { s with
        pos := st.nextBlock^[queued.length + 2] s.pos
        expectedSeq := seq + 1
        blocksScanned := s.blocksScanned + queued.length + 2
        entries := s.entries ++ txEntries st seq true queued (st.nextBlock s.pos)
        transactionsFound := s.transactionsFound + 1 } := by
  have hlt : seq < 2 ^ 32 := by unfold u32Max at hseq; omega
  rw [txBlocks, List.cons_append, Holds, holds_append, List.length_map] at hholds
  obtain ⟨hdesc, -, hcommit, -⟩ := hholds
  obtain ⟨hm, ht, hs⟩ := descriptorBlock_fields st.blockSize queued hlt
  have htags : HasTags (descriptorBlock st.blockSize seq queued) queued 12 :=
    hasTags_putTags _ _ _ _ hfits.fit hfits.nr
  -- the descriptor
  rw [scanLoop, if_pos (by omega)]
  simp only [hdesc, hm, ht, hs, ne_eq, not_true_eq_false, if_false, if_true]
  have hfuel : queued.length ≤ st.blockSize := by
    have := hfits.fit
    omega
  rw [scanTags_eq htags hfits.ne hfits.fit hfuel (by exact hcap)]
  -- the commit block
  rw [scanLoop, if_pos (by dsimp only; omega)]
  have hne : ¬ blocktypeCommit = blocktypeDescriptor := by decide
  obtain ⟨hm, ht, hs⟩ := commitBlock_fields hlt
  simp only [hcommit, hm, ht, hs, hexp, ne_eq, not_true_eq_false, if_false, if_true, hne, Nat.ne_of_lt hseq,
    List.map_append, map_markValid_of_ne hold, txEntries_mark]
  have hpos : st.nextBlock (st.nextBlock^[queued.length] (st.nextBlock s.pos)) = st.nextBlock^[queued.length + 2] s.pos := by
    rw [Function.iterate_succ_apply', Function.iterate_succ_apply]
  have hcount : s.blocksScanned + 1 + queued.length + 1 = s.blocksScanned + queued.length + 2 := by omega
  rw [hpos, hcount]

theorem scanLoop_rev (fuel : Nat) {fsBlock : Nat} (hseq : seq < 2 ^ 32) (hb : fsBlock < 2 ^ 32) (hbs : 20 ≤ st.blockSize)
    (hholds : Holds st blocks [revokeBlock seq fsBlock] s.pos) (hscan : s.blocksScanned < st.maxBlocks) :
    scanLoop st blocks (fuel + 1) s =
      scanLoop st blocks fuel { s with
        pos := st.nextBlock s.pos
        blocksScanned := s.blocksScanned + 1
        revokes := push maxRevokeEntries s.revokes ⟨fsBlock, seq⟩ } := by
  obtain ⟨hm, ht, hs, hcount, hfs⟩ := revokeBlock_fields hseq hb
  have hne : ¬ blocktypeRevoke = blocktypeDescriptor := by decide
  have hne' : ¬ blocktypeRevoke = blocktypeCommit := by decide
  rw [scanLoop, if_pos hscan]
  simp only [hholds.1, hm, ht, hs, hcount, ne_eq, not_true_eq_false, if_false, if_true, hne, hne',
    if_neg (show ¬ 20 < 16 by decide), show (20 - 16) / 4 = 1 from rfl, scanRevokes,
    if_neg (show ¬ st.blockSize < 16 + 4 by omega), hfs]

end Turns

/-! ## Lists of records -/

section Records

def image (bs : Nat) (recs : List Record) : List Buf := recs.flatMap (Record.bufs bs)

def txs : List Record → List (Nat × List (Nat × Buf))
  | [] => []
  | .tx seq queued :: rest => (seq, queued) :: txs rest
  | .rev _ _ :: rest => txs rest

def revs : List Record → List RevokeEntry
  | [] => []
  | .tx _ _ :: rest => revs rest
  | .rev seq fsBlock :: rest => ⟨fsBlock, seq⟩ :: revs rest

/-- The entries of the transactions, when the records stand from `pos` on. -/
def entriesOf (st : JournalState) : List Record → Nat → List ReplayEntry
  | [], _ => []
  | .tx seq queued :: rest, pos =>
    txEntries st seq true queued (st.nextBlock pos) ++ entriesOf st rest (st.nextBlock^[queued.length + 2] pos)
  | .rev _ _ :: rest, pos => entriesOf st rest (st.nextBlock pos)

/-- The transactions have the numbers `e`, `e + 1`, … -/
def Numbered : Nat → List Record → Prop
  | _, [] => True
  | e, .tx seq _ :: rest => seq = e ∧ Numbered (e + 1) rest
  | e, .rev _ _ :: rest => Numbered e rest

def Record.Fits (bs : Nat) : Record → Prop
  | .tx _ queued => TxFits bs queued
  | .rev seq fsBlock => seq < 2 ^ 32 ∧ fsBlock < 2 ^ 32

/-- How many blocks are queued in all. -/
def queuedCount (recs : List Record) : Nat := ((txs recs).map fun t => t.2.length).sum

def Scan.past (st : JournalState) (recs : List Record) (s : Scan) : Scan where
  pos := st.nextBlock^[(image st.blockSize recs).length] s.pos
  expectedSeq := s.expectedSeq + (txs recs).length
  blocksScanned := s.blocksScanned + (image st.blockSize recs).length
  entries := s.entries ++ entriesOf st recs s.pos
  revokes := (revs recs).foldl (push maxRevokeEntries) s.revokes
  transactionsFound := s.transactionsFound + (txs recs).length

theorem image_cons (bs : Nat) (r : Record) (recs : List Record) : image bs (r :: recs) = r.bufs bs ++ image bs recs :=
  List.flatMap_cons

theorem image_append (bs : Nat) (recs recs' : List Record) : image bs (recs ++ recs') = image bs recs ++ image bs recs' :=
  List.flatMap_append

theorem mem_txEntries {seq pos : Nat} {valid : Bool} {queued : List (Nat × Buf)} {e : ReplayEntry}
    (h : e ∈ txEntries st seq valid queued pos) : e.sequence = seq ∧ e.valid = valid := by
  induction queued generalizing pos with
  | nil => cases h
  | cons q rest ih =>
    rcases List.mem_cons.1 h with rfl | h
    · exact ⟨rfl, rfl⟩
    · exact ih h

/-- **The scan of the records.** When the transactions carry the numbers that are expected and the tables have room, the
scan comes out behind the records with all their entries valid. -/
theorem scanLoop_records {recs : List Record} (s : Scan) (fuel : Nat) (hbs : 20 ≤ st.blockSize)
    (hholds : Holds st blocks (image st.blockSize recs) s.pos) (hnum : Numbered s.expectedSeq recs)
    (hfits : ∀ r ∈ recs, r.Fits st.blockSize)
    (hscan : s.blocksScanned + (image st.blockSize recs).length ≤ st.maxBlocks)
    (hseq : s.expectedSeq + (txs recs).length ≤ u32Max)
    (hcap : s.entries.length + queuedCount recs ≤ maxReplayEntries)
    (hold : ∀ e ∈ s.entries, e.sequence < s.expectedSeq) (hfuel : (image st.blockSize recs).length ≤ fuel) :
    ∃ fuel', fuel ≤ fuel' + (image st.blockSize recs).length ∧
      scanLoop st blocks fuel s = scanLoop st blocks fuel' (s.past st recs) := by
  induction recs generalizing s fuel with
  | nil =>
    refine ⟨fuel, le_rfl, ?_⟩
    simp [Scan.past, image, txs, revs, entriesOf]
  | cons r recs ih =>
    rw [image_cons, holds_append] at hholds
    rw [image_cons, List.length_append] at hscan hfuel
    cases r with
    | tx seq queued =>
      obtain ⟨rfl, hnum⟩ := hnum
      simp only [Record.bufs, txBlocks_length, txs, List.length_cons, queuedCount, List.map_cons, List.sum_cons]
        at hholds hscan hfuel hseq hcap
      obtain ⟨k, rfl⟩ : ∃ k, fuel = k + 2 := ⟨fuel - 2, by omega⟩
      have hturn := scanLoop_tx k (hfits _ List.mem_cons_self) (by omega) rfl hholds.1 (by omega) (by omega)
        fun e he => Nat.ne_of_lt (hold e he)
      have hold' : ∀ e ∈ s.entries ++ txEntries st s.expectedSeq true queued (st.nextBlock s.pos),
          e.sequence < s.expectedSeq + 1 := by
        intro e he
        rcases List.mem_append.1 he with he | he
        · exact Nat.lt_succ_of_lt (hold e he)
        · rw [(mem_txEntries he).1]
          exact Nat.lt_succ_self _
      have hcap' : (s.entries ++ txEntries st s.expectedSeq true queued (st.nextBlock s.pos)).length + queuedCount recs ≤
          maxReplayEntries := by
        rw [List.length_append, txEntries_length, queuedCount]
        omega
      obtain ⟨fuel', hle, hrest⟩ := ih { s with
          pos := st.nextBlock^[queued.length + 2] s.pos
          expectedSeq := s.expectedSeq + 1
          blocksScanned := s.blocksScanned + queued.length + 2
          entries := s.entries ++ txEntries st s.expectedSeq true queued (st.nextBlock s.pos)
          transactionsFound := s.transactionsFound + 1 } k hholds.2 hnum
        (fun r hr => hfits r (List.mem_cons_of_mem _ hr)) (by dsimp only; omega) (by dsimp only; omega) hcap' hold' (by omega)
      refine ⟨fuel', by rw [image_cons, List.length_append, Record.bufs, txBlocks_length]; omega, ?_⟩
      rw [hturn, hrest]
      congr 1
      simp only [Scan.past, image_cons, List.length_append, Record.bufs, txBlocks_length, txs, revs, entriesOf,
        List.length_cons, List.append_assoc, Scan.mk.injEq, true_and]
      refine ⟨?_, by omega, by omega, by omega⟩
      rw [← Function.iterate_add_apply, Nat.add_comm]
    | rev seq fsBlock =>
      obtain ⟨hs, hb⟩ := hfits _ List.mem_cons_self
      simp only [Record.bufs, List.length_cons, List.length_nil, txs, queuedCount]
        at hholds hscan hfuel hseq hcap
      obtain ⟨k, rfl⟩ : ∃ k, fuel = k + 1 := ⟨fuel - 1, by omega⟩
      have hturn := scanLoop_rev k hs hb hbs hholds.1 (by omega)
      obtain ⟨fuel', hle, hrest⟩ := ih { s with
          pos := st.nextBlock s.pos
          blocksScanned := s.blocksScanned + 1
          revokes := push maxRevokeEntries s.revokes ⟨fsBlock, seq⟩ } k hholds.2 hnum
        (fun r hr => hfits r (List.mem_cons_of_mem _ hr)) (by dsimp only; omega) hseq hcap hold (by omega)
      refine ⟨fuel', by rw [image_cons, List.length_append, Record.bufs, List.length_singleton]; omega, ?_⟩
      rw [hturn, hrest]
      congr 1
      simp only [Scan.past, image_cons, Record.bufs, txs, revs, entriesOf, List.foldl_cons, List.singleton_append,
        List.length_cons, Function.iterate_succ_apply, Scan.mk.injEq, true_and, and_true]
      omega

end Records

/-! ## Behind the records -/

section Tail
variable {e : Nat} {P : RevokeEntry → Prop}

def InRing (st : JournalState) (pos : Nat) : Prop := st.firstBlock ≤ pos ∧ pos < st.maxBlocks

theorem InRing.next {pos : Nat} (h : InRing st pos) : InRing st (st.nextBlock pos) := by
  unfold InRing JournalState.nextBlock at *
  split
  · omega
  · omega

theorem InRing.iterate {pos : Nat} (h : InRing st pos) (k : Nat) : InRing st (st.nextBlock^[k] pos) := by
  induction k with
  | zero => exact h
  | succ k ih =>
    rw [Function.iterate_succ_apply']
    exact ih.next

/-- A block that does not make the scan find a transaction numbered `e`; what it revokes satisfies `P`. -/
def TailBlock (e : Nat) (P : RevokeEntry → Prop) (buf : Buf) : Prop :=
  getBE buf 0 4 = jbd2Magic →
    (getBE buf 4 4 = blocktypeCommit → getBE buf 8 4 ≠ e) ∧
    (getBE buf 4 4 = blocktypeRevoke → 16 ≤ getBE buf 12 4 ∧
      ∀ off, 16 ≤ off → off + 4 ≤ 16 + 4 * ((getBE buf 12 4 - 16) / 4) → P ⟨getBE buf off 4, getBE buf 8 4⟩)

structure Extends (P : RevokeEntry → Prop) (s s' : Scan) : Prop where
  expectedSeq : s'.expectedSeq = s.expectedSeq
  found : s'.transactionsFound = s.transactionsFound
  entries : ∃ X, s'.entries = s.entries ++ X ∧ ∀ x ∈ X, x.valid = false
  revokes : ∃ Y, s'.revokes = s.revokes ++ Y ∧ ∀ y ∈ Y, P y

theorem Extends.refl (s : Scan) : Extends P s s :=
  ⟨rfl, rfl, ⟨[], (List.append_nil _).symm, nofun⟩, ⟨[], (List.append_nil _).symm, nofun⟩⟩

theorem exists_append_trans {α : Type} {Q : α → Prop} {a b c : List α} (h : ∃ X, b = a ++ X ∧ ∀ x ∈ X, Q x)
    (h' : ∃ X, c = b ++ X ∧ ∀ x ∈ X, Q x) : ∃ X, c = a ++ X ∧ ∀ x ∈ X, Q x := by
  obtain ⟨X, rfl, hX⟩ := h
  obtain ⟨Y, rfl, hY⟩ := h'
  exact ⟨X ++ Y, List.append_assoc _ _ _, fun x hx => (List.mem_append.1 hx).elim (hX x) (hY x)⟩

theorem Extends.trans {s s' s'' : Scan} (h : Extends P s s') (h' : Extends P s' s'') : Extends P s s'' where
  expectedSeq := h'.expectedSeq.trans h.expectedSeq
  found := h'.found.trans h.found
  entries := exists_append_trans h.entries h'.entries
  revokes := exists_append_trans h.revokes h'.revokes

theorem scanRevokes_append (st : JournalState) (buf : Buf) (seq n offset : Nat) (table : List RevokeEntry)
    (h : ∀ off, offset ≤ off → off + 4 ≤ offset + 4 * n → P ⟨getBE buf off 4, seq⟩) :
    ∃ Y, scanRevokes st buf seq n offset table = table ++ Y ∧ ∀ y ∈ Y, P y := by
  induction n generalizing offset table with
  | zero => exact ⟨[], (List.append_nil _).symm, nofun⟩
  | succ n ih =>
    rw [scanRevokes]
    split
    · exact ⟨[], (List.append_nil _).symm, nofun⟩
    · have hpush : ∃ Y, push maxRevokeEntries table ⟨getBE buf offset 4, seq⟩ = table ++ Y ∧ ∀ y ∈ Y, P y := by
        unfold push
        split
        · exact ⟨_, rfl, fun y hy => by rw [List.mem_singleton.1 hy]; exact h offset le_rfl (by omega)⟩
        · exact ⟨[], (List.append_nil _).symm, nofun⟩
      exact exists_append_trans hpush (ih _ _ fun off hoff hle => h off (by omega) (by omega))

/-- **Behind the records** nothing is found. -/
theorem scanLoop_tail (fuel : Nat) (s : Scan) (hpos : InRing st s.pos)
    (htail : ∀ pos, InRing st pos → TailBlock s.expectedSeq P (blocks (st.journalToDisk pos))) :
    ∃ s', scanLoop st blocks fuel s = some s' ∧ Extends P s s' := by
  induction fuel generalizing s with
  | zero => exact ⟨s, rfl, .refl s⟩
  | succ fuel ih =>
    -- a turn that only extends the tables, and then the rest of the scan
    have hrest : ∀ s₁, Extends P s s₁ → InRing st s₁.pos → ∃ s', scanLoop st blocks fuel s₁ = some s' ∧ Extends P s s' := by
      intro s₁ hext hin
      obtain ⟨s', hs', hext'⟩ := ih s₁ hin fun pos h => by
        rw [hext.expectedSeq]
        exact htail pos h
      exact ⟨s', hs', hext.trans hext'⟩
    rw [scanLoop]
    split
    · dsimp only
      split
      · exact ⟨s, rfl, .refl s⟩
      · next hmagic =>
        obtain ⟨hcommit, hrevoke⟩ := htail s.pos hpos (not_not.1 hmagic)
        split
        · obtain ⟨X, hX, hinvalid, h1, h2, h3, k, hk⟩ := scanTags_frame st (blocks (st.journalToDisk s.pos))
            (getBE (blocks (st.journalToDisk s.pos)) 8 4) st.blockSize 12
            { s with pos := st.nextBlock s.pos, blocksScanned := s.blocksScanned + 1 }
          refine hrest _ ⟨h1, h3, ⟨X, hX, hinvalid⟩, ⟨[], by rw [h2, List.append_nil], nofun⟩⟩ ?_
          rw [hk]
          exact hpos.next.iterate k
        · split
          · next hc =>
            rw [if_pos (hcommit hc)]
            exact ⟨s, rfl, .refl s⟩
          · split
            · next hr =>
              obtain ⟨hcount, hP⟩ := hrevoke hr
              rw [if_neg (by omega)]
              exact hrest _ ⟨rfl, rfl, ⟨[], (List.append_nil _).symm, nofun⟩, scanRevokes_append _ _ _ _ _ _ hP⟩ hpos.next
            · exact hrest _ ⟨rfl, rfl, ⟨[], (List.append_nil _).symm, nofun⟩, ⟨[], (List.append_nil _).symm, nofun⟩⟩
                hpos.next
    · exact ⟨s, rfl, .refl s⟩

end Tail

/-! ## The whole scan -/

theorem foldl_push {α : Type} {cap : Nat} {table xs : List α} (h : table.length + xs.length ≤ cap) :
    xs.foldl (push cap) table = table ++ xs := by
  induction xs generalizing table with
  | nil => exact (List.append_nil _).symm
  | cons x xs ih =>
    rw [List.length_cons] at h
    rw [List.foldl_cons, push, if_pos (by omega), ih (by rw [List.length_append, List.length_singleton]; omega),
      List.append_assoc, List.singleton_append]

theorem pass1Scan_records {recs : List Record} {P : RevokeEntry → Prop} (hring : InRing st st.firstBlock)
    (hbs : 20 ≤ st.blockSize) (hholds : Holds st blocks (image st.blockSize recs) st.firstBlock)
    (hnum : Numbered st.sequence recs) (hfits : ∀ r ∈ recs, r.Fits st.blockSize)
    (hlen : (image st.blockSize recs).length ≤ st.maxBlocks) (hseq : st.sequence + (txs recs).length ≤ u32Max)
    (hcap : queuedCount recs ≤ maxReplayEntries)
    (htail : ∀ pos, InRing st pos → TailBlock (st.sequence + (txs recs).length) P (blocks (st.journalToDisk pos))) :
    ∃ s, pass1Scan st blocks = some s ∧ s.transactionsFound = (txs recs).length ∧
      (∃ X, s.entries = entriesOf st recs st.firstBlock ++ X ∧ ∀ x ∈ X, x.valid = false) ∧
      ∃ Y, s.revokes = (revs recs).foldl (push maxRevokeEntries) [] ++ Y ∧ ∀ y ∈ Y, P y := by
  let s₀ : Scan :=
    { pos := st.firstBlock, expectedSeq := st.sequence, blocksScanned := 0, entries := [], revokes := []
      transactionsFound := 0 }
  obtain ⟨fuel, -, hscan⟩ := scanLoop_records s₀ st.maxBlocks hbs hholds hnum hfits (by rw [Nat.zero_add]; exact hlen) hseq
    (by rw [List.length_nil, Nat.zero_add]; exact hcap) nofun hlen
  obtain ⟨s, hs, hext⟩ := scanLoop_tail fuel (s₀.past st recs) (hring.iterate _) htail
  refine ⟨s, hscan.trans hs, ?_, hext.entries, hext.revokes⟩
  rw [hext.found]
  exact Nat.zero_add _

end Zigix.Ext3
