import Zigix.Fs.Recovery

/-!
# Which journals are replayed safely

* `turn_cases` : what a turn of the scan does; `turn_isSome` : on a sound block it is without a fault;
* `replay_safe_iff` : a recovery is safe exactly when every block that the scan reads is sound.
-/

namespace Zigix.Ext3.Recovery

open Bytes

/-! ## One block -/

section Turns
variable {st : JournalState} {buf : Buf} {v v' : Vars} {ok : Nat → Bool} {d : Device}

theorem inc_eq_some {x y : Nat} : inc x = some y ↔ x < u32Max ∧ y = x + 1 := by
  unfold inc
  split
  · next h => exact ⟨fun he => ⟨h, (Option.some.inj he).symm⟩, fun he => congrArg some he.2.symm⟩
  · next h => exact ⟨nofun, fun he => absurd he.1 h⟩

theorem inc_of_lt {x : Nat} (h : x < u32Max) : inc x = some (x + 1) := if_pos h

theorem store_eq_some {α : Type} {cap : Nat} {table table' : List α} {x : α} (h : store cap table x = some table') :
    table.length < cap ∧ table' = table ++ [x] := by
  unfold store at h
  split at h
  · next hlt => exact ⟨hlt, (Option.some.inj h).symm⟩
  · cases h

theorem store_of_lt {α : Type} {cap : Nat} {table : List α} (x : α) (h : table.length < cap) :
    store cap table x = some (table ++ [x]) := if_pos h

theorem readBE_eq_some {off n x : Nat} (h : readBE st buf off n = some x) : getBE buf off n = x := by
  unfold readBE at h
  split at h
  · exact Option.some.inj h
  · cases h

theorem readBE_of_le {off n : Nat} (h : off + n ≤ st.blockSize) : readBE st buf off n = some (getBE buf off n) := if_pos h

theorem nextBlock_eq_some {pos next : Nat} (h : nextBlock st pos = some next) :
    pos < u32Max ∧ next = st.nextBlock pos := by
  obtain ⟨x, hx, rfl⟩ := Option.map_eq_some_iff.1 h
  obtain ⟨hlt, rfl⟩ := inc_eq_some.1 hx
  exact ⟨hlt, rfl⟩

theorem nextBlock_of_lt {pos : Nat} (h : pos < u32Max) : nextBlock st pos = some (st.nextBlock pos) := by
  unfold nextBlock
  rw [inc_of_lt h]
  rfl

/-- What comes behind a position has a number that can be counted on. -/
theorem nextBlock_lt (hw : WellTyped st) (hfirst : st.firstBlock < u32Max) (pos : Nat) : st.nextBlock pos < u32Max := by
  have hmax := hw.max
  unfold JournalState.nextBlock
  split
  · exact hfirst
  · omega

theorem iterate_nextBlock_lt (hw : WellTyped st) (hfirst : st.firstBlock < u32Max) (i : Nat) {pos : Nat}
    (h : pos < u32Max) : st.nextBlock^[i] pos < u32Max := by
  cases i with
  | zero => exact h
  | succ i =>
    rw [Function.iterate_succ_apply']
    exact nextBlock_lt hw hfirst _

structure Tagged (st : JournalState) (buf : Buf) (sequence n off : Nat) (v v' : Vars) : Prop where
  pos : v'.pos = st.nextBlock^[n] v.pos
  scanned : v'.blocksScanned = v.blocksScanned + n
  expected : v'.expectedSeq = v.expectedSeq
  revokes : v'.revokes = v.revokes
  result : v'.result = v.result
  length : v.entries.length ≤ maxReplayEntries → v'.entries.length ≤ maxReplayEntries
  entries : ∀ e ∈ v'.entries, e ∈ v.entries ∨ e.sequence = sequence ∧ e.valid = false ∧
    ∃ i < n, e.fsBlock = getBE buf (off + 8 * i) 4 ∧ getBE buf (off + 8 * i + 4) 2 &&& flagDeleted = 0 ∧
      e.journalBlock = st.nextBlock^[i] v.pos

theorem descriptorTags_spec {sequence : Nat} (fuel off : Nat) {v v' : Vars}
    (h : descriptorTags st buf sequence fuel off v = some v') :
    Tagged st buf sequence (tagCount st.blockSize buf fuel off) off v v' := by
  induction fuel generalizing off v with
  | zero => cases h
  | succ fuel ih =>
    unfold descriptorTags at h
    unfold tagCount
    split at h
    · next hend =>
      rw [if_pos hend]
      cases h
      exact ⟨rfl, rfl, rfl, rfl, rfl, id, fun e he => .inl he⟩
    next hend =>
    rw [if_neg hend]
    obtain ⟨fsBlock, hblock, h⟩ := Option.bind_eq_some_iff.1 h
    obtain ⟨flags, hflags, h⟩ := Option.bind_eq_some_iff.1 h
    obtain ⟨entries, hentries, h⟩ := Option.bind_eq_some_iff.1 h
    obtain ⟨pos, hpos, h⟩ := Option.bind_eq_some_iff.1 h
    obtain ⟨scanned, hscanned, h⟩ := Option.bind_eq_some_iff.1 h
    rw [readBE_eq_some hflags]
    obtain ⟨-, rfl⟩ := nextBlock_eq_some hpos
    obtain ⟨-, rfl⟩ := inc_eq_some.1 hscanned
    -- this tag adds at most one entry
    have hone : (v.entries.length ≤ maxReplayEntries → entries.length ≤ maxReplayEntries) ∧ ∀ e ∈ entries, e ∈ v.entries ∨
        e.sequence = sequence ∧ e.valid = false ∧ e.fsBlock = getBE buf off 4 ∧
          getBE buf (off + 4) 2 &&& flagDeleted = 0 ∧ e.journalBlock = v.pos := by
      unfold addEntry at hentries
      split at hentries
      · next hkeep =>
        obtain ⟨hlt, rfl⟩ := store_eq_some hentries
        refine ⟨fun _ => ?_, fun e he => ?_⟩
        · rw [List.length_append, List.length_singleton]
          exact hlt
        · rcases List.mem_append.1 he with he | he
          · exact .inl he
          · rw [List.mem_singleton.1 he]
            refine .inr ⟨rfl, rfl, (readBE_eq_some hblock).symm, ?_, rfl⟩
            rw [readBE_eq_some hflags]
            exact hkeep.1
      · cases hentries
        exact ⟨id, fun e he => .inl he⟩
    split at h
    · next hlast =>
      rw [if_pos hlast]
      cases h
      refine ⟨rfl, rfl, rfl, rfl, rfl, hone.1, fun e he => ?_⟩
      rcases hone.2 e he with hold | ⟨hseq, hvalid, hfs, hdel, hjb⟩
      · exact .inl hold
      · exact .inr ⟨hseq, hvalid, 0, Nat.one_pos, hfs, hdel, hjb⟩
    · next hlast =>
      rw [if_neg hlast]
      obtain ⟨hp, hn, he, hr, hres, hlen, hent⟩ := ih (off + 8) h
      refine ⟨hp.trans (Function.iterate_succ_apply ..).symm, by rw [hn]; dsimp only; omega, he, hr, hres,
        fun hle => hlen (hone.1 hle), fun e he => ?_⟩
      rcases hent e he with hold | ⟨hseq, hvalid, i, hi, hfs, hdel, hjb⟩
      · rcases hone.2 e hold with hold | ⟨hseq, hvalid, hfs, hdel, hjb⟩
        · exact .inl hold
        · exact .inr ⟨hseq, hvalid, 0, Nat.succ_pos _, hfs, hdel, hjb⟩
      · have hoff : off + 8 + 8 * i = off + 8 * (i + 1) := by omega
        rw [hoff] at hfs hdel
        exact .inr ⟨hseq, hvalid, i + 1, Nat.succ_lt_succ hi, hfs, hdel, hjb.trans (Function.iterate_succ_apply ..).symm⟩

theorem descriptorTags_isSome (hw : WellTyped st) (hfirst : st.firstBlock < u32Max) (sequence fuel off : Nat)
    {v : Vars} (hoff : off ≤ st.blockSize) (hfuel : st.blockSize + 8 < off + 8 * fuel) (hpos : v.pos < u32Max)
    (hcount : v.blocksScanned + tagCount st.blockSize buf fuel off ≤ u32Max) :
    (descriptorTags st buf sequence fuel off v).isSome = true := by
  induction fuel generalizing off v with
  | zero => omega
  | succ fuel ih =>
    unfold descriptorTags
    unfold tagCount at hcount
    by_cases hend : st.blockSize < off + 8
    · rw [if_pos hend]
      rfl
    rw [if_neg hend] at hcount ⊢
    have hadd : ∀ flags entry, ∃ entries, addEntry flags entry v.entries = some entries := fun flags entry => by
      unfold addEntry store
      split
      · next hkeep =>
        rw [if_pos hkeep.2]
        exact ⟨_, rfl⟩
      · exact ⟨_, rfl⟩
    rw [readBE_of_le (by omega), readBE_of_le (by omega)]
    simp only [bind, Option.bind_some]
    obtain ⟨entries, hentries⟩ := hadd (getBE buf (off + 4) 2)
      { sequence, fsBlock := getBE buf off 4, journalBlock := v.pos, escaped := getBE buf (off + 4) 2 &&& flagEscape != 0
        valid := false }
    have hscan : v.blocksScanned < u32Max := by
      split at hcount <;> omega
    rw [hentries, nextBlock_of_lt hpos, inc_of_lt hscan]
    simp only [Option.bind_some]
    split
    · rfl
    · next hlast =>
      rw [if_neg hlast] at hcount
      refine ih (off + 8) (by omega) (by omega) (nextBlock_lt hw hfirst _) ?_
      dsimp only
      omega

structure Revoked (v v' : Vars) : Prop where
  pos : v'.pos = v.pos
  scanned : v'.blocksScanned = v.blocksScanned
  expected : v'.expectedSeq = v.expectedSeq
  entries : v'.entries = v.entries
  length : v.revokes.length ≤ maxRevokeEntries → v'.revokes.length ≤ maxRevokeEntries
  count : v.result.revokeEntries = v.revokes.length → v'.result.revokeEntries = v'.revokes.length
  found : v'.result.transactionsFound = v.result.transactionsFound
  errors : v'.result.errors = v.result.errors
  replayed : v'.result.blocksReplayed = v.result.blocksReplayed

theorem revokedBlocks_spec {sequence : Nat} (n off : Nat) {v v' : Vars}
    (h : revokedBlocks st buf sequence n off v = some v') : Revoked v v' := by
  induction n generalizing off v with
  | zero =>
    cases h
    exact ⟨rfl, rfl, rfl, rfl, id, id, rfl, rfl, rfl⟩
  | succ n ih =>
    unfold revokedBlocks at h
    split at h
    · cases h
      exact ⟨rfl, rfl, rfl, rfl, id, id, rfl, rfl, rfl⟩
    split at h
    · obtain ⟨fsBlock, -, h⟩ := Option.bind_eq_some_iff.1 h
      obtain ⟨revokes, hrevokes, h⟩ := Option.bind_eq_some_iff.1 h
      obtain ⟨count, hcount, h⟩ := Option.bind_eq_some_iff.1 h
      obtain ⟨hlt, rfl⟩ := store_eq_some hrevokes
      obtain ⟨-, rfl⟩ := inc_eq_some.1 hcount
      have hlen : (v.revokes ++ [({ fsBlock, sequence } : RevokeEntry)]).length = v.revokes.length + 1 := by
        rw [List.length_append, List.length_singleton]
      obtain ⟨hp, hs, he, hent, hl, hc, hf, herr, hr⟩ := ih (off + 4) h
      refine ⟨hp, hs, he, hent, fun _ => hl (by rw [hlen]; exact hlt), fun hcnt => hc ?_, hf, herr, hr⟩
      dsimp only
      rw [hlen, hcnt]
    · exact ih (off + 4) h

theorem revokedBlocks_isSome (st : JournalState) (buf : Buf) (sequence n off : Nat) {v : Vars} (hlen : v.revokes.length ≤ maxRevokeEntries)
    (hcount : v.result.revokeEntries = v.revokes.length) : (revokedBlocks st buf sequence n off v).isSome = true := by
  induction n generalizing off v with
  | zero => rfl
  | succ n ih =>
    unfold revokedBlocks
    split
    · rfl
    next hend =>
    split
    · next hlt =>
      have hinc : v.result.revokeEntries < u32Max := by
        rw [hcount]
        exact lt_of_lt_of_le hlt (by decide)
      rw [readBE_of_le (by omega)]
      simp only [bind, Option.bind_some]
      rw [store_of_lt _ hlt, inc_of_lt hinc]
      simp only [Option.bind_some]
      refine ih (off + 4) ?_ ?_
      · rw [List.length_append, List.length_singleton]
        exact hlt
      · dsimp only
        rw [List.length_append, List.length_singleton, hcount]
    · exact ih (off + 4) hlen hcount

structure Tables (v : Vars) : Prop where
  entries : v.entries.length ≤ maxReplayEntries
  revokes : v.revokes.length ≤ maxRevokeEntries
  count : v.result.revokeEntries = v.revokes.length
  found : v.result.transactionsFound ≤ v.blocksScanned
  errors : v.result.errors = 0
  replayed : v.result.blocksReplayed = 0

inductive Turned (st : JournalState) (buf : Buf) (v : Vars) : Bool → Vars → Prop
  | stop : (getBE buf 0 4 = jbd2Magic → getBE buf 4 4 = blocktypeCommit ∧ getBE buf 8 4 ≠ v.expectedSeq) →
    Turned st buf v false v
  | descriptor {v' : Vars} : getBE buf 0 4 = jbd2Magic → getBE buf 4 4 = blocktypeDescriptor → v.pos < u32Max →
    v.blocksScanned + tags st buf < u32Max →
    Tagged st buf (getBE buf 8 4) (tags st buf) 12 { v with pos := st.nextBlock v.pos } v' →
    Turned st buf v true { v' with blocksScanned := v'.blocksScanned + 1 }
  | commit : getBE buf 0 4 = jbd2Magic → getBE buf 4 4 = blocktypeCommit → getBE buf 8 4 = v.expectedSeq →
    v.pos < u32Max → v.expectedSeq < u32Max →
    Turned st buf v true
      { v with
        pos := st.nextBlock v.pos
        expectedSeq := v.expectedSeq + 1
        blocksScanned := v.blocksScanned + 1
        entries := v.entries.map (markValid (getBE buf 8 4))
        result := { v.result with transactionsFound := v.result.transactionsFound + 1 } }
  | other {v' : Vars} : getBE buf 0 4 = jbd2Magic → getBE buf 4 4 ≠ blocktypeDescriptor → getBE buf 4 4 ≠ blocktypeCommit →
    v.pos < u32Max → (getBE buf 4 4 = blocktypeRevoke → 16 ≤ getBE buf 12 4) → Revoked v v' →
    Turned st buf v true { v' with pos := st.nextBlock v.pos, blocksScanned := v.blocksScanned + 1 }

theorem advance_eq_some {go : Bool} (h : advance st v = some (go, v')) :
    v.pos < u32Max ∧ v.blocksScanned < u32Max ∧ go = true ∧
      v' = { v with pos := st.nextBlock v.pos, blocksScanned := v.blocksScanned + 1 } := by
  obtain ⟨pos, hpos, h⟩ := Option.bind_eq_some_iff.1 h
  obtain ⟨scanned, hscanned, h⟩ := Option.bind_eq_some_iff.1 h
  obtain ⟨hlt, rfl⟩ := nextBlock_eq_some hpos
  obtain ⟨hlt', rfl⟩ := inc_eq_some.1 hscanned
  cases h
  exact ⟨hlt, hlt', rfl, rfl⟩

theorem turn_cases {go : Bool} (h : turn st buf v = some (go, v')) : Turned st buf v go v' := by
  obtain ⟨magic, hmagic, h⟩ := Option.bind_eq_some_iff.1 h
  obtain ⟨blocktype, htype, h⟩ := Option.bind_eq_some_iff.1 h
  obtain ⟨sequence, hsequence, h⟩ := Option.bind_eq_some_iff.1 h
  obtain rfl := readBE_eq_some hmagic
  obtain rfl := readBE_eq_some htype
  obtain rfl := readBE_eq_some hsequence
  split at h
  · next hm =>
    cases h
    exact .stop fun he => absurd he hm
  next hm =>
  have hm := not_not.1 hm
  split at h
  · next hdesc =>
    obtain ⟨pos, hpos, h⟩ := Option.bind_eq_some_iff.1 h
    obtain ⟨v₁, htags, h⟩ := Option.bind_eq_some_iff.1 h
    obtain ⟨scanned, hscanned, h⟩ := Option.bind_eq_some_iff.1 h
    obtain ⟨hlt, rfl⟩ := nextBlock_eq_some hpos
    obtain ⟨hlt', rfl⟩ := inc_eq_some.1 hscanned
    have htagged := descriptorTags_spec _ _ htags
    cases h
    have hscan := htagged.scanned
    exact .descriptor hm hdesc hlt (lt_of_eq_of_lt hscan.symm hlt') htagged
  split at h
  · next hcommit =>
    split at h
    · next hseq =>
      cases h
      exact .stop fun _ => ⟨hcommit, hseq⟩
    next hseq =>
    have hseq := not_not.1 hseq
    obtain ⟨found, hfound, h⟩ := Option.bind_eq_some_iff.1 h
    obtain ⟨expected, hexpected, h⟩ := Option.bind_eq_some_iff.1 h
    obtain ⟨-, rfl⟩ := inc_eq_some.1 hfound
    obtain ⟨he, rfl⟩ := inc_eq_some.1 hexpected
    obtain ⟨hlt, -, rfl, rfl⟩ := advance_eq_some h
    exact .commit hm hcommit hseq hlt he
  next hdesc hcommit =>
  split at h
  · next hrevoke =>
    obtain ⟨count, hcount, h⟩ := Option.bind_eq_some_iff.1 h
    obtain rfl := readBE_eq_some hcount
    split at h
    · cases h
    next hlow =>
    obtain ⟨v₁, hrevoked, h⟩ := Option.bind_eq_some_iff.1 h
    have hr := revokedBlocks_spec _ _ hrevoked
    obtain ⟨hlt, -, rfl, rfl⟩ := advance_eq_some h
    rw [hr.pos, hr.scanned]
    exact .other hm hdesc hcommit (hr.pos ▸ hlt) (fun _ => Nat.le_of_not_lt hlow) hr
  · next hrevoke =>
    obtain ⟨hlt, -, rfl, rfl⟩ := advance_eq_some h
    exact .other hm hdesc hcommit hlt (fun hr => absurd hr hrevoke) ⟨rfl, rfl, rfl, rfl, id, id, rfl, rfl, rfl⟩

theorem isSome_bind {α β : Type} {x : Option α} {a : α} {f : α → Option β} (h : x = some a) (hf : (f a).isSome = true) :
    (x >>= f).isSome = true := by
  rw [h]
  exact hf

theorem advance_isSome (hpos : v.pos < u32Max) (hscan : v.blocksScanned < u32Max) : (advance st v).isSome = true :=
  isSome_bind (nextBlock_of_lt hpos) (isSome_bind (inc_of_lt hscan) rfl)

/-- **A turn on a sound block** is without a fault. -/
theorem turn_isSome (hw : WellTyped st) (hfirst : v.pos = st.firstBlock ∨ st.firstBlock < u32Max) (ht : Tables v)
    (hscan : v.blocksScanned < u32Max) (hs : Sound st v.pos v.expectedSeq v.blocksScanned buf) :
    (turn st buf v).isSome = true := by
  have hsize : 1024 ≤ st.blockSize := by
    rcases hw.size with h | h | h <;> omega
  unfold Sound at hs
  refine isSome_bind (readBE_of_le (by omega)) (isSome_bind (readBE_of_le (by omega)) (isSome_bind (readBE_of_le (by omega)) ?_))
  split
  · rfl
  next hm =>
  have hs := hs (not_not.1 hm)
  split
  · next hdesc =>
    rw [if_pos hdesc] at hs
    have hfirst' : st.firstBlock < u32Max := hfirst.elim (fun heq => heq ▸ hs.1) id
    obtain ⟨v₁, hv₁⟩ := Option.isSome_iff_exists.1 (descriptorTags_isSome (v := { v with pos := st.nextBlock v.pos }) hw
      hfirst' (getBE buf 8 4) (st.blockSize + 1) 12 (by omega) (by omega) (nextBlock_lt hw hfirst' _) (Nat.le_of_lt hs.2))
    have hn : v₁.blocksScanned = v.blocksScanned + tags st buf := (descriptorTags_spec _ _ hv₁).scanned
    exact isSome_bind (nextBlock_of_lt hs.1) (isSome_bind hv₁ (isSome_bind (inc_of_lt (hn ▸ hs.2)) rfl))
  next hdesc =>
  rw [if_neg hdesc] at hs
  split
  · next hcommit =>
    rw [if_pos hcommit] at hs
    split
    · rfl
    · next hseq =>
      obtain ⟨hpos, he⟩ := hs (not_not.1 hseq)
      exact isSome_bind (inc_of_lt (lt_of_le_of_lt ht.found hscan)) (isSome_bind (inc_of_lt he) (advance_isSome hpos hscan))
  next hcommit =>
  rw [if_neg hcommit] at hs
  split
  · next hrevoke =>
    refine isSome_bind (readBE_of_le (by omega)) ?_
    rw [if_neg (Nat.not_lt.2 (hs.2 hrevoke))]
    obtain ⟨v₁, hv₁⟩ := Option.isSome_iff_exists.1
      (revokedBlocks_isSome st buf (getBE buf 8 4) ((getBE buf 12 4 - 16) / 4) 16 ht.revokes ht.count)
    have hr := revokedBlocks_spec _ _ hv₁
    exact isSome_bind hv₁ (advance_isSome (hr.pos ▸ hs.1) (hr.scanned ▸ hscan))
  · exact advance_isSome hs.1 hscan

/-! ## The scan -/

structure Found (st : JournalState) (ok : Nat → Bool) (blocks : Nat → Buf) (e : ReplayEntry) : Prop where
  home : e.fsBlock < 2 ^ 32
  journal : e.journalBlock < 2 ^ 32
  tag : ∃ descriptor, Reads st ok blocks blocktypeDescriptor e.sequence descriptor ∧ HasTag st descriptor e.fsBlock
  commit : e.valid = true → ∃ commit, Reads st ok blocks blocktypeCommit e.sequence commit

/-- The variables of the scan at read `k`. -/
structure At (st : JournalState) (ok : Nat → Bool) (blocks : Nat → Buf) (k : Nat) (v : Vars) : Prop where
  reached : Reached st ok blocks k v.pos v.expectedSeq v.blocksScanned
  ring : v.pos = st.firstBlock ∨ st.firstBlock < u32Max
  range : v.pos ≤ u32Max
  tables : Tables v
  found : ∀ e ∈ v.entries, Found st ok blocks e

/-- **One turn** keeps all this. -/
theorem At.turn {k : Nat} (hw : WellTyped st) (h : At st ok d.blocks k v) (hmore : v.blocksScanned < st.maxBlocks)
    (hok : ok k = true) {go : Bool} (hturn : Turned st (d.blocks (st.journalToDisk v.pos)) v go v') :
    (go = false ∧ v' = v) ∨ (go = true ∧ v.blocksScanned < v'.blocksScanned ∧ At st ok d.blocks (k + 1) v') := by
  generalize hbuf : d.blocks (st.journalToDisk v.pos) = buf at hturn
  have hread : ∀ {t : Nat}, getBE buf 0 4 = jbd2Magic → getBE buf 4 4 = t → Reads st ok d.blocks t (getBE buf 8 4) buf :=
    fun hm ht => ⟨k, _, _, _, h.reached, hmore, hok, hbuf, hm, ht, rfl⟩
  cases hturn with
  | stop => exact .inl ⟨rfl, rfl⟩
  | descriptor hm hdesc hlt hcount htag =>
    next v₁ =>
    have hfirst : st.firstBlock < u32Max := h.ring.elim (fun heq => heq ▸ hlt) id
    have hpos := htag.pos
    dsimp only at hpos
    rw [← Function.iterate_succ_apply] at hpos
    have hscan : v₁.blocksScanned = v.blocksScanned + tags st buf := htag.scanned
    refine .inr ⟨rfl, by dsimp only; omega, ?_, .inr hfirst, ?_, ⟨htag.length h.tables.entries, ?_, ?_, ?_, ?_, ?_⟩,
      fun e he => ?_⟩
    · have hnext := Reached.descriptor h.reached hmore hok (by rw [hbuf]; exact hm) (by rw [hbuf]; exact hdesc)
      rw [hbuf] at hnext
      dsimp only
      rw [hpos, hscan, htag.expected]
      exact hnext
    · dsimp only
      rw [hpos]
      exact Nat.le_of_lt (iterate_nextBlock_lt hw hfirst _ hlt)
    · dsimp only
      rw [htag.revokes]
      exact h.tables.revokes
    · dsimp only
      rw [htag.result, htag.revokes]
      exact h.tables.count
    · dsimp only
      rw [htag.result]
      have := h.tables.found
      dsimp only
      omega
    · dsimp only
      rw [htag.result]
      exact h.tables.errors
    · dsimp only
      rw [htag.result]
      exact h.tables.replayed
    · rcases htag.entries e he with hold | ⟨hseq, hvalid, i, hi, hfs, hdel, hjb⟩
      · exact h.found e hold
      · refine ⟨?_, ?_, ⟨buf, hseq ▸ hread hm hdesc, i, hi, hfs.symm, hdel⟩, fun hv => ?_⟩
        · rw [hfs]
          exact getBE_lt _ _ _
        · rw [hjb]
          have := iterate_nextBlock_lt hw hfirst i (nextBlock_lt hw hfirst v.pos)
          dsimp only
          unfold u32Max at this
          omega
        · rw [hvalid] at hv
          cases hv
  | commit hm hcommit hseq hlt he =>
    have hfirst : st.firstBlock < u32Max := h.ring.elim (fun heq => heq ▸ hlt) id
    have htables := h.tables
    refine .inr ⟨rfl, Nat.lt_succ_self _, ?_, .inr hfirst, Nat.le_of_lt (nextBlock_lt hw hfirst _),
      ⟨by rw [List.length_map]; exact htables.entries, htables.revokes, htables.count, Nat.succ_le_succ htables.found,
        htables.errors, htables.replayed⟩, fun e hmem => ?_⟩
    · exact .commit h.reached hmore hok (by rw [hbuf]; exact hm) (by rw [hbuf]; exact hcommit) (by rw [hbuf]; exact hseq)
    · obtain ⟨x, hx, rfl⟩ := List.mem_map.1 hmem
      have hfound := h.found x hx
      unfold markValid
      split
      · next heq => exact ⟨hfound.home, hfound.journal, hfound.tag, fun _ => ⟨buf, heq ▸ hread hm hcommit⟩⟩
      · exact hfound
  | other hm hdesc hcommit hlt hcount hr =>
    have hfirst : st.firstBlock < u32Max := h.ring.elim (fun heq => heq ▸ hlt) id
    have htables := h.tables
    refine .inr ⟨rfl, Nat.lt_succ_self _, ?_, .inr hfirst, Nat.le_of_lt (nextBlock_lt hw hfirst _),
      ⟨by rw [hr.entries]; exact htables.entries, hr.length htables.revokes, hr.count htables.count, ?_,
        hr.errors.trans htables.errors, hr.replayed.trans htables.replayed⟩, fun e hmem => ?_⟩
    · dsimp only
      rw [hr.expected]
      exact .other h.reached hmore hok (by rw [hbuf]; exact hm) (by rw [hbuf]; exact hdesc) (by rw [hbuf]; exact hcommit)
    · dsimp only
      rw [hr.found]
      exact Nat.le_succ_of_le htables.found
    · rw [hr.entries] at hmem
      exact h.found e hmem

theorem size_cases (hw : WellTyped st) : st.blockSize / 512 = 2 ∨ st.blockSize / 512 = 4 ∨ st.blockSize / 512 = 8 := by
  rcases hw.size with h | h | h
  · exact .inl (by rw [h])
  · exact .inr (.inl (by rw [h]))
  · exact .inr (.inr (by rw [h]))

theorem journalToDisk_eq (hw : WellTyped st) {pos : Nat} (hpos : pos < 2 ^ 32) :
    journalToDisk st pos = some (st.journalToDisk pos) ∧ addressed st (st.journalToDisk pos) = true := by
  have hsectors := hw.sectors
  unfold journalToDisk addressed JournalState.journalToDisk
  rw [decide_eq_true_iff]
  rcases size_cases hw with h | h | h <;> rw [h] at hsectors ⊢ <;> exact ⟨if_pos (by omega), by omega⟩

theorem addressed_home (hw : WellTyped st) {b : Nat} (hb : b < 2 ^ 32) : addressed st b = true := by
  unfold addressed
  rw [decide_eq_true_iff]
  rcases size_cases hw with h | h | h <;> rw [h] <;> omega

theorem readDiskBlock_eq {answer : Bool} {b : Nat} (h : addressed st b = true) :
    readDiskBlock st answer d b = some (if answer then some (d.blocks b) else none) := if_pos h

theorem writeDiskBlock_eq {answer : Bool} {b : Nat} (h : addressed st b = true) :
    writeDiskBlock st answer d b buf = some (answer,
      { blocks := if answer then Function.update d.blocks b buf else d.blocks, log := d.log ++ [(b, buf)] }) := if_pos h

/-- What the first pass leaves. -/
structure Scanned (st : JournalState) (ok : Nat → Bool) (blocks : Nat → Buf) (v : Vars) : Prop where
  length : v.entries.length ≤ maxReplayEntries
  found : ∀ e ∈ v.entries, Found st ok blocks e
  errors : v.result.errors ≤ 1
  replayed : v.result.blocksReplayed = 0

theorem At.scanned {k : Nat} (h : At st ok d.blocks k v) : Scanned st ok d.blocks v :=
  ⟨h.tables.entries, h.found, by rw [h.tables.errors]; exact Nat.zero_le _, h.tables.replayed⟩

/-- **The scan ends** when all blocks that it reads are sound. -/
theorem scanLoop_safe (hw : WellTyped st) (hs : AllSound st ok d.blocks) (fuel : Nat) {k : Nat} {v : Vars}
    (h : At st ok d.blocks k v) (hfuel : st.maxBlocks - v.blocksScanned < fuel) :
    ∃ k' v', scanLoop st ok d fuel k v = some (k', v') ∧ Scanned st ok d.blocks v' := by
  induction fuel generalizing k v with
  | zero => exact absurd hfuel (Nat.not_lt_zero _)
  | succ fuel ih =>
    unfold scanLoop
    split
    · exact ⟨k, v, rfl, h.scanned⟩
    next hmore =>
    have hmore := Nat.lt_of_not_le hmore
    obtain ⟨hdisk, haddr⟩ := journalToDisk_eq hw (lt_of_le_of_lt h.range (by decide))
    rw [hdisk]
    simp only [bind, Option.bind_some]
    rw [readDiskBlock_eq haddr]
    cases hok : ok k with
    | false =>
      simp only [Option.bind_some, Bool.false_eq_true, if_false]
      rw [inc_of_lt (by rw [h.tables.errors]; decide)]
      refine ⟨_, _, rfl, h.scanned.length, h.found, ?_, h.tables.replayed⟩
      dsimp only
      rw [h.tables.errors]
    | true =>
      simp only [Option.bind_some, if_true]
      have hscan : v.blocksScanned < u32Max := lt_of_lt_of_le hmore hw.max
      obtain ⟨r, hr⟩ := Option.isSome_iff_exists.1
        (turn_isSome hw h.ring h.tables hscan (hs k _ _ _ h.reached hmore hok))
      obtain ⟨go, v₁⟩ := r
      rw [hr]
      rcases h.turn hw hmore hok (turn_cases hr) with ⟨rfl, rfl⟩ | ⟨rfl, hlt, h₁⟩
      · exact ⟨_, _, rfl, h.scanned⟩
      · exact ih h₁ (by omega)

theorem scanLoop_turn {fuel k : Nat} {v : Vars} {r : Nat × Vars} (h : scanLoop st ok d fuel k v = some r)
    (hmore : v.blocksScanned < st.maxBlocks) (hok : ok k = true) :
    ∃ fuel' go v', fuel = fuel' + 1 ∧ turn st (d.blocks (st.journalToDisk v.pos)) v = some (go, v') ∧
      if go = true then scanLoop st ok d fuel' (k + 1) v' = some r else r = (k + 1, v') := by
  cases fuel with
  | zero => cases h
  | succ fuel =>
    unfold scanLoop at h
    rw [if_neg (Nat.not_le_of_lt hmore)] at h
    obtain ⟨block, hblock, h⟩ := Option.bind_eq_some_iff.1 h
    obtain ⟨answer, hanswer, h⟩ := Option.bind_eq_some_iff.1 h
    have hblock : st.journalToDisk v.pos = block := by
      unfold journalToDisk at hblock
      split at hblock
      · exact Option.some.inj hblock
      · cases hblock
    rw [hok] at hanswer
    unfold readDiskBlock at hanswer
    split at hanswer
    · obtain rfl := Option.some.inj hanswer
      dsimp only at h
      obtain ⟨⟨go, v₁⟩, hturn, h⟩ := Option.bind_eq_some_iff.1 h
      rw [hblock]
      refine ⟨fuel, go, v₁, rfl, hturn, ?_⟩
      cases go with
      | true => exact h
      | false => exact (Option.some.inj h).symm
    · cases hanswer

theorem Reached.run {k pos e n : Nat} {r : Nat × Vars} (hrun : pass1Scan st ok d = some r)
    (h : Reached st ok d.blocks k pos e n) :
    ∃ fuel v, v.pos = pos ∧ v.expectedSeq = e ∧ v.blocksScanned = n ∧ scanLoop st ok d fuel k v = some r := by
  induction h with
  | first => exact ⟨_, _, rfl, rfl, rfl, hrun⟩
  | descriptor _ hmore hok hm hdesc ih =>
    obtain ⟨fuel, v, rfl, rfl, rfl, hloop⟩ := ih
    obtain ⟨fuel', go, v', -, hturn, hnext⟩ := scanLoop_turn hloop hmore hok
    cases turn_cases hturn with
    | stop hwhy => exact absurd ((hwhy hm).1.symm.trans hdesc) (by decide)
    | descriptor _ _ _ _ htag =>
      refine ⟨fuel', _, ?_, ?_, ?_, hnext⟩
      · rw [Function.iterate_succ_apply]
        exact htag.pos
      · exact htag.expected
      · exact congrArg (· + 1) htag.scanned
    | commit _ hcommit => exact absurd (hcommit.symm.trans hdesc) (by decide)
    | other _ hnot => exact absurd hdesc hnot
  | commit _ hmore hok hm hcommit hseq ih =>
    obtain ⟨fuel, v, rfl, rfl, rfl, hloop⟩ := ih
    obtain ⟨fuel', go, v', -, hturn, hnext⟩ := scanLoop_turn hloop hmore hok
    cases turn_cases hturn with
    | stop hwhy => exact absurd hseq (hwhy hm).2
    | descriptor _ hdesc => exact absurd (hcommit.symm.trans hdesc) (by decide)
    | commit => exact ⟨fuel', _, rfl, rfl, rfl, hnext⟩
    | other _ _ hnot => exact absurd hcommit hnot
  | other _ hmore hok hm hdesc hcommit ih =>
    obtain ⟨fuel, v, rfl, rfl, rfl, hloop⟩ := ih
    obtain ⟨fuel', go, v', -, hturn, hnext⟩ := scanLoop_turn hloop hmore hok
    cases turn_cases hturn with
    | stop hwhy => exact absurd (hwhy hm).1 hcommit
    | descriptor _ hd => exact absurd hd hdesc
    | commit _ hc => exact absurd hc hcommit
    | other _ _ _ _ _ hr =>
      refine ⟨fuel', _, ?_, ?_, ?_, hnext⟩
      · rfl
      · exact hr.expected
      · rfl

/-- **A scan that ends found sound blocks only.** -/
theorem pass1Scan_sound {r : Nat × Vars} (hrun : pass1Scan st ok d = some r) : AllSound st ok d.blocks := by
  intro k pos e n h hmore hok hm
  obtain ⟨fuel, v, rfl, rfl, rfl, hloop⟩ := h.run hrun
  obtain ⟨fuel', go, v', -, hturn, -⟩ := scanLoop_turn hloop hmore hok
  cases turn_cases hturn with
  | stop hwhy =>
    obtain ⟨hcommit, hseq⟩ := hwhy hm
    rw [if_neg (by rw [hcommit]; decide), if_pos hcommit]
    exact fun heq => absurd heq hseq
  | descriptor _ hdesc hlt hcount =>
    rw [if_pos hdesc]
    exact ⟨hlt, hcount⟩
  | commit _ hcommit hseq hlt he =>
    rw [if_neg (by rw [hcommit]; decide), if_pos hcommit]
    exact fun _ => ⟨hlt, he⟩
  | other _ hdesc hcommit hlt hcount =>
    rw [if_neg hdesc, if_neg hcommit]
    exact ⟨hlt, hcount⟩

/-! ## The other passes -/

theorem pass2Filter_mem {revokes : List RevokeEntry} {entries : List ReplayEntry} {e : ReplayEntry}
    (h : e ∈ pass2Filter revokes entries) :
    ∃ x ∈ entries, e.fsBlock = x.fsBlock ∧ e.journalBlock = x.journalBlock ∧ (e.valid = true → x.valid = true) := by
  obtain ⟨x, hx, rfl⟩ := List.mem_map.1 h
  refine ⟨x, hx, ?_⟩
  split
  · exact ⟨rfl, rfl, nofun⟩
  · exact ⟨rfl, rfl, id⟩

structure Replayed (es : List ReplayEntry) (r r' : Replay) : Prop where
  writes : ∃ ws, r'.device.log = r.device.log ++ ws ∧ ∀ w ∈ ws, ∃ e ∈ es, e.valid = true ∧ w.1 = e.fsBlock
  count : r'.result.errors + r'.result.blocksReplayed ≤ r.result.errors + r.result.blocksReplayed + es.length

theorem replayEntry_safe (ok : Nat → Bool) (e : ReplayEntry) (r : Replay) (hw : WellTyped st) (hhome : e.fsBlock < 2 ^ 32)
    (hjournal : e.journalBlock < 2 ^ 32) (hcount : r.result.errors + r.result.blocksReplayed < u32Max) :
    ∃ r', replayEntry st ok e r = some r' ∧ Replayed [e] r r' := by
  unfold replayEntry
  split
  · exact ⟨r, rfl, ⟨[], (List.append_nil _).symm, nofun⟩, Nat.le_add_right _ _⟩
  next hvalid =>
  have hvalid : e.valid = true := by simpa using hvalid
  obtain ⟨hdisk, haddr⟩ := journalToDisk_eq hw hjournal
  rw [hdisk]
  simp only [bind, Option.bind_some]
  rw [readDiskBlock_eq haddr]
  have hwrite : ∀ buf : Buf, ∀ w ∈ [(e.fsBlock, buf)], ∃ x ∈ [e], x.valid = true ∧ w.1 = x.fsBlock := fun buf w hw => by
    rw [List.mem_singleton.1 hw]
    exact ⟨e, List.mem_singleton_self e, hvalid, rfl⟩
  have herrors : inc r.result.errors = some (r.result.errors + 1) := inc_of_lt (by omega)
  cases hok : ok r.calls with
  | false =>
    simp only [Option.bind_some, Bool.false_eq_true, if_false]
    rw [herrors]
    refine ⟨_, rfl, ⟨[], (List.append_nil _).symm, nofun⟩, ?_⟩
    rw [List.length_singleton]
    dsimp only
    omega
  | true =>
    simp only [Option.bind_some, if_true]
    rw [writeDiskBlock_eq (addressed_home hw hhome)]
    simp only [Option.bind_some]
    cases hok' : ok (r.calls + 1) with
    | false =>
      rw [if_neg Bool.false_ne_true, herrors]
      refine ⟨_, rfl, ⟨_, rfl, hwrite _⟩, ?_⟩
      rw [List.length_singleton]
      dsimp only
      omega
    | true =>
      rw [if_pos rfl, inc_of_lt (by omega)]
      refine ⟨_, rfl, ⟨_, rfl, hwrite _⟩, ?_⟩
      rw [List.length_singleton]
      dsimp only
      omega

theorem pass3Replay_safe (ok : Nat → Bool) (es : List ReplayEntry) (r : Replay) (hw : WellTyped st)
    (hes : ∀ e ∈ es, e.fsBlock < 2 ^ 32 ∧ e.journalBlock < 2 ^ 32)
    (hcount : r.result.errors + r.result.blocksReplayed + es.length < u32Max) :
    ∃ r', pass3Replay st ok es r = some r' ∧ Replayed es r r' := by
  induction es generalizing r with
  | nil => exact ⟨r, rfl, ⟨[], (List.append_nil _).symm, nofun⟩, Nat.le_add_right _ _⟩
  | cons e es ih =>
    rw [List.length_cons] at hcount
    obtain ⟨hhome, hjournal⟩ := hes e List.mem_cons_self
    obtain ⟨r₁, hone, ⟨ws, hlog, hws⟩, hcnt⟩ := replayEntry_safe ok e r hw hhome hjournal (by omega)
    rw [List.length_singleton] at hcnt
    obtain ⟨r₂, hrest, ⟨ws', hlog', hws'⟩, hcnt'⟩ := ih r₁ (fun x hx => hes x (List.mem_cons_of_mem _ hx)) (by omega)
    refine ⟨r₂, ?_, ⟨ws ++ ws', ?_, fun w hw => ?_⟩, ?_⟩
    · unfold pass3Replay
      rw [hone]
      exact hrest
    · rw [hlog', hlog, List.append_assoc]
    · rcases List.mem_append.1 hw with hw | hw
      · obtain ⟨x, hx, hv⟩ := hws w hw
        rw [List.mem_singleton.1 hx] at hv
        exact ⟨e, List.mem_cons_self, hv⟩
      · obtain ⟨x, hx, hv⟩ := hws' w hw
        exact ⟨x, List.mem_cons_of_mem _ hx, hv⟩
    · rw [List.length_cons]
      omega

theorem pass4Clear_safe (ok : Nat → Bool) (r : Replay) (hw : WellTyped st) (hcount : r.result.errors < u32Max) :
    ∃ r', pass4Clear st ok r = some r' ∧ (r'.device.log = r.device.log ∨
      ∃ buf, r'.device.log = r.device.log ++ [(st.diskStartBlock, buf)]) := by
  obtain ⟨hdisk, haddr⟩ := journalToDisk_eq hw (show 0 < 2 ^ 32 by decide)
  unfold pass4Clear
  rw [hdisk]
  simp only [bind, Option.bind_some]
  rw [readDiskBlock_eq haddr]
  cases hok : ok r.calls with
  | false =>
    simp only [Option.bind_some, Bool.false_eq_true, if_false]
    rw [inc_of_lt hcount]
    exact ⟨_, rfl, .inl rfl⟩
  | true =>
    simp only [Option.bind_some, if_true]
    rw [writeDiskBlock_eq haddr]
    simp only [Option.bind_some]
    cases hok' : ok (r.calls + 1) with
    | false =>
      rw [if_neg Bool.false_ne_true, inc_of_lt hcount]
      exact ⟨_, rfl, .inr ⟨_, rfl⟩⟩
    | true =>
      rw [if_pos rfl]
      exact ⟨_, rfl, .inr ⟨_, rfl⟩⟩

/-! ## The recovery -/

theorem startVars_at (hw : WellTyped st) : At st ok d.blocks 0 (startVars st) :=
  ⟨.first, .inl rfl, hw.first, ⟨Nat.zero_le _, Nat.zero_le _, rfl, le_rfl, rfl, rfl⟩, nofun⟩

theorem replay_safe (hw : WellTyped st) (hs : AllSound st ok d.blocks) : Safe st ok d := by
  obtain ⟨k, v, hscan, hv⟩ := scanLoop_safe hw hs (st.maxBlocks + 1) (startVars_at hw) (Nat.lt_succ_self _)
  have hlen : (pass2Filter v.revokes v.entries).length = v.entries.length := List.length_map ..
  have hsmall : maxReplayEntries + 1 < u32Max := by decide
  have hlength := hv.length
  have herrors := hv.errors
  have hreplayed := hv.replayed
  obtain ⟨r, hreplay, ⟨ws, hlog, hws⟩, hcount⟩ := pass3Replay_safe ok (pass2Filter v.revokes v.entries)
    { calls := k, result := v.result, device := d } hw (fun e he => by
      obtain ⟨x, hx, hhome, hjournal, -⟩ := pass2Filter_mem he
      rw [hhome, hjournal]
      exact ⟨(hv.found x hx).home, (hv.found x hx).journal⟩) (by dsimp only; omega)
  dsimp only at hlog hcount
  obtain ⟨r', hclear, hlog'⟩ := pass4Clear_safe ok
    ({ r with result := { r.result with transactionsReplayed := r.result.transactionsFound } }) hw
    (by dsimp only; omega)
  refine ⟨r'.result, r'.device, ws, ?_, ?_, fun w hmem => ?_⟩
  · exact Option.bind_eq_some_iff.2 ⟨(k, v), hscan,
      Option.bind_eq_some_iff.2 ⟨r, hreplay, Option.bind_eq_some_iff.2 ⟨r', hclear, rfl⟩⟩⟩
  · dsimp only at hlog'
    rwa [hlog] at hlog'
  · obtain ⟨e, he, hvalid, hw⟩ := hws w hmem
    obtain ⟨x, hx, hhome, -, hval⟩ := pass2Filter_mem he
    have hfound := hv.found x hx
    obtain ⟨descriptor, hread, htag⟩ := hfound.tag
    obtain ⟨commit, hcommit⟩ := hfound.commit (hval hvalid)
    rw [hw, hhome]
    exact ⟨x.sequence, descriptor, commit, hread, htag, hcommit⟩

/-- **Replay is safe exactly on sound journals**: the recovery comes to its end without a fault and writes tags of committed
transactions only, exactly when the scan can get past every block that it reads. -/
theorem replay_safe_iff (hw : WellTyped st) : Safe st ok d ↔ AllSound st ok d.blocks := by
  refine ⟨fun ⟨result, d', ws, hrun, _⟩ => ?_, replay_safe hw⟩
  obtain ⟨r, hscan, -⟩ := Option.bind_eq_some_iff.1 hrun
  exact pass1Scan_sound hscan

end Turns

/-! ### Two journals -/

section Small

def smallState : JournalState where
  active := false
  writePos := 1
  sequence := 1
  firstBlock := 1
  maxBlocks := 8
  diskStartBlock := 100
  blockSize := 1024
  maxTxBlocks := 0

/-- These blocks follow the journal superblock. -/
def smallDevice (bufs : List Buf) : Device where
  blocks := fun b => if b < 101 then zeros else bufs.getD (b - 101) zeros
  log := []

theorem smallState_typed : WellTyped smallState := ⟨.inl rfl, by decide, by decide, by decide, by decide⟩

def oneWrite : Device := smallDevice (txBlocks 1024 1 [(7, zeros)])

/-- The transaction is replayed. -/
theorem replay_safe_iff_small : Safe smallState (fun _ => true) oneWrite ∧
    ((replayJournal smallState (fun _ => true) oneWrite).map fun r => r.2.log.map Prod.fst) = some [7, 100] := by
  have hrun : ((replayJournal smallState (fun _ => true) oneWrite).map fun r => r.2.log.map Prod.fst) = some [7, 100] := by
    decide +kernel
  obtain ⟨r, hr, -⟩ := Option.map_eq_some_iff.1 hrun
  unfold replayJournal at hr
  obtain ⟨s, hscan, -⟩ := Option.bind_eq_some_iff.1 hr
  exact ⟨(replay_safe_iff smallState_typed).2 (pass1Scan_sound hscan), hrun⟩

/-- A revoke block whose count leaves out its own header. -/
def shortRevoke : Device := smallDevice [header blocktypeRevoke 1]

theorem short_revoke_panics : WellTyped smallState ∧ ¬ Safe smallState (fun _ => true) shortRevoke := by
  refine ⟨smallState_typed, fun ⟨result, d', ws, hrun, _⟩ => ?_⟩
  have hnone : (replayJournal smallState (fun _ => true) shortRevoke).isNone = true := by decide +kernel
  rw [hrun] at hnone
  cases hnone

end Small

end Zigix.Ext3.Recovery
