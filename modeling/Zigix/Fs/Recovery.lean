import Zigix.Fs.JournalReplay

/-!
# Replaying any journal (`journal_replay.zig` with its checks)

The recovery once more, on a journal of any contents and a disk that may not answer: every addition and subtraction, every
index of a table and every offset into the block buffer is checked. `none` is a check that fails, or a loop that does not
end.

* `turn`, `scanLoop`, `replayEntry`, `pass4Clear`, `replayJournal` : the passes, with the counters of the result;
* `Safe` : the recovery comes to its end, and writes tags of committed transactions only.
-/

namespace Zigix.Ext3.Recovery

open Bytes

/-! ## Checks -/

/-- `x + 1` in 32 bits. -/
def inc (x : Nat) : Option Nat := if x < u32Max then some (x + 1) else none

/-- The next entry of a table. -/
def store {α : Type} (cap : Nat) (table : List α) (x : α) : Option (List α) :=
  if table.length < cap then some (table ++ [x]) else none

def readBE (st : JournalState) (buf : Buf) (off n : Nat) : Option Nat :=
  if off + n ≤ st.blockSize then some (getBE buf off n) else none

def nextBlock (st : JournalState) (pos : Nat) : Option Nat :=
  (inc pos).map fun next => if st.maxBlocks ≤ next then st.firstBlock else next

def journalToDisk (st : JournalState) (pos : Nat) : Option Nat :=
  if st.diskStartBlock + pos < 2 ^ 64 then some (st.diskStartBlock + pos) else none

def addressed (st : JournalState) (block : Nat) : Bool := decide (block * (st.blockSize / 512) < 2 ^ 64)

def readDiskBlock (st : JournalState) (ok : Bool) (d : Device) (block : Nat) : Option (Option Buf) :=
  if addressed st block then some (if ok then some (d.blocks block) else none) else none

def writeDiskBlock (st : JournalState) (ok : Bool) (d : Device) (block : Nat) (buf : Buf) : Option (Bool × Device) :=
  if addressed st block then
    some (ok, { blocks := if ok then Function.update d.blocks block buf else d.blocks, log := d.log ++ [(block, buf)] })
  else none

/-! ## The passes -/

structure ReplayResult where
  transactionsFound : Nat
  transactionsReplayed : Nat
  blocksReplayed : Nat
  revokeEntries : Nat
  errors : Nat

structure Vars where
  pos : Nat
  expectedSeq : Nat
  blocksScanned : Nat
  entries : List ReplayEntry
  revokes : List RevokeEntry
  result : ReplayResult

def addEntry (flags : Nat) (entry : ReplayEntry) (table : List ReplayEntry) : Option (List ReplayEntry) :=
  if flags &&& flagDeleted = 0 ∧ table.length < maxReplayEntries then store maxReplayEntries table entry else some table

/-- The tags of a descriptor block; `pos` is the block of the next one's data. -/
def descriptorTags (st : JournalState) (buf : Buf) (sequence : Nat) : (fuel : Nat) → (off : Nat) → Vars → Option Vars
  | 0, _, _ => none
  | fuel + 1, off, v =>
    if st.blockSize < off + 8 then some v
    else do
      let fsBlock ← readBE st buf off 4
      let flags ← readBE st buf (off + 4) 2
      let entry : ReplayEntry :=
        { sequence, fsBlock, journalBlock := v.pos, escaped := flags &&& flagEscape != 0, valid := false }
      let entries ← addEntry flags entry v.entries
      let pos ← nextBlock st v.pos
      let blocksScanned ← inc v.blocksScanned
      let v := { v with entries, pos, blocksScanned }
      if flags &&& flagLastTag ≠ 0 then some v else descriptorTags st buf sequence fuel (off + 8) v

def revokedBlocks (st : JournalState) (buf : Buf) (sequence : Nat) : (n : Nat) → (off : Nat) → Vars → Option Vars
  | 0, _, v => some v
  | n + 1, off, v =>
    if st.blockSize < off + 4 then some v
    else if v.revokes.length < maxRevokeEntries then do
      let fsBlock ← readBE st buf off 4
      let revokes ← store maxRevokeEntries v.revokes { fsBlock, sequence }
      let revokeEntries ← inc v.result.revokeEntries
      revokedBlocks st buf sequence n (off + 4) { v with revokes, result := { v.result with revokeEntries } }
    else revokedBlocks st buf sequence n (off + 4) v

/-- The end of a turn. -/
def advance (st : JournalState) (v : Vars) : Option (Bool × Vars) := do
  let pos ← nextBlock st v.pos
  let blocksScanned ← inc v.blocksScanned
  return (true, { v with pos, blocksScanned })

def turn (st : JournalState) (buf : Buf) (v : Vars) : Option (Bool × Vars) := do
  let magic ← readBE st buf 0 4
  let blocktype ← readBE st buf 4 4
  let sequence ← readBE st buf 8 4
  if magic ≠ jbd2Magic then some (false, v)
  else if blocktype = blocktypeDescriptor then do
    let pos ← nextBlock st v.pos
    let v ← descriptorTags st buf sequence (st.blockSize + 1) 12 { v with pos }
    let blocksScanned ← inc v.blocksScanned
    return (true, { v with blocksScanned })
  else if blocktype = blocktypeCommit then
    if sequence ≠ v.expectedSeq then some (false, v)
    else do
      let transactionsFound ← inc v.result.transactionsFound
      let expectedSeq ← inc v.expectedSeq
      advance st
        { v with entries := v.entries.map (markValid sequence), expectedSeq, result := { v.result with transactionsFound } }
  else if blocktype = blocktypeRevoke then do
    let count ← readBE st buf 12 4
    if count < 16 then none
    else do
      let v ← revokedBlocks st buf sequence ((count - 16) / 4) 16 v
      advance st v
  else advance st v

/-- The first pass. `ok` says which of the calls to the disk succeed, `k` counts them. -/
def scanLoop (st : JournalState) (ok : Nat → Bool) (d : Device) : (fuel : Nat) → (k : Nat) → Vars → Option (Nat × Vars)
  | 0, _, _ => none
  | fuel + 1, k, v =>
    if st.maxBlocks ≤ v.blocksScanned then some (k, v)
    else do
      let block ← journalToDisk st v.pos
      match ← readDiskBlock st (ok k) d block with
      | none =>
        let errors ← inc v.result.errors
        some (k + 1, { v with result := { v.result with errors } })
      | some buf =>
        match ← turn st buf v with
        | (true, v) => scanLoop st ok d fuel (k + 1) v
        | (false, v) => some (k + 1, v)

def startVars (st : JournalState) : Vars where
  pos := st.firstBlock
  expectedSeq := st.sequence
  blocksScanned := 0
  entries := []
  revokes := []
  result := { transactionsFound := 0, transactionsReplayed := 0, blocksReplayed := 0, revokeEntries := 0, errors := 0 }

def pass1Scan (st : JournalState) (ok : Nat → Bool) (d : Device) : Option (Nat × Vars) :=
  scanLoop st ok d (st.maxBlocks + 1) 0 (startVars st)

/-- The variables of the third pass. -/
structure Replay where
  calls : Nat
  result : ReplayResult
  device : Device

def replayEntry (st : JournalState) (ok : Nat → Bool) (e : ReplayEntry) (r : Replay) : Option Replay :=
  if e.valid = false then some r
  else do
    let block ← journalToDisk st e.journalBlock
    match ← readDiskBlock st (ok r.calls) r.device block with
    | none =>
      let errors ← inc r.result.errors
      some { r with calls := r.calls + 1, result := { r.result with errors } }
    | some buf =>
      let data := if e.escaped then putBE buf 0 4 jbd2Magic else buf
      let (written, device) ← writeDiskBlock st (ok (r.calls + 1)) r.device e.fsBlock data
      if written then
        let blocksReplayed ← inc r.result.blocksReplayed
        some { calls := r.calls + 2, result := { r.result with blocksReplayed }, device }
      else
        let errors ← inc r.result.errors
        some { calls := r.calls + 2, result := { r.result with errors }, device }

def pass3Replay (st : JournalState) (ok : Nat → Bool) : List ReplayEntry → Replay → Option Replay
  | [], r => some r
  | e :: es, r => (replayEntry st ok e r).bind (pass3Replay st ok es)

def pass4Clear (st : JournalState) (ok : Nat → Bool) (r : Replay) : Option Replay := do
  let jsb ← journalToDisk st 0
  match ← readDiskBlock st (ok r.calls) r.device jsb with
  | none =>
    let errors ← inc r.result.errors
    some { r with calls := r.calls + 1, result := { r.result with errors } }
  | some buf =>
    let (written, device) ← writeDiskBlock st (ok (r.calls + 1)) r.device jsb (putBE (putBE buf 0x08 4 0) 0x18 4 0)
    if written then some { r with calls := r.calls + 2, device }
    else
      let errors ← inc r.result.errors
      some { calls := r.calls + 2, result := { r.result with errors }, device }

def replayJournal (st : JournalState) (ok : Nat → Bool) (d : Device) : Option (ReplayResult × Device) := do
  let (calls, v) ← pass1Scan st ok d
  let r ← pass3Replay st ok (pass2Filter v.revokes v.entries) { calls, result := v.result, device := d }
  let result := { r.result with transactionsReplayed := r.result.transactionsFound }
  let r ← pass4Clear st ok { r with result }
  return (r.result, r.device)

/-! ## The records of a journal -/

def tagCount (bs : Nat) (buf : Buf) : (fuel : Nat) → (off : Nat) → Nat
  | 0, _ => 0
  | fuel + 1, off =>
    if bs < off + 8 then 0
    else if getBE buf (off + 4) 2 &&& flagLastTag ≠ 0 then 1
    else tagCount bs buf fuel (off + 8) + 1

def tags (st : JournalState) (buf : Buf) : Nat := tagCount st.blockSize buf (st.blockSize + 1) 12

/-- A tag of a descriptor block that is not deleted names block `b`. -/
def HasTag (st : JournalState) (buf : Buf) (b : Nat) : Prop :=
  ∃ i < tags st buf, getBE buf (12 + 8 * i) 4 = b ∧ getBE buf (12 + 8 * i + 4) 2 &&& flagDeleted = 0

section Records
variable (st : JournalState) (ok : Nat → Bool) (blocks : Nat → Buf)

/-- Read number `k` of the scan is to read the block at `pos`, with `e` the number of the next transaction and `n` blocks
behind it: the journal begins with a record at its first block, and its records follow each other. -/
inductive Reached : (k pos e n : Nat) → Prop
  | first : Reached 0 st.firstBlock st.sequence 0
  | descriptor {k pos e n : Nat} : Reached k pos e n → n < st.maxBlocks → ok k = true →
    getBE (blocks (st.journalToDisk pos)) 0 4 = jbd2Magic →
    getBE (blocks (st.journalToDisk pos)) 4 4 = blocktypeDescriptor →
    Reached (k + 1) (st.nextBlock^[tags st (blocks (st.journalToDisk pos)) + 1] pos) e
      (n + tags st (blocks (st.journalToDisk pos)) + 1)
  | commit {k pos e n : Nat} : Reached k pos e n → n < st.maxBlocks → ok k = true →
    getBE (blocks (st.journalToDisk pos)) 0 4 = jbd2Magic →
    getBE (blocks (st.journalToDisk pos)) 4 4 = blocktypeCommit →
    getBE (blocks (st.journalToDisk pos)) 8 4 = e → Reached (k + 1) (st.nextBlock pos) (e + 1) (n + 1)
  | other {k pos e n : Nat} : Reached k pos e n → n < st.maxBlocks → ok k = true →
    getBE (blocks (st.journalToDisk pos)) 0 4 = jbd2Magic →
    getBE (blocks (st.journalToDisk pos)) 4 4 ≠ blocktypeDescriptor →
    getBE (blocks (st.journalToDisk pos)) 4 4 ≠ blocktypeCommit → Reached (k + 1) (st.nextBlock pos) e (n + 1)

/-- The scan reads a record of this type and number. -/
def Reads (blocktype sequence : Nat) (buf : Buf) : Prop :=
  ∃ k pos e n, Reached st ok blocks k pos e n ∧ n < st.maxBlocks ∧ ok k = true ∧ blocks (st.journalToDisk pos) = buf ∧
    getBE buf 0 4 = jbd2Magic ∧ getBE buf 4 4 = blocktype ∧ getBE buf 8 4 = sequence

/-- A tag for block `b` of a transaction whose commit block is read. -/
def Committed (b : Nat) : Prop :=
  ∃ sequence descriptor commit, Reads st ok blocks blocktypeDescriptor sequence descriptor ∧ HasTag st descriptor b ∧
    Reads st ok blocks blocktypeCommit sequence commit

/-- The scan gets past the block at `pos`: the numbers of blocks and transactions stay below `2 ^ 32`, and a revoke block
counts its own header. -/
def Sound (pos e n : Nat) (buf : Buf) : Prop :=
  getBE buf 0 4 = jbd2Magic →
    if getBE buf 4 4 = blocktypeDescriptor then pos < u32Max ∧ n + tags st buf < u32Max
    else if getBE buf 4 4 = blocktypeCommit then getBE buf 8 4 = e → pos < u32Max ∧ e < u32Max
    else pos < u32Max ∧ (getBE buf 4 4 = blocktypeRevoke → 16 ≤ getBE buf 12 4)

def AllSound : Prop := ∀ k pos e n, Reached st ok blocks k pos e n → n < st.maxBlocks → ok k = true →
  Sound st pos e n (blocks (st.journalToDisk pos))

end Records

/-- **A safe recovery**: it comes to its end, and what it writes is for tags of committed transactions, but for the journal
superblock. -/
def Safe (st : JournalState) (ok : Nat → Bool) (d : Device) : Prop :=
  ∃ result d' ws, replayJournal st ok d = some (result, d') ∧
    (d'.log = d.log ++ ws ∨ ∃ buf, d'.log = d.log ++ ws ++ [(st.diskStartBlock, buf)]) ∧
    ∀ w ∈ ws, Committed st ok d.blocks w.1

structure WellTyped (st : JournalState) : Prop where
  size : st.blockSize = 1024 ∨ st.blockSize = 2048 ∨ st.blockSize = 4096
  first : st.firstBlock ≤ u32Max
  max : st.maxBlocks ≤ u32Max
  sequence : st.sequence ≤ u32Max
  sectors : (st.diskStartBlock + 2 ^ 32) * (st.blockSize / 512) ≤ 2 ^ 64

end Zigix.Ext3.Recovery
