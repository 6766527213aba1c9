import Zigix.Lib.Bytes
import Mathlib.Data.List.Basic

/-!
# The journal (`kernel/fs/ext3`)

* `Journal`, `start`, `writeBlock`, `stop`, `revoke` : the write path of `journal.zig`, one transaction at a time;
* `pass1Scan`, `pass2Filter`, `pass3Replay`, `pass4Clear`, `replayJournal` : the recovery of `journal_replay.zig`;
* `initJournal` : the decision of `ext3_mount.zig` whether to replay, and the sequence number it goes on with.

A block is a buffer of which the bytes below `blockSize` matter. A write that fails leaves the block as it was; `ok`
says which writes of a call succeed. A replay is modelled on a disk that answers. `none` is a kernel panic.
-/

namespace Zigix.Ext3

open Bytes

def jbd2Magic : Nat := 0xC03B3998

def blocktypeDescriptor : Nat := 1
def blocktypeCommit : Nat := 2
def blocktypeSuperblockV1 : Nat := 3
def blocktypeSuperblockV2 : Nat := 4
def blocktypeRevoke : Nat := 5

def flagEscape : Nat := 0x01
def flagDeleted : Nat := 0x04
def flagLastTag : Nat := 0x08

def maxTxEntries : Nat := 64

def u32Max : Nat := 2 ^ 32 - 1

/-! ## The disk -/

/-- The blocks, and the writes issued so far. -/
structure Device where
  blocks : Nat → Buf
  log : List (Nat × Buf)

def Device.write (d : Device) (b : Nat) (buf : Buf) : Device :=
  { blocks := Function.update d.blocks b buf, log := d.log ++ [(b, buf)] }

/-! ## State -/

structure JournalState where
  active : Bool
  /-- where the next journal block goes -/
  writePos : Nat
  sequence : Nat
  firstBlock : Nat
  maxBlocks : Nat
  diskStartBlock : Nat
  blockSize : Nat
  maxTxBlocks : Nat

def JournalState.journalToDisk (st : JournalState) (pos : Nat) : Nat := st.diskStartBlock + pos

def JournalState.nextBlock (st : JournalState) (pos : Nat) : Nat :=
  if st.maxBlocks ≤ pos + 1 then st.firstBlock else pos + 1

/-- The whole ring: no tail is tracked. -/
def JournalState.freeSpace (st : JournalState) : Option Nat :=
  if st.firstBlock ≤ st.maxBlocks then some (st.maxBlocks - st.firstBlock) else none

structure TransactionHandle where
  sequence : Nat
  reservedBlocks : Nat
  /-- the block numbers that were queued, with their copies in `tx_buffers` -/
  queued : List (Nat × Buf)
  active : Bool

structure Journal where
  state : JournalState
  handle : TransactionHandle
  device : Device

/-! ## Journal blocks -/

def zeros : Buf := fun _ => 0

def header (blocktype sequence : Nat) : Buf :=
  putBE (putBE (putBE zeros 0 4 jbd2Magic) 4 4 blocktype) 8 4 sequence

/-- The data would be taken for a journal block. -/
def startsWithMagic (data : Buf) : Bool := getBE data 0 4 == jbd2Magic

def tagFlags (last : Bool) (data : Buf) : Nat :=
  (if last then flagLastTag else 0) ||| (if startsWithMagic data then flagEscape else 0)

def putTags (blockSize : Nat) : List (Nat × Buf) → Nat → Buf → Buf
  | [], _, b => b
  | (blocknr, data) :: rest, offset, b =>
    if blockSize < offset + 8 then b
    else
      let b := putBE b offset 4 blocknr
      let b := putBE b (offset + 4) 2 (tagFlags rest.isEmpty data)
      putTags blockSize rest (offset + 8) (putBE b (offset + 6) 2 0)

def descriptorBlock (blockSize sequence : Nat) (queued : List (Nat × Buf)) : Buf :=
  putTags blockSize queued 12 (header blocktypeDescriptor sequence)

def commitBlock (sequence : Nat) : Buf := header blocktypeCommit sequence

def revokeBlock (sequence fsBlock : Nat) : Buf :=
  putBE (putBE (header blocktypeRevoke sequence) 12 4 (16 + 4)) 16 4 fsBlock

/-- The copy that goes to the journal: the magic number is blanked out. -/
def escape (data : Buf) : Buf := if startsWithMagic data then putBE data 0 4 0 else data

/-- What a transaction puts into the journal. -/
def txBlocks (blockSize sequence : Nat) (queued : List (Nat × Buf)) : List Buf :=
  descriptorBlock blockSize sequence queued :: (queued.map fun q => escape q.2) ++ [commitBlock sequence]

/-! ## The write path -/

/-- `journal.init`. -/
def init (device : Device) (diskStart maxBlocks firstBlock sequence blockSize : Nat) : Journal where
  state :=
    { active := true, writePos := firstBlock, sequence, firstBlock, maxBlocks, diskStartBlock := diskStart, blockSize
      maxTxBlocks := min (maxBlocks / 4) maxTxEntries }
  handle := { sequence := 0, reservedBlocks := 0, queued := [], active := false }
  device

def start (nblocks : Nat) (j : Journal) : Option (Bool × Journal) :=
  if !j.state.active then some (false, j)
  else if j.handle.active then some (false, j)
  else if j.state.maxTxBlocks < nblocks then some (false, j)
  else do
    let free ← j.state.freeSpace
    if free < nblocks + 2 then return (false, j)
    if j.state.sequence = u32Max then none
    return (true, { j with
      handle := { sequence := j.state.sequence, reservedBlocks := nblocks, queued := [], active := true }
      state := { j.state with sequence := j.state.sequence + 1 } })

def writeBlock (data : Buf) (fsBlock : Nat) (j : Journal) : Bool × Journal :=
  if !j.handle.active then (false, j)
  else if maxTxEntries ≤ j.handle.queued.length then (false, j)
  else (true, { j with handle := { j.handle with queued := j.handle.queued ++ [(fsBlock, data)] } })

def append (buf : Buf) (j : Journal) : Journal :=
  { j with
    device := j.device.write (j.state.journalToDisk j.state.writePos) buf
    state := { j.state with writePos := j.state.nextBlock j.state.writePos } }

/-- Blocks one after the other, up to the first write that fails. -/
def appendAll (ok : Nat → Bool) : List Buf → Journal → Bool × Journal
  | [], j => (true, j)
  | buf :: rest, j => if ok 0 then appendAll (fun i => ok (i + 1)) rest (append buf j) else (false, j)

def writeHome (ok : Nat → Bool) : List (Nat × Buf) → Device → Device
  | [], d => d
  | (b, data) :: rest, d => writeHome (fun i => ok (i + 1)) rest (if ok 0 then d.write b data else d)

def stop (ok : Nat → Bool) (j : Journal) : Bool × Journal :=
  if !j.handle.active then (false, j)
  else if j.handle.queued.isEmpty then (true, { j with handle := { j.handle with active := false } })
  else
    let bufs := txBlocks j.state.blockSize j.handle.sequence j.handle.queued
    match appendAll ok bufs j with
    | (false, j) => (false, { j with handle := { j.handle with active := false } })
    | (true, j) =>
      (true, { j with
        device := writeHome (fun i => ok (bufs.length + i)) j.handle.queued j.device
        handle := { j.handle with active := false } })

def revoke (ok : Bool) (fsBlock : Nat) (j : Journal) : Bool × Journal :=
  if !j.state.active then (false, j)
  else if ok then (true, append (revokeBlock j.state.sequence fsBlock) j)
  else (false, j)

/-! ## Recovery -/

structure ReplayEntry where
  sequence : Nat
  fsBlock : Nat
  journalBlock : Nat
  escaped : Bool
  /-- committed and not revoked -/
  valid : Bool

structure RevokeEntry where
  fsBlock : Nat
  sequence : Nat

def maxReplayEntries : Nat := 512
def maxRevokeEntries : Nat := 128

structure Scan where
  pos : Nat
  expectedSeq : Nat
  blocksScanned : Nat
  entries : List ReplayEntry
  revokes : List RevokeEntry
  transactionsFound : Nat

/-- Append while the table has room. -/
def push {α : Type} (cap : Nat) (table : List α) (x : α) : List α := if table.length < cap then table ++ [x] else table

def scanTags (st : JournalState) (buf : Buf) (sequence : Nat) : Nat → Nat → Scan → Scan
  | 0, _, s => s
  | fuel + 1, offset, s =>
    if st.blockSize < offset + 8 then s
    else
      let flags := getBE buf (offset + 4) 2
      let entry : ReplayEntry :=
        { sequence, fsBlock := getBE buf offset 4, journalBlock := s.pos, escaped := flags &&& flagEscape != 0
          valid := false }
      let s := { s with
        entries := if flags &&& flagDeleted = 0 then push maxReplayEntries s.entries entry else s.entries
        pos := st.nextBlock s.pos
        blocksScanned := s.blocksScanned + 1 }
      if flags &&& flagLastTag ≠ 0 then s else scanTags st buf sequence fuel (offset + 8) s

def scanRevokes (st : JournalState) (buf : Buf) (sequence : Nat) : Nat → Nat → List RevokeEntry → List RevokeEntry
  | 0, _, table => table
  | n + 1, offset, table =>
    if st.blockSize < offset + 4 then table
    else scanRevokes st buf sequence n (offset + 4)
      (push maxRevokeEntries table { fsBlock := getBE buf offset 4, sequence })

def markValid (sequence : Nat) (e : ReplayEntry) : ReplayEntry := if e.sequence = sequence then { e with valid := true } else e

def scanLoop (st : JournalState) (blocks : Nat → Buf) : Nat → Scan → Option Scan
  | 0, s => some s
  | fuel + 1, s =>
    if s.blocksScanned < st.maxBlocks then
      let buf := blocks (st.journalToDisk s.pos)
      let blocktype := getBE buf 4 4
      let sequence := getBE buf 8 4
      let next := { s with pos := st.nextBlock s.pos, blocksScanned := s.blocksScanned + 1 }
      if getBE buf 0 4 ≠ jbd2Magic then some s
      else if blocktype = blocktypeDescriptor then
        scanLoop st blocks fuel (scanTags st buf sequence st.blockSize 12 next)
      else if blocktype = blocktypeCommit then
        if sequence ≠ s.expectedSeq then some s
        else if s.expectedSeq = u32Max then none
        else
          scanLoop st blocks fuel { next with
            entries := s.entries.map (markValid sequence)
            transactionsFound := s.transactionsFound + 1
            expectedSeq := s.expectedSeq + 1 }
      else if blocktype = blocktypeRevoke then
        let count := getBE buf 12 4
        if count < 16 then none
        else scanLoop st blocks fuel { next with revokes := scanRevokes st buf sequence ((count - 16) / 4) 16 s.revokes }
      else scanLoop st blocks fuel next
    else some s

def pass1Scan (st : JournalState) (blocks : Nat → Buf) : Option Scan :=
  scanLoop st blocks st.maxBlocks
    { pos := st.firstBlock, expectedSeq := st.sequence, blocksScanned := 0, entries := [], revokes := []
      transactionsFound := 0 }

def pass2Filter (revokes : List RevokeEntry) (entries : List ReplayEntry) : List ReplayEntry :=
  entries.map fun e =>
    if revokes.any fun r => r.fsBlock == e.fsBlock && decide (e.sequence ≤ r.sequence) then { e with valid := false } else e

def entryData (st : JournalState) (blocks : Nat → Buf) (e : ReplayEntry) : Buf :=
  let data := blocks (st.journalToDisk e.journalBlock)
  if e.escaped then putBE data 0 4 jbd2Magic else data

def pass3Replay (st : JournalState) (entries : List ReplayEntry) (d : Device) : Device :=
  entries.foldl (fun d e => if e.valid then d.write e.fsBlock (entryData st d.blocks e) else d) d

def pass4Clear (st : JournalState) (d : Device) : Device :=
  let jsb := st.journalToDisk 0
  d.write jsb (putBE (putBE (d.blocks jsb) 0x08 4 0) 0x18 4 0)

def replayJournal (st : JournalState) (d : Device) : Option Device := do
  let scan ← pass1Scan st d.blocks
  return pass4Clear st (pass3Replay st (pass2Filter scan.revokes scan.entries) d)

/-! ## Mounting -/

/-- The fields of the file-system superblock that `initJournal` is given. -/
structure MountInfo where
  featureCompat : Nat
  featureIncompat : Nat
  journalInum : Nat
  blockSize : Nat
  inodeSize : Nat
  inodeTableBlock : Nat

def hasJournal : Nat := 0x0004
def incompatRecover : Nat := 0x0004
def journalIno : Nat := 8

/-- The journal's inode, the journal superblock, the replay and `journal.init`; without a journal there is none. -/
def initJournal (info : MountInfo) (d : Device) : Option (Bool × Option Journal × Device) :=
  if info.featureCompat &&& hasJournal = 0 then some (true, none, d)
  else
    let inum := if info.journalInum ≠ 0 then info.journalInum else journalIno
    let offset := (inum - 1) * info.inodeSize
    let inode := d.blocks (info.inodeTableBlock + offset / info.blockSize)
    let journalStart := getLE inode (offset % info.blockSize + 0x28) 4
    if journalStart = 0 then some (false, none, d)
    else
      let jsb := d.blocks journalStart
      let sequence := getBE jsb 0x08 4
      let maxlen := getBE jsb 0x10 4
      let first := getBE jsb 0x14 4
      if getBE jsb 0x00 4 ≠ jbd2Magic then some (false, none, d)
      else if getBE jsb 0x04 4 ≠ blocktypeSuperblockV1 ∧ getBE jsb 0x04 4 ≠ blocktypeSuperblockV2 then
        some (false, none, d)
      else do
        let d ← if sequence ≠ 0 ∨ info.featureIncompat &&& incompatRecover ≠ 0 then
            replayJournal
              { active := false, writePos := first, sequence, firstBlock := first, maxBlocks := maxlen
                diskStartBlock := journalStart, blockSize := info.blockSize, maxTxBlocks := 0 } d
          else some d
        if sequence = u32Max then none
        let next := if sequence ≠ 0 then sequence + 1 else 1
        return (true, some (init d journalStart maxlen first next info.blockSize), d)

end Zigix.Ext3
