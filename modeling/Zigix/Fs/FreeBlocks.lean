import Zigix.Fs.CacheView

/-!
# Freeing the blocks of a file (`freeBlock`, `freeFileBlocks` of `kernel/fs/ext2.zig`)

* `freeFileBlocks` : the fifteen words of `i_block` are taken for block numbers;
* `owned` : the blocks that an inode has.

An inode is its 128 bytes. `none` is a kernel panic, or a write outside of the buffer of a block.
-/

namespace Zigix.FreeBlocks

open Bytes
open BlockCache (slot)

/-! ## The mounted file system -/

/-- What `init` reads from the superblock, and how the device answers. -/
structure Mount where
  blockSize : Nat
  inodeSize : Nat
  inodesPerGroup : Nat
  blocksPerGroup : Nat
  /-- `s_first_data_block` -/
  firstDataBlock : Nat
  numGroups : Nat
  descSize : Nat
  is64bitMode : Bool
  /-- `storeChecksum` of `inode_ext4.zig` on the inode at an offset, where the file system has checksums -/
  storeChecksum : Buf → Nat → Nat → Buf
  /-- the reads and writes of a block that succeed, and the writes of a commit -/
  okRead : Nat → Bool
  okWrite : Nat → Bool
  okCommit : Nat → Bool

structure State where
  cache : BlockCache.State
  /-- `superblock`, in memory -/
  superblock : Buf

/-- `MAX_BLOCK_SIZE`. -/
def maxBlockSize : Nat := 4096

def superblockSize : Nat := 820

/-- The first `n` bytes of `src` are copied to `off`. -/
def blit (dst : Buf) (off : Nat) (src : Buf) (n : Nat) : Buf := fun i =>
  if off ≤ i ∧ i < off + n then src (i - off) else dst i

/-- What a slot holds. -/
def State.deref (s : State) (p : Nat) : Buf := (s.cache.entries p).data

def State.poke (s : State) (p : Nat) (data : Buf) : State :=
  { s with cache := s.cache.setEntry p { s.cache.entries p with data } }

section Calls
variable (mnt : Mount)

/-- The slot that holds the block; `none` if it cannot be read. -/
def readBlock (b : Nat) (s : State) : Option (Option Nat × State) :=
  (BlockCache.readBlock (mnt.okWrite (s.cache.entries (slot b)).blockNum) (mnt.okRead b) b s.cache).map fun r =>
    (r.1.map fun _ => slot b, { s with cache := r.2 })

def writeBlock (b : Nat) (data : Buf) (s : State) : Option (Bool × State) :=
  (BlockCache.writeBlock (mnt.okWrite b) b data s.cache).map fun r => (r.1, { s with cache := r.2 })

def beginJournalTx (maxBlocks : Nat) (s : State) : Option State :=
  (BlockCache.beginJournalTx maxBlocks s.cache).map fun cache => { s with cache }

def commitJournalTx (s : State) : State := { s with cache := BlockCache.commitJournalTx mnt.okCommit s.cache }

/-- `journal_mod.revoke`, whose result is ignored. -/
def revoke (b : Nat) (s : State) : State :=
  let j := s.cache.journal
  let ok := mnt.okWrite (j.state.journalToDisk j.state.writePos)
  { s with cache := { s.cache with journal := (Ext3.revoke ok b j).2 } }

/-! ## Metadata -/

def sbBlock : Nat := if mnt.blockSize = 1024 then 1 else 0

def sbOffset : Nat := if mnt.blockSize = 1024 then 0 else 1024

def bgdtBlock : Nat := if mnt.blockSize = 1024 then 2 else 1

def bgdPerBlock : Nat := mnt.blockSize / mnt.descSize

def descBlock (group : Nat) : Nat := bgdtBlock mnt + group / bgdPerBlock mnt

def descOffset (group : Nat) : Nat := group % bgdPerBlock mnt * mnt.descSize

def writeSuperblock (s : State) : Option (Bool × State) := do
  let (p, s) ← readBlock mnt (sbBlock mnt) s
  match p with
  | none => return (false, s)
  | some p =>
    let s := s.poke p (blit (s.deref p) (sbOffset mnt) s.superblock superblockSize)
    writeBlock mnt (sbBlock mnt) (s.deref p) s

def writeBlockGroupDesc (group : Nat) (bgd : Buf) (s : State) : Option (Bool × State) := do
  let (p, s) ← readBlock mnt (descBlock mnt group) s
  match p with
  | none => return (false, s)
  | some p =>
    let s := s.poke p (blit (s.deref p) (descOffset mnt group) bgd 32)
    writeBlock mnt (descBlock mnt group) (s.deref p) s

def readBlockGroup (group : Nat) (s : State) : Option (Option Buf × State) := do
  let (p, s) ← readBlock mnt (descBlock mnt group) s
  return (p.map fun p i => s.deref p (descOffset mnt group + i), s)

def clearBit (buf : Buf) (bit : Nat) : Buf :=
  Function.update buf (bit / 8) (buf (bit / 8) &&& ~~~(1#8 <<< (bit % 8)))

structure BitmapKind where
  bitmap : Nat
  sbCount : Nat
  bgdCount : Nat
deriving DecidableEq

/-- `bg_block_bitmap`, `s_free_blocks_count`, `bg_free_blocks_count`. -/
def blockBitmap : BitmapKind := ⟨0, 12, 12⟩

/-- `bg_inode_bitmap`, `s_free_inodes_count`, `bg_free_inodes_count`. -/
def inodeBitmap : BitmapKind := ⟨4, 16, 14⟩

/-- A counter of `n` bytes is incremented. -/
def increment (buf : Buf) (off n : Nat) : Option Buf :=
  if getLE buf off n + 1 < 256 ^ n then some (putLE buf off n (getLE buf off n + 1)) else none

def writeMetadata (bitmap p : Nat) (bgd : Buf) (s : State) : Option (Bool × State) := do
  let s ← beginJournalTx 3 s
  match ← writeBlock mnt bitmap (s.deref p) s with
  | (false, s) => return (false, commitJournalTx mnt s)
  | (true, s) =>
    match ← writeSuperblock mnt s with
    | (false, s) => return (false, commitJournalTx mnt s)
    | (true, s) =>
      let (ok, s) ← writeBlockGroupDesc mnt 0 bgd s
      return (ok, commitJournalTx mnt s)

def release (kind : BitmapKind) (bit : Nat) (s : State) : Option (Bool × State) := do
  match ← readBlockGroup mnt 0 s with
  | (none, s) => return (false, s)
  | (some bgd, s) =>
    let bitmap := getLE bgd kind.bitmap 4
    match ← readBlock mnt bitmap s with
    | (none, s) => return (false, s)
    | (some p, s) =>
      if maxBlockSize ≤ bit / 8 then none
      else
        let s := if bit / 8 < mnt.blockSize then s.poke p (clearBit (s.deref p) bit) else s
        let superblock ← increment s.superblock kind.sbCount 4
        let bgd ← increment bgd kind.bgdCount 2
        writeMetadata mnt bitmap p bgd { s with superblock }

def freeBlock (blk : Nat) (s : State) : Option (Bool × State) :=
  if blk = 0 then some (true, s)
  else
    (release mnt blockBitmap blk s).map fun r => if r.1 then (true, revoke mnt blk r.2) else r

def freeInode (ino : Nat) (s : State) : Option (Bool × State) :=
  if ino = 0 then some (true, s) else release mnt inodeBitmap (ino - 1) s

/-! ## Inodes -/

/-- `blockGroupInodeTable64`. -/
def blockGroupInodeTable64 (group : Nat) (s : State) : Option (Option Nat × State) := do
  let (p, s) ← readBlock mnt (descBlock mnt group) s
  return (p.map fun p =>
    let lo := getLE (s.deref p) (descOffset mnt group + 0x08) 4
    if !mnt.is64bitMode || decide (mnt.descSize < 64) then lo
    else getLE (s.deref p) (descOffset mnt group + 0x28) 4 * 2 ^ 32 + lo, s)

def inodesPerBlock : Nat := mnt.blockSize / mnt.inodeSize

def inodeOffset (ino : Nat) : Nat := (ino - 1) % mnt.inodesPerGroup % inodesPerBlock mnt * mnt.inodeSize

def blockInTable (ino : Nat) : Nat := (ino - 1) % mnt.inodesPerGroup / inodesPerBlock mnt

def loadInodeDisk (ino : Nat) (s : State) : Option (Option Buf × State) :=
  if ino = 0 then some (none, s)
  else do
    match ← blockGroupInodeTable64 mnt ((ino - 1) / mnt.inodesPerGroup) s with
    | (none, s) => return (none, s)
    | (some base, s) =>
      let (p, s) ← readBlock mnt (base + blockInTable mnt ino) s
      return (p.map fun p i => s.deref p (inodeOffset mnt ino + i), s)

def writeInodeDisk (ino : Nat) (inode : Buf) (s : State) : Option (Bool × State) :=
  if ino = 0 then some (false, s)
  else do
    match ← blockGroupInodeTable64 mnt ((ino - 1) / mnt.inodesPerGroup) s with
    | (none, s) => return (false, s)
    | (some base, s) =>
      let b := base + blockInTable mnt ino
      match ← readBlock mnt b s with
      | (none, s) => return (false, s)
      | (some p, s) =>
        let data := mnt.storeChecksum (blit (s.deref p) (inodeOffset mnt ino) inode 128) (inodeOffset mnt ino) ino
        let s ← beginJournalTx 1 (s.poke p data)
        let (ok, s) ← writeBlock mnt b (s.deref p) s
        return (ok, commitJournalTx mnt s)

/-- `i_block[i]`. -/
def iBlock (inode : Buf) (i : Nat) : Nat := getLE inode (40 + 4 * i) 4

def setIBlock (inode : Buf) (i v : Nat) : Buf := putLE inode (40 + 4 * i) 4 v

/-! ## `freeFileBlocks` -/

/-- `readU32FromBlock` of the `i`th word. -/
def word (buf : Buf) (i : Nat) : Nat := getLE buf (4 * i) 4

def addrsPerBlock : Nat := mnt.blockSize / 4

def freeDirect (inode : Buf) : List Nat → State → Option State
  | [], s => some s
  | i :: is, s => do
    let s ← (if iBlock inode i ≠ 0 then (freeBlock mnt (iBlock inode i) s).map (·.2) else some s)
    freeDirect inode is s

/-- The blocks with these indices in the indirect block that slot `p` held; each address is read when it is needed. -/
def freeAddrs (p : Nat) : List Nat → State → Option State
  | [], s => some s
  | i :: is, s => do
    let addr := word (s.deref p) i
    let s ← (if addr ≠ 0 then (freeBlock mnt addr s).map (·.2) else some s)
    freeAddrs p is s

def freeIndirect (b : Nat) (s : State) : Option State := do
  let (p, s) ← readBlock mnt b s
  let s ← (match p with
    | some p => freeAddrs mnt p (List.range (addrsPerBlock mnt)) s
    | none => some s)
  let (_, s) ← freeBlock mnt b s
  return s

/-- The indirect blocks with these indices in the doubly indirect block that slot `p` held. -/
def freeIndirects (p : Nat) : List Nat → State → Option State
  | [], s => some s
  | i :: is, s => do
    let ind := word (s.deref p) i
    let s ← (if ind ≠ 0 then freeIndirect mnt ind s else some s)
    freeIndirects p is s

def freeDouble (b : Nat) (s : State) : Option State := do
  let (p, s) ← readBlock mnt b s
  let s ← (match p with
    | some p => freeIndirects mnt p (List.range (addrsPerBlock mnt)) s
    | none => some s)
  let (_, s) ← freeBlock mnt b s
  return s

/-- The inode without its blocks; `i_block[14]` is not looked at. -/
def emptied (inode : Buf) : Buf :=
  putLE (putLE ((List.range 14).foldl (fun inode i => setIBlock inode i 0) inode) 4 4 0) 28 4 0

def freeFileBlocks (inode : Buf) (s : State) : Option (Buf × State) := do
  let s ← freeDirect mnt inode (List.range 12) s
  let s ← (if iBlock inode 12 ≠ 0 then freeIndirect mnt (iBlock inode 12) s else some s)
  let s ← (if iBlock inode 13 ≠ 0 then freeDouble mnt (iBlock inode 13) s else some s)
  return (emptied inode, s)

def ext2TruncateVfs (ino : Nat) (inode : Buf) (s : State) : Option State := do
  let (inode, s) ← freeFileBlocks mnt inode s
  let (_, s) ← writeInodeDisk mnt ino inode s
  return s

/-- `i_links_count`, decremented. -/
def unlinked (inode : Buf) : Buf :=
  if 0 < getLE inode 26 2 then putLE inode 26 2 (getLE inode 26 2 - 1) else inode

/-- What `ext2Unlink` does with the inode once its entry is gone. -/
def dropLink (ino : Nat) (s : State) : Option State := do
  match ← loadInodeDisk mnt ino s with
  | (none, s) => return s
  | (some inode, s) =>
    if getLE (unlinked inode) 26 2 = 0 then
      let (inode, s) ← freeFileBlocks mnt (unlinked inode) s
      let (_, s) ← writeInodeDisk mnt ino inode s
      let (_, s) ← freeInode mnt ino s
      return s
    else
      let (_, s) ← writeInodeDisk mnt ino (unlinked inode) s
      return s

end Calls

/-! ## The blocks of an inode -/

/-- `S_IFLNK`. -/
def isSymlink (inode : Buf) : Bool := getLE inode 0 2 / 4096 == 0xA

def iSize (inode : Buf) : Nat := getLE inode 4 4

/-- The target is in `i_block`, as `ext2Readlink` takes it. -/
def fastSymlink (inode : Buf) : Bool := isSymlink inode && decide (iSize inode ≤ 60)

/-- `EXTENTS_FL`. -/
def hasExtents (inode : Buf) : Bool := (getLE inode 32 4).testBit 19

/-- `EXTENT_MAGIC`. -/
def extentMagic : Nat := 0xF30A

def words (n : Nat) (buf : Buf) : List Nat := ((List.range n).map (word buf)).filter (· ≠ 0)

section Owned
variable (mnt : Mount) (v : Nat → Buf)

/-- The blocks behind a word of `i_block`, and their mapping blocks, at each level of indirection. -/
def mapped : Nat → Nat → List Nat
  | 0, b => if b = 0 then [] else [b]
  | level + 1, b => if b = 0 then [] else (words (addrsPerBlock mnt) (v b)).flatMap (mapped level) ++ [b]

def extentBlocks : Nat → Buf → List Nat
  | 0, node => (List.range (getLE node 2 2)).flatMap fun i =>
    let len := getLE node (12 + 12 * i + 4) 2
    List.range' (getLE node (12 + 12 * i + 6) 2 * 2 ^ 32 + getLE node (12 + 12 * i + 8) 4)
      (if len ≤ 32768 then len else len - 32768)
  | depth + 1, node => (List.range (getLE node 2 2)).flatMap fun i =>
    let child := getLE node (12 + 12 * i + 8) 2 * 2 ^ 32 + getLE node (12 + 12 * i + 4) 4
    child :: extentBlocks depth (v child)

/-- The node that is in `i_block`. -/
def rootNode (inode : Buf) : Buf := fun i => inode (40 + i)

def owned (inode : Buf) : List Nat :=
  if fastSymlink inode then []
  else if hasExtents inode then extentBlocks v (getLE (rootNode inode) 6 2) (rootNode inode)
  else (List.range 12).flatMap (fun i => mapped mnt v 0 (iBlock inode i)) ++ mapped mnt v 1 (iBlock inode 12) ++
    mapped mnt v 2 (iBlock inode 13) ++ mapped mnt v 3 (iBlock inode 14)

end Owned

/-! ## The bitmaps -/

section Bitmaps
variable (mnt : Mount) (v : Nat → Buf)

def bitmapOf (kind : BitmapKind) (group : Nat) : Nat :=
  getLE (v (descBlock mnt group)) (descOffset mnt group + kind.bitmap) 4

def testBit (buf : Buf) (bit : Nat) : Bool := (buf (bit / 8)).getLsbD (bit % 8)

def groupOf (b : Nat) : Nat := (b - mnt.firstDataBlock) / mnt.blocksPerGroup

def blockInUse (b : Nat) : Bool :=
  testBit (v (bitmapOf mnt v blockBitmap (groupOf mnt b))) ((b - mnt.firstDataBlock) % mnt.blocksPerGroup)

def inodeInUse (ino : Nat) : Bool :=
  testBit (v (bitmapOf mnt v inodeBitmap ((ino - 1) / mnt.inodesPerGroup))) ((ino - 1) % mnt.inodesPerGroup)

/-- `bg_free_blocks_count`. -/
def groupFree (group : Nat) : Nat := getLE (v (descBlock mnt group)) (descOffset mnt group + 12) 2

end Bitmaps

/-- `s_free_blocks_count`. -/
def freeBlocksCount (superblock : Buf) : Nat := getLE superblock 12 4

/-- From the blocks `v` and the superblock `sb` to `v'` and `sb'`, exactly the blocks `bs` are freed, and the inodes
`is`. -/
structure Exact (mnt : Mount) (bs is : List Nat) (v v' : Nat → Buf) (sb sb' : Buf) : Prop where
  blocks : ∀ b, mnt.firstDataBlock ≤ b → groupOf mnt b < mnt.numGroups →
    blockInUse mnt v' b = (blockInUse mnt v b && !bs.contains b)
  inodes : ∀ i, 0 < i → (i - 1) / mnt.inodesPerGroup < mnt.numGroups →
    inodeInUse mnt v' i = (inodeInUse mnt v i && !is.contains i)
  total : freeBlocksCount sb' = freeBlocksCount sb + bs.length
  group : ∀ g, g < mnt.numGroups →
    groupFree mnt v' g = groupFree mnt v g + (bs.filter fun b => groupOf mnt b == g).length

end Zigix.FreeBlocks
