import Zigix.Mm.Machine

/-!
# Reading a file through the page cache (`ext2Read` of `kernel/fs/ext2.zig`)

Files and the disk are as they are while nothing writes to them: `getFileBlock` and `readBlock` are functions, and the
block cache between them is not visible.
-/

namespace Zigix.Ext2

open Pmm (pageSize)

structure Disk where
  /-- 1024, 2048 or 4096 -/
  blockSize : Nat
  /-- the bytes of a block; `none` is an I/O error -/
  readBlock : Nat → Option (Nat → BitVec 8)

/-- What the page-fault handler and `ext2Read` see of an inode. -/
structure Inode where
  ino : Nat
  size : Nat
  /-- the disk block of a file block; `none` in a hole -/
  getFileBlock : Nat → Option Nat
  /-- `ops.read` is not null -/
  hasRead : Bool

/-- The first bytes of a frame become `bytes`. -/
def storeBytes (m : Machine) (f off : Nat) : List (BitVec 8) → Machine
  | [] => m
  | b :: bs => storeBytes (m.storeByte f off b) f (off + 1) bs

/-- The bytes `[off, off + n)` of a page. -/
def pageBytes (page : Nat → Pte.Word) (off n : Nat) : List (BitVec 8) :=
  (List.range n).map fun i => Machine.pageByte page (off + i)

def cacheBlock (disk : Disk) (ino fileBlock : Nat) (data : Nat → BitVec 8) (m : Machine) : Machine :=
  match m.allocPage with
  | (none, m) => m
  | (some f, m) => (storeBytes m f 0 ((List.range disk.blockSize).map data)).insert ino fileBlock f

/-- The bytes `[off, off + n)` of a file block: from the page cache, or from the disk into the page cache. A hole
reads as zeros. `none` ends the read. -/
def readChunk (disk : Disk) (inode : Inode) (fileBlock off n : Nat) (m : Machine) :
    Option (List (BitVec 8)) × Machine :=
  match inode.getFileBlock fileBlock with
  | none => (some (List.replicate n 0), m)
  | some physBlock =>
    match m.lookup inode.ino fileBlock with
    | (some f, m) => (some (pageBytes (m.mem f) off n), m)
    | (none, m) =>
      match disk.readBlock physBlock with
      | none => (none, m)
      | some data => (some ((List.range n).map fun i => data (off + i)), cacheBlock disk inode.ino fileBlock data m)

/-- The loop of `ext2Read`; a turn reads at least one byte, so `remaining` turns suffice. -/
def readLoop (disk : Disk) (inode : Inode) : Nat → Nat → Nat → Machine → List (BitVec 8) × Machine
  | 0, _, _, m => ([], m)
  | fuel + 1, offset, remaining, m =>
    if remaining = 0 then ([], m)
    else
      let chunk := min remaining (disk.blockSize - offset % disk.blockSize)
      match readChunk disk inode (offset / disk.blockSize % 2 ^ 32) (offset % disk.blockSize) chunk m with
      | (none, m) => ([], m)
      | (some bytes, m) =>
        let (rest, m) := readLoop disk inode fuel (offset + chunk) (remaining - chunk) m
        (bytes ++ rest, m)

/-- The bytes read at `offset`, at most `count`. -/
def ext2Read (disk : Disk) (inode : Inode) (offset count : Nat) (m : Machine) : List (BitVec 8) × Machine :=
  if inode.size ≤ offset then ([], m)
  else
    let toRead := min count (inode.size - offset)
    readLoop disk inode toRead offset toRead m

end Zigix.Ext2
