import Zigix.Mm.Vma
import Zigix.Mm.Vmm

/-!
# Processes (`kernel/proc/process.zig`)

The part of a process record that the memory system calls read and write.
-/

namespace Zigix

/-- The error numbers of the memory system calls; a call returns one negated. -/
inductive Errno
  | EBADF
  | ENOMEM
  | EFAULT
  | EINVAL
  deriving DecidableEq

def maxFds : Nat := 1024

structure Process where
  /-- `page_table`, the frame of the PML4 -/
  pageTable : Nat
  heapStart : Nat
  heapCurrent : Nat
  /-- for each descriptor in use, the inode pointer of its file description -/
  fds : Nat → Option Nat
  vmas : Vma.VmaList
  /-- the bump pointer of the top-down `mmap` allocator -/
  mmapHint : Nat

/-- `fdGet`, up to the inode of the description. -/
def Process.fdGet (p : Process) (fd : Nat) : Option Nat := if maxFds ≤ fd then none else p.fds fd

/-- What a memory system call works on. -/
structure Sys where
  machine : Machine
  proc : Process

end Zigix
