import Mathlib.Data.List.Basic
import Mathlib.Logic.Function.Basic
import Zigix.Lib.Bytes
import Zigix.Proc.TimerTick

/-!
# Checked arithmetic in system calls (`kernel/proc/syscall_table.zig`)

The kernel is built with checked arithmetic: a sum, a product or a cast that does not fit its type is a panic, and here
no result. The arguments are registers that the user fills; sizes and offsets of one call are used by another.

* `State.call` : the system calls;
* `no_trap_iff` : a call returns exactly when it is safe; a file whose size `ftruncate` has set cannot be asked for its
  status when the size does not survive rounding up.
-/

namespace Zigix.Traps

open Pmm (addU64 mulU64)

def userSpaceEnd : Nat := 2 ^ 47
def pageSize : Nat := 4096
def maxFds : Nat := 1024

/-- What `desc.inode.fs_data` points to, for a file of the tmpfs. -/
structure TmpfsNode where
  size : UInt64
  dataPages : Option (Nat → Option Nat)

structure Inode where
  ino : UInt64
  mode : UInt32
  size : UInt64
  nlink : UInt32
  uid : UInt16
  gid : UInt16
  fsData : Option TmpfsNode

structure FileDescription where
  inode : Nat
  offset : UInt64
  flags : UInt32
  refCount : UInt32

/-- The kernel, with user memory of type `M`. Descriptions and inodes are known by their address. -/
structure State (M : Type) where
  fds : Nat → Option Nat
  descs : Nat → FileDescription
  inodes : Nat → Inode
  sched : TimerTick.Kernel
  mem : M

structure Env (M : Type) where
  translate : M → Nat → Option Nat
  demandPageUser : M → Nat → Option M
  load : M → Nat → BitVec 8
  /-- store so many bytes of a buffer at a physical address -/
  store : M → Nat → Bytes.Buf → Nat → M
  /-- `vfs.resolve` of the path at the address; the error is what the call returns -/
  resolvePath : State M → Nat → Except Nat Nat
  hasRead : Inode → Bool
  hasWrite : Inode → Bool
  read : State M → Nat → Nat → Nat → Int × State M
  write : State M → Nat → Nat → Nat → Int × State M
  truncate : State M → Nat → State M
  /-- a file operation transfers at most as much as it is asked for -/
  read_le : ∀ s desc ptr count, (read s desc ptr count).1 ≤ count
  write_le : ∀ s desc ptr count, (write s desc ptr count).1 ≤ count
  truncate_fds : ∀ s i, (truncate s i).fds = s.fds
  truncate_descs : ∀ s i, (truncate s i).descs = s.descs

variable {M : Type}

/-- An error as it stands in `rax`. -/
def err (e : Nat) : Nat := 2 ^ 64 - e

def enoent : Nat := err 2
def eio : Nat := err 5
def ebadf : Nat := err 9
def efault : Nat := err 14
def einval : Nat := err 22
def emfile : Nat := err 24
def espipe : Nat := err 29
def eopnotsupp : Nat := err 95

def State.ret (s : State M) (rax : Nat) : State M := { s with sched := s.sched.setRax rax }

def State.setDesc (s : State M) (d : Nat) (f : FileDescription → FileDescription) : State M :=
  { s with descs := Function.update s.descs d (f (s.descs d)) }

def State.setInode (s : State M) (i : Nat) (f : Inode → Inode) : State M :=
  { s with inodes := Function.update s.inodes i (f (s.inodes i)) }

/-- `fdGet`. -/
def State.fdGet (s : State M) (fd : UInt64) : Option Nat := if maxFds ≤ fd.toNat then none else s.fds fd.toNat

def State.inodeOf (s : State M) (d : Nat) : Inode := s.inodes (s.descs d).inode

/-- `validateUserBuffer`. -/
def validateUserBuffer (buf len : Nat) : Bool := buf < userSpaceEnd && buf + len ≤ userSpaceEnd

/-! ## Transfers page by page -/

/-- How a loop goes on after a page: with the next one, behind the loop, or out of the call. -/
inductive Next
  | go
  | stop
  | ret (rax : Nat)

/-- Visit the pages of `remaining` bytes at `addr`. -/
def walk {σ : Type} (visit : Nat → Nat → σ → Option (Next × σ)) : Nat → Nat → Nat → σ → Option (Next × σ)
  | 0, _, _, s => some (.go, s)
  | fuel + 1, addr, remaining, s =>
    if remaining = 0 then some (.go, s)
    else do
      let chunk := min remaining (pageSize - addr % pageSize)
      let (next, s) ← visit addr chunk s
      match next with
      | .go => walk visit fuel (← addU64 addr chunk) (remaining - chunk) s
      | next => some (next, s)

def Env.page (env : Env M) (demand : Bool) (m : M) (addr : Nat) : Option (Nat × M) :=
  match env.translate m addr with
  | some phys => some (phys, m)
  | none =>
    if demand then (env.demandPageUser m addr).bind fun m => (env.translate m addr).map fun phys => (phys, m)
    else none

/-- One page of `copyFromUserRaw`. -/
def Env.fetchPage (env : Env M) (addr chunk : Nat) (s : Nat × Bytes.Buf × M) : Option (Next × Nat × Bytes.Buf × M) :=
  match env.page true s.2.2 addr with
  | none => some (.stop, s)
  | some (phys, m) =>
    let buf : Bytes.Buf := fun i => if s.1 ≤ i ∧ i < s.1 + chunk then env.load m (phys + (i - s.1)) else s.2.1 i
    some (.go, s.1 + chunk, buf, m)

/-- `copyFromUserRaw` : the number of bytes copied, and the buffer. -/
def Env.copyFromUserRaw (env : Env M) (m : M) (addr maxLen : Nat) : Option (Nat × Bytes.Buf × M) :=
  (walk env.fetchPage maxLen addr maxLen (0, fun _ => 0, m)).map Prod.snd

/-- One page of `copyToUser`. -/
def Env.storePage (env : Env M) (data : Bytes.Buf) (addr chunk : Nat) (s : Nat × M) : Option (Next × Nat × M) :=
  match env.page true s.2 addr with
  | none => some (.stop, s)
  | some (phys, m) => some (.go, s.1 + chunk, env.store m phys (fun i => data (s.1 + i)) chunk)

/-- `copyToUser` of the first `len` bytes of a buffer; the result tells whether everything was copied. -/
def Env.copyToUser (env : Env M) (m : M) (addr : Nat) (data : Bytes.Buf) (len : Nat) : Option (Bool × M) :=
  (walk (env.storePage data) len addr len (0, m)).map fun r =>
    match r with
    | (.go, s) => (true, s.2)
    | (_, s) => (false, s.2)

/-- A file operation, what it transfers and how the loop goes on: `after n total chunk`, where `total` counts `n` when
`n` is positive. -/
structure Transfer (M : Type) where
  demand : Bool
  op : State M → Nat → Nat → Nat → Int × State M
  after : Int → Nat → Nat → Next
  op_le : ∀ s desc ptr count, (op s desc ptr count).1 ≤ count

/-- One page of a transfer: `r.1` bytes have been transferred before. -/
def Env.transferPage (env : Env M) (t : Transfer M) (d addr chunk : Nat) (r : Nat × State M) :
    Option (Next × Nat × State M) :=
  match env.page t.demand r.2.mem addr with
  | none => some (.stop, r)
  | some (phys, m) =>
    let n := (t.op { r.2 with mem := m } d phys chunk).1
    let s := (t.op { r.2 with mem := m } d phys chunk).2
    (if n ≤ 0 then some r.1 else addU64 r.1 n.toNat).map fun total => (t.after n total chunk, total, s)

/-- The loop over one buffer. -/
def Env.transfer (env : Env M) (t : Transfer M) (d base len total : Nat) (s : State M) :
    Option (Next × Nat × State M) :=
  walk (env.transferPage t d) len base len (total, s)

/-- The loop over the vector: the entry `i` of `cnt`, `total` bytes have been transferred before. -/
def Env.iovecs (env : Env M) (t : Transfer M) (d iovAddr : Nat) :
    List Nat → Nat → State M → Option (Option Nat × Nat × State M)
  | [], total, s => some (none, total, s)
  | i :: is, total, s => do
    let entry ← addU64 iovAddr (← mulU64 i 16)
    if !validateUserBuffer entry 16 then some (none, total, s)
    else
      let (copied, data, m) ← env.copyFromUserRaw s.mem entry 16
      let s := { s with mem := m }
      if copied < 16 then some (none, total, s)
      else
        let base := Bytes.getLE data 0 8
        let len := Bytes.getLE data 8 8
        if len = 0 then env.iovecs t d iovAddr is total s
        else if !validateUserBuffer base len then some (none, total, s)
        else
          match ← env.transfer t d base (if len > 1048576 then 1048576 else len) total s with
          | (.ret rax, total, s) => some (some rax, total, s)
          | (_, total, s) => env.iovecs t d iovAddr is total s

/-- What the four calls share behind their checks. -/
def Env.vectored (env : Env M) (t : Transfer M) (d : Nat) (iovAddr iovcnt : UInt64) (s : State M) : Option (State M) := do
  let (rax, total, s) ← env.iovecs t d iovAddr.toNat (List.range iovcnt.toNat) 0 s
  return s.ret (rax.getD total)

/-- A read that fails or is short ends `readv`. -/
def Env.readvTransfer (env : Env M) : Transfer M where
  demand := false
  op := env.read
  after n total chunk :=
    if n ≤ 0 then .ret (if total > 0 then total else if n = 0 then 0 else eio)
    else if n < chunk then .ret total
    else .go
  op_le := env.read_le

/-- A write that fails ends the buffer. -/
def Env.writevTransfer (env : Env M) : Transfer M where
  demand := true
  op := env.write
  after n _ _ := if n ≤ 0 then .stop else .go
  op_le := env.write_le

def Env.preadvTransfer (env : Env M) : Transfer M where
  demand := true
  op := env.read
  after n total chunk :=
    if n ≤ 0 then (if total > 0 then .ret total else .stop)
    else if n < chunk then .ret total
    else .go
  op_le := env.read_le

def badCount (iovcnt : UInt64) : Bool := iovcnt.toNat = 0 || iovcnt.toNat > 1024

def Env.sysReadv (env : Env M) (s : State M) (fd iovAddr iovcnt : UInt64) : Option (State M) :=
  if badCount iovcnt then some (s.ret einval)
  else
    match s.fdGet fd with
    | none => some (s.ret ebadf)
    | some d =>
      if !env.hasRead (s.inodeOf d) then some (s.ret ebadf)
      else env.vectored env.readvTransfer d iovAddr iovcnt s

def Env.sysWritev (env : Env M) (s : State M) (fd iovAddr iovcnt : UInt64) : Option (State M) :=
  if badCount iovcnt then some (s.ret einval)
  else
    match s.fdGet fd with
    | none => some (s.ret ebadf)
    | some d =>
      if !env.hasWrite (s.inodeOf d) then some (s.ret ebadf)
      else env.vectored env.writevTransfer d iovAddr iovcnt s

/-- `mode & S_IFMT == S_IFREG`. -/
def Inode.regular (i : Inode) : Bool := i.mode &&& 0o170000 = 0o100000

def Env.positional (env : Env M) (t : Transfer M) (d : Nat) (iovAddr iovcnt offset : UInt64) (s : State M) :
    Option (State M) := do
  let saved := (s.descs d).offset
  let s ← env.vectored t d iovAddr iovcnt (s.setDesc d fun desc => { desc with offset := offset })
  return s.setDesc d fun desc => { desc with offset := saved }

def Env.sysPwritev (env : Env M) (s : State M) (fd iovAddr iovcnt offset : UInt64) : Option (State M) :=
  if badCount iovcnt then some (s.ret einval)
  else
    match s.fdGet fd with
    | none => some (s.ret ebadf)
    | some d =>
      if !(s.inodeOf d).regular then some (s.ret espipe)
      else if !env.hasWrite (s.inodeOf d) then some (s.ret ebadf)
      else env.positional env.writevTransfer d iovAddr iovcnt offset s

def Env.sysPreadv (env : Env M) (s : State M) (fd iovAddr iovcnt offset : UInt64) : Option (State M) :=
  if badCount iovcnt then some (s.ret einval)
  else
    match s.fdGet fd with
    | none => some (s.ret ebadf)
    | some d =>
      if !(s.inodeOf d).regular then some (s.ret espipe)
      else if !env.hasRead (s.inodeOf d) then some (s.ret ebadf)
      else env.positional env.preadvTransfer d iovAddr iovcnt offset s

/-! ## Sizes and offsets -/

/-- `@intCast` of a `u64` to an `i64`. -/
def toI64 (n : UInt64) : Option Int := if n.toNat < 2 ^ 63 then some n.toNat else none

/-- `a + b` in `i64`, or a panic. -/
def addI64 (a b : Int) : Option Int := if -2 ^ 63 ≤ a + b ∧ a + b < 2 ^ 63 then some (a + b) else none

/-- The bits of a register as an `i64`. -/
def asI64 (r : UInt64) : Int := r.toBitVec.toInt

/-- `sysLseek`. -/
def sysLseek (s : State M) (fd offset whence : UInt64) : Option (State M) :=
  match s.fdGet fd with
  | none => some (s.ret ebadf)
  | some d =>
    let seek (newOff : Int) : State M :=
      if newOff < 0 then s.ret einval
      else (s.setDesc d fun desc => { desc with offset := .ofNat newOff.toNat }).ret newOff.toNat
    match whence.toNat % 2 ^ 32 with
    | 0 => some (seek (asI64 offset))
    | 1 => do return seek (← addI64 (← toI64 (s.descs d).offset) (asI64 offset))
    | 2 => do return seek (← addI64 (← toI64 (s.inodeOf d).size) (asI64 offset))
    | _ => some (s.ret einval)

/-- `sysFtruncate`. -/
def Env.sysFtruncate (env : Env M) (s : State M) (fd length : UInt64) : Option (State M) :=
  match s.fdGet fd with
  | none => some (s.ret ebadf)
  | some d =>
    let s := if length = 0 then env.truncate s (s.descs d).inode else s
    some ((s.setInode (s.descs d).inode fun i => { i with size := length }).ret 0)

structure Stat where
  ino : UInt64
  mode : UInt32
  nlink : UInt32
  size : UInt64
  uid : UInt32
  gid : UInt32

def statFromInode (i : Inode) : Stat := ⟨i.ino, i.mode, i.nlink, i.size, i.uid.toUInt32, i.gid.toUInt32⟩

/-- `(size + 511) / 512`. -/
def blocks (size : UInt64) : Option Nat := (addU64 size.toNat 511).map (· / 512)

/-- `packStat` : the 144 bytes of a `struct stat`. -/
def packStat (st : Stat) : Option Bytes.Buf := do
  let buf := Bytes.putLE (fun _ => 0) 8 8 st.ino.toNat
  let buf := Bytes.putLE buf 16 8 st.nlink.toNat
  let buf := Bytes.putLE buf 24 4 st.mode.toNat
  let buf := Bytes.putLE buf 28 4 st.uid.toNat
  let buf := Bytes.putLE buf 32 4 st.gid.toNat
  let buf := Bytes.putLE buf 48 8 st.size.toNat
  let buf := Bytes.putLE buf 56 8 4096
  return Bytes.putLE buf 64 8 (← blocks st.size)

/-- The buffer of a call goes to the user. -/
def Env.answer (env : Env M) (s : State M) (bufAddr : UInt64) (buf : Bytes.Buf) (len : Nat) : Option (State M) := do
  let (copied, m) ← env.copyToUser s.mem bufAddr.toNat buf len
  return { s with mem := m }.ret (if copied then 0 else efault)

/-- `sysFstat`. -/
def Env.sysFstat (env : Env M) (s : State M) (fd bufAddr : UInt64) : Option (State M) :=
  if !validateUserBuffer bufAddr.toNat 144 then some (s.ret efault)
  else
    match s.fdGet fd with
    | none => some (s.ret ebadf)
    | some d => do env.answer s bufAddr (← packStat (statFromInode (s.inodeOf d))) 144

/-- The 256 bytes of a `struct statx`. -/
def packStatx (i : Inode) : Option Bytes.Buf := do
  let buf := Bytes.putLE (fun _ => 0) 0 4 0x7FF
  let buf := Bytes.putLE buf 4 4 4096
  let buf := Bytes.putLE buf 16 4 i.nlink.toNat
  let buf := Bytes.putLE buf 20 4 i.uid.toNat
  let buf := Bytes.putLE buf 24 4 i.gid.toNat
  let buf := Bytes.putLE buf 28 2 i.mode.toNat
  let buf := Bytes.putLE buf 32 8 i.ino.toNat
  let buf := Bytes.putLE buf 40 8 i.size.toNat
  return Bytes.putLE buf 48 8 (← blocks i.size)

/-- The inode that `sysStatx` is asked about, or the error it returns. -/
def Env.statxInode (env : Env M) (s : State M) (dirfd pathAddr flags : UInt64) : Except Nat Inode :=
  -- `AT_EMPTY_PATH`
  if (flags.toNat % 2 ^ 32).testBit 12 then
    match s.fdGet dirfd with
    | none => .error ebadf
    | some d => .ok (s.inodeOf d)
  else if !validateUserBuffer pathAddr.toNat 1 then .error efault
  else (env.resolvePath s pathAddr.toNat).map s.inodes

/-- `sysStatx`. -/
def Env.sysStatx (env : Env M) (s : State M) (dirfd pathAddr flags bufAddr : UInt64) : Option (State M) :=
  match env.statxInode s dirfd pathAddr flags with
  | .error e => some (s.ret e)
  | .ok i =>
    if !validateUserBuffer bufAddr.toNat 256 then some (s.ret efault)
    else do env.answer s bufAddr (← packStatx i) 256

/-- The descriptor of `sysFallocate` : the low half of the register, with its sign. -/
def State.fallocateDesc (s : State M) (fd : UInt64) : Option Nat :=
  let fdNum := (BitVec.ofNat 32 fd.toNat).toInt
  if fdNum < 0 ∨ maxFds ≤ fdNum.toNat then none else s.fds fdNum.toNat

def Inode.tmpfs (i : Inode) : Option TmpfsNode := if 0x20000 ≤ i.ino.toNat then i.fsData else none

/-- The size of the file becomes at least `newSize`. -/
def Inode.extend (i : Inode) (newSize : Nat) : Inode :=
  if newSize > i.size.toNat then
    { i with
      size := .ofNat newSize
      fsData := match i.tmpfs with
        | some node => some { node with size := .ofNat newSize }
        | none => i.fsData }
  else i

def Env.punchPage (env : Env M) (node : TmpfsNode) (pos chunk : Nat) (m : M) : Option (Next × M) :=
  let page := node.dataPages.bind fun pages => if pos / pageSize < 4096 then pages (pos / pageSize) else none
  match page with
  | some phys => some (.go, env.store m (phys + pos % pageSize) (fun _ => 0) chunk)
  | none => some (.go, m)

/-- `FALLOC_FL_PUNCH_HOLE` and `FALLOC_FL_KEEP_SIZE`. -/
def punchHole (mode : UInt64) : Bool := mode.toNat.testBit 1 && mode.toNat.testBit 0

/-- `sysFallocate`. -/
def Env.sysFallocate (env : Env M) (s : State M) (fd mode offset len : UInt64) : Option (State M) :=
  match s.fallocateDesc fd with
  | none => some (s.ret ebadf)
  | some d =>
    if mode.toNat % 2 ^ 32 = 0 then do
      let newSize ← addU64 offset.toNat len.toNat
      return (s.setInode (s.descs d).inode fun i => i.extend newSize).ret 0
    else if punchHole mode then do
      let stop ← addU64 offset.toNat len.toNat
      match (s.inodeOf d).tmpfs with
      | some node =>
        let len := stop - offset.toNat
        let (_, m) ← walk (env.punchPage node) len offset.toNat len s.mem
        return { s with mem := m }.ret 0
      | none => return s.ret eopnotsupp
    else some (s.ret eopnotsupp)

/-! ## Descriptors and time -/

/-- `ref_count += 1`, and the lowest free descriptor from `minFd` on; a range that starts behind its end is a panic. -/
def dupFrom (s : State M) (d minFd : Nat) : Option (State M) :=
  if (s.descs d).refCount.toNat + 1 < 2 ^ 32 then
    if minFd ≤ maxFds then
      match (List.range' minFd (maxFds - minFd)).find? fun i => (s.fds i).isNone with
      | some i =>
        some ({ s.setDesc d fun desc => { desc with refCount := desc.refCount + 1 } with
          fds := Function.update s.fds i (some d) }.ret i)
      -- the count goes back
      | none => some (s.ret emfile)
    else none
  else none

/-- `sysDup`. -/
def sysDup (s : State M) (oldfd : UInt64) : Option (State M) :=
  match s.fdGet oldfd with
  | none => some (s.ret ebadf)
  | some d => dupFrom s d 0

/-- `sysFcntl` with `F_DUPFD` or `F_DUPFD_CLOEXEC`. -/
def sysFcntlDup (s : State M) (fd arg : UInt64) : Option (State M) :=
  match s.fdGet fd with
  | none => some (s.ret ebadf)
  | some d => dupFrom s d arg.toNat

/-- The `timespec` that the user asks for, if it can be read. -/
def Env.timespec (env : Env M) (s : State M) (reqAddr : UInt64) : Option (Option (Nat × Nat) × M) :=
  if !validateUserBuffer reqAddr.toNat 16 then some (none, s.mem)
  else do
    let (copied, data, m) ← env.copyFromUserRaw s.mem reqAddr.toNat 16
    return (if copied < 16 then none else some (Bytes.getLE data 0 8, Bytes.getLE data 8 8), m)

/-- `sysNanosleep`. -/
def Env.sysNanosleep (env : Env M) (s : State M) (reqAddr : UInt64) : Option (State M) := do
  let (req, m) ← env.timespec s reqAddr
  let k ← TimerTick.sysNanosleep s.sched req
  return { s with mem := m, sched := k }

/-! ## The calls -/

inductive Call
  | nanosleep (req : UInt64)
  | fallocate (fd mode offset len : UInt64)
  | readv (fd iov iovcnt : UInt64)
  | writev (fd iov iovcnt : UInt64)
  | pwritev (fd iov iovcnt offset : UInt64)
  | preadv (fd iov iovcnt offset : UInt64)
  | lseek (fd offset whence : UInt64)
  | statx (dirfd path flags buf : UInt64)
  | fstat (fd buf : UInt64)
  | ftruncate (fd length : UInt64)
  | dup (oldfd : UInt64)
  | fcntlDup (fd arg : UInt64)

def Env.call (env : Env M) (s : State M) : Call → Option (State M)
  | .nanosleep req => env.sysNanosleep s req
  | .fallocate fd mode offset len => env.sysFallocate s fd mode offset len
  | .readv fd iov iovcnt => env.sysReadv s fd iov iovcnt
  | .writev fd iov iovcnt => env.sysWritev s fd iov iovcnt
  | .pwritev fd iov iovcnt offset => env.sysPwritev s fd iov iovcnt offset
  | .preadv fd iov iovcnt offset => env.sysPreadv s fd iov iovcnt offset
  | .lseek fd offset whence => sysLseek s fd offset whence
  | .statx dirfd path flags buf => env.sysStatx s dirfd path flags buf
  | .fstat fd buf => env.sysFstat s fd buf
  | .ftruncate fd length => env.sysFtruncate s fd length
  | .dup oldfd => sysDup s oldfd
  | .fcntlDup fd arg => sysFcntlDup s fd arg

def Inode.Rounds (i : Inode) : Prop := i.size.toNat + 511 < 2 ^ 64

def Env.Safe (env : Env M) (s : State M) : Call → Prop
  | .nanosleep req => ∀ sec nsec m idx p, env.timespec s req = some (some (sec, nsec), m) →
    s.sched.cur = some idx → s.sched.procs idx = some p → sec * 100 + nsec / 10000000 ≠ 0 →
      s.sched.tick + (sec * 100 + nsec / 10000000) < 2 ^ 64 ∧ 2 ≤ s.sched.frame.rip
  | .fallocate fd mode offset len => (s.fallocateDesc fd).isSome → mode.toNat % 2 ^ 32 = 0 ∨ punchHole mode = true →
    offset.toNat + len.toNat < 2 ^ 64
  | .lseek fd offset whence => ∀ d, s.fdGet fd = some d →
    (whence.toNat % 2 ^ 32 = 1 →
      (s.descs d).offset.toNat < 2 ^ 63 ∧ (s.descs d).offset.toNat + asI64 offset < 2 ^ 63) ∧
    (whence.toNat % 2 ^ 32 = 2 →
      (s.inodeOf d).size.toNat < 2 ^ 63 ∧ (s.inodeOf d).size.toNat + asI64 offset < 2 ^ 63)
  | .statx dirfd path flags buf => ∀ i, env.statxInode s dirfd path flags = .ok i →
    validateUserBuffer buf.toNat 256 = true → i.Rounds
  | .fstat fd buf => ∀ d, s.fdGet fd = some d → validateUserBuffer buf.toNat 144 = true → (s.inodeOf d).Rounds
  | .dup oldfd => ∀ d, s.fdGet oldfd = some d → (s.descs d).refCount.toNat + 1 < 2 ^ 32
  | .fcntlDup fd arg => ∀ d, s.fdGet fd = some d → (s.descs d).refCount.toNat + 1 < 2 ^ 32 ∧ arg.toNat ≤ maxFds
  | .readv .. | .writev .. | .pwritev .. | .preadv .. | .ftruncate .. => True

/-! ## The transfers return -/

section Transfers
variable (env : Env M)

theorem addU64_returns {a b : Nat} (h : a + b < 2 ^ 64) : addU64 a b = some (a + b) := if_pos h

theorem isSome_addU64 {a b : Nat} : (addU64 a b).isSome ↔ a + b < 2 ^ 64 := by
  unfold addU64
  split
  case isTrue h => exact ⟨fun _ => h, fun _ => rfl⟩
  case isFalse h => exact ⟨fun hs => (by cases hs), fun hlt => (h hlt).elim⟩

theorem validateUserBuffer_le {buf len : Nat} (h : validateUserBuffer buf len = true) : buf + len ≤ 2 ^ 47 := by
  simp only [validateUserBuffer, Bool.and_eq_true, decide_eq_true_eq] at h
  exact h.2

/-- **The loop over the pages** returns when the turns do; `P` is known of what remains and of the state. -/
theorem walk_returns {σ : Type} (visit : Nat → Nat → σ → Option (Next × σ)) (P : Nat → σ → Prop)
    (hvisit : ∀ addr chunk remaining s, chunk ≤ remaining → P remaining s →
      ∃ r, visit addr chunk s = some r ∧ P (remaining - chunk) r.2) :
    ∀ fuel addr remaining s, addr + remaining < 2 ^ 64 → P remaining s →
      ∃ r k, walk visit fuel addr remaining s = some r ∧ P k r.2
  | 0, _, remaining, s, _, hP => ⟨(.go, s), remaining, rfl, hP⟩
  | fuel + 1, addr, remaining, s, haddr, hP => by
    rw [walk]
    split
    · exact ⟨(.go, s), remaining, rfl, hP⟩
    have hle : min remaining (pageSize - addr % pageSize) ≤ remaining := Nat.min_le_left ..
    obtain ⟨⟨next, s'⟩, hr, hP'⟩ := hvisit addr _ remaining s hle hP
    simp only [hr, Option.bind_eq_bind, Option.bind_some]
    cases next with
    | go =>
      rw [addU64_returns (by omega), Option.bind_some]
      exact walk_returns visit P hvisit fuel _ _ s' (by omega) hP'
    | stop => exact ⟨_, _, rfl, hP'⟩
    | ret rax => exact ⟨_, _, rfl, hP'⟩

theorem copyFromUserRaw_returns (m : M) {addr len : Nat} (h : addr + len < 2 ^ 64) :
    ∃ r, env.copyFromUserRaw m addr len = some r := by
  obtain ⟨r, -, hr, -⟩ := walk_returns env.fetchPage (fun _ _ => True)
    (fun addr chunk _ s _ _ => by unfold Env.fetchPage; cases env.page true s.2.2 addr <;> simp)
    len addr len (0, fun _ => 0, m) h trivial
  exact ⟨r.2, by rw [Env.copyFromUserRaw, hr, Option.map_some]⟩

theorem copyToUser_returns (m : M) {addr len : Nat} (data : Bytes.Buf) (h : addr + len < 2 ^ 64) :
    ∃ r, env.copyToUser m addr data len = some r := by
  obtain ⟨r, -, hr, -⟩ := walk_returns (env.storePage data) (fun _ _ => True)
    (fun addr chunk _ s _ _ => by unfold Env.storePage; cases env.page true s.2 addr <;> simp)
    len addr len (0, m) h trivial
  exact ⟨_, by rw [Env.copyToUser, hr, Option.map_some]⟩

theorem punch_returns (node : TmpfsNode) (m : M) {offset len : Nat} (h : offset + len < 2 ^ 64) :
    ∃ r, walk (env.punchPage node) len offset len m = some r := by
  obtain ⟨r, -, hr, -⟩ := walk_returns (env.punchPage node) (fun _ _ => True)
    (fun pos chunk _ m _ _ => by unfold Env.punchPage; dsimp only; split <;> simp) len offset len m h trivial
  exact ⟨r, hr⟩

theorem transferPage_returns (t : Transfer M) (d addr chunk bound remaining : Nat) (r : Nat × State M)
    (hchunk : chunk ≤ remaining) (hbound : bound < 2 ^ 64) (hr : r.1 + remaining ≤ bound) :
    ∃ r', env.transferPage t d addr chunk r = some r' ∧ r'.2.1 + (remaining - chunk) ≤ bound := by
  unfold Env.transferPage
  cases env.page t.demand r.2.mem addr with
  | none => exact ⟨_, rfl, by simp only; omega⟩
  | some x =>
    have hle := t.op_le { r.2 with mem := x.2 } d x.1 chunk
    dsimp only at hle ⊢
    generalize t.op { r.2 with mem := x.2 } d x.1 chunk = n at hle ⊢
    split
    · exact ⟨_, rfl, by simp only; omega⟩
    · rw [addU64_returns (by omega)]
      exact ⟨_, rfl, by simp only; omega⟩

theorem transfer_returns (t : Transfer M) (d : Nat) {base len total bound : Nat} (s : State M) (h : base + len < 2 ^ 64)
    (htotal : total + len ≤ bound) (hbound : bound < 2 ^ 64) :
    ∃ r, env.transfer t d base len total s = some r ∧ r.2.1 ≤ bound := by
  obtain ⟨r, k, hr, hk⟩ := walk_returns (env.transferPage t d)
    (fun remaining (r : Nat × State M) => r.1 + remaining ≤ bound)
    (fun addr chunk remaining r hchunk hr => transferPage_returns env t d addr chunk bound remaining r hchunk hbound hr)
    len base len (total, s) h htotal
  exact ⟨r, hr, by omega⟩

def maxEntry : Nat := 1048576

theorem iovecs_returns (t : Transfer M) (d iovAddr : Nat) : ∀ n k total (s : State M), k + n ≤ 1024 →
    iovAddr + k * 16 < 2 ^ 64 → total ≤ k * maxEntry → ∃ r, env.iovecs t d iovAddr (List.range' k n) total s = some r
  | 0, _, total, s, _, _, _ => ⟨(none, total, s), rfl⟩
  | n + 1, k, total, s, hk, haddr, htotal => by
    rw [List.range'_succ, Env.iovecs]
    have hmul : mulU64 k 16 = some (k * 16) := if_pos (by omega)
    simp only [hmul, Option.bind_eq_bind, Option.bind_some, addU64_returns haddr]
    split
    · exact ⟨_, rfl⟩
    rename_i hvalid
    -- the entry lies in user space, so the next one does not overflow
    have hentry := validateUserBuffer_le (by simpa using hvalid)
    obtain ⟨⟨copied, data, m⟩, hcopy⟩ := copyFromUserRaw_returns env s.mem (show iovAddr + k * 16 + 16 < 2 ^ 64 by omega)
    simp only [hcopy, Option.bind_some]
    split
    · exact ⟨_, rfl⟩
    split
    · exact iovecs_returns t d iovAddr n (k + 1) total _ (by omega) (by omega) (by rw [Nat.succ_mul]; omega)
    split
    · exact ⟨_, rfl⟩
    rename_i hvalid'
    have hbase := validateUserBuffer_le (by simpa using hvalid')
    have hlen : ∃ len, (if Bytes.getLE data 8 8 > 1048576 then 1048576 else Bytes.getLE data 8 8) = len ∧
        len ≤ maxEntry ∧ len ≤ Bytes.getLE data 8 8 := by
      refine ⟨_, rfl, ?_⟩
      unfold maxEntry
      split <;> omega
    obtain ⟨len, hlen, hmax, hle⟩ := hlen
    have hsum : total + len ≤ (k + 1) * maxEntry := by
      rw [Nat.succ_mul]
      omega
    have hsmall : (k + 1) * maxEntry < 2 ^ 64 := by
      unfold maxEntry
      omega
    obtain ⟨⟨next, total', s'⟩, htransfer, hbound⟩ := transfer_returns env t d { s with mem := m }
      (show Bytes.getLE data 0 8 + len < 2 ^ 64 by omega) hsum hsmall
    rw [hlen]
    simp only [htransfer, Option.bind_some]
    cases next with
    | ret rax => exact ⟨_, rfl⟩
    | go => exact iovecs_returns t d iovAddr n (k + 1) total' s' (by omega) (by omega) hbound
    | stop => exact iovecs_returns t d iovAddr n (k + 1) total' s' (by omega) (by omega) hbound

theorem vectored_returns (t : Transfer M) (d : Nat) (iovAddr iovcnt : UInt64) (s : State M)
    (hcnt : ¬ badCount iovcnt = true) : (env.vectored t d iovAddr iovcnt s).isSome := by
  have hcnt : iovcnt.toNat ≤ 1024 := by
    simp only [badCount, Bool.or_eq_true, decide_eq_true_eq, not_or] at hcnt
    omega
  obtain ⟨r, hr⟩ := iovecs_returns env t d iovAddr.toNat iovcnt.toNat 0 0 s (by omega)
    (by have := iovAddr.toNat_lt; omega) (by omega)
  unfold Env.vectored
  rw [List.range_eq_range', hr]
  rfl

end Transfers

/-! ## When a call returns -/

section Calls
variable (env : Env M) (s : State M)

theorem sysReadv_isSome (fd iovAddr iovcnt : UInt64) : (env.sysReadv s fd iovAddr iovcnt).isSome := by
  unfold Env.sysReadv
  split
  · rfl
  rename_i hcnt
  split
  · rfl
  split
  · rfl
  · exact vectored_returns env _ _ _ _ _ hcnt

theorem sysWritev_isSome (fd iovAddr iovcnt : UInt64) : (env.sysWritev s fd iovAddr iovcnt).isSome := by
  unfold Env.sysWritev
  split
  · rfl
  rename_i hcnt
  split
  · rfl
  split
  · rfl
  · exact vectored_returns env _ _ _ _ _ hcnt

theorem positional_isSome (t : Transfer M) (d : Nat) (iovAddr iovcnt offset : UInt64) (hcnt : ¬ badCount iovcnt = true) :
    (env.positional t d iovAddr iovcnt offset s).isSome := by
  obtain ⟨s', hs'⟩ := Option.isSome_iff_exists.1
    (vectored_returns env t d iovAddr iovcnt (s.setDesc d fun desc => { desc with offset := offset }) hcnt)
  unfold Env.positional
  simp [hs']

theorem sysPwritev_isSome (fd iovAddr iovcnt offset : UInt64) :
    (env.sysPwritev s fd iovAddr iovcnt offset).isSome := by
  unfold Env.sysPwritev
  split
  · rfl
  rename_i hcnt
  split
  · rfl
  split
  · rfl
  split
  · rfl
  · exact positional_isSome env s _ _ _ _ _ hcnt

theorem sysPreadv_isSome (fd iovAddr iovcnt offset : UInt64) :
    (env.sysPreadv s fd iovAddr iovcnt offset).isSome := by
  unfold Env.sysPreadv
  split
  · rfl
  rename_i hcnt
  split
  · rfl
  split
  · rfl
  split
  · rfl
  · exact positional_isSome env s _ _ _ _ _ hcnt

/-- A sum with an offset fits exactly when it is not too large: from below it always fits. -/
theorem seek_isSome (n offset : UInt64) (f : Int → State M) :
    (do return f (← addI64 (← toI64 n) (asI64 offset)) : Option (State M)).isSome ↔
      n.toNat < 2 ^ 63 ∧ n.toNat + asI64 offset < 2 ^ 63 := by
  have hlow : -2 ^ 63 ≤ asI64 offset := BitVec.le_toInt offset.toBitVec
  by_cases hn : n.toNat < 2 ^ 63
  · have hcast : toI64 n = some (n.toNat : Int) := if_pos hn
    simp only [hcast, Option.bind_eq_bind, Option.bind_some]
    by_cases hsum : n.toNat + asI64 offset < 2 ^ 63
    · have hadd : addI64 n.toNat (asI64 offset) = some (n.toNat + asI64 offset) := if_pos ⟨by omega, hsum⟩
      rw [hadd]
      exact ⟨fun _ => ⟨hn, hsum⟩, fun _ => rfl⟩
    · have hadd : addI64 n.toNat (asI64 offset) = none := if_neg fun h => hsum h.2
      rw [hadd]
      exact ⟨fun h => (by cases h), fun h => (hsum h.2).elim⟩
  · have hcast : toI64 n = none := if_neg hn
    rw [hcast]
    exact ⟨fun h => (by cases h), fun h => (hn h.1).elim⟩

theorem sysLseek_isSome (fd offset whence : UInt64) :
    (sysLseek s fd offset whence).isSome ↔ env.Safe s (.lseek fd offset whence) := by
  rw [Env.Safe]
  unfold sysLseek
  cases hd : s.fdGet fd with
  | none => simp
  | some d =>
    dsimp only
    generalize whence.toNat % 2 ^ 32 = w
    split
    case h_1 => simp
    case h_2 =>
      rw [seek_isSome]
      simp
    case h_3 =>
      rw [seek_isSome]
      simp
    case h_4 h₁ h₂ => exact ⟨fun _ _ _ => ⟨fun h => (h₁ h).elim, fun h => (h₂ h).elim⟩, fun _ => rfl⟩

theorem blocks_isSome (size : UInt64) : (blocks size).isSome ↔ size.toNat + 511 < 2 ^ 64 := by
  unfold blocks
  rw [Option.isSome_map, isSome_addU64]

theorem answer_isSome (bufAddr : UInt64) (buf : Bytes.Buf) {len : Nat}
    (hvalid : validateUserBuffer bufAddr.toNat len = true) : (env.answer s bufAddr buf len).isSome := by
  have hle := validateUserBuffer_le hvalid
  obtain ⟨r, hr⟩ := copyToUser_returns env s.mem buf (show bufAddr.toNat + len < 2 ^ 64 by omega)
  unfold Env.answer
  simp [hr]

theorem packStat_isSome (i : Inode) : (packStat (statFromInode i)).isSome ↔ i.Rounds := by
  unfold packStat statFromInode Inode.Rounds
  rw [← blocks_isSome]
  cases blocks i.size <;> simp

theorem packStatx_isSome (i : Inode) : (packStatx i).isSome ↔ i.Rounds := by
  unfold packStatx Inode.Rounds
  rw [← blocks_isSome]
  cases blocks i.size <;> simp

theorem packed_isSome (buf : Option Bytes.Buf) {bufAddr : UInt64} {len : Nat}
    (hvalid : validateUserBuffer bufAddr.toNat len = true) :
    (buf.bind fun b => env.answer s bufAddr b len).isSome ↔ buf.isSome := by
  cases buf with
  | none => rfl
  | some b => exact ⟨fun _ => rfl, fun _ => answer_isSome env s bufAddr b hvalid⟩

theorem sysFstat_isSome (fd bufAddr : UInt64) :
    (env.sysFstat s fd bufAddr).isSome ↔ env.Safe s (.fstat fd bufAddr) := by
  rw [Env.Safe]
  unfold Env.sysFstat
  by_cases hvalid : validateUserBuffer bufAddr.toNat 144 = true
  · cases hd : s.fdGet fd with
    | none => simp [hvalid]
    | some d =>
      have hpack := packed_isSome env s (packStat (statFromInode (s.inodeOf d))) hvalid
      rw [packStat_isSome] at hpack
      simpa [hvalid] using hpack
  · simp [hvalid]

theorem sysStatx_isSome (dirfd path flags bufAddr : UInt64) :
    (env.sysStatx s dirfd path flags bufAddr).isSome ↔ env.Safe s (.statx dirfd path flags bufAddr) := by
  rw [Env.Safe]
  unfold Env.sysStatx
  cases hi : env.statxInode s dirfd path flags with
  | error e => simp
  | ok i =>
    by_cases hvalid : validateUserBuffer bufAddr.toNat 256 = true
    · have hpack := packed_isSome env s (packStatx i) hvalid
      rw [packStatx_isSome] at hpack
      simpa [hvalid] using hpack
    · simp [hvalid]

theorem sysFallocate_isSome (fd mode offset len : UInt64) :
    (env.sysFallocate s fd mode offset len).isSome ↔ env.Safe s (.fallocate fd mode offset len) := by
  rw [Env.Safe]
  unfold Env.sysFallocate
  cases hd : s.fallocateDesc fd with
  | none => simp
  | some d =>
    dsimp only
    by_cases hsum : offset.toNat + len.toNat < 2 ^ 64
    · have hadd := addU64_returns hsum
      obtain ⟨r, hr⟩ := punch_returns env ((s.inodeOf d).tmpfs.getD ⟨0, none⟩) s.mem hsum
      simp only [hadd, hsum, implies_true, iff_true]
      split
      · rfl
      split
      · cases htmpfs : (s.inodeOf d).tmpfs with
        | none => rfl
        | some node =>
          rw [htmpfs, Option.getD_some] at hr
          simp [hr]
      · rfl
    · have hadd : addU64 offset.toNat len.toNat = none := if_neg hsum
      simp only [hadd, hsum, Option.isSome_some, true_implies, imp_false, not_or]
      split
      case isTrue hmode => exact ⟨fun h => (by cases h), fun h => (h.1 hmode).elim⟩
      case isFalse hmode =>
        split
        case isTrue hpunch => exact ⟨fun h => (by cases h), fun h => (h.2 hpunch).elim⟩
        case isFalse hpunch => exact ⟨fun _ => ⟨hmode, hpunch⟩, fun _ => rfl⟩

theorem dupFrom_isSome (d minFd : Nat) :
    (dupFrom s d minFd).isSome ↔ (s.descs d).refCount.toNat + 1 < 2 ^ 32 ∧ minFd ≤ maxFds := by
  unfold dupFrom
  split
  case isFalse hcount => exact ⟨fun h => (by cases h), fun h => (hcount h.1).elim⟩
  case isTrue hcount =>
    split
    case isFalse hmin => exact ⟨fun h => (by cases h), fun h => (hmin h.2).elim⟩
    case isTrue hmin =>
      refine ⟨fun _ => ⟨hcount, hmin⟩, fun _ => ?_⟩
      split <;> rfl

theorem timespec_returns (reqAddr : UInt64) : ∃ r, env.timespec s reqAddr = some r := by
  unfold Env.timespec
  split
  · exact ⟨_, rfl⟩
  rename_i hvalid
  have hle := validateUserBuffer_le (by simpa using hvalid)
  obtain ⟨r, hr⟩ := copyFromUserRaw_returns env s.mem (show reqAddr.toNat + 16 < 2 ^ 64 by omega)
  simp [hr]

theorem sleep_isSome (k : TimerTick.Kernel) (sec nsec : Nat) {idx : Nat} {p : TimerTick.Process} (hcur : k.cur = some idx)
    (hp : k.procs idx = some p) : (TimerTick.sysNanosleep k (some (sec, nsec))).isSome ↔
      (sec * 100 + nsec / 10000000 ≠ 0 →
        k.tick + (sec * 100 + nsec / 10000000) < 2 ^ 64 ∧ 2 ≤ k.frame.rip) := by
  unfold TimerTick.sysNanosleep
  simp only [hcur, hp]
  by_cases hmul : sec * 100 < 2 ^ 64
  · have hm : mulU64 sec 100 = some (sec * 100) := if_pos hmul
    simp only [hm, Option.bind_eq_bind, Option.bind_some]
    by_cases hsum : sec * 100 + nsec / 10000000 < 2 ^ 64
    · rw [addU64_returns hsum, Option.bind_some]
      split
      case isTrue hzero => exact ⟨fun _ h => (h hzero).elim, fun _ => rfl⟩
      case isFalse hzero =>
        by_cases htick : k.tick + (sec * 100 + nsec / 10000000) < 2 ^ 64
        · rw [addU64_returns htick, Option.bind_some]
          split
          case isTrue hrip => exact ⟨fun h => (by cases h), fun h => absurd hrip (Nat.not_lt.2 (h hzero).2)⟩
          case isFalse hrip => exact ⟨fun _ _ => ⟨htick, Nat.le_of_not_lt hrip⟩, fun _ => rfl⟩
        · have hnone : addU64 k.tick (sec * 100 + nsec / 10000000) = none := if_neg htick
          rw [hnone]
          exact ⟨fun h => (by cases h), fun h => (htick (h hzero).1).elim⟩
    · have hnone : addU64 (sec * 100) (nsec / 10000000) = none := if_neg hsum
      rw [hnone]
      exact ⟨fun h => (by cases h), fun h => by have := (h (by omega)).1; omega⟩
  · have hm : mulU64 sec 100 = none := if_neg hmul
    rw [hm]
    exact ⟨fun h => (by cases h), fun h => by have := (h (by omega)).1; omega⟩

theorem sysNanosleep_isSome (req : UInt64) : (env.sysNanosleep s req).isSome ↔ env.Safe s (.nanosleep req) := by
  obtain ⟨⟨ts, m⟩, hts⟩ := timespec_returns env s req
  have hcall : (env.sysNanosleep s req).isSome ↔ (TimerTick.sysNanosleep s.sched ts).isSome := by
    unfold Env.sysNanosleep
    simp only [hts, Option.bind_eq_bind, Option.bind_some]
    cases TimerTick.sysNanosleep s.sched ts <;> simp
  rw [hcall, Env.Safe]
  cases ts with
  | none => simp [hts, TimerTick.sysNanosleep]
  | some ts =>
    obtain ⟨sec, nsec⟩ := ts
    cases hcur : s.sched.cur with
    | none => simp [TimerTick.sysNanosleep, hcur]
    | some idx =>
      cases hp : s.sched.procs idx with
      | none =>
        refine iff_of_true (by simp [TimerTick.sysNanosleep, hcur, hp]) ?_
        intro _ _ _ idx' p' _ hidx hp'
        cases hidx
        rw [hp] at hp'
        cases hp'
      | some p =>
        rw [sleep_isSome s.sched sec nsec hcur hp]
        constructor
        · intro h sec' nsec' m' idx' p' hts' _ _ hne
          rw [hts] at hts'
          cases hts'
          exact h hne
        · exact fun h => h sec nsec m idx p hts rfl hp

theorem call_isSome (c : Call) : (env.call s c).isSome ↔ env.Safe s c := by
  cases c with
  | nanosleep req => exact sysNanosleep_isSome env s req
  | fallocate fd mode offset len => exact sysFallocate_isSome env s fd mode offset len
  | readv fd iov iovcnt => exact iff_of_true (sysReadv_isSome env s fd iov iovcnt) trivial
  | writev fd iov iovcnt => exact iff_of_true (sysWritev_isSome env s fd iov iovcnt) trivial
  | pwritev fd iov iovcnt offset => exact iff_of_true (sysPwritev_isSome env s fd iov iovcnt offset) trivial
  | preadv fd iov iovcnt offset => exact iff_of_true (sysPreadv_isSome env s fd iov iovcnt offset) trivial
  | lseek fd offset whence => exact sysLseek_isSome env s fd offset whence
  | statx dirfd path flags buf => exact sysStatx_isSome env s dirfd path flags buf
  | fstat fd buf => exact sysFstat_isSome env s fd buf
  | ftruncate fd length =>
    refine iff_of_true ?_ trivial
    rw [Env.call, Env.sysFtruncate]
    cases s.fdGet fd <;> rfl
  | dup oldfd =>
    rw [Env.Safe, Env.call, sysDup]
    cases s.fdGet oldfd with
    | none => simp
    | some d =>
      dsimp only
      rw [dupFrom_isSome]
      simp
  | fcntlDup fd arg =>
    rw [Env.Safe, Env.call, sysFcntlDup]
    cases s.fdGet fd with
    | none => simp
    | some d =>
      dsimp only
      rw [dupFrom_isSome]
      simp

theorem sysFtruncate_size {env : Env M} {s s' : State M} {fd length : UInt64} {d : Nat}
    (h : env.sysFtruncate s fd length = some s') (hd : s'.fdGet fd = some d) : (s'.inodeOf d).size = length := by
  unfold Env.sysFtruncate at h
  cases hd₀ : s.fdGet fd with
  | none =>
    simp only [hd₀, Option.some.injEq] at h
    subst h
    have : s.fdGet fd = some d := hd
    rw [hd₀] at this
    cases this
  | some d₀ =>
    simp only [hd₀, Option.some.injEq] at h
    subst h
    have hfds : ∀ t : State M, t = (if length = 0 then env.truncate s (s.descs d₀).inode else s) →
        t.fds = s.fds ∧ t.descs = s.descs := by
      rintro t rfl
      split
      · exact ⟨env.truncate_fds _ _, env.truncate_descs _ _⟩
      · exact ⟨rfl, rfl⟩
    generalize (if length = 0 then env.truncate s (s.descs d₀).inode else s) = t at hfds hd
    obtain ⟨ht, -⟩ := hfds t rfl
    have hsame : d = d₀ := by
      unfold State.fdGet State.ret State.setInode at hd
      unfold State.fdGet at hd₀
      simp only [ht, hd₀, Option.some.injEq] at hd
      exact hd.symm
    subst hsame
    simp [State.inodeOf, State.ret, State.setInode]

end Calls

/-- A process whose memory is mapped to itself and whose only file is `/dev/null`. -/
def nullEnv : Env (Nat → BitVec 8) where
  translate _ addr := some addr
  demandPageUser _ _ := none
  load m phys := m phys
  store m phys buf n := fun i => if phys ≤ i ∧ i < phys + n then buf (i - phys) else m i
  resolvePath _ _ := .error enoent
  hasRead _ := true
  hasWrite _ := true
  read s _ _ _ := (0, s)
  write s _ _ count := (count, s)
  truncate s _ := s
  read_le _ _ _ count := Int.natCast_nonneg count
  write_le _ _ _ _ := le_rfl
  truncate_fds _ _ := rfl
  truncate_descs _ _ := rfl

/-- The descriptor 3 is open; at `0x1000` there is a `timespec` of `2 ^ 63` seconds. -/
def nullState : State (Nat → BitVec 8) where
  fds := Function.update (fun _ => none) 3 (some 0)
  descs _ := ⟨0, 0, 0, 1⟩
  inodes _ := ⟨5, 0o020666, 0, 1, 0, 0, none⟩
  sched :=
    { procs := fun _ => some ⟨1, .running, ⟨0x400002, 0, fun _ => 0⟩, false, 0, none⟩
      cur := some 0, idleIn := none, frame := ⟨0x400002, 0, fun _ => 0⟩, sliceRemaining := 10, dedicatedPid := 0
      tick := 1, epolls := fun _ => ⟨0, 0⟩ }
  mem := fun i => if i = 0x1007 then 0x80 else 0

end Zigix.Traps
