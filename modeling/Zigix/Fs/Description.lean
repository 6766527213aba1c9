import Zigix.Proc.Process

/-!
# Open file descriptions and descriptor tables (`kernel/fs/vfs.zig`, `kernel/fs/fd_table.zig`)

A pool of 2048 descriptions, three static ones for the serial line, and the descriptor tables of the processes.

* `allocFileDescription`, `releaseFileDescription`, `releaseFileDescriptionNoClose`;
* `fdAlloc`, `fdGet`, `fdClose`, `fdDup2`;
* `sysOpen`, `openFifo`, `sysDup`, `sysDup2`, `sysClose`, `cloneFork` and `cloneThread` (their part for descriptors),
  `sysExecve`, `sysExit`, `sysWait4`.

The close handler of a file works on the state of its own subsystem and has no counterpart. `none` is a kernel panic:
a `ref_count` that does not fit in 32 bits.
-/

namespace Zigix.Vfs

def maxFileDescriptions : Nat := 2048

/-- `MAX_PROCESSES`. -/
def maxProcesses : Nat := 256

/-- A `*FileDescription`: one of `stdin_desc`, `stdout_desc`, `stderr_desc`, or an entry of `fd_pool`. -/
inductive Ptr
  | serial (i : Fin 3)
  | pool (i : Fin maxFileDescriptions)
  deriving DecidableEq

structure FileDescription where
  inode : Nat
  offset : Nat
  flags : Nat
  refCount : Nat
  inUse : Bool

abbrev FdTable := Fin maxFds → Option Ptr

structure Proc where
  fds : FdTable
  zombie : Bool := false

structure State where
  desc : Ptr → FileDescription
  /-- `processes`, where `slot_in_use` -/
  procs : Fin maxProcesses → Option Proc

inductive Error
  | EBADF
  | EACCES
  | ENFILE
  | EMFILE
  deriving DecidableEq

namespace State
variable (s : State)

def fds (p : Fin maxProcesses) : FdTable :=
  match s.procs p with
  | none => fun _ => none
  | some proc => proc.fds

def setDesc (d : Ptr) (x : FileDescription) : State := { s with desc := Function.update s.desc d x }

def setFds (p : Fin maxProcesses) (t : FdTable) : State :=
  { s with procs := Function.update s.procs p ((s.procs p).map fun proc => { proc with fds := t }) }

/-- The process can make calls. -/
def running (p : Fin maxProcesses) : Bool :=
  match s.procs p with
  | none => false
  | some proc => !proc.zombie

end State

/-! ## Descriptions -/

def allocFileDescription (s : State) : Option (Fin maxFileDescriptions × State) :=
  (Fin.find? fun i => !(s.desc (.pool i)).inUse).map fun i =>
    (i, s.setDesc (.pool i) { s.desc (.pool i) with inUse := true, offset := 0, refCount := 1 })

def releaseFileDescription (s : State) (d : Ptr) : State :=
  let refCount := (s.desc d).refCount - 1
  s.setDesc d { s.desc d with refCount, inUse := if refCount = 0 then false else (s.desc d).inUse }

def releaseFileDescriptionNoClose (s : State) (d : Ptr) : State := s.setDesc d { s.desc d with inUse := false }

/-- `ref_count += 1`. -/
def addRef (s : State) (d : Ptr) : Option State :=
  if (s.desc d).refCount + 1 < 2 ^ 32 then some (s.setDesc d { s.desc d with refCount := (s.desc d).refCount + 1 })
  else none

/-- `ref_count -= 1`, on the error path of `dup`. -/
def dropRef (s : State) (d : Ptr) : State := s.setDesc d { s.desc d with refCount := (s.desc d).refCount - 1 }

/-! ## Descriptor tables -/

def fdAlloc (t : FdTable) (d : Ptr) : Option (Fin maxFds × FdTable) :=
  (Fin.find? fun i => (t i).isNone).map fun i => (i, Function.update t i (some d))

def fdGet (t : FdTable) (fd : Nat) : Option Ptr := if h : fd < maxFds then t ⟨fd, h⟩ else none

/-- Release the description of descriptor `i` of process `p`, if there is one. -/
def closeSlot (s : State) (p : Fin maxProcesses) (i : Fin maxFds) : Bool × State :=
  match s.fds p i with
  | none => (false, s)
  | some d => (true, releaseFileDescription (s.setFds p (Function.update (s.fds p) i none)) d)

def fdClose (s : State) (p : Fin maxProcesses) (fd : Nat) : Bool × State :=
  if h : fd < maxFds then closeSlot s p ⟨fd, h⟩ else (false, s)

/-- Point descriptor `new` at `src`: the description that was there is released first. -/
def redirect (s : State) (p : Fin maxProcesses) (src : Ptr) (new : Fin maxFds) : Option State :=
  let released := match s.fds p new with
    | none => s
    | some existing => releaseFileDescription s existing
  addRef (released.setFds p (Function.update (released.fds p) new (some src))) src

def fdDup2 (s : State) (p : Fin maxProcesses) (oldfd newfd : Nat) : Option (Bool × State) :=
  if h : oldfd < maxFds ∧ newfd < maxFds then
    match s.fds p ⟨oldfd, h.1⟩ with
    | none => some (false, s)
    | some src => (redirect s p src ⟨newfd, h.2⟩).map fun s => (true, s)
  else some (false, s)

/-! ## System calls -/

/-- `O_TRUNC`. -/
def truncates (flags : Nat) : Bool := flags.testBit 9

/-- `sysOpen` from the allocation of the description on; `mayMutate` is `security.checkMutate`. -/
def sysOpen (p : Fin maxProcesses) (inode flags : Nat) (mayMutate : Bool) (s : State) : Except Error Nat × State :=
  match allocFileDescription s with
  | none => (.error .ENFILE, s)
  | some (i, s) =>
    let s := s.setDesc (.pool i) { s.desc (.pool i) with inode, flags, offset := 0 }
    if truncates flags && !mayMutate then (.error .EACCES, releaseFileDescription s (.pool i))
    else
      match fdAlloc (s.fds p) (.pool i) with
      | none => (.error .EMFILE, releaseFileDescription s (.pool i))
      | some (fd, t) => (.ok fd, s.setFds p t)

/-- The pipe behind a FIFO: the one in `fifo_map` or a new one, as its inode; `none` if it is closed or there is no
free pipe. -/
inductive FifoPipe
  | existing (inode : Option Nat)
  | created (inode : Option Nat)

def createPipe (s : State) (inode : Nat) : Option (Fin maxFileDescriptions × Fin maxFileDescriptions) × State :=
  match allocFileDescription s with
  | none => (none, s)
  | some (r, s) =>
    let s := s.setDesc (.pool r) { s.desc (.pool r) with inode, flags := 0, offset := 0 }
    match allocFileDescription s with
    | none => (none, releaseFileDescription s (.pool r))
    | some (w, s) => (some (r, w), s.setDesc (.pool w) { s.desc (.pool w) with inode, flags := 1, offset := 0 })

/-- `openFifo`: of a new pipe the end that is not asked for is given back. -/
def openFifo (p : Fin maxProcesses) (pipe : FifoPipe) (flags : Nat) (s : State) : Except Error Nat × State :=
  let accessMode := flags % 4
  match pipe with
  | .existing none => (.error .EMFILE, s)
  | .created none => (.error .EMFILE, s)
  | .existing (some inode) =>
    match allocFileDescription s with
    | none => (.error .EMFILE, s)
    | some (i, s) =>
      let s := s.setDesc (.pool i) { s.desc (.pool i) with inode, flags := accessMode, offset := 0 }
      match fdAlloc (s.fds p) (.pool i) with
      | none => (.error .EMFILE, releaseFileDescription s (.pool i))
      | some (fd, t) => (.ok fd, s.setFds p t)
  | .created (some inode) =>
    match createPipe s inode with
    | (none, s) => (.error .EMFILE, s)
    | (some (r, w), s) =>
      let used := if accessMode = 1 then w else r
      let unused := if accessMode = 1 then r else w
      match fdAlloc (s.fds p) (.pool used) with
      | none => (.error .EMFILE, releaseFileDescription s (.pool used))
      | some (fd, t) => (.ok fd, releaseFileDescriptionNoClose (s.setFds p t) (.pool unused))

def sysDup (p : Fin maxProcesses) (oldfd : Nat) (s : State) : Option (Except Error Nat × State) :=
  match fdGet (s.fds p) oldfd with
  | none => some (.error .EBADF, s)
  | some d => do
    let s ← addRef s d
    match fdAlloc (s.fds p) d with
    | none => some (.error .EMFILE, dropRef s d)
    | some (fd, t) => some (.ok fd, s.setFds p t)

/-- `sysDup2`, `sysDup3`. -/
def sysDup2 (p : Fin maxProcesses) (oldfd newfd : Nat) (s : State) : Option (Except Error Nat × State) :=
  (fdDup2 s p oldfd newfd).map fun r => (if r.1 then .ok newfd else .error .EBADF, r.2)

def sysClose (p : Fin maxProcesses) (fd : Nat) (s : State) : Except Error Nat × State :=
  let r := fdClose s p fd
  (if r.1 then .ok 0 else .error .EBADF, r.2)

def inheritSlot (t : FdTable) (s : State) (i : Fin maxFds) : State :=
  match t i with
  | none => s
  | some d =>
    if (s.desc d).refCount < 255 then s.setDesc d { s.desc d with refCount := (s.desc d).refCount + 1 } else s

/-- The child in slot `child` gets a copy of the table. -/
def inheritFds (p child : Fin maxProcesses) (s : State) : State :=
  let t := s.fds p
  (List.finRange maxFds).foldl (inheritSlot t) { s with procs := Function.update s.procs child (some { fds := t }) }

def cloneFork : Fin maxProcesses → Fin maxProcesses → State → State := inheritFds

def cloneThread : Fin maxProcesses → Fin maxProcesses → State → State := inheritFds

def setZombie (p : Fin maxProcesses) (s : State) : State :=
  { s with procs := Function.update s.procs p ((s.procs p).map fun proc => { proc with zombie := true }) }

def sysExecve (p : Fin maxProcesses) (loaded : Bool) (s : State) : State := if loaded then s else setZombie p s

/-- `sysExit` and `terminateBySignal`: every descriptor is closed. -/
def sysExit (p : Fin maxProcesses) (s : State) : State :=
  setZombie p ((List.finRange maxFds).foldl (fun s i => (closeSlot s p i).2) s)

/-- Reaping a child: its slot is cleared. -/
def sysWait4 (child : Fin maxProcesses) (s : State) : State :=
  match s.procs child with
  | none => s
  | some proc => if proc.zombie then { s with procs := Function.update s.procs child none } else s

/-! ## Runs -/

/-- What process `p` does. -/
inductive Event
  | open (p : Fin maxProcesses) (inode flags : Nat) (mayMutate : Bool)
  | openFifo (p : Fin maxProcesses) (pipe : FifoPipe) (flags : Nat)
  | dup (p : Fin maxProcesses) (oldfd : Nat)
  | dup2 (p : Fin maxProcesses) (oldfd newfd : Nat)
  | close (p : Fin maxProcesses) (fd : Nat)
  | fork (p child : Fin maxProcesses)
  | thread (p child : Fin maxProcesses)
  | execve (p : Fin maxProcesses) (loaded : Bool)
  | exit (p : Fin maxProcesses)
  | wait (p child : Fin maxProcesses)

def Event.caller : Event → Fin maxProcesses
  | .open p _ _ _ | .openFifo p _ _ | .dup p _ | .dup2 p _ _ | .close p _ | .fork p _ | .thread p _ | .execve p _
  | .exit p | .wait p _ => p

/-- The call on the state; a clone takes a slot that `findFreeSlot` returns. -/
def call : Event → State → Option State
  | .open p inode flags mayMutate, s => some (sysOpen p inode flags mayMutate s).2
  | .openFifo p pipe flags, s => some (openFifo p pipe flags s).2
  | .dup p oldfd, s => (sysDup p oldfd s).map Prod.snd
  | .dup2 p oldfd newfd, s => (sysDup2 p oldfd newfd s).map Prod.snd
  | .close p fd, s => some (sysClose p fd s).2
  | .fork p child, s => if (s.procs child).isNone then some (cloneFork p child s) else none
  | .thread p child, s => if (s.procs child).isNone then some (cloneThread p child s) else none
  | .execve p loaded, s => some (sysExecve p loaded s)
  | .exit p, s => some (sysExit p s)
  | .wait _ child, s => some (sysWait4 child s)

def step (s : State) (e : Event) : Option State := if s.running e.caller then call e s else none

/-- The states that calls admitted by `ok` reach from `s₀`. -/
inductive Run (ok : State → Event → Prop) (s₀ : State) : State → Prop
  | start : Run ok s₀ s₀
  | next {s s' : State} {e : Event} (h : Run ok s₀ s) (hok : ok s e) (hstep : step s e = some s') : Run ok s₀ s'

def serialDescription (flags : Nat) : FileDescription :=
  { inode := 0, offset := 0, flags, refCount := 255, inUse := true }

/-- `initStdio`. -/
def initStdio : FdTable := fun fd => if h : fd.val < 3 then some (.serial ⟨fd, h⟩) else none

def boot : State where
  desc
    | .serial i => serialDescription (if i = 0 then 0 else 1)
    | .pool _ => { inode := 0, offset := 0, flags := 0, refCount := 0, inUse := false }
  procs := fun p => if p.val = 0 then some { fds := initStdio } else none

end Zigix.Vfs
