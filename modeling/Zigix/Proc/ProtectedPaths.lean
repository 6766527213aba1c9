import Zigix.Fs.Path

/-!
# Protected paths (`kernel/security/policy.zig` and the system calls that consult it)

The policy compares the text of a path with a table of prefixes, while the file system walks the components of the path.
The calls that create, remove, rename, link or truncate resolve the path, consult the policy about its text, or do not,
and hand the directory they found to the file system.

* `checkMutate` : the policy; `Kernel.call` : the system calls, with what they hand to the file system;
* `protected_paths` : in a sequence of calls, each of which has a text refused wherever it would change something
  protected, nothing protected is changed;
* `protected_paths_bypassed` : the spellings and the calls that are not refused.
-/

namespace Zigix.ProtectedPaths

open Path

/-! ## The policy -/

structure Process where
  euid : Nat
  egid : Nat
  capabilities : Nat
  cwd : Name
  /-- the inode of a descriptor -/
  fds : Nat → Option Nat

/-- `/etc/`, `/boot/`, `/bin/`, `/sbin/`, `/usr/`, `/zigix/`, `/zig/`. -/
def protectedPaths : List Name :=
  [[47, 101, 116, 99, 47], [47, 98, 111, 111, 116, 47], [47, 98, 105, 110, 47], [47, 115, 98, 105, 110, 47],
    [47, 117, 115, 114, 47], [47, 122, 105, 103, 105, 120, 47], [47, 122, 105, 103, 47]]

/-- `/tmp/`, `/var/tmp/`, `/proc/`, `/dev/`. -/
def whitelistedPaths : List Name :=
  [[47, 116, 109, 112, 47], [47, 118, 97, 114, 47, 116, 109, 112, 47], [47, 112, 114, 111, 99, 47],
    [47, 100, 101, 118, 47]]

/-- `hasCap` with `CAP_MODIFY_PROTECTED`. -/
def Process.mayModify (p : Process) : Bool := p.euid == 0 || p.capabilities.testBit 0

def startsWith (path : Name) (table : List Name) : Bool := table.any fun pre => pre.isPrefixOf path

def checkMutate (p : Process) (path : Name) : Bool :=
  p.mayModify || startsWith path whitelistedPaths || !startsWith path protectedPaths

def Denied (path : Name) : Prop :=
  startsWith path protectedPaths = true ∧ startsWith path whitelistedPaths = false

instance (path : Name) : Decidable (Denied path) := inferInstanceAs (Decidable (_ ∧ _))

theorem checkMutate_false {p : Process} (h : p.mayModify = false) (path : Name) :
    checkMutate p path = false ↔ Denied path := by
  unfold checkMutate Denied
  rw [h]
  cases startsWith path whitelistedPaths <;> cases startsWith path protectedPaths <;> simp

/-! ## The system calls -/

structure Request where
  op : Op
  /-- the directories that change, or the file that is truncated -/
  targets : List Nat
  names : List Name
  /-- the mode of a new file or directory -/
  mode : Nat := 0
  /-- the file behind a new name -/
  file : Option Nat := none
  /-- the text of a new symbolic link -/
  text : Name := []
deriving DecidableEq

structure Dispatch where
  request : Request
  vfs : Vfs

structure Outcome where
  rax : Int
  dispatches : List Dispatch
  vfs : Vfs

/-- What the file systems do: the new inode, or whether it worked, and the tree afterwards. -/
structure Kernel where
  perform : Vfs → Request → Option Nat × Vfs
  /-- the depth of the calls of `resolvePath` -/
  depth : Nat

def fail (v : Vfs) (errno : Nat) : Outcome := ⟨-errno, [], v⟩

def checkPermission (i : Inode) (wanted : Nat) (p : Process) : Bool :=
  p.euid == 0 ||
    let bits := if p.euid = i.uid then i.perm / 64 % 8 else if p.egid = i.gid then i.perm / 8 % 8 else i.perm % 8
    bits &&& wanted == wanted

/-- The path as the calls use it; `none` when it is too long. -/
def resolveRelativePath (p : Process) (raw : Name) : Option Name :=
  if raw.head? = some slash then (if raw.length ≥ 512 then none else some raw)
  else
    let separator := if p.cwd ≠ [] ∧ p.cwd.getLast? ≠ some slash then [slash] else []
    if p.cwd.length + separator.length + raw.length ≥ 512 then none else some (p.cwd ++ separator ++ raw)

def fromInode (v : Vfs) : List Name → Nat → ResolveResult → ResolveResult
  | [], current, r => if r.inode = none ∧ r.parent = none then { r with inode := some current } else r
  | c :: rest, current, r =>
    if c.length > 255 ∨ v.isDir current = false then r
    else
      let r := if rest = [] then { r with parent := some current, leaf := c } else r
      if v.hasLookup current = false then r
      else
        match v.lookup current c with
        | none => r
        | some child => fromInode v rest child (if rest = [] then { r with inode := some child } else r)

/-- `resolveFromInode`. -/
def resolveFromInode (v : Vfs) (start : Nat) (path : Name) : ResolveResult :=
  if path = [] then .empty else fromInode v (components path) start .empty

section Calls
variable (k : Kernel) (p : Process) (v : Vfs)

/-- A path of the user, with `cwd` in front of it if it is relative. -/
def withPath (raw : Name) (f : Name → Option Outcome) : Option Outcome :=
  if raw = [] then some (fail v 2)
  else
    match resolveRelativePath p raw with
    | none => some (fail v 36)
    | some path => f path

/-- The end of the calls that change one directory: the parent, its permissions if `perm`, the policy about the texts
`checked`, the request. `failed` is the error when it does not work. -/
def atParent (r : ResolveResult) (perm : Bool) (checked : List Name) (request : Nat → Request) (failed : Nat) :
    Outcome :=
  match r.parent with
  | none => fail v 2
  | some parent =>
    if perm = true ∧ checkPermission (v.inode parent) 3 p = false then fail v 13
    else if checked.all (checkMutate p) = false then fail v 13
    else if (v.inode parent).has (request parent).op = false then fail v 30
    else
      let (res, v') := k.perform v (request parent)
      ⟨if res.isSome then 0 else -failed, [⟨request parent, v⟩], v'⟩

/-- A call that puts a new name into a directory. -/
def addName (r : ResolveResult) (perm : Bool) (checked : List Name) (request : Nat → Request) (failed : Nat) : Outcome :=
  if r.inode.isSome then fail v 17 else atParent k p v r perm checked request failed

def removeName (r : ResolveResult) (op : Op) (perm : Bool) (checked : List Name) (failed : Nat) : Outcome :=
  if r.inode.isNone then fail v 2
  else atParent k p v r perm checked (fun parent => { op := op, targets := [parent], names := [r.leaf] }) failed

def create (leaf : Name) (mode : Nat) (parent : Nat) : Request :=
  { op := .create, targets := [parent], names := [leaf], mode := mode }

def sysMkdir (raw : Name) (mode : Nat) : Option Outcome :=
  withPath p v raw fun path => (v.resolvePath k.depth path).map fun r =>
    addName k p v r true [path] (create r.leaf (0o040000 + mode % 512)) 23

def sysUnlink (raw : Name) : Option Outcome :=
  withPath p v raw fun path => (v.resolvePath k.depth path).map fun r => removeName k p v r .unlink true [path] 2

def sysRmdir (raw : Name) : Option Outcome :=
  withPath p v raw fun path => (v.resolvePath k.depth path).map fun r => removeName k p v r .rmdir false [path] 39

def sysSymlink (text raw : Name) : Option Outcome :=
  if text = [] then some (fail v 2)
  else
    withPath p v raw fun path => (v.resolvePath k.depth path).map fun r =>
      addName k p v r false [path]
        (fun parent => { op := .symlink, targets := [parent], names := [r.leaf], text := text }) 5

/-- `sysMknod`; only a FIFO can be made, and the policy is not asked. -/
def sysMknod (raw : Name) (mode : Nat) : Option Outcome :=
  if mode / 4096 % 16 = 1 then
    withPath p v raw fun path => (v.resolvePath k.depth path).map fun r =>
      addName k p v r false [] (create r.leaf mode) 23
  else some (fail v 1)

def sysLink (old new : Name) : Option Outcome :=
  withPath p v old fun oldPath => (v.resolve k.depth oldPath).bind fun target =>
    match target with
    | none => some (fail v 2)
    | some t =>
      if v.isDir t then some (fail v 1)
      else withPath p v new fun path => (v.resolvePath k.depth path).map fun r =>
        addName k p v r false [path]
          (fun parent => { op := .link, targets := [parent], names := [r.leaf], file := some t }) 5

def sysRename (old new : Name) : Option Outcome :=
  if old = [] ∨ new = [] then some (fail v 2)
  else
    match resolveRelativePath p old, resolveRelativePath p new with
    | some oldPath, some newPath => do
      let r ← v.resolvePath k.depth oldPath
      match r.inode, r.parent with
      | some _, some oldParent =>
        let r' ← v.resolvePath k.depth newPath
        match r'.parent with
        | none => return fail v 2
        | some newParent =>
          if checkPermission (v.inode oldParent) 3 p = false ∨ checkPermission (v.inode newParent) 3 p = false then
            return fail v 13
          else if [oldPath, newPath].all (checkMutate p) = false then return fail v 13
          else if (v.inode oldParent).has .rename = false ∨ (v.inode newParent).has .rename = false then
            return fail v 18
          else
            let request : Request :=
              { op := .rename, targets := [oldParent, newParent], names := [r.leaf, r'.leaf] }
            let (res, v') := k.perform v request
            return ⟨if res.isSome then 0 else -5, [⟨request, v⟩], v'⟩
      | _, _ => return fail v 2
    | _, _ => some (fail v 36)

def truncate (i : Nat) : Request := { op := .truncate, targets := [i], names := [] }

/-- The file is emptied, by its file system if that can do it. -/
def truncateInode (i : Nat) : Vfs := if (v.inode i).has .truncate then (k.perform v (truncate i)).2 else v

def sysTruncate (raw : Name) (length : Nat) : Option Outcome :=
  withPath p v raw fun path => (v.resolve k.depth path).map fun target =>
    match target with
    | none => fail v 2
    | some i =>
      if v.isDir i then fail v 21
      else if checkMutate p path = false then fail v 13
      -- another length is written into the inode alone
      else ⟨0, [⟨truncate i, v⟩], if length = 0 then truncateInode k v i else v⟩

/-- The flags of `open`, and what is free: a description, a descriptor. -/
structure OpenFlags where
  creat : Bool
  trunc : Bool
  nofollow : Bool
  /-- `O_ACCMODE` -/
  access : Nat
  mode : Nat
  descFree : Bool
  fd : Option Nat
deriving DecidableEq

/-- The permission that `O_ACCMODE` needs. -/
def OpenFlags.wanted (flags : OpenFlags) : Nat :=
  if flags.access = 1 then 2 else if flags.access = 2 then 6 else 4

def OpenFlags.result (flags : OpenFlags) : Int :=
  match flags.fd with
  | none => -24
  | some fd => fd

/-- `open` behind the file: `done` has been handed to the file system before. -/
def openInode (flags : OpenFlags) (perm : Bool) (checked : List Name) (i : Nat) (done : List Dispatch) : Outcome :=
  if v.isDir i = true ∧ flags.access ≠ 0 then ⟨-21, done, v⟩
  -- a FIFO goes to the pipes
  else if perm = true ∧ (v.inode i).kind = .fifo then ⟨0, done, v⟩
  else if perm = true ∧ checkPermission (v.inode i) flags.wanted p = false then ⟨-13, done, v⟩
  else if flags.descFree = false then ⟨-23, done, v⟩
  else if flags.trunc = true then
    if checked.all (checkMutate p) = false then ⟨-13, done, v⟩
    else ⟨flags.result, done ++ [⟨truncate i, v⟩], truncateInode k v i⟩
  else ⟨flags.result, done, v⟩

/-- The request of `open` for a new file. -/
def createFile (flags : OpenFlags) (r : ResolveResult) (parent : Nat) : Request :=
  create r.leaf (0o100000 + flags.mode % 512) parent

/-- `open` of a path that leads to no file. -/
def openCreate (flags : OpenFlags) (perm : Bool) (checked : List Name) (r : ResolveResult) : Outcome :=
  if flags.creat = false then fail v 2
  else
    match r.parent with
    | none => fail v 2
    | some parent =>
      if perm = true ∧ checkPermission (v.inode parent) 3 p = false then fail v 13
      else if checked.all (checkMutate p) = false then fail v 13
      else if (v.inode parent).has .create = false then fail v 30
      else
        match k.perform v (createFile flags r parent) with
        | (none, v') => ⟨-23, [⟨createFile flags r parent, v⟩], v'⟩
        | (some i, v') => openInode k p v' flags perm checked i [⟨createFile flags r parent, v⟩]

def sysOpen (raw : Name) (flags : OpenFlags) : Option Outcome :=
  withPath p v raw fun path => (v.resolvePath k.depth path).bind fun r =>
    match r.inode with
    | some found =>
      if v.isLink found = true ∧ flags.nofollow = false then
        (v.resolve k.depth path).map fun target =>
          match target with
          | none => fail v 2
          | some i => openInode k p v flags true [path] i []
      else some (openInode k p v flags true [path] found [])
    | none => some (openCreate k p v flags true [path] r)

def withDir (dirfd : Nat) (f : Nat → Option Outcome) : Option Outcome :=
  match p.fds dirfd with
  | none => some (fail v 9)
  | some dir => if v.isDir dir = false then some (fail v 20) else f dir

/-- `sysOpenat` with a directory that is open: no permission and no policy. -/
def sysOpenat (dirfd : Nat) (raw : Name) (flags : OpenFlags) : Option Outcome :=
  withDir p v dirfd fun dir =>
    if raw = [] then some (fail v 2)
    else if raw.head? = some slash then sysOpen k p v raw flags
    else
      let r := resolveFromInode v dir raw
      match r.inode with
      | some i => some (openInode k p v flags false [] i [])
      | none => some (openCreate k p v flags false [] r)

def sysMkdirat (dirfd : Nat) (raw : Name) (mode : Nat) : Option Outcome :=
  withDir p v dirfd fun dir =>
    if raw = [] then some (fail v 2)
    else
      let r := resolveFromInode v dir raw
      some (addName k p v r false [] (create r.leaf (0o040000 + mode % 512)) 23)

def sysUnlinkat (dirfd : Nat) (raw : Name) (removedir : Bool) : Option Outcome :=
  withDir p v dirfd fun dir =>
    if raw = [] then some (fail v 2)
    else
      let r := resolveFromInode v dir raw
      if removedir then some (removeName k p v r .rmdir false [] 39)
      else if r.parent.isSome = true ∧ r.inode.any v.isDir = true then some (fail v 21)
      else some (removeName k p v r .unlink false [] 2)

end Calls

/-- A call with its paths; without a descriptor of a directory it starts at `cwd`. `renameat`, `linkat`, `symlinkat` and
`mknodat` exist with `AT_FDCWD` only. -/
inductive Call
  | openat (dirfd : Option Nat) (path : Name) (flags : OpenFlags)
  | mkdirat (dirfd : Option Nat) (path : Name) (mode : Nat)
  | unlinkat (dirfd : Option Nat) (path : Name) (removedir : Bool)
  | rename (old new : Name)
  | link (old new : Name)
  | symlink (text path : Name)
  | mknod (path : Name) (mode : Nat)
  | truncate (path : Name) (length : Nat)

def Kernel.call (k : Kernel) (p : Process) (v : Vfs) : Call → Option Outcome
  | .openat none path flags => sysOpen k p v path flags
  | .openat (some dirfd) path flags => sysOpenat k p v dirfd path flags
  | .mkdirat none path mode => sysMkdir k p v path mode
  | .mkdirat (some dirfd) path mode => sysMkdirat k p v dirfd path mode
  | .unlinkat none path removedir => if removedir then sysRmdir k p v path else sysUnlink k p v path
  | .unlinkat (some dirfd) path removedir => sysUnlinkat k p v dirfd path removedir
  | .rename old new => sysRename k p v old new
  | .link old new => sysLink k p v old new
  | .symlink text path => sysSymlink k p v text path
  | .mknod path mode => sysMknod k p v path mode
  | .truncate path length => sysTruncate k p v path length

def Kernel.dispatches (k : Kernel) : Vfs → List (Process × Call) → List Dispatch
  | _, [] => []
  | v, (p, c) :: cs =>
    match k.call p v c with
    | none => []
    | some o => o.dispatches ++ k.dispatches o.vfs cs

/-! ## Protected directories -/

/-- A name in a directory. -/
def Child (v : Vfs) (d e : Nat) : Prop := ∃ c, c ≠ [dot] ∧ c ≠ [dot, dot] ∧ v.lookup d c = some e

/-- The inode is the directory that a protected prefix leads to, the root of a file system mounted there, or below
them. -/
def Protected (v : Vfs) (x : Nat) : Prop :=
  ∃ pre ∈ protectedPaths, ∃ d,
    ((∃ n, v.resolve n pre = some (some d)) ∨ ∃ path, (path, d) ∈ v.mounts ∧ pre <+: path) ∧
    Relation.ReflTransGen (Child v) d x

def Call.texts (p : Process) : Call → List Name
  | .openat none path _ | .mkdirat none path _ | .unlinkat none path _ | .link _ path | .symlink _ path
  | .truncate path _ => (resolveRelativePath p path).toList
  | .openat (some _) path _ => if path.head? = some slash then (resolveRelativePath p path).toList else []
  | .rename old new => (resolveRelativePath p old).toList ++ (resolveRelativePath p new).toList
  | .mkdirat (some _) _ _ | .unlinkat (some _) _ _ | .mknod _ _ => []

/-- Where a path leads. -/
def Arrives (k : Kernel) (p : Process) (v : Vfs) (raw : Name) (r : ResolveResult) : Prop :=
  ∃ path, resolveRelativePath p raw = some path ∧ v.resolvePath k.depth path = some r

/-- Where a path leads from the directory of a descriptor. -/
def ArrivesAt (p : Process) (v : Vfs) (dirfd : Nat) (raw : Name) (r : ResolveResult) : Prop :=
  ∃ dir, p.fds dirfd = some dir ∧ resolveFromInode v dir raw = r

def Follows (k : Kernel) (p : Process) (v : Vfs) (raw : Name) (x : Nat) : Prop :=
  ∃ path, resolveRelativePath p raw = some path ∧ v.resolve k.depth path = some (some x)

/-- What `open` changes at the place `r`: the directory that gets a file, the file that is emptied, new or not. -/
def OpenTouches (k : Kernel) (v : Vfs) (flags : OpenFlags) (r : ResolveResult) (w : Vfs) (x : Nat) : Prop :=
  (flags.trunc = true ∧ w = v ∧ r.inode = some x) ∨
  (flags.creat = true ∧ r.inode = none ∧ ∃ parent, r.parent = some parent ∧
    (w = v ∧ x = parent ∨ flags.trunc = true ∧ k.perform v (createFile flags r parent) = (some x, w)))

/-- What a call changes where its paths lead: the inode `x` in the tree `w`. -/
def Call.Touches (k : Kernel) (p : Process) (v w : Vfs) (x : Nat) : Call → Prop
  | .openat none path flags =>
    (∃ r, Arrives k p v path r ∧ OpenTouches k v flags r w x) ∨ (flags.trunc = true ∧ w = v ∧ Follows k p v path x)
  | .openat (some dirfd) path flags =>
    if path.head? = some slash then
      (∃ r, Arrives k p v path r ∧ OpenTouches k v flags r w x) ∨ (flags.trunc = true ∧ w = v ∧ Follows k p v path x)
    else ∃ r, ArrivesAt p v dirfd path r ∧ OpenTouches k v flags r w x
  | .mkdirat none path _ | .unlinkat none path _ | .link _ path | .symlink _ path | .mknod path _ =>
    w = v ∧ ∃ r, Arrives k p v path r ∧ r.parent = some x
  | .mkdirat (some dirfd) path _ | .unlinkat (some dirfd) path _ =>
    w = v ∧ ∃ r, ArrivesAt p v dirfd path r ∧ r.parent = some x
  | .rename old new => w = v ∧ ∃ r, (Arrives k p v old r ∨ Arrives k p v new r) ∧ r.parent = some x
  | .truncate path _ => w = v ∧ Follows k p v path x

/-- Where the call would change something protected, a text that it asks the policy about is refused. -/
def Screened (k : Kernel) (p : Process) (v : Vfs) (c : Call) : Prop :=
  ∀ w x, c.Touches k p v w x → Protected w x → ∃ t ∈ c.texts p, Denied t

def AllScreened (k : Kernel) : Vfs → List (Process × Call) → Prop
  | _, [] => True
  | v, (p, c) :: cs => Screened k p v c ∧ ∀ o, k.call p v c = some o → AllScreened k o.vfs cs

/-! ## What the calls hand over -/

section Dispatches
variable {k : Kernel} {p : Process} {v : Vfs} {d : Dispatch} {o : Outcome}

@[simp] theorem fail_dispatches (v : Vfs) (errno : Nat) : (fail v errno).dispatches = [] := rfl

theorem withPath_some {raw : Name} {f : Name → Option Outcome} (h : withPath p v raw f = some o)
    (hd : d ∈ o.dispatches) : ∃ path, resolveRelativePath p raw = some path ∧ f path = some o := by
  unfold withPath at h
  split at h
  · cases h
    simp at hd
  · split at h
    · cases h
      simp at hd
    · exact ⟨_, ‹_›, h⟩

/-- The texts have passed the policy, and the parent directory alone changes. -/
def ChangesParent (p : Process) (v : Vfs) (r : ResolveResult) (checked : List Name) (d : Dispatch) : Prop :=
  checked.all (checkMutate p) = true ∧ d.vfs = v ∧ ∃ parent, r.parent = some parent ∧ d.request.targets = [parent]

theorem atParent_dispatches {r : ResolveResult} {perm : Bool} {checked : List Name} {request : Nat → Request}
    {failed : Nat} (hreq : ∀ parent, (request parent).targets = [parent])
    (h : d ∈ (atParent k p v r perm checked request failed).dispatches) : ChangesParent p v r checked d := by
  unfold atParent at h
  split at h
  · simp at h
  case h_2 parent hparent =>
    split at h
    · simp at h
    split at h
    · simp at h
    case isFalse hall =>
      split at h
      · simp at h
      · cases List.mem_singleton.1 h
        exact ⟨by simpa using hall, rfl, parent, hparent, hreq parent⟩

theorem addName_dispatches {r : ResolveResult} {perm : Bool} {checked : List Name} {request : Nat → Request}
    {failed : Nat} (hreq : ∀ parent, (request parent).targets = [parent])
    (h : d ∈ (addName k p v r perm checked request failed).dispatches) : ChangesParent p v r checked d := by
  unfold addName at h
  split at h
  · simp at h
  · exact atParent_dispatches hreq h

theorem removeName_dispatches {r : ResolveResult} {op : Op} {perm : Bool} {checked : List Name} {failed : Nat}
    (h : d ∈ (removeName k p v r op perm checked failed).dispatches) : ChangesParent p v r checked d := by
  unfold removeName at h
  split at h
  · simp at h
  · exact atParent_dispatches (fun _ => rfl) h

theorem openInode_dispatches {flags : OpenFlags} {perm : Bool} {checked : List Name} {i : Nat} {done : List Dispatch}
    (h : d ∈ (openInode k p v flags perm checked i done).dispatches) :
    d ∈ done ∨ checked.all (checkMutate p) = true ∧ flags.trunc = true ∧ d = ⟨truncate i, v⟩ := by
  unfold openInode at h
  split at h
  · exact .inl h
  split at h
  · exact .inl h
  split at h
  · exact .inl h
  split at h
  · exact .inl h
  split at h
  case isFalse => exact .inl h
  case isTrue htrunc =>
    split at h
    · exact .inl h
    case isFalse hall =>
      rcases List.mem_append.1 h with h | h
      · exact .inl h
      · exact .inr ⟨by simpa using hall, htrunc, List.mem_singleton.1 h⟩

theorem openCreate_dispatches {flags : OpenFlags} {perm : Bool} {checked : List Name} {r : ResolveResult}
    (hr : r.inode = none) (h : d ∈ (openCreate k p v flags perm checked r).dispatches) :
    checked.all (checkMutate p) = true ∧ ∀ x ∈ d.request.targets, OpenTouches k v flags r d.vfs x := by
  unfold openCreate at h
  split at h
  · simp at h
  case isFalse hcreat =>
    have hcreat : flags.creat = true := by simpa using hcreat
    split at h
    · simp at h
    case h_2 parent hparent =>
      split at h
      · simp at h
      split at h
      · simp at h
      case isFalse hall =>
        have hall : checked.all (checkMutate p) = true := by simpa using hall
        refine ⟨hall, ?_⟩
        have first : ∀ x ∈ (createFile flags r parent).targets, OpenTouches k v flags r v x := by
          intro x hx
          exact .inr ⟨hcreat, hr, parent, hparent, .inl ⟨rfl, List.mem_singleton.1 hx⟩⟩
        split at h
        · simp at h
        · split at h
          · cases List.mem_singleton.1 h
            exact first
          case h_2 i v' hperform =>
            rcases openInode_dispatches h with h | ⟨-, htrunc, rfl⟩
            · cases List.mem_singleton.1 h
              exact first
            · intro x hx
              cases List.mem_singleton.1 hx
              exact .inr ⟨hcreat, hr, parent, hparent, .inr ⟨htrunc, hperform⟩⟩

theorem sysOpen_dispatches {raw : Name} {flags : OpenFlags} (h : sysOpen k p v raw flags = some o)
    (hd : d ∈ o.dispatches) :
    (∀ t ∈ (resolveRelativePath p raw).toList, checkMutate p t = true) ∧ ∀ x ∈ d.request.targets,
      (∃ r, Arrives k p v raw r ∧ OpenTouches k v flags r d.vfs x) ∨
        (flags.trunc = true ∧ d.vfs = v ∧ Follows k p v raw x) := by
  obtain ⟨path, hpath, h⟩ := withPath_some h hd
  obtain ⟨r, hr, h⟩ := Option.bind_eq_some_iff.1 h
  have arrives : Arrives k p v raw r := ⟨path, hpath, hr⟩
  have texts : [path].all (checkMutate p) = true →
      ∀ t ∈ (resolveRelativePath p raw).toList, checkMutate p t = true := by
    intro hall t ht
    simp only [hpath, Option.toList_some, List.mem_singleton] at ht
    simpa [ht] using hall
  split at h
  case h_1 found hfound =>
    split at h
    · obtain ⟨target, htarget, rfl⟩ := Option.map_eq_some_iff.1 h
      cases target with
      | none => simp at hd
      | some i =>
        rcases openInode_dispatches hd with hd | ⟨hall, htrunc, rfl⟩
        · simp at hd
        · refine ⟨texts hall, fun x hx => .inr ⟨htrunc, rfl, path, hpath, ?_⟩⟩
          rw [htarget, List.mem_singleton.1 hx]
    · cases h
      rcases openInode_dispatches hd with hd | ⟨hall, htrunc, rfl⟩
      · simp at hd
      · refine ⟨texts hall, fun x hx => .inl ⟨r, arrives, .inl ⟨htrunc, rfl, ?_⟩⟩⟩
        rw [hfound, List.mem_singleton.1 hx]
  case h_2 hnone =>
    cases h
    obtain ⟨hall, htouch⟩ := openCreate_dispatches hnone hd
    exact ⟨texts hall, fun x hx => .inl ⟨r, arrives, htouch x hx⟩⟩

theorem parent_dispatches {raw : Name} (checked : Name → List Name) {f : Name → ResolveResult → Outcome}
    (h : (withPath p v raw fun path => (v.resolvePath k.depth path).map (f path)) = some o) (hd : d ∈ o.dispatches)
    (hf : ∀ path r, d ∈ (f path r).dispatches → ChangesParent p v r (checked path) d) :
    (∃ path, resolveRelativePath p raw = some path ∧ (checked path).all (checkMutate p) = true) ∧
      ∀ x ∈ d.request.targets, d.vfs = v ∧ ∃ r, Arrives k p v raw r ∧ r.parent = some x := by
  obtain ⟨path, hpath, h⟩ := withPath_some h hd
  obtain ⟨r, hr, rfl⟩ := Option.map_eq_some_iff.1 h
  obtain ⟨hall, hv, parent, hparent, htargets⟩ := hf path r hd
  refine ⟨⟨path, hpath, hall⟩, fun x hx => ⟨hv, r, ⟨path, hpath, hr⟩, ?_⟩⟩
  rw [htargets, List.mem_singleton] at hx
  rw [hparent, hx]

theorem checked_dispatches {raw : Name} {f : Name → ResolveResult → Outcome}
    (h : (withPath p v raw fun path => (v.resolvePath k.depth path).map (f path)) = some o) (hd : d ∈ o.dispatches)
    (hf : ∀ path r, d ∈ (f path r).dispatches → ChangesParent p v r [path] d) :
    (∀ t ∈ (resolveRelativePath p raw).toList, checkMutate p t = true) ∧
      ∀ x ∈ d.request.targets, d.vfs = v ∧ ∃ r, Arrives k p v raw r ∧ r.parent = some x := by
  obtain ⟨⟨path, hpath, hall⟩, htouch⟩ := parent_dispatches (fun path => [path]) h hd hf
  refine ⟨fun t ht => ?_, htouch⟩
  simp only [hpath, Option.toList_some, List.mem_singleton] at ht
  simpa [ht] using hall

theorem withDir_some {dirfd : Nat} {f : Nat → Option Outcome} (h : withDir p v dirfd f = some o)
    (hd : d ∈ o.dispatches) : ∃ dir, p.fds dirfd = some dir ∧ f dir = some o := by
  unfold withDir at h
  split at h
  · cases h
    simp at hd
  case h_2 dir hdir =>
    split at h
    · cases h
      simp at hd
    · exact ⟨dir, hdir, h⟩

theorem changesParent_at {dirfd dir : Nat} {raw : Name} (hdir : p.fds dirfd = some dir)
    (h : ChangesParent p v (resolveFromInode v dir raw) [] d) :
    ∀ x ∈ d.request.targets, d.vfs = v ∧ ∃ r, ArrivesAt p v dirfd raw r ∧ r.parent = some x := by
  obtain ⟨-, hv, parent, hparent, htargets⟩ := h
  intro x hx
  rw [htargets, List.mem_singleton] at hx
  exact ⟨hv, _, ⟨dir, hdir, rfl⟩, by rw [hparent, hx]⟩

theorem sysRename_dispatches {old new : Name} (h : sysRename k p v old new = some o) (hd : d ∈ o.dispatches) :
    (∀ t ∈ (resolveRelativePath p old).toList ++ (resolveRelativePath p new).toList, checkMutate p t = true) ∧
      ∀ x ∈ d.request.targets,
        d.vfs = v ∧ ∃ r, (Arrives k p v old r ∨ Arrives k p v new r) ∧ r.parent = some x := by
  unfold sysRename at h
  split at h
  · cases h
    simp at hd
  split at h
  case h_2 =>
    cases h
    simp at hd
  case h_1 oldPath newPath hold hnew =>
    obtain ⟨r, hr, h⟩ := Option.bind_eq_some_iff.1 h
    split at h
    case h_2 =>
      cases h
      simp at hd
    case h_1 i oldParent hi holdParent =>
      obtain ⟨r', hr', h⟩ := Option.bind_eq_some_iff.1 h
      split at h
      · cases h
        simp at hd
      case h_2 newParent hnewParent =>
        split at h
        · cases h
          simp at hd
        split at h
        · cases h
          simp at hd
        case isFalse hall =>
          split at h
          · cases h
            simp at hd
          · cases h
            cases List.mem_singleton.1 hd
            constructor
            · intro t ht
              rw [hold, hnew] at ht
              simp at hall ht
              rcases ht with rfl | rfl
              · exact hall.1
              · exact hall.2
            · intro x hx
              simp at hx
              rcases hx with rfl | rfl
              · exact ⟨rfl, r, .inl ⟨oldPath, hold, hr⟩, holdParent⟩
              · exact ⟨rfl, r', .inr ⟨newPath, hnew, hr'⟩, hnewParent⟩

theorem sysTruncate_dispatches {raw : Name} {length : Nat} (h : sysTruncate k p v raw length = some o)
    (hd : d ∈ o.dispatches) :
    (∀ t ∈ (resolveRelativePath p raw).toList, checkMutate p t = true) ∧
      ∀ x ∈ d.request.targets, d.vfs = v ∧ Follows k p v raw x := by
  obtain ⟨path, hpath, h⟩ := withPath_some h hd
  obtain ⟨target, htarget, rfl⟩ := Option.map_eq_some_iff.1 h
  cases target with
  | none => simp at hd
  | some i =>
    dsimp only at hd
    split at hd
    · simp at hd
    split at hd
    · simp at hd
    case isFalse hall =>
      cases List.mem_singleton.1 hd
      constructor
      · intro t ht
        simp only [hpath, Option.toList_some, List.mem_singleton] at ht
        simpa [ht] using hall
      · intro x hx
        cases List.mem_singleton.1 hx
        exact ⟨rfl, path, hpath, htarget⟩

theorem sysOpenat_dispatches {dirfd : Nat} {raw : Name} {flags : OpenFlags}
    (h : sysOpenat k p v dirfd raw flags = some o) (hd : d ∈ o.dispatches) :
    (∀ t ∈ (Call.openat (some dirfd) raw flags).texts p, checkMutate p t = true) ∧
      ∀ x ∈ d.request.targets, (Call.openat (some dirfd) raw flags).Touches k p v d.vfs x := by
  obtain ⟨dir, hdir, h⟩ := withDir_some h hd
  simp only [Call.texts, Call.Touches]
  split at h
  · cases h
    simp at hd
  split at h
  case isTrue habs =>
    simp only [if_pos habs]
    exact sysOpen_dispatches h hd
  case isFalse hrel =>
    simp only [if_neg hrel]
    refine ⟨by simp, ?_⟩
    dsimp only at h
    split at h
    case h_1 i hi =>
      cases h
      rcases openInode_dispatches hd with hd | ⟨-, htrunc, rfl⟩
      · simp at hd
      · intro x hx
        cases List.mem_singleton.1 hx
        exact ⟨_, ⟨dir, hdir, rfl⟩, .inl ⟨htrunc, rfl, hi⟩⟩
    case h_2 hnone =>
      cases h
      intro x hx
      exact ⟨_, ⟨dir, hdir, rfl⟩, (openCreate_dispatches hnone hd).2 x hx⟩

theorem sysLink_dispatches {old new : Name} (h : sysLink k p v old new = some o) (hd : d ∈ o.dispatches) :
    (∀ t ∈ (resolveRelativePath p new).toList, checkMutate p t = true) ∧
      ∀ x ∈ d.request.targets, d.vfs = v ∧ ∃ r, Arrives k p v new r ∧ r.parent = some x := by
  obtain ⟨oldPath, -, h⟩ := withPath_some h hd
  obtain ⟨target, -, h⟩ := Option.bind_eq_some_iff.1 h
  cases target with
  | none =>
    cases h
    simp at hd
  | some t =>
    dsimp only at h
    split at h
    · cases h
      simp at hd
    · exact checked_dispatches h hd fun path r => addName_dispatches fun _ => rfl

/-- **What a call hands over has passed the policy, and changes what its paths lead to.** -/
theorem call_dispatches {c : Call} (h : k.call p v c = some o) (hd : d ∈ o.dispatches) :
    (∀ t ∈ c.texts p, checkMutate p t = true) ∧ ∀ x ∈ d.request.targets, c.Touches k p v d.vfs x := by
  cases c with
  | openat dirfd path flags =>
    cases dirfd with
    | none => exact sysOpen_dispatches h hd
    | some dirfd => exact sysOpenat_dispatches h hd
  | mkdirat dirfd path mode =>
    cases dirfd with
    | none => exact checked_dispatches h hd fun path r => addName_dispatches fun _ => rfl
    | some dirfd =>
      obtain ⟨dir, hdir, h⟩ := withDir_some h hd
      refine ⟨by simp [Call.texts], ?_⟩
      split at h
      · cases h
        simp at hd
      · cases h
        exact changesParent_at hdir (addName_dispatches (fun _ => rfl) hd)
  | unlinkat dirfd path removedir =>
    cases dirfd with
    | none =>
      simp only [Kernel.call] at h
      split at h
      · exact checked_dispatches h hd fun path r => removeName_dispatches
      · exact checked_dispatches h hd fun path r => removeName_dispatches
    | some dirfd =>
      obtain ⟨dir, hdir, h⟩ := withDir_some h hd
      refine ⟨by simp [Call.texts], ?_⟩
      split at h
      · cases h
        simp at hd
      dsimp only at h
      split at h
      · cases h
        exact changesParent_at hdir (removeName_dispatches hd)
      split at h
      · cases h
        simp at hd
      · cases h
        exact changesParent_at hdir (removeName_dispatches hd)
  | rename old new => exact sysRename_dispatches h hd
  | link old new => exact sysLink_dispatches h hd
  | symlink text path =>
    simp only [Kernel.call, sysSymlink] at h
    split at h
    · cases h
      simp at hd
    · exact checked_dispatches h hd fun path r => addName_dispatches fun _ => rfl
  | mknod path mode =>
    refine ⟨by simp [Call.texts], ?_⟩
    simp only [Kernel.call, sysMknod] at h
    split at h
    · exact (parent_dispatches (fun _ => []) h hd fun path r => addName_dispatches fun _ => rfl).2
    · cases h
      simp at hd
  | truncate path length => exact sysTruncate_dispatches h hd

end Dispatches

/-! ## Protected paths -/

theorem screened_call {k : Kernel} {p : Process} {v : Vfs} {c : Call} {o : Outcome} (hp : p.mayModify = false)
    (hs : Screened k p v c) (h : k.call p v c = some o) :
    ∀ d ∈ o.dispatches, ∀ x ∈ d.request.targets, ¬ Protected d.vfs x := by
  intro d hd x hx hprot
  obtain ⟨hpass, htouch⟩ := call_dispatches h hd
  obtain ⟨t, ht, hdenied⟩ := hs d.vfs x (htouch x hx) hprot
  have hfalse := (checkMutate_false hp t).2 hdenied
  rw [hpass t ht] at hfalse
  cases hfalse

/-- A sequence of calls hands nothing protected to a file system. -/
def Respects (k : Kernel) (v : Vfs) (cs : List (Process × Call)) : Prop :=
  ∀ d ∈ k.dispatches v cs, ∀ x ∈ d.request.targets, ¬ Protected d.vfs x

/-- **Protected paths**: in every sequence of calls of processes without the privilege that are all screened, nothing is
handed to a file system for a directory that a protected prefix leads to, or for anything below it. -/
theorem protected_paths (k : Kernel) (v : Vfs) (cs : List (Process × Call)) (hp : ∀ q ∈ cs, q.1.mayModify = false)
    (hs : AllScreened k v cs) : Respects k v cs := by
  induction cs generalizing v with
  | nil =>
    intro d hd
    simp [Kernel.dispatches] at hd
  | cons q cs ih =>
    obtain ⟨p, c⟩ := q
    intro d hd
    simp only [Kernel.dispatches] at hd
    split at hd
    · simp at hd
    case h_2 o ho =>
      rcases List.mem_append.1 hd with hd | hd
      · exact screened_call (hp (p, c) (by simp)) hs.1 ho d hd
      · exact ih o.vfs (fun q hq => hp q (List.mem_cons_of_mem _ hq)) (hs.2 o ho) d hd

/-! ## A small tree -/

/-- A process of an ordinary user. The descriptor 3 is `/etc`, opened for reading. -/
def visitor : Process where
  euid := 1000
  egid := 1000
  capabilities := 0
  cwd := [slash]
  fds := fun fd => if fd = 3 then some 1 else none

/-- `/etc` with `passwd` and the directory `d`, and `/tmp`. -/
def tree : Vfs where
  root := some 0
  inode := fun i => ⟨if i = 2 then .reg else .dir, if i = 4 then 0o777 else 0o755, 0, 0, fun _ => true⟩
  hasLookup := fun _ => true
  lookup := fun i name =>
    if i = 0 ∧ name = [101, 116, 99] then some 1
    else if i = 1 ∧ name = [112, 97, 115, 115, 119, 100] then some 2
    else if i = 1 ∧ name = [100] then some 3
    else if i = 0 ∧ name = [116, 109, 112] then some 4
    else none
  readlink := fun _ => none
  readlink_le := fun _ _ h => by cases h
  mounts := []

/-- A file system on it: a new name gets the inode 9. -/
def small : Kernel where
  perform := fun v q =>
    match q.op, q.targets, q.names with
    | .create, [d], [n] | .symlink, [d], [n] =>
      (some 9, { v with lookup := fun i m => if i = d ∧ m = n then some 9 else v.lookup i m })
    | .unlink, [d], [n] | .rmdir, [d], [n] =>
      (some d, { v with lookup := fun i m => if i = d ∧ m = n then none else v.lookup i m })
    | .truncate, [i], _ => (some i, v)
    | _, _, _ => (none, v)
  depth := 8

/-- `mkdir("/etc/x")` and `truncate("/etc/passwd", 0)` are refused. -/
theorem protected_paths_etc :
    Respects small tree [(visitor, .mkdirat none [47, 101, 116, 99, 47, 120] 0o755),
      (visitor, .truncate [47, 101, 116, 99, 47, 112, 97, 115, 115, 119, 100] 0)] := by
  apply protected_paths
  · intro q hq
    simp only [List.mem_cons, List.not_mem_nil, or_false] at hq
    rcases hq with rfl | rfl <;> decide
  · refine ⟨fun w x _ _ => ⟨[47, 101, 116, 99, 47, 120], by decide, by decide⟩, fun o _ => ?_⟩
    exact ⟨fun w x _ _ => ⟨[47, 101, 116, 99, 47, 112, 97, 115, 115, 119, 100], by decide, by decide⟩, fun _ _ => trivial⟩

theorem protected_etc : Protected tree 1 :=
  ⟨[47, 101, 116, 99, 47], by decide, 1, .inl ⟨1, rfl⟩, .refl⟩

theorem protected_passwd : Protected tree 2 := by
  refine ⟨[47, 101, 116, 99, 47], by decide, 1, .inl ⟨1, rfl⟩, .single ?_⟩
  exact ⟨[112, 97, 115, 115, 119, 100], by decide, by decide, rfl⟩

/-- `O_WRONLY | O_TRUNC`. -/
def truncating : OpenFlags := ⟨false, true, false, 1, 0, true, some 4⟩

/-- The ways around the policy: `symlink("a", "//etc/x")`, `rmdir("/tmp/../etc/d")`, `mknod("/etc/f", S_IFIFO)`,
`mkdirat(3, "x")`, `unlinkat(3, "passwd")` and `openat(3, "passwd", O_WRONLY | O_TRUNC)`. -/
def bypasses : List Call :=
  [.symlink [97] [47, 47, 101, 116, 99, 47, 120],
    .unlinkat none [47, 116, 109, 112, 47, 46, 46, 47, 101, 116, 99, 47, 100] true,
    .mknod [47, 101, 116, 99, 47, 102] 0o010644, .mkdirat (some 3) [120] 0o755,
    .unlinkat (some 3) [112, 97, 115, 115, 119, 100] false,
    .openat (some 3) [112, 97, 115, 115, 119, 100] truncating]

theorem protected_paths_bypassed :
    visitor.mayModify = false ∧ ∀ c ∈ bypasses,
      ∃ d ∈ small.dispatches tree [(visitor, c)], ∃ x ∈ d.request.targets, Protected d.vfs x := by
  refine ⟨by decide, fun c hc => ?_⟩
  simp only [bypasses, List.mem_cons, List.not_mem_nil, or_false] at hc
  rcases hc with rfl | rfl | rfl | rfl | rfl | rfl
  · exact ⟨⟨{ op := .symlink, targets := [1], names := [[120]], text := [97] }, tree⟩, .head _, 1, .head _, protected_etc⟩
  · exact ⟨⟨{ op := .rmdir, targets := [1], names := [[100]] }, tree⟩, .head _, 1, .head _, protected_etc⟩
  · exact ⟨⟨create [102] 0o010644 1, tree⟩, .head _, 1, .head _, protected_etc⟩
  · exact ⟨⟨create [120] 0o040755 1, tree⟩, .head _, 1, .head _, protected_etc⟩
  · exact ⟨⟨{ op := .unlink, targets := [1], names := [[112, 97, 115, 115, 119, 100]] }, tree⟩, .head _, 1, .head _,
      protected_etc⟩
  · exact ⟨⟨truncate 2, tree⟩, .head _, 2, .head _, protected_passwd⟩

end Zigix.ProtectedPaths
