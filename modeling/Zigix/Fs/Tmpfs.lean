import Zigix.Fs.FileRead

/-!
# The file system in memory (`kernel/fs/tmpfs.zig`)

A pool of nodes. A directory lists its children; the name of a child is in the node itself, and further names of a file
are records of the hard link table. The contents of a file are in pages of its own, listed in a page of the node.

* `create`, `symlink`, `link`, `rename`, `unlink`, `rmdir`, `lookup` : the operations on directories;
* `tmpfsRead`, `tmpfsWrite`, `tmpfsTruncate` : the operations on files.

An inode is the number of its node. The pages that list children and data pages are modelled by what they list; the
children of a node are those below `child_count`.
-/

namespace Zigix.Tmpfs

open Pmm (pageSize)

def maxNodes : Nat := 4096
def maxDataPages : Nat := 256
def maxChildren : Nat := 128
def maxHardLinks : Nat := 32
def inoBase : Nat := 0x20000
def maxNameLen : Nat := 255

abbrev Name := List (BitVec 8)
abbrev Mode := BitVec 32

def sIfmt : Mode := 0xF000
def sIfdir : Mode := 0x4000
def sIflnk : Mode := 0xA000

def isDir (mode : Mode) : Bool := mode &&& sIfmt == sIfdir

structure TmpfsNode where
  name : Name
  ino : Nat
  mode : Mode
  nlink : Nat
  /-- `inode.size`; `size` is the node's own -/
  inodeSize : Nat
  size : Nat
  /-- the page that lists the data pages, and what it lists -/
  dataPages : Option (Nat × (Nat → Option Nat))
  /-- the page that lists the children -/
  childrenPage : Option Nat
  children : List Nat
  inUse : Bool

structure HardLinkEntry where
  inUse : Bool
  parent : Nat
  target : Nat
  name : Name

structure State where
  machine : Machine
  nodes : Nat → TmpfsNode
  hardLinks : Nat → HardLinkEntry
  nextIno : Nat

namespace State

def modify (s : State) (n : Nat) (f : TmpfsNode → TmpfsNode) : State :=
  { s with nodes := Function.update s.nodes n (f (s.nodes n)) }

/-- `nameEq` on the name of a node. -/
def hasName (s : State) (name : Name) (n : Nat) : Bool := (s.nodes n).name == name

end State

/-! ## Nodes and pages -/

/-- The first free node, cleared. -/
def allocNode (s : State) : Option (Nat × State) :=
  ((List.range maxNodes).find? fun i => !(s.nodes i).inUse).map fun i =>
    (i, s.modify i fun node =>
      { node with inUse := true, size := 0, dataPages := none, childrenPage := none, children := [] })

def freeEntry (pages : Nat → Option Nat) (m : Machine) (i : Nat) : Machine :=
  match pages i with
  | none => m
  | some f => m.freePage f

def freeDataPages (n : Nat) (s : State) : State :=
  match (s.nodes n).dataPages with
  | none => s
  | some (table, pages) =>
    { s with machine := ((List.range maxDataPages).foldl (freeEntry pages) s.machine).freePage table }.modify n
      fun node => { node with dataPages := none }

def freeChildren (n : Nat) (s : State) : State :=
  match (s.nodes n).childrenPage with
  | none => s
  | some page => { s with machine := s.machine.freePage page }.modify n fun node => { node with childrenPage := none }

def ensureChildren (n : Nat) (s : State) : Bool × State :=
  match (s.nodes n).childrenPage with
  | some _ => (true, s)
  | none =>
    match s.machine.allocPage with
    | (none, machine) => (false, { s with machine })
    | (some page, machine) =>
      (true, { s with machine }.modify n fun node => { node with childrenPage := some page })

def ensureDataPages (n : Nat) (s : State) : Option (Nat → Option Nat) × State :=
  match (s.nodes n).dataPages with
  | some (_, pages) => (some pages, s)
  | none =>
    match s.machine.allocPage with
    | (none, machine) => (none, { s with machine })
    | (some table, machine) =>
      (some fun _ => none,
        { s with machine }.modify n fun node => { node with dataPages := some (table, fun _ => none) })

/-- Entry `i` of the list of data pages. -/
def setDataPage (n i page : Nat) (s : State) : State :=
  s.modify n fun node =>
    { node with dataPages := node.dataPages.map fun (table, pages) => (table, Function.update pages i (some page)) }

/-! ## Directories -/

def findLink (s : State) (parent : Nat) (name : Name) : Option Nat :=
  (List.range maxHardLinks).find? fun i =>
    (s.hardLinks i).inUse && (s.hardLinks i).parent == parent && (s.hardLinks i).name == name

def lookup (s : State) (parent : Nat) (name : Name) : Option Nat :=
  match (s.nodes parent).children.find? (s.hasName name) with
  | some child => some child
  | none => (findLink s parent name).map fun i => (s.hardLinks i).target

/-- A new node becomes the last child; it is given up when there is no page for the list. -/
def addChild (parent node : Nat) (s : State) : Option Nat × State :=
  match ensureChildren parent s with
  | (false, s) => (none, s.modify node fun x => { x with inUse := false })
  | (true, s) => (some node, s.modify parent fun x => { x with children := x.children ++ [node] })

def newNode (name : Name) (mode : Mode) (inodeSize nlink : Nat) (s : State) : Option (Nat × State) :=
  (allocNode s).map fun (node, s) =>
    let s' := s.modify node fun x =>
      { x with name := name.take maxNameLen, ino := s.nextIno, mode, inodeSize, nlink }
    (node, { s' with nextIno := s.nextIno + 1 })

def create (parent : Nat) (name : Name) (mode : Mode) (s : State) : Option Nat × State :=
  if !isDir (s.nodes parent).mode then (none, s)
  else if (s.nodes parent).children.any (s.hasName name) then (none, s)
  else if maxChildren ≤ (s.nodes parent).children.length then (none, s)
  else
    match newNode name mode 0 (if isDir mode then 2 else 1) s with
    | none => (none, s)
    | some (node, s) => addChild parent node s

def storeTarget (node : Nat) (target : List (BitVec 8)) (s : State) : Bool × State :=
  if target.length = 0 ∨ pageSize < target.length then (true, s)
  else
    match ensureDataPages node s with
    | (none, s) => (false, s)
    | (some _, s) =>
      match s.machine.allocPage with
      | (none, machine) => (false, { s with machine })
      | (some page, machine) =>
        let machine := Ext2.storeBytes (machine.zeroPage page) page 0 target
        (true, setDataPage node 0 page { s with machine })

def symlink (parent : Nat) (name : Name) (target : List (BitVec 8)) (s : State) : Option Nat × State :=
  if maxChildren ≤ (s.nodes parent).children.length then (none, s)
  else
    match newNode name (sIflnk ||| 0o777) target.length 1 s with
    | none => (none, s)
    | some (node, s) =>
      match storeTarget node target s with
      | (false, s) => (none, s.modify node fun x => { x with inUse := false })
      | (true, s) => addChild parent node s

/-- One name less; the file is freed with its last name. -/
def dropLink (n : Nat) (s : State) : State :=
  let s := s.modify n fun x => { x with nlink := x.nlink - 1 }
  if (s.nodes n).nlink = 0 then (freeDataPages n s).modify n fun x => { x with inUse := false } else s

def removeChild (parent : Nat) (name : Name) (s : State) : State :=
  s.modify parent fun x => { x with children := x.children.eraseP (s.hasName name) }

/-- `unlink`: a child with this name, or else a record of the hard link table. -/
def unlink (parent : Nat) (name : Name) (s : State) : Bool × State :=
  match (s.nodes parent).children.find? (s.hasName name) with
  | some child =>
    if isDir (s.nodes child).mode then (false, s) else (true, dropLink child (removeChild parent name s))
  | none =>
    match findLink s parent name with
    | none => (false, s)
    | some i =>
      let target := (s.hardLinks i).target
      (true, dropLink target
        { s with hardLinks := Function.update s.hardLinks i { s.hardLinks i with inUse := false } })

def rmdir (parent : Nat) (name : Name) (s : State) : Bool × State :=
  match (s.nodes parent).children.find? (s.hasName name) with
  | none => (false, s)
  | some child =>
    if !isDir (s.nodes child).mode then (false, s)
    else if (s.nodes child).children.length ≠ 0 then (false, s)
    else
      let s' := (freeChildren child (freeDataPages child s)).modify child fun x => { x with inUse := false }
      (true, removeChild parent name s')

def link (parent : Nat) (name : Name) (target : Nat) (s : State) : Bool × State :=
  if (s.nodes parent).children.any (s.hasName name) then (false, s)
  else if (findLink s parent name).isSome then (false, s)
  else
    match (List.range maxHardLinks).find? fun i => !(s.hardLinks i).inUse with
    | none => (false, s)
    | some i =>
      let entry := { inUse := true, parent, target, name := name.take maxNameLen }
      (true, { s with hardLinks := Function.update s.hardLinks i entry }.modify target fun x =>
        { x with nlink := x.nlink + 1 })

/-- `tmpfsRename`: the child leaves the old directory and gets its new name before there is room for it in the new one. -/
def rename (oldParent : Nat) (oldName : Name) (newParent : Nat) (newName : Name) (s : State) : Bool × State :=
  match (s.nodes oldParent).children.find? (s.hasName oldName) with
  | none => (false, s)
  | some child =>
    let s := (removeChild oldParent oldName s).modify child fun x => { x with name := newName }
    if maxChildren ≤ (s.nodes newParent).children.length then (false, s)
    else
      match ensureChildren newParent s with
      | (false, s) => (false, s)
      | (true, s) => (true, s.modify newParent fun x => { x with children := x.children ++ [child] })

/-! ## Files -/

structure Desc where
  node : Nat
  offset : Nat
  append : Bool

/-- Byte `off` of a file; a page that is missing reads as zeros. -/
def byteAt (s : State) (n off : Nat) : BitVec 8 :=
  match (s.nodes n).dataPages with
  | none => 0
  | some (_, pages) =>
    match pages (off / pageSize) with
    | none => 0
    | some f => Machine.pageByte (s.machine.mem f) (off % pageSize)

/-- The bytes that the loop of `tmpfsRead` copies, page by page. -/
def readLoop (s : State) (n : Nat) : (fuel toRead off : Nat) → List (BitVec 8)
  | 0, _, _ => []
  | fuel + 1, toRead, off =>
    if toRead = 0 ∨ maxDataPages ≤ off / pageSize then []
    else
      let chunk := min toRead (pageSize - off % pageSize)
      (List.range chunk).map (fun i => byteAt s n (off + i)) ++ readLoop s n fuel (toRead - chunk) (off + chunk)

def tmpfsRead (d : Desc) (count : Nat) (s : State) : List (BitVec 8) × Desc :=
  if (s.nodes d.node).size ≤ d.offset then ([], d)
  else
    let toRead := min count ((s.nodes d.node).size - d.offset)
    let bytes := readLoop s d.node toRead toRead d.offset
    (bytes, { d with offset := d.offset + bytes.length })

/-- The loop of `tmpfsWrite`, page by page: what is left of the buffer, and the state. -/
def writeLoop (n : Nat) : (fuel : Nat) → (buf : List (BitVec 8)) → (off : Nat) → State → List (BitVec 8) × State
  | 0, buf, _, s => (buf, s)
  | fuel + 1, buf, off, s =>
    if buf.length = 0 ∨ maxDataPages ≤ off / pageSize then (buf, s)
    else
      let chunk := min buf.length (pageSize - off % pageSize)
      match ensureDataPages n s with
      | (none, s) => (buf, s)
      | (some pages, s) =>
        match pages (off / pageSize) with
        | some f =>
          let machine := Ext2.storeBytes s.machine f (off % pageSize) (buf.take chunk)
          writeLoop n fuel (buf.drop chunk) (off + chunk) { s with machine }
        | none =>
          match s.machine.allocPage with
          | (none, machine) => (buf, { s with machine })
          | (some f, machine) =>
            let s := setDataPage n (off / pageSize) f { s with machine := machine.zeroPage f }
            let machine := Ext2.storeBytes s.machine f (off % pageSize) (buf.take chunk)
            writeLoop n fuel (buf.drop chunk) (off + chunk) { s with machine }

/-- `tmpfsWrite`; `none` for the number of bytes is `EFBIG`. -/
def tmpfsWrite (d : Desc) (buf : List (BitVec 8)) (s : State) : Option Nat × Desc × State :=
  let start := if d.append then (s.nodes d.node).size else d.offset
  if 0 < buf.length ∧ maxDataPages ≤ start / pageSize then (none, d, s)
  else
    let (rest, s) := writeLoop d.node buf.length buf start s
    let written := buf.length - rest.length
    let off := start + written
    let s :=
      if (s.nodes d.node).size < off then s.modify d.node fun x => { x with size := off, inodeSize := off } else s
    (some written, { d with offset := off }, s)

def tmpfsTruncate (n : Nat) (s : State) : State :=
  (freeDataPages n s).modify n fun x => { x with size := 0, inodeSize := 0 }

/-! ## The start -/

def blankNode : TmpfsNode where
  name := []
  ino := 0
  mode := 0
  nlink := 0
  inodeSize := 0
  size := 0
  dataPages := none
  childrenPage := none
  children := []
  inUse := false

/-- `init`: node 0 is the root directory. -/
def init (machine : Machine) : State where
  machine
  nodes := Function.update (fun _ => blankNode) 0
    { blankNode with name := [0x2F], ino := inoBase, mode := sIfdir ||| 0o777, nlink := 2, inUse := true }
  hardLinks := fun _ => { inUse := false, parent := 0, target := 0, name := [] }
  nextIno := inoBase + 1

end Zigix.Tmpfs
