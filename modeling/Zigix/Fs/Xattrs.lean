import Mathlib.Data.Fin.Tuple.Basic
import Mathlib.Data.List.GetD
import Zigix.Lib.Bytes

/-!
# Extended attributes (`sysSetxattr`, `sysGetxattr`, `sysRemovexattr` in `kernel/proc/syscall_table.zig`)

The attributes of a file are a table of eight slots in its tmpfs node.

* `copyFromUser` : names and values are both read with it, and it stops at a zero byte;
* `sysSetxattr`, `sysGetxattr`, `sysRemovexattr`, `allocNode` : the calls, and where a new file gets its node;
* `Attrs`, `Event.track` : what the attributes should be;
* `Event.Valid` : a call as the interface allows it; `Event.Careful` : no zero byte hides a part of a value, no two names of a file
  agree in 63 bytes, a new file's node has an empty table, and a value is read into one page;
* `Refines.step` : then the tables say what they should;
* `xattrs_map` : and a value is read as it was set;
* `zero_byte_lost` : a value that is not.
-/

namespace Zigix.Xattrs

open Bytes (Buf)

abbrev Byte := BitVec 8

def maxNodes : Nat := 4096
def maxXattrs : Nat := 8
def maxXattrVal : Nat := 256
def pageSize : Nat := 4096

/-- The bytes after the end of `name` are never read; those of `value` are still there when the slot is used again. -/
structure Xattr where
  inUse : Bool
  name : List Byte
  value : Buf
  valueLen : Nat

structure Node where
  inUse : Bool
  xattrs : Fin maxXattrs → Xattr

structure State where
  nodes : Nat → Node

/-- What a path leads to: nothing, a file of another file system, a tmpfs node. -/
inductive Target
  | missing
  | other
  | node (i : Nat)

/-! ## User memory -/

/-- The memory of a process; `none` where no page can be had. -/
abbrev User := Nat → Option Byte

def copyLoop (user : User) (addr : Nat) : Nat → Nat → Buf → Nat × Buf
  | 0, copied, buf => (copied, buf)
  | fuel + 1, copied, buf =>
    match user (addr + copied) with
    | none => (copied, buf)
    | some byte =>
      let buf := Function.update buf copied byte
      if byte = 0 then (copied, buf) else copyLoop user addr fuel (copied + 1) buf

/-- The number of bytes before the end, and the buffer. -/
def copyFromUser (user : User) (addr : Nat) (buf : Buf) (limit : Nat) : Nat × Buf := copyLoop user addr limit 0 buf

def readName (user : User) (addr : Nat) : List Byte :=
  let (len, buf) := copyFromUser user addr (fun _ => 0) 63
  (List.range len).map buf

/-! ## The calls -/

def Node.find (node : Node) (name : List Byte) : Option (Fin maxXattrs) :=
  Fin.find? fun j => (node.xattrs j).inUse && (node.xattrs j).name == name

def Node.free (node : Node) : Option (Fin maxXattrs) := Fin.find? fun j => !(node.xattrs j).inUse

def State.setXattr (s : State) (i : Nat) (j : Fin maxXattrs) (x : Xattr) : State :=
  { s with nodes := Function.update s.nodes i { s.nodes i with xattrs := Function.update (s.nodes i).xattrs j x } }

/-- The value goes into the slot. -/
def Xattr.put (x : Xattr) (user : User) (valueAddr size : Nat) : Xattr :=
  let vlen := min size maxXattrVal
  { x with
    value := if 0 < size ∧ valueAddr ≠ 0 then (copyFromUser user valueAddr x.value vlen).2 else x.value
    valueLen := vlen }

def sysSetxattr (s : State) (target : Target) (user : User) (nameAddr valueAddr size : Nat) : Int × State :=
  match target with
  | .missing => (-2, s)
  | target =>
    let name := readName user nameAddr
    if name = [] then (-22, s)
    else match target with
      | .node i =>
        match (s.nodes i).find name with
        | some j => (0, s.setXattr i j (((s.nodes i).xattrs j).put user valueAddr size))
        | none =>
          match (s.nodes i).free with
          | some j =>
            (0, s.setXattr i j ({ (s.nodes i).xattrs j with inUse := true, name }.put user valueAddr size))
          | none => (-12, s)
      | _ => (-95, s)

/-- The result, and the bytes stored at `valueAddr`, which are all in one page. `mapped` : that page is there. -/
def sysGetxattr (s : State) (target : Target) (user : User) (nameAddr valueAddr bufSize : Nat) (mapped : Bool) :
    Int × List Byte :=
  match target with
  | .missing => (-2, [])
  | target =>
    let name := readName user nameAddr
    if name = [] then (-22, [])
    else match target with
      | .node i =>
        match (s.nodes i).find name with
        | none => (-61, [])
        | some j =>
          let x := (s.nodes i).xattrs j
          if bufSize = 0 then (x.valueLen, [])
          else if bufSize < x.valueLen then (-7, [])
          else if valueAddr ≠ 0 ∧ 0 < x.valueLen then
            if mapped = false then (-14, [])
            else (x.valueLen, (List.range (min x.valueLen (pageSize - valueAddr % pageSize))).map x.value)
          else (x.valueLen, [])
      | _ => (-61, [])

def sysRemovexattr (s : State) (target : Target) (user : User) (nameAddr : Nat) : Int × State :=
  match target with
  | .missing => (-2, s)
  | target =>
    let name := readName user nameAddr
    if name = [] then (-22, s)
    else match target with
      | .node i =>
        match (s.nodes i).find name with
        | none => (-61, s)
        | some j => (0, s.setXattr i j { (s.nodes i).xattrs j with inUse := false })
      | _ => (-61, s)

def firstFree (s : State) : Option Nat := (List.range maxNodes).find? fun i => !(s.nodes i).inUse

/-- A new file. The fields that it clears are not those of the attributes. -/
def allocNode (s : State) : Option (Nat × State) :=
  (firstFree s).map fun i => (i, { s with nodes := Function.update s.nodes i { s.nodes i with inUse := true } })

/-- The last link of a file is gone. -/
def freeNode (s : State) (i : Nat) : State :=
  { s with nodes := Function.update s.nodes i { s.nodes i with inUse := false } }

/-! ## What the attributes should be -/

/-- The value of each name of each file. -/
abbrev Attrs := Nat → List Byte → Option (List Byte)

inductive Event
  | create
  | delete (i : Nat)
  | set (i : Nat) (user : User) (nameAddr valueAddr : Nat) (name value : List Byte)
  | get (i : Nat) (user : User) (nameAddr valueAddr : Nat) (name : List Byte) (bufSize : Nat) (mapped : Bool)
  | remove (i : Nat) (user : User) (nameAddr : Nat) (name : List Byte)

def step (s : State) : Event → Int × List Byte × State
  | .create => match allocNode s with
    | none => (-1, [], s)
    | some (i, s) => (i, [], s)
  | .delete i => (0, [], freeNode s i)
  | .set i user nameAddr valueAddr _ value =>
    let (rax, s) := sysSetxattr s (.node i) user nameAddr valueAddr value.length
    (rax, [], s)
  | .get i user nameAddr valueAddr _ bufSize mapped =>
    let (rax, bytes) := sysGetxattr s (.node i) user nameAddr valueAddr bufSize mapped
    (rax, bytes, s)
  | .remove i user nameAddr _ =>
    let (rax, s) := sysRemovexattr s (.node i) user nameAddr
    (rax, [], s)

def Event.track (a : Attrs) (rax : Int) : Event → Attrs
  | .create => if 0 ≤ rax then Function.update a rax.toNat fun _ => none else a
  | .set i _ _ _ name value => if rax = 0 then Function.update a i (Function.update (a i) name (some value)) else a
  | .remove i _ _ name => if rax = 0 then Function.update a i (Function.update (a i) name none) else a
  | _ => a

structure Passes (user : User) (addr : Nat) (name : List Byte) : Prop where
  nonempty : name ≠ []
  bytes : ∀ k, k < name.length → user (addr + k) = name[k]?
  nonzero : 0 ∉ name
  ends : user (addr + name.length) = some 0

/-- A call on a file, with a name, a value of 1 to 256 bytes, a buffer that is large enough. -/
def Event.Valid (s : State) (a : Attrs) : Event → Prop
  | .set i user nameAddr valueAddr name value =>
    (s.nodes i).inUse = true ∧ Passes user nameAddr name ∧ valueAddr ≠ 0 ∧ 0 < value.length ∧ value.length ≤ maxXattrVal ∧
      ∀ k, k < value.length → user (valueAddr + k) = value[k]?
  | .get i user nameAddr valueAddr name bufSize _ =>
    (s.nodes i).inUse = true ∧ Passes user nameAddr name ∧ valueAddr ≠ 0 ∧ 0 < bufSize ∧
      ∀ v, a i name = some v → v.length ≤ bufSize
  | .remove i user nameAddr name => (s.nodes i).inUse = true ∧ Passes user nameAddr name
  | _ => True

def Alone (a : Attrs) (i : Nat) (name : List Byte) : Prop :=
  ∀ other, a i other ≠ none → other.take 63 = name.take 63 → other = name

/-- The slot a value goes into. -/
def Node.slotFor (node : Node) (name : List Byte) : Option (Fin maxXattrs) := (node.find name) <|> node.free

/-- **When a call is safe.** What a zero byte hides of a value is in the slot already; a value is read into one page that is there;
the node of a new file has no attributes. -/
def Event.Careful (s : State) (a : Attrs) : Event → Prop
  | .create => ∀ i, firstFree s = some i → ∀ j, ((s.nodes i).xattrs j).inUse = false
  | .delete _ => True
  | .set i _ _ _ name value => Alone a i name ∧ ∀ j, (s.nodes i).slotFor (name.take 63) = some j → ∀ k, k < value.length →
      0 ∈ value.take k → some (((s.nodes i).xattrs j).value k) = value[k]?
  | .get i _ _ valueAddr name _ mapped => Alone a i name ∧ ∀ v, a i name = some v →
      mapped = true ∧ valueAddr % pageSize + v.length ≤ pageSize
  | .remove i _ _ name => Alone a i name

/-! ## Reading user memory -/

section
variable {user : User} {addr copied fuel limit k : Nat} {buf : Buf} {v name value : List Byte} {s s' : State} {a : Attrs}

theorem not_mem_take_succ (h : 0 ∉ v.take k) (hk : v[k]? ≠ some 0) : 0 ∉ v.take (k + 1) := by
  rw [List.take_add_one, List.mem_append, not_or]
  refine ⟨h, fun hmem => hk ?_⟩
  rwa [Option.mem_toList] at hmem

/-- What is copied of the bytes `v`: those up to the first zero byte. -/
theorem copyLoop_spec (hread : ∀ k, k < copied + fuel → 0 ∉ v.take k → user (addr + k) = v[k]? ∧ k < v.length)
    (hfront : 0 ∉ v.take copied) :
    ∀ k, (copyLoop user addr fuel copied buf).2 k =
      if copied ≤ k ∧ k < copied + fuel ∧ 0 ∉ v.take k then v.getD k 0 else buf k := by
  induction fuel generalizing copied buf with
  | zero =>
    intro k
    rw [if_neg (by omega)]
    rfl
  | succ fuel ih =>
    obtain ⟨huser, hlt⟩ := hread copied (by omega) hfront
    rw [List.getElem?_eq_getElem hlt] at huser
    have hget : v.getD copied 0 = v[copied] := List.getD_eq_getElem _ _ hlt
    unfold copyLoop
    rw [huser]
    dsimp only
    intro k
    by_cases hzero : v[copied] = 0
    · rw [if_pos hzero]
      dsimp only
      by_cases hk : k = copied
      · subst hk
        rw [Function.update_self, if_pos ⟨le_rfl, by omega, hfront⟩, hget]
      · rw [Function.update_of_ne hk, if_neg]
        rintro ⟨hlo, -, hnot⟩
        apply hnot
        rw [← hzero]
        exact List.mem_take_iff_getElem.2 ⟨copied, by omega, rfl⟩
    · rw [if_neg hzero]
      have hnext : 0 ∉ v.take (copied + 1) :=
        not_mem_take_succ hfront (by rw [List.getElem?_eq_getElem hlt]; exact fun h => hzero (Option.some.inj h))
      rw [ih (fun k hk => hread k (by omega)) hnext]
      by_cases hk : k = copied
      · subst hk
        rw [if_neg (by omega), Function.update_self, if_pos ⟨le_rfl, by omega, hfront⟩, hget]
      · rw [Function.update_of_ne hk]
        refine if_congr ?_ rfl rfl
        constructor
        · rintro ⟨hlo, hhi, hnot⟩
          exact ⟨by omega, by omega, hnot⟩
        · rintro ⟨hlo, hhi, hnot⟩
          exact ⟨by omega, by omega, hnot⟩

theorem copyLoop_fst (hpass : Passes user addr name) (hle : copied ≤ name.length) :
    (copyLoop user addr fuel copied buf).1 = min (copied + fuel) name.length := by
  induction fuel generalizing copied buf with
  | zero =>
    unfold copyLoop
    omega
  | succ fuel ih =>
    unfold copyLoop
    rcases Nat.lt_or_eq_of_le hle with hlt | heq
    · have hne : name[copied] ≠ 0 := fun h => hpass.nonzero (h ▸ List.getElem_mem hlt)
      rw [hpass.bytes copied hlt, List.getElem?_eq_getElem hlt]
      dsimp only
      rw [if_neg hne, ih (by omega)]
      omega
    · rw [heq, hpass.ends]
      dsimp only
      rw [if_pos rfl]
      omega

theorem readName_eq (hpass : Passes user addr name) : readName user addr = name.take 63 := by
  have hread : ∀ k, k < 0 + 63 → 0 ∉ (name ++ [0]).take k → user (addr + k) = (name ++ [0])[k]? ∧ k < (name ++ [0]).length := by
    intro k _ hnot
    rcases Nat.lt_trichotomy k name.length with hlt | rfl | hgt
    · refine ⟨?_, by rw [List.length_append]; omega⟩
      rw [hpass.bytes k hlt, List.getElem?_append_left hlt]
    · refine ⟨?_, by rw [List.length_append]; exact Nat.lt_succ_self _⟩
      rw [hpass.ends, List.getElem?_append_right le_rfl, Nat.sub_self]
      rfl
    · refine absurd ?_ hnot
      rw [List.take_of_length_le (by rw [List.length_append]; exact hgt)]
      exact List.mem_append_right _ (List.mem_singleton.2 rfl)
  have hlen : (copyLoop user addr 63 0 fun _ => 0).1 = min 63 name.length := by
    rw [copyLoop_fst hpass (Nat.zero_le _), Nat.zero_add]
  unfold readName copyFromUser
  dsimp only
  rw [hlen]
  apply List.ext_getElem
  · rw [List.length_map, List.length_range, List.length_take]
  · intro k hk _
    rw [List.length_map, List.length_range] at hk
    rw [List.getElem_map, List.getElem_range, copyLoop_spec hread (by simp), List.getElem_take]
    have hlt : k < name.length := by omega
    have hnot : 0 ∉ (name ++ [0]).take k := by
      rw [List.take_append_of_le_length (by omega)]
      exact fun h => hpass.nonzero (List.mem_of_mem_take h)
    rw [if_pos ⟨Nat.zero_le k, by omega, hnot⟩, List.getD_append _ _ _ _ hlt, List.getD_eq_getElem _ _ hlt]

def Xattr.bytes (x : Xattr) : List Byte := (List.range x.valueLen).map x.value

theorem put_bytes {x : Xattr} {valueAddr : Nat} (haddr : valueAddr ≠ 0) (hpos : 0 < value.length) (hlen : value.length ≤ maxXattrVal)
    (hread : ∀ k, k < value.length → user (valueAddr + k) = value[k]?)
    (hhidden : ∀ k, k < value.length → 0 ∈ value.take k → some (x.value k) = value[k]?) :
    (x.put user valueAddr value.length).bytes = value := by
  have hmin : min value.length maxXattrVal = value.length := Nat.min_eq_left hlen
  unfold Xattr.bytes Xattr.put copyFromUser
  dsimp only
  rw [hmin, if_pos ⟨hpos, haddr⟩]
  apply List.ext_getElem
  · rw [List.length_map, List.length_range]
  · intro k _ hk
    rw [List.getElem_map, List.getElem_range,
      copyLoop_spec (v := value) (fun k h _ => ⟨hread k (by omega), by omega⟩) (by simp)]
    by_cases hzero : 0 ∈ value.take k
    · rw [if_neg fun h => h.2.2 hzero]
      have := hhidden k hk hzero
      rw [List.getElem?_eq_getElem hk] at this
      exact Option.some.inj this
    · rw [if_pos ⟨Nat.zero_le k, by omega, hzero⟩, List.getD_eq_getElem _ _ hk]

/-! ## One table -/

structure NodeOk (node : Node) (b : List Byte → Option (List Byte)) : Prop where
  apart : ∀ j k, (node.xattrs j).inUse = true → (node.xattrs k).inUse = true → (node.xattrs j).name = (node.xattrs k).name → j = k
  holds : ∀ name v, b name = some v →
    ∃ j, (node.xattrs j).inUse = true ∧ (node.xattrs j).name = name.take 63 ∧ (node.xattrs j).bytes = v
  known : ∀ j, (node.xattrs j).inUse = true → ∃ name, (node.xattrs j).name = name.take 63 ∧ b name ≠ none

variable {node : Node} {b : List Byte → Option (List Byte)} {j : Fin maxXattrs} {x : Xattr}

theorem Node.find_some {short : List Byte} (h : node.find short = some j) :
    (node.xattrs j).inUse = true ∧ (node.xattrs j).name = short := by
  have := (Fin.find?_eq_some_iff.1 h).1
  rwa [Bool.and_eq_true, beq_iff_eq] at this

theorem Node.find_none {short : List Byte} (h : node.find short = none) (huse : (node.xattrs j).inUse = true) :
    (node.xattrs j).name ≠ short := by
  have := Fin.find?_eq_none_iff.1 h j
  rw [huse, Bool.true_and] at this
  simpa using this

theorem NodeOk.find_some (hok : NodeOk node b) (halone : ∀ other, b other ≠ none → other.take 63 = name.take 63 → other = name)
    (h : node.find (name.take 63) = some j) : b name = some (node.xattrs j).bytes := by
  obtain ⟨huse, hname⟩ := Node.find_some h
  obtain ⟨other, hother, hset⟩ := hok.known j huse
  obtain rfl := halone other hset (hother ▸ hname)
  obtain ⟨v, hv⟩ := Option.ne_none_iff_exists'.1 hset
  obtain ⟨k, hkuse, hkname, hkbytes⟩ := hok.holds other v hv
  obtain rfl := hok.apart j k huse hkuse (hname.trans hkname.symm)
  rw [hv, hkbytes]

theorem NodeOk.find_none (hok : NodeOk node b) (h : node.find (name.take 63) = none) : b name = none := by
  by_contra hset
  obtain ⟨v, hv⟩ := Option.ne_none_iff_exists'.1 hset
  obtain ⟨j, huse, hname, -⟩ := hok.holds name v hv
  exact Node.find_none h huse hname

def Node.set (node : Node) (j : Fin maxXattrs) (x : Xattr) : Node := { node with xattrs := Function.update node.xattrs j x }

theorem Node.set_self : (node.set j x).xattrs j = x := Function.update_self ..

theorem Node.set_of_ne {k : Fin maxXattrs} (h : k ≠ j) : (node.set j x).xattrs k = node.xattrs k := Function.update_of_ne h ..

theorem NodeOk.put (hok : NodeOk node b) (halone : ∀ other, b other ≠ none → other.take 63 = name.take 63 → other = name)
    (huse : x.inUse = true) (hname : x.name = name.take 63) (hbytes : x.bytes = value)
    (hslot : (node.xattrs j).inUse = true → (node.xattrs j).name = name.take 63)
    (hothers : ∀ k, k ≠ j → (node.xattrs k).inUse = true → (node.xattrs k).name ≠ name.take 63) :
    NodeOk (node.set j x) (Function.update b name (some value)) where
  apart k l hk hl heq := by
    by_cases hkj : k = j <;> by_cases hlj : l = j
    · rw [hkj, hlj]
    · subst hkj
      rw [Node.set_self, Node.set_of_ne hlj] at heq
      rw [Node.set_of_ne hlj] at hl
      exact absurd (heq.symm.trans hname) (hothers l hlj hl)
    · subst hlj
      rw [Node.set_self, Node.set_of_ne hkj] at heq
      rw [Node.set_of_ne hkj] at hk
      exact absurd (heq.trans hname) (hothers k hkj hk)
    · rw [Node.set_of_ne hkj] at hk heq
      rw [Node.set_of_ne hlj] at hl heq
      exact hok.apart k l hk hl heq
  holds other v hv := by
    by_cases hother : other = name
    · subst hother
      rw [Function.update_self] at hv
      refine ⟨j, ?_⟩
      rw [Node.set_self]
      exact ⟨huse, hname, hbytes.trans (Option.some.inj hv)⟩
    · rw [Function.update_of_ne hother] at hv
      obtain ⟨k, hkuse, hkname, hkbytes⟩ := hok.holds other v hv
      have hkj : k ≠ j := by
        rintro rfl
        exact hother (halone other (by rw [hv]; exact nofun) (hkname.symm.trans (hslot hkuse)))
      refine ⟨k, ?_⟩
      rw [Node.set_of_ne hkj]
      exact ⟨hkuse, hkname, hkbytes⟩
  known k hk := by
    by_cases hkj : k = j
    · subst hkj
      refine ⟨name, ?_, ?_⟩
      · rw [Node.set_self, hname]
      · rw [Function.update_self]
        exact nofun
    · rw [Node.set_of_ne hkj] at hk ⊢
      obtain ⟨other, hother, hset⟩ := hok.known k hk
      refine ⟨other, hother, ?_⟩
      rwa [Function.update_of_ne]
      rintro rfl
      exact hothers k hkj hk hother

theorem NodeOk.remove (hok : NodeOk node b) (halone : ∀ other, b other ≠ none → other.take 63 = name.take 63 → other = name)
    (hfind : node.find (name.take 63) = some j) (hx : x.inUse = false) :
    NodeOk (node.set j x) (Function.update b name none) where
  apart k l hk hl heq := by
    have hne : ∀ m, ((node.set j x).xattrs m).inUse = true → m ≠ j := by
      rintro m hm rfl
      rw [Node.set_self, hx] at hm
      cases hm
    have hkj := hne k hk
    have hlj := hne l hl
    rw [Node.set_of_ne hkj] at hk heq
    rw [Node.set_of_ne hlj] at hl heq
    exact hok.apart k l hk hl heq
  holds other v hv := by
    obtain ⟨-, hname⟩ := Node.find_some hfind
    by_cases hother : other = name
    · subst hother
      rw [Function.update_self] at hv
      cases hv
    · rw [Function.update_of_ne hother] at hv
      obtain ⟨k, hkuse, hkname, hkbytes⟩ := hok.holds other v hv
      have hkj : k ≠ j := by
        rintro rfl
        exact hother (halone other (by rw [hv]; exact nofun) (hkname.symm.trans hname))
      refine ⟨k, ?_⟩
      rw [Node.set_of_ne hkj]
      exact ⟨hkuse, hkname, hkbytes⟩
  known k hk := by
    obtain ⟨huse, hname⟩ := Node.find_some hfind
    by_cases hkj : k = j
    · subst hkj
      rw [Node.set_self, hx] at hk
      cases hk
    · rw [Node.set_of_ne hkj] at hk ⊢
      obtain ⟨other, hother, hset⟩ := hok.known k hk
      refine ⟨other, hother, ?_⟩
      rwa [Function.update_of_ne]
      rintro rfl
      exact hkj (hok.apart k j hk huse (hother.trans hname.symm))

end

/-! ## Calls -/

section
variable {s s' : State} {a : Attrs} {i : Nat} {user : User} {nameAddr valueAddr bufSize : Nat} {name value : List Byte} {mapped : Bool}

def Refines (s : State) (a : Attrs) : Prop := ∀ i, (s.nodes i).inUse = true → NodeOk (s.nodes i) (a i)

theorem take_ne_nil (h : name ≠ []) : name.take 63 ≠ [] := fun hnil => by
  rcases List.take_eq_nil_iff.1 hnil with h' | h'
  · cases h'
  · exact h h'

theorem Refines.setXattr {j : Fin maxXattrs} {x : Xattr} {b : List Byte → Option (List Byte)} (hr : Refines s a)
    (hok : NodeOk ((s.nodes i).set j x) b) : Refines (s.setXattr i j x) (Function.update a i b) := by
  intro k hk
  by_cases hki : k = i
  · subst hki
    rw [Function.update_self]
    have hnode : (s.setXattr k j x).nodes k = (s.nodes k).set j x := Function.update_self ..
    rwa [hnode]
  · have hnode : (s.setXattr i j x).nodes k = s.nodes k := Function.update_of_ne hki ..
    rw [Function.update_of_ne hki]
    rw [hnode] at hk ⊢
    exact hr k hk

theorem Refines.create (hr : Refines s a) (hclean : Event.Careful s a .create) :
    Refines (step s .create).2.2 (Event.track a (step s .create).1 .create) := by
  unfold step allocNode
  cases hfree : firstFree s with
  | none =>
    show Refines s (if (0 : Int) ≤ -1 then Function.update a (-1 : Int).toNat fun _ => none else a)
    rw [if_neg (by decide)]
    exact hr
  | some i =>
    show Refines { s with nodes := Function.update s.nodes i { s.nodes i with inUse := true } }
      (if (0 : Int) ≤ (i : Int) then Function.update a (i : Int).toNat fun _ => none else a)
    rw [if_pos (Int.natCast_nonneg i), Int.toNat_natCast]
    intro k hk
    by_cases hki : k = i
    · subst hki
      rw [Function.update_self]
      dsimp only
      rw [Function.update_self]
      have hempty := hclean k hfree
      refine ⟨fun j _ hj => ?_, nofun, fun j hj => ?_⟩
      · rw [hempty j] at hj
        cases hj
      · rw [hempty j] at hj
        cases hj
    · dsimp only at hk ⊢
      rw [Function.update_of_ne hki] at hk ⊢
      rw [Function.update_of_ne hki]
      exact hr k hk

theorem Refines.delete (hr : Refines s a) (i : Nat) : Refines (freeNode s i) a := by
  intro k hk
  unfold freeNode at hk ⊢
  dsimp only at hk ⊢
  by_cases hki : k = i
  · subst hki
    rw [Function.update_self] at hk
    cases hk
  · rw [Function.update_of_ne hki] at hk ⊢
    exact hr k hk

theorem sysSetxattr_eq (hpass : Passes user nameAddr name) (s : State) (i valueAddr size : Nat) :
    sysSetxattr s (.node i) user nameAddr valueAddr size =
      match (s.nodes i).find (name.take 63), (s.nodes i).free with
      | some j, _ => (0, s.setXattr i j (((s.nodes i).xattrs j).put user valueAddr size))
      | none, some j =>
        (0, s.setXattr i j ({ (s.nodes i).xattrs j with inUse := true, name := name.take 63 }.put user valueAddr size))
      | none, none => (-12, s) := by
  unfold sysSetxattr
  dsimp only
  rw [readName_eq hpass, if_neg (take_ne_nil hpass.nonempty)]
  cases (s.nodes i).find (name.take 63) <;> cases (s.nodes i).free <;> rfl

theorem sysRemovexattr_eq (hpass : Passes user nameAddr name) (s : State) (i : Nat) :
    sysRemovexattr s (.node i) user nameAddr =
      match (s.nodes i).find (name.take 63) with
      | some j => (0, s.setXattr i j { (s.nodes i).xattrs j with inUse := false })
      | none => (-61, s) := by
  unfold sysRemovexattr
  dsimp only
  rw [readName_eq hpass, if_neg (take_ne_nil hpass.nonempty)]
  cases (s.nodes i).find (name.take 63) <;> rfl

theorem Refines.set (hr : Refines s a) (hvalid : (Event.set i user nameAddr valueAddr name value).Valid s a)
    (hcareful : (Event.set i user nameAddr valueAddr name value).Careful s a) :
    Refines (step s (.set i user nameAddr valueAddr name value)).2.2
      ((Event.set i user nameAddr valueAddr name value).track a (step s (.set i user nameAddr valueAddr name value)).1) := by
  obtain ⟨huse, hpass, haddr, hpos, hlen, hread⟩ := hvalid
  obtain ⟨halone, hslot⟩ := hcareful
  have hok := hr i huse
  show Refines (sysSetxattr s (.node i) user nameAddr valueAddr value.length).2
    (if (sysSetxattr s (.node i) user nameAddr valueAddr value.length).1 = 0 then
      Function.update a i (Function.update (a i) name (some value)) else a)
  rw [sysSetxattr_eq hpass]
  cases hfind : (s.nodes i).find (name.take 63) with
  | some j =>
    obtain ⟨hjuse, hjname⟩ := Node.find_some hfind
    have hbytes := put_bytes haddr hpos hlen hread (hslot j (by unfold Node.slotFor; rw [hfind]; rfl))
    dsimp only
    rw [if_pos rfl]
    exact hr.setXattr (hok.put halone hjuse hjname hbytes (fun _ => hjname)
      fun k hkj hk hname => hkj (hok.apart k j hk hjuse (hname.trans hjname.symm)))
  | none =>
    cases hfree : (s.nodes i).free with
    | some j =>
      have hjuse : ((s.nodes i).xattrs j).inUse = false := by
        have := (Fin.find?_eq_some_iff.1 hfree).1
        rwa [Bool.not_eq_true'] at this
      have hbytes := put_bytes (x := { (s.nodes i).xattrs j with inUse := true, name := name.take 63 }) haddr hpos hlen hread
        (hslot j (by unfold Node.slotFor; rw [hfind, hfree]; rfl))
      dsimp only
      rw [if_pos rfl]
      exact hr.setXattr (hok.put halone rfl rfl hbytes (fun h => by rw [hjuse] at h; cases h)
        fun k _ hk => Node.find_none hfind hk)
    | none =>
      dsimp only
      rw [if_neg (by decide)]
      exact hr

theorem Refines.remove (hr : Refines s a) (hvalid : (Event.remove i user nameAddr name).Valid s a)
    (halone : (Event.remove i user nameAddr name).Careful s a) :
    Refines (step s (.remove i user nameAddr name)).2.2
      ((Event.remove i user nameAddr name).track a (step s (.remove i user nameAddr name)).1) := by
  obtain ⟨huse, hpass⟩ := hvalid
  have hok := hr i huse
  show Refines (sysRemovexattr s (.node i) user nameAddr).2
    (if (sysRemovexattr s (.node i) user nameAddr).1 = 0 then Function.update a i (Function.update (a i) name none) else a)
  rw [sysRemovexattr_eq hpass]
  cases hfind : (s.nodes i).find (name.take 63) with
  | some j =>
    dsimp only
    rw [if_pos rfl]
    exact hr.setXattr (hok.remove halone hfind rfl)
  | none =>
    dsimp only
    rw [if_neg (by decide)]
    exact hr

/-- **One call** that is careful: the tables say what they should after it. -/
theorem Refines.step {e : Event} (hr : Refines s a) (hvalid : e.Valid s a) (hcareful : e.Careful s a) :
    Refines (step s e).2.2 (e.track a (step s e).1) := by
  cases e with
  | create => exact hr.create hcareful
  | delete i => exact hr.delete i
  | set i user nameAddr valueAddr name value => exact hr.set hvalid hcareful
  | get i user nameAddr valueAddr name bufSize mapped => exact hr
  | remove i user nameAddr name => exact hr.remove hvalid hcareful

/-- Runs of valid and careful calls on a file system that begins without files. -/
inductive Run : State → Attrs → Prop
  | start {t : State} : (∀ n, (t.nodes n).inUse = false) → Run t fun _ _ => none
  | step {t : State} {m : Attrs} {e : Event} : Run t m → e.Valid t m → e.Careful t m →
      Run (Xattrs.step t e).2.2 (e.track m (Xattrs.step t e).1)

theorem Run.refines (run : Run s a) : Refines s a := by
  induction run with
  | start hnone =>
    intro i hi
    rw [hnone i] at hi
    cases hi
  | step _ hvalid hcareful ih => exact ih.step hvalid hcareful

/-- **Extended attributes.** In a run of careful calls a value is read as it was set, and there is no data for a name that was
not set. -/
theorem xattrs_map (run : Run s a) (hvalid : (Event.get i user nameAddr valueAddr name bufSize mapped).Valid s a)
    (hcareful : (Event.get i user nameAddr valueAddr name bufSize mapped).Careful s a) :
    sysGetxattr s (.node i) user nameAddr valueAddr bufSize mapped =
      match a i name with
      | some v => ((v.length : Int), v)
      | none => (-61, []) := by
  obtain ⟨huse, hpass, haddr, hpos, hlarge⟩ := hvalid
  obtain ⟨halone, hpage⟩ := hcareful
  have hok := run.refines i huse
  unfold sysGetxattr
  dsimp only
  rw [readName_eq hpass, if_neg (take_ne_nil hpass.nonempty)]
  cases hfind : (s.nodes i).find (name.take 63) with
  | none => rw [hok.find_none hfind]
  | some j =>
    have hvalue := hok.find_some halone hfind
    obtain ⟨hmapped, hfits⟩ := hpage _ hvalue
    have hlen : ((s.nodes i).xattrs j).bytes.length = ((s.nodes i).xattrs j).valueLen := by
      unfold Xattr.bytes
      rw [List.length_map, List.length_range]
    have hbig := hlarge _ hvalue
    rw [hlen] at hfits hbig
    rw [hvalue]
    dsimp only
    rw [hlen, if_neg (by omega), if_neg (by omega), hmapped]
    split
    · rw [if_neg (by decide), Nat.min_eq_left (by omega)]
      rfl
    · next hzero =>
      have hempty : ((s.nodes i).xattrs j).valueLen = 0 := by omega
      unfold Xattr.bytes
      rw [hempty]
      rfl

end

/-! ## A value with a zero byte -/

def memory (value : List Byte) : User := fun addr =>
  if addr = 100 then some 97 else if addr = 101 then some 0
  else if 200 ≤ addr ∧ addr < 203 then value[addr - 200]? else none

/-- No files, and no attributes either. -/
def blank : State where
  nodes _ := ⟨false, fun _ => ⟨false, [], fun _ => 0, 0⟩⟩

theorem memory_passes (value : List Byte) : Passes (memory value) 100 [97] where
  nonempty := nofun
  bytes k hk := by
    obtain rfl := Nat.lt_one_iff.1 hk
    rfl
  nonzero := by decide
  ends := rfl

theorem memory_value {value : List Byte} (hlen : value.length = 3) (k : Nat) (hk : k < value.length) :
    memory value (200 + k) = value[k]? := by
  unfold memory
  rw [if_neg (by omega), if_neg (by omega), if_pos (by omega), Nat.add_sub_cancel_left]

/-- A new file with one attribute. -/
def tagged (value : List Byte) : State :=
  (step (step blank .create).2.2 (.set 0 (memory value) 100 200 [97] value)).2.2

theorem xattrs_map_three :
    sysGetxattr (tagged [1, 2, 3]) (.node 0) (memory [1, 2, 3]) 100 4000 16 true = (3, [1, 2, 3]) := by
  have created := Run.step (e := .create) (Run.start (t := blank) fun _ => rfl) trivial fun _ _ _ => rfl
  have hmade : Event.track (fun _ _ => none) (step blank .create).1 .create = fun _ _ => none := by
    have hrax : (step blank .create).1 = 0 := by decide +kernel
    unfold Event.track
    rw [hrax]
    exact Function.update_eq_self ..
  rw [hmade] at created
  have set := Run.step (e := .set 0 (memory [1, 2, 3]) 100 200 [97] [1, 2, 3]) created
    ⟨by decide +kernel, memory_passes _, by decide, by decide, by decide, memory_value rfl⟩
    ⟨fun _ hset => absurd rfl hset, fun _ _ k _ hzero => absurd (List.mem_of_mem_take hzero) (by decide)⟩
  have hset : (Event.set 0 (memory [1, 2, 3]) 100 200 [97] [1, 2, 3]).track (fun _ _ => none)
      (step (step blank .create).2.2 (.set 0 (memory [1, 2, 3]) 100 200 [97] [1, 2, 3])).1 0 =
      Function.update (fun _ => none) ([97] : List Byte) (some ([1, 2, 3] : List Byte)) := by
    have hrax : (step (step blank .create).2.2 (.set 0 (memory [1, 2, 3]) 100 200 [97] [1, 2, 3])).1 = 0 := by decide +kernel
    unfold Event.track
    dsimp only
    rw [hrax, if_pos rfl, Function.update_self]
  obtain ⟨a, run, ha⟩ : ∃ a : Attrs, Run (tagged [1, 2, 3]) a ∧
      a 0 = Function.update (fun _ => none) ([97] : List Byte) (some ([1, 2, 3] : List Byte)) :=
    ⟨_, set, hset⟩
  have hvalue : ∀ v, a 0 [97] = some v → v = [1, 2, 3] := fun v hv => by
    rw [ha, Function.update_self] at hv
    exact (Option.some.inj hv).symm
  have hvalid : (Event.get 0 (memory [1, 2, 3]) 100 4000 [97] 16 true).Valid (tagged [1, 2, 3]) a :=
    ⟨by decide +kernel, memory_passes _, by decide, by decide, fun v hv => by
      rw [hvalue v hv]
      decide⟩
  have hcareful : (Event.get 0 (memory [1, 2, 3]) 100 4000 [97] 16 true).Careful (tagged [1, 2, 3]) a := by
    refine ⟨fun other hother _ => ?_, fun v hv => ?_⟩
    · by_contra hne
      rw [ha, Function.update_of_ne hne] at hother
      exact hother rfl
    · rw [hvalue v hv]
      decide
  have hget := xattrs_map run hvalid hcareful
  rw [ha, Function.update_self] at hget
  exact hget

/-- The value that was set has a zero byte, and what follows it is lost. -/
theorem zero_byte_lost :
    (step (step blank .create).2.2 (.set 0 (memory [1, 0, 2]) 100 200 [97] [1, 0, 2])).1 = 0 ∧
    Passes (memory [1, 0, 2]) 100 [97] ∧ (∀ k, k < 3 → memory [1, 0, 2] (200 + k) = ([1, 0, 2] : List Byte)[k]?) ∧
    sysGetxattr (tagged [1, 0, 2]) (.node 0) (memory [1, 0, 2]) 100 4000 16 true = (3, [1, 0, 0]) := by
  exact ⟨by decide +kernel, memory_passes _, memory_value (show ([1, 0, 2] : List Byte).length = 3 from rfl), by decide +kernel⟩

end Zigix.Xattrs
