import Zigix.Fs.Fallocate
import Zigix.Fs.TmpfsOpen

/-!
# Files in memory as arrays of bytes

* `Call` : reads, writes, truncations and `fallocate`, with what they return;
* `contents_refine` : in every run of such calls the files are those arrays.
-/

namespace Zigix.Tmpfs

open Pmm (pageSize)
open Space (Inv)

/-! ## Calls -/

inductive Call
  | read (d : Desc) (count : Nat)
  | write (d : Desc) (buf : List (BitVec 8))
  | truncate (n : Nat)
  | fallocate (inode : FileInode) (mode : BitVec 32) (off len : Nat)

/-- What a call returns: bytes, a count or `EFBIG`, or a status. -/
inductive Out
  | bytes (bs : List (BitVec 8))
  | count (k : Option Nat)
  | status (r : Int)
deriving DecidableEq

def State.start (s : State) (d : Desc) : Nat := if d.append then (s.nodes d.node).size else d.offset

/-- The call; `none` is a kernel panic, or an access to memory that is no data page. -/
def Call.run (s : State) : Call → Option (Out × State)
  | .read d count => some (.bytes (tmpfsRead d count s).1, s)
  | .write d buf => some (.count (tmpfsWrite d buf s).1, (tmpfsWrite d buf s).2.2)
  | .truncate n => some (.status 0, tmpfsTruncate n s)
  | .fallocate inode mode off len => (sysFallocate inode mode off len s).map fun r => (.status r.1, r.2)

/-- The call has node `n`. -/
def Call.On (n : Nat) : Call → Prop
  | .read d _ | .write d _ => d.node = n
  | .truncate m | .fallocate (.node m) .. => m = n
  | .fallocate (.other ..) .. => False

/-! ## Arrays of bytes -/

namespace File

/-- What is between the offset and the end, at most `count` bytes. -/
def slice (file : File) (off count : Nat) : List (BitVec 8) :=
  (List.range (min count (file.size - off))).map fun i => file.bytes (off + i)

/-- A transfer of no bytes is none. -/
def store (file : File) (off : Nat) (bs : List (BitVec 8)) : File := if bs = [] then file else file.write off bs

def grow (file : File) (size : Nat) : File := { file with size := max file.size size }

def punch (file : File) (off len : Nat) : File :=
  { file with bytes := fun o => if off ≤ o ∧ o < off + len then 0 else file.bytes o }

def Same (file file' : File) : Prop := file.size = file'.size ∧ ∀ o, o < limit → file.bytes o = file'.bytes o

end File

/-- The arrays after a call that returned `out`. -/
def Call.apply (files : Nat → File) : Call → Out → Nat → File
  | .write d buf, .count (some k) =>
    let start := if d.append then (files d.node).size else d.offset
    Function.update files d.node ((files d.node).store start (buf.take k))
  | .truncate n, _ => Function.update files n .empty
  | .fallocate (.node n) mode off len, _ =>
    if mode = 0 then Function.update files n ((files n).grow (off + len))
    else if punches mode = true then Function.update files n ((files n).punch off len)
    else files
  | _, _ => files

def Call.Returns (files : Nat → File) : Call → Out → Prop
  | .read d count, out => out = .bytes ((files d.node).slice d.offset count)
  | .write _ buf, out => out = .count none ∨ ∃ k, k ≤ buf.length ∧ out = .count (some k)
  | .truncate _, out => out = .status 0
  | .fallocate .., out => out = .status 0 ∨ out = .status notSupported

def State.HasFile (s : State) (n : Nat) : Prop := (s.nodes n).inUse = true ∧ isFile (s.nodes n).mode = true

def State.Agrees (s : State) (files : Nat → File) : Prop := ∀ n, s.HasFile n → (fileAt s n).Same (files n)

/-- **A call is right**: it returns what the arrays say and leaves the files as they say, a read or a write that transfers
nothing leaves the sizes, and all memory but data pages of the call's file stays. -/
def Call.Right (s : State) (files : Nat → File) (call : Call) : Prop :=
  ∃ out s', call.run s = some (out, s') ∧ call.Returns files out ∧ s'.Agrees (call.apply files out) ∧
    ((∃ bs, out = .bytes bs) ∨ out = .count none ∨ out = .count (some 0) →
      ∀ n, (s'.nodes n).size = (s.nodes n).size ∧ (s'.nodes n).inodeSize = (s.nodes n).inodeSize) ∧
    ∀ f, (∀ n i, call.On n → (s'.nodes n).page (.data i) ≠ some f) → s'.machine.mem f = s.machine.mem f

/-! ## The condition -/

def storable (n off : Nat) (s : State) : Bool :=
  match ensureDataPages n s with
  | (none, _) => false
  | (some pages, s) => (pages (off / pageSize)).isSome || s.machine.allocPage.1.isSome

/-- The file has a name. A write that begins behind the end transfers something, or fails at the limit. `fallocate` makes
no file larger than the limit, punches no hole into pages that the list does not have, and finds no inode of another file
system with the number of a node. -/
def Call.Confined (s : State) : Call → Prop
  | .read d _ => s.HasFile d.node
  | .write d buf => s.HasFile d.node ∧ (s.start d ≤ (s.nodes d.node).size ∨
      buf ≠ [] ∧ (File.limit ≤ s.start d ∨ storable d.node (s.start d) s = true))
  | .truncate n => s.HasFile n
  | .fallocate (.node n) mode off len => (s.nodes n).inUse = true ∧
      if mode = 0 then off + len < 2 ^ 64 ∧ (s.HasFile n → off + len ≤ File.limit)
      else punches mode = true → off + len < 2 ^ 64 ∧ PunchSafe s n off (off + len)
  | .fallocate (.other ino size hasData) mode off len =>
      if mode = 0 then off + len < 2 ^ 64 ∧ (size < off + len → inoBase ≤ ino → hasData = false)
      else punches mode = true → off + len < 2 ^ 64 ∧
        (0 < len → off / pageSize < fallocatePages → inoBase ≤ ino → hasData = false)

inductive ContentsRun (Allowed : State → Call → Prop) (s₀ : State) : State → (Nat → File) → Prop
  | init : ContentsRun Allowed s₀ s₀ (fileAt s₀)
  | call {s s' : State} {files : Nat → File} {call : Call} {out : Out} : ContentsRun Allowed s₀ s files →
    Allowed s call → call.run s = some (out, s') → ContentsRun Allowed s₀ s' (call.apply files out)
  | names {s : State} {files : Nat → File} {op : Op} : ContentsRun Allowed s₀ s files → op.Enabled s →
    ContentsRun Allowed s₀ (op.exec s) fun n => if (s.nodes n).inUse = true then files n else .empty

/-! ## What a write does to memory -/

section Spec
variable {s s' s'' : State} {n off fuel k : Nat} {buf : List (BitVec 8)} {files : Nat → File} {d : Desc}

theorem ensureDataPages_grew (n : Nat) (s : State) : Grew n s (ensureDataPages n s).2 := by
  unfold ensureDataPages
  cases hd : (s.nodes n).dataPages with
  | some d => exact .refl n s
  | none =>
    rcases ha : s.machine.allocPage with ⟨o, m⟩
    have hmem : m.mem = s.machine.mem := congrArg (fun r => r.2.mem) ha.symm
    cases o with
    | none => exact ⟨rfl, fun _ _ h => h, fun _ _ => rfl, fun f _ => congrFun hmem f⟩
    | some table =>
      refine ⟨by rw [modify_self], fun i f hp => ?_, fun n' hn => Function.update_of_ne hn .., fun f _ => congrFun hmem f⟩
      unfold TmpfsNode.page at hp
      rw [hd] at hp
      cases hp

theorem ensureDataPages_pages (n : Nat) (s : State) (pages : Nat → Option Nat)
    (h : (ensureDataPages n s).1 = some pages) :
    ∃ table, ((ensureDataPages n s).2.nodes n).dataPages = some (table, pages) := by
  unfold ensureDataPages at h ⊢
  cases hd : (s.nodes n).dataPages with
  | some d =>
    rw [hd] at h
    refine ⟨d.1, ?_⟩
    rw [← Option.some.inj h]
    exact hd
  | none =>
    rw [hd] at h
    dsimp only at h ⊢
    rcases ha : s.machine.allocPage with ⟨o, m⟩
    rw [ha] at h
    cases o with
    | none => cases h
    | some table =>
      refine ⟨table, ?_⟩
      dsimp only at h ⊢
      rw [modify_self, Option.some.inj h]

theorem setDataPage_grew {table f i : Nat} {pages : Nat → Option Nat} {m : Machine}
    (hd : (s.nodes n).dataPages = some (table, pages)) (hempty : pages i = none)
    (ha : s.machine.allocPage = (some f, m)) : Grew n s (setDataPage n i f { s with machine := m.zeroPage f }) := by
  have hmem : m.mem = s.machine.mem := congrArg (fun r => r.2.mem) ha.symm
  have hself : ((setDataPage n i f { s with machine := m.zeroPage f }).nodes n) =
      { s.nodes n with dataPages := some (table, Function.update pages i (some f)) } := by
    unfold setDataPage
    rw [modify_self]
    dsimp only
    rw [hd]
    rfl
  have hpage : ∀ j, ((setDataPage n i f { s with machine := m.zeroPage f }).nodes n).page (.data j) =
      Function.update pages i (some f) j := fun j => by
    rw [hself]
    rfl
  refine ⟨by rw [hself], fun j g hg => ?_, fun n' hn => modify_of_ne hn _, fun g hg => ?_⟩
  · rw [hpage]
    have hj : pages j = some g := ((page_table hd).2 j).symm.trans hg
    have hne : j ≠ i := fun he => by
      rw [he, hempty] at hj
      cases hj
    rw [Function.update_of_ne hne, hj]
  · have hne : g ≠ f := fun he => hg i (by rw [hpage, Function.update_self, he])
    exact (Function.update_of_ne hne ..).trans (congrFun hmem g)

/-- **The loop of `tmpfsWrite`** writes to data pages of the file only. -/
theorem writeLoop_grew (n fuel : Nat) (buf : List (BitVec 8)) (off : Nat) (s : State) :
    Grew n s (writeLoop n fuel buf off s).2 := by
  induction fuel generalizing s buf off with
  | zero => exact .refl n s
  | succ fuel ih =>
    unfold writeLoop
    split
    · exact .refl n s
    dsimp only
    have hgrew := ensureDataPages_grew n s
    have hpages := ensureDataPages_pages n s
    rcases hens : ensureDataPages n s with ⟨o, s₁⟩
    rw [hens] at hgrew hpages
    cases o with
    | none => exact hgrew
    | some pages =>
      obtain ⟨table, hd⟩ := hpages pages rfl
      dsimp only at hgrew hd ⊢
      cases hp : pages (off / pageSize) with
      | some f =>
        have hpage : (s₁.nodes n).page (.data (off / pageSize)) = some f := ((page_table hd).2 _).trans hp
        exact (hgrew.trans (.store hpage _ _)).trans (ih ..)
      | none =>
        dsimp only
        rcases ha : s₁.machine.allocPage with ⟨o, m⟩
        have hmem : m.mem = s₁.machine.mem := congrArg (fun r => r.2.mem) ha.symm
        cases o with
        | none => exact hgrew.trans ⟨rfl, fun _ _ h => h, fun _ _ => rfl, fun f _ => congrFun hmem f⟩
        | some f =>
          have hset := setDataPage_grew hd hp ha
          have hself : ((setDataPage n (off / pageSize) f { s₁ with machine := m.zeroPage f }).nodes n).page
              (.data (off / pageSize)) = some f := by
            unfold setDataPage TmpfsNode.page
            rw [modify_self]
            dsimp only
            rw [hd]
            exact Function.update_self ..
          exact (hgrew.trans (hset.trans (.store hself _ _))).trans (ih ..)

theorem writeLoop_progress (h : s.Owned) (hbuf : buf ≠ []) (hstart : off < File.limit) (hstore : storable n off s = true) :
    (writeLoop n buf.length buf off s).1 ≠ buf := by
  have hlen : 0 < buf.length := List.length_pos_of_ne_nil hbuf
  have hmod := Nat.mod_lt off (show 0 < pageSize by decide)
  have hin : ¬ maxDataPages ≤ off / pageSize := fun hle =>
    absurd ((Nat.le_div_iff_mul_le (by decide)).1 hle) (by unfold File.limit at hstart; omega)
  obtain ⟨fuel, hfuel⟩ := Nat.exists_eq_succ_of_ne_zero hlen.ne'
  rw [hfuel, Nat.succ_eq_add_one]
  obtain ⟨s₂, ⟨heff, -⟩, ⟨-, hnone⟩ | ⟨table, pages, f, hd, hf, hgoes⟩⟩ :=
    writeLoop_turn h n fuel (not_or.2 ⟨hlen.ne', hin⟩)
  · unfold storable at hstore
    rcases hens : ensureDataPages n s with ⟨- | pages, s₁⟩
    · rw [hens] at hstore
      cases hstore
    · rw [hens] at hstore hnone
      obtain ⟨hpage, halloc⟩ := hnone pages rfl
      simp [hpage, halloc] at hstore
  · rw [hgoes]
    intro heq
    -- the rest of the loop works on a shorter buffer
    obtain ⟨k, -, hdrop, -⟩ := writeLoop_spec (storeBytes_wrote heff.owned off hd hf (chunk_fits off buf)).effect.owned n fuel
      (buf.drop (chunkAt off buf)) (off + chunkAt off buf)
    have hshort := congrArg List.length (hdrop.symm.trans heq)
    rw [List.length_drop, List.length_drop, chunkAt] at hshort
    omega

theorem writeLoop_bounded (h : s.Owned) (n fuel : Nat) (buf : List (BitVec 8)) (off : Nat) :
    off + (buf.length - (writeLoop n fuel buf off s).1.length) ≤ max off File.limit := by
  induction fuel generalizing s buf off with
  | zero =>
    rw [writeLoop, Nat.sub_self]
    exact Nat.le_max_left ..
  | succ fuel ih =>
    by_cases hgo : buf.length = 0 ∨ maxDataPages ≤ off / pageSize
    · rw [writeLoop, if_pos hgo, Nat.sub_self]
      exact Nat.le_max_left ..
    obtain ⟨s₂, ⟨heff, -⟩, ⟨hstop, -⟩ | ⟨table, pages, f, hd, hf, hgoes⟩⟩ := writeLoop_turn h n fuel hgo
    · rw [hstop, Nat.sub_self]
      exact Nat.le_max_left ..
    · rw [hgoes]
      -- the page of `off` ends before the limit
      have hpage : off + (pageSize - off % pageSize) ≤ File.limit := by
        have hnext : (off / pageSize + 1) * pageSize ≤ maxDataPages * pageSize :=
          Nat.mul_le_mul_right _ (Nat.lt_of_not_le fun hle => hgo (.inr hle))
        have hdiv := Nat.div_add_mod off pageSize
        have hmod := Nat.mod_lt off (show 0 < pageSize by decide)
        have : (off / pageSize + 1) * pageSize = pageSize * (off / pageSize) + pageSize := by rw [Nat.succ_mul, Nat.mul_comm]
        unfold File.limit
        omega
      have hrec := ih (storeBytes_wrote heff.owned off hd hf (chunk_fits off buf)).effect.owned (buf.drop (chunkAt off buf))
        (off + chunkAt off buf)
      have hchunk : chunkAt off buf ≤ pageSize - off % pageSize := Nat.min_le_right ..
      rw [List.length_drop] at hrec
      omega

theorem tmpfsWrite_bounded (h : s.Owned) (d : Desc) (buf : List (BitVec 8)) {k : Nat}
    (hcount : (tmpfsWrite d buf s).1 = some k) : s.start d + k ≤ max (s.start d) File.limit := by
  unfold tmpfsWrite at hcount
  dsimp only at hcount
  change (if 0 < buf.length ∧ maxDataPages ≤ s.start d / pageSize then _ else _ : Option Nat × Desc × State).1 = _
    at hcount
  split at hcount
  · cases hcount
  · rw [← Option.some.inj hcount]
    exact writeLoop_bounded h d.node buf.length buf (s.start d)

structure Sized (n : Nat) (s s' : State) : Prop where
  sizes : (s.nodes n).inodeSize = (s.nodes n).size → (s'.nodes n).inodeSize = (s'.nodes n).size
  kept : (s'.nodes n).size = (s.nodes n).size → (s'.nodes n).inodeSize = (s.nodes n).inodeSize
  others : ∀ n', n' ≠ n → s'.nodes n' = s.nodes n'
  mem : ∀ f, (∀ i, (s'.nodes n).page (.data i) ≠ some f) → s'.machine.mem f = s.machine.mem f

theorem Grew.sized (h : Grew n s s') (hsize : (s'.nodes n).size = (s.nodes n).size) : Sized n s s' :=
  ⟨fun heq => by rw [h.inodeSize, hsize, heq], fun _ => h.inodeSize, h.others, h.mem⟩

theorem tmpfsWrite_sized (h : s.Owned) (d : Desc) (buf : List (BitVec 8)) :
    Sized d.node s (tmpfsWrite d buf s).2.2 := by
  unfold tmpfsWrite
  dsimp only
  generalize (if d.append then (s.nodes d.node).size else d.offset) = start
  split
  · exact (Grew.refl d.node s).sized rfl
  have hgrew := writeLoop_grew d.node buf.length buf start s
  obtain ⟨k, -, -, hw⟩ := writeLoop_spec h d.node buf.length buf start
  rcases hloop : writeLoop d.node buf.length buf start s with ⟨rest, s₁⟩
  rw [hloop] at hgrew hw
  dsimp only at hgrew hw ⊢
  split
  · next hlt =>
    refine ⟨fun _ => by rw [modify_self], fun heq => ?_, fun n' hn => ?_, fun f hf => hgrew.mem f fun i hp => hf i ?_⟩
    · rw [modify_self] at heq
      rw [hw.size, ← heq] at hlt
      exact absurd hlt (Nat.lt_irrefl _)
    · exact (modify_of_ne hn _).trans (hgrew.others n' hn)
    · rw [modify_self]
      exact hp
  · exact hgrew.sized hw.size

theorem tmpfsWrite_stored (h : s.Owned) (d : Desc) (buf : List (BitVec 8))
    (hok : s.start d ≤ (s.nodes d.node).size ∨
      buf ≠ [] ∧ (File.limit ≤ s.start d ∨ storable d.node (s.start d) s = true)) :
    ((tmpfsWrite d buf s).1 = none ∧ (tmpfsWrite d buf s).2.2 = s) ∨
    ∃ k, k ≤ buf.length ∧ (tmpfsWrite d buf s).1 = some k ∧
      Stored d.node ((fileAt s d.node).store (s.start d) (buf.take k)) s (tmpfsWrite d buf s).2.2 := by
  rcases tmpfsWrite_spec h d buf with ⟨hnone, hsame⟩ | ⟨k, hk, hcount, -, hst⟩
  · exact .inl ⟨hnone, congrArg Prod.snd hsame⟩
  refine .inr ⟨k, hk, hcount, ?_⟩
  unfold File.store
  by_cases hzero : buf.take k = []
  · rw [if_pos hzero]
    refine ⟨hst.effect, hst.ino, hst.mode, hst.inUse, hst.file.trans ?_, hst.tree, hst.nextIno⟩
    -- nothing was transferred, so the write began in the file
    have hin : s.start d ≤ (s.nodes d.node).size := by
      rcases hok with hle | ⟨hbuf, hroom⟩
      · exact hle
      exfalso
      have hkz : k = 0 := by
        have := congrArg List.length hzero
        rw [List.length_take_of_le hk] at this
        exact this
      rw [hkz] at hcount
      unfold tmpfsWrite at hcount
      dsimp only at hcount
      change (if 0 < buf.length ∧ maxDataPages ≤ s.start d / pageSize then _ else _ : Option Nat × Desc × State).1 = _
        at hcount
      by_cases hfar : File.limit ≤ s.start d
      · rw [if_pos ⟨List.length_pos_of_ne_nil hbuf, (Nat.le_div_iff_mul_le (by decide)).2 hfar⟩] at hcount
        cases hcount
      · rw [if_neg fun hboth => hfar ((Nat.le_div_iff_mul_le (by decide)).1 hboth.2)] at hcount
        have hne := writeLoop_progress h hbuf (Nat.lt_of_not_le hfar) (hroom.resolve_left hfar)
        obtain ⟨j, hj, hdrop, -⟩ := writeLoop_spec h d.node buf.length buf (s.start d)
        change some (buf.length - (writeLoop d.node buf.length buf (s.start d) s).1.length) = some 0 at hcount
        rw [hdrop] at hcount hne
        have hlen := Option.some.inj hcount
        rw [List.length_drop] at hlen
        have hjz : j = 0 := by omega
        exact hne (by rw [hjz, List.drop_zero])
    rw [hzero]
    unfold File.write fileAt
    dsimp only
    rw [List.length_nil, Nat.add_zero]
    change File.mk (max _ (s.start d)) _ = _
    rw [max_eq_left hin]
    congr 1
    funext o
    rw [if_neg (by omega)]
  · rw [if_neg hzero]
    exact hst

end Spec

/-! ## Sizes and modes in the inodes -/

section Stamps
variable {s s' : State} {n : Nat}

def State.stamps (s : State) (n : Nat) : Nat × Mode := ((s.nodes n).inodeSize, (s.nodes n).mode)

theorem stamps_modify {f : TmpfsNode → TmpfsNode} (hinode : (f (s.nodes n)).inodeSize = (s.nodes n).inodeSize)
    (hmode : (f (s.nodes n)).mode = (s.nodes n).mode) :
    (s.modify n f).stamps = s.stamps := by
  funext m
  unfold State.stamps
  by_cases hm : m = n
  · rw [hm, modify_self, hinode, hmode]
  · rw [modify_of_ne hm]

theorem stamps_freeDataPages (n : Nat) (s : State) : (freeDataPages n s).stamps = s.stamps := by
  unfold freeDataPages
  split
  · rfl
  · exact stamps_modify rfl rfl

theorem stamps_freeChildren (n : Nat) (s : State) : (freeChildren n s).stamps = s.stamps := by
  unfold freeChildren
  split
  · rfl
  · exact stamps_modify rfl rfl

theorem stamps_ensureChildren (n : Nat) (s : State) : (ensureChildren n s).2.stamps = s.stamps := by
  unfold ensureChildren
  split
  · rfl
  · split
    · rfl
    · dsimp only
      exact .trans (stamps_modify rfl rfl) rfl

theorem stamps_storeTarget (n : Nat) (target : List (BitVec 8)) (s : State) :
    (storeTarget n target s).2.stamps = s.stamps := by
  have hdata : (ensureDataPages n s).2.stamps = s.stamps := by
    unfold ensureDataPages
    split
    · rfl
    · split
      · rfl
      · dsimp only
        exact .trans (stamps_modify rfl rfl) rfl
  unfold storeTarget
  split
  · rfl
  · split
    · next heq => rw [← hdata, heq]
    · next heq =>
      rw [heq] at hdata
      rw [← hdata]
      split
      · rfl
      · dsimp only
        unfold setDataPage
        exact .trans (stamps_modify rfl rfl) rfl

theorem stamps_addChild (parent node : Nat) (s : State) : (addChild parent node s).2.stamps = s.stamps := by
  have hens := stamps_ensureChildren parent s
  unfold addChild
  split
  · next heq =>
    rw [heq] at hens
    dsimp only at hens ⊢
    exact .trans (stamps_modify rfl rfl) hens
  · next heq =>
    rw [heq] at hens
    dsimp only at hens ⊢
    exact .trans (stamps_modify rfl rfl) hens

theorem stamps_dropLink (n : Nat) (s : State) : (dropLink n s).stamps = s.stamps := by
  have hlink : (s.modify n fun x => { x with nlink := x.nlink - 1 }).stamps = s.stamps := stamps_modify rfl rfl
  unfold dropLink
  dsimp only
  split
  · exact .trans (stamps_modify rfl rfl) ((stamps_freeDataPages ..).trans hlink)
  · exact hlink

theorem stamps_removeChild (parent : Nat) (name : Name) (s : State) :
    (removeChild parent name s).stamps = s.stamps := stamps_modify rfl rfl

theorem stamps_newNode {name : Name} {mode : Mode} {inodeSize nlink : Nat}
    (h : newNode name mode inodeSize nlink s = some (n, s')) :
    firstFree s = some n ∧ s'.stamps = Function.update s.stamps n (inodeSize, mode) := by
  obtain ⟨⟨i, s₁⟩, halloc, heq⟩ := Option.map_eq_some_iff.1 h
  obtain ⟨j, hfirst, heq'⟩ := Option.map_eq_some_iff.1 halloc
  cases heq'
  cases heq
  refine ⟨hfirst, funext fun m => ?_⟩
  unfold State.stamps
  dsimp only
  by_cases hm : m = n
  · rw [hm, modify_self, Function.update_self]
  · rw [modify_of_ne hm, modify_of_ne hm, Function.update_of_ne hm]

theorem stamps_rename (oldParent : Nat) (oldName : Name) (newParent : Nat) (newName : Name) (s : State) :
    (rename oldParent oldName newParent newName s).2.stamps = s.stamps := by
  unfold rename
  cases (s.nodes oldParent).children.find? (s.hasName oldName) with
  | none => rfl
  | some child =>
    dsimp only
    have hmoved : ((removeChild oldParent oldName s).modify child fun x => { x with name := newName }).stamps =
        s.stamps := .trans (stamps_modify rfl rfl) (stamps_removeChild ..)
    split
    · exact hmoved
    have hens := stamps_ensureChildren newParent
      ((removeChild oldParent oldName s).modify child fun x => { x with name := newName })
    split
    · next heq =>
      rw [heq] at hens
      exact hens.trans hmoved
    · next heq =>
      rw [heq] at hens
      dsimp only at hens ⊢
      exact .trans (stamps_modify rfl rfl) (hens.trans hmoved)

/-- **The operations on names** leave size and mode of every inode, but for the node that a new file or link takes. -/
theorem Op.exec_stamps (op : Op) (s : State) :
    ((op.exec s).stamps = s.stamps ∧ (op.Makes → op.exec s = s)) ∨
    ∃ a size mode, firstFree s = some a ∧ (op.exec s).stamps = Function.update s.stamps a (size, mode) ∧
      (size = 0 ∨ isFile mode = false) := by
  unfold Op.exec
  cases op with
  | create parent name mode =>
    unfold Tmpfs.create
    dsimp only
    split
    · exact .inl ⟨rfl, fun _ => rfl⟩
    split
    · exact .inl ⟨rfl, fun _ => rfl⟩
    split
    · exact .inl ⟨rfl, fun _ => rfl⟩
    split
    · exact .inl ⟨rfl, fun _ => rfl⟩
    next heq =>
      obtain ⟨hfirst, hstamps⟩ := stamps_newNode heq
      exact .inr ⟨_, _, _, hfirst, (stamps_addChild ..).trans hstamps, .inl rfl⟩
  | symlink parent name target =>
    unfold Tmpfs.symlink
    dsimp only
    split
    · exact .inl ⟨rfl, fun _ => rfl⟩
    cases heq : newNode name (sIflnk ||| 0o777) target.length 1 s with
    | none => exact .inl ⟨rfl, fun _ => rfl⟩
    | some r =>
      obtain ⟨node, s₁⟩ := r
      obtain ⟨hfirst, hstamps⟩ := stamps_newNode heq
      have hstore := stamps_storeTarget node target s₁
      refine .inr ⟨node, target.length, sIflnk ||| 0o777, hfirst, ?_, .inr (by decide)⟩
      dsimp only
      rcases hres : storeTarget node target s₁ with ⟨ok, s₂⟩
      rw [hres] at hstore
      cases ok with
      | false =>
        dsimp only at hstore ⊢
        exact .trans (stamps_modify rfl rfl) (hstore.trans hstamps)
      | true => exact (stamps_addChild ..).trans (hstore.trans hstamps)
  | rename oldParent oldName newParent newName => exact .inl ⟨stamps_rename .., nofun⟩
  | unlink parent name =>
    refine .inl ⟨?_, nofun⟩
    unfold Tmpfs.unlink
    dsimp only
    split
    · split
      · rfl
      · exact (stamps_dropLink ..).trans (stamps_removeChild ..)
    · split
      · rfl
      · exact stamps_dropLink ..
  | rmdir parent name =>
    refine .inl ⟨?_, nofun⟩
    unfold Tmpfs.rmdir
    dsimp only
    split
    · rfl
    split
    · rfl
    split
    · rfl
    exact (stamps_removeChild ..).trans (.trans (stamps_modify rfl rfl)
      ((stamps_freeChildren ..).trans (stamps_freeDataPages ..)))
  | link parent name source sourceName =>
    refine .inl ⟨?_, nofun⟩
    dsimp only
    split
    · rfl
    split
    · rfl
    unfold Tmpfs.link
    split
    · rfl
    split
    · rfl
    split
    · rfl
    · dsimp only
      exact .trans (stamps_modify rfl rfl) rfl

end Stamps

/-! ## The invariant -/

section Steps
variable {s s' : State} {files : Nat → File} {n : Nat}

structure State.Regular (s : State) (n : Nat) : Prop where
  sizes : (s.nodes n).inodeSize = (s.nodes n).size
  fits : (s.nodes n).size ≤ File.limit
  zeros : ∀ o, (s.nodes n).size ≤ o → o < File.limit → byteAt s n o = 0

structure State.Good (s : State) (files : Nat → File) : Prop where
  owned : s.Owned
  wired : s.tree.Wired False
  next : inoBase ≤ s.nextIno
  above : ∀ n, (s.nodes n).inUse = true → inoBase ≤ (s.nodes n).ino
  regular : ∀ n, s.HasFile n → s.Regular n
  agrees : s.Agrees files

theorem File.Same.refl (file : File) : file.Same file := ⟨rfl, fun _ _ => rfl⟩

theorem State.Regular.kept (h : s.Regular n) (hk : Kept s s' n) (hi : (s'.nodes n).inodeSize = (s.nodes n).inodeSize) :
    s'.Regular n where
  sizes := by rw [hi, hk.size, h.sizes]
  fits := by
    rw [hk.size]
    exact h.fits
  zeros o hle hlt := by
    rw [hk.size] at hle
    rw [hk.bytes, h.zeros o hle hlt]

theorem State.Good.step (h : s.Good files) {file : File} (heff : Effect (some n) s s')
    (hothers : ∀ n', n' ≠ n → s'.nodes n' = s.nodes n') (htree : s'.tree = s.tree) (hnext : s'.nextIno = s.nextIno)
    (hino : (s'.nodes n).ino = (s.nodes n).ino) (huse : (s'.nodes n).inUse = (s.nodes n).inUse)
    (hself : s'.HasFile n → s'.Regular n ∧ (fileAt s' n).Same file) :
    s'.Good (Function.update files n file) := by
  refine ⟨heff.owned, htree ▸ h.wired, hnext ▸ h.next, fun n' hn' => ?_, fun n' hn' => ?_, fun n' hn' => ?_⟩
  · by_cases hne : n' = n
    · subst hne
      rw [hino]
      exact h.above n' (huse ▸ hn')
    · rw [hothers n' hne] at hn' ⊢
      exact h.above n' hn'
  · by_cases hne : n' = n
    · subst hne
      exact (hself hn').1
    · have hk := heff.kept n' fun he => hne (Option.some.inj he).symm
      have hfile : s.HasFile n' := by
        unfold State.HasFile at hn' ⊢
        rwa [hothers n' hne] at hn'
      exact (h.regular n' hfile).kept hk (by rw [hothers n' hne])
  · by_cases hne : n' = n
    · subst hne
      rw [Function.update_self]
      exact (hself hn').2
    · have hk := heff.kept n' fun he => hne (Option.some.inj he).symm
      have hfile : s.HasFile n' := by
        unfold State.HasFile at hn' ⊢
        rwa [hothers n' hne] at hn'
      rw [Function.update_of_ne hne, hk.fileAt]
      exact h.agrees n' hfile

/-- **An operation on names** between the calls; a new file is empty. -/
theorem State.Good.names (h : s.Good files) {op : Op} (hen : op.Enabled s) :
    (op.exec s).Good fun n => if (s.nodes n).inUse = true then files n else .empty := by
  have hwired := Op.exec_wired h.wired hen fun u => u.elim
  -- a file that was there before is as it was
  have hold : ∀ {a : Option Nat} {n : Nat}, Effect a s (op.exec s) → a ≠ some n → (op.exec s).HasFile n →
      (s.nodes n).inUse = true ∧ (op.exec s).Regular n ∧ (fileAt (op.exec s) n).Same (files n) := fun {a n} heff hne hn => by
    have hk := heff.kept n hne
    have huse : (s.nodes n).inUse = true := hk.inUse ▸ hn.1
    have hfile : s.HasFile n := ⟨huse, hk.mode ▸ hn.2⟩
    have hinode : ((op.exec s).nodes n).inodeSize = (s.nodes n).inodeSize := by
      rcases op.exec_stamps s with ⟨hsame, -⟩ | ⟨b, size, mode, hfirst, hsame, -⟩
      · exact congrArg Prod.fst (congrFun hsame n)
      · have hfree := firstFree_free hfirst
        have hnb : n ≠ b := fun he => by
          rw [he, hfree] at huse
          cases huse
        have := congrFun hsame n
        rw [Function.update_of_ne hnb] at this
        exact congrArg Prod.fst this
    refine ⟨huse, (h.regular n hfile).kept hk hinode, ?_⟩
    rw [hk.fileAt]
    exact h.agrees n hfile
  have hagrees : ∀ {n : Nat}, (s.nodes n).inUse = true → (fileAt (op.exec s) n).Same (files n) →
      (fileAt (op.exec s) n).Same (if (s.nodes n).inUse = true then files n else .empty) := fun huse hsame => by
    rwa [if_pos huse]
  have habove : ∀ {a : Option Nat} {n : Nat}, Effect a s (op.exec s) → a ≠ some n → ((op.exec s).nodes n).inUse = true →
      inoBase ≤ ((op.exec s).nodes n).ino := fun {a n} heff hne hn => by
    have hk := heff.kept n hne
    rw [hk.ino]
    exact h.above n (hk.inUse ▸ hn)
  cases Op.exec_outcome h.wired h.owned op with
  | same heff hnext =>
    have hne : ∀ n, (none : Option Nat) ≠ some n := fun n => nofun
    exact ⟨heff.owned, hwired, hnext ▸ h.next, fun n hn => habove heff (hne n) hn, fun n hn => (hold heff (hne n) hn).2.1,
      fun n hn => hagrees (hold heff (hne n) hn).1 (hold heff (hne n) hn).2.2⟩
  | freed a halive heff hnext hfree hown hmode hwhy hfile =>
    have hne : ∀ n, ((op.exec s).nodes n).inUse = true → some a ≠ some n := fun n hn he => by
      rw [← Option.some.inj he, hfree] at hn
      cases hn
    exact ⟨heff.owned, hwired, hnext ▸ h.next, fun n hn => habove heff (hne n hn) hn,
      fun n hn => (hold heff (hne n hn.1) hn).2.1,
      fun n hn => hagrees (hold heff (hne n hn.1) hn).1 (hold heff (hne n hn.1) hn).2.2⟩
  | made a hfirst hop heff hnext hnew =>
    have hfree := firstFree_free hfirst
    have hmade : (op.exec s).HasFile a → (op.exec s).Regular a ∧ fileAt (op.exec s) a = .empty := fun hn => by
      have hempty := (hnew hn.1).2 hn.2
      have hsize : ((op.exec s).nodes a).size = 0 := congrArg File.size hempty
      have hinode : ((op.exec s).nodes a).inodeSize = 0 := by
        rcases op.exec_stamps s with ⟨-, hsame⟩ | ⟨b, size, mode, hfirst', hsame, hzero⟩
        · have huse := hn.1
          rw [hsame hop, hfree] at huse
          cases huse
        · obtain rfl := Option.some.inj (hfirst.symm.trans hfirst')
          have hstamp := congrFun hsame a
          rw [Function.update_self] at hstamp
          refine (congrArg Prod.fst hstamp).trans (hzero.resolve_right fun hnot => ?_)
          have hfile := hn.2
          rw [show ((op.exec s).nodes a).mode = mode from congrArg Prod.snd hstamp, hnot] at hfile
          cases hfile
      refine ⟨⟨by rw [hinode, hsize], by rw [hsize]; exact Nat.zero_le _, fun o _ _ => ?_⟩, hempty⟩
      exact congrFun (congrArg File.bytes hempty) o
    refine ⟨heff.owned, hwired, by rw [hnext]; exact Nat.le_succ_of_le h.next, fun n hn => ?_, fun n hn => ?_,
      fun n hn => ?_⟩
    · by_cases hna : n = a
      · subst hna
        rw [(hnew hn).1]
        exact h.next
      · exact habove heff (fun he => hna (Option.some.inj he).symm) hn
    · by_cases hna : n = a
      · subst hna
        exact (hmade hn).1
      · exact (hold heff (fun he => hna (Option.some.inj he).symm) hn).2.1
    · by_cases hna : n = a
      · subst hna
        rw [(hmade hn).2, hfree]
        exact .refl _
      · obtain ⟨huse, -, hsame⟩ := hold heff (fun he => hna (Option.some.inj he).symm) hn
        exact hagrees huse hsame

theorem State.Good.right_same (h : s.Good files) {call : Call} (out : Out) (hrun : call.run s = some (out, s))
    (hret : call.Returns files out) (happly : call.apply files out = files) :
    call.Right s files ∧ ∀ out' s', call.run s = some (out', s') → s'.Good (call.apply files out') := by
  refine ⟨⟨out, s, hrun, hret, happly.symm ▸ h.agrees, fun _ _ => ⟨rfl, rfl⟩, fun _ _ => rfl⟩, fun out' s' hrun' => ?_⟩
  obtain ⟨rfl, rfl⟩ := Prod.mk.inj (Option.some.inj (hrun.symm.trans hrun'))
  rw [happly]
  exact h

theorem State.Good.right_update {call : Call} {file : File} (out : Out) (h : s'.Good (Function.update files n file))
    (hrun : call.run s = some (out, s')) (hret : call.Returns files out)
    (happly : call.apply files out = Function.update files n file)
    (hsize : (∃ bs, out = .bytes bs) ∨ out = .count none ∨ out = .count (some 0) →
      ∀ n, (s'.nodes n).size = (s.nodes n).size ∧ (s'.nodes n).inodeSize = (s.nodes n).inodeSize)
    (hmem : ∀ f, (∀ n i, call.On n → (s'.nodes n).page (.data i) ≠ some f) → s'.machine.mem f = s.machine.mem f) :
    call.Right s files ∧ ∀ out' s', call.run s = some (out', s') → s'.Good (call.apply files out') := by
  refine ⟨⟨out, s', hrun, hret, happly.symm ▸ h.agrees, hsize, hmem⟩, fun out' s'' hrun' => ?_⟩
  obtain ⟨rfl, rfl⟩ := Prod.mk.inj (Option.some.inj (hrun.symm.trans hrun'))
  rw [happly]
  exact h

/-! ## The calls -/

theorem State.Good.size_eq (h : s.Good files) (hn : s.HasFile n) : (s.nodes n).size = (files n).size := (h.agrees n hn).1

theorem State.Good.read (h : s.Good files) (d : Desc) (count : Nat) (hn : s.HasFile d.node) :
    (tmpfsRead d count s).1 = (files d.node).slice d.offset count := by
  have hfits := (h.regular d.node hn).fits
  have hsize := h.size_eq hn
  rw [tmpfsRead_eq]
  unfold File.read File.slice
  have hmin : min (min count ((fileAt s d.node).size - d.offset)) (File.limit - d.offset) =
      min count ((files d.node).size - d.offset) := by
    rw [show (fileAt s d.node).size = (files d.node).size from hsize]
    omega
  dsimp only
  rw [hmin]
  refine List.map_congr_left fun i hi => ?_
  have hlt := List.mem_range.1 hi
  exact (h.agrees d.node hn).2 _ (by omega)

theorem File.Same.store {file file' : File} (h : file.Same file') (off : Nat) (bs : List (BitVec 8)) :
    (file.store off bs).Same (file'.store off bs) := by
  unfold File.store
  split
  · exact h
  · refine ⟨?_, fun o ho => ?_⟩
    · unfold File.write
      rw [h.1]
    · unfold File.write
      dsimp only
      rw [h.2 o ho]

theorem State.Good.write (h : s.Good files) (d : Desc) (buf : List (BitVec 8)) (hc : (Call.write d buf).Confined s) :
    (Call.write d buf).Right s files ∧
      ∀ out s', (Call.write d buf).run s = some (out, s') → s'.Good ((Call.write d buf).apply files out) := by
  obtain ⟨hn, hok⟩ := hc
  have hregular := h.regular d.node hn
  have hsized := tmpfsWrite_sized h.owned d buf
  rcases tmpfsWrite_stored h.owned d buf hok with ⟨hnone, hsame⟩ | ⟨k, hk, hcount, hst⟩
  · refine h.right_same (.count none) ?_ (.inl rfl) rfl
    unfold Call.run
    dsimp only
    rw [hnone, hsame]
  have hbound := tmpfsWrite_bounded h.owned d buf hcount
  generalize hs' : (tmpfsWrite d buf s).2.2 = s' at hsized hst
  have hstart : (if d.append then (files d.node).size else d.offset) = s.start d := by
    rw [← h.size_eq hn]
    rfl
  have hgood : s'.Good (Function.update files d.node ((files d.node).store (s.start d) (buf.take k))) := by
    refine h.step hst.effect hsized.others hst.tree hst.nextIno hst.ino hst.inUse fun _ => ?_
    have hfile := hst.file
    have hsame : (fileAt s' d.node).Same ((files d.node).store (s.start d) (buf.take k)) := by
      rw [hfile]
      exact (h.agrees d.node hn).store ..
    have hsize : (s'.nodes d.node).size = ((fileAt s d.node).store (s.start d) (buf.take k)).size :=
      congrArg File.size hfile
    have hbytes : ∀ o, byteAt s' d.node o = ((fileAt s d.node).store (s.start d) (buf.take k)).bytes o := fun o =>
      congrFun (congrArg File.bytes hfile) o
    refine ⟨⟨hsized.sizes hregular.sizes, ?_, fun o hle hlt => ?_⟩, hsame⟩
    · rw [hsize]
      unfold File.store
      split
      · exact hregular.fits
      · next hne =>
        have hpos : 0 < (buf.take k).length := List.length_pos_of_ne_nil hne
        rw [List.length_take_of_le hk] at hpos
        unfold File.write
        rw [List.length_take_of_le hk]
        refine max_le hregular.fits ?_
        omega
    · rw [hbytes]
      rw [hsize] at hle
      unfold File.store at hle ⊢
      split
      · next hnil =>
        rw [if_pos hnil] at hle
        exact hregular.zeros o hle hlt
      · next hne =>
        rw [if_neg hne] at hle
        unfold File.write at hle ⊢
        dsimp only at hle ⊢
        have hend := le_of_max_le_right hle
        rw [if_neg (by omega)]
        exact hregular.zeros o (le_of_max_le_left hle) hlt
  refine State.Good.right_update (.count (some k)) hgood ?_ (.inr ⟨k, hk, rfl⟩) ?_ (fun hnothing n => ?_) fun f hf =>
    hsized.mem f fun i => hf d.node i rfl
  · unfold Call.run
    dsimp only
    rw [hcount, hs']
  · unfold Call.apply
    dsimp only
    rw [hstart]
  · -- nothing was transferred
    have hzero : k = 0 := by
      rcases hnothing with ⟨bs, hbs⟩ | hout | hout
      · cases hbs
      · cases hout
      · cases hout
        rfl
    have hsize : (s'.nodes d.node).size = (s.nodes d.node).size := by
      have hfile := hst.file
      rw [hzero] at hfile
      exact congrArg File.size hfile
    by_cases hne : n = d.node
    · subst hne
      exact ⟨hsize, hsized.kept hsize⟩
    · rw [hsized.others n hne]
      exact ⟨rfl, rfl⟩

theorem State.Good.truncate (h : s.Good files) (n : Nat) :
    (Call.truncate n).Right s files ∧
      ∀ out s', (Call.truncate n).run s = some (out, s') → s'.Good ((Call.truncate n).apply files out) := by
  have hst := tmpfsTruncate_spec h.owned n
  obtain ⟨-, hmem, hnodes, -, -⟩ := freeDataPages_spec h.owned n
  have hothers : ∀ n', n' ≠ n → (tmpfsTruncate n s).nodes n' = s.nodes n' := fun n' hne => by
    refine (modify_of_ne hne _).trans ?_
    rw [hnodes]
    exact Function.update_of_ne hne ..
  have hself : (tmpfsTruncate n s).nodes n = { (freeDataPages n s).nodes n with size := 0, inodeSize := 0 } := modify_self _
  have hgood : (tmpfsTruncate n s).Good (Function.update files n .empty) := by
    refine h.step hst.effect hothers hst.tree hst.nextIno hst.ino hst.inUse fun _ => ?_
    refine ⟨⟨by rw [hself], by rw [hself]; exact Nat.zero_le _, fun o _ _ => ?_⟩, ?_⟩
    · exact congrFun (congrArg File.bytes hst.file) o
    · rw [hst.file]
      exact .refl _
  exact State.Good.right_update (.status 0) hgood rfl rfl rfl
    (fun hnothing => by rcases hnothing with ⟨bs, hbs⟩ | hout | hout <;> cases ‹_›) fun f _ => congrFun hmem f

theorem State.Good.fallocate (h : s.Good files) {inode : FileInode} {mode : BitVec 32} {off len : Nat}
    (hc : (Call.fallocate inode mode off len).Confined s) :
    (Call.fallocate inode mode off len).Right s files ∧ ∀ out s', (Call.fallocate inode mode off len).run s = some (out, s') →
      s'.Good ((Call.fallocate inode mode off len).apply files out) := by
  have hquiet : ∀ (r : Int) (s' : State), (∃ bs, Out.status r = .bytes bs) ∨ Out.status r = .count none ∨
      Out.status r = .count (some 0) →
      ∀ n, (s'.nodes n).size = (s.nodes n).size ∧ (s'.nodes n).inodeSize = (s.nodes n).inodeSize := by
    rintro r s' (⟨bs, hbs⟩ | hout | hout)
    · cases hbs
    · cases hout
    · cases hout
  cases inode with
  | other ino size hasData =>
    unfold Call.Confined at hc
    dsimp only at hc
    have hstay : ∀ r : Int, sysFallocate (.other ino size hasData) mode off len s = some (r, s) → r = 0 ∨ r = notSupported →
        (Call.fallocate (.other ino size hasData) mode off len).Right s files ∧ ∀ out s',
          (Call.fallocate (.other ino size hasData) mode off len).run s = some (out, s') →
          s'.Good ((Call.fallocate (.other ino size hasData) mode off len).apply files out) := fun r hr hret => by
      refine h.right_same (.status r) ?_ (hret.imp (congrArg _) (congrArg _)) rfl
      unfold Call.run
      dsimp only
      rw [hr]
      rfl
    by_cases hmode : mode = 0
    · rw [if_pos hmode] at hc
      refine hstay 0 ?_ (.inl rfl)
      unfold sysFallocate
      rw [if_pos hmode, if_neg (Nat.not_le_of_lt hc.1)]
      dsimp only
      rw [if_neg]
      rintro ⟨hlt, hle, hdata⟩
      rw [hc.2 hlt hle] at hdata
      cases hdata
    rw [if_neg hmode] at hc
    by_cases hpunch : punches mode = true
    · obtain ⟨hlt, hfirst⟩ := hc hpunch
      by_cases hnode : inoBase ≤ ino ∧ hasData = true
      · refine hstay 0 ?_ (.inl rfl)
        unfold sysFallocate
        rw [if_neg hmode, if_pos hpunch, if_neg (Nat.not_le_of_lt hlt)]
        dsimp only
        rw [if_pos hnode, if_neg]
        rintro ⟨hpos, hpage⟩
        have := hfirst hpos hpage hnode.1
        rw [hnode.2] at this
        cases this
      · refine hstay notSupported ?_ (.inr rfl)
        unfold sysFallocate
        rw [if_neg hmode, if_pos hpunch, if_neg (Nat.not_le_of_lt hlt)]
        dsimp only
        rw [if_neg hnode]
    · refine hstay notSupported ?_ (.inr rfl)
      unfold sysFallocate
      rw [if_neg hmode, if_neg hpunch]
  | node n =>
    obtain ⟨huse, hc⟩ := hc
    have habove := h.above n huse
    by_cases hmode : mode = 0
    · rw [if_pos hmode] at hc
      obtain ⟨hlt, hlimit⟩ := hc
      have happly : (Call.fallocate (.node n) mode off len).apply files (.status 0) =
          Function.update files n ((files n).grow (off + len)) := by
        unfold Call.apply
        dsimp only
        rw [if_pos hmode]
      by_cases hgrow : (s.nodes n).inodeSize < off + len
      · have hgood : State.Good ((s.modify n fun x => { x with inodeSize := off + len }).modify n fun x =>
            { x with size := off + len }) (Function.update files n ((files n).grow (off + len))) := by
          have hfirst : Effect (some n) s (s.modify n fun x => { x with inodeSize := off + len }) :=
            .modifyNode h.owned n fun q f hp => hp
          refine h.step (hfirst.trans (.modifyNode hfirst.owned n fun q f hp => hp)) (fun n' hne => ?_)
            (.trans (tree_modify_same rfl) (tree_modify_same rfl)) rfl (by rw [modify_self, modify_self])
            (by rw [modify_self, modify_self]) fun hn => ?_
          · rw [modify_of_ne hne, modify_of_ne hne]
          have hfile : s.HasFile n := by
            unfold State.HasFile at hn
            rw [modify_self, modify_self] at hn
            exact hn
          have hregular := h.regular n hfile
          rw [hregular.sizes] at hgrow
          have hbytes : ∀ o, byteAt ((s.modify n fun x => { x with inodeSize := off + len }).modify n fun x =>
              { x with size := off + len }) n o = byteAt s n o := fun o => by
            unfold byteAt
            rw [modify_self, modify_self]
            rfl
          refine ⟨⟨by rw [modify_self, modify_self], ?_, fun o hle ho => ?_⟩, ?_, fun o ho => ?_⟩
          · rw [modify_self]
            exact hlimit hfile
          · rw [modify_self] at hle
            rw [hbytes]
            exact hregular.zeros o (by dsimp only at hle; omega) ho
          · unfold fileAt File.grow
            rw [modify_self]
            dsimp only
            rw [← h.size_eq hfile]
            omega
          · exact (hbytes o).trans ((h.agrees n hfile).2 o ho)
        refine State.Good.right_update (.status 0) hgood ?_ (.inl rfl) happly (hquiet 0 _) fun _ _ => rfl
        unfold Call.run sysFallocate
        dsimp only
        rw [if_pos hmode, if_neg (Nat.not_le_of_lt hlt), if_pos hgrow, modify_self, if_pos habove]
        rfl
      · have hgood : s.Good (Function.update files n ((files n).grow (off + len))) := by
          refine h.step (.refl h.owned) (fun _ _ => rfl) rfl rfl rfl rfl fun hn => ⟨h.regular n hn, ?_, fun o ho => ?_⟩
          · have hsizes := (h.regular n hn).sizes
            have hsize := h.size_eq hn
            unfold fileAt File.grow
            dsimp only
            omega
          · exact (h.agrees n hn).2 o ho
        refine State.Good.right_update (.status 0) hgood ?_ (.inl rfl) happly (hquiet 0 _) fun _ _ => rfl
        unfold Call.run sysFallocate
        dsimp only
        rw [if_pos hmode, if_neg (Nat.not_le_of_lt hlt), if_neg hgrow]
        rfl
    rw [if_neg hmode] at hc
    by_cases hpunch : punches mode = true
    · obtain ⟨hlt, hsafe⟩ := hc hpunch
      obtain ⟨s', hloop, hp⟩ := punchLoop_spec len off h.owned (by omega) hsafe
      have hgood : s'.Good (Function.update files n ((files n).punch off len)) := by
        refine h.step hp.effect hp.grew.others hp.tree hp.nextIno hp.ino hp.inUse fun hn => ?_
        have hmode' : (s'.nodes n).mode = (s.nodes n).mode := congrArg (fun t => (t.nodes n).mode) hp.tree
        have hfile : s.HasFile n := ⟨huse, hmode' ▸ hn.2⟩
        have hregular := h.regular n hfile
        refine ⟨⟨by rw [hp.grew.inodeSize, hp.size, hregular.sizes], ?_, fun o hle ho => ?_⟩, ?_, fun o ho => ?_⟩
        · rw [hp.size]
          exact hregular.fits
        · rw [hp.size] at hle
          rw [hp.bytes o ho, hregular.zeros o hle ho, ite_self]
        · exact hp.size.trans (h.size_eq hfile)
        · refine (hp.bytes o ho).trans ?_
          unfold File.punch
          dsimp only
          rw [← (h.agrees n hfile).2 o ho]
          rfl
      refine State.Good.right_update (.status 0) hgood ?_ (.inl rfl) ?_ (hquiet 0 _) fun f hf => hp.grew.mem f fun i => hf n i rfl
      · unfold Call.run sysFallocate
        dsimp only
        rw [if_neg hmode, if_pos hpunch, if_neg (Nat.not_le_of_lt hlt), if_pos habove, hloop]
        rfl
      · unfold Call.apply
        dsimp only
        rw [if_neg hmode, if_pos hpunch]
    · refine h.right_same (.status notSupported) ?_ (.inr rfl) ?_
      · unfold Call.run sysFallocate
        dsimp only
        rw [if_neg hmode, if_neg hpunch]
        rfl
      · unfold Call.apply
        dsimp only
        rw [if_neg hmode, if_neg hpunch]

/-- **One call** under the condition. -/
theorem State.Good.call (h : s.Good files) {call : Call} (hc : call.Confined s) :
    call.Right s files ∧ ∀ out s', call.run s = some (out, s') → s'.Good (call.apply files out) := by
  cases call with
  | read d count =>
    refine h.right_same (.bytes (tmpfsRead d count s).1) rfl ?_ rfl
    exact congrArg Out.bytes (h.read d count hc)
  | write d buf => exact h.write d buf hc
  | truncate n => exact h.truncate n
  | fallocate inode mode off len => exact h.fallocate hc

end Steps

/-! ## Runs -/

theorem init_good {pins : Nat → Nat} {m : Machine} (hm : Inv ∅ pins m) : (init m).Good (fileAt (init m)) := by
  have hstart := start_inv hm
  have hroot : ∀ n, ((init m).nodes n).inUse = true → n = 0 := fun n hn => by
    by_contra hne
    rw [init_node hne m] at hn
    cases hn
  refine ⟨hstart.owned, hstart.wired, Nat.le_succ _, fun n hn => ?_, fun n hn => ?_, fun n _ => .refl _⟩
  · rw [hroot n hn]
    exact le_rfl
  · have hfile := hn.2
    rw [hroot n hn.1] at hfile
    have hdir : isFile (sIfdir ||| 0o777) = true := hfile
    exact absurd hdir (by decide)

theorem ContentsRun.good {s₀ s : State} {files : Nat → File} (h₀ : s₀.Good (fileAt s₀))
    (hrun : ContentsRun (fun s call => call.Confined s) s₀ s files) : s.Good files := by
  induction hrun with
  | init => exact h₀
  | call _ hc hstep ih => exact (ih.call hc).2 _ _ hstep
  | names _ hen ih => exact ih.names hen

/-- **Files are arrays of bytes**: in a run in which every call meets the condition, every call that meets it is right. -/
theorem contents_refine {pins : Nat → Nat} {m : Machine} (hm : Inv ∅ pins m) {s : State} {files : Nat → File}
    (hrun : ContentsRun (fun s call => call.Confined s) (init m) s files) {call : Call} (hc : call.Confined s) :
    call.Right s files := ((hrun.good (init_good hm)).call hc).1

/-! ### A file of two bytes -/

section Small

def smallDesc (off : Nat) : Desc := { node := 1, offset := off, append := false }

def smallFile : State := Op.exec (init .boot) (.create 0 [0x61] fileMode)

/-- One byte, behind the end of the empty file. -/
def smallWritten : State := (tmpfsWrite (smallDesc 1) [0x78] smallFile).2.2

theorem init_live : ((init .boot).nodes 0).inUse = true ∧ isDir ((init .boot).nodes 0).mode = true := by decide +kernel

theorem smallFile_run (Allowed : State → Call → Prop) : ∃ files, ContentsRun Allowed (init .boot) smallFile files :=
  ⟨_, ContentsRun.init.names ⟨init_live, by decide⟩⟩

/-- The byte is read behind a zero. -/
theorem contents_refine_small : ∃ files, ContentsRun (fun s call => call.Confined s) (init .boot) smallWritten files ∧
    (Call.read (smallDesc 0) 5).Right smallWritten files ∧
    (Call.read (smallDesc 0) 5).run smallWritten = some (.bytes [0, 0x78], smallWritten) := by
  have hfile : smallFile.HasFile (smallDesc 1).node := by
    unfold State.HasFile
    decide +kernel
  have hroom : storable (smallDesc 1).node (smallFile.start (smallDesc 1)) smallFile = true := by decide +kernel
  have hwritten : smallWritten.HasFile (smallDesc 0).node := by
    unfold State.HasFile
    decide +kernel
  have hread : (tmpfsRead (smallDesc 0) 5 smallWritten).1 = [0, 0x78] := by decide +kernel
  have hconfined : (Call.write (smallDesc 1) [0x78]).Confined smallFile :=
    ⟨hfile, .inr ⟨List.cons_ne_nil _ _, .inr hroom⟩⟩
  obtain ⟨files, hrun⟩ := smallFile_run fun s call => call.Confined s
  have hnext := hrun.call hconfined rfl
  refine ⟨_, hnext, contents_refine Space.boot_inv hnext hwritten, ?_⟩
  unfold Call.run
  dsimp only
  rw [hread]

/-- A hole behind the last page that a file can have: the list of data pages is read behind its end. -/
theorem hole_behind_pages : ∃ s files, ContentsRun (fun _ _ => True) (init .boot) s files ∧ s.HasFile 1 ∧
    ¬ (Call.fallocate (.node 1) 3 File.limit 1).Right s files := by
  obtain ⟨files, hrun⟩ := smallFile_run fun _ _ => True
  have hnext := ContentsRun.call hrun trivial (rfl : (Call.write (smallDesc 1) [0x78]).run smallFile = _)
  have hwritten : smallWritten.HasFile 1 := by
    unfold State.HasFile
    decide +kernel
  have hnone : ((Call.fallocate (.node 1) 3 File.limit 1).run smallWritten).isNone = true := by decide +kernel
  refine ⟨smallWritten, _, hnext, hwritten, ?_⟩
  rintro ⟨out, s', hsome, -⟩
  rw [hsome] at hnone
  cases hnone

end Small

end Zigix.Tmpfs
