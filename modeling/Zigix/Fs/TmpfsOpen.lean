import Zigix.Fs.TmpfsFiles

/-!
# Open files of the file system in memory

A description points to a node. A file gives its node and its pages up with its last name, open or not.

* `Sys.step` : descriptions beside the operations on names, and the files as they should be, by inode number;
* `descriptions_keep_files` : in a run of such events every description is faithful.
-/

namespace Zigix.Tmpfs

/-! ## The system -/

structure Opened where
  desc : Desc
  ino : Nat

structure Sys where
  fs : State
  descs : Nat → Option Opened
  /-- the files, by inode number; the system does not look at them -/
  files : Nat → File

inductive Event
  | names (op : Op)
  | openFile (id parent : Nat) (name : Name) (append : Bool)
  | close (id : Nat)
  | seek (id off : Nat)
  | read (id count : Nat)
  | write (id : Nat) (buf : List (BitVec 8))
  | truncate (id : Nat)

namespace Sys

def setDesc (sys : Sys) (id : Nat) (o : Opened) : Sys := { sys with descs := Function.update sys.descs id (some o) }

def writeFile (sys : Sys) (ino off : Nat) (bs : List (BitVec 8)) : Sys :=
  { sys with files := Function.update sys.files ino ((sys.files ino).write off bs) }

def write (sys : Sys) (id : Nat) (o : Opened) (buf : List (BitVec 8)) : Sys :=
  let (count, desc, fs) := tmpfsWrite o.desc buf sys.fs
  let sys' := { sys with fs }.setDesc id { o with desc }
  match count with
  | none => sys'
  | some k =>
    let start := if o.desc.append then (sys.files o.ino).size else o.desc.offset
    sys'.writeFile o.ino start (buf.take k)

def openFile (sys : Sys) (id n : Nat) (append : Bool) : Sys :=
  if isFile (sys.fs.nodes n).mode then
    sys.setDesc id { desc := { node := n, offset := 0, append }, ino := (sys.fs.nodes n).ino }
  else sys

/-- What a call on description `id` does, if there is one. -/
def onDesc (sys : Sys) (id : Nat) (f : Opened → Sys) : Sys :=
  match sys.descs id with
  | none => sys
  | some o => f o

def step (sys : Sys) : Event → Sys
  | .names op => { sys with fs := op.exec sys.fs }
  | .openFile id parent name append =>
    if (sys.descs id).isSome then sys
    else
      match lookup sys.fs parent name with
      | none => sys
      | some n => sys.openFile id n append
  | .close id => { sys with descs := Function.update sys.descs id none }
  | .seek id off => sys.onDesc id fun o => sys.setDesc id { o with desc := { o.desc with offset := off } }
  | .read id count => sys.onDesc id fun o => sys.setDesc id { o with desc := (tmpfsRead o.desc count sys.fs).2 }
  | .write id buf => sys.onDesc id fun o => sys.write id o buf
  | .truncate id => sys.onDesc id fun o =>
    { sys with fs := tmpfsTruncate o.desc.node sys.fs, files := Function.update sys.files o.ino .empty }

/-- Some description has node `n` open. -/
def IsOpen (sys : Sys) (n : Nat) : Prop := ∃ id o, sys.descs id = some o ∧ o.desc.node = n

structure Faithful (sys : Sys) : Prop where
  node : ∀ id o, sys.descs id = some o → (sys.fs.nodes o.desc.node).ino = o.ino
  read : ∀ id o count, sys.descs id = some o →
    (tmpfsRead o.desc count sys.fs).1 = (sys.files o.ino).read o.desc.offset count
  pages : ∀ id o q f, sys.descs id = some o → (sys.fs.nodes o.desc.node).page q = some f →
    (∀ n q', (sys.fs.nodes n).page q' = some f → n = o.desc.node) ∧ ∀ m, sys.fs.machine.allocPage ≠ (some f, m)

end Sys

/-- Names are used as their callers use them. -/
def Event.Enabled (sys : Sys) : Event → Prop
  | .names op => op.Enabled sys.fs
  | _ => True

def Quiet (sys : Sys) : Event → Prop
  | .names (.create _ _ _) | .names (.symlink _ _ _) => ∀ a, firstFree sys.fs = some a → ¬ sys.IsOpen a
  | .names (.unlink parent name) => ∀ a, lookup sys.fs parent name = some a → (sys.fs.nodes a).nlink ≤ 1 →
    sys.IsOpen a → (sys.fs.nodes a).dataPages = none
  | _ => True

inductive SysRun (Allowed : Sys → Event → Prop) (sys₀ : Sys) : Sys → Prop
  | init : SysRun Allowed sys₀ sys₀
  | step {sys : Sys} {e : Event} : SysRun Allowed sys₀ sys → e.Enabled sys → Allowed sys e →
    SysRun Allowed sys₀ (sys.step e)

def Sys.start (m : Machine) : Sys where
  fs := Tmpfs.init m
  descs := fun _ => none
  files := fun _ => .empty

/-! ## The invariant -/

/-- A node that a name or a description may lead to. -/
def Sys.Live (sys : Sys) (n : Nat) : Prop := (sys.fs.nodes n).inUse = true ∨ sys.IsOpen n

structure Sys.Inv (sys : Sys) : Prop where
  owned : sys.fs.Owned
  wired : sys.fs.tree.Wired False
  opened : ∀ id o, sys.descs id = some o → (sys.fs.nodes o.desc.node).ino = o.ino ∧
    isFile (sys.fs.nodes o.desc.node).mode = true
  distinct : ∀ n n', sys.Live n → sys.Live n' → (sys.fs.nodes n).ino = (sys.fs.nodes n').ino → n = n'
  below : ∀ n, sys.Live n → (sys.fs.nodes n).ino < sys.fs.nextIno
  contents : ∀ n, sys.Live n → isFile (sys.fs.nodes n).mode = true → fileAt sys.fs n = sys.files (sys.fs.nodes n).ino
  rest : ∀ i, sys.fs.nextIno ≤ i → sys.files i = .empty

section Steps
variable {sys : Sys} {fs' : State}

theorem Sys.Inv.carry (h : sys.Inv) (howned : fs'.Owned) (hwired : fs'.tree.Wired False)
    (hino : fs'.nextIno = sys.fs.nextIno)
    (hsame : ∀ n, Sys.Live { sys with fs := fs' } n → sys.Live n ∧ (fs'.nodes n).ino = (sys.fs.nodes n).ino ∧
      (fs'.nodes n).mode = (sys.fs.nodes n).mode ∧ fileAt fs' n = fileAt sys.fs n) : Sys.Inv { sys with fs := fs' } := by
  refine ⟨howned, hwired, fun id o ho => ?_, fun n n' hn hn' heq => ?_, fun n hn => ?_, fun n hn hf => ?_, fun i hi => ?_⟩
  · obtain ⟨-, hi, hm, -⟩ := hsame o.desc.node (.inr ⟨id, o, ho, rfl⟩)
    dsimp only
    rw [hi, hm]
    exact h.opened id o ho
  · obtain ⟨hl, hi, -, -⟩ := hsame n hn
    obtain ⟨hl', hi', -, -⟩ := hsame n' hn'
    exact h.distinct n n' hl hl' (hi.symm.trans (heq.trans hi'))
  · obtain ⟨hl, hi, -, -⟩ := hsame n hn
    dsimp only
    rw [hi, hino]
    exact h.below n hl
  · obtain ⟨hl, hi, hm, hfile⟩ := hsame n hn
    dsimp only at hf ⊢
    rw [hm] at hf
    rw [hfile, hi]
    exact h.contents n hl hf
  · exact h.rest i (hino ▸ hi)

theorem isFile_not_dir {mode : Mode} (h : isFile mode = true) : isDir mode = false := by
  unfold isFile at h
  rw [Bool.and_eq_true] at h
  simpa using h.1

/-- **An operation on names** keeps the files of the descriptions, when it is quiet. -/
theorem Sys.Inv.names (h : sys.Inv) {op : Op} (hen : op.Enabled sys.fs) (hq : Quiet sys (.names op)) :
    (sys.step (.names op)).Inv := by
  have hwired := Op.exec_wired h.wired hen (fun u => u.elim)
  show Sys.Inv { sys with fs := op.exec sys.fs }
  cases Op.exec_outcome h.wired h.owned op with
  | same heff hino =>
    refine h.carry heff.owned hwired hino fun n hn => ?_
    have hk := heff.kept n nofun
    exact ⟨hn.imp_left fun huse => hk.inUse.symm.trans huse, hk.ino, hk.mode, hk.fileAt⟩
  | freed a halive heff hino hfree hown hmode hwhy hfile =>
    refine h.carry heff.owned hwired hino fun n hn => ?_
    by_cases hna : n = a
    · subst hna
      -- it can only be live because it is open
      have hopen : sys.IsOpen n := hn.resolve_left fun huse => by
        dsimp only at huse
        rw [hfree] at huse
        cases huse
      obtain ⟨id, o, ho, rfl⟩ := hopen
      refine ⟨.inl halive, hown, hmode, hfile ?_⟩
      rcases hwhy with hdir | ⟨d, name, rfl, hl, hlast⟩
      · have hnot := isFile_not_dir (h.opened id o ho).2
        rw [hdir] at hnot
        cases hnot
      · exact hq _ hl hlast ⟨id, o, ho, rfl⟩
    · have hk := heff.kept n fun heq => hna (Option.some.inj heq).symm
      exact ⟨hn.imp_left fun huse => hk.inUse.symm.trans huse, hk.ino, hk.mode, hk.fileAt⟩
  | made a hfirst hop heff hino hnew =>
    have hclosed : ¬ sys.IsOpen a := by
      cases op with
      | create => exact hq a hfirst
      | symlink => exact hq a hfirst
      | _ => exact hop.elim
    have hfree := firstFree_free hfirst
    -- a live node is the new one, or was live before and is as it was
    have hcases : ∀ n, Sys.Live { sys with fs := op.exec sys.fs } n →
        (n = a ∧ ((op.exec sys.fs).nodes a).inUse = true) ∨ (n ≠ a ∧ sys.Live n ∧ Kept sys.fs (op.exec sys.fs) n) := by
      intro n hn
      by_cases hna : n = a
      · subst hna
        exact .inl ⟨rfl, hn.resolve_right hclosed⟩
      · have hk := heff.kept n fun heq => hna (Option.some.inj heq).symm
        exact .inr ⟨hna, hn.imp_left fun huse => hk.inUse.symm.trans huse, hk⟩
    have hold : ∀ n, sys.Live n → n ≠ a → Kept sys.fs (op.exec sys.fs) n :=
      fun n _ hna => heff.kept n fun heq => hna (Option.some.inj heq).symm
    refine ⟨heff.owned, hwired, fun id o ho => ?_, fun n n' hn hn' heq => ?_, fun n hn => ?_, fun n hn hf => ?_,
      fun i hi => ?_⟩
    · have hk := hold o.desc.node (.inr ⟨id, o, ho, rfl⟩) fun heq => hclosed ⟨id, o, ho, heq⟩
      dsimp only
      rw [hk.ino, hk.mode]
      exact h.opened id o ho
    · dsimp only at heq
      rcases hcases n hn with ⟨rfl, huse⟩ | ⟨hne, hl, hk⟩
      · rcases hcases n' hn' with ⟨hn'a, -⟩ | ⟨-, hl', hk'⟩
        · exact hn'a.symm
        · have hlt := h.below n' hl'
          rw [(hnew huse).1, hk'.ino] at heq
          omega
      · rcases hcases n' hn' with ⟨rfl, huse'⟩ | ⟨-, hl', hk'⟩
        · have hlt := h.below n hl
          rw [(hnew huse').1, hk.ino] at heq
          omega
        · exact h.distinct n n' hl hl' (hk.ino.symm.trans (heq.trans hk'.ino))
    · dsimp only
      rw [hino]
      rcases hcases n hn with ⟨rfl, huse⟩ | ⟨-, hl, hk⟩
      · rw [(hnew huse).1]
        omega
      · have hlt := h.below n hl
        rw [hk.ino]
        omega
    · dsimp only at hf ⊢
      rcases hcases n hn with ⟨rfl, huse⟩ | ⟨-, hl, hk⟩
      · rw [(hnew huse).2 hf, (hnew huse).1, h.rest _ le_rfl]
      · rw [hk.mode] at hf
        rw [hk.fileAt, hk.ino]
        exact h.contents n hl hf
    · dsimp only at hi ⊢
      rw [hino] at hi
      exact h.rest i (by omega)

theorem Sys.Inv.redescribe (h : sys.Inv) {descs' : Nat → Option Opened}
    (hd : ∀ id o, descs' id = some o → (sys.fs.nodes o.desc.node).ino = o.ino ∧
      isFile (sys.fs.nodes o.desc.node).mode = true ∧ sys.Live o.desc.node) : Sys.Inv { sys with descs := descs' } := by
  have hlive : ∀ n, Sys.Live { sys with descs := descs' } n → sys.Live n := by
    rintro n (huse | ⟨id, o, ho, rfl⟩)
    · exact .inl huse
    · exact (hd id o ho).2.2
  exact ⟨h.owned, h.wired, fun id o ho => ⟨(hd id o ho).1, (hd id o ho).2.1⟩,
    fun n n' hn hn' heq => h.distinct n n' (hlive n hn) (hlive n' hn') heq, fun n hn => h.below n (hlive n hn),
    fun n hn hf => h.contents n (hlive n hn) hf, h.rest⟩

theorem Sys.Inv.setDesc (h : sys.Inv) {o : Opened} (id : Nat) (hino : (sys.fs.nodes o.desc.node).ino = o.ino)
    (hfile : isFile (sys.fs.nodes o.desc.node).mode = true) (hlive : sys.Live o.desc.node) : (sys.setDesc id o).Inv := by
  refine h.redescribe fun id' o' ho' => ?_
  by_cases heq : id' = id
  · subst heq
    rw [Function.update_self] at ho'
    obtain rfl := Option.some.inj ho'
    exact ⟨hino, hfile, hlive⟩
  · rw [Function.update_of_ne heq] at ho'
    exact ⟨(h.opened id' o' ho').1, (h.opened id' o' ho').2, .inr ⟨id', o', ho', rfl⟩⟩

theorem Sys.Inv.stored (h : sys.Inv) {id : Nat} {o : Opened} (ho : sys.descs id = some o) {file : File}
    (hs : Stored o.desc.node file sys.fs fs') :
    Sys.Inv { sys with fs := fs', files := Function.update sys.files o.ino file } := by
  have hopen : sys.Live o.desc.node := .inr ⟨id, o, ho, rfl⟩
  obtain ⟨hown, hisfile⟩ := h.opened id o ho
  have hfields : ∀ n, (fs'.nodes n).ino = (sys.fs.nodes n).ino ∧ (fs'.nodes n).mode = (sys.fs.nodes n).mode ∧
      (fs'.nodes n).inUse = (sys.fs.nodes n).inUse := by
    intro n
    by_cases heq : n = o.desc.node
    · subst heq
      exact ⟨hs.ino, hs.mode, hs.inUse⟩
    · have hk := hs.effect.kept n fun heq' => heq (Option.some.inj heq').symm
      exact ⟨hk.ino, hk.mode, hk.inUse⟩
  have hlive : ∀ n, Sys.Live { sys with fs := fs', files := Function.update sys.files o.ino file } n → sys.Live n :=
    fun n hn => hn.imp_left fun huse => (hfields n).2.2.symm.trans huse
  refine ⟨hs.effect.owned, ?_, fun id' o' ho' => ?_, fun n n' hn hn' heq => ?_, fun n hn => ?_, fun n hn hf => ?_,
    fun i hi => ?_⟩
  · dsimp only
    rw [hs.tree]
    exact h.wired
  · dsimp only
    rw [(hfields _).1, (hfields _).2.1]
    exact h.opened id' o' ho'
  · dsimp only at heq
    rw [(hfields n).1, (hfields n').1] at heq
    exact h.distinct n n' (hlive n hn) (hlive n' hn') heq
  · dsimp only
    rw [(hfields n).1, hs.nextIno]
    exact h.below n (hlive n hn)
  · dsimp only at hf ⊢
    rw [(hfields n).2.1] at hf
    rw [(hfields n).1]
    by_cases heq : n = o.desc.node
    · subst heq
      rw [hs.file, hown, Function.update_self]
    · have hk := hs.effect.kept n fun heq' => heq (Option.some.inj heq').symm
      have hne : (sys.fs.nodes n).ino ≠ o.ino := fun hi => heq (h.distinct n _ (hlive n hn) hopen (hi.trans hown.symm))
      rw [hk.fileAt, Function.update_of_ne hne]
      exact h.contents n (hlive n hn) hf
  · dsimp only at hi ⊢
    rw [hs.nextIno] at hi
    have hlt := h.below _ hopen
    rw [hown] at hlt
    rw [Function.update_of_ne (by omega)]
    exact h.rest i hi

/-- **A write** through a description is a write of its file. -/
theorem Sys.Inv.write (h : sys.Inv) {id : Nat} {o : Opened} (ho : sys.descs id = some o) (buf : List (BitVec 8)) :
    (sys.write id o buf).Inv := by
  have hopen : sys.Live o.desc.node := .inr ⟨id, o, ho, rfl⟩
  obtain ⟨hown, hisfile⟩ := h.opened id o ho
  have hfile : fileAt sys.fs o.desc.node = sys.files o.ino := by
    rw [← hown]
    exact h.contents _ hopen hisfile
  have hsize : (sys.fs.nodes o.desc.node).size = (sys.files o.ino).size := congrArg File.size hfile
  unfold Sys.write
  rcases tmpfsWrite_spec h.owned o.desc buf with ⟨hnone, hsame⟩ | ⟨k, -, hcount, hdesc, hs⟩
  · rcases hw : tmpfsWrite o.desc buf sys.fs with ⟨count, desc, fs'⟩
    rw [hw] at hnone hsame
    cases hnone
    cases hsame
    exact h.setDesc id hown hisfile hopen
  · rcases hw : tmpfsWrite o.desc buf sys.fs with ⟨count, desc, fs'⟩
    rw [hw] at hcount hdesc hs
    rw [hsize] at hdesc hs
    rw [hfile] at hs
    cases hcount
    have hinv := h.stored ho hs
    dsimp only at hdesc
    have hnode : desc.node = o.desc.node := by rw [hdesc]
    refine hinv.setDesc (o := { o with desc }) id ?_ ?_ (.inr ⟨id, o, ho, hnode.symm⟩)
    · dsimp only
      rw [hnode, hs.ino]
      exact hown
    · dsimp only
      rw [hnode, hs.mode]
      exact hisfile

theorem Sys.Inv.onDesc (h : sys.Inv) (id : Nat) {f : Opened → Sys} (hf : ∀ o, sys.descs id = some o → (f o).Inv) :
    (sys.onDesc id f).Inv := by
  unfold Sys.onDesc
  cases ho : sys.descs id with
  | none => exact h
  | some o => exact hf o ho

/-- **One step**: every event keeps the invariant, when it is quiet. -/
theorem Sys.Inv.step (h : sys.Inv) {e : Event} (hen : e.Enabled sys) (hq : Quiet sys e) : (sys.step e).Inv := by
  cases e with
  | names op => exact h.names hen hq
  | openFile id parent name append =>
    unfold Sys.step
    dsimp only
    split
    · exact h
    cases hl : lookup sys.fs parent name with
    | none => exact h
    | some n =>
      dsimp only
      unfold Sys.openFile
      split
      · next hfile => exact h.setDesc id rfl hfile (.inl (lookup_alive h.wired hl))
      · exact h
  | close id =>
    refine h.redescribe fun id' o' ho' => ?_
    by_cases heq : id' = id
    · subst heq
      rw [Function.update_self] at ho'
      cases ho'
    · rw [Function.update_of_ne heq] at ho'
      exact ⟨(h.opened id' o' ho').1, (h.opened id' o' ho').2, .inr ⟨id', o', ho', rfl⟩⟩
  | seek id off =>
    exact h.onDesc id fun o ho => h.setDesc id (h.opened id o ho).1 (h.opened id o ho).2 (.inr ⟨id, o, ho, rfl⟩)
  | read id count =>
    refine h.onDesc id fun o ho => ?_
    rw [tmpfsRead_eq]
    exact h.setDesc id (h.opened id o ho).1 (h.opened id o ho).2 (.inr ⟨id, o, ho, rfl⟩)
  | write id buf => exact h.onDesc id fun o ho => h.write ho buf
  | truncate id => exact h.onDesc id fun o ho => h.stored ho (tmpfsTruncate_spec h.owned o.desc.node)

theorem Sys.Inv.faithful (h : sys.Inv) : sys.Faithful := by
  refine ⟨fun id o ho => (h.opened id o ho).1, fun id o count ho => ?_, fun id o q f ho hp =>
    ⟨fun n q' hp' => (h.owned.single _ _ _ _ f hp' hp).1, fun m ha => ?_⟩⟩
  · obtain ⟨hown, hisfile⟩ := h.opened id o ho
    rw [tmpfsRead_eq, h.contents _ (.inr ⟨id, o, ho, rfl⟩) hisfile, hown]
  · exact (h.owned.allocSome (n := o.desc.node) ha).1 o.desc.node q hp

end Steps

/-! ## Runs -/

theorem init_node {n : Nat} (hn : n ≠ 0) (m : Machine) : (init m).nodes n = blankNode := by
  simp [init, hn]

theorem start_inv {pins : Nat → Nat} {m : Machine} (hm : Space.Inv ∅ pins m) : (Sys.start m).Inv := by
  have hpage : ∀ n q, ((Sys.start m).fs.nodes n).page q = none := by
    intro n q
    by_cases hn : n = 0
    · subst hn
      cases q with
      | table => rfl
      | children => rfl
      | data i => rfl
    · have hx : (Sys.start m).fs.nodes n = blankNode := init_node hn m
      rw [hx]
      cases q with
      | table => rfl
      | children => rfl
      | data i => rfl
  have hlive : ∀ n, (Sys.start m).Live n → n = 0 := by
    rintro n (huse | ⟨id, o, ho, -⟩)
    · by_contra hn
      have hx : (Sys.start m).fs.nodes n = blankNode := init_node hn m
      rw [hx] at huse
      cases huse
    · cases ho
  refine ⟨⟨⟨pins, hm, fun n q f hp => ?_⟩, fun n n' q q' f hp => ?_⟩, init_wired False m, fun id o ho => ?_,
    fun n n' hn hn' _ => ?_, fun n hn => ?_, fun n hn hf => ?_, fun i _ => rfl⟩
  · rw [hpage] at hp
    cases hp
  · rw [hpage] at hp
    cases hp
  · cases ho
  · rw [hlive n hn, hlive n' hn']
  · rw [hlive n hn]
    exact Nat.lt_succ_self _
  · rw [hlive n hn] at hf
    have hroot : isFile (sIfdir ||| 0o777) = true := hf
    exact absurd hroot (by decide)

/-- **Descriptions keep their files** in every run in which no open file with pages loses its last name, and no open node
is taken for a new file. -/
theorem descriptions_keep_files {pins : Nat → Nat} {m : Machine} (hm : Space.Inv ∅ pins m) {sys : Sys}
    (hrun : SysRun Quiet (Sys.start m) sys) : sys.Faithful := by
  have hinv : sys.Inv := by
    induction hrun with
    | init => exact start_inv hm
    | step _ hen hq ih => exact ih.step hen hq
  exact hinv.faithful

/-! ### An open file without a name -/

section Unlinked

theorem live_root {sys : Sys} (name : Name) (mode : Mode)
    (h : (sys.fs.nodes 0).inUse = true ∧ isDir (sys.fs.nodes 0).mode = true) (hlen : name.length ≤ maxNameLen) :
    Event.Enabled sys (.names (.create 0 name mode)) ∧ Event.Enabled sys (.names (.unlink 0 name)) :=
  ⟨⟨h, hlen⟩, h⟩

def createdFile : Sys := (Sys.start .boot).step (.names (.create 0 [0x61] fileMode))

/-- A file `a` that is open as description 0. -/
def openedFile : Sys := createdFile.step (.openFile 0 0 [0x61] false)

def writtenFile : Sys := (openedFile.step (.write 0 [0x78])).step (.seek 0 0)

def unlinkedFile : Sys := writtenFile.step (.names (.unlink 0 [0x61]))

/-- There is a new file `b`. -/
def replacedFile : Sys := unlinkedFile.step (.names (.create 0 [0x62] fileMode))

def lateFile : Sys := ((openedFile.step (.names (.unlink 0 [0x61]))).step (.write 0 [0x78])).step (.seek 0 0)

/-- The description now reads the file `b`, which has the node. -/
theorem unlinked_file_reused :
    ∃ sys, SysRun (fun _ _ => True) (Sys.start .boot) sys ∧ ¬ sys.Faithful ∧
      (sys.descs 0).map (fun o => ((tmpfsRead o.desc 1 sys.fs).1, (sys.files o.ino).read o.desc.offset 1)) =
        some ([], [0x78]) := by
  have hstart : ((Sys.start .boot).fs.nodes 0).inUse = true ∧ isDir ((Sys.start .boot).fs.nodes 0).mode = true := by
    decide +kernel
  have hwritten : (writtenFile.fs.nodes 0).inUse = true ∧ isDir (writtenFile.fs.nodes 0).mode = true := by decide +kernel
  have hunlinked : (unlinkedFile.fs.nodes 0).inUse = true ∧ isDir (unlinkedFile.fs.nodes 0).mode = true := by
    decide +kernel
  have hcreated : SysRun (fun _ _ => True) (Sys.start .boot) createdFile :=
    SysRun.init.step (live_root [0x61] fileMode hstart (by decide)).1 trivial
  have hopened : SysRun (fun _ _ => True) (Sys.start .boot) writtenFile :=
    ((hcreated.step (e := .openFile 0 0 [0x61] false) trivial trivial).step (e := .write 0 [0x78]) trivial trivial).step
      (e := .seek 0 0) trivial trivial
  have hdropped : SysRun (fun _ _ => True) (Sys.start .boot) unlinkedFile :=
    hopened.step (live_root [0x61] fileMode hwritten (by decide)).2 trivial
  have hrun : SysRun (fun _ _ => True) (Sys.start .boot) replacedFile :=
    hdropped.step (live_root [0x62] fileMode hunlinked (by decide)).1 trivial
  have hvalue : (replacedFile.descs 0).map (fun o =>
      ((tmpfsRead o.desc 1 replacedFile.fs).1, (replacedFile.files o.ino).read o.desc.offset 1)) =
      some ([], [0x78]) := by decide +kernel
  refine ⟨replacedFile, hrun, fun hf => ?_, hvalue⟩
  obtain ⟨o, ho, hread⟩ := Option.map_eq_some_iff.1 hvalue
  obtain ⟨hread, hfile⟩ := Prod.mk.inj hread
  have heq := hf.read 0 o 1 ho
  rw [hread, hfile] at heq
  cases heq

/-- A file that loses its name before it is written keeps what is written then. -/
theorem unlinked_file_kept :
    lateFile.Faithful ∧ (lateFile.fs.nodes 1).inUse = false ∧
      (lateFile.descs 0).map (fun o => (tmpfsRead o.desc 1 lateFile.fs).1) = some [0x78] := by
  have hstart : ((Sys.start .boot).fs.nodes 0).inUse = true ∧ isDir ((Sys.start .boot).fs.nodes 0).mode = true := by
    decide +kernel
  have hopened : (openedFile.fs.nodes 0).inUse = true ∧ isDir (openedFile.fs.nodes 0).mode = true := by decide +kernel
  have hlookup : lookup openedFile.fs 0 [0x61] = some 1 := by decide +kernel
  have hpages : (openedFile.fs.nodes 1).dataPages.isNone = true := by decide +kernel
  have hfirst : Quiet (Sys.start .boot) (.names (.create 0 [0x61] fileMode)) := by
    rintro a - ⟨id, o, ho, -⟩
    cases ho
  have hlast : Quiet openedFile (.names (.unlink 0 [0x61])) := by
    intro a ha _ _
    rw [hlookup] at ha
    obtain rfl := Option.some.inj ha
    exact Option.isNone_iff_eq_none.1 hpages
  have hcreated : SysRun Quiet (Sys.start .boot) createdFile := SysRun.init.step (live_root [0x61] fileMode hstart (by decide)).1 hfirst
  have hopen : SysRun Quiet (Sys.start .boot) openedFile := hcreated.step (e := .openFile 0 0 [0x61] false) trivial trivial
  have hdropped := hopen.step (live_root [0x61] fileMode hopened (by decide)).2 hlast
  have hrun : SysRun Quiet (Sys.start .boot) lateFile :=
    (hdropped.step (e := .write 0 [0x78]) trivial trivial).step (e := .seek 0 0) trivial trivial
  have hread : (lateFile.descs 0).map (fun o => (tmpfsRead o.desc 1 lateFile.fs).1) = some [0x78] := by decide +kernel
  exact ⟨descriptions_keep_files Space.boot_inv hrun, by decide +kernel, hread⟩

end Unlinked

end Zigix.Tmpfs
