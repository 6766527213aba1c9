import Mathlib.Data.Finset.Card
import Mathlib.Data.Finset.Range
import Zigix.Fs.Tmpfs

/-!
# Names in the file system in memory

* `Tree` : the nodes as far as names are concerned, with the hard link table;
* `Wired.alloc`, `Wired.append`, … : the updates that the operations are made of;
* `Fresh` : no operation is given a name that is taken where it does not look; `names_unique` : then names are unique.
-/

namespace Zigix.Tmpfs

/-! ## Names -/

/-- What a node says about names. -/
structure View where
  name : Name
  mode : Mode
  nlink : Nat
  children : List Nat
  inUse : Bool

structure Tree where
  nodes : Nat → View
  links : Nat → HardLinkEntry

def TmpfsNode.view (x : TmpfsNode) : View where
  name := x.name
  mode := x.mode
  nlink := x.nlink
  children := x.children
  inUse := x.inUse

def State.tree (s : State) : Tree where
  nodes := fun n => (s.nodes n).view
  links := s.hardLinks

/-- Record `i` is a name in directory `d`. -/
def Tree.Record (t : Tree) (d i : Nat) : Prop :=
  i < maxHardLinks ∧ (t.links i).inUse = true ∧ (t.links i).parent = d

structure Tree.Unique (t : Tree) : Prop where
  children : ∀ d, ((t.nodes d).children.map fun c => (t.nodes c).name).Nodup
  records : ∀ d i j, t.Record d i → t.Record d j → (t.links i).name = (t.links j).name → i = j
  apart : ∀ d c i, c ∈ (t.nodes d).children → t.Record d i → (t.nodes c).name ≠ (t.links i).name

/-- The records that lead to node `n`. -/
def Tree.recordsTo (t : Tree) (n : Nat) : Finset Nat :=
  {i ∈ Finset.range maxHardLinks | (t.links i).inUse = true ∧ (t.links i).target = n}

/-- What the entries lead to; `U` says whether names are known to be unique, too. -/
structure Tree.Wired (t : Tree) (U : Prop) : Prop where
  unique : U → t.Unique
  nodup : ∀ d, (t.nodes d).children.Nodup
  alive : ∀ d c, c ∈ (t.nodes d).children → (t.nodes c).inUse = true
  once : ∀ d d' c, c ∈ (t.nodes d).children → c ∈ (t.nodes d').children → d = d'
  target : ∀ i, i < maxHardLinks → (t.links i).inUse = true →
    (t.nodes (t.links i).target).inUse = true ∧ isDir (t.nodes (t.links i).target).mode = false
  linked : ∀ n, (t.nodes n).inUse = true → isDir (t.nodes n).mode = false → (t.recordsTo n).card ≤ (t.nodes n).nlink
  child : ∀ d n, n ∈ (t.nodes d).children → isDir (t.nodes n).mode = false →
    (t.recordsTo n).card + 1 ≤ (t.nodes n).nlink

/-! ## Updates -/

def Tree.set (t : Tree) (n : Nat) (x : View) : Tree := { t with nodes := Function.update t.nodes n x }

structure Tree.Nameless (t : Tree) (n : Nat) : Prop where
  child : ∀ d, n ∉ (t.nodes d).children
  record : t.recordsTo n = ∅

section Updates
variable {U : Prop} {t : Tree} {d n i : Nat} {x : View}

@[simp] theorem Tree.set_self : (t.set n x).nodes n = x := Function.update_self ..

theorem Tree.set_of_ne (h : d ≠ n) : (t.set n x).nodes d = t.nodes d := Function.update_of_ne h ..

@[simp] theorem Tree.set_links : (t.set n x).links = t.links := rfl

@[simp] theorem Tree.recordsTo_set (m : Nat) : (t.set n x).recordsTo m = t.recordsTo m := rfl

@[simp] theorem Tree.record_set : (t.set n x).Record d i ↔ t.Record d i := Iff.rfl

theorem Tree.Wired.nameless_of_free (h : t.Wired U) (hfree : (t.nodes n).inUse = false) : t.Nameless n := by
  refine ⟨fun d hmem => ?_, Finset.filter_eq_empty_iff.2 fun j hj hl => ?_⟩
  · rw [h.alive d n hmem] at hfree
    cases hfree
  · have hin := (h.target j (Finset.mem_range.1 hj) hl.1).1
    rw [hl.2, hfree] at hin
    cases hin

/-- A node that no entry leads to may become anything without children, or with its own. -/
theorem Tree.Wired.setNameless (h : t.Wired U) (hn : t.Nameless n)
    (hx : x.children = (t.nodes n).children ∨ x.children = []) : (t.set n x).Wired U := by
  have hchildren : ∀ d, ((t.set n x).nodes d).children = (t.nodes d).children ∨ ((t.set n x).nodes d).children = [] := by
    intro d
    by_cases hd : d = n
    · subst hd
      rw [Tree.set_self]
      exact hx
    · rw [Tree.set_of_ne hd]
      exact .inl rfl
  have hsub : ∀ d c, c ∈ ((t.set n x).nodes d).children → c ∈ (t.nodes d).children := by
    intro d c hc
    rcases hchildren d with heq | heq
    · rwa [heq] at hc
    · rw [heq] at hc
      cases hc
  have hother : ∀ d c, c ∈ (t.nodes d).children → (t.set n x).nodes c = t.nodes c := by
    intro d c hc
    exact Tree.set_of_ne fun heq => hn.child d (heq ▸ hc)
  have htarget : ∀ i, i < maxHardLinks → (t.links i).inUse = true → (t.links i).target ≠ n := by
    intro i hi huse heq
    have hmem : i ∈ t.recordsTo n := Finset.mem_filter.2 ⟨Finset.mem_range.2 hi, huse, heq⟩
    rw [hn.record] at hmem
    cases hmem
  refine ⟨fun u => ⟨fun d => ?_, (h.unique u).records, fun d c i hc hi => ?_⟩, fun d => ?_, fun d c hc => ?_,
    fun d d' c hc hc' => ?_, fun i hi huse => ?_, fun m huse hdir => ?_, fun d m hm hdir => ?_⟩
  · rcases hchildren d with heq | heq
    · rw [heq, List.map_congr_left fun c hc => by rw [hother d c hc]]
      exact (h.unique u).children d
    · rw [heq]
      exact List.nodup_nil
  · rw [hother d c (hsub d c hc)]
    exact (h.unique u).apart d c i (hsub d c hc) hi
  · rcases hchildren d with heq | heq
    · rw [heq]
      exact h.nodup d
    · rw [heq]
      exact List.nodup_nil
  · rw [hother d c (hsub d c hc)]
    exact h.alive d c (hsub d c hc)
  · exact h.once d d' c (hsub d c hc) (hsub d' c hc')
  · rw [Tree.set_links, Tree.set_of_ne (htarget i hi huse)]
    exact h.target i hi huse
  · by_cases hmn : m = n
    · rw [Tree.recordsTo_set, hmn, hn.record]
      exact Nat.zero_le _
    · rw [Tree.set_of_ne hmn] at huse hdir ⊢
      exact h.linked m huse hdir
  · rw [hother d m (hsub d m hm)] at hdir ⊢
    exact h.child d m (hsub d m hm) hdir

/-- The children of `d` become `l`. -/
def Tree.withChildren (t : Tree) (d : Nat) (l : List Nat) : Tree := t.set d { t.nodes d with children := l }

theorem Tree.withChildren_fields (l : List Nat) (c : Nat) :
    ((t.withChildren d l).nodes c).name = (t.nodes c).name ∧ ((t.withChildren d l).nodes c).mode = (t.nodes c).mode ∧
      ((t.withChildren d l).nodes c).nlink = (t.nodes c).nlink ∧
      ((t.withChildren d l).nodes c).inUse = (t.nodes c).inUse := by
  unfold Tree.withChildren
  by_cases hc : c = d
  · subst hc
    rw [Tree.set_self]
    exact ⟨rfl, rfl, rfl, rfl⟩
  · rw [Tree.set_of_ne hc]
    exact ⟨rfl, rfl, rfl, rfl⟩

theorem Tree.withChildren_children (l : List Nat) (c : Nat) :
    ((t.withChildren d l).nodes c).children = if c = d then l else (t.nodes c).children := by
  unfold Tree.withChildren
  by_cases hc : c = d
  · subst hc
    rw [Tree.set_self, if_pos rfl]
  · rw [Tree.set_of_ne hc, if_neg hc]

/-- Node `n` may become a child. -/
structure Tree.Joins (t : Tree) (n : Nat) : Prop where
  child : ∀ d', n ∉ (t.nodes d').children
  inUse : (t.nodes n).inUse = true
  count : isDir (t.nodes n).mode = false → (t.recordsTo n).card + 1 ≤ (t.nodes n).nlink

/-- The names of the nodes of `l` differ from each other and from the records of `d`. -/
def Tree.Distinct (t : Tree) (d : Nat) (l : List Nat) : Prop :=
  (l.map fun c => (t.nodes c).name).Nodup ∧ ∀ c ∈ l, ∀ i, t.Record d i → (t.nodes c).name ≠ (t.links i).name

theorem Tree.Wired.withChildren (h : t.Wired U) {l : List Nat} (hl : l.Nodup) (hnames : U → t.Distinct d l)
    (hin : ∀ c ∈ l, c ∈ (t.nodes d).children ∨ t.Joins c) : (t.withChildren d l).Wired U := by
  have hsame := Tree.withChildren_fields (t := t) (d := d) l
  have hmem : ∀ d' c, c ∈ ((t.withChildren d l).nodes d').children →
      c ∈ (t.nodes d').children ∨ (t.Joins c ∧ d' = d) := by
    intro d' c hc
    rw [Tree.withChildren_children] at hc
    by_cases hd : d' = d
    · subst hd
      rw [if_pos rfl] at hc
      exact (hin c hc).imp id fun hj => ⟨hj, rfl⟩
    · rw [if_neg hd] at hc
      exact .inl hc
  refine ⟨fun u => ⟨fun d' => ?_, (h.unique u).records, fun d' c i hc hi => ?_⟩, fun d' => ?_, fun d' c hc => ?_,
    fun d₁ d₂ c h₁ h₂ => ?_, fun i hi huse => ?_, fun m huse hdir => ?_, fun d' m hm hdir => ?_⟩
  · rw [List.map_congr_left fun c _ => (hsame c).1, Tree.withChildren_children]
    split
    · exact (hnames u).1
    · exact (h.unique u).children d'
  · rw [(hsame c).1]
    rw [Tree.withChildren_children] at hc
    split at hc
    · next hd =>
      subst hd
      exact (hnames u).2 c hc i hi
    · exact (h.unique u).apart d' c i hc hi
  · rw [Tree.withChildren_children]
    split
    · exact hl
    · exact h.nodup d'
  · rw [(hsame c).2.2.2]
    rcases hmem d' c hc with hc | ⟨hj, -⟩
    · exact h.alive d' c hc
    · exact hj.inUse
  · rcases hmem d₁ c h₁ with h₁ | ⟨hj, rfl⟩
    · rcases hmem d₂ c h₂ with h₂ | ⟨hj, -⟩
      · exact h.once d₁ d₂ c h₁ h₂
      · exact absurd h₁ (hj.child d₁)
    · rcases hmem d₂ c h₂ with h₂ | ⟨-, rfl⟩
      · exact absurd h₂ (hj.child d₂)
      · rfl
  · rw [(hsame _).2.1, (hsame _).2.2.2]
    exact h.target i hi huse
  · rw [(hsame m).2.2.2] at huse
    rw [(hsame m).2.1] at hdir
    rw [(hsame m).2.2.1]
    exact h.linked m huse hdir
  · rw [(hsame m).2.1] at hdir
    rw [(hsame m).2.2.1]
    rcases hmem d' m hm with hm | ⟨hj, -⟩
    · exact h.child d' m hm hdir
    · exact hj.count hdir

/-- No entry of `d` has this name. -/
def Tree.Absent (t : Tree) (d : Nat) (name : Name) : Prop :=
  (∀ c ∈ (t.nodes d).children, (t.nodes c).name ≠ name) ∧ ∀ i, t.Record d i → (t.links i).name ≠ name

theorem Tree.Wired.append (h : t.Wired U) (hj : t.Joins n) (hnew : U → t.Absent d (t.nodes n).name) :
    (t.withChildren d ((t.nodes d).children ++ [n])).Wired U := by
  refine h.withChildren ?_ (fun u => ⟨?_, fun c hc i hi => ?_⟩) fun c hc => ?_
  · refine List.nodup_append.2 ⟨h.nodup d, List.nodup_singleton _, fun a ha b hb heq => hj.child d ?_⟩
    rw [← List.mem_singleton.1 hb, ← heq]
    exact ha
  · rw [List.map_append, List.nodup_append]
    refine ⟨(h.unique u).children d, List.nodup_singleton _, fun a ha b hb => ?_⟩
    obtain ⟨c, hc, rfl⟩ := List.mem_map.1 ha
    rw [List.map_singleton, List.mem_singleton] at hb
    rw [hb]
    exact (hnew u).1 c hc
  · rcases List.mem_append.1 hc with hc | hc
    · exact (h.unique u).apart d c i hc hi
    · rw [List.mem_singleton.1 hc]
      exact ((hnew u).2 i hi).symm
  · rcases List.mem_append.1 hc with hc | hc
    · exact .inl hc
    · rw [List.mem_singleton.1 hc]
      exact .inr hj

theorem mem_eraseP_of_nodup {α β : Type*} [BEq β] [LawfulBEq β] {f : α → β} {b : β} {l : List α} (hl : (l.map f).Nodup)
    {c : α} : c ∈ l.eraseP (fun x => f x == b) ↔ c ∈ l ∧ f c ≠ b := by
  induction l with
  | nil => simp
  | cons x l ih =>
    rw [List.map_cons, List.nodup_cons] at hl
    by_cases hx : f x = b
    · rw [List.eraseP_cons_of_pos (by simpa using hx)]
      constructor
      · intro hc
        refine ⟨List.mem_cons_of_mem _ hc, fun hcb => hl.1 ?_⟩
        rw [hx, ← hcb]
        exact List.mem_map_of_mem hc
      · rintro ⟨hc, hcb⟩
        rcases List.mem_cons.1 hc with rfl | hc
        · exact absurd hx hcb
        · exact hc
    · rw [List.eraseP_cons_of_neg (by simpa using hx), List.mem_cons, List.mem_cons, ih hl.2]
      constructor
      · rintro (rfl | ⟨hc, hcb⟩)
        · exact ⟨.inl rfl, hx⟩
        · exact ⟨.inr hc, hcb⟩
      · rintro ⟨rfl | hc, hcb⟩
        · exact .inl rfl
        · exact .inr ⟨hc, hcb⟩

/-- The children of `d` without the one of this name. -/
def Tree.without (t : Tree) (d : Nat) (name : Name) : Tree :=
  t.withChildren d ((t.nodes d).children.eraseP fun c => (t.nodes c).name == name)

theorem Tree.Wired.without (h : t.Wired U) (d : Nat) (name : Name) : (t.without d name).Wired U := by
  have hsub : ((t.nodes d).children.eraseP fun c => (t.nodes c).name == name).Sublist (t.nodes d).children :=
    List.eraseP_sublist
  refine h.withChildren ((h.nodup d).sublist hsub) (fun u => ⟨?_, fun c hc i hi => ?_⟩) fun c hc => ?_
  · exact ((h.unique u).children d).sublist (hsub.map _)
  · exact (h.unique u).apart d c i (hsub.subset hc) hi
  · exact .inl (hsub.subset hc)

theorem notMem_eraseP {α : Type*} {p : α → Bool} {l : List α} {a : α} (hl : l.Nodup) (h : l.find? p = some a) :
    a ∉ l.eraseP p := by
  induction l with
  | nil => cases h
  | cons x l ih =>
    rw [List.nodup_cons] at hl
    rw [List.find?_cons] at h
    cases hx : p x with
    | true =>
      rw [hx] at h
      obtain rfl := Option.some.inj h
      rw [List.eraseP_cons_of_pos hx]
      exact hl.1
    | false =>
      rw [hx] at h
      rw [List.eraseP_cons_of_neg (by simp [hx]), List.mem_cons, not_or]
      refine ⟨?_, ih hl.2 h⟩
      rintro rfl
      exact hl.1 (List.mem_of_find?_eq_some h)

theorem Tree.set_without {name : Name} (hne : d ≠ n) (hx : x.name = (t.nodes n).name) :
    (t.set n x).without d name = (t.without d name).set n x := by
  have hname : (fun c => ((t.set n x).nodes c).name == name) = fun c => (t.nodes c).name == name := by
    funext c
    by_cases hc : c = n
    · rw [hc, Tree.set_self, hx]
    · rw [Tree.set_of_ne hc]
  unfold Tree.without Tree.withChildren
  rw [hname, Tree.set_of_ne hne]
  unfold Tree.set
  rw [Function.update_comm hne]

theorem Tree.Wired.notMem_without (h : t.Wired U) {name : Name}
    (hn : (t.nodes d).children.find? (fun c => (t.nodes c).name == name) = some n) (d' : Nat) :
    n ∉ ((t.without d name).nodes d').children := by
  unfold Tree.without
  rw [Tree.withChildren_children]
  split
  · exact notMem_eraseP (h.nodup d) hn
  · next hd => exact fun hc => hd (h.once d' d n hc (List.mem_of_find?_eq_some hn))

theorem Tree.Wired.setNode (h : t.Wired U) (hmode : x.mode = (t.nodes n).mode)
    (hchildren : x.children = (t.nodes n).children) (huse : x.inUse = (t.nodes n).inUse)
    (hname : x.name = (t.nodes n).name ∨ ∀ d, n ∉ (t.nodes d).children)
    (hlinked : (t.nodes n).inUse = true → isDir (t.nodes n).mode = false → (t.recordsTo n).card ≤ x.nlink)
    (hchild : ∀ d, n ∈ (t.nodes d).children → isDir (t.nodes n).mode = false → (t.recordsTo n).card + 1 ≤ x.nlink) :
    (t.set n x).Wired U := by
  have hsame : ∀ c, ((t.set n x).nodes c).mode = (t.nodes c).mode ∧
      ((t.set n x).nodes c).children = (t.nodes c).children ∧ ((t.set n x).nodes c).inUse = (t.nodes c).inUse := by
    intro c
    by_cases hc : c = n
    · subst hc
      rw [Tree.set_self]
      exact ⟨hmode, hchildren, huse⟩
    · rw [Tree.set_of_ne hc]
      exact ⟨rfl, rfl, rfl⟩
  have hnames : ∀ d c, c ∈ (t.nodes d).children → ((t.set n x).nodes c).name = (t.nodes c).name := by
    intro d c hc
    by_cases hcn : c = n
    · subst hcn
      rw [Tree.set_self]
      exact hname.resolve_right fun hno => hno d hc
    · rw [Tree.set_of_ne hcn]
  refine ⟨fun u => ⟨fun d => ?_, (h.unique u).records, fun d c i hc hi => ?_⟩, fun d => ?_, fun d c hc => ?_,
    fun d d' c hc hc' => ?_, fun i hi hin => ?_, fun m hin hdir => ?_, fun d m hm hdir => ?_⟩
  · rw [(hsame d).2.1, List.map_congr_left fun c hc => hnames d c hc]
    exact (h.unique u).children d
  · rw [(hsame d).2.1] at hc
    rw [hnames d c hc]
    exact (h.unique u).apart d c i hc hi
  · rw [(hsame d).2.1]
    exact h.nodup d
  · rw [(hsame d).2.1] at hc
    rw [(hsame c).2.2]
    exact h.alive d c hc
  · rw [(hsame d).2.1] at hc
    rw [(hsame d').2.1] at hc'
    exact h.once d d' c hc hc'
  · rw [(hsame _).1, (hsame _).2.2]
    exact h.target i hi hin
  · rw [(hsame m).2.2] at hin
    rw [(hsame m).1] at hdir
    by_cases hm : m = n
    · subst hm
      rw [Tree.set_self]
      exact hlinked hin hdir
    · rw [Tree.set_of_ne hm]
      exact h.linked m hin hdir
  · rw [(hsame d).2.1] at hm
    rw [(hsame m).1] at hdir
    by_cases hmn : m = n
    · subst hmn
      rw [Tree.set_self]
      exact hchild d hm hdir
    · rw [Tree.set_of_ne hmn]
      exact h.child d m hm hdir

def Tree.dropLink (t : Tree) (n : Nat) : Tree :=
  let t := t.set n { t.nodes n with nlink := (t.nodes n).nlink - 1 }
  if (t.nodes n).nlink = 0 then t.set n { t.nodes n with inUse := false } else t

theorem Tree.Wired.dropLink (h : t.Wired U) (hdir : isDir (t.nodes n).mode = false)
    (huse : (t.nodes n).inUse = true) (hlinked : (t.recordsTo n).card + 1 ≤ (t.nodes n).nlink)
    (hchild : ∀ d, n ∈ (t.nodes d).children → (t.recordsTo n).card + 2 ≤ (t.nodes n).nlink) :
    (t.dropLink n).Wired U := by
  have h₁ := h.setNode (n := n) (x := { t.nodes n with nlink := (t.nodes n).nlink - 1 }) rfl rfl rfl (.inl rfl)
    (fun _ _ => Nat.le_sub_one_of_lt hlinked) fun d hd _ => Nat.le_sub_one_of_lt (hchild d hd)
  unfold Tree.dropLink
  dsimp only
  split
  · next hzero =>
    rw [Tree.set_self] at hzero
    have hzero : (t.nodes n).nlink - 1 = 0 := hzero
    refine h₁.setNameless ⟨fun d hd => ?_, Finset.card_eq_zero.1 ?_⟩ (.inl rfl)
    · have hle := h₁.child d n hd (by rw [Tree.set_self]; exact hdir)
      rw [Tree.set_self] at hle
      exact absurd (hle.trans hzero.le) (Nat.not_succ_le_zero _)
    · have hle := h₁.linked n (by rw [Tree.set_self]; exact huse) (by rw [Tree.set_self]; exact hdir)
      rw [Tree.set_self] at hle
      exact Nat.le_zero.1 (hle.trans hzero.le)
  · exact h₁

/-! ### Records -/

def Tree.withRecord (t : Tree) (i : Nat) (entry : HardLinkEntry) : Tree :=
  { t with links := Function.update t.links i entry }

theorem Tree.recordsTo_dropped (hi : i < maxHardLinks) (huse : (t.links i).inUse = true) (m : Nat) :
    (t.withRecord i { t.links i with inUse := false }).recordsTo m = (t.recordsTo m).erase i := by
  ext j
  unfold Tree.recordsTo Tree.withRecord
  rw [Finset.mem_erase, Finset.mem_filter, Finset.mem_filter]
  by_cases hj : j = i
  · subst hj
    simp
  · simp [hj]

theorem Tree.Wired.dropRecord (h : t.Wired U) (hi : i < maxHardLinks) (huse : (t.links i).inUse = true) :
    (t.withRecord i { t.links i with inUse := false }).Wired U := by
  have hkeep : ∀ j, ((t.withRecord i { t.links i with inUse := false }).links j).inUse = true →
      (t.withRecord i { t.links i with inUse := false }).links j = t.links j := by
    intro j hj
    unfold Tree.withRecord at hj ⊢
    by_cases heq : j = i
    · subst heq
      simp at hj
    · exact Function.update_of_ne heq ..
  have hrec : ∀ {d j}, (t.withRecord i { t.links i with inUse := false }).Record d j → t.Record d j := by
    rintro d j ⟨hj, hin, hpar⟩
    have heq := hkeep j hin
    rw [heq] at hin hpar
    exact ⟨hj, hin, hpar⟩
  have hcard : ∀ m, ((t.withRecord i { t.links i with inUse := false }).recordsTo m).card ≤ (t.recordsTo m).card := by
    intro m
    rw [Tree.recordsTo_dropped hi huse]
    exact Finset.card_erase_le
  refine ⟨fun u => ⟨(h.unique u).children, fun d j k hj hk heq => ?_, fun d c j hc hj => ?_⟩, h.nodup, h.alive, h.once,
    fun j hj hin => ?_, fun m hin hdir => (hcard m).trans (h.linked m hin hdir), fun d m hm hdir => ?_⟩
  · rw [hkeep j hj.2.1, hkeep k hk.2.1] at heq
    exact (h.unique u).records d j k (hrec hj) (hrec hk) heq
  · rw [hkeep j hj.2.1]
    exact (h.unique u).apart d c j hc (hrec hj)
  · have heq := hkeep j hin
    rw [heq] at hin ⊢
    exact h.target j hj hin
  · exact (Nat.succ_le_succ (hcard m)).trans (h.child d m hm hdir)

theorem Tree.Wired.addRecord (h : t.Wired U) (name : Name) (hi : (t.links i).inUse = false)
    (huse : (t.nodes n).inUse = true) (hdir : isDir (t.nodes n).mode = false)
    (hlinked : (t.recordsTo n).card + 1 ≤ (t.nodes n).nlink)
    (hchild : ∀ d', n ∈ (t.nodes d').children → (t.recordsTo n).card + 2 ≤ (t.nodes n).nlink)
    (hnew : t.Absent d name) :
    (t.withRecord i { inUse := true, parent := d, target := n, name }).Wired U := by
  have hself : (t.withRecord i { inUse := true, parent := d, target := n, name }).links i =
      { inUse := true, parent := d, target := n, name } := Function.update_self ..
  have hother : ∀ j, j ≠ i → (t.withRecord i { inUse := true, parent := d, target := n, name }).links j = t.links j :=
    fun j hj => Function.update_of_ne hj ..
  have hcases : ∀ {d' j}, (t.withRecord i { inUse := true, parent := d, target := n, name }).Record d' j →
      (j = i ∧ d' = d) ∨ (j ≠ i ∧ t.Record d' j) := by
    rintro d' j ⟨hj, hin, hpar⟩
    by_cases heq : j = i
    · subst heq
      rw [hself] at hpar
      exact .inl ⟨rfl, hpar.symm⟩
    · rw [hother j heq] at hin hpar
      exact .inr ⟨heq, hj, hin, hpar⟩
  have hcard : ∀ m, ((t.withRecord i { inUse := true, parent := d, target := n, name }).recordsTo m).card ≤
      (t.recordsTo m).card + if m = n then 1 else 0 := by
    intro m
    have hsub : (t.withRecord i { inUse := true, parent := d, target := n, name }).recordsTo m ⊆
        if m = n then insert i (t.recordsTo m) else t.recordsTo m := by
      intro j hj
      obtain ⟨hj, hin, htar⟩ := Finset.mem_filter.1 hj
      by_cases heq : j = i
      · subst heq
        rw [hself] at htar
        rw [if_pos htar.symm]
        exact Finset.mem_insert_self ..
      · rw [hother j heq] at hin htar
        have hmem : j ∈ t.recordsTo m := Finset.mem_filter.2 ⟨hj, hin, htar⟩
        split
        · exact Finset.mem_insert_of_mem hmem
        · exact hmem
    refine (Finset.card_le_card hsub).trans ?_
    split
    · exact Finset.card_insert_le ..
    · exact le_rfl
  refine ⟨fun u => ⟨(h.unique u).children, fun d' j k hj hk heq => ?_, fun d' c j hc hj => ?_⟩, h.nodup, h.alive, h.once,
    fun j hj hin => ?_, fun m hin hmdir => ?_, fun d' m hm hmdir => ?_⟩
  · rcases hcases hj with ⟨hji, rfl⟩ | ⟨hji, hj'⟩
    · rcases hcases hk with ⟨hki, -⟩ | ⟨hki, hk'⟩
      · exact hji.trans hki.symm
      · rw [hji, hself, hother k hki] at heq
        exact absurd heq.symm (hnew.2 k hk')
    · rcases hcases hk with ⟨hki, rfl⟩ | ⟨hki, hk'⟩
      · rw [hki, hself, hother j hji] at heq
        exact absurd heq (hnew.2 j hj')
      · rw [hother j hji, hother k hki] at heq
        exact (h.unique u).records d' j k hj' hk' heq
  · rcases hcases hj with ⟨rfl, rfl⟩ | ⟨hji, hj⟩
    · rw [hself]
      exact hnew.1 c hc
    · rw [hother j hji]
      exact (h.unique u).apart d' c j hc hj
  · by_cases heq : j = i
    · subst heq
      rw [hself]
      exact ⟨huse, hdir⟩
    · rw [hother j heq] at hin ⊢
      exact h.target j hj hin
  · refine (hcard m).trans ?_
    split
    · next heq =>
      subst heq
      exact hlinked
    · exact h.linked m hin hmdir
  · refine (Nat.succ_le_succ (hcard m)).trans ?_
    split
    · next heq =>
      subst heq
      exact hchild d' hm
    · exact h.child d' m hm hmdir

theorem Tree.set_set (x y : View) : (t.set n x).set n y = t.set n y := by
  unfold Tree.set
  simp

/-- A free node becomes a new one without children, which may join a directory. -/
theorem Tree.Wired.alloc (h : t.Wired U) (hfree : (t.nodes n).inUse = false) (hx : x.children = []) :
    (t.set n x).Wired U ∧ (t.set n x).Nameless n := by
  have hn := h.nameless_of_free hfree
  refine ⟨h.setNameless hn (.inr hx), fun d hd => ?_, hn.record⟩
  by_cases heq : d = n
  · subst heq
    rw [Tree.set_self, hx] at hd
    cases hd
  · rw [Tree.set_of_ne heq] at hd
    exact hn.child d hd

end Updates

/-! ## The operations -/

section Trees
variable {s s' : State} {n : Nat}

theorem tree_modify (f : TmpfsNode → TmpfsNode) : (s.modify n f).tree = s.tree.set n (f (s.nodes n)).view := by
  unfold State.modify State.tree Tree.set
  congr 1
  funext m
  by_cases hm : m = n
  · subst hm
    simp
  · simp [hm]

theorem tree_modify_same {f : TmpfsNode → TmpfsNode} (hf : (f (s.nodes n)).view = (s.nodes n).view) :
    (s.modify n f).tree = s.tree := by
  rw [tree_modify, hf]
  unfold Tree.set
  congr 1
  exact Function.update_eq_self ..

theorem tree_freeDataPages (n : Nat) (s : State) : (freeDataPages n s).tree = s.tree := by
  unfold freeDataPages
  split
  · rfl
  · exact tree_modify_same rfl

theorem tree_freeChildren (n : Nat) (s : State) : (freeChildren n s).tree = s.tree := by
  unfold freeChildren
  split
  · rfl
  · exact tree_modify_same rfl

theorem tree_ensureChildren (n : Nat) (s : State) : (ensureChildren n s).2.tree = s.tree := by
  unfold ensureChildren
  split
  · rfl
  · split
    · rfl
    · dsimp only
      rw [tree_modify_same rfl]
      rfl

theorem tree_ensureDataPages (n : Nat) (s : State) : (ensureDataPages n s).2.tree = s.tree := by
  unfold ensureDataPages
  split
  · rfl
  · split
    · rfl
    · dsimp only
      rw [tree_modify_same rfl]
      rfl

theorem tree_setDataPage (n i page : Nat) (s : State) : (setDataPage n i page s).tree = s.tree := tree_modify_same rfl

theorem tree_storeTarget (n : Nat) (target : List (BitVec 8)) (s : State) : (storeTarget n target s).2.tree = s.tree := by
  unfold storeTarget
  split
  · rfl
  · have hdata := tree_ensureDataPages n s
    split
    · next heq => rw [← hdata, heq]
    · next heq =>
      rw [heq] at hdata
      rw [← hdata]
      split
      · rfl
      · exact tree_setDataPage ..

theorem allocNode_some {i : Nat} (h : allocNode s = some (i, s')) :
    (s.tree.nodes i).inUse = false ∧ s'.tree = s.tree.set i { s.tree.nodes i with inUse := true, children := [] } := by
  obtain ⟨j, hfind, hval⟩ := Option.map_eq_some_iff.1 h
  obtain ⟨rfl, rfl⟩ := Prod.mk.inj hval
  have hfree : (s.nodes j).inUse = false := by simpa using List.find?_some hfind
  exact ⟨hfree, tree_modify ..⟩

theorem tree_dropLink (n : Nat) (s : State) : (dropLink n s).tree = s.tree.dropLink n := by
  unfold dropLink Tree.dropLink
  dsimp only
  have hfirst : (s.modify n fun x => { x with nlink := x.nlink - 1 }).tree =
      s.tree.set n { s.tree.nodes n with nlink := (s.tree.nodes n).nlink - 1 } := tree_modify ..
  have hlink : ((s.modify n fun x => { x with nlink := x.nlink - 1 }).nodes n).nlink =
      ((s.tree.set n { s.tree.nodes n with nlink := (s.tree.nodes n).nlink - 1 }).nodes n).nlink := by
    rw [← hfirst]
    rfl
  rw [hlink]
  split
  · rw [tree_modify]
    have hnode : ((freeDataPages n (s.modify n fun x => { x with nlink := x.nlink - 1 })).nodes n).view =
        (s.tree.set n { s.tree.nodes n with nlink := (s.tree.nodes n).nlink - 1 }).nodes n := by
      rw [← hfirst, ← tree_freeDataPages n]
      rfl
    have hview : ∀ x : TmpfsNode, ({ x with inUse := false } : TmpfsNode).view = { x.view with inUse := false } :=
      fun x => rfl
    rw [hview, hnode, tree_freeDataPages, hfirst]
  · exact hfirst

theorem tree_removeChild (parent : Nat) (name : Name) (s : State) :
    (removeChild parent name s).tree = s.tree.without parent name := tree_modify ..

end Trees

/-- Node `d` is a directory in use. -/
def Tree.Live (t : Tree) (d : Nat) : Prop := (t.nodes d).inUse = true ∧ isDir (t.nodes d).mode = true

section Operations
variable {U : Prop} {s : State} {parent : Nat} {name : Name}

theorem find_child {child : Nat} (h : (s.nodes parent).children.find? (s.hasName name) = some child) :
    child ∈ (s.tree.nodes parent).children ∧ (s.tree.nodes child).name = name := by
  have hname := List.find?_some h
  exact ⟨List.mem_of_find?_eq_some h, eq_of_beq hname⟩

theorem find_child_none (h : (s.nodes parent).children.find? (s.hasName name) = none) :
    ∀ c ∈ (s.tree.nodes parent).children, (s.tree.nodes c).name ≠ name := by
  intro c hc heq
  have hno := List.find?_eq_none.1 h c hc
  exact hno (beq_iff_eq.2 heq)

theorem any_child_false (h : ¬ (s.nodes parent).children.any (s.hasName name) = true) :
    ∀ c ∈ (s.tree.nodes parent).children, (s.tree.nodes c).name ≠ name := by
  intro c hc heq
  exact h (List.any_eq_true.2 ⟨c, hc, beq_iff_eq.2 heq⟩)

theorem findLink_some {i : Nat} (h : findLink s parent name = some i) :
    s.tree.Record parent i ∧ (s.tree.links i).name = name := by
  have hlt := List.mem_range.1 (List.mem_of_find?_eq_some h)
  have hval := List.find?_some h
  simp only [Bool.and_eq_true, beq_iff_eq] at hval
  exact ⟨⟨hlt, hval.1.1, hval.1.2⟩, hval.2⟩

theorem findLink_none (h : findLink s parent name = none) :
    ∀ i, s.tree.Record parent i → (s.tree.links i).name ≠ name := by
  rintro i ⟨hlt, huse, hpar⟩ heq
  have := List.find?_eq_none.1 h i (List.mem_range.2 hlt)
  simp only [Bool.and_eq_true, beq_iff_eq] at this
  exact this ⟨⟨huse, hpar⟩, heq⟩

theorem addChild_wired {node : Nat} (h : s.tree.Wired U) (hn : s.tree.Nameless node) (hj : s.tree.Joins node)
    (hnew : U → s.tree.Absent parent (s.tree.nodes node).name) :
    (addChild parent node s).2.tree.Wired U := by
  have hsame := tree_ensureChildren parent s
  unfold addChild
  split
  · next s₁ heq =>
    rw [heq] at hsame
    have hsame : s₁.tree = s.tree := hsame
    rw [tree_modify, hsame]
    refine h.setNameless hn (.inl ?_)
    show (s₁.tree.nodes node).children = _
    rw [hsame]
  · next s₁ heq =>
    rw [heq] at hsame
    have hsame : s₁.tree = s.tree := hsame
    have hnode : ∀ x : TmpfsNode, ({ x with children := x.children ++ [node] } : TmpfsNode).view =
        { x.view with children := x.view.children ++ [node] } := fun x => rfl
    rw [tree_modify, hnode, show (s₁.nodes parent).view = s.tree.nodes parent by rw [← hsame]; rfl, hsame]
    exact h.append hj hnew

theorem newNode_joins {mode : Mode} {inodeSize nlink node : Nat} {s₁ : State} (h : s.tree.Wired U)
    (hparent : s.tree.Live parent) (hlen : name.length ≤ maxNameLen) (hlinks : 1 ≤ nlink)
    (habsent : U → s.tree.Absent parent name) (hnew : newNode name mode inodeSize nlink s = some (node, s₁)) :
    s₁.tree.Wired U ∧ s₁.tree.Nameless node ∧ s₁.tree.Joins node ∧
      (U → s₁.tree.Absent parent (s₁.tree.nodes node).name) := by
  obtain ⟨⟨i, s₀⟩, halloc, hval⟩ := Option.map_eq_some_iff.1 hnew
  obtain ⟨rfl, hs₁⟩ := Prod.mk.inj hval
  obtain ⟨hfree, hs₀⟩ := allocNode_some halloc
  have hnode : (s₀.nodes i).view = { s.tree.nodes i with inUse := true, children := [] } := by
    have := congrArg (fun t => t.nodes i) hs₀
    rw [Tree.set_self] at this
    exact this
  have htree : s₁.tree = s.tree.set i { name, mode, nlink, children := [], inUse := true } := by
    have hmod : s₁.tree = s₀.tree.set i { (s₀.nodes i).view with name := name.take maxNameLen, mode, nlink } := by
      rw [← hs₁]
      exact tree_modify fun x => { x with name := name.take maxNameLen, ino := s₀.nextIno, mode, inodeSize, nlink }
    rw [hmod, hs₀, Tree.set_set, hnode, List.take_of_length_le hlen]
  obtain ⟨hwell, hnameless⟩ := h.alloc hfree (x := { name, mode, nlink, children := [], inUse := true }) rfl
  have hne : parent ≠ i := by
    rintro rfl
    rw [hparent.1] at hfree
    cases hfree
  rw [htree]
  refine ⟨hwell, hnameless, ⟨hnameless.child, ?_, fun _ => ?_⟩, fun u => ⟨fun c hc => ?_, fun j hj => ?_⟩⟩
  · rw [Tree.set_self]
  · rw [hnameless.record, Tree.set_self]
    exact hlinks
  · have hcn : c ≠ i := fun heq => hnameless.child parent (heq ▸ hc)
    rw [Tree.set_of_ne hne] at hc
    rw [Tree.set_self, Tree.set_of_ne hcn]
    exact (habsent u).1 c hc
  · rw [Tree.set_self]
    exact (habsent u).2 j hj

theorem create_wired {mode : Mode} (h : s.tree.Wired U) (hparent : s.tree.Live parent)
    (hlen : name.length ≤ maxNameLen) (hfresh : U → ∀ i, s.tree.Record parent i → (s.tree.links i).name ≠ name) :
    (create parent name mode s).2.tree.Wired U := by
  unfold create
  split
  · exact h
  split
  · exact h
  next hany =>
  split
  · exact h
  have hlinks : 1 ≤ if isDir mode then 2 else 1 := by split <;> decide
  cases hnew : newNode name mode 0 (if isDir mode then 2 else 1) s with
  | none => exact h
  | some r =>
    obtain ⟨hwell, hnameless, hjoins, hnames⟩ :=
      newNode_joins h hparent hlen hlinks (fun u => ⟨any_child_false hany, hfresh u⟩) hnew
    exact addChild_wired hwell hnameless hjoins hnames

theorem symlink_wired {target : List (BitVec 8)} (h : s.tree.Wired U) (hparent : s.tree.Live parent)
    (hlen : name.length ≤ maxNameLen) (hfresh : U → s.tree.Absent parent name) :
    (symlink parent name target s).2.tree.Wired U := by
  unfold symlink
  split
  · exact h
  cases hnew : newNode name (sIflnk ||| 0o777) target.length 1 s with
  | none => exact h
  | some r =>
    obtain ⟨node, s₁⟩ := r
    obtain ⟨hwell, hnameless, hjoins, hnames⟩ := newNode_joins h hparent hlen le_rfl hfresh hnew
    dsimp only
    have hstore := tree_storeTarget node target s₁
    rcases hres : storeTarget node target s₁ with ⟨ok, s₂⟩
    rw [hres] at hstore
    have hstore : s₂.tree = s₁.tree := hstore
    cases ok with
    | false =>
      dsimp only
      rw [tree_modify, hstore]
      refine hwell.setNameless hnameless (.inl ?_)
      show (s₂.tree.nodes node).children = _
      rw [hstore]
    | true =>
      rw [← hstore] at hwell hnameless hjoins hnames
      exact addChild_wired hwell hnameless hjoins hnames

theorem link_wired {target : Nat} (h : s.tree.Wired U) (hlen : name.length ≤ maxNameLen)
    (huse : (s.tree.nodes target).inUse = true) (hdir : isDir (s.tree.nodes target).mode = false) :
    (link parent name target s).2.tree.Wired U := by
  unfold link
  split
  · exact h
  next hany =>
  split
  · exact h
  next hlink =>
  split
  · exact h
  next i hfree =>
  have hi : (s.hardLinks i).inUse = false := by simpa using List.find?_some hfree
  -- one more link first, and then the record that needs it
  have h₁ := h.setNode (n := target) (x := { s.tree.nodes target with nlink := (s.tree.nodes target).nlink + 1 }) rfl rfl rfl
    (.inl rfl) (fun hin hd => (h.linked target hin hd).trans (Nat.le_succ _))
    (fun d hd hdir => (h.child d target hd hdir).trans (Nat.le_succ _))
  have hsame : ∀ c, ((s.tree.set target { s.tree.nodes target with nlink := (s.tree.nodes target).nlink + 1 }).nodes c).name =
      (s.tree.nodes c).name ∧
      ((s.tree.set target { s.tree.nodes target with nlink := (s.tree.nodes target).nlink + 1 }).nodes c).children =
      (s.tree.nodes c).children := by
    intro c
    by_cases hc : c = target
    · subst hc
      simp
    · simp [Tree.set_of_ne hc]
  have h₂ := h₁.addRecord (d := parent) (n := target) (i := i) name hi (by rw [Tree.set_self]; exact huse)
    (by rw [Tree.set_self]; exact hdir) (by rw [Tree.set_self]; exact Nat.succ_le_succ (h.linked target huse hdir))
    (fun d hd => by
      rw [(hsame d).2] at hd
      rw [Tree.set_self]
      exact Nat.succ_le_succ (h.child d target hd hdir))
    ⟨fun c hc => by
      rw [(hsame parent).2] at hc
      rw [(hsame c).1]
      exact any_child_false hany c hc, findLink_none (by simpa using hlink)⟩
  rw [List.take_of_length_le hlen]
  dsimp only
  rw [tree_modify]
  exact h₂

theorem unlink_wired (h : s.tree.Wired U) : (unlink parent name s).2.tree.Wired U := by
  unfold unlink
  split
  · next child hfind =>
    split
    · exact h
    next hdir =>
    obtain ⟨hmem, hname⟩ := find_child hfind
    have hdir : isDir (s.nodes child).mode = false := by simpa using hdir
    have hfields := Tree.withChildren_fields (t := s.tree) (d := parent)
      ((s.tree.nodes parent).children.eraseP fun c => (s.tree.nodes c).name == name) child
    dsimp only
    rw [tree_dropLink, tree_removeChild]
    refine (h.without parent name).dropLink ?_ ?_ ?_ fun d hd => absurd hd (h.notMem_without hfind d)
    · exact (congrArg isDir hfields.2.1).trans hdir
    · exact hfields.2.2.2.trans (h.alive parent child hmem)
    · exact (h.child parent child hmem hdir).trans hfields.2.2.1.ge
  · split
    · exact h
    next i hlink =>
    obtain ⟨⟨hi, huse, -⟩, -⟩ := findLink_some hlink
    obtain ⟨hin, hdir⟩ := h.target i hi huse
    have hmem : i ∈ s.tree.recordsTo (s.tree.links i).target :=
      Finset.mem_filter.2 ⟨Finset.mem_range.2 hi, huse, rfl⟩
    have hcard := Finset.card_erase_add_one hmem
    rw [← Tree.recordsTo_dropped hi huse] at hcard
    dsimp only
    rw [tree_dropLink]
    refine (h.dropRecord hi huse).dropLink hdir hin ?_ fun d hd => ?_
    · exact hcard.le.trans (h.linked _ hin hdir)
    · exact (Nat.succ_le_succ hcard.le).trans (h.child d _ hd hdir)

theorem rmdir_wired (h : s.tree.Wired U) : (rmdir parent name s).2.tree.Wired U := by
  unfold rmdir
  split
  · exact h
  next child hfind =>
  split
  · exact h
  next hdir =>
  split
  · exact h
  next hempty =>
  obtain ⟨hmem, hname⟩ := find_child hfind
  have hdir : isDir (s.nodes child).mode = true := by simpa using hdir
  have hempty : (s.tree.nodes child).children = [] := List.length_eq_zero_iff.1 (not_not.1 hempty)
  have hne : parent ≠ child := by
    rintro rfl
    rw [hempty] at hmem
    cases hmem
  have hnameless : (s.tree.without parent name).Nameless child := by
    refine ⟨h.notMem_without hfind, Finset.filter_eq_empty_iff.2 fun j hj hl => ?_⟩
    have hfile := (h.target j (Finset.mem_range.1 hj) hl.1).2
    rw [show (s.tree.links j).target = child from hl.2] at hfile
    exact absurd (hfile.symm.trans hdir) (by decide)
  have hwell := (h.without parent name).setNameless hnameless
    (x := { (s.tree.without parent name).nodes child with inUse := false }) (.inl rfl)
  -- the code frees the node first and removes it from the list then
  have htree : (removeChild parent name ((freeChildren child (freeDataPages child s)).modify child fun x =>
      { x with inUse := false })).tree =
      (s.tree.without parent name).set child { (s.tree.without parent name).nodes child with inUse := false } := by
    have hfreed : (freeChildren child (freeDataPages child s)).tree = s.tree :=
      (tree_freeChildren _ _).trans (tree_freeDataPages _ _)
    have hset : ((freeChildren child (freeDataPages child s)).modify child fun x => { x with inUse := false }).tree =
        s.tree.set child { s.tree.nodes child with inUse := false } := by
      rw [tree_modify, ← hfreed]
      rfl
    have hsame : (s.tree.without parent name).nodes child = s.tree.nodes child := Tree.set_of_ne (Ne.symm hne)
    rw [tree_removeChild, hset, hsame, Tree.set_without hne (by rfl)]
  dsimp only
  rw [htree]
  exact hwell

theorem rename_wired {newParent : Nat} {newName : Name} (h : s.tree.Wired U)
    (hchild : U → ∀ child, (s.nodes parent).children.find? (s.hasName name) = some child →
      ∀ c ∈ (s.tree.nodes newParent).children, c ≠ child → (s.tree.nodes c).name ≠ newName)
    (hrec : U → ∀ i, s.tree.Record newParent i → (s.tree.links i).name ≠ newName) :
    (rename parent name newParent newName s).2.tree.Wired U := by
  unfold rename
  split
  · exact h
  next child hfind =>
  obtain ⟨hmem, hname⟩ := find_child hfind
  have hfields := Tree.withChildren_fields (t := s.tree) (d := parent)
    ((s.tree.nodes parent).children.eraseP fun c => (s.tree.nodes c).name == name)
  have hno := h.notMem_without hfind
  have hsub : ∀ d c, c ∈ ((s.tree.without parent name).nodes d).children → c ∈ (s.tree.nodes d).children := by
    intro d c hc
    unfold Tree.without at hc
    rw [Tree.withChildren_children] at hc
    split at hc
    · next heq =>
      rw [heq]
      exact List.mem_of_mem_eraseP hc
    · exact hc
  -- the child out of its list, with its new name
  let t₂ := (s.tree.without parent name).set child { (s.tree.without parent name).nodes child with name := newName }
  have h₂ : t₂.Wired U := (h.without parent name).setNode rfl rfl rfl (.inr hno)
    ((h.without parent name).linked child) fun d hd => absurd hd (hno d)
  have hs₂ : ((removeChild parent name s).modify child fun x => { x with name := newName }).tree = t₂ := by
    have hnode : ((removeChild parent name s).nodes child).view = (s.tree.without parent name).nodes child := by
      rw [← tree_removeChild]
      rfl
    have hview : ∀ y : TmpfsNode, ({ y with name := newName } : TmpfsNode).view = { y.view with name := newName } :=
      fun y => rfl
    rw [tree_modify, tree_removeChild, hview, hnode]
  have hchildren : ∀ d, (t₂.nodes d).children = ((s.tree.without parent name).nodes d).children := by
    intro d
    by_cases hd : d = child
    · rw [hd, show t₂.nodes child = _ from Tree.set_self]
    · exact congrArg View.children (Tree.set_of_ne hd)
  have hself : t₂.nodes child = { (s.tree.without parent name).nodes child with name := newName } := Tree.set_self
  dsimp only
  split
  · rw [hs₂]
    exact h₂
  generalize ((removeChild parent name s).modify child fun x => { x with name := newName }) = s₂ at hs₂ ⊢
  have hsame := tree_ensureChildren newParent s₂
  rcases hens : ensureChildren newParent s₂ with ⟨ok, s₃⟩
  rw [hens, hs₂] at hsame
  have hsame : s₃.tree = t₂ := hsame
  cases ok with
  | false =>
    dsimp only
    rw [hsame]
    exact h₂
  | true =>
    have hview : ∀ y : TmpfsNode, ({ y with children := y.children ++ [child] } : TmpfsNode).view =
        { y.view with children := y.view.children ++ [child] } := fun y => rfl
    dsimp only
    rw [tree_modify, hview, show (s₃.nodes newParent).view = t₂.nodes newParent by rw [← hsame]; rfl, hsame]
    refine h₂.append ⟨fun d hd => ?_, ?_, fun hdir => ?_⟩ fun u => ⟨fun c hc => ?_, fun i hi => ?_⟩
    · rw [hchildren] at hd
      exact hno d hd
    · rw [hself]
      exact (hfields child).2.2.2.trans (h.alive parent child hmem)
    · rw [hself] at hdir ⊢
      have hdir := (congrArg isDir (hfields child).2.1).symm.trans hdir
      exact (h.child parent child hmem hdir).trans (hfields child).2.2.1.ge
    · rw [hchildren] at hc
      have hne : c ≠ child := fun heq => hno newParent (heq ▸ hc)
      have hname : (t₂.nodes c).name = (s.tree.nodes c).name :=
        (congrArg View.name (Tree.set_of_ne hne)).trans (hfields c).1
      rw [hname, hself]
      exact hchild u child hfind c (hsub newParent c hc) hne
    · rw [hself]
      exact hrec u i hi

end Operations

/-! ## Runs -/

/-- An operation; the target of a link is what `lookup` finds. -/
inductive Op
  | create (parent : Nat) (name : Name) (mode : Mode)
  | link (parent : Nat) (name : Name) (source : Nat) (sourceName : Name)
  | symlink (parent : Nat) (name : Name) (target : List (BitVec 8))
  | rename (oldParent : Nat) (oldName : Name) (newParent : Nat) (newName : Name)
  | unlink (parent : Nat) (name : Name)
  | rmdir (parent : Nat) (name : Name)

def Op.Enabled (s : State) : Op → Prop
  | .create parent name _ => s.tree.Live parent ∧ name.length ≤ maxNameLen
  | .link parent name source _ => s.tree.Live parent ∧ s.tree.Live source ∧ name.length ≤ maxNameLen
  | .symlink parent name _ => s.tree.Live parent ∧ name.length ≤ maxNameLen
  | .rename oldParent _ newParent newName => s.tree.Live oldParent ∧ s.tree.Live newParent ∧ newName.length ≤ maxNameLen
  | .unlink parent _ => s.tree.Live parent
  | .rmdir parent _ => s.tree.Live parent

def Op.exec (s : State) : Op → State
  | .create parent name mode => (Tmpfs.create parent name mode s).2
  | .link parent name source sourceName =>
    match lookup s source sourceName with
    | none => s
    | some target => if isDir (s.nodes target).mode then s else (Tmpfs.link parent name target s).2
  | .symlink parent name target => (Tmpfs.symlink parent name target s).2
  | .rename oldParent oldName newParent newName => (Tmpfs.rename oldParent oldName newParent newName s).2
  | .unlink parent name => (Tmpfs.unlink parent name s).2
  | .rmdir parent name => (Tmpfs.rmdir parent name s).2

inductive Run (Allowed : State → Op → Prop) (s₀ : State) : State → Prop
  | init : Run Allowed s₀ s₀
  | step {s : State} {o : Op} : Run Allowed s₀ s → o.Enabled s → Allowed s o → Run Allowed s₀ (o.exec s)

/-- The new name is not taken by an entry that the operation does not look at: `create` does not look at the hard link
table, `symlink` and `rename` at nothing. -/
def Fresh (s : State) : Op → Prop
  | .create parent name _ => ∀ i, s.tree.Record parent i → (s.hardLinks i).name ≠ name
  | .symlink parent name _ => (∀ c ∈ (s.nodes parent).children, (s.nodes c).name ≠ name) ∧
    ∀ i, s.tree.Record parent i → (s.hardLinks i).name ≠ name
  | .rename oldParent oldName newParent newName =>
    (∀ child, (s.nodes oldParent).children.find? (s.hasName oldName) = some child →
      ∀ c ∈ (s.nodes newParent).children, c ≠ child → (s.nodes c).name ≠ newName) ∧
    ∀ i, s.tree.Record newParent i → (s.hardLinks i).name ≠ newName
  | _ => True

section Runs
variable {U : Prop} {s : State}

theorem lookup_alive (h : s.tree.Wired U) {d n : Nat} {name : Name} (hl : lookup s d name = some n) :
    (s.tree.nodes n).inUse = true := by
  unfold lookup at hl
  split at hl
  · next child hfind =>
    obtain rfl := Option.some.inj hl
    exact h.alive d child (find_child hfind).1
  · obtain ⟨i, hi, rfl⟩ := Option.map_eq_some_iff.1 hl
    obtain ⟨⟨hlt, huse, -⟩, -⟩ := findLink_some hi
    exact (h.target i hlt huse).1

theorem Op.exec_wired (h : s.tree.Wired U) {op : Op} (hen : op.Enabled s) (hfresh : U → Fresh s op) :
    (op.exec s).tree.Wired U := by
  cases op with
  | create parent name mode => exact create_wired h hen.1 hen.2 hfresh
  | link parent name source sourceName =>
    unfold Op.exec
    dsimp only
    cases hl : lookup s source sourceName with
    | none => exact h
    | some target =>
      dsimp only
      split
      · exact h
      · next hdir =>
        have hdir : isDir (s.nodes target).mode = false := by simpa using hdir
        exact link_wired h hen.2.2 (lookup_alive h hl) hdir
  | symlink parent name target => exact symlink_wired h hen.1 hen.2 hfresh
  | rename oldParent oldName newParent newName => exact rename_wired h (fun u => (hfresh u).1) fun u => (hfresh u).2
  | unlink parent name => exact unlink_wired h
  | rmdir parent name => exact rmdir_wired h

theorem init_wired (U : Prop) (m : Machine) : (init m).tree.Wired U := by
  have hchildren : ∀ d, ((init m).tree.nodes d).children = [] := by
    intro d
    by_cases hd : d = 0
    · subst hd
      rfl
    · show ((init m).nodes d).children = []
      simp [init, hd, blankNode]
  have hlinks : ∀ i, ((init m).tree.links i).inUse = false := fun _ => rfl
  refine ⟨fun _ => ⟨fun d => ?_, fun d i j hi => ?_, fun d c i hc => ?_⟩, fun d => ?_, fun d c hc => ?_,
    fun d d' c hc => ?_, fun i _ hi => ?_, fun n _ _ => ?_, fun d n hn => ?_⟩
  · rw [hchildren]
    exact List.nodup_nil
  · exact absurd hi.2.1 (by rw [hlinks]; decide)
  · rw [hchildren] at hc
    cases hc
  · rw [hchildren]
    exact List.nodup_nil
  · rw [hchildren] at hc
    cases hc
  · rw [hchildren] at hc
    cases hc
  · exact absurd hi (by rw [hlinks]; decide)
  · have hnone : (init m).tree.recordsTo n = ∅ :=
      Finset.filter_eq_empty_iff.2 fun i _ hi => absurd hi.1 (by rw [hlinks]; decide)
    rw [hnone]
    exact Nat.zero_le _
  · rw [hchildren] at hn
    cases hn

theorem Run.wired {s₀ : State} (h₀ : s₀.tree.Wired U) (hrun : Run Fresh s₀ s) : s.tree.Wired U := by
  induction hrun with
  | init => exact h₀
  | step _ hen hfresh ih => exact Op.exec_wired ih hen fun _ => hfresh

theorem Tree.dropLink_fields (t : Tree) (n c : Nat) : ((t.dropLink n).nodes c).name = (t.nodes c).name ∧
    ((t.dropLink n).nodes c).children = (t.nodes c).children := by
  unfold Tree.dropLink
  dsimp only
  by_cases hc : c = n
  · subst hc
    split
    · rw [Tree.set_self, Tree.set_self]
      exact ⟨rfl, rfl⟩
    · rw [Tree.set_self]
      exact ⟨rfl, rfl⟩
  · split
    · rw [Tree.set_of_ne hc, Tree.set_of_ne hc]
      exact ⟨rfl, rfl⟩
    · rw [Tree.set_of_ne hc]
      exact ⟨rfl, rfl⟩

theorem Tree.dropLink_links (t : Tree) (n : Nat) : (t.dropLink n).links = t.links := by
  unfold Tree.dropLink
  dsimp only
  split
  · rfl
  · rfl

theorem lookup_eq_none {d : Nat} {name : Name} (hchild : ∀ c ∈ (s.tree.nodes d).children, (s.tree.nodes c).name ≠ name)
    (hrec : ∀ i, s.tree.Record d i → (s.tree.links i).name ≠ name) : lookup s d name = none := by
  have hfind : (s.nodes d).children.find? (s.hasName name) = none :=
    List.find?_eq_none.2 fun c hc hname => hchild c hc (eq_of_beq hname)
  have hlink : findLink s d name = none := by
    refine List.find?_eq_none.2 fun i hi hval => ?_
    simp only [Bool.and_eq_true, beq_iff_eq] at hval
    exact hrec i ⟨List.mem_range.1 hi, hval.1.1, hval.1.2⟩ hval.2
  unfold lookup
  rw [hfind, hlink]
  rfl

theorem lookup_unlink (h : s.tree.Unique) {d : Nat} {name : Name} (hok : (unlink d name s).1 = true) :
    lookup (unlink d name s).2 d name = none := by
  unfold unlink at hok ⊢
  split at hok
  · next child hfind =>
    obtain ⟨hmem, hname⟩ := find_child hfind
    split at hok
    · cases hok
    next hdir =>
    rw [if_neg hdir]
    have hfields := Tree.withChildren_fields (t := s.tree) (d := d)
      ((s.tree.nodes d).children.eraseP fun c => (s.tree.nodes c).name == name)
    refine lookup_eq_none (fun c hc heq => ?_) fun i hi heq => ?_
    · rw [tree_dropLink, tree_removeChild, (Tree.dropLink_fields _ _ _).2] at hc
      rw [tree_dropLink, tree_removeChild, (Tree.dropLink_fields _ _ _).1] at heq
      unfold Tree.without at hc heq
      rw [Tree.withChildren_children, if_pos rfl, mem_eraseP_of_nodup (h.children d)] at hc
      exact hc.2 ((hfields c).1.symm.trans heq)
    · unfold Tree.Record at hi
      rw [tree_dropLink, tree_removeChild, Tree.dropLink_links] at hi heq
      exact h.apart d child i hmem hi (hname.trans heq.symm)
  · next hfind =>
    split at hok
    · cases hok
    next i hlink =>
    obtain ⟨hrec, hname⟩ := findLink_some hlink
    dsimp only
    refine lookup_eq_none (fun c hc heq => ?_) fun j hj heq => ?_
    · rw [tree_dropLink, (Tree.dropLink_fields _ _ _).2] at hc
      rw [tree_dropLink, (Tree.dropLink_fields _ _ _).1] at heq
      exact find_child_none hfind c hc heq
    · unfold Tree.Record at hj
      rw [tree_dropLink, Tree.dropLink_links] at hj heq
      by_cases hji : j = i
      · subst hji
        have hgone : (Function.update s.hardLinks j { s.hardLinks j with inUse := false } j).inUse = true := hj.2.1
        rw [Function.update_self] at hgone
        cases hgone
      · have hsame : (Function.update s.hardLinks i { s.hardLinks i with inUse := false } j) = s.hardLinks j :=
          Function.update_of_ne hji ..
        have hj : j < maxHardLinks ∧ (Function.update s.hardLinks i { s.hardLinks i with inUse := false } j).inUse = true ∧
          (Function.update s.hardLinks i { s.hardLinks i with inUse := false } j).parent = d := hj
        have heq : (Function.update s.hardLinks i { s.hardLinks i with inUse := false } j).name = name := heq
        rw [hsame] at hj heq
        exact hji (h.records d j i hj hrec (heq.trans hname.symm))

/-- **Names are unique** in every run whose operations are given no name that is taken where they do not look: no
directory has two entries of one name, and a name that was unlinked is not found any more. -/
theorem names_unique {m : Machine} (hrun : Run Fresh (init m) s) :
    s.tree.Unique ∧ ∀ d name, (unlink d name s).1 = true → lookup (unlink d name s).2 d name = none := by
  have h := (hrun.wired (init_wired True m)).unique trivial
  exact ⟨h, fun d name hok => lookup_unlink h hok⟩

end Runs

/-! ### Two files of one name -/

section TwoFiles

def fileMode : Mode := 0x81A4

/-- Files `a` and `b` in the root directory. -/
def twoFiles : State := Op.exec (Op.exec (init .boot) (.create 0 [0x61] fileMode)) (.create 0 [0x62] fileMode)

theorem live_of {s : State} {d : Nat} (h : (s.nodes d).inUse = true ∧ isDir (s.nodes d).mode = true) : s.tree.Live d := h

theorem children_nodup {s : State} (h : s.tree.Unique) (d : Nat) :
    ((s.nodes d).children.map fun c => (s.nodes c).name).Nodup := h.children d

theorem fresh_create {s : State} {d : Nat} {name : Name} {mode : Mode}
    (h : ∀ i, i < maxHardLinks → (s.hardLinks i).inUse = false) : Fresh s (.create d name mode) := by
  intro i hi
  have hfree := h i hi.1
  rw [show (s.hardLinks i).inUse = true from hi.2.1] at hfree
  cases hfree

theorem twoFiles_live : (init .boot).tree.Live 0 ∧ (Op.exec (init .boot) (.create 0 [0x61] fileMode)).tree.Live 0 ∧
    twoFiles.tree.Live 0 := by
  have hinit : ((init .boot).nodes 0).inUse = true ∧ isDir ((init .boot).nodes 0).mode = true := by decide +kernel
  have hone : ((Op.exec (init .boot) (.create 0 [0x61] fileMode)).nodes 0).inUse = true ∧
      isDir ((Op.exec (init .boot) (.create 0 [0x61] fileMode)).nodes 0).mode = true := by decide +kernel
  have htwo : (twoFiles.nodes 0).inUse = true ∧ isDir (twoFiles.nodes 0).mode = true := by decide +kernel
  exact ⟨live_of hinit, live_of hone, live_of htwo⟩

/-- `rename` of `a` to `b` leaves two files `b`; one of them is found when the other is unlinked. -/
theorem rename_duplicates :
    ∃ s, Run (fun _ _ => True) (init .boot) s ∧ ¬ s.tree.Unique ∧
      (unlink 0 [0x62] s).1 = true ∧ lookup (unlink 0 [0x62] s).2 0 [0x62] ≠ none := by
  obtain ⟨hinit, hone, htwo⟩ := twoFiles_live
  have hrun : Run (fun _ _ => True) (init .boot) (Op.exec twoFiles (.rename 0 [0x61] 0 [0x62])) :=
    ((Run.init.step (o := .create 0 [0x61] fileMode) ⟨hinit, by decide⟩ trivial).step
      (o := .create 0 [0x62] fileMode) ⟨hone, by decide⟩ trivial).step
      (o := .rename 0 [0x61] 0 [0x62]) ⟨htwo, htwo, by decide⟩ trivial
  have hnames : ((Op.exec twoFiles (.rename 0 [0x61] 0 [0x62])).nodes 0).children.map (fun c =>
      ((Op.exec twoFiles (.rename 0 [0x61] 0 [0x62])).nodes c).name) = [[0x62], [0x62]] := by decide +kernel
  have hfound : (unlink 0 [0x62] (Op.exec twoFiles (.rename 0 [0x61] 0 [0x62]))).1 = true ∧
      lookup (unlink 0 [0x62] (Op.exec twoFiles (.rename 0 [0x61] 0 [0x62]))).2 0 [0x62] ≠ none := by decide +kernel
  refine ⟨_, hrun, fun hu => ?_, hfound.1, hfound.2⟩
  have hnodup := children_nodup hu 0
  rw [hnames] at hnodup
  exact absurd hnodup (by decide)

/-- With two files `a` and `b`, `a` is not found once it was unlinked. -/
theorem names_unique_two :
    twoFiles.tree.Unique ∧ (twoFiles.nodes 0).children.length = 2 ∧ lookup (unlink 0 [0x61] twoFiles).2 0 [0x61] = none := by
  obtain ⟨hinit, hone, -⟩ := twoFiles_live
  have hfirst : ∀ i, i < maxHardLinks → ((init .boot).hardLinks i).inUse = false := fun _ _ => rfl
  have hsecond : ∀ i, i < maxHardLinks →
      ((Op.exec (init .boot) (.create 0 [0x61] fileMode)).hardLinks i).inUse = false := by decide +kernel
  have hrun : Run Fresh (init .boot) twoFiles :=
    (Run.init.step (o := .create 0 [0x61] fileMode) ⟨hinit, by decide⟩ (fresh_create hfirst)).step
      (o := .create 0 [0x62] fileMode) ⟨hone, by decide⟩ (fresh_create hsecond)
  have hcount : (twoFiles.nodes 0).children.length = 2 := by decide +kernel
  have hok : (unlink 0 [0x61] twoFiles).1 = true := by decide +kernel
  obtain ⟨hunique, hgone⟩ := names_unique hrun
  exact ⟨hunique, hcount, hgone 0 [0x61] hok⟩

end TwoFiles

end Zigix.Tmpfs
