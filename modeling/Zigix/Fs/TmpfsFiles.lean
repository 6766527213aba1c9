import Mathlib.Data.List.GetD
import Zigix.Fs.TmpfsNames
import Zigix.Mm.FaultSpec

/-!
# Files and pages of the file system in memory

* `tmpfsRead_eq`, `tmpfsWrite_spec`, `tmpfsTruncate_spec` : reading and writing, as operations on the bytes of a file.
-/

namespace Zigix.Tmpfs

open Pmm (pageSize)
open Space (Inv pin pin_apply)

/-! ## Pages -/

/-- Where a node keeps a page. -/
inductive Place
  | table
  | children
  | data (i : Nat)

def TmpfsNode.page (x : TmpfsNode) : Place → Option Nat
  | .table => x.dataPages.map Prod.fst
  | .children => x.childrenPage
  | .data i => x.dataPages.bind fun d => d.2 i

structure State.Owned (s : State) : Prop where
  held : ∃ pins, Inv ∅ pins s.machine ∧ ∀ n q f, (s.nodes n).page q = some f → pins f ≠ 0
  single : ∀ n n' q q' f, (s.nodes n).page q = some f → (s.nodes n').page q' = some f → n = n' ∧ q = q'

section Pages
variable {s : State} {n f : Nat} {m : Machine} {pins : Nat → Nat}

@[simp] theorem modify_self (g : TmpfsNode → TmpfsNode) : (s.modify n g).nodes n = g (s.nodes n) := Function.update_self ..

theorem modify_of_ne {n' : Nat} (h : n' ≠ n) (g : TmpfsNode → TmpfsNode) : (s.modify n g).nodes n' = s.nodes n' :=
  Function.update_of_ne h ..

theorem Inv.anyMem (h : Inv ∅ pins m) (mem : Nat → Nat → Pte.Word) : Inv ∅ pins { m with mem } :=
  h.withMem fun hn => hn.1.elim

theorem State.Owned.modify (h : s.Owned) {g : TmpfsNode → TmpfsNode}
    (hsub : ∀ q f, (g (s.nodes n)).page q = some f → (s.nodes n).page q = some f) : (s.modify n g).Owned := by
  have hold : ∀ n' q f, ((s.modify n g).nodes n').page q = some f → (s.nodes n').page q = some f := by
    intro n' q f hp
    by_cases heq : n' = n
    · subst heq
      rw [modify_self] at hp
      exact hsub q f hp
    · rwa [modify_of_ne heq] at hp
  obtain ⟨pins, hinv, hpins⟩ := h.held
  exact ⟨⟨pins, hinv, fun n' q f hp => hpins n' q f (hold n' q f hp)⟩,
    fun n₁ n₂ q₁ q₂ f h₁ h₂ => h.single n₁ n₂ q₁ q₂ f (hold n₁ q₁ f h₁) (hold n₂ q₂ f h₂)⟩

theorem State.Owned.withMem (h : s.Owned) (mem : Nat → Nat → Pte.Word) :
    State.Owned { s with machine := { s.machine with mem } } := by
  obtain ⟨pins, hinv, hpins⟩ := h.held
  exact ⟨⟨pins, Inv.anyMem hinv mem, hpins⟩, h.single⟩

theorem State.Owned.allocNone (h : s.Owned) (ha : s.machine.allocPage = (none, m)) : State.Owned { s with machine := m } := by
  obtain ⟨pins, hinv, hpins⟩ := h.held
  rcases hinv.allocPage with ⟨-, h2⟩ | ⟨g, h1, -⟩
  · rw [ha] at h2
    exact ⟨⟨pins, h2, hpins⟩, h.single⟩
  · rw [ha] at h1
    cases h1

theorem State.Owned.allocSome (h : s.Owned) (ha : s.machine.allocPage = (some f, m)) :
    (∀ n q, (s.nodes n).page q ≠ some f) ∧
      ∀ (g : TmpfsNode → TmpfsNode) (q : Place), (s.nodes n).page q = none →
        (∀ q' f', (g (s.nodes n)).page q' = some f' → (s.nodes n).page q' = some f' ∨ (q' = q ∧ f' = f)) →
        (State.modify { s with machine := m } n g).Owned := by
  obtain ⟨pins, hinv, hpins⟩ := h.held
  rcases hinv.allocPage with ⟨h1, -⟩ | ⟨f', h1, h2, h3⟩
  · rw [ha] at h1
    cases h1
  rw [ha] at h1 h2 h3
  obtain rfl : f = f' := Option.some.inj h1
  have hzero := h2.pins_lt h3
  have hnew : ∀ n q, (s.nodes n).page q ≠ some f := fun n q hp => hpins n q f hp hzero
  refine ⟨hnew, fun g q hempty hg => ?_⟩
  have hcases : ∀ n' q' f', ((State.modify { s with machine := m } n g).nodes n').page q' = some f' →
      (s.nodes n').page q' = some f' ∨ (n' = n ∧ q' = q ∧ f' = f) := by
    intro n' q' f' hp
    by_cases heq : n' = n
    · subst heq
      rw [modify_self] at hp
      exact (hg q' f' hp).imp id fun hq => ⟨rfl, hq⟩
    · rw [modify_of_ne heq] at hp
      exact .inl hp
  refine ⟨⟨pins + pin f, h2, fun n' q' f' hp => ?_⟩, fun n₁ n₂ q₁ q₂ f' hp₁ hp₂ => ?_⟩
  · rw [Pi.add_apply, pin_apply]
    rcases hcases n' q' f' hp with hp | ⟨-, -, rfl⟩
    · have := hpins n' q' f' hp
      omega
    · rw [if_pos rfl]
      omega
  · rcases hcases n₁ q₁ f' hp₁ with hold₁ | ⟨hn₁, hq₁, hf₁⟩
    · rcases hcases n₂ q₂ f' hp₂ with hold₂ | ⟨-, -, hf₂⟩
      · exact h.single n₁ n₂ q₁ q₂ f' hold₁ hold₂
      · exact absurd (hf₂ ▸ hold₁) (hnew n₁ q₁)
    · rcases hcases n₂ q₂ f' hp₂ with hold₂ | ⟨hn₂, hq₂, -⟩
      · exact absurd (hf₁ ▸ hold₂) (hnew n₂ q₂)
      · exact ⟨hn₁.trans hn₂.symm, hq₁.trans hq₂.symm⟩

theorem freePages_inv (fs : List Nat) (h : Inv ∅ pins m) (hnodup : fs.Nodup) (hpins : ∀ g ∈ fs, pins g ≠ 0) :
    (fs.foldl Machine.freePage m).mem = m.mem ∧
      ∃ pins', Inv ∅ pins' (fs.foldl Machine.freePage m) ∧ ∀ g, g ∉ fs → pins' g = pins g := by
  induction fs generalizing m pins with
  | nil => exact ⟨rfl, pins, h, fun _ _ => rfl⟩
  | cons f fs ih =>
    rw [List.nodup_cons] at hnodup
    have hsplit : (pins - pin f) + pin f = pins := by
      funext g
      have := hpins f List.mem_cons_self
      rw [Pi.add_apply, Pi.sub_apply, pin_apply]
      split
      · next heq =>
        subst heq
        omega
      · omega
    have hfree : Inv ∅ (pins - pin f) (m.freePage f) := Inv.freePage (by rw [hsplit]; exact h)
    have hother : ∀ g, g ≠ f → (pins - pin f) g = pins g := by
      intro g hg
      rw [Pi.sub_apply, pin_apply, if_neg hg, Nat.sub_zero]
    obtain ⟨hmem, pins', hinv, hrest⟩ := ih hfree hnodup.2 fun g hg => by
      rw [hother g fun heq => hnodup.1 (heq ▸ hg)]
      exact hpins g (List.mem_cons_of_mem _ hg)
    refine ⟨hmem, pins', hinv, fun g hg => ?_⟩
    rw [List.mem_cons, not_or] at hg
    rw [hrest g hg.2, hother g hg.1]

theorem page_table {x : TmpfsNode} {table : Nat} {pages : Nat → Option Nat} (h : x.dataPages = some (table, pages)) :
    x.page .table = some table ∧ ∀ i, x.page (.data i) = pages i := by
  unfold TmpfsNode.page
  rw [h]
  exact ⟨rfl, fun i => rfl⟩

theorem foldl_free (pages : Nat → Option Nat) (l : List Nat) (m : Machine) :
    l.foldl (freeEntry pages) m = (l.filterMap pages).foldl Machine.freePage m := by
  induction l generalizing m with
  | nil => rfl
  | cons i l ih =>
    rw [List.foldl_cons, ih, freeEntry]
    cases hi : pages i with
    | none => rw [List.filterMap_cons_none hi]
    | some f => rw [List.filterMap_cons_some hi, List.foldl_cons]

theorem freeDataPages_spec (h : s.Owned) (n : Nat) :
    (freeDataPages n s).Owned ∧ (freeDataPages n s).machine.mem = s.machine.mem ∧
      (freeDataPages n s).nodes = Function.update s.nodes n { s.nodes n with dataPages := none } ∧
      (freeDataPages n s).hardLinks = s.hardLinks ∧ (freeDataPages n s).nextIno = s.nextIno := by
  unfold freeDataPages
  cases hd : (s.nodes n).dataPages with
  | none =>
    have hsame : ({ s.nodes n with dataPages := none } : TmpfsNode) = s.nodes n := by rw [← hd]
    exact ⟨h, rfl, by rw [hsame]; exact (Function.update_eq_self n s.nodes).symm, rfl, rfl⟩
  | some d =>
    obtain ⟨table, pages⟩ := d
    obtain ⟨htable, hdata⟩ := page_table hd
    obtain ⟨pins, hinv, hpins⟩ := h.held
    -- the pages that are freed, in order
    let freed := (List.range maxDataPages).filterMap pages ++ [table]
    have hmem : ∀ g ∈ freed, ∃ q, q ≠ .children ∧ (s.nodes n).page q = some g := by
      intro g hg
      rcases List.mem_append.1 hg with hg | hg
      · obtain ⟨i, -, hi⟩ := List.mem_filterMap.1 hg
        exact ⟨.data i, nofun, (hdata i).trans hi⟩
      · rw [List.mem_singleton.1 hg]
        exact ⟨.table, nofun, htable⟩
    have hnodup : freed.Nodup := by
      refine List.nodup_append.2 ⟨?_, List.nodup_singleton _, fun a ha b hb heq => ?_⟩
      · refine List.Nodup.filterMap (fun i j g hi hj => ?_) List.nodup_range
        have hplace := (h.single n n (.data i) (.data j) g ((hdata i).trans hi) ((hdata j).trans hj)).2
        cases hplace
        rfl
      · obtain ⟨i, -, hi⟩ := List.mem_filterMap.1 ha
        rw [List.mem_singleton.1 hb] at heq
        have hplace := (h.single n n (.data i) .table a ((hdata i).trans hi) (heq ▸ htable)).2
        cases hplace
    obtain ⟨hfmem, pins', hinv', hrest⟩ := freePages_inv freed hinv hnodup fun g hg => by
      obtain ⟨q, -, hq⟩ := hmem g hg
      exact hpins n q g hq
    have hmachine : ((List.range maxDataPages).foldl (freeEntry pages) s.machine).freePage table =
        freed.foldl Machine.freePage s.machine := by
      rw [foldl_free, List.foldl_append]
      rfl
    dsimp only
    rw [hmachine]
    refine ⟨?_, hfmem, rfl, rfl, rfl⟩
    have hkept : ∀ n' q f, ((State.modify { s with machine := freed.foldl Machine.freePage s.machine } n fun node =>
        { node with dataPages := none }).nodes n').page q = some f →
        (s.nodes n').page q = some f ∧ f ∉ freed := by
      intro n' q f hp
      by_cases heq : n' = n
      · subst heq
        rw [modify_self] at hp
        cases q with
        | table => cases hp
        | data i => cases hp
        | children =>
          refine ⟨hp, fun hf => ?_⟩
          obtain ⟨q, hq, hqf⟩ := hmem f hf
          exact hq (h.single n' n' q .children f hqf hp).2
      · rw [modify_of_ne heq] at hp
        refine ⟨hp, fun hf => heq ?_⟩
        obtain ⟨q', -, hqf⟩ := hmem f hf
        exact (h.single n' n q q' f hp hqf).1
    refine ⟨⟨pins', hinv', fun n' q f hp => ?_⟩, fun n₁ n₂ q₁ q₂ f hp₁ hp₂ => ?_⟩
    · obtain ⟨hold, hnot⟩ := hkept n' q f hp
      rw [hrest f hnot]
      exact hpins n' q f hold
    · exact h.single n₁ n₂ q₁ q₂ f (hkept n₁ q₁ f hp₁).1 (hkept n₂ q₂ f hp₂).1

theorem freeChildren_spec (h : s.Owned) (n : Nat) :
    (freeChildren n s).Owned ∧ (freeChildren n s).machine.mem = s.machine.mem ∧
      (freeChildren n s).nodes = Function.update s.nodes n { s.nodes n with childrenPage := none } ∧
      (freeChildren n s).nextIno = s.nextIno := by
  unfold freeChildren
  cases hd : (s.nodes n).childrenPage with
  | none =>
    have hsame : ({ s.nodes n with childrenPage := none } : TmpfsNode) = s.nodes n := by rw [← hd]
    exact ⟨h, rfl, by rw [hsame]; exact (Function.update_eq_self n s.nodes).symm, rfl⟩
  | some page =>
    obtain ⟨pins, hinv, hpins⟩ := h.held
    have hpage : (s.nodes n).page .children = some page := hd
    obtain ⟨hfmem, pins', hinv', hrest⟩ := freePages_inv [page] hinv (List.nodup_singleton _) fun g hg => by
      rw [List.mem_singleton.1 hg]
      exact hpins n .children page hpage
    refine ⟨?_, hfmem, rfl, rfl⟩
    have hkept : ∀ n' q f, ((State.modify { s with machine := s.machine.freePage page } n fun node =>
        { node with childrenPage := none }).nodes n').page q = some f → (s.nodes n').page q = some f ∧ f ≠ page := by
      intro n' q f hp
      by_cases heq : n' = n
      · subst heq
        rw [modify_self] at hp
        cases q with
        | children => cases hp
        | table =>
          refine ⟨hp, ?_⟩
          rintro rfl
          exact absurd (h.single n' n' .table .children f hp hpage).2 nofun
        | data i =>
          refine ⟨hp, ?_⟩
          rintro rfl
          exact absurd (h.single n' n' (.data i) .children f hp hpage).2 nofun
      · rw [modify_of_ne heq] at hp
        refine ⟨hp, ?_⟩
        rintro rfl
        exact heq (h.single n' n q .children f hp hpage).1
    refine ⟨⟨pins', hinv', fun n' q f hp => ?_⟩, fun n₁ n₂ q₁ q₂ f hp₁ hp₂ => ?_⟩
    · obtain ⟨hold, hne⟩ := hkept n' q f hp
      rw [hrest f fun hf => hne (List.mem_singleton.1 hf)]
      exact hpins n' q f hold
    · exact h.single n₁ n₂ q₁ q₂ f (hkept n₁ q₁ f hp₁).1 (hkept n₂ q₂ f hp₂).1

end Pages

/-! ## Files under operations on names -/

def isFile (mode : Mode) : Bool := !isDir mode && !(mode &&& sIfmt == sIflnk)

/-- The file of node `n` is as before. -/
structure Kept (s s' : State) (n : Nat) : Prop where
  ino : (s'.nodes n).ino = (s.nodes n).ino
  mode : (s'.nodes n).mode = (s.nodes n).mode
  size : (s'.nodes n).size = (s.nodes n).size
  inUse : (s'.nodes n).inUse = (s.nodes n).inUse
  bytes : ∀ off, byteAt s' n off = byteAt s n off

/-- Every file but that of node `a` is as before, and the pages are in order. -/
structure Effect (a : Option Nat) (s s' : State) : Prop where
  owned : s'.Owned
  kept : ∀ n, a ≠ some n → Kept s s' n

section Effects
variable {s s' s'' : State} {n : Nat} {a : Option Nat}

theorem Kept.refl (s : State) (n : Nat) : Kept s s n := ⟨rfl, rfl, rfl, rfl, fun _ => rfl⟩

theorem Kept.trans (h : Kept s s' n) (h' : Kept s' s'' n) : Kept s s'' n :=
  ⟨h'.ino.trans h.ino, h'.mode.trans h.mode, h'.size.trans h.size, h'.inUse.trans h.inUse,
    fun off => (h'.bytes off).trans (h.bytes off)⟩

theorem Effect.refl (h : s.Owned) : Effect a s s := ⟨h, fun n _ => .refl s n⟩

theorem Effect.trans (h : Effect a s s') (h' : Effect a s' s'') : Effect a s s'' :=
  ⟨h'.owned, fun n hn => (h.kept n hn).trans (h'.kept n hn)⟩

theorem Effect.weaken (h : Effect none s s') : Effect a s s' := ⟨h.owned, fun n _ => h.kept n nofun⟩

/-- Neither the next inode number nor the hard link table is a matter of files. -/
theorem Effect.meta (h : Effect a s s') (links : Nat → HardLinkEntry) (ino : Nat) :
    Effect a s { s' with hardLinks := links, nextIno := ino } :=
  ⟨⟨h.owned.held, h.owned.single⟩, fun n hn =>
    ⟨(h.kept n hn).ino, (h.kept n hn).mode, (h.kept n hn).size, (h.kept n hn).inUse, (h.kept n hn).bytes⟩⟩

theorem byteAt_congr (hdata : (s'.nodes n).dataPages = (s.nodes n).dataPages)
    (hmem : ∀ q f, (s.nodes n).page q = some f → s'.machine.mem f = s.machine.mem f) (off : Nat) :
    byteAt s' n off = byteAt s n off := by
  unfold byteAt
  rw [hdata]
  cases hd : (s.nodes n).dataPages with
  | none => rfl
  | some d =>
    obtain ⟨table, pages⟩ := d
    dsimp only
    cases hp : pages (off / pageSize) with
    | none => rfl
    | some f =>
      dsimp only
      rw [hmem (.data (off / pageSize)) f (((page_table hd).2 _).trans hp)]

theorem Kept.modify {g : TmpfsNode → TmpfsNode} (m : Nat)
    (hg : ∀ x, (g x).ino = x.ino ∧ (g x).mode = x.mode ∧ (g x).size = x.size ∧ (g x).inUse = x.inUse ∧
      (g x).dataPages = x.dataPages) : Kept s (s.modify m g) n := by
  by_cases heq : n = m
  · subst heq
    have hx := hg (s.nodes n)
    refine ⟨?_, ?_, ?_, ?_, byteAt_congr ?_ fun _ _ _ => rfl⟩
    · rw [modify_self, hx.1]
    · rw [modify_self, hx.2.1]
    · rw [modify_self, hx.2.2.1]
    · rw [modify_self, hx.2.2.2.1]
    · rw [modify_self, hx.2.2.2.2]
  · have hx := modify_of_ne (s := s) heq g
    exact ⟨by rw [hx], by rw [hx], by rw [hx], by rw [hx], byteAt_congr (by rw [hx]) fun _ _ _ => rfl⟩

theorem Effect.modify (h : s.Owned) {g : TmpfsNode → TmpfsNode} (m : Nat)
    (hg : ∀ x, (g x).ino = x.ino ∧ (g x).mode = x.mode ∧ (g x).size = x.size ∧ (g x).inUse = x.inUse ∧
      (g x).dataPages = x.dataPages) (hpage : ∀ x, (g x).childrenPage = x.childrenPage) :
    Effect none s (s.modify m g) := by
  refine ⟨h.modify fun q f hp => ?_, fun n _ => .modify m hg⟩
  unfold TmpfsNode.page at hp ⊢
  rw [(hg (s.nodes m)).2.2.2.2, hpage] at hp
  exact hp

theorem Effect.modifyNode (h : s.Owned) {g : TmpfsNode → TmpfsNode} (m : Nat)
    (hpage : ∀ q f, (g (s.nodes m)).page q = some f → (s.nodes m).page q = some f) :
    Effect (some m) s (s.modify m g) := by
  refine ⟨h.modify hpage, fun n hn => ?_⟩
  have hx := modify_of_ne (s := s) (fun heq => hn (congrArg some heq.symm)) g
  exact ⟨by rw [hx], by rw [hx], by rw [hx], by rw [hx], byteAt_congr (by rw [hx]) fun _ _ _ => rfl⟩

theorem ensureChildren_effect (h : s.Owned) (n : Nat) :
    Effect none s (ensureChildren n s).2 ∧ (ensureChildren n s).2.nextIno = s.nextIno := by
  unfold ensureChildren
  cases hp : (s.nodes n).childrenPage with
  | some page => exact ⟨.refl h, rfl⟩
  | none =>
    rcases ha : s.machine.allocPage with ⟨o, m⟩
    have hmem : m.mem = s.machine.mem := congrArg (fun r => r.2.mem) ha.symm
    have hkept : ∀ n', Kept s { s with machine := m } n' := fun n' =>
      ⟨rfl, rfl, rfl, rfl, byteAt_congr rfl fun _ f _ => congrFun hmem f⟩
    cases o with
    | none => exact ⟨⟨h.allocNone ha, fun n' _ => hkept n'⟩, rfl⟩
    | some page =>
      dsimp only
      refine ⟨⟨(h.allocSome ha).2 _ .children hp fun q f hq => ?_, fun n' _ => ?_⟩, rfl⟩
      · cases q with
        | children =>
          right
          exact ⟨rfl, (Option.some.inj hq).symm⟩
        | table => exact .inl hq
        | data i => exact .inl hq
      · exact (hkept n').trans (.modify n fun x => ⟨rfl, rfl, rfl, rfl, rfl⟩)

theorem addChild_effect (h : s.Owned) (parent node : Nat) :
    (addChild parent node s).2.nextIno = s.nextIno ∧
      (Effect none s (addChild parent node s).2 ∨
        Effect (some node) s (addChild parent node s).2 ∧ ((addChild parent node s).2.nodes node).inUse = false) := by
  obtain ⟨heff, hino⟩ := ensureChildren_effect h parent
  unfold addChild
  rcases hens : ensureChildren parent s with ⟨ok, s₁⟩
  rw [hens] at heff hino
  cases ok with
  | false =>
    dsimp only
    refine ⟨hino, .inr ⟨heff.weaken.trans (.modifyNode heff.owned node fun q f hp => hp), ?_⟩⟩
    rw [modify_self]
  | true =>
    dsimp only
    exact ⟨hino, .inl (heff.trans (.modify heff.owned parent (fun x => ⟨rfl, rfl, rfl, rfl, rfl⟩) fun x => rfl))⟩

/-! ## Outcomes -/

/-- The node that `allocNode` takes. -/
def firstFree (s : State) : Option Nat := (List.range maxNodes).find? fun i => !(s.nodes i).inUse

/-- Node `a` is a new one: it has the next inode number, and no contents. -/
structure Made (s s' : State) (a : Nat) : Prop where
  ino : (s'.nodes a).ino = s.nextIno
  size : (s'.nodes a).size = 0
  bytes : ∀ off, byteAt s' a off = 0

theorem newNode_effect {name : Name} {mode : Mode} {inodeSize nlink : Nat} (h : s.Owned)
    (hn : newNode name mode inodeSize nlink s = some (n, s')) :
    firstFree s = some n ∧ Effect (some n) s s' ∧ s'.nextIno = s.nextIno + 1 ∧ (s'.nodes n).mode = mode ∧
      (s'.nodes n).dataPages = none ∧ Made s s' n := by
  obtain ⟨⟨i, s₁⟩, halloc, heq⟩ := Option.map_eq_some_iff.1 hn
  obtain ⟨j, hfirst, heq'⟩ := Option.map_eq_some_iff.1 halloc
  cases heq'
  cases heq
  have heff : Effect (some n) s (s.modify n fun node =>
      { node with inUse := true, size := 0, dataPages := none, childrenPage := none, children := [] }) := by
    refine .modifyNode h n fun q f hp => ?_
    cases q with
    | table => cases hp
    | children => cases hp
    | data k => cases hp
  have heff' := heff.trans (.modifyNode heff.owned n
    (g := fun x => { x with name := name.take maxNameLen, ino := s.nextIno, mode, inodeSize, nlink }) fun q f hp => hp)
  dsimp only
  refine ⟨hfirst, heff'.meta _ _, rfl, ?_, ?_, ?_, ?_, fun off => ?_⟩
  · rw [modify_self]
  · rw [modify_self, modify_self]
  · rw [modify_self]
    rfl
  · rw [modify_self, modify_self]
  · unfold byteAt
    rw [modify_self, modify_self]

/-! ## Writing -/

/-- The bytes `bs` were stored at `off` in the file of node `n`, and nothing else was done to any file. -/
structure Wrote (n off : Nat) (bs : List (BitVec 8)) (s s' : State) : Prop where
  effect : Effect (some n) s s'
  ino : (s'.nodes n).ino = (s.nodes n).ino
  mode : (s'.nodes n).mode = (s.nodes n).mode
  size : (s'.nodes n).size = (s.nodes n).size
  inUse : (s'.nodes n).inUse = (s.nodes n).inUse
  bytes : ∀ o, byteAt s' n o = if off ≤ o ∧ o < off + bs.length then bs.getD (o - off) 0 else byteAt s n o
  tree : s'.tree = s.tree
  nextIno : s'.nextIno = s.nextIno

theorem Wrote.nothing {off : Nat} (h : Effect none s s') (htree : s'.tree = s.tree) (hino : s'.nextIno = s.nextIno) :
    Wrote n off [] s s' := by
  have hk := h.kept n nofun
  refine ⟨h.weaken, hk.ino, hk.mode, hk.size, hk.inUse, fun o => ?_, htree, hino⟩
  rw [if_neg (by rw [List.length_nil]; omega), hk.bytes o]

theorem Wrote.append {off : Nat} {bs bs' : List (BitVec 8)} (h : Wrote n off bs s s')
    (h' : Wrote n (off + bs.length) bs' s' s'') : Wrote n off (bs ++ bs') s s'' := by
  refine ⟨h.effect.trans h'.effect, h'.ino.trans h.ino, h'.mode.trans h.mode, h'.size.trans h.size,
    h'.inUse.trans h.inUse, fun o => ?_, h'.tree.trans h.tree, h'.nextIno.trans h.nextIno⟩
  rw [h'.bytes o, h.bytes o, List.length_append]
  by_cases hsecond : off + bs.length ≤ o ∧ o < off + bs.length + bs'.length
  · have hsub : o - off - bs.length = o - (off + bs.length) := by omega
    rw [if_pos hsecond, if_pos (by omega), List.getD_append_right _ _ _ _ (by omega), hsub]
  · rw [if_neg hsecond]
    by_cases hfirst : off ≤ o ∧ o < off + bs.length
    · rw [if_pos hfirst, if_pos (by omega), List.getD_append _ _ _ _ (by omega)]
    · rw [if_neg hfirst, if_neg (by omega)]

theorem storeBytes_wrote (h : s.Owned) (off : Nat) {table f : Nat} {pages : Nat → Option Nat} {bs : List (BitVec 8)}
    (hd : (s.nodes n).dataPages = some (table, pages)) (hf : pages (off / pageSize) = some f)
    (hfit : off % pageSize + bs.length ≤ pageSize) :
    Wrote n off bs s { s with machine := Ext2.storeBytes s.machine f (off % pageSize) bs } := by
  have hpage : (s.nodes n).page (.data (off / pageSize)) = some f := ((page_table hd).2 _).trans hf
  obtain ⟨c, hc⟩ := Fault.storeBytes_eq s.machine f (off % pageSize) bs
  have howned : State.Owned { s with machine := Ext2.storeBytes s.machine f (off % pageSize) bs } := by
    rw [hc]
    exact h.withMem _
  refine ⟨⟨howned, fun n' hn' => ⟨rfl, rfl, rfl, rfl, byteAt_congr rfl fun q g hg => ?_⟩⟩, rfl, rfl, rfl, rfl,
    fun o => ?_, rfl, rfl⟩
  · refine Fault.mem_storeBytes_of_ne (fun heq => ?_) ..
    rw [heq] at hg
    exact hn' (congrArg some (h.single n n' _ _ f hpage hg).1)
  · unfold byteAt
    dsimp only
    rw [hd]
    dsimp only
    have hdiv := Nat.div_add_mod o pageSize
    have hdiv' := Nat.div_add_mod off pageSize
    have hlt := Nat.mod_lt o (show 0 < pageSize by decide)
    by_cases hsame : o / pageSize = off / pageSize
    · rw [hsame, hf]
      dsimp only
      rw [hsame] at hdiv
      have hrange : (off % pageSize ≤ o % pageSize ∧ o % pageSize < off % pageSize + bs.length) ↔
          (off ≤ o ∧ o < off + bs.length) := by omega
      have hsub : o % pageSize - off % pageSize = o - off := by omega
      rw [Fault.pageByte_storeBytes, hsub]
      simp only [hrange]
    · have hout : ¬ (off ≤ o ∧ o < off + bs.length) := by
        rintro ⟨hle, hlt'⟩
        refine hsame (Nat.le_antisymm ?_ (Nat.div_le_div_right hle))
        refine Nat.le_of_lt_succ ((Nat.div_lt_iff_lt_mul (by decide)).2 ?_)
        have : (off / pageSize).succ * pageSize = pageSize * (off / pageSize) + pageSize := by
          rw [Nat.succ_mul, Nat.mul_comm]
        omega
      rw [if_neg hout]
      cases hp : pages (o / pageSize) with
      | none => rfl
      | some g =>
        have hg : (s.nodes n).page (.data (o / pageSize)) = some g := ((page_table hd).2 _).trans hp
        have hne : g ≠ f := by
          rintro rfl
          exact hsame (Place.data.inj (h.single n n _ _ g hpage hg).2).symm
        dsimp only
        rw [Fault.mem_storeBytes_of_ne hne]

/-- A list of data pages, all of them missing, reads as no list does. -/
theorem ensureDataPages_effect (h : s.Owned) (n : Nat) :
    Effect none s (ensureDataPages n s).2 ∧ (ensureDataPages n s).2.nextIno = s.nextIno ∧
      ∀ pages, (ensureDataPages n s).1 = some pages →
        ∃ table, ((ensureDataPages n s).2.nodes n).dataPages = some (table, pages) := by
  unfold ensureDataPages
  cases hd : (s.nodes n).dataPages with
  | some d =>
    refine ⟨.refl h, rfl, fun pages hp => ⟨d.1, ?_⟩⟩
    rw [← Option.some.inj hp]
    exact hd
  | none =>
    rcases ha : s.machine.allocPage with ⟨o, m⟩
    have hmem : m.mem = s.machine.mem := congrArg (fun r => r.2.mem) ha.symm
    cases o with
    | none =>
      exact ⟨⟨h.allocNone ha, fun n' _ => ⟨rfl, rfl, rfl, rfl, byteAt_congr rfl fun _ f _ => congrFun hmem f⟩⟩, rfl, nofun⟩
    | some table =>
      dsimp only
      have hempty : (s.nodes n).page .table = none := by
        unfold TmpfsNode.page
        rw [hd]
        rfl
      refine ⟨⟨(h.allocSome ha).2 _ .table hempty fun q f hq => ?_, fun n' _ => ?_⟩, rfl, fun pages hp => ⟨table, ?_⟩⟩
      · cases q with
        | children => exact .inl hq
        | table => exact .inr ⟨rfl, (Option.some.inj hq).symm⟩
        | data i => cases hq
      · by_cases heq : n' = n
        · subst heq
          refine ⟨by rw [modify_self], by rw [modify_self], by rw [modify_self], by rw [modify_self], fun off => ?_⟩
          unfold byteAt
          rw [modify_self, hd]
        · have hx : ((State.modify { s with machine := m } n fun node =>
              { node with dataPages := some (table, fun _ => none) }).nodes n') = s.nodes n' := modify_of_ne heq _
          exact ⟨by rw [hx], by rw [hx], by rw [hx], by rw [hx],
            byteAt_congr (by rw [hx]) fun _ f _ => congrFun hmem f⟩
      · rw [modify_self, Option.some.inj hp]

theorem setDataPage_effect (h : s.Owned) {table f i : Nat} {pages : Nat → Option Nat} {m : Machine}
    (hd : (s.nodes n).dataPages = some (table, pages)) (hempty : pages i = none)
    (ha : s.machine.allocPage = (some f, m)) :
    Effect none s (setDataPage n i f { s with machine := m.zeroPage f }) ∧
      ((setDataPage n i f { s with machine := m.zeroPage f }).nodes n).dataPages =
        some (table, Function.update pages i (some f)) := by
  have hmem : m.mem = s.machine.mem := congrArg (fun r => r.2.mem) ha.symm
  have hplace : (s.nodes n).page (.data i) = none := ((page_table hd).2 i).trans hempty
  obtain ⟨hnew, howned⟩ := h.allocSome (n := n) ha
  have hother : ∀ n' q g, (s.nodes n').page q = some g → (m.zeroPage f).mem g = s.machine.mem g := by
    intro n' q g hg
    have hne : g ≠ f := fun heq => hnew n' q (heq ▸ hg)
    exact (Function.update_of_ne hne ..).trans (congrFun hmem g)
  have hself : ((setDataPage n i f { s with machine := m.zeroPage f }).nodes n) =
      { s.nodes n with dataPages := some (table, Function.update pages i (some f)) } := by
    unfold setDataPage
    rw [modify_self]
    dsimp only
    rw [hd]
    rfl
  refine ⟨⟨?_, fun n' _ => ?_⟩, by rw [hself]⟩
  · refine (howned (fun node => { node with dataPages := node.dataPages.map fun d =>
      (d.1, Function.update d.2 i (some f)) }) (.data i) hplace fun q g hq => ?_).withMem _
    unfold TmpfsNode.page at hq ⊢
    cases q with
    | children => exact .inl hq
    | table =>
      rw [hd] at hq ⊢
      exact .inl hq
    | data j =>
      rw [hd] at hq ⊢
      have hq : Function.update pages i (some f) j = some g := hq
      by_cases hj : j = i
      · subst hj
        rw [Function.update_self] at hq
        exact .inr ⟨rfl, (Option.some.inj hq).symm⟩
      · rw [Function.update_of_ne hj] at hq
        exact .inl hq
  · by_cases heq : n' = n
    · subst heq
      refine ⟨by rw [hself], by rw [hself], by rw [hself], by rw [hself], fun off => ?_⟩
      unfold byteAt
      rw [hself, hd]
      dsimp only
      by_cases hj : off / pageSize = i
      · rw [hj, Function.update_self, hempty]
        have hzero : (setDataPage n' i f { s with machine := m.zeroPage f }).machine.mem f = fun _ => 0 :=
          Function.update_self ..
        dsimp only
        rw [hzero]
        exact BitVec.extractLsb'_zero ..
      · rw [Function.update_of_ne hj]
        cases hp : pages (off / pageSize) with
        | none => rfl
        | some g =>
          dsimp only
          have hsame : (setDataPage n' i f { s with machine := m.zeroPage f }).machine.mem g = s.machine.mem g :=
            hother n' (.data (off / pageSize)) g (((page_table hd).2 _).trans hp)
          rw [hsame]
    · have hx : (setDataPage n i f { s with machine := m.zeroPage f }).nodes n' = s.nodes n' := modify_of_ne heq _
      exact ⟨by rw [hx], by rw [hx], by rw [hx], by rw [hx], byteAt_congr (by rw [hx]) (hother n')⟩

/-- The bytes that go into the page of the offset. -/
def chunkAt (off : Nat) (buf : List (BitVec 8)) : Nat := min buf.length (pageSize - off % pageSize)

theorem chunk_fits (off : Nat) (buf : List (BitVec 8)) : off % pageSize + (buf.take (chunkAt off buf)).length ≤ pageSize := by
  have hlt := Nat.mod_lt off (show 0 < pageSize by decide)
  rw [List.length_take, chunkAt]
  omega

theorem writeLoop_turn (h : s.Owned) (n fuel : Nat) {buf : List (BitVec 8)} {off : Nat}
    (hgo : ¬ (buf.length = 0 ∨ maxDataPages ≤ off / pageSize)) :
    ∃ s₂, (Effect none s s₂ ∧ s₂.tree = s.tree ∧ s₂.nextIno = s.nextIno) ∧
      ((writeLoop n (fuel + 1) buf off s = (buf, s₂) ∧ ∀ pages, (ensureDataPages n s).1 = some pages →
          pages (off / pageSize) = none ∧ (ensureDataPages n s).2.machine.allocPage.1 = none) ∨
        ∃ table pages f, (s₂.nodes n).dataPages = some (table, pages) ∧ pages (off / pageSize) = some f ∧
          writeLoop n (fuel + 1) buf off s = writeLoop n fuel (buf.drop (chunkAt off buf)) (off + chunkAt off buf)
            { s₂ with machine := Ext2.storeBytes s₂.machine f (off % pageSize) (buf.take (chunkAt off buf)) }) := by
  rw [writeLoop, if_neg hgo]
  dsimp only
  obtain ⟨heff, hino, hpages⟩ := ensureDataPages_effect h n
  have htree := tree_ensureDataPages n s
  rcases hens : ensureDataPages n s with ⟨o, s₁⟩
  rw [hens] at heff hino hpages htree
  dsimp only at heff hino hpages htree
  cases o with
  | none => exact ⟨s₁, ⟨heff, htree, hino⟩, .inl ⟨rfl, nofun⟩⟩
  | some pages =>
    obtain ⟨table, hd⟩ := hpages pages rfl
    dsimp only
    cases hp : pages (off / pageSize) with
    | some f => exact ⟨s₁, ⟨heff, htree, hino⟩, .inr ⟨table, pages, f, hd, hp, rfl⟩⟩
    | none =>
      dsimp only
      rcases ha : s₁.machine.allocPage with ⟨o, m⟩
      cases o with
      | none =>
        have hmem : m.mem = s₁.machine.mem := congrArg (fun r => r.2.mem) ha.symm
        have hlost : Effect none s₁ { s₁ with machine := m } := ⟨heff.owned.allocNone ha, fun n' _ =>
          ⟨rfl, rfl, rfl, rfl, byteAt_congr rfl fun _ f _ => congrFun hmem f⟩⟩
        refine ⟨{ s₁ with machine := m }, ⟨heff.trans hlost, htree, hino⟩, .inl ⟨rfl, fun pages' hpages' => ?_⟩⟩
        obtain rfl : pages = pages' := Option.some.inj hpages'
        exact ⟨hp, rfl⟩
      | some f =>
        obtain ⟨hset, hd'⟩ := setDataPage_effect heff.owned hd hp ha
        exact ⟨_, ⟨heff.trans hset, (tree_setDataPage ..).trans htree, hino⟩, .inr ⟨table, _, f, hd', Function.update_self .., rfl⟩⟩

/-- **The loop of `tmpfsWrite`** stores the first bytes of the buffer, as many as there is room for. -/
theorem writeLoop_spec (h : s.Owned) (n fuel : Nat) (buf : List (BitVec 8)) (off : Nat) :
    ∃ k, k ≤ buf.length ∧ (writeLoop n fuel buf off s).1 = buf.drop k ∧
      Wrote n off (buf.take k) s (writeLoop n fuel buf off s).2 := by
  induction fuel generalizing s buf off with
  | zero => exact ⟨0, Nat.zero_le _, rfl, .nothing (.refl h) rfl rfl⟩
  | succ fuel ih =>
    by_cases hgo : buf.length = 0 ∨ maxDataPages ≤ off / pageSize
    · rw [writeLoop, if_pos hgo]
      exact ⟨0, Nat.zero_le _, rfl, .nothing (.refl h) rfl rfl⟩
    obtain ⟨s₂, ⟨heff, htree, hino⟩, ⟨hstop, -⟩ | ⟨table, pages, f, hd, hf, hgoes⟩⟩ := writeLoop_turn h n fuel hgo
    · rw [hstop]
      exact ⟨0, Nat.zero_le _, rfl, .nothing heff htree hino⟩
    · rw [hgoes]
      have hw := storeBytes_wrote heff.owned off hd hf (chunk_fits off buf)
      have hlen : (buf.take (chunkAt off buf)).length = chunkAt off buf := by
        rw [List.length_take]
        exact Nat.min_eq_left (Nat.min_le_left ..)
      obtain ⟨k, hk, hdrop, hrec⟩ := ih hw.effect.owned (buf.drop (chunkAt off buf)) (off + chunkAt off buf)
      have hchunk : chunkAt off buf ≤ buf.length := Nat.min_le_left ..
      rw [List.length_drop] at hk
      refine ⟨chunkAt off buf + k, by omega, ?_, ?_⟩
      · rw [hdrop, List.drop_drop]
      · have hstored : Wrote n off (buf.take (chunkAt off buf)) s _ := (Wrote.nothing heff htree hino).append hw
        rw [List.take_add]
        refine hstored.append ?_
        rw [hlen]
        exact hrec

/-! ## The operations on files -/

structure File where
  size : Nat
  bytes : Nat → BitVec 8

namespace File

def empty : File := { size := 0, bytes := fun _ => 0 }

def limit : Nat := maxDataPages * pageSize

def read (file : File) (off count : Nat) : List (BitVec 8) :=
  (List.range (min (min count (file.size - off)) (limit - off))).map fun i => file.bytes (off + i)

def write (file : File) (off : Nat) (bs : List (BitVec 8)) : File where
  size := max file.size (off + bs.length)
  bytes := fun o => if off ≤ o ∧ o < off + bs.length then bs.getD (o - off) 0 else file.bytes o

end File

def fileAt (s : State) (n : Nat) : File := { size := (s.nodes n).size, bytes := byteAt s n }

theorem Kept.fileAt (h : Kept s s' n) : fileAt s' n = fileAt s n := by
  unfold Tmpfs.fileAt
  rw [h.size, funext h.bytes]

theorem readLoop_eq (s : State) (n : Nat) (fuel toRead off : Nat) (hfuel : toRead ≤ fuel) :
    readLoop s n fuel toRead off =
      (List.range (min toRead (File.limit - off))).map fun i => byteAt s n (off + i) := by
  induction fuel generalizing toRead off with
  | zero =>
    rw [Nat.le_zero.1 hfuel, Nat.zero_min]
    rfl
  | succ fuel ih =>
    have hdiv := Nat.div_add_mod off pageSize
    have hlt := Nat.mod_lt off (show 0 < pageSize by decide)
    have hbound : maxDataPages ≤ off / pageSize ↔ File.limit ≤ off := Nat.le_div_iff_mul_le (by decide)
    unfold readLoop
    split
    · next hstop =>
      have hzero : min toRead (File.limit - off) = 0 := by
        rcases hstop with hstop | hstop
        · omega
        · have := hbound.1 hstop
          omega
      rw [hzero]
      rfl
    · next hgo =>
      rw [not_or, hbound] at hgo
      dsimp only
      -- the page of `off` ends before the limit
      have hpage : pageSize - off % pageSize ≤ File.limit - off := by
        have hnext : (off / pageSize + 1) * pageSize ≤ maxDataPages * pageSize :=
          Nat.mul_le_mul_right _ (Nat.lt_of_not_le fun hle => hgo.2 (hbound.1 hle))
        have : (off / pageSize + 1) * pageSize = pageSize * (off / pageSize) + pageSize := by
          rw [Nat.succ_mul, Nat.mul_comm]
        unfold File.limit
        omega
      have hsplit : min toRead (File.limit - off) = min toRead (pageSize - off % pageSize) +
          min (toRead - min toRead (pageSize - off % pageSize))
            (File.limit - (off + min toRead (pageSize - off % pageSize))) := by
        omega
      rw [ih _ _ (by omega), hsplit, List.range_add, List.map_append, List.map_map]
      refine congrArg _ (List.map_congr_left fun i _ => ?_)
      rw [Function.comp_apply, Nat.add_assoc]

/-- **`tmpfsRead`** reads the file, and moves the offset past what it read. -/
theorem tmpfsRead_eq (s : State) (d : Desc) (count : Nat) :
    tmpfsRead d count s = ((fileAt s d.node).read d.offset count,
      { d with offset := d.offset + ((fileAt s d.node).read d.offset count).length }) := by
  unfold tmpfsRead
  split
  · next hend =>
    have hzero : (fileAt s d.node).read d.offset count = [] := by
      unfold File.read fileAt
      rw [Nat.sub_eq_zero_of_le hend, Nat.min_zero, Nat.zero_min]
      rfl
    rw [hzero]
    rfl
  · dsimp only
    rw [readLoop_eq s d.node _ _ _ le_rfl]
    rfl

/-- The node of a file that was written, or truncated: the file is `file`, and no other file changed. -/
structure Stored (n : Nat) (file : File) (s s' : State) : Prop where
  effect : Effect (some n) s s'
  ino : (s'.nodes n).ino = (s.nodes n).ino
  mode : (s'.nodes n).mode = (s.nodes n).mode
  inUse : (s'.nodes n).inUse = (s.nodes n).inUse
  file : fileAt s' n = file
  tree : s'.tree = s.tree
  nextIno : s'.nextIno = s.nextIno

/-- **`tmpfsWrite`** writes what it says to the file of the node, and to no other. -/
theorem tmpfsWrite_spec (h : s.Owned) (d : Desc) (buf : List (BitVec 8)) :
    ((tmpfsWrite d buf s).1 = none ∧ (tmpfsWrite d buf s).2 = (d, s)) ∨
    ∃ k, k ≤ buf.length ∧
      let start := if d.append then (s.nodes d.node).size else d.offset
      (tmpfsWrite d buf s).1 = some k ∧ (tmpfsWrite d buf s).2.1 = { d with offset := start + k } ∧
        Stored d.node ((fileAt s d.node).write start (buf.take k)) s (tmpfsWrite d buf s).2.2 := by
  unfold tmpfsWrite
  dsimp only
  generalize (if d.append then (s.nodes d.node).size else d.offset) = start
  split
  · exact .inl ⟨rfl, rfl⟩
  obtain ⟨k, hk, hrest, hw⟩ := writeLoop_spec h d.node buf.length buf start
  rcases hloop : writeLoop d.node buf.length buf start s with ⟨rest, s₁⟩
  rw [hloop] at hrest hw
  dsimp only at hrest hw ⊢
  have hcount : buf.length - rest.length = k := by
    rw [hrest, List.length_drop]
    omega
  have hlen : (buf.take k).length = k := List.length_take_of_le hk
  rw [hcount]
  refine .inr ⟨k, hk, rfl, rfl, ?_⟩
  split
  · next hgrow =>
    have hmod : Effect (some d.node) s₁ (s₁.modify d.node fun x => { x with size := start + k, inodeSize := start + k }) :=
      .modifyNode hw.effect.owned d.node fun q f hp => hp
    refine ⟨hw.effect.trans hmod, ?_, ?_, ?_, ?_, (tree_modify_same rfl).trans hw.tree, hw.nextIno⟩
    · rw [modify_self, hw.ino]
    · rw [modify_self, hw.mode]
    · rw [modify_self, hw.inUse]
    · unfold fileAt File.write
      rw [modify_self, hlen]
      dsimp only
      congr 1
      · rw [hw.size] at hgrow
        omega
      · funext o
        have hsame : byteAt (s₁.modify d.node fun x => { x with size := start + k, inodeSize := start + k }) d.node o =
            byteAt s₁ d.node o := by
          refine byteAt_congr ?_ ?_ o
          · rw [modify_self]
          · intro _ _ _
            rfl
        rw [hsame, hw.bytes o, hlen]
  · next hsmall =>
    refine ⟨hw.effect, hw.ino, hw.mode, hw.inUse, ?_, hw.tree, hw.nextIno⟩
    unfold fileAt File.write
    rw [hw.size, hlen]
    dsimp only
    congr 1
    · rw [hw.size] at hsmall
      omega
    · funext o
      rw [hw.bytes o, hlen]

theorem Effect.freeDataPages (h : s.Owned) (n : Nat) : Effect (some n) s (freeDataPages n s) := by
  obtain ⟨howned, hmem, hnodes, -, -⟩ := freeDataPages_spec h n
  refine ⟨howned, fun n' hn => ?_⟩
  have hx : (Tmpfs.freeDataPages n s).nodes n' = s.nodes n' := by
    rw [hnodes]
    exact Function.update_of_ne (fun heq => hn (congrArg some heq.symm)) ..
  exact ⟨by rw [hx], by rw [hx], by rw [hx], by rw [hx], byteAt_congr (by rw [hx]) fun _ f _ => congrFun hmem f⟩

/-- **`tmpfsTruncate`** empties the file. -/
theorem tmpfsTruncate_spec (h : s.Owned) (n : Nat) : Stored n .empty s (tmpfsTruncate n s) := by
  obtain ⟨howned, -, hnodes, -, hino⟩ := freeDataPages_spec h n
  have hself : (freeDataPages n s).nodes n = { s.nodes n with dataPages := none } := by
    rw [hnodes]
    exact Function.update_self ..
  unfold tmpfsTruncate
  refine ⟨(Effect.freeDataPages h n).trans (.modifyNode howned n fun q f hp => hp), ?_, ?_, ?_, ?_,
    (tree_modify_same rfl).trans (tree_freeDataPages n s), hino⟩
  · rw [modify_self, hself]
  · rw [modify_self, hself]
  · rw [modify_self, hself]
  · unfold fileAt File.empty byteAt
    rw [modify_self, hself]

/-! ## The operations on names -/

/-- The operations that take a new node. -/
def Op.Makes : Op → Prop
  | .create _ _ _ | .symlink _ _ _ => True
  | _ => False

inductive Outcome (op : Op) (s s' : State) : Prop
  | same : Effect none s s' → s'.nextIno = s.nextIno → Outcome op s s'
  | made (a : Nat) : firstFree s = some a → op.Makes → Effect (some a) s s' → s'.nextIno = s.nextIno + 1 →
    ((s'.nodes a).inUse = true → (s'.nodes a).ino = s.nextIno ∧
      (isFile (s'.nodes a).mode = true → fileAt s' a = .empty)) → Outcome op s s'
  | freed (a : Nat) : (s.nodes a).inUse = true → Effect (some a) s s' → s'.nextIno = s.nextIno →
    (s'.nodes a).inUse = false → (s'.nodes a).ino = (s.nodes a).ino → (s'.nodes a).mode = (s.nodes a).mode →
    (isDir (s.nodes a).mode = true ∨ ∃ d name, op = .unlink d name ∧ lookup s d name = some a ∧ (s.nodes a).nlink ≤ 1) →
    ((s.nodes a).dataPages = none → fileAt s' a = fileAt s a) → Outcome op s s'

theorem firstFree_free (h : firstFree s = some n) : (s.nodes n).inUse = false := by simpa using List.find?_some h

theorem Made.fileAt (h : Made s s' n) : fileAt s' n = .empty := by
  unfold Tmpfs.fileAt File.empty
  rw [h.size, funext h.bytes]

theorem addChild_made {op : Op} {parent : Nat} (hop : op.Makes) (hfirst : firstFree s = some n)
    (heff : Effect (some n) s s') (hino : s'.nextIno = s.nextIno + 1) (hown : (s'.nodes n).ino = s.nextIno)
    (hfile : isFile (s'.nodes n).mode = true → fileAt s' n = .empty) : Outcome op s (addChild parent n s').2 := by
  obtain ⟨hnext, hadd⟩ := addChild_effect heff.owned parent n
  rcases hadd with hadd | ⟨hadd, hfree⟩
  · have hk := hadd.kept n nofun
    refine .made n hfirst hop (heff.trans hadd.weaken) (hnext.trans hino) fun _ => ⟨hk.ino.trans hown, fun hf => ?_⟩
    rw [hk.mode] at hf
    rw [hk.fileAt, hfile hf]
  · refine .made n hfirst hop (heff.trans hadd) (hnext.trans hino) fun huse => ?_
    rw [hfree] at huse
    cases huse

theorem create_outcome (h : s.Owned) (parent : Nat) (name : Name) (mode : Mode) :
    Outcome (.create parent name mode) s (create parent name mode s).2 := by
  unfold create
  split
  · exact .same (.refl h) rfl
  split
  · exact .same (.refl h) rfl
  split
  · exact .same (.refl h) rfl
  cases hnew : newNode name mode 0 (if isDir mode then 2 else 1) s with
  | none => exact .same (.refl h) rfl
  | some r =>
    obtain ⟨hfirst, heff, hino, -, -, hmade⟩ := newNode_effect h hnew
    exact addChild_made trivial hfirst heff hino hmade.ino fun _ => hmade.fileAt

theorem storeTarget_effect (h : s.Owned) (hd : (s.nodes n).dataPages = none) (target : List (BitVec 8)) :
    Effect (some n) s (storeTarget n target s).2 ∧ (storeTarget n target s).2.nextIno = s.nextIno ∧
      ((storeTarget n target s).2.nodes n).ino = (s.nodes n).ino ∧
      ((storeTarget n target s).2.nodes n).mode = (s.nodes n).mode := by
  unfold storeTarget
  split
  · exact ⟨.refl h, rfl, rfl, rfl⟩
  next hlen =>
  obtain ⟨heff, hino, hpages⟩ := ensureDataPages_effect h n
  have hnone : ∀ pages, (ensureDataPages n s).1 = some pages → pages 0 = none := by
    intro pages hp
    unfold ensureDataPages at hp
    rw [hd] at hp
    dsimp only at hp
    split at hp
    · cases hp
    · rw [← Option.some.inj hp]
  rcases hens : ensureDataPages n s with ⟨o, s₁⟩
  rw [hens] at heff hino hpages hnone
  dsimp only at heff hino hpages hnone
  have hk := heff.kept n nofun
  cases o with
  | none => exact ⟨heff.weaken, hino, hk.ino, hk.mode⟩
  | some pages =>
    obtain ⟨table, hd₁⟩ := hpages pages rfl
    dsimp only
    rcases ha : s₁.machine.allocPage with ⟨o, m⟩
    cases o with
    | none =>
      have hmem : m.mem = s₁.machine.mem := congrArg (fun r => r.2.mem) ha.symm
      have hlost : Effect none s₁ { s₁ with machine := m } := ⟨heff.owned.allocNone ha, fun n' _ =>
        ⟨rfl, rfl, rfl, rfl, byteAt_congr rfl fun _ f _ => congrFun hmem f⟩⟩
      exact ⟨(heff.trans hlost).weaken, hino, hk.ino, hk.mode⟩
    | some f =>
      obtain ⟨hset, hd₂⟩ := setDataPage_effect heff.owned hd₁ (hnone pages rfl) ha
      have hk' := hset.kept n nofun
      have hfit : 0 % pageSize + target.length ≤ pageSize := by
        rw [Nat.zero_mod]
        omega
      have hw := storeBytes_wrote hset.owned 0 hd₂ (Function.update_self ..) hfit
      exact ⟨(heff.trans hset).weaken.trans hw.effect, hino, hk'.ino.trans hk.ino, hk'.mode.trans hk.mode⟩

theorem symlink_outcome (h : s.Owned) (parent : Nat) (name : Name) (target : List (BitVec 8)) :
    Outcome (.symlink parent name target) s (symlink parent name target s).2 := by
  unfold symlink
  split
  · exact .same (.refl h) rfl
  cases hnew : newNode name (sIflnk ||| 0o777) target.length 1 s with
  | none => exact .same (.refl h) rfl
  | some r =>
    obtain ⟨a, s₁⟩ := r
    obtain ⟨hfirst, heff, hino, hmode, hd, hmade⟩ := newNode_effect h hnew
    obtain ⟨hstore, hino', hown, hmode'⟩ := storeTarget_effect heff.owned hd target
    dsimp only
    rcases hst : storeTarget a target s₁ with ⟨ok, s₂⟩
    rw [hst] at hstore hino' hown hmode'
    dsimp only at hstore hino' hown hmode'
    cases ok with
    | false =>
      dsimp only
      refine .made a hfirst trivial ((heff.trans hstore).trans (.modifyNode hstore.owned a fun q f hp => hp))
        (hino'.trans hino) fun huse => ?_
      rw [modify_self] at huse
      cases huse
    | true =>
      refine addChild_made trivial hfirst (heff.trans hstore) (hino'.trans hino) (hown.trans hmade.ino) fun hf => ?_
      rw [hmode', hmode] at hf
      exact absurd hf (by decide)

theorem removeChild_effect (h : s.Owned) (parent : Nat) (name : Name) : Effect none s (removeChild parent name s) :=
  .modify h parent (fun _ => ⟨rfl, rfl, rfl, rfl, rfl⟩) fun _ => rfl

theorem dropLink_effect (h : s.Owned) (n : Nat) :
    (dropLink n s).nextIno = s.nextIno ∧
      (Effect none s (dropLink n s) ∨
        (s.nodes n).nlink ≤ 1 ∧ Effect (some n) s (dropLink n s) ∧ ((dropLink n s).nodes n).inUse = false ∧
          ((dropLink n s).nodes n).ino = (s.nodes n).ino ∧ ((dropLink n s).nodes n).mode = (s.nodes n).mode ∧
          ((s.nodes n).dataPages = none → fileAt (dropLink n s) n = fileAt s n)) := by
  have hfirst : Effect none s (s.modify n fun x => { x with nlink := x.nlink - 1 }) :=
    .modify h n (fun x => ⟨rfl, rfl, rfl, rfl, rfl⟩) fun x => rfl
  obtain ⟨howned, -, hnodes, -, hino⟩ := freeDataPages_spec hfirst.owned n
  unfold dropLink
  dsimp only
  split
  · next hzero =>
    rw [modify_self] at hzero
    have hself : (freeDataPages n (s.modify n fun x => { x with nlink := x.nlink - 1 })).nodes n =
        { s.nodes n with nlink := (s.nodes n).nlink - 1, dataPages := none } := by
      rw [hnodes, Function.update_self, modify_self]
    have heff := (hfirst.weaken.trans (Effect.freeDataPages hfirst.owned n)).trans
      (.modifyNode howned n (g := fun x => { x with inUse := false }) fun q f hp => hp)
    refine ⟨hino, .inr ⟨by dsimp only at hzero; omega, heff, ?_, ?_, ?_, fun hd => ?_⟩⟩
    · rw [modify_self]
    · rw [modify_self, hself]
    · rw [modify_self, hself]
    · unfold fileAt byteAt
      rw [modify_self, hself, hd]
  · exact ⟨rfl, .inl hfirst⟩

theorem unlink_outcome (hw : s.tree.Wired U) (h : s.Owned) (parent : Nat) (name : Name) :
    Outcome (.unlink parent name) s (unlink parent name s).2 := by
  -- the entry is gone; the node it led to has one name less
  have hdrop : ∀ (s₁ : State) (n : Nat), Effect none s s₁ → s₁.nextIno = s.nextIno → (s.nodes n).inUse = true →
      lookup s parent name = some n → (s₁.nodes n).nlink = (s.nodes n).nlink →
      (s₁.nodes n).dataPages = (s.nodes n).dataPages → Outcome (.unlink parent name) s (dropLink n s₁) := by
    intro s₁ n heff hino halive hl hnlink hdata
    have hk := heff.kept n (fun h => by cases h)
    obtain ⟨hino', hdrop | ⟨hlast, hdrop, hfree, hown, hmode, hfile⟩⟩ := dropLink_effect heff.owned n
    · exact .same (heff.trans hdrop) (hino'.trans hino)
    · refine .freed n halive (heff.weaken.trans hdrop) (hino'.trans hino) hfree (hown.trans hk.ino) (hmode.trans hk.mode)
        (.inr ⟨parent, name, rfl, hl, hnlink ▸ hlast⟩) fun hd => ?_
      rw [hfile (hdata.trans hd), hk.fileAt]
  unfold unlink
  cases hfind : (s.nodes parent).children.find? (s.hasName name) with
  | some child =>
    have hlookup : lookup s parent name = some child := by
      unfold lookup
      rw [hfind]
    dsimp only
    split
    · exact .same (.refl h) rfl
    · have hfields : ∀ n, ((removeChild parent name s).nodes n).nlink = (s.nodes n).nlink ∧
          ((removeChild parent name s).nodes n).dataPages = (s.nodes n).dataPages := by
        intro n
        unfold removeChild
        by_cases heq : n = parent
        · subst heq
          rw [modify_self]
          exact ⟨rfl, rfl⟩
        · rw [modify_of_ne heq]
          exact ⟨rfl, rfl⟩
      exact hdrop _ child (removeChild_effect h parent name) rfl (lookup_alive hw hlookup) hlookup (hfields child).1
        (hfields child).2
  | none =>
    dsimp only
    cases hlink : findLink s parent name with
    | none => exact .same (.refl h) rfl
    | some i =>
      have hlookup : lookup s parent name = some (s.hardLinks i).target := by
        unfold lookup
        rw [hfind]
        dsimp only
        rw [hlink, Option.map_some]
      exact hdrop _ _ ((Effect.refl h).meta _ _) rfl (lookup_alive hw hlookup) hlookup rfl rfl

theorem rmdir_outcome (hw : s.tree.Wired U) (h : s.Owned) (parent : Nat) (name : Name) :
    Outcome (.rmdir parent name) s (rmdir parent name s).2 := by
  unfold rmdir
  cases hfind : (s.nodes parent).children.find? (s.hasName name) with
  | none => exact .same (.refl h) rfl
  | some child =>
    dsimp only
    split
    · exact .same (.refl h) rfl
    next hdir =>
    split
    · exact .same (.refl h) rfl
    have hdir : isDir (s.nodes child).mode = true := by simpa using hdir
    obtain ⟨howned, -, hnodes, -, hino⟩ := freeDataPages_spec h child
    obtain ⟨howned', hmem', hnodes', hino'⟩ := freeChildren_spec howned child
    have hchildren : Effect (some child) (freeDataPages child s) (freeChildren child (freeDataPages child s)) := by
      refine ⟨howned', fun n' hn => ?_⟩
      have hx : (freeChildren child (freeDataPages child s)).nodes n' = (freeDataPages child s).nodes n' := by
        rw [hnodes']
        exact Function.update_of_ne (fun heq => hn (congrArg some heq.symm)) ..
      exact ⟨by rw [hx], by rw [hx], by rw [hx], by rw [hx], byteAt_congr (by rw [hx]) fun _ f _ => congrFun hmem' f⟩
    have heff := ((Effect.freeDataPages h child).trans hchildren).trans
      (.modifyNode howned' child (g := fun x => { x with inUse := false }) fun q f hp => hp)
    have hremove := removeChild_effect heff.owned parent name
    have hk := hremove.kept child nofun
    have hself : (freeChildren child (freeDataPages child s)).nodes child =
        { s.nodes child with dataPages := none, childrenPage := none } := by
      rw [hnodes', Function.update_self, hnodes, Function.update_self]
    refine .freed child (hw.alive parent child (find_child hfind).1) (heff.trans hremove.weaken) (hino'.trans hino)
      (hk.inUse.trans ?_) (hk.ino.trans ?_) (hk.mode.trans ?_) (.inl hdir) fun hd => hk.fileAt.trans ?_
    · rw [modify_self]
    · rw [modify_self, hself]
    · rw [modify_self, hself]
    · unfold fileAt byteAt
      rw [modify_self, hself, hd]

theorem link_outcome {op : Op} (h : s.Owned) (parent : Nat) (name : Name) (target : Nat) :
    Outcome op s (link parent name target s).2 := by
  unfold link
  split
  · exact .same (.refl h) rfl
  split
  · exact .same (.refl h) rfl
  cases (List.range maxHardLinks).find? fun i => !(s.hardLinks i).inUse with
  | none => exact .same (.refl h) rfl
  | some i =>
    have hlinks := (Effect.refl (a := none) h).meta
      (Function.update s.hardLinks i { inUse := true, parent, target, name := name.take maxNameLen }) s.nextIno
    have hcount := Effect.modify hlinks.owned (g := fun x => { x with nlink := x.nlink + 1 }) target
      (fun _ => ⟨rfl, rfl, rfl, rfl, rfl⟩) fun _ => rfl
    exact .same (hlinks.trans hcount) rfl

theorem rename_outcome {op : Op} (h : s.Owned) (oldParent : Nat) (oldName : Name) (newParent : Nat) (newName : Name) :
    Outcome op s (rename oldParent oldName newParent newName s).2 := by
  unfold rename
  cases (s.nodes oldParent).children.find? (s.hasName oldName) with
  | none => exact .same (.refl h) rfl
  | some child =>
    have hremove := removeChild_effect h oldParent oldName
    have hname := hremove.trans (.modify hremove.owned child (g := fun x => { x with name := newName })
      (fun x => ⟨rfl, rfl, rfl, rfl, rfl⟩) fun x => rfl)
    dsimp only
    split
    · exact .same hname rfl
    obtain ⟨hens, hino⟩ := ensureChildren_effect hname.owned newParent
    rcases hres : ensureChildren newParent
      ((removeChild oldParent oldName s).modify child fun x => { x with name := newName }) with ⟨ok, s₁⟩
    rw [hres] at hens hino
    dsimp only at hens hino
    cases ok with
    | false => exact .same (hname.trans hens) hino
    | true =>
      have hadd : Effect none s₁ (s₁.modify newParent fun x => { x with children := x.children ++ [child] }) :=
        .modify hens.owned newParent (fun x => ⟨rfl, rfl, rfl, rfl, rfl⟩) fun x => rfl
      exact .same ((hname.trans hens).trans hadd) hino

theorem Op.exec_outcome (hw : s.tree.Wired U) (h : s.Owned) (op : Op) : Outcome op s (op.exec s) := by
  cases op with
  | create parent name mode => exact create_outcome h parent name mode
  | symlink parent name target => exact symlink_outcome h parent name target
  | rename oldParent oldName newParent newName => exact rename_outcome h oldParent oldName newParent newName
  | unlink parent name => exact unlink_outcome hw h parent name
  | rmdir parent name => exact rmdir_outcome hw h parent name
  | link parent name source sourceName =>
    unfold Op.exec
    dsimp only
    split
    · exact .same (.refl h) rfl
    · split
      · exact .same (.refl h) rfl
      · exact link_outcome h parent name _

end Effects

end Zigix.Tmpfs
