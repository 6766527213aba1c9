import Mathlib.Data.Set.Card
import Zigix.Mm.HugeUnmap

/-!
# Moving pages inside an address space

* `Accounted.mapNew` : a new page is filled and mapped;
* `moveLoop_spec` : the loop, up to the page at which memory runs out.
-/

namespace Zigix.Mmap

open Vmm
open PageMap
open Forest
open Fault (leafPath tablePath)
open Space (pin mem_setWord_of_ne)
open Pmm (pageSize)

/-! ## Accounts -/

/-- The tables form a tree; they have references among `pins`, and so has every mapped page, one for each page number
that maps it. -/
structure Accounted (root : Nat) (pins : Nat → Nat) (m : Machine) : Prop where
  pinned : Pinned root pins m
  apart : ∀ {n f}, pageMap root m n = some f → ∀ p, ¬ Table root m p f
  counted : ∀ f, {n | pageMap root m n = some f}.encard ≤ pins f

/-- The words of page `n`. -/
def contents (root : Nat) (m : Machine) (n : Fin (2 ^ 36)) : Option (Nat → Pte.Word) := (pageMap root m n).map m.mem

section
variable {root virt f : Nat} {pins pins' : Nat → Nat} {m m' : Machine} {n : Fin (2 ^ 36)}

theorem Accounted.pos (h : Accounted root pins m) (hn : pageMap root m n = some f) : 0 < pins f := by
  have hone : 1 ≤ {n | pageMap root m n = some f}.encard := Set.one_le_encard_iff_nonempty.2 ⟨n, hn⟩
  have hle : ((1 : ℕ) : ℕ∞) ≤ pins f := hone.trans (h.counted f)
  exact_mod_cast hle

theorem Accounted.unused (h : Accounted root pins m) (hf : pins f = 0) :
    (∀ n, pageMap root m n ≠ some f) ∧ ∀ p, ¬ Table root m p f := by
  refine ⟨fun n hn => ?_, fun p hp => ?_⟩
  · have := h.pos hn
    omega
  · have := h.pinned.tables hp
    omega

theorem contents_congr (hmap : pageMap root m' n = pageMap root m n)
    (hdata : ∀ f, pageMap root m n = some f → m'.mem f = m.mem f) : contents root m' n = contents root m n := by
  unfold contents
  rw [hmap]
  cases hf : pageMap root m n with
  | none => rfl
  | some f => exact congrArg some (hdata f hf)

theorem pageMap_of_translate {phys : Nat} (h : Vmm.translate m root virt = some phys) :
    pageMap root m (pageNumber virt) = some (phys / pageSize) := by
  rw [translate_eq_pageMap] at h
  obtain ⟨f, hf, rfl⟩ := Option.map_eq_some_iff.1 h
  rw [hf]
  unfold pageSize
  congr 1
  omega

theorem pageMap_eq_none_iff : pageMap root m (pageNumber virt) = none ↔ Vmm.translate m root virt = none := by
  rw [translate_eq_pageMap, Option.map_eq_none_iff]

theorem Accounted.of_tables (h : Accounted root pins m) (hmem : ∀ q u, Table root m q u → m'.mem u = m.mem u)
    (hinv : Space.Inv ∅ pins' m') (htables : ∀ {p t}, Table root m p t → 0 < pins' t)
    (hcounted : ∀ f, {n | pageMap root m n = some f}.encard ≤ pins' f) :
    Accounted root pins' m' ∧ Extends root m m' := by
  have hext : Extends root m m' :=
    .of_tables h.pinned.tree (fun q u hu j => by rw [hmem q u hu]) ⟨pins', hinv, htables⟩
  have hiff : ∀ {p t}, Table root m' p t ↔ Table root m p t := table_iff fun q u hu _ j => by rw [hmem q u hu]
  have hpages := pageMap_eq hext.same
  refine ⟨⟨⟨hext.tree.separated, hinv, fun ht => htables (hiff.1 ht)⟩, fun hn p hp => ?_, fun f => ?_⟩, hext⟩
  · rw [hpages] at hn
    exact h.apart hn p (hiff.1 hp)
  · rw [hpages]
    exact hcounted f

theorem Accounted.freePage (h : Accounted root pins m) (hf : ∀ p, ¬ Table root m p f)
    (hspare : {n | pageMap root m n = some f}.encard + 1 ≤ pins f) :
    (∃ pins', Accounted root pins' (m.freePage f)) ∧ Extends root m (m.freePage f) := by
  have hpos : ((1 : ℕ) : ℕ∞) ≤ pins f := le_add_self.trans hspare
  have hpos : 1 ≤ pins f := by exact_mod_cast hpos
  have hsum : pins = (pins - pin f) + pin f := by
    funext g
    simp only [Pi.add_apply, Pi.sub_apply, Space.pin_apply]
    split
    · next hg => subst hg; omega
    · omega
  have hinv := h.pinned.inv
  rw [hsum] at hinv
  have hless : ∀ g, g ≠ f → (pins - pin f) g = pins g := by
    intro g hg
    simp only [Pi.sub_apply, Space.pin_apply, if_neg hg, Nat.sub_zero]
  have hmem : ∀ q u, Table root m q u → (m.freePage f).mem u = m.mem u := fun _ _ _ => rfl
  obtain ⟨hacc, hext⟩ := h.of_tables hmem hinv.freePage (fun {p t} ht => by
    rw [hless t fun he => hf p (he ▸ ht)]
    exact h.pinned.tables ht) fun g => by
      by_cases hg : g = f
      · subst hg
        have hval : pins g = (pins - pin g) g + 1 := by
          simp only [Pi.sub_apply, Space.pin_apply, if_true]
          omega
        rw [hval, Nat.cast_add, Nat.cast_one] at hspare
        exact (ENat.add_le_add_iff_right (by decide)).1 hspare
      · rw [hless g hg]
        exact h.counted g
  exact ⟨⟨_, hacc⟩, hext⟩

/-- The page `f`, which nobody used, was taken and has the words `c`. -/
structure Fresh (root : Nat) (pins : Nat → Nat) (f : Nat) (c : Nat → Pte.Word) (m m' : Machine) : Prop where
  accounted : Accounted root (pins + pin f) m'
  same : Extends root m m'
  tables : ∀ {p t}, Table root m' p t ↔ Table root m p t
  unused : pins f = 0
  page : m'.mem f = c
  others : ∀ u, u ≠ f → m'.mem u = m.mem u

theorem Accounted.allocPage (h : Accounted root pins m) :
    (m.allocPage.1 = none ∧ Accounted root pins m.allocPage.2 ∧ Extends root m m.allocPage.2) ∨
      ∃ f, m.allocPage.1 = some f ∧ ∀ c, Fresh root pins f c m (m.allocPage.2.setPage f c) := by
  have hmem : m.allocPage.2.mem = m.mem := rfl
  refine (owns_allocPage h.pinned.inv).imp (fun ⟨hnone, hinv⟩ => ⟨hnone, ?_⟩) fun ⟨f, hsome, howns, _⟩ =>
    ⟨f, hsome, fun c => ?_⟩
  · exact h.of_tables (fun _ _ _ => by rw [hmem]) hinv h.pinned.tables h.counted
  · have hothers : ∀ u, u ≠ f → (m.allocPage.2.setPage f c).mem u = m.mem u := fun u hu =>
      (Function.update_of_ne hu ..).trans (by rw [hmem])
    have hpage : (m.allocPage.2.setPage f c).mem f = c := Function.update_self ..
    have htables : ∀ q u, Table root m q u → (m.allocPage.2.setPage f c).mem u = m.mem u := fun q u hu =>
      hothers u fun he => (h.unused howns.unpinned).2 q (he ▸ hu)
    obtain ⟨hacc, hext⟩ := h.of_tables htables (inv_empty_withMem howns.inv) (fun {p t} ht => by
        have := h.pinned.tables ht
        rw [Pi.add_apply]
        omega) fun g => by
        refine (h.counted g).trans ?_
        rw [Pi.add_apply, Nat.cast_add]
        exact le_self_add
    exact ⟨hacc, hext, table_iff fun q u hu _ j => by rw [htables q u hu], howns.unpinned, hpage, hothers⟩

theorem Accounted.added (h : Accounted root pins m) (ha : Added root pins pins' m m') : Accounted root pins' m' := by
  have hpages := pageMap_eq ha.same.same
  refine ⟨ha.pinned, fun {n f} hn p hp => ?_, fun f => ?_⟩
  · rw [hpages] at hn
    rcases ha.unused hp with hold | hzero
    · exact h.apart hn p hold
    · have := h.pos hn
      omega
  · rw [hpages]
    by_cases hf : pins f = 0
    · have hempty : {n | pageMap root m n = some f} = ∅ :=
        Set.eq_empty_of_forall_notMem fun n => (h.unused hf).1 n
      rw [hempty, Set.encard_empty]
      exact zero_le
    · rw [ha.kept f (Nat.pos_of_ne_zero hf)]
      exact h.counted f

theorem Accounted.setLeaf {t : Nat} (h : Accounted root pins m) (ht : Table root m (tablePath virt) t) (w : Pte.Word)
    (hw : Pte.isPresent w = true → (∀ p, ¬ Table root m p (Pte.frame w)) ∧
      {n | pageMap root m n = some (Pte.frame w)}.encard + 1 ≤ pins (Pte.frame w)) :
    Accounted root pins (m.setWord t (ptIdx virt) w) ∧
      Changes root virt (if Pte.isPresent w then some (Pte.frame w) else none) m (m.setWord t (ptIdx virt) w) := by
  obtain ⟨htree, hnoHuge, hothers, hpage⟩ := setLeaf_spec h.pinned.tree ht w
  have hiff : ∀ {p u}, Table root (m.setWord t (ptIdx virt) w) p u ↔ Table root m p u :=
    (setLeaf_table_iff h.pinned.tree ht w).2
  have hchange : Changes root virt (if Pte.isPresent w then some (Pte.frame w) else none) m
      (m.setWord t (ptIdx virt) w) := by
    refine ⟨htree, hnoHuge, hothers, fun v hv => ?_⟩
    rw [hpage v hv]
    split <;> rfl
  have hpages := hchange.pageMap
  have hpinned : Pinned root pins (m.setWord t (ptIdx virt) w) :=
    ⟨htree.separated, inv_empty_withMem h.pinned.inv, fun hu => h.pinned.tables (hiff.1 hu)⟩
  refine ⟨⟨hpinned, fun {n f} hn p hp => ?_, fun f => ?_⟩, hchange⟩
  · rw [hpages] at hn
    by_cases hv : n = pageNumber virt
    · rw [hv, Function.update_self] at hn
      split at hn
      · next hpres =>
        obtain rfl := Option.some.inj hn
        exact (hw hpres).1 p (hiff.1 hp)
      · cases hn
    · rw [Function.update_of_ne hv] at hn
      exact h.apart hn p (hiff.1 hp)
  · rw [hpages]
    by_cases hf : Pte.isPresent w = true ∧ f = Pte.frame w
    · obtain ⟨hpres, rfl⟩ := hf
      refine le_trans ?_ (hw hpres).2
      refine (Set.encard_le_encard ?_).trans (Set.encard_insert_le _ (pageNumber virt))
      intro n hn
      by_cases hv : n = pageNumber virt
      · exact .inl hv
      · refine .inr ?_
        rwa [Set.mem_ofPred_eq, Function.update_of_ne hv] at hn
    · refine (Set.encard_le_encard ?_).trans (h.counted f)
      intro n hn
      by_cases hv : n = pageNumber virt
      · rw [Set.mem_ofPred_eq, hv, Function.update_self] at hn
        split at hn
        · next hpres => exact absurd ⟨hpres, (Option.some.inj hn).symm⟩ hf
        · cases hn
      · rwa [Set.mem_ofPred_eq, Function.update_of_ne hv] at hn

end

/-! ## A new page -/

/-- The page `f`, which nobody used, has the words `c` and is mapped at `virt`; all other pages are as they were. -/
structure MappedNew (root virt f : Nat) (c : Nat → Pte.Word) (m m' : Machine) : Prop where
  accounted : ∃ pins, Accounted root pins m'
  noHuge : ∀ v, NoHuge root m v → NoHuge root m' v
  pages : pageMap root m' = Function.update (pageMap root m) (pageNumber virt) (some f)
  new : ∀ n, pageMap root m n ≠ some f
  page : m'.mem f = c
  data : ∀ n u, pageMap root m n = some u → m'.mem u = m.mem u

/-- The outcomes of mapping a new page: without memory for the tables, `f` is left with its one reference. -/
inductive MapsNew (root virt f : Nat) (c : Nat → Pte.Word) (m : Machine) : Bool × Machine → Prop
  | outOfMemory {pins' : Nat → Nat} {m' : Machine} (accounted : Accounted root pins' m') (one : pins' f = 1)
      (untabled : ∀ p, ¬ Table root m' p f) (same : Extends root m m') (new : ∀ n, pageMap root m n ≠ some f)
      (data : ∀ n u, pageMap root m n = some u → m'.mem u = m.mem u) : MapsNew root virt f c m (false, m')
  | done {m' : Machine} : MappedNew root virt f c m m' → MapsNew root virt f c m (true, m')

theorem Accounted.mapNew {root virt f : Nat} {pins : Nat → Nat} {c : Nat → Pte.Word} {m m₂ : Machine}
    (h : Accounted root pins m) (hfresh : Fresh root pins f c m m₂) (hn : NoHuge root m virt) (flags : MapFlags) :
    MapsNew root virt f c m (mapPage m₂ root virt f flags) := by
  obtain ⟨hunmapped, huntabled⟩ := h.unused hfresh.unused
  have hone : (pins + pin f) f = 1 := by simp [hfresh.unused]
  have hpages₂ := pageMap_eq hfresh.same.same
  have hwalked : Walked root virt (pins + pin f) (Pte.make (flags.entry false) f) m₂ (mapPage m₂ root virt f flags) :=
    mapPage_walked hfresh.accounted.pinned (hfresh.same.noHuge virt hn)
  generalize mapPage m₂ root virt f flags = x at hwalked
  -- the added tables leave all pages and the new one alone
  have hkeep : ∀ {pins' m₃}, Added root (pins + pin f) pins' m₂ m₃ → Accounted root pins' m₃ ∧ pins' f = 1 ∧
      (∀ p, ¬ Table root m₃ p f) ∧ pageMap root m₃ = pageMap root m ∧ m₃.mem f = c ∧
      ∀ n u, pageMap root m n = some u → m₃.mem u = m.mem u ∧ ∀ p, ¬ Table root m₃ p u := by
    intro pins' m₃ hadd
    have huntabled₂ : ∀ p, ¬ Table root m₂ p f := fun p hp => huntabled p (hfresh.tables.1 hp)
    refine ⟨hfresh.accounted.added hadd, (hadd.kept f (by omega)).trans hone, fun p hp => ?_,
      (pageMap_eq hadd.same.same).trans hpages₂, (hadd.data f (by omega) huntabled₂).trans hfresh.page,
      fun n u hu => ?_⟩
    · rcases hadd.unused hp with hold | hzero
      · exact huntabled₂ p hold
      · omega
    · have hpos := h.pos hu
      have hpos : 0 < (pins + pin f) u := by
        rw [Pi.add_apply]
        omega
      have hnot : ∀ p, ¬ Table root m₂ p u := fun p hp => h.apart hu p (hfresh.tables.1 hp)
      refine ⟨(hadd.data u hpos hnot).trans (hfresh.others u fun he => hunmapped n (he ▸ hu)), fun p hp => ?_⟩
      rcases hadd.unused hp with hold | hzero
      · exact hnot p hold
      · omega
  cases hwalked with
  | @outOfMemory pins' m₃ hadd =>
    obtain ⟨hacc, hpin, hnot, -, -, hdata⟩ := hkeep hadd
    exact .outOfMemory hacc hpin hnot (hfresh.same.trans hadd.same) hunmapped fun n u hu => (hdata n u hu).1
  | @leaf pins' m₃ t hadd ht =>
    obtain ⟨hacc, hpin, hnot, hpages, hpage, hdata⟩ := hkeep hadd
    have hframe : Pte.frame (Pte.make (flags.entry false) f) = f :=
      Pte.frame_make _ _ ((hacc.pinned.inv.pinned (f := f) (by omega)).2.trans_le hacc.pinned.inv.total)
    have hpres : Pte.isPresent (Pte.make (flags.entry false) f) = true := Pte.isPresent_make _ _
    obtain ⟨hacc₄, hchange⟩ := hacc.setLeaf ht (Pte.make (flags.entry false) f) fun _ => by
      rw [hframe, hpin]
      have hempty : {n | pageMap root m₃ n = some f} = ∅ :=
        Set.eq_empty_of_forall_notMem fun n hn => hunmapped n (by rwa [Set.mem_ofPred_eq, hpages] at hn)
      rw [hempty, Set.encard_empty]
      exact ⟨hnot, le_rfl⟩
    rw [if_pos hpres, hframe] at hchange
    have hleaf : ∀ u, (∀ p, ¬ Table root m₃ p u) →
        (m₃.setWord t (ptIdx virt) (Pte.make (flags.entry false) f)).mem u = m₃.mem u :=
      fun u hu => funext fun j => mem_setWord_of_ne fun hc => hu _ (hc.1 ▸ ht)
    have hpages₄ : pageMap root _ = Function.update (pageMap root m₃) (pageNumber virt) (some f) := hchange.pageMap
    rw [hpages] at hpages₄
    exact .done ⟨⟨_, hacc₄⟩, fun v hv => hchange.noHuge v (hadd.same.noHuge v (hfresh.same.noHuge v hv)), hpages₄,
      hunmapped, (hleaf f hnot).trans hpage, fun n u hu => (hleaf u (hdata n u hu).2).trans (hdata n u hu).1⟩

/-! ## Unmapping -/

section
variable {root virt f : Nat} {pins : Nat → Nat} {m : Machine}

theorem Accounted.unmapPage (h : Accounted root pins m) (hn : NoHuge root m virt) :
    Accounted root pins (unmapPage m root virt) ∧
      ∀ {p t}, Table root (Vmm.unmapPage m root virt) p t ↔ Table root m p t := by
  unfold Vmm.unmapPage
  split
  · exact ⟨h, Iff.rfl⟩
  next pt hpt =>
  have ht := (walk_eq_some hn pt).1 hpt
  refine ⟨(h.setLeaf ht 0 fun hpres => ?_).1, (setLeaf_table_iff h.pinned.tree ht 0).2⟩
  exact absurd hpres (by decide)

end

/-! ## One page -/

/-- Page `i` of a range. -/
def pageAt (base i : Nat) : Fin (2 ^ 36) := pageNumber (base + i * pageSize)

/-- The pages `done` went from the old range to the new one with their contents, and every other page is as it was. -/
structure Carried (root oldAddr newAddr : Nat) (done : Nat → Prop) (m m' : Machine) : Prop where
  accounted : ∃ pins, Accounted root pins m'
  noHuge : ∀ v, NoHuge root m v → NoHuge root m' v
  moved : ∀ i, done i → contents root m' (pageAt newAddr i) = contents root m (pageAt oldAddr i) ∧
    pageMap root m' (pageAt oldAddr i) = none
  others : ∀ n, (∀ i, done i → n ≠ pageAt oldAddr i ∧ n ≠ pageAt newAddr i) →
    pageMap root m' n = pageMap root m n ∧ contents root m' n = contents root m n

section
variable {root oldAddr newAddr i k : Nat} {pins : Nat → Nat} {flags : MapFlags} {m m' m'' : Machine}

theorem Carried.none (h : ∃ pins, Accounted root pins m') (hext : Extends root m m')
    (hdata : ∀ n f, pageMap root m n = some f → m'.mem f = m.mem f) :
    Carried root oldAddr newAddr (fun _ => False) m m' := by
  have hpages := pageMap_eq hext.same
  refine ⟨h, hext.noHuge, nofun, fun n _ => ⟨congrFun hpages n, ?_⟩⟩
  exact contents_congr (congrFun hpages n) (hdata n)

/-- **One turn of the copy loop**: the page is moved, or memory ran out and nothing is. -/
theorem movePage_step (flags : MapFlags) (h : Accounted root pins m) (hsmall : NoHuge root m (oldAddr + i * pageSize))
    (hfree : pageMap root m (pageAt newAddr i) = none) (hne : pageAt newAddr i ≠ pageAt oldAddr i) :
    Loop.Result (Carried root oldAddr newAddr (· = i) m) (Carried root oldAddr newAddr (fun _ => False) m)
      (movePage root oldAddr newAddr flags i m) := by
  unfold movePage
  cases htrans : Vmm.translate m root (oldAddr + i * pageSize) with
  | none =>
    -- nothing to copy, and the new page is absent as well
    have hold : pageMap root m (pageAt oldAddr i) = none := pageMap_eq_none_iff.2 htrans
    refine .ofTrue ⟨⟨pins, h⟩, fun _ hn => hn, fun j hj => ?_, fun _ _ => ⟨rfl, rfl⟩⟩
    subst hj
    refine ⟨?_, hold⟩
    unfold contents
    rw [hfree, hold]
  | some phys =>
  have hpage : pageMap root m (pageAt oldAddr i) = some (phys / pageSize) := pageMap_of_translate htrans
  simp only
  generalize phys / pageSize = g at hpage
  have hmem : m.allocPage.2.mem = m.mem := rfl
  have halloc := h.allocPage
  rcases ha : m.allocPage with ⟨o, m₁⟩
  rw [ha] at halloc hmem
  rcases halloc with ⟨hnone, hacc, hext⟩ | ⟨f, hsome, hfresh⟩
  · cases hnone
    exact .ofFalse (.none ⟨pins, hacc⟩ hext fun _ _ _ => by rw [hmem])
  cases hsome
  simp only at hmem hfresh ⊢
  have hfresh : Fresh root pins f (m.mem g) m (m₁.copyPage f g) := hmem ▸ hfresh (m₁.mem g)
  generalize m₁.copyPage f g = m₂ at hfresh
  have hnew : NoHuge root m (newAddr + i * pageSize) := by
    by_contra hhuge
    have hsome := (huge_walk h.pinned.tree hhuge).1
    rw [pageMap_eq_none_iff.1 hfree] at hsome
    cases hsome
  have hmaps : MapsNew root (newAddr + i * pageSize) f (m.mem g) m
      (mapPage m₂ root (newAddr + i * pageSize) f flags) := h.mapNew hfresh hnew flags
  generalize mapPage m₂ root (newAddr + i * pageSize) f flags = x at hmaps
  cases hmaps with
  | outOfMemory hacc hpin hnot hext hunmapped hdata =>
    obtain ⟨hfreed, hext'⟩ := hacc.freePage hnot (by
      have hempty : {n | pageMap root _ n = some f} = ∅ :=
        Set.eq_empty_of_forall_notMem fun n hn => hunmapped n (by
          rwa [Set.mem_ofPred_eq, pageMap_eq hext.same] at hn)
      rw [hempty, Set.encard_empty, hpin]
      rfl)
    exact .ofFalse (.none hfreed (hext.trans hext') hdata)
  | @done m₄ hnewly =>
    simp only
    obtain ⟨⟨pins₄, hacc₄⟩, hnoHuge, hpages₄, -, hcopy, hdata⟩ := hnewly
    have hpages₄ : pageMap root m₄ = Function.update (pageMap root m) (pageAt newAddr i) (some f) := hpages₄
    -- the new page and the old pages are mapped, so they are no tables
    have hmapped : ∀ n u, pageMap root m n = some u → pageMap root m₄ n = some u := fun n u hu => by
      rw [hpages₄, Function.update_of_ne fun he => ?_]
      · exact hu
      · rw [he, hfree] at hu
        cases hu
    have hnot : ∀ p, ¬ Table root m₄ p f := hacc₄.apart (n := pageAt newAddr i) (by
      rw [hpages₄, Function.update_self])
    have hsmall₄ := hnoHuge _ hsmall
    have hunmap := unmapPage_spec hacc₄.pinned.tree hsmall₄
    have hpages₅ : pageMap root _ = Function.update (pageMap root m₄) (pageAt oldAddr i) none := hunmap.pageMap
    obtain ⟨hacc₅, hiff₅⟩ := hacc₄.unmapPage hsmall₄
    have hwrite : ∀ u, (∀ p, ¬ Table root m₄ p u) → (unmapPage m₄ root (oldAddr + i * pageSize)).mem u = m₄.mem u :=
      fun u hu => unmapPage_other hsmall₄ fun p hp => absurd hp (hu p)
    have hnoHuge₅ : ∀ v, NoHuge root m v → NoHuge root (unmapPage m₄ root (oldAddr + i * pageSize)) v :=
      fun v hn => hunmap.noHuge v (hnoHuge v hn)
    generalize unmapPage m₄ root (oldAddr + i * pageSize) = m₅ at hunmap hpages₅ hacc₅ hiff₅ hwrite hnoHuge₅ ⊢
    -- the mapping that is gone leaves a reference of the old frame to give back
    have hold : pageMap root m₄ (pageAt oldAddr i) = some g := hmapped _ g hpage
    obtain ⟨hfreed, hext⟩ := hacc₅.freePage (fun p hp => hacc₄.apart hold p (hiff₅.1 hp)) (by
      have hdiff : {n | pageMap root m₅ n = some g} = {n | pageMap root m₄ n = some g} \ {pageAt oldAddr i} := by
        ext n
        rw [hpages₅, Set.mem_sdiff, Set.mem_singleton_iff, Set.mem_ofPred_eq, Set.mem_ofPred_eq]
        by_cases hn : n = pageAt oldAddr i
        · rw [hn, Function.update_self]
          simp
        · rw [Function.update_of_ne hn]
          exact (and_iff_left hn).symm
      have hmem : pageAt oldAddr i ∈ {n | pageMap root m₄ n = some g} := hold
      rw [hdiff, Set.encard_sdiff_singleton_add_one hmem]
      exact hacc₄.counted g)
    have hpages₆ := pageMap_eq hext.same
    have hmem₆ : ∀ u, (∀ p, ¬ Table root m₄ p u) → (m₅.freePage g).mem u = m₄.mem u := hwrite
    have hmap : ∀ n, pageMap root (m₅.freePage g) n =
        Function.update (Function.update (pageMap root m) (pageAt newAddr i) (some f)) (pageAt oldAddr i) none n := by
      intro n
      rw [hpages₆, hpages₅, hpages₄]
    refine .ofTrue ⟨hfreed, fun v hn => hext.noHuge v (hnoHuge₅ v hn), fun j hj => ?_, fun n hn => ?_⟩
    · subst hj
      refine ⟨?_, (hmap _).trans (Function.update_self ..)⟩
      unfold contents
      rw [hmap, Function.update_of_ne hne, Function.update_self, hpage]
      exact congrArg some ((hmem₆ f hnot).trans hcopy)
    · obtain ⟨hn₁, hn₂⟩ := hn i rfl
      have hsame : pageMap root (m₅.freePage g) n = pageMap root m n := by
        rw [hmap, Function.update_of_ne hn₁, Function.update_of_ne hn₂]
      exact ⟨hsame, contents_congr hsame fun u hu =>
        (hmem₆ u (hacc₄.apart (hmapped n u hu))).trans (hdata n u hu)⟩

/-! ## The loop -/

/-- Page numbers of the two ranges do not coincide. -/
structure Spread (oldAddr newAddr n : Nat) : Prop where
  old : ∀ i j, i < n → j < n → pageAt oldAddr i = pageAt oldAddr j → i = j
  new : ∀ i j, i < n → j < n → pageAt newAddr i = pageAt newAddr j → i = j
  apart : ∀ i j, i < n → j < n → pageAt newAddr i ≠ pageAt oldAddr j

theorem Carried.congr {done done' : Nat → Prop} (h : Carried root oldAddr newAddr done m m')
    (hdone : ∀ i, done i ↔ done' i) : Carried root oldAddr newAddr done' m m' := by
  obtain rfl : done = done' := funext fun i => propext (hdone i)
  exact h

theorem Carried.next {n : Nat} (hs : Spread oldAddr newAddr n) (hk : k < n)
    (h : Carried root oldAddr newAddr (· < k) m m') (h' : Carried root oldAddr newAddr (· = k) m' m'') :
    Carried root oldAddr newAddr (· < k + 1) m m'' := by
  refine ⟨h'.accounted, fun v hn => h'.noHuge v (h.noHuge v hn), fun i hi => ?_, fun p hp => ?_⟩
  · rcases Nat.lt_succ_iff_lt_or_eq.1 hi with hi | rfl
    · obtain ⟨hnew, hold⟩ := h.moved i hi
      have hin : i < n := by omega
      obtain ⟨-, hkept⟩ := h'.others (pageAt newAddr i) fun j hj => by
        subst hj
        refine ⟨hs.apart i j hin hk, fun he => ?_⟩
        have := hs.new i j hin hk he
        omega
      obtain ⟨hgone, -⟩ := h'.others (pageAt oldAddr i) fun j hj => by
        subst hj
        refine ⟨fun he => ?_, (hs.apart j i hk hin).symm⟩
        have := hs.old i j hin hk he
        omega
      exact ⟨hkept.trans hnew, hgone.trans hold⟩
    · obtain ⟨hnew, hold⟩ := h'.moved i rfl
      obtain ⟨-, hkept⟩ := h.others (pageAt oldAddr i) fun j hj => by
        refine ⟨fun he => ?_, (hs.apart j i (by omega) hk).symm⟩
        have := hs.old i j hk (by omega) he
        omega
      exact ⟨hnew.trans hkept, hold⟩
  · obtain ⟨hmap, hkept⟩ := h.others p fun i hi => hp i (by omega)
    obtain ⟨hmap', hkept'⟩ := h'.others p fun i hi => by
      subst hi
      exact hp i (by omega)
    exact ⟨hmap'.trans hmap, hkept'.trans hkept⟩

theorem Carried.stop {done : Nat → Prop} (h : Carried root oldAddr newAddr done m m')
    (h' : Carried root oldAddr newAddr (fun _ => False) m' m'') : Carried root oldAddr newAddr done m m'' := by
  have hsame : ∀ n, pageMap root m'' n = pageMap root m' n ∧ contents root m'' n = contents root m' n :=
    fun n => h'.others n fun _ => False.elim
  refine ⟨h'.accounted, fun v hn => h'.noHuge v (h.noHuge v hn), fun i hi => ?_, fun n hn => ?_⟩
  · obtain ⟨hnew, hold⟩ := h.moved i hi
    exact ⟨(hsame _).2.trans hnew, (hsame _).1.trans hold⟩
  · obtain ⟨hmap, hkept⟩ := h.others n hn
    exact ⟨(hsame n).1.trans hmap, (hsame n).2.trans hkept⟩

/-- The first `n` pages all find a frame and tables. -/
def MemoryLasts (root oldAddr newAddr : Nat) (flags : MapFlags) (m : Machine) (n : Nat) : Prop :=
  (Loop.loop (movePage root oldAddr newAddr flags) (List.range n) m).1 = true

/-- **The copy loop**: it moves the pages up to the first one for which memory does not last, and leaves the rest. -/
theorem moveLoop_spec {n : Nat} (flags : MapFlags) (h : Accounted root pins m) (hs : Spread oldAddr newAddr n)
    (hsmall : ∀ i, i < n → NoHuge root m (oldAddr + i * pageSize))
    (hfree : ∀ i, i < n → pageMap root m (pageAt newAddr i) = none) :
    ∃ k ≤ n, Carried root oldAddr newAddr (· < k) m
        (Loop.loop (movePage root oldAddr newAddr flags) (List.range n) m).2 ∧
      ∀ j ≤ n, MemoryLasts root oldAddr newAddr flags m j ↔ j ≤ k := by
  suffices hall : ∀ l ≤ n, ∃ k ≤ l, Carried root oldAddr newAddr (· < k) m
        (Loop.loop (movePage root oldAddr newAddr flags) (List.range l) m).2 ∧
      ∀ j ≤ l, MemoryLasts root oldAddr newAddr flags m j ↔ j ≤ k from hall n le_rfl
  intro l
  induction l with
  | zero =>
    refine fun _ => ⟨0, le_rfl, ?_, fun j hj => iff_of_true ?_ hj⟩
    · exact (Carried.none ⟨pins, h⟩ (.refl h.pinned.tree) fun _ _ _ => rfl).congr fun i => by simp
    · obtain rfl : j = 0 := by omega
      rfl
  | succ l ih =>
    intro hl
    obtain ⟨k, hk, hcar, hlast⟩ := ih (by omega)
    unfold MemoryLasts at hlast ⊢
    have hstep := Loop.loop_range_succ (movePage root oldAddr newAddr flags) l m
    by_cases hkl : k = l
    · subst hkl
      obtain ⟨pins', hacc⟩ := hcar.accounted
      obtain ⟨hmap, -⟩ := hcar.others (pageAt newAddr k) fun i hi =>
        ⟨hs.apart k i (by omega) (by omega), fun he => by
          have := hs.new k i (by omega) (by omega) he
          omega⟩
      have hturn := movePage_step flags hacc (hcar.noHuge _ (hsmall k (by omega)))
        (hmap.trans (hfree k (by omega))) (hs.apart k k (by omega) (by omega))
      rw [if_pos ((hlast k le_rfl).2 le_rfl)] at hstep
      rw [← hstep] at hturn
      by_cases hok : (Loop.loop (movePage root oldAddr newAddr flags) (List.range (k + 1)) m).1 = true
      · refine ⟨k + 1, le_rfl, hcar.next hs (by omega) (hturn.ok hok), fun j hj => iff_of_true ?_ hj⟩
        rcases Nat.le_succ_iff.1 hj with hj | rfl
        · exact (hlast j hj).2 hj
        · exact hok
      · refine ⟨k, by omega, hcar.stop (hturn.fail (by simpa using hok)), fun j hj => ?_⟩
        rcases Nat.le_succ_iff.1 hj with hj | rfl
        · exact hlast j hj
        · exact iff_of_false hok (by omega)
    · rw [if_neg (by rw [hlast l le_rfl]; omega)] at hstep
      refine ⟨k, by omega, by rw [hstep]; exact hcar, fun j hj => ?_⟩
      rcases Nat.le_succ_iff.1 hj with hj | rfl
      · exact hlast j hj
      · rw [hstep]
        refine iff_of_false ?_ (by omega)
        rw [hlast l le_rfl]
        omega

end

end Zigix.Mmap
