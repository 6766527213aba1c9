import Zigix.Mm.PageMap

/-!
# Mapping huge pages

* `mapHugePage_step`, `mapGigaPage_step` : what a call does, also when memory runs out. `mapHugePage` below a 1 GiB page
  writes into the data of that page.
-/

namespace Zigix.PageMap

open Forest Pmm Pte Vmm
open Space (mem_setWord_of_ne follow_eq follow_some follow_absent pin)
open Fault (leafPath tablePath)

/-! ## Huge pages -/

def hugeBytes (giga : Bool) : Nat := if giga then 2 ^ 30 else 2 ^ 21

def hugePath (giga : Bool) (virt : Nat) : List Nat :=
  if giga then [pml4Idx virt, pdptIdx virt] else tablePath virt

/-- The frame of the 1 GiB page of `virt`. -/
def gigaLeaf (root : Nat) (m : Machine) (virt : Nat) : Option Nat :=
  (follow m root (pml4Idx virt)).bind fun pdpt =>
    if isPresent (m.mem pdpt (pdptIdx virt)) && isHuge (m.mem pdpt (pdptIdx virt)) then
      some (frame (m.mem pdpt (pdptIdx virt)))
    else none

section
variable {root virt v t i f D : Nat} {m m' : Machine} {p q : List Nat} {giga : Bool} {w : Word}

theorem hugePath_le (giga : Bool) (v : Nat) : hugePath giga v <+: leafPath v := by
  cases giga with
  | true => exact ⟨[pdIdx v, ptIdx v], rfl⟩
  | false => exact ⟨[ptIdx v], rfl⟩

theorem hugePath_eq_iff : hugePath giga virt <+: leafPath v ↔ hugePath giga v = hugePath giga virt := by
  constructor
  · intro h
    have hlen : (hugePath giga virt).length = (hugePath giga v).length := by cases giga <;> rfl
    exact (List.prefix_of_prefix_length_le (hugePath_le giga v) h hlen.ge).eq_of_length hlen.symm
  · intro h
    rw [← h]
    exact hugePath_le giga v

theorem hugePath_ok (giga : Bool) (virt : Nat) : TablePath (hugePath giga virt) := by
  cases giga with
  | true => exact TablePath.of_append [_, _] [_] (tablePath_ok virt)
  | false => exact tablePath_ok virt

theorem gigaLeaf_some : gigaLeaf root m virt = some D ↔ ∃ pdpt, follow m root (pml4Idx virt) = some pdpt ∧
    isPresent (m.mem pdpt (pdptIdx virt)) = true ∧ isHuge (m.mem pdpt (pdptIdx virt)) = true ∧
      frame (m.mem pdpt (pdptIdx virt)) = D := by
  unfold gigaLeaf
  rw [Option.bind_eq_some_iff]
  refine exists_congr fun pdpt => and_congr_right fun _ => ?_
  rw [Option.ite_none_right_eq_some, Bool.and_eq_true, Option.some_inj, and_assoc]

theorem translate_gigaLeaf (h : gigaLeaf root m virt = some D) :
    translate m root virt = some (D * pageSize + virt % 2 ^ 30) := by
  obtain ⟨pdpt, hpdpt, hpres, hhuge, rfl⟩ := gigaLeaf_some.1 h
  unfold Vmm.translate
  simp only [bind, hpdpt, Option.bind_some, follow_some.2 ⟨hpres, rfl⟩, hhuge, if_true]
  rfl

structure Upper (root : Nat) (m m' : Machine) : Prop where
  pml4 : ∀ a < 512, m'.mem root a = m.mem root a
  pdpts : ∀ a < 512, ∀ t, follow m root a = some t → ∀ j < 512, m'.mem t j = m.mem t j

theorem Upper.gigaLeaf (h : Upper root m m') (virt : Nat) :
    PageMap.gigaLeaf root m' virt = PageMap.gigaLeaf root m virt := by
  have ha : pml4Idx virt < 512 := Nat.mod_lt _ (by decide)
  have hi : pdptIdx virt < 512 := Nat.mod_lt _ (by decide)
  unfold PageMap.gigaLeaf
  rw [follow_eq (h.pml4 _ ha)]
  cases hf : follow m root (pml4Idx virt) with
  | none => rfl
  | some t => rw [Option.bind_some, Option.bind_some, h.pdpts _ ha t hf _ hi]

theorem Upper.of_mem (h : m'.mem = m.mem) : Upper root m m' :=
  ⟨fun _ _ => by rw [h], fun _ _ _ _ _ _ => by rw [h]⟩

theorem Upper.setWord (h : ∀ p u, Table root m p u → p.length ≤ 1 → u ≠ t) : Upper root m (m.setWord t i w) where
  pml4 a _ := mem_setWord_of_ne fun hc => h [] root table_root (by simp) hc.1
  pdpts a ha u hu j _ := mem_setWord_of_ne fun hc => h [a] u (table_of_follow ha hu) (by simp) hc.1

theorem setHuge_spec (giga : Bool) (virt : Nat) (h : Tree root m) (ht : Table root m q t) (hq : q ++ [i] = hugePath giga virt)
    (hpres : isPresent w = true) (hhuge : isHuge w = true) :
    Tree root (m.setWord t i w) ∧
      (∀ {p u}, Table root (m.setWord t i w) p u → Table root m p u) ∧
      (∀ v, hugePath giga v ≠ hugePath giga virt → translate (m.setWord t i w) root v = translate m root v) ∧
      ∀ v, hugePath giga v = hugePath giga virt →
        translate (m.setWord t i w) root v = some (frame w * pageSize + v % hugeBytes giga) := by
  have hlen : q.length + 1 = if giga then 2 else 3 := by
    have := congrArg List.length hq
    rw [List.length_append] at this
    cases giga <;> exact this
  have hne : q ≠ [] := by
    rintro rfl
    cases giga <;> simp at hlen
  have hqlen : q.length ≤ 3 := by
    cases giga <;> simp at hlen <;> omega
  have htroot : t ≠ root := h.ne_root ht hne
  have hword : (m.setWord t i w).mem t i = w := by simp [Machine.setWord]
  have hother : ∀ u j, ¬ (u = t ∧ j = i) → (m.setWord t i w).mem u j = m.mem u j := fun u j hne => mem_setWord_of_ne hne
  have hrel : Relinked (nextTable root m) (nextTable root (m.setWord t i w)) {root} TablePath 3 root q t i none :=
    { prefix_ok := TablePath.of_append, depth := TablePath.length, sep := h.separated, table := ht
      table_depth := hqlen, slot_ok := by rw [hq]; exact hugePath_ok giga virt
      link := by
        unfold nextTable
        rw [if_neg]
        rintro (he | he)
        · exact htroot he
        · rw [hword, hhuge] at he
          cases he
      others := fun r p u _ _ j hne => nextTable_eq (hother u j hne)
      single := by simp }
  have hiff : ∀ {p u}, Table root (m.setWord t i w) p u → Table root m p u := by
    intro p u hu
    rcases hrel.at_iff.1 hu with ⟨hold, -⟩ | ⟨-, -, hg⟩
    · exact hold
    · cases hg
  obtain ⟨pins, hinv, hpins⟩ := h.live
  refine ⟨⟨hrel.separated (by simp) (by simp), pins, inv_empty_withMem hinv, fun hu => hpins (hiff hu)⟩, hiff,
    fun v hv => ?_, fun v hv => ?_⟩
  · refine translate_congr fun q' j u hpre hu => hother u j ?_
    rintro ⟨rfl, rfl⟩
    obtain ⟨-, rfl⟩ := h.separated hu ht hqlen
    rw [hq] at hpre
    exact hv (hugePath_eq_iff.1 hpre)
  · have hroot : ∀ a, follow (m.setWord t i w) root a = follow m root a :=
      fun a => follow_eq (hother root a fun hc => htroot hc.1.symm)
    have hslot : follow (m.setWord t i w) t i = some (frame w) := follow_some.2 ⟨by rw [hword]; exact hpres, by rw [hword]⟩
    cases giga with
    | true =>
      obtain ⟨rfl, hi⟩ := List.append_inj' (hq.trans hv.symm : q ++ [i] = [pml4Idx v] ++ [pdptIdx v]) rfl
      obtain rfl := (List.cons.inj hi).1
      unfold Vmm.translate
      simp only [bind, hroot, follow_of_table ht, Option.bind_some, hslot, hword, hhuge, if_true]
      rfl
    | false =>
      obtain ⟨rfl, hi⟩ := List.append_inj' (hq.trans hv.symm : q ++ [i] = [pml4Idx v, pdptIdx v] ++ [pdIdx v]) rfl
      obtain rfl := (List.cons.inj hi).1
      obtain ⟨pdpt, hpdpt, hf₁, hf₂, hs₂⟩ := h.follow_of_table₂ ht
      have hne₂ : pdpt ≠ t := by
        rintro rfl
        obtain ⟨-, he⟩ := h.separated hpdpt ht (by simp)
        simp at he
      have hw₂ : (m.setWord t (pdIdx v) w).mem pdpt (pdptIdx v) = m.mem pdpt (pdptIdx v) := hother _ _ fun hc => hne₂ hc.1
      unfold Vmm.translate
      simp only [bind, hroot, hf₁, Option.bind_some, follow_eq hw₂, hf₂, hw₂, hs₂, Bool.false_eq_true, if_false, hslot, hword,
        hhuge, if_true]
      rfl

/-! ## Adding a table -/

/-- The outcomes of `ensureTable`, word by word. -/
inductive Ensured (pins : Nat → Nat) (m : Machine) (t i : Nat) : Option Nat × Machine → Prop
  | found (hpres : isPresent (m.mem t i) = true) : Ensured pins m t i (some (frame (m.mem t i)), m)
  | outOfMemory {m' : Machine} (habs : isPresent (m.mem t i) = false) (hmem : m'.mem = m.mem)
      (hinv : Space.Inv ∅ pins m') : Ensured pins m t i (none, m')
  | added {f : Nat} {m' : Machine} (habs : isPresent (m.mem t i) = false) (hpins : pins f = 0)
      (hinv : Space.Inv ∅ (pins + pin f + pin f) m') (hframe : frame (Pte.table f) = f)
      (hword : ∀ u j, u ≠ f → m'.mem u j = if u = t ∧ j = i then Pte.table f else m.mem u j)
      (hempty : t ≠ f → ∀ j, isPresent (m'.mem f j) = false) : Ensured pins m t i (some f, m')

theorem ensureTable_ensured {pins : Nat → Nat} (hinv : Space.Inv ∅ pins m) (t i : Nat) :
    Ensured pins m t i (ensureTable m t i) := by
  unfold ensureTable
  split
  · next hpres => exact .found hpres
  next hpres =>
  have habs : isPresent (m.mem t i) = false := by simpa using hpres
  have hold := mem_newTable m
  rcases hinv.newTable (D := fun _ _ => False) (E := fun _ _ => False) with ⟨hnone, hinv', -⟩ | ⟨f, hsome, hfresh, -⟩
  · rcases hnew : newTable m with ⟨o, m₁⟩
    rw [hnew] at hnone hinv' hold
    cases hnone
    exact .outOfMemory habs (funext fun u => hold u nofun) hinv'
  · rcases hnew : newTable m with ⟨o, m₁⟩
    rw [hnew] at hsome hfresh hold
    cases hsome
    refine .added habs hfresh.unpinned (inv_empty_withMem hfresh.inv)
      (Space.frame_table hfresh.inv (hfresh.inv.pin_inRange).2) (fun u j hu => ?_) fun htf j => ?_
    · split
      · next he =>
        rw [he.1, he.2]
        simp [Machine.setWord]
      · next he => rw [mem_setWord_of_ne he, hold u fun hc => hu (Option.some.inj hc).symm]
    · rw [mem_setWord_of_ne fun hc => htf hc.1.symm]
      exact hfresh.empty j

theorem table_of_added (hf : ∀ p, ¬ Table root m p f) (hframe : frame (Pte.table f) = f)
    (hword : ∀ u j, u ≠ f → m'.mem u j = if u = t ∧ j = i then Pte.table f else m.mem u j)
    (hempty : ∀ j, isPresent (m'.mem f j) = false) (hu : Table root m' p v) : Table root m p v ∨ v = f := by
  induction p using List.reverseRecOn generalizing v with
  | nil =>
    rw [hu.unique table_root]
    exact .inl table_root
  | append_singleton p j ih =>
    obtain ⟨t', ht', hnext⟩ := hu.parent TablePath.of_append
    by_cases hf' : t' = f
    · -- the new table is empty
      subst hf'
      unfold nextTable at hnext
      rw [follow_absent (hempty j), ite_self] at hnext
      cases hnext
    have hold := (ih ht').resolve_right hf'
    by_cases hslot : t' = t ∧ j = i
    · obtain ⟨-, hv⟩ := follow_some.1 (nextTable_some hnext)
      rw [hword _ _ hf', if_pos hslot, hframe] at hv
      exact .inr hv.symm
    · have hsame : m'.mem t' j = m.mem t' j := by rw [hword _ _ hf', if_neg hslot]
      rw [nextTable_eq hsame] at hnext
      exact .inl (hold.concat hu.2.1 hnext)

/-! ## 1 GiB pages that are in use -/

structure Held (root : Nat) (m : Machine) : Prop where
  tree : Tree root m
  live : ∃ pins, Space.Inv ∅ pins m ∧ (∀ {p t}, Table root m p t → 0 < pins t) ∧
    ∀ v D, gigaLeaf root m v = some D → ∀ k < 2 ^ 18, 0 < pins (D + k)
  apart : ∀ v D, gigaLeaf root m v = some D → ∀ p, ¬ Table root m p D

/-- A step that keeps this, and the 1 GiB pages. -/
structure Keeps (root : Nat) (m m' : Machine) : Prop where
  held : Held root m'
  giga : ∀ v, gigaLeaf root m' v = gigaLeaf root m v

theorem Keeps.refl (h : Held root m) : Keeps root m m := ⟨h, fun _ => rfl⟩

theorem Keeps.trans {m'' : Machine} (h : Keeps root m m') (h' : Keeps root m' m'') : Keeps root m m'' :=
  ⟨h'.held, fun v => (h'.giga v).trans (h.giga v)⟩

theorem Held.ensureTable (h : Held root m) (ht : Table root m q t) (hslot : TablePath (q ++ [i]))
    (hsmall : q ≠ [] → isPresent (m.mem t i) = true → isHuge (m.mem t i) = false) :
    Keeps root m (Vmm.ensureTable m t i).2 := by
  obtain ⟨hext, -⟩ := ensureTable_extends h.tree ht hslot hsmall
  obtain ⟨pins, hinv, hpins, hgiga⟩ := h.live
  have hcases := ensureTable_ensured hinv t i
  generalize Vmm.ensureTable m t i = x at hext hcases
  cases hcases with
  | found => exact .refl h
  | @outOfMemory m' habs hmem hinv' =>
    have hiff : ∀ {p u}, Table root m' p u ↔ Table root m p u := table_iff fun _ u _ _ j => by rw [hmem]
    have hsame : ∀ v, gigaLeaf root m' v = gigaLeaf root m v := (Upper.of_mem hmem).gigaLeaf
    refine ⟨⟨hext.tree, ⟨pins, hinv', fun ht => hpins (hiff.1 ht), fun v D hD => hgiga v D (hsame v ▸ hD)⟩, ?_⟩, hsame⟩
    intro v D hD p hp
    exact h.apart v D (hsame v ▸ hD) p (hiff.1 hp)
  | @added f m' habs hunpinned hinv' hframe hword hempty =>
    have hnew : ∀ p, ¬ Table root m p f := by
      intro p hp
      have := hpins hp
      omega
    have htf : t ≠ f := fun he => hnew q (he ▸ ht)
    have hrf : root ≠ f := fun he => hnew [] (he ▸ table_root)
    have htables : ∀ {p u}, Table root m' p u → Table root m p u ∨ u = f :=
      fun hu => table_of_added hnew hframe hword (hempty htf) hu
    have hsame : ∀ v, gigaLeaf root m' v = gigaLeaf root m v := by
      intro v
      have hr := hword root (pml4Idx v) hrf
      by_cases hroot : root = t ∧ pml4Idx v = i
      · have hold : follow m root (pml4Idx v) = none := by
          rw [hroot.1, hroot.2]
          exact follow_absent habs
        have hnow : follow m' root (pml4Idx v) = some f := by
          rw [if_pos hroot] at hr
          exact follow_some.2 ⟨by rw [hr]; exact isPresent_make _ _, by rw [hr, hframe]⟩
        unfold gigaLeaf
        rw [hold, hnow, Option.bind_some, hempty htf, Bool.false_and]
        rfl
      · rw [if_neg hroot] at hr
        unfold gigaLeaf
        rw [follow_eq hr]
        cases hf : follow m root (pml4Idx v) with
        | none => rfl
        | some u =>
          have hu : Table root m [pml4Idx v] u := table_of_follow (Nat.mod_lt _ (by decide)) hf
          have hw := hword u (pdptIdx v) fun he => hnew _ (he ▸ hu)
          rw [Option.bind_some, Option.bind_some, hw]
          split
          · next hslot =>
            rw [hslot.1, hslot.2, habs, Bool.false_and]
            have hsmall : isHuge (Pte.table f) = false := isHuge_make _ _
            rw [hsmall, Bool.and_false]
            rfl
          · rfl
    refine ⟨⟨hext.tree, ⟨_, hinv', fun hu => ?_, fun v D hD k hk => ?_⟩, fun v D hD p hp => ?_⟩, hsame⟩
    · simp only [Pi.add_apply]
      rcases htables hu with hold | rfl
      · have := hpins hold
        omega
      · rw [Space.pin_apply, if_pos rfl]
        omega
    · have := hgiga v D (hsame v ▸ hD) k hk
      simp only [Pi.add_apply]
      omega
    · have hold : gigaLeaf root m v = some D := (hsame v).symm.trans hD
      rcases htables hp with hp | rfl
      · exact h.apart v D hold p hp
      · have := hgiga v D hold 0 (by decide)
        rw [Nat.add_zero] at this
        omega

/-! ## Mapping a huge page -/

theorem frame_make_mod (fl : Pte.Flags) (f : Nat) : frame (make fl f) = f % 2 ^ 40 := by
  have h : make fl f = make fl (f % 2 ^ 40) := by
    unfold make
    congr 2
    exact BitVec.eq_of_toNat_eq (by simp)
  rw [h, frame_make _ _ (Nat.mod_lt _ (by decide))]

/-- A huge page was mapped at `virt`. -/
structure LargeMapped (giga : Bool) (root virt f : Nat) (m m' : Machine) : Prop where
  others : ∀ v, hugePath giga v ≠ hugePath giga virt → translate m' root v = translate m root v
  page : ∀ v, hugePath giga v = hugePath giga virt →
    translate m' root v = some (f % 2 ^ 40 * pageSize + v % hugeBytes giga)

theorem LargeMapped.extend {m'' : Machine} (h : Extends root m m') (h' : LargeMapped giga root virt f m' m'') :
    LargeMapped giga root virt f m m'' :=
  ⟨fun v hv => (h'.others v hv).trans (h.same v), h'.page⟩

theorem Held.setData (h : Held root m) {i : Nat} (hD : gigaLeaf root m virt = some D) :
    Keeps root m (m.setWord D i w) := by
  have hmem : ∀ p u, Table root m p u → ∀ j, (m.setWord D i w).mem u j = m.mem u j := fun p u hu j =>
    mem_setWord_of_ne fun hc => h.apart virt D hD p (hc.1 ▸ hu)
  have hiff : ∀ {p u}, Table root (m.setWord D i w) p u ↔ Table root m p u := table_iff fun p u hu _ => hmem p u hu
  have hupper : Upper root m (m.setWord D i w) :=
    .setWord fun p u hu _ he => h.apart virt D hD p (he ▸ hu)
  have hsame : ∀ v, gigaLeaf root (m.setWord D i w) v = gigaLeaf root m v := hupper.gigaLeaf
  obtain ⟨pins, hinv, hpins, hgiga⟩ := h.live
  have hinv' : Space.Inv ∅ pins (m.setWord D i w) := inv_empty_withMem hinv
  refine ⟨⟨(Extends.of_tables h.tree hmem ⟨pins, hinv', hpins⟩).tree, ⟨pins, hinv', fun hu => hpins (hiff.1 hu),
    fun v D' hD' => hgiga v D' (hsame v ▸ hD')⟩, fun v D' hD' p hp => h.apart v D' (hsame v ▸ hD') p (hiff.1 hp)⟩, hsame⟩

theorem Held.setHuge (h : Held root m) (ht : Table root m [pml4Idx virt, pdptIdx virt] t) (hpres : isPresent w = true)
    (hhuge : isHuge w = true) : Keeps root m (m.setWord t (pdIdx virt) w) := by
  obtain ⟨htree, htables, -⟩ := setHuge_spec false virt h.tree ht rfl hpres hhuge
  have hupper : Upper root m (m.setWord t (pdIdx virt) w) := by
    refine .setWord ?_
    rintro p u hu hlen rfl
    obtain ⟨-, rfl⟩ := h.tree.separated hu ht (by simp)
    simp at hlen
  have hsame : ∀ v, gigaLeaf root (m.setWord t (pdIdx virt) w) v = gigaLeaf root m v := hupper.gigaLeaf
  obtain ⟨pins, hinv, hpins, hgiga⟩ := h.live
  refine ⟨⟨htree, ⟨pins, inv_empty_withMem hinv, fun hu => hpins (htables hu), fun v D hD => hgiga v D (hsame v ▸ hD)⟩,
    fun v D hD p hp => h.apart v D (hsame v ▸ hD) p (htables hp)⟩, hsame⟩

/-- The frame that `mapHugePage` takes for the page directory is no table above. -/
theorem Held.upper_setWord (h : Held root m) {pdpt pd : Nat} (hpdpt : follow m root (pml4Idx virt) = some pdpt)
    (hpd : follow m pdpt (pdptIdx virt) = some pd) (i : Nat) (w : Word) : Upper root m (m.setWord pd i w) := by
  have t₁ : Table root m [pml4Idx virt] pdpt := table_of_follow (Nat.mod_lt _ (by decide)) hpdpt
  obtain ⟨hpres, hframe⟩ := follow_some.1 hpd
  refine .setWord ?_
  rintro p u hu hlen rfl
  by_cases hhuge : isHuge (m.mem pdpt (pdptIdx virt)) = true
  · exact h.apart virt u (gigaLeaf_some.2 ⟨pdpt, hpdpt, hpres, hhuge, hframe⟩) p hu
  · have t₂ : Table root m [pml4Idx virt, pdptIdx virt] u :=
      t₁.concat (TablePath.of_append [_, _] [_] (tablePath_ok virt))
        ((nextTable_of_small (by simpa using hhuge)).trans hpd)
    obtain ⟨-, rfl⟩ := h.tree.separated hu t₂ (by simp)
    simp at hlen

/-- The outcome of `mapHugePage`. -/
structure HugeStep (root virt f : Nat) (m : Machine) (x : Bool × Machine) : Prop where
  keeps : Keeps root m x.2
  mapped : x.1 = true → gigaLeaf root m virt = none → LargeMapped false root virt f m x.2

/-- **`mapHugePage`** maps a 2 MiB page, unless memory runs out or the page lies in a 1 GiB page. -/
theorem mapHugePage_step (h : Held root m) (virt f : Nat) (flags : MapFlags) :
    HugeStep root virt f m (mapHugePage m root virt f flags) := by
  have hok := tablePath_ok virt
  have hok₁ : TablePath [pml4Idx virt] := TablePath.of_append [_] [_, _] hok
  have hok₂ : TablePath [pml4Idx virt, pdptIdx virt] := TablePath.of_append [_, _] [_] hok
  have hpres : isPresent (make (flags.entry true) f) = true := isPresent_make _ _
  have hhuge : isHuge (make (flags.entry true) f) = true := isHuge_make _ _
  obtain ⟨hext₁, htab₁⟩ := ensureTable_extends h.tree table_root hok₁ (fun hne => absurd rfl hne)
  have hkeep₁ : Keeps root m (ensureTable m root (pml4Idx virt)).2 :=
    h.ensureTable table_root hok₁ fun hne => absurd rfl hne
  unfold mapHugePage
  generalize ensureTable m root (pml4Idx virt) = x₁ at hext₁ htab₁ hkeep₁
  refine withTable_cases (fun _ => ⟨hkeep₁, nofun⟩) fun pdpt hpdpt => ?_
  have t₁ : Table root x₁.2 [pml4Idx virt] pdpt := htab₁ pdpt hpdpt
  have hfollow : follow x₁.2 root (pml4Idx virt) = some pdpt := by
    obtain ⟨r, hr, hnext⟩ := t₁.parent (p := []) TablePath.of_append
    rw [hr.unique table_root] at hnext
    exact nextTable_some hnext
  cases hleaf : gigaLeaf root x₁.2 virt with
  | some D =>
    -- the data frame of the 1 GiB page is taken for a page directory
    obtain ⟨pdpt', hpdpt', hpres', -, hframe⟩ := gigaLeaf_some.1 hleaf
    obtain rfl := Option.some.inj (hfollow.symm.trans hpdpt')
    have hfound : ensureTable x₁.2 pdpt (pdptIdx virt) = (some D, x₁.2) := by
      unfold ensureTable
      rw [if_pos hpres', hframe]
    rw [hfound]
    refine ⟨hkeep₁.trans (hkeep₁.held.setData hleaf), fun _ hnone => ?_⟩
    rw [hkeep₁.giga, hnone] at hleaf
    cases hleaf
  | none =>
    have hsmall : isPresent (x₁.2.mem pdpt (pdptIdx virt)) = true → isHuge (x₁.2.mem pdpt (pdptIdx virt)) = false := by
      intro hp
      by_contra hh
      have hsome := gigaLeaf_some.2 ⟨pdpt, hfollow, hp, by simpa using hh, rfl⟩
      rw [hleaf] at hsome
      cases hsome
    obtain ⟨hext₂, htab₂⟩ := ensureTable_extends hext₁.tree t₁ (i := pdptIdx virt) hok₂ fun _ => hsmall
    have hkeep₂ : Keeps root x₁.2 (ensureTable x₁.2 pdpt (pdptIdx virt)).2 :=
      hkeep₁.held.ensureTable t₁ hok₂ fun _ => hsmall
    generalize ensureTable x₁.2 pdpt (pdptIdx virt) = x₂ at hext₂ htab₂ hkeep₂
    refine withTable_cases (fun _ => ⟨hkeep₁.trans hkeep₂, nofun⟩) fun pd hpd => ?_
    have t₂ : Table root x₂.2 [pml4Idx virt, pdptIdx virt] pd := htab₂ pd hpd
    refine ⟨(hkeep₁.trans hkeep₂).trans (hkeep₂.held.setHuge t₂ hpres hhuge), fun _ _ => ?_⟩
    obtain ⟨-, -, hothers, hpage⟩ := setHuge_spec false virt hext₂.tree t₂ rfl hpres hhuge
    refine LargeMapped.extend (hext₁.trans hext₂) ⟨hothers, fun v hv => ?_⟩
    rw [hpage v hv, frame_make_mod]

/-- The outcome of `mapGigaPage`. -/
structure GigaStep (root virt f : Nat) (m : Machine) (x : Bool × Machine) : Prop where
  tree : Tree root x.2
  mapped : x.1 = true → LargeMapped true root virt f m x.2

/-- **`mapGigaPage`** maps a 1 GiB page, unless memory runs out. -/
theorem mapGigaPage_step (h : Tree root m) (virt f : Nat) (flags : MapFlags) :
    GigaStep root virt f m (mapGigaPage m root virt f flags) := by
  have hok₁ : TablePath [pml4Idx virt] := TablePath.of_append [_] [_, _] (tablePath_ok virt)
  obtain ⟨hext₁, htab₁⟩ := ensureTable_extends h table_root hok₁ (fun hne => absurd rfl hne)
  unfold mapGigaPage
  generalize ensureTable m root (pml4Idx virt) = x₁ at hext₁ htab₁
  refine withTable_cases (fun _ => ⟨hext₁.tree, nofun⟩) fun pdpt hpdpt => ?_
  have t₁ : Table root x₁.2 [pml4Idx virt] pdpt := htab₁ pdpt hpdpt
  obtain ⟨htree, -, hothers, hpage⟩ := setHuge_spec true virt (w := make (flags.entry true) f) hext₁.tree t₁ rfl
    (isPresent_make _ _) (isHuge_make _ _)
  refine ⟨htree, fun _ => LargeMapped.extend hext₁ ⟨hothers, fun v hv => ?_⟩⟩
  rw [hpage v hv, frame_make_mod]

theorem gigaLeaf_of_empty (hempty : ∀ j, isPresent (m.mem root j) = false) (v : Nat) : gigaLeaf root m v = none := by
  unfold gigaLeaf
  rw [follow_absent (hempty _)]
  rfl

theorem newTable_held {pins : Nat → Nat} (hinv : Space.Inv ∅ pins m) (hsome : (newTable m).1 = some f) :
    Held f (newTable m).2 := by
  obtain ⟨htree, hempty⟩ := newTable_tree hinv hsome
  have hnone : ∀ v, gigaLeaf f (newTable m).2 v = none := gigaLeaf_of_empty hempty
  obtain ⟨pins', hinv', hpins⟩ := htree.live
  refine ⟨htree, ⟨pins', hinv', hpins, fun v D hD => ?_⟩, fun v D hD => ?_⟩ <;>
  · rw [hnone v] at hD
    cases hD

end

end Zigix.PageMap
