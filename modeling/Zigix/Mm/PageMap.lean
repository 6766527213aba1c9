import Zigix.Mm.MapSpec

/-!
# Page tables as a partial map

One address space, kernel half included, in which huge entries may occur.

* `nextTable`, `Table` : the tables of the tree, down to the page tables; a huge entry ends the walk;
* `page_table_refines` : every sequence of calls behaves as the partial map does.
-/

namespace Zigix.PageMap

open Forest Pmm Pte Vmm
open Space (mem_setWord_of_ne follow_eq follow_some follow_absent pin)
open Fault (leafPath tablePath)

/-! ## Tables -/

/-- The table below entry `i` of `t`. Only the PML4 entry is followed whatever its size bit is. -/
def nextTable (root : Nat) (m : Machine) (t i : Nat) : Option Nat :=
  if t = root ∨ isHuge (m.mem t i) = false then follow m t i else none

def TablePath (p : List Nat) : Prop := p.length ≤ 3 ∧ ∀ i ∈ p, i < 512

abbrev Table (root : Nat) (m : Machine) (p : List Nat) (t : Nat) : Prop :=
  At (nextTable root m) {root} TablePath root p t

structure Tree (root : Nat) (m : Machine) : Prop where
  separated : Separated (nextTable root m) {root} TablePath 3
  live : ∃ pins, Space.Inv ∅ pins m ∧ ∀ {p t}, Table root m p t → 0 < pins t

/-- No entry on the way to the page table of `virt` is huge. -/
def NoHuge (root : Nat) (m : Machine) (virt : Nat) : Prop :=
  ∀ q i t, q ≠ [] → q ++ [i] <+: tablePath virt → Table root m q t → isPresent (m.mem t i) = true →
    isHuge (m.mem t i) = false

section
variable {root virt t i f : Nat} {m m' : Machine} {p q : List Nat}

theorem TablePath.of_append (p q : List Nat) (h : TablePath (p ++ q)) : TablePath p := by
  obtain ⟨hlen, hidx⟩ := h
  rw [List.length_append] at hlen
  exact ⟨by omega, fun i hi => hidx i (List.mem_append_left _ hi)⟩

theorem TablePath.length (p : List Nat) (h : TablePath p) : p.length ≤ 3 + 1 := h.1.trans (by decide)

theorem tablePath_ok (virt : Nat) : TablePath (tablePath virt) := by
  refine ⟨le_rfl, fun i hi => ?_⟩
  simp only [tablePath, List.mem_cons, List.not_mem_nil, or_false] at hi
  rcases hi with rfl | rfl | rfl <;> exact Nat.mod_lt _ (by decide)

theorem table_root : Table root m [] root := ⟨rfl, ⟨Nat.zero_le _, nofun⟩, rfl⟩

theorem Tree.ne_root (h : Tree root m) (ht : Table root m p t) (hp : p ≠ []) : t ≠ root := by
  rintro rfl
  exact hp (h.separated ht table_root (Nat.zero_le _)).2

theorem nextTable_eq (h : m'.mem t i = m.mem t i) : nextTable root m' t i = nextTable root m t i := by
  unfold nextTable
  rw [h, follow_eq h]

theorem nextTable_some (h : nextTable root m t i = some f) : follow m t i = some f := by
  unfold nextTable at h
  split at h
  · exact h
  · cases h

theorem nextTable_root (i : Nat) : nextTable root m root i = follow m root i := if_pos (.inl rfl)

theorem nextTable_of_small (h : isHuge (m.mem t i) = false) : nextTable root m t i = follow m t i := if_pos (.inr h)

/-! ## What a translation reads -/

theorem translate_congr
    (h : ∀ q i t, q ++ [i] <+: leafPath virt → Table root m q t → m'.mem t i = m.mem t i) :
    translate m' root virt = translate m root virt := by
  have hok := tablePath_ok virt
  have hread : ∀ q i s t, q ++ i :: s = leafPath virt → Table root m q t → m'.mem t i = m.mem t i :=
    fun q i s t hq ht => h q i t ⟨s, by rw [← hq]; simp⟩ ht
  have h₀ := hread [] (pml4Idx virt) _ root rfl table_root
  unfold Vmm.translate
  rw [follow_eq h₀]
  cases hpdpt : follow m root (pml4Idx virt) with
  | none => rfl
  | some pdpt =>
    have t₁ : Table root m [pml4Idx virt] pdpt :=
      table_root.concat (TablePath.of_append _ _ hok) ((nextTable_root _).trans hpdpt)
    have h₁ := hread [pml4Idx virt] (pdptIdx virt) _ pdpt rfl t₁
    simp only [bind, Option.bind_some]
    rw [follow_eq h₁, h₁]
    cases hpd : follow m pdpt (pdptIdx virt) with
    | none => rfl
    | some pd =>
      simp only [Option.bind_some]
      by_cases hgiga : isHuge (m.mem pdpt (pdptIdx virt)) = true
      · rw [if_pos hgiga, if_pos hgiga]
      rw [if_neg hgiga, if_neg hgiga]
      have t₂ : Table root m [pml4Idx virt, pdptIdx virt] pd :=
        t₁.concat (TablePath.of_append [_, _] _ hok) ((nextTable_of_small (by simpa using hgiga)).trans hpd)
      have h₂ := hread [pml4Idx virt, pdptIdx virt] (pdIdx virt) _ pd rfl t₂
      rw [follow_eq h₂, h₂]
      cases hpt : follow m pd (pdIdx virt) with
      | none => rfl
      | some pt =>
        simp only [Option.bind_some]
        by_cases hhuge : isHuge (m.mem pd (pdIdx virt)) = true
        · rw [if_pos hhuge, if_pos hhuge]
        rw [if_neg hhuge, if_neg hhuge]
        have t₃ : Table root m (tablePath virt) pt :=
          t₂.concat hok ((nextTable_of_small (by simpa using hhuge)).trans hpt)
        rw [follow_eq (hread (tablePath virt) (ptIdx virt) [] pt rfl t₃)]

theorem Tree.small (h : Tree root m) (ht : Table root m p t) (hp : p ≠ []) (hnext : nextTable root m t i = some f) :
    isHuge (m.mem t i) = false := by
  unfold nextTable at hnext
  split at hnext
  · rename_i hcond
    exact hcond.resolve_left (h.ne_root ht hp)
  · cases hnext

theorem follow_of_table (ht : Table root m [i] t) : follow m root i = some t := by
  obtain ⟨r, hr, hnext⟩ := ht.parent (p := []) TablePath.of_append
  rw [hr.unique table_root] at hnext
  exact nextTable_some hnext

theorem Tree.follow_of_table₂ (h : Tree root m) {a b : Nat} (ht : Table root m [a, b] t) :
    ∃ pdpt, Table root m [a] pdpt ∧ follow m root a = some pdpt ∧ follow m pdpt b = some t ∧ isHuge (m.mem pdpt b) = false := by
  obtain ⟨pdpt, hpdpt, hnext⟩ := ht.parent (p := [a]) TablePath.of_append
  exact ⟨pdpt, hpdpt, follow_of_table hpdpt, nextTable_some hnext, h.small hpdpt (List.cons_ne_nil _ _) hnext⟩

theorem table_of_follow {a : Nat} (ha : a < 512) (hf : follow m root a = some t) : Table root m [a] t :=
  table_root.concat ⟨by simp, by simpa using ha⟩ ((nextTable_root a).trans hf)

theorem NoHuge.table₂ (hn : NoHuge root m virt) {pdpt pd : Nat} (ht : Table root m [pml4Idx virt] pdpt)
    (hpd : follow m pdpt (pdptIdx virt) = some pd) :
    isHuge (m.mem pdpt (pdptIdx virt)) = false ∧ Table root m [pml4Idx virt, pdptIdx virt] pd := by
  have hsmall := hn [pml4Idx virt] (pdptIdx virt) pdpt (List.cons_ne_nil _ _) ⟨[pdIdx virt], rfl⟩ ht (follow_some.1 hpd).1
  exact ⟨hsmall, ht.concat (TablePath.of_append [_, _] _ (tablePath_ok virt)) ((nextTable_of_small hsmall).trans hpd)⟩

theorem NoHuge.table₃ (hn : NoHuge root m virt) {pd pt : Nat} (ht : Table root m [pml4Idx virt, pdptIdx virt] pd)
    (hpt : follow m pd (pdIdx virt) = some pt) :
    isHuge (m.mem pd (pdIdx virt)) = false ∧ Table root m (tablePath virt) pt := by
  have hsmall := hn [pml4Idx virt, pdptIdx virt] (pdIdx virt) pd (List.cons_ne_nil _ _) ⟨[], rfl⟩ ht (follow_some.1 hpt).1
  exact ⟨hsmall, ht.concat (tablePath_ok virt) ((nextTable_of_small hsmall).trans hpt)⟩

theorem translate_of_table (h : Tree root m) (ht : Table root m (tablePath virt) t) :
    translate m root virt = (follow m t (ptIdx virt)).map fun page => page * pageSize + virt % 2 ^ 12 := by
  obtain ⟨pd, hpd, hnext₃⟩ := ht.parent (p := [pml4Idx virt, pdptIdx virt]) TablePath.of_append
  obtain ⟨pdpt, -, hf₁, hf₂, hs₂⟩ := h.follow_of_table₂ hpd
  have hs₃ := h.small hpd (List.cons_ne_nil _ _) hnext₃
  unfold Vmm.translate
  simp only [bind, hf₁, hf₂, nextTable_some hnext₃, Option.bind_some, hs₂, hs₃, Bool.false_eq_true, if_false]
  cases follow m t (ptIdx virt) <;> rfl

theorem translate_of_no_table (hn : NoHuge root m virt) (hno : ∀ t, ¬ Table root m (tablePath virt) t) :
    translate m root virt = none := by
  unfold Vmm.translate
  cases hpdpt : follow m root (pml4Idx virt) with
  | none => rfl
  | some pdpt =>
    simp only [bind, Option.bind_some]
    cases hpd : follow m pdpt (pdptIdx virt) with
    | none => rfl
    | some pd =>
      obtain ⟨hs₁, t₂⟩ := hn.table₂ (table_of_follow (Nat.mod_lt _ (by decide)) hpdpt) hpd
      simp only [Option.bind_some, hs₁, Bool.false_eq_true, if_false]
      cases hpt : follow m pd (pdIdx virt) with
      | none => rfl
      | some pt =>
        exact absurd (hn.table₃ t₂ hpt).2 (hno pt)

theorem translate_of_absent (h : Tree root m) (ht : Table root m q t) (hq : q ++ [i] <+: leafPath virt)
    (habs : isPresent (m.mem t i) = false) : translate m root virt = none := by
  have hnone := follow_absent habs
  obtain ⟨s, hs⟩ := hq
  have hlen := congrArg List.length hs
  simp only [List.length_append, List.length_singleton, Fault.leafPath_length] at hlen
  simp only [leafPath, tablePath] at hs
  rcases q with - | ⟨i₀, - | ⟨i₁, - | ⟨i₂, - | ⟨i₃, q⟩⟩⟩⟩
  · simp only [List.cons_append, List.nil_append, List.cons.injEq] at hs
    obtain ⟨rfl, -⟩ := hs
    rw [ht.unique table_root] at hnone
    unfold Vmm.translate
    rw [hnone]
    rfl
  · simp only [List.cons_append, List.nil_append, List.cons.injEq] at hs
    obtain ⟨rfl, rfl, -⟩ := hs
    unfold Vmm.translate
    simp only [bind, follow_of_table ht, Option.bind_some, hnone, Option.bind_none]
  · simp only [List.cons_append, List.nil_append, List.cons.injEq] at hs
    obtain ⟨rfl, rfl, rfl, -⟩ := hs
    obtain ⟨pdpt, -, hf₁, hf₂, hs₂⟩ := h.follow_of_table₂ ht
    unfold Vmm.translate
    simp only [bind, hf₁, hf₂, Option.bind_some, hs₂, hnone, Bool.false_eq_true, if_false, Option.bind_none]
  · simp only [List.cons_append, List.nil_append, List.cons.injEq] at hs
    obtain ⟨rfl, rfl, rfl, rfl, -⟩ := hs
    rw [translate_of_table h ht, hnone]
    rfl
  · simp only [List.length_cons] at hlen
    omega

/-! ## Memory outside the upper tables -/

/-- Where only memory outside the tables above the last level changes, the tables are the same. -/
theorem table_iff (h : ∀ q u, Table root m q u → q.length ≤ 2 → ∀ j, m'.mem u j = m.mem u j) :
    Table root m' p t ↔ Table root m p t :=
  at_eq_of_tables TablePath.of_append (fun _ hp => hp.1) fun r q u hu hlen j => by
    obtain rfl : r = root := hu.1
    exact nextTable_eq (h q u hu hlen j)

theorem Tree.of_table_iff (h : Tree root m) (hiff : ∀ {p t}, Table root m' p t ↔ Table root m p t)
    (hlive : ∃ pins, Space.Inv ∅ pins m' ∧ ∀ {p t}, Table root m p t → 0 < pins t) : Tree root m' := by
  refine ⟨fun {r p f r' p'} ha ha' hlen => ?_, ?_⟩
  · obtain rfl : r = root := ha.1
    obtain rfl : r' = r := ha'.1
    exact h.separated (hiff.1 ha) (hiff.1 ha') hlen
  · obtain ⟨pins, hinv, hpins⟩ := hlive
    exact ⟨pins, hinv, fun ht => hpins (hiff.1 ht)⟩

theorem inv_empty_withMem {pins : Nat → Nat} {mem : Nat → Nat → Word} (h : Space.Inv ∅ pins m) :
    Space.Inv ∅ pins { m with mem := mem } := h.withMem fun hn => absurd hn.1 (Set.notMem_empty _)

end

/-! ## Adding tables -/

structure Extends (root : Nat) (m m' : Machine) : Prop where
  tree : Tree root m'
  same : ∀ virt, translate m' root virt = translate m root virt
  noHuge : ∀ virt, NoHuge root m virt → NoHuge root m' virt

section
variable {root virt t i f : Nat} {m m' m'' : Machine} {p q : List Nat}

theorem Extends.refl (h : Tree root m) : Extends root m m := ⟨h, fun _ => rfl, fun _ hn => hn⟩

theorem Extends.trans (h : Extends root m m') (h' : Extends root m' m'') : Extends root m m'' :=
  ⟨h'.tree, fun v => (h'.same v).trans (h.same v), fun v hn => h'.noHuge v (h.noHuge v hn)⟩

theorem Extends.of_tables (h : Tree root m) (hmem : ∀ q u, Table root m q u → ∀ j, m'.mem u j = m.mem u j)
    (hlive : ∃ pins, Space.Inv ∅ pins m' ∧ ∀ {p t}, Table root m p t → 0 < pins t) : Extends root m m' := by
  have hiff : ∀ {p t}, Table root m' p t ↔ Table root m p t := table_iff fun q u hu _ => hmem q u hu
  refine ⟨h.of_table_iff hiff hlive, fun v => translate_congr fun q i t _ ht => hmem q t ht i, ?_⟩
  intro v hn q i t hq hpre ht
  have ht := hiff.1 ht
  rw [hmem q t ht]
  exact hn q i t hq hpre ht

section Link
variable {pins : Nat → Nat} (h : Tree root m) (hinv : Space.Inv ∅ pins m) (hpins : 0 < pins f)
  (hfresh : ∀ p, ¬ Table root m p f) (hempty : ∀ j, isPresent (m.mem f j) = false) (ht : Table root m q t)
  (hslot : TablePath (q ++ [i]))
include h hinv hpins hfresh hempty ht hslot

theorem relinked_table :
    Relinked (nextTable root m) (nextTable root (m.setWord t i (Pte.table f))) {root} TablePath 3 root q t i (some f) := by
  have hlen := hslot.1
  simp only [List.length_append, List.length_singleton] at hlen
  have hframe : frame (Pte.table f) = f := Space.frame_table hinv (hinv.pinned hpins).2
  have hword : (m.setWord t i (Pte.table f)).mem t i = Pte.table f := by simp [Machine.setWord]
  have hother : ∀ u j, ¬ (u = t ∧ j = i) → (m.setWord t i (Pte.table f)).mem u j = m.mem u j :=
    fun u j hne => mem_setWord_of_ne hne
  have htf : f ≠ t := fun he => hfresh q (he ▸ ht)
  exact
    { prefix_ok := TablePath.of_append, depth := TablePath.length, sep := h.separated, table := ht
      table_depth := by omega, slot_ok := hslot
      link := by
        rw [nextTable_of_small (by rw [hword]; exact isHuge_make _ _)]
        exact follow_some.2 ⟨by rw [hword]; exact isPresent_make _ _, by rw [hword, hframe]⟩
      others := fun r p u _ _ j hne => nextTable_eq (hother u j hne)
      single := by
        intro g hg _ j
        obtain rfl := Option.some.inj hg
        unfold nextTable
        rw [follow_absent (by rw [hother f j fun hc => htf hc.1]; exact hempty j), ite_self] }

theorem Extends.link (hall : ∀ {p t}, Table root m p t → 0 < pins t) (habs : isPresent (m.mem t i) = false) :
    Extends root m (m.setWord t i (Pte.table f)) ∧ Table root (m.setWord t i (Pte.table f)) (q ++ [i]) f ∧
      ∀ {p u}, Table root (m.setWord t i (Pte.table f)) p u → Table root m p u ∨ u = f := by
  have hlen : q.length < 3 := by
    have := hslot.1
    simp only [List.length_append, List.length_singleton] at this
    omega
  have hword : (m.setWord t i (Pte.table f)).mem t i = Pte.table f := by simp [Machine.setWord]
  have hother : ∀ u j, ¬ (u = t ∧ j = i) → (m.setWord t i (Pte.table f)).mem u j = m.mem u j :=
    fun u j hne => mem_setWord_of_ne hne
  have htf : f ≠ t := fun he => hfresh q (he ▸ ht)
  have hempty' : ∀ j, isPresent ((m.setWord t i (Pte.table f)).mem f j) = false := by
    intro j
    rw [hother f j fun hc => htf hc.1]
    exact hempty j
  have hrel := relinked_table h hinv hpins hfresh hempty ht hslot
  have htable : Table root (m.setWord t i (Pte.table f)) (q ++ [i]) f := hrel.at_iff.2 (.inr ⟨rfl, rfl, rfl⟩)
  have hold : ∀ {p u}, Table root (m.setWord t i (Pte.table f)) p u → Table root m p u ∨ u = f := by
    intro p u hu
    rcases hrel.at_iff.1 hu with ⟨hold, -⟩ | ⟨-, -, hg⟩
    · exact .inl hold
    · exact .inr (Option.some.inj hg).symm
  have htree : Tree root (m.setWord t i (Pte.table f)) := by
    refine ⟨hrel.separated (fun g hg r p ha => ?_) (fun g hg _ r p ha => ?_), pins, inv_empty_withMem hinv, ?_⟩
    · obtain rfl := Option.some.inj hg
      obtain rfl : r = root := ha.1
      exact absurd ha (hfresh p)
    · obtain rfl := Option.some.inj hg
      obtain rfl : r = root := ha.1
      exact hfresh p ha
    · intro p u hu
      rcases hold hu with hu | rfl
      · exact hall hu
      · exact hpins
  refine ⟨⟨htree, fun v => ?_, fun v hn => ?_⟩, htable, hold⟩
  · by_cases hv : q ++ [i] <+: leafPath v
    · -- the page was not mapped, and the new table has no entry for it
      obtain ⟨j, hj⟩ : ∃ j, q ++ [i] ++ [j] <+: leafPath v := by
        obtain ⟨s, hs⟩ := hv
        have hs' := congrArg List.length hs
        simp only [List.length_append, List.length_singleton, Fault.leafPath_length] at hs'
        cases s with
        | nil =>
          simp only [List.length_nil] at hs'
          omega
        | cons j s => exact ⟨j, s, by rw [← hs]; simp⟩
      rw [translate_of_absent h ht hv habs, translate_of_absent htree htable hj (hempty' j)]
    · refine translate_congr fun p j u hp hu => hother u j ?_
      rintro ⟨rfl, rfl⟩
      obtain ⟨-, rfl⟩ := h.separated hu ht hlen.le
      exact hv hp
  · intro p j u hp hpre hu hpres
    by_cases hslot' : u = t ∧ j = i
    · obtain ⟨rfl, rfl⟩ := hslot'
      rw [hword]
      exact isHuge_make _ _
    · rcases hold hu with hu | rfl
      · rw [hother u j hslot'] at hpres ⊢
        exact hn p j u hp hpre hu hpres
      · rw [hempty' j] at hpres
        cases hpres

end Link

/-! ## The references of the tables -/

/-- A tree whose tables have references among `pins`. -/
structure Pinned (root : Nat) (pins : Nat → Nat) (m : Machine) : Prop where
  separated : Separated (nextTable root m) {root} TablePath 3
  inv : Space.Inv ∅ pins m
  tables : ∀ {p t}, Table root m p t → 0 < pins t

theorem Pinned.tree {pins : Nat → Nat} (h : Pinned root pins m) : Tree root m := ⟨h.separated, pins, h.inv, h.tables⟩

theorem Tree.pinned (h : Tree root m) : ∃ pins, Pinned root pins m := by
  obtain ⟨pins, hinv, htables⟩ := h.live
  exact ⟨pins, h.separated, hinv, htables⟩

structure Added (root : Nat) (pins pins' : Nat → Nat) (m m' : Machine) : Prop where
  pinned : Pinned root pins' m'
  same : Extends root m m'
  kept : ∀ f, 0 < pins f → pins' f = pins f
  unused : ∀ {p t}, Table root m' p t → Table root m p t ∨ pins t = 0
  data : ∀ f, 0 < pins f → (∀ p, ¬ Table root m p f) → m'.mem f = m.mem f

section
variable {pins pins' pins'' : Nat → Nat}

theorem Added.refl (h : Pinned root pins m) : Added root pins pins m m :=
  ⟨h, .refl h.tree, fun _ _ => rfl, .inl, fun _ _ _ => rfl⟩

theorem Added.trans (h : Added root pins pins' m m') (h' : Added root pins' pins'' m' m'') :
    Added root pins pins'' m m'' where
  pinned := h'.pinned
  same := h.same.trans h'.same
  kept f hf := by
    have hkept := h.kept f hf
    rw [h'.kept f (by omega), hkept]
  unused ht := by
    rcases h'.unused ht with ht | hzero
    · exact h.unused ht
    · refine .inr (by_contra fun hpos => ?_)
      have hkept := h.kept _ (Nat.pos_of_ne_zero hpos)
      omega
  data f hf hn := by
    have hkept := h.kept f hf
    refine (h'.data f (by omega) fun p hp => ?_).trans (h.data f hf hn)
    rcases h.unused hp with hold | hzero
    · exact hn p hold
    · omega

theorem ensureTable_added (h : Pinned root pins m) (ht : Table root m q t) (hslot : TablePath (q ++ [i]))
    (hsmall : q ≠ [] → isPresent (m.mem t i) = true → isHuge (m.mem t i) = false) :
    ∃ pins', Added root pins pins' m (ensureTable m t i).2 ∧
      ∀ f, (ensureTable m t i).1 = some f → Table root (ensureTable m t i).2 (q ++ [i]) f := by
  unfold ensureTable
  split
  · next hpres =>
    refine ⟨pins, .refl h, fun f hf => ht.concat hslot ?_⟩
    have hfollow : follow m t i = some f := follow_some.2 ⟨hpres, Option.some.inj hf⟩
    by_cases hq : q = []
    · subst hq
      rw [ht.unique table_root] at hfollow ⊢
      exact (nextTable_root i).trans hfollow
    · exact (nextTable_of_small (hsmall hq hpres)).trans hfollow
  next hpres =>
  have habs : isPresent (m.mem t i) = false := by simpa using hpres
  have hold := mem_newTable m
  rcases h.inv.newTable (D := fun _ _ => False) (E := fun _ _ => False) with ⟨hnone, hinv', -⟩ | ⟨f, hsome, hfresh, -⟩
  · rcases hnew : newTable m with ⟨o, m₁⟩
    rw [hnew] at hnone hinv' hold
    cases hnone
    have hmem : ∀ u, m₁.mem u = m.mem u := fun u => hold u nofun
    have hext : Extends root m m₁ := .of_tables h.tree (fun q u _ j => by rw [hmem]) ⟨pins, hinv', h.tables⟩
    have hiff : ∀ {p t}, Table root m₁ p t ↔ Table root m p t := table_iff fun q u _ _ j => by rw [hmem]
    exact ⟨pins, ⟨⟨hext.tree.separated, hinv', fun ht => h.tables (hiff.1 ht)⟩, hext, fun _ _ => rfl,
      fun ht => .inl (hiff.1 ht), fun f _ _ => hmem f⟩, nofun⟩
  · rcases hnew : newTable m with ⟨o, m₁⟩
    rw [hnew] at hsome hfresh hold
    cases hsome
    have hunused : ∀ p, ¬ Table root m p f := by
      intro p hp
      have := h.tables hp
      rw [hfresh.unpinned] at this
      omega
    have hmem : ∀ u, 0 < pins u → m₁.mem u = m.mem u := by
      intro u hu
      refine hold u fun he => ?_
      rw [← Option.some.inj he, hfresh.unpinned] at hu
      omega
    have hmore : ∀ {p t}, Table root m p t → 0 < (pins + pin f + pin f) t := by
      intro p t ht
      have := h.tables ht
      simp only [Pi.add_apply]
      omega
    have hext : Extends root m m₁ := .of_tables h.tree (fun q u hu j => by rw [hmem u (h.tables hu)]) ⟨_, hfresh.inv, hmore⟩
    have hiff : ∀ {p t}, Table root m₁ p t ↔ Table root m p t :=
      table_iff fun q u hu _ j => by rw [hmem u (h.tables hu)]
    obtain ⟨hlink, htable, hback⟩ := Extends.link hext.tree hfresh.inv (by simp) (fun p hp => hunused p (hiff.1 hp))
      hfresh.empty (hiff.2 ht) hslot (fun ht => hmore (hiff.1 ht)) (by rw [hmem t (h.tables ht)]; exact habs)
    have hold' : ∀ {p u}, Table root (m₁.setWord t i (Pte.table f)) p u → Table root m p u ∨ u = f :=
      fun hu => (hback hu).imp_left hiff.1
    refine ⟨_, ⟨⟨hlink.tree.separated, inv_empty_withMem hfresh.inv, fun {p u} hu => ?_⟩, hext.trans hlink,
      fun g hg => ?_, fun hu => (hold' hu).imp_right ?_, fun g hg hn => ?_⟩, fun g hg => ?_⟩
    · rcases hold' hu with hu | rfl
      · exact hmore hu
      · simp
    · have hne : g ≠ f := by
        rintro rfl
        rw [hfresh.unpinned] at hg
        omega
      simp [hne]
    · rintro rfl
      exact hfresh.unpinned
    · funext j
      rw [mem_setWord_of_ne (by rintro ⟨rfl, -⟩; exact hn q ht), hmem g hg]
    · obtain rfl := Option.some.inj hg
      exact htable

end

/-- **`ensureTable`** finds or adds a table; no translation changes, also when there is no memory for one. -/
theorem ensureTable_extends (h : Tree root m) (ht : Table root m q t) (hslot : TablePath (q ++ [i]))
    (hsmall : q ≠ [] → isPresent (m.mem t i) = true → isHuge (m.mem t i) = false) :
    Extends root m (ensureTable m t i).2 ∧
      ∀ f, (ensureTable m t i).1 = some f → Table root (ensureTable m t i).2 (q ++ [i]) f := by
  obtain ⟨pins, hpinned⟩ := h.pinned
  obtain ⟨pins', hadded, htable⟩ := ensureTable_added hpinned ht hslot hsmall
  exact ⟨hadded.same, htable⟩

/-! ## Writing a leaf -/

def pageNumber (virt : Nat) : Fin (2 ^ 36) := ⟨virt / pageSize % 2 ^ 36, Nat.mod_lt _ (by decide)⟩

theorem leafPath_eq_iff {v w : Nat} : leafPath v = leafPath w ↔ pageNumber v = pageNumber w := by
  simp only [leafPath, tablePath, List.cons_append, List.nil_append, List.cons.injEq, and_true, pml4Idx, pdptIdx, pdIdx,
    ptIdx, pageNumber, pageSize, Fin.mk.injEq]
  omega

theorem setLeaf_table_iff (h : Tree root m) (ht : Table root m (tablePath virt) t) (w : Word) {u : Nat} :
    (q.length ≤ 2 → Table root m q u → ∀ j, (m.setWord t (ptIdx virt) w).mem u j = m.mem u j) ∧
      (Table root (m.setWord t (ptIdx virt) w) q u ↔ Table root m q u) := by
  have hupper : ∀ q u, Table root m q u → q.length ≤ 2 → ∀ j, (m.setWord t (ptIdx virt) w).mem u j = m.mem u j := by
    intro q u hu hlen j
    refine mem_setWord_of_ne ?_
    rintro ⟨rfl, -⟩
    obtain ⟨-, rfl⟩ := h.separated hu ht le_rfl
    simp [tablePath] at hlen
  exact ⟨fun hlen hu => hupper q u hu hlen, table_iff hupper⟩

theorem setLeaf_spec (h : Tree root m) (ht : Table root m (tablePath virt) t) (w : Word) :
    Tree root (m.setWord t (ptIdx virt) w) ∧
      (∀ v, NoHuge root m v → NoHuge root (m.setWord t (ptIdx virt) w) v) ∧
      (∀ v, pageNumber v ≠ pageNumber virt →
        translate (m.setWord t (ptIdx virt) w) root v = translate m root v) ∧
      ∀ v, pageNumber v = pageNumber virt → translate (m.setWord t (ptIdx virt) w) root v =
        if isPresent w then some (frame w * pageSize + v % pageSize) else none := by
  have hupper : ∀ q u, Table root m q u → q.length ≤ 2 → ∀ j, (m.setWord t (ptIdx virt) w).mem u j = m.mem u j :=
    fun q u hu hlen => (setLeaf_table_iff h ht w).1 hlen hu
  have hiff : ∀ {p u}, Table root (m.setWord t (ptIdx virt) w) p u ↔ Table root m p u := (setLeaf_table_iff h ht w).2
  obtain ⟨pins, hinv, hpins⟩ := h.live
  have htree : Tree root (m.setWord t (ptIdx virt) w) :=
    h.of_table_iff hiff ⟨pins, inv_empty_withMem hinv, hpins⟩
  refine ⟨htree, ?_, fun v hv => ?_, fun v hv => ?_⟩
  · intro v hn q i u hq hpre hu hpres
    have hu := hiff.1 hu
    have hlen := hpre.length_le
    simp only [tablePath, List.length_append, List.length_cons, List.length_nil] at hlen
    rw [hupper q u hu (by omega)] at hpres ⊢
    exact hn q i u hq hpre hu hpres
  · refine translate_congr fun q i u hpre hu => mem_setWord_of_ne ?_
    rintro ⟨rfl, rfl⟩
    obtain ⟨-, rfl⟩ := h.separated hu ht le_rfl
    have heq : leafPath virt = leafPath v := hpre.eq_of_length rfl
    exact hv (leafPath_eq_iff.1 heq.symm)
  · have hpath := leafPath_eq_iff.2 hv
    obtain ⟨htable, hidx⟩ := List.append_inj' hpath rfl
    have hidx : ptIdx v = ptIdx virt := (List.cons.inj hidx).1
    have hword : (m.setWord t (ptIdx virt) w).mem t (ptIdx virt) = w := by simp [Machine.setWord]
    have ht' : Table root (m.setWord t (ptIdx virt) w) (tablePath v) t := by
      rw [htable]
      exact hiff.2 ht
    rw [translate_of_table htree ht', hidx]
    unfold follow
    rw [hword]
    split <;> rfl

/-! ## Mapping and unmapping -/

/-- What a call leaves: the tree, and translations that differ on the page of `virt` only, where they are `entry`. -/
structure Changes (root virt : Nat) (entry : Option Nat) (m m' : Machine) : Prop where
  tree : Tree root m'
  noHuge : ∀ v, NoHuge root m v → NoHuge root m' v
  others : ∀ v, pageNumber v ≠ pageNumber virt → translate m' root v = translate m root v
  page : ∀ v, pageNumber v = pageNumber virt →
    translate m' root v = entry.map fun f => f * pageSize + v % pageSize

theorem Changes.extend {entry : Option Nat} (h : Extends root m m') (h' : Changes root virt entry m' m'') :
    Changes root virt entry m m'' :=
  ⟨h'.tree, fun v hn => h'.noHuge v (h.noHuge v hn), fun v hv => (h'.others v hv).trans (h.same v), h'.page⟩

theorem withTable_cases {x : Option Nat × Machine} {k : Nat → Machine → Bool × Machine} {P : Bool × Machine → Prop}
    (hnone : x.1 = none → P (false, x.2)) (hsome : ∀ t, x.1 = some t → P (k t x.2)) : P (withTable x k) := by
  rcases x with ⟨- | t, m⟩
  · exact hnone rfl
  · exact hsome t rfl

/-- The outcomes of `mapPage`. -/
inductive Mapping (root virt frame : Nat) (m : Machine) : Bool × Machine → Prop
  | outOfMemory {m' : Machine} : Extends root m m' → Mapping root virt frame m (false, m')
  | done {m' : Machine} : Changes root virt (some frame) m m' → Mapping root virt frame m (true, m')

/-- `mapPage` adds the tables that are missing and then writes the entry. -/
inductive Walked (root virt : Nat) (pins : Nat → Nat) (w : Word) (m : Machine) : Bool × Machine → Prop
  | outOfMemory {pins' : Nat → Nat} {m' : Machine} (added : Added root pins pins' m m') :
      Walked root virt pins w m (false, m')
  | leaf {pins' : Nat → Nat} {m' : Machine} {t : Nat} (added : Added root pins pins' m m')
      (table : Table root m' (tablePath virt) t) : Walked root virt pins w m (true, m'.setWord t (ptIdx virt) w)

theorem mapPage_walked {pins : Nat → Nat} {frame : Nat} {flags : MapFlags} (h : Pinned root pins m)
    (hn : NoHuge root m virt) :
    Walked root virt pins (make (flags.entry false) frame) m (mapPage m root virt frame flags) := by
  have hok := tablePath_ok virt
  have hpre : ∀ q i s, q ++ i :: s = tablePath virt → q ++ [i] <+: tablePath virt :=
    fun q i s hq => ⟨s, by rw [← hq]; simp⟩
  obtain ⟨pins₁, hadd₁, htab₁⟩ := ensureTable_added h table_root (i := pml4Idx virt) (TablePath.of_append _ _ hok)
    (fun hne => absurd rfl hne)
  unfold mapPage
  refine withTable_cases (fun _ => .outOfMemory hadd₁) fun pdpt hpdpt => ?_
  have hn₁ := hadd₁.same.noHuge virt hn
  have t₁ : Table root _ [pml4Idx virt] pdpt := htab₁ pdpt hpdpt
  obtain ⟨pins₂, hadd₂, htab₂⟩ := ensureTable_added hadd₁.pinned t₁ (i := pdptIdx virt)
    (TablePath.of_append [_, _] _ hok)
    (fun hne => hn₁ _ _ _ hne (hpre [pml4Idx virt] (pdptIdx virt) _ rfl) t₁)
  refine withTable_cases (fun _ => .outOfMemory (hadd₁.trans hadd₂)) fun pd hpd => ?_
  have hn₂ := hadd₂.same.noHuge virt hn₁
  have t₂ : Table root _ [pml4Idx virt, pdptIdx virt] pd := htab₂ pd hpd
  obtain ⟨pins₃, hadd₃, htab₃⟩ := ensureTable_added hadd₂.pinned t₂ (i := pdIdx virt) hok
    (fun hne => hn₂ _ _ _ hne (hpre [pml4Idx virt, pdptIdx virt] (pdIdx virt) _ rfl) t₂)
  have hadd := (hadd₁.trans hadd₂).trans hadd₃
  refine withTable_cases (fun _ => .outOfMemory hadd) fun pt hpt => ?_
  exact .leaf hadd (htab₃ pt hpt)

theorem mapPage_spec {frame : Nat} {flags : MapFlags} (h : Tree root m) (hn : NoHuge root m virt)
    (hf : frame < 2 ^ 40) : Mapping root virt frame m (mapPage m root virt frame flags) := by
  obtain ⟨pins, hpinned⟩ := h.pinned
  have hwalked : Walked root virt pins (make (flags.entry false) frame) m (mapPage m root virt frame flags) :=
    mapPage_walked hpinned hn
  generalize mapPage m root virt frame flags = x at hwalked
  cases hwalked with
  | outOfMemory hadd => exact .outOfMemory hadd.same
  | leaf hadd ht =>
    obtain ⟨htree, hnoHuge, hothers, hpage⟩ := setLeaf_spec hadd.same.tree ht (make (flags.entry false) frame)
    refine .done (Changes.extend hadd.same ⟨htree, hnoHuge, hothers, fun v hv => ?_⟩)
    rw [hpage v hv, isPresent_make, frame_make _ _ hf]
    rfl

/-- Where no entry on the way is huge, the walk of `unmapPage` ends in the page table. -/
theorem walk_eq_some (hn : NoHuge root m virt) (pt : Nat) :
    ((follow m root (pml4Idx virt)).bind fun pdpt => (follow m pdpt (pdptIdx virt)).bind fun pd =>
      follow m pd (pdIdx virt)) = some pt ↔ Table root m (tablePath virt) pt := by
  constructor
  · intro hw
    obtain ⟨pdpt, hpdpt, hw⟩ := Option.bind_eq_some_iff.1 hw
    obtain ⟨pd, hpd, hpt⟩ := Option.bind_eq_some_iff.1 hw
    obtain ⟨-, t₂⟩ := hn.table₂ (table_of_follow (Nat.mod_lt _ (by decide)) hpdpt) hpd
    exact (hn.table₃ t₂ hpt).2
  · intro ht
    obtain ⟨pd, hpd, hnext₃⟩ := ht.parent (p := [pml4Idx virt, pdptIdx virt]) TablePath.of_append
    obtain ⟨r, hr, hnext₂⟩ := hpd.parent (p := [pml4Idx virt]) TablePath.of_append
    rw [follow_of_table hr, Option.bind_some, nextTable_some hnext₂, Option.bind_some, nextTable_some hnext₃]

theorem unmapPage_spec (h : Tree root m) (hn : NoHuge root m virt) : Changes root virt none m (unmapPage m root virt) := by
  unfold unmapPage
  split
  · next hnone =>
    have hno : ∀ v, pageNumber v = pageNumber virt → translate m root v = none := by
      intro v hv
      have hpath := (List.append_inj' (leafPath_eq_iff.2 hv) rfl).1
      have hnv : NoHuge root m v := fun q i t hq hp => hn q i t hq (hpath ▸ hp)
      refine translate_of_no_table hnv fun t ht => ?_
      rw [hpath] at ht
      rw [(walk_eq_some hn t).2 ht] at hnone
      cases hnone
    exact ⟨h, fun _ hn => hn, fun _ _ => rfl, hno⟩
  · next pt hsome =>
    obtain ⟨htree, hnoHuge, hothers, hpage⟩ := setLeaf_spec h ((walk_eq_some hn pt).1 hsome) 0
    exact ⟨htree, hnoHuge, hothers, fun v hv => by rw [hpage v hv]; rfl⟩

end

/-! ## The partial map -/

def pageMap (root : Nat) (m : Machine) (n : Fin (2 ^ 36)) : Option Nat :=
  (translate m root (n * pageSize)).map (· / pageSize)

theorem translate_eq_pageMap (root : Nat) (m : Machine) (virt : Nat) :
    translate m root virt = (pageMap root m (pageNumber virt)).map fun f => f * pageSize + virt % pageSize := by
  have hval : pageNumber virt * pageSize = virt / 4096 % 2 ^ 36 * 4096 := rfl
  have h₄ : pml4Idx (pageNumber virt * pageSize) = pml4Idx virt := by
    rw [pml4Idx, pml4Idx, hval]
    omega
  have h₃ : pdptIdx (pageNumber virt * pageSize) = pdptIdx virt := by
    rw [pdptIdx, pdptIdx, hval]
    omega
  have h₂ : pdIdx (pageNumber virt * pageSize) = pdIdx virt := by
    rw [pdIdx, pdIdx, hval]
    omega
  have h₁ : ptIdx (pageNumber virt * pageSize) = ptIdx virt := by
    rw [ptIdx, ptIdx, hval]
    omega
  have hoff : ∀ a k, k = 2 ^ 30 ∨ k = 2 ^ 21 ∨ k = 2 ^ 12 →
      a * pageSize + virt % k =
        (a * pageSize + pageNumber virt * pageSize % k) / pageSize * pageSize + virt % pageSize := by
    intro a k hk
    rw [hval]
    unfold pageSize
    rcases hk with rfl | rfl | rfl <;> omega
  unfold pageMap Vmm.translate
  rw [h₄, h₃, h₂, h₁]
  cases follow m root (pml4Idx virt) with
  | none => rfl
  | some pdpt =>
    simp only [bind, Option.bind_some]
    cases follow m pdpt (pdptIdx virt) with
    | none => rfl
    | some pd =>
      simp only [Option.bind_some]
      by_cases hgiga : isHuge (m.mem pdpt (pdptIdx virt)) = true
      · rw [if_pos hgiga, if_pos hgiga]
        exact congrArg some (hoff pd _ (.inl rfl))
      rw [if_neg hgiga, if_neg hgiga]
      cases follow m pd (pdIdx virt) with
      | none => rfl
      | some pt =>
        simp only [Option.bind_some]
        by_cases hhuge : isHuge (m.mem pd (pdIdx virt)) = true
        · rw [if_pos hhuge, if_pos hhuge]
          exact congrArg some (hoff pt _ (.inr (.inl rfl)))
        rw [if_neg hhuge, if_neg hhuge]
        cases follow m pt (ptIdx virt) with
        | none => rfl
        | some page => exact congrArg some (hoff page _ (.inr (.inr rfl)))

theorem pageNumber_mul (n : Fin (2 ^ 36)) : pageNumber (n * pageSize) = n := by
  refine Fin.ext ?_
  show n * pageSize / pageSize % 2 ^ 36 = n
  rw [Nat.mul_div_cancel _ (by decide), Nat.mod_eq_of_lt n.isLt]

section
variable {root virt : Nat} {m m' : Machine}

theorem pageMap_eq (h : ∀ v, translate m' root v = translate m root v) : pageMap root m' = pageMap root m := by
  funext n
  unfold pageMap
  rw [h]

theorem Changes.pageMap {entry : Option Nat} (h : Changes root virt entry m m') :
    pageMap root m' = Function.update (pageMap root m) (pageNumber virt) entry := by
  funext n
  unfold PageMap.pageMap
  by_cases hpage : n = pageNumber virt
  · rw [hpage, Function.update_self, h.page _ (pageNumber_mul _)]
    cases entry with
    | none => rfl
    | some f =>
      show some ((f * pageSize + pageNumber virt * pageSize % pageSize) / pageSize) = some f
      rw [Nat.mul_mod_left, Nat.add_zero, Nat.mul_div_cancel _ (by decide)]
  · rw [Function.update_of_ne hpage, h.others]
    rwa [pageNumber_mul]

end

/-! ## Refinement -/

inductive Op where
  | mapPage (virt frame : Nat) (flags : MapFlags)
  | unmapPage (virt : Nat)
  | translate (virt : Nat)

/-- What a call returns. -/
inductive Reply where
  /-- `false` is `error.OutOfMemory` -/
  | mapped (done : Bool)
  | unmapped
  | translated (phys : Option Nat)
  deriving DecidableEq

def exec (root : Nat) (m : Machine) : Op → Reply × Machine
  | .mapPage virt frame flags =>
    (.mapped (Vmm.mapPage m root virt frame flags).1, (Vmm.mapPage m root virt frame flags).2)
  | .unmapPage virt => (.unmapped, Vmm.unmapPage m root virt)
  | .translate virt => (.translated (Vmm.translate m root virt), m)

/-- The partial maps from page numbers to frames. -/
abbrev Pages := Fin (2 ^ 36) → Option Nat

/-- The operations of a partial map, which may refuse to add a page. -/
def Spec.step (pages : Pages) : Op → Reply → Pages → Prop
  | .mapPage virt frame _, .mapped true, pages' => pages' = Function.update pages (pageNumber virt) (some frame)
  | .mapPage _ _ _, .mapped false, pages' => pages' = pages
  | .unmapPage virt, .unmapped, pages' => pages' = Function.update pages (pageNumber virt) none
  | .translate virt, .translated phys, pages' =>
    pages' = pages ∧ phys = (pages (pageNumber virt)).map fun f => f * pageSize + virt % pageSize
  | _, _, _ => False

inductive Spec.Run : Pages → List (Op × Reply) → Pages → Prop
  | nil (pages) : Run pages [] pages
  | cons {pages pages' pages'' op reply rest} : Spec.step pages op reply pages' → Run pages' rest pages'' →
      Run pages ((op, reply) :: rest) pages''

def run (root : Nat) (m : Machine) : List Op → List (Op × Reply) × Machine
  | [] => ([], m)
  | op :: ops =>
    let next := exec root m op
    let rest := run root next.2 ops
    ((op, next.1) :: rest.1, rest.2)

/-- A 4 KiB mapping on a path without huge entries, of a frame with a 52-bit address. -/
def Op.Fits (root : Nat) (m : Machine) : Op → Prop
  | .mapPage virt frame _ => frame < 2 ^ 40 ∧ NoHuge root m virt
  | .unmapPage virt => NoHuge root m virt
  | .translate _ => True

section
variable {root : Nat} {m : Machine}

theorem exec_refines (h : Tree root m) {op : Op} (hop : op.Fits root m) :
    Spec.step (pageMap root m) op (exec root m op).1 (pageMap root (exec root m op).2) ∧
      Tree root (exec root m op).2 ∧ ∀ virt, NoHuge root m virt → NoHuge root (exec root m op).2 virt := by
  cases op with
  | mapPage virt frame flags =>
    simp only [exec]
    have hmap : Mapping root virt frame m (Vmm.mapPage m root virt frame flags) := mapPage_spec h hop.2 hop.1
    generalize Vmm.mapPage m root virt frame flags = x at hmap
    cases hmap with
    | outOfMemory hext => exact ⟨pageMap_eq hext.same, hext.tree, hext.noHuge⟩
    | done hchange => exact ⟨hchange.pageMap, hchange.tree, hchange.noHuge⟩
  | unmapPage virt =>
    have hchange := unmapPage_spec h hop
    exact ⟨hchange.pageMap, hchange.tree, hchange.noHuge⟩
  | translate virt => exact ⟨⟨rfl, translate_eq_pageMap root m virt⟩, h, fun _ hn => hn⟩

theorem Op.Fits.mono {m' : Machine} {op : Op} (h : op.Fits root m)
    (hnoHuge : ∀ virt, NoHuge root m virt → NoHuge root m' virt) : op.Fits root m' := by
  cases op with
  | mapPage virt frame flags => exact ⟨h.1, hnoHuge virt h.2⟩
  | unmapPage virt => exact hnoHuge virt h
  | translate virt => trivial

end

section
variable {root f t : Nat} {m : Machine} {p : List Nat}

theorem table_of_empty (hempty : ∀ j, isPresent (m.mem root j) = false) (h : Table root m p t) : p = [] ∧ t = root := by
  cases p with
  | nil => exact ⟨rfl, h.unique table_root⟩
  | cons i p =>
    have hw := h.2.2
    rw [walk_cons, nextTable_root, follow_absent (hempty i)] at hw
    cases hw

theorem newTable_tree {pins : Nat → Nat} (hinv : Space.Inv ∅ pins m) (hsome : (newTable m).1 = some f) :
    Tree f (newTable m).2 ∧ ∀ j, isPresent ((newTable m).2.mem f j) = false := by
  rcases hinv.newTable (D := fun _ _ => False) (E := fun _ _ => False) with ⟨hnone, -⟩ | ⟨g, hg, hfresh, -⟩
  · rw [hsome] at hnone
    cases hnone
  · obtain rfl : f = g := Option.some.inj (hsome.symm.trans hg)
    refine ⟨⟨fun {r p g r' p'} ha ha' _ => ?_, _, hfresh.inv, fun ht => ?_⟩, hfresh.empty⟩
    · obtain rfl : r = f := ha.1
      obtain rfl : r' = r := ha'.1
      rw [(table_of_empty hfresh.empty ha).1, (table_of_empty hfresh.empty ha').1]
      exact ⟨rfl, rfl⟩
    · rw [(table_of_empty hfresh.empty ht).2]
      simp

end

def emptySpace : Machine := (newTable .boot).2

theorem newTable_boot : (newTable .boot).1 = some 512 := by decide +kernel

theorem walk_emptySpace {p : List Nat} {t : Nat} (h : Table 512 emptySpace p t) : p = [] ∧ t = 512 :=
  table_of_empty (newTable_tree Space.boot_inv newTable_boot).2 h

theorem emptySpace_tree : Tree 512 emptySpace := (newTable_tree Space.boot_inv newTable_boot).1

def onePage : List Op := [.mapPage 0x1000 600 {}, .translate 0x1234, .unmapPage 0x1000, .translate 0x1234]

end Zigix.PageMap
