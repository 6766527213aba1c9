import Zigix.Mm.CowSpec

/-!
# What `mapPage` establishes

* `ensureTable_spec` : the table below a slot exists afterwards, and nothing else changed;
* `mapPage_spec` : a page the caller owns alone is mapped at one leaf; the pages of every other leaf of every address
  space stay.
-/

namespace Zigix.Vmm

open Forest Pmm Pte Space Fault

/-- No page table refers to the frame. -/
def Unlinked (R : Set Nat) (m : Machine) (f : Nat) : Prop := ∀ r p, ¬ Node R m r p f

section Ensure
variable {R : Set Nat} {pins : Nat → Nat} {m m' : Machine} {r t i f : Nat} {q : List Nat}

/-- What happened to the tables: slots of `D` may have got a fresh table, and pinned pages were not touched. -/
structure Grown (R : Set Nat) (pins : Nat → Nat) (D : Nat → List Nat → Prop) (m m' : Machine) : Prop where
  inv : Inv R pins m'
  keeps : Keeps R D m m'
  leaves : Leaves R (fun _ _ => False) m m'
  unlinked : ∀ f, 0 < pins f → Unlinked R m f → Unlinked R m' f
  data : ∀ f, 0 < pins f → Unlinked R m f → m'.mem f = m.mem f

theorem Grown.mono {D D' : Nat → List Nat → Prop} (h : Grown R pins D m m') (hD : ∀ r p, D r p → D' r p) :
    Grown R pins D' m m' := ⟨h.inv, h.keeps.mono hD, h.leaves, h.unlinked, h.data⟩

theorem Grown.trans {D : Nat → List Nat → Prop} {m'' : Machine} (h : Grown R pins D m m') (h' : Grown R pins D m' m'') :
    Grown R pins D m m'' :=
  ⟨h'.inv, h.keeps.trans h'.keeps, h.leaves.trans h'.leaves, fun f hf hu => h'.unlinked f hf (h.unlinked f hf hu),
    fun f hf hu => (h'.data f hf (h.unlinked f hf hu)).trans (h.data f hf hu)⟩

theorem Grown.of_mem {D : Nat → List Nat → Prop} (h : Inv R pins m') (hmem : m'.mem = m.mem) : Grown R pins D m m' := by
  refine ⟨h, .of_mem hmem, .of_mem hmem, fun f _ hu r p hn => hu r p ?_, fun f _ _ => by rw [hmem]⟩
  have hk : Keeps R (fun _ _ => False) m m' := .of_mem hmem
  exact ⟨hn.1, hn.2.1, by rw [← hk.walk hn.1 hn.2.1 id]; exact hn.2.2⟩

theorem unlinked_setPage {c : Nat → Word} {g : Nat} (hf : Unlinked R m f) (hg : Unlinked R m g) :
    Unlinked R (m.setPage f c) g := fun r p hn =>
  hg r p ((TablesEq.node_iff (tablesEq_setPage fun hn => absurd hn (hf _ _))).1 hn)

theorem Grown.setPage {D : Nat → List Nat → Prop} {c : Nat → Word} (h : Inv R pins m) (hf : Unlinked R m f) (hp : pins f = 0) :
    Grown R pins D m (m.setPage f c) := by
  have hz : ∀ {r p}, Node R m r p f → p.length = 4 := fun hn => absurd hn (hf _ _)
  refine ⟨h.setPage hz, keeps_setPage fun hn => absurd hn (hf _ _), .of_tablesEq (tablesEq_setPage hz),
    fun g _ hu => unlinked_setPage hf hu, fun g hg _ => ?_⟩
  have hne : g ≠ f := by
    rintro rfl
    omega
  simp [Machine.setPage, hne]

theorem Grown.weaken {D : Nat → List Nat → Prop} (h : Grown R (pins + pin f) D m m') : Grown R pins D m m' :=
  ⟨h.inv.weaken, h.keeps, h.leaves, fun g hg => h.unlinked g (by rw [Pi.add_apply]; omega),
    fun g hg => h.data g (by rw [Pi.add_apply]; omega)⟩

structure Owns (R : Set Nat) (pins : Nat → Nat) (f : Nat) (m : Machine) : Prop where
  inv : Inv R (pins + pin f) m
  unlinked : Unlinked R m f
  unpinned : pins f = 0

theorem Owns.grown {D : Nat → List Nat → Prop} (h : Owns R pins f m) (hg : Grown R (pins + pin f) D m m') :
    Owns R pins f m' := ⟨hg.inv, hg.unlinked f (by simp) h.unlinked, h.unpinned⟩

theorem Owns.setPage {c : Nat → Word} (h : Owns R pins f m) : Owns R pins f (m.setPage f c) :=
  ⟨h.inv.setPage fun hn => absurd hn (h.unlinked _ _), unlinked_setPage h.unlinked h.unlinked, h.unpinned⟩

theorem owns_allocPage (h : Inv R pins m) :
    (m.allocPage.1 = none ∧ Inv R pins m.allocPage.2) ∨
      ∃ f, m.allocPage.1 = some f ∧ Owns R pins f m.allocPage.2 ∧ ∀ e ∈ m.allocPage.2.cache, e.frame ≠ f := by
  refine h.allocPage.imp_right fun ⟨f, h1, h2, h3⟩ => ⟨f, h1, ?_⟩
  have hp : pins f = 0 := h2.pins_lt h3
  have hpin : (pins + pin f) f = 1 := by simp [hp]
  obtain ⟨hun, huc⟩ := h2.unlinked (h3.trans hpin.symm) (by rw [hpin]; decide)
  exact ⟨⟨h2, hun, hp⟩, huc⟩

/-- The outcome of `ensureTable` on the slot `q ++ [i]`. -/
inductive Ensured (R : Set Nat) (pins : Nat → Nat) (r : Nat) (q : List Nat) (i : Nat) (m : Machine) :
    Option Nat × Machine → Prop
  | outOfMemory (m' : Machine) (grown : Grown R pins (fun r' p' => r' = r ∧ p' = q ++ [i]) m m') :
      Ensured R pins r q i m (none, m')
  | table (m' : Machine) (f : Nat) (grown : Grown R pins (fun r' p' => r' = r ∧ p' = q ++ [i]) m m')
      (node : Node R m' r (q ++ [i]) f) : Ensured R pins r q i m (some f, m')

theorem Ensured.of_some {x : Option Nat × Machine} (h : Ensured R pins r q i m x) (hf : x.1 = some f) :
    Inv R pins x.2 ∧ Node R x.2 r (q ++ [i]) f := by
  cases h with
  | outOfMemory m' grown => cases hf
  | table m' g grown node =>
    cases hf
    exact ⟨grown.inv, node⟩

theorem mem_newTable (m : Machine) (g : Nat) (hg : (newTable m).1 ≠ some g) : (newTable m).2.mem g = m.mem g := by
  have hmem : m.allocPage.2.mem = m.mem := rfl
  unfold newTable at hg ⊢
  rcases ha : m.allocPage with ⟨o, m₁⟩
  rw [ha] at hmem hg
  cases o with
  | none => exact congrFun hmem g
  | some f =>
    have hne : g ≠ f := fun he => hg (by rw [he])
    dsimp only
    simp only [Machine.zeroPage, Machine.setPage, Function.update_of_ne hne]
    exact congrFun hmem g

theorem ensureTable_spec (h : Inv R pins m) (ht : Node R m r q t) (hl : q.length < 3) (hslot : UserPath (q ++ [i])) :
    Ensured R pins r q i m (ensureTable m t i) := by
  unfold ensureTable
  split
  · next hp =>
    exact .table m _ ⟨h, .refl m, .refl m, fun _ _ hu => hu, fun _ _ _ => rfl⟩ (ht.concat hslot (follow_some.2 ⟨hp, rfl⟩))
  next hp =>
  have habs : isPresent (m.mem t i) = false := by simpa using hp
  have hold := fun g => mem_newTable m g
  rcases h.newTable (D := fun _ _ => False) (E := fun _ _ => False) with
    ⟨hnone, hinv, hkeep, hleaf⟩ | ⟨f, hsome, hfresh, hkeep, hleaf⟩
  · rcases hnt : newTable m with ⟨o, m₁⟩
    rw [hnt] at hnone hinv hkeep hleaf hold
    cases hnone
    refine .outOfMemory m₁ ⟨hinv, hkeep.mono fun _ _ => False.elim, hleaf, fun g _ hu r' p' hn => ?_,
      fun g _ _ => hold g (by simp)⟩
    exact hu r' p' ⟨hn.1, hn.2.1, by rw [← hkeep.walk hn.1 hn.2.1 id]; exact hn.2.2⟩
  · rcases hnt : newTable m with ⟨o, m₁⟩
    rw [hnt] at hsome hfresh hkeep hleaf hold
    cases hsome
    have ht₁ := hkeep.node ht id
    have htf : t ≠ f := fun he => hfresh.unlinked r q (he ▸ ht₁)
    have habs₁ : isPresent (m₁.mem t i) = false := by
      have := hold t (by simpa using htf.symm)
      rw [this]
      exact habs
    obtain ⟨hinv, hkeep₂, hleaf₂, hnode, -⟩ := hfresh.link ht₁ hl hslot habs₁
    refine .table _ f ⟨hinv, (hkeep.mono fun _ _ => False.elim).trans hkeep₂, hleaf.trans hleaf₂, fun g hg hu r' p' hn => ?_,
      fun g hg hu => ?_⟩ hnode
    · by_cases hs : r' = r ∧ p' = q ++ [i]
      · obtain ⟨rfl, rfl⟩ := hs
        obtain rfl := hn.unique hnode
        have := hfresh.unpinned
        omega
      · refine hu r' p' ⟨hn.1, hn.2.1, ?_⟩
        rw [← hkeep.walk hn.1 hn.2.1 id, ← hkeep₂.walk hn.1 hn.2.1 hs]
        exact hn.2.2
    · have hgf : g ≠ f := by
        rintro rfl
        have := hfresh.unpinned
        omega
      have hgt : g ≠ t := fun he => hu r q (he ▸ ht)
      funext j
      rw [mem_setWord_of_ne (by simp [hgt])]
      exact congrFun (hold g (by simpa using hgf.symm)) j

end Ensure

/-! ## Mapping one page -/

section Map
variable {R : Set Nat} {pins : Nat → Nat} {m : Machine} {r virt f : Nat} {flags : MapFlags}

/-- The nodes on the way to the leaf of `virt`. -/
def OnPath (r virt : Nat) (r' : Nat) (p' : List Nat) : Prop := r' = r ∧ p' <+: leafPath virt

/-- The outcome of mapping the pinned page `f` at `virt`. -/
structure Mapped (R : Set Nat) (pins : Nat → Nat) (r virt f : Nat) (flags : MapFlags) (m m' : Machine) : Prop where
  inv : Inv R pins m'
  keeps : Keeps R (OnPath r virt) m m'
  leaves : Leaves R (fun r' p' => r' = r ∧ p' = leafPath virt) m m'
  leaf : ∃ pt, Node R m' r (tablePath virt) pt ∧ m'.mem pt (ptIdx virt) = make (flags.entry false) f
  node : Node R m' r (leafPath virt) f
  data : ∀ g, 0 < (pins + pin f) g → Unlinked R m g → m'.mem g = m.mem g

/-- **Mapping.** The page is mapped, or memory ran out and the caller still owns it. -/
theorem mapPage_spec (h : Inv R (pins + pin f) m) (hf : Unlinked R m f) (hr : r ∈ R) (hv : virt < userEnd) :
    Loop.Result (Mapped R pins r virt f flags m) (Grown R (pins + pin f) (OnPath r virt) m)
      (mapPage m r virt f flags) := by
  have hu := leafPath_user hv
  have hpre : ∀ {q s : List Nat}, q ++ s = leafPath virt → ∀ r' p', r' = r ∧ p' = q → OnPath r virt r' p' := by
    rintro q s hq r' p' ⟨h1, h2⟩
    exact ⟨h1, s, by rw [h2]; exact hq⟩
  have hs1 : UserPath [pml4Idx virt] := UserPath.of_append _ [pdptIdx virt, pdIdx virt, ptIdx virt] hu
  have hs2 : UserPath [pml4Idx virt, pdptIdx virt] := UserPath.of_append _ [pdIdx virt, ptIdx virt] hu
  unfold mapPage
  have e1 := ensureTable_spec (q := []) h (node_root hr) (by simp) hs1
  rcases hx1 : ensureTable m r (pml4Idx virt) with ⟨o1, m1⟩
  rw [hx1] at e1
  cases e1 with
  | outOfMemory _ g => exact .ofFalse (g.mono (hpre (s := [pdptIdx virt, pdIdx virt, ptIdx virt]) rfl))
  | table _ pdpt g1 n1 =>
  replace g1 := g1.mono (hpre (s := [pdptIdx virt, pdIdx virt, ptIdx virt]) rfl)
  have e2 := ensureTable_spec g1.inv n1 (by simp) hs2
  simp only [withTable]
  rcases hx2 : ensureTable m1 pdpt (pdptIdx virt) with ⟨o2, m2⟩
  rw [hx2] at e2
  cases e2 with
  | outOfMemory _ g => exact .ofFalse (g1.trans (g.mono (hpre (s := [pdIdx virt, ptIdx virt]) rfl)))
  | table _ pd g2 n2 =>
  replace g2 := g1.trans (g2.mono (hpre (s := [pdIdx virt, ptIdx virt]) rfl))
  have e3 := ensureTable_spec g2.inv n2 (by simp) (tablePath_user hv)
  dsimp only
  rcases hx3 : ensureTable m2 pd (pdIdx virt) with ⟨o3, m3⟩
  rw [hx3] at e3
  cases e3 with
  | outOfMemory _ g => exact .ofFalse (g2.trans (g.mono (hpre (s := [ptIdx virt]) rfl)))
  | table _ pt g3 n3 =>
  replace g3 := g2.trans (g3.mono (hpre (s := [ptIdx virt]) rfl))
  have hpinf : 0 < (pins + pin f) f := by simp
  have hun := g3.unlinked f hpinf hf
  have hframe : frame (make (flags.entry false) f) = f := frame_make _ _ (h.pin_inRange.2.trans_le h.total)
  have hpres : isPresent (make (flags.entry false) f) = true := by simp [MapFlags.entry]
  have ht : Node R m3 r (tablePath virt) pt := n3
  have htar : isPresent (make (flags.entry false) f) = true →
      Target R m3 r (tablePath virt) (ptIdx virt) (make (flags.entry false) f) := by
    intro _
    refine ⟨by rw [hframe]; exact g3.inv.pin_inRange, ?_, fun hlt => absurd hlt (by simp [tablePath]),
      fun hlt => absurd hlt (by simp [tablePath]), ?_, ?_⟩
    · intro r' p' hn
      exact absurd (hframe ▸ hn) (hun _ _)
    · intro _ _ r' p' hn
      exact absurd (hframe ▸ hn) (hun _ _)
    · intro _ r' q' t' j hn hq hj hpj _ hfj
      rw [hframe] at hfj
      have hq' : UserPath (q' ++ [j]) := hn.2.1.concat (by omega) hj (by rintro rfl; simp at hq)
      exact absurd (hn.concat hq' (follow_some.2 ⟨hpj, hfj⟩)) (hun _ _)
  have hkeep := keeps_setWord g3.inv ht (by simp [tablePath]) hu htar
  have hon : ∀ r' p', UserPath p' → Under r (tablePath virt ++ [ptIdx virt]) r' p' → OnPath r virt r' p' := by
    rintro r' p' hp' ⟨h1, s, hs⟩
    have hlen := congrArg List.length hs
    have h4 := hp'.1
    rw [List.length_append, show (tablePath virt ++ [ptIdx virt]).length = 4 from rfl] at hlen
    obtain rfl : s = [] := List.length_eq_zero_iff.1 (by omega)
    exact ⟨h1, [], by rw [← hs]; simp [leafPath]⟩
  have hnode : Node R (m3.setWord pt (ptIdx virt) (make (flags.entry false) f)) r (leafPath virt) f :=
    (node_setWord_iff g3.inv ht (by simp [tablePath]) hu htar).2 (.inr ⟨rfl, rfl, hpres, hframe⟩)
  have hleaf := (g3.leaves.mono fun _ _ _ => False.elim).trans
    (leaves_relink g3.inv ht (by simp [tablePath]) hu htar)
  refine .ofTrue ⟨?_, ?_, hleaf, ⟨pt, hkeep.node ht ?_, mem_setWord_same _ _ _⟩, hnode, fun g hg hug => ?_⟩
  · refine g3.inv.relink ht (by simp [tablePath]) hu htar (fun hg => g3.inv.pinned (by rw [Pi.add_apply]; omega)) fun g => ?_
    have h1 : hits (make (flags.entry false) f) g = pin f g := by
      simp only [hits, hpres, hframe, pin_apply, true_and, eq_comm (a := g)]
    have hsw : slotWeight (tablePath virt).length = 1 := rfl
    rw [h1, hsw, Pi.add_apply]
    omega
  · exact g3.keeps.trans ⟨fun hr' hp' hd => hkeep.walk hr' hp' fun hs => hd (hon _ _ hp' hs),
      fun hn hl hd => hkeep.data hn hl fun hs => hd (hon _ _ hn.2.1 hs)⟩
  · rintro ⟨-, s, hs⟩
    have := congrArg List.length hs
    simp [tablePath] at this
  · have hgt : g ≠ pt := fun he => g3.unlinked g hg hug r (tablePath virt) (he ▸ ht)
    rw [← g3.data g hg hug]
    funext j
    exact mem_setWord_of_ne (by simp [hgt])

end Map

end Zigix.Vmm
