import Zigix.Lib.Loop
import Zigix.Mm.View

/-!
# Creating and destroying address spaces

* `destroyPt_spec`, `destroyTable_spec` : a loop of `destroyUserPages` empties its table and leaves every other node
  and every other mapped page alone;
* `destroyAddressSpace_spec`, `createAddressSpace_spec` : the live set changes by one address space, the pages of the
  others stay.
-/

namespace Zigix.Space

open Forest Pmm Pte Vmm

section Destroy
variable {R : Set Nat} {pins : Nat → Nat} {m : Machine} {r t : Nat} {q : List Nat}

theorem Inv.not_badFrame (h : Inv R pins m) {p : List Nat} {f : Nat} (hn : Node R m r p f) : badFrame m f = false := by
  obtain ⟨h1, h2⟩ := h.inRange hn
  have h3 := h.highest
  have h4 : f * pageSize < m.pmm.totalPages * pageSize := Nat.mul_lt_mul_of_pos_right h2 (by decide)
  simp only [badFrame, Bool.or_eq_false_iff, beq_eq_false_iff_ne, decide_eq_false_iff_not]
  omega

/-- What emptying the table `t` at `(r, q)` establishes. -/
structure Emptied (R : Set Nat) (pins : Nat → Nat) (r : Nat) (q : List Nat) (entries : Nat) (m m' : Machine) : Prop where
  inv : Inv R pins m'
  keeps : Keeps R (Below r q) m m'
  leaves : Leaves R (fun r' _ => r' = r) m m'
  empty : ∀ j, j < entries → walk (follow m') r (q ++ [j]) = none

/-- A slot of a live table, present or not, is cleared by one turn of a loop. -/
theorem Emptied.extend {k : Nat} {m' m'' : Machine} (h : Emptied R pins r q k m m') (hr : r ∈ R)
    (hroot : ∀ j, j < k → UserPath (q ++ [j])) (hinv : Inv R pins m'')
    (hkeep : Keeps R (Under r (q ++ [k])) m' m'') (hleaf : Leaves R (fun r' _ => r' = r) m' m'') (hslot : walk (follow m'') r (q ++ [k]) = none) :
    Emptied R pins r q (k + 1) m m'' := by
  refine ⟨hinv, h.keeps.trans (hkeep.mono fun _ _ => Under.below), h.leaves.trans hleaf, fun j hj => ?_⟩
  rcases Nat.lt_succ_iff_lt_or_eq.1 hj with hj | rfl
  · have hne : ¬ Under r (q ++ [k]) r (q ++ [j]) := not_under_of_ne (s := []) (by omega)
    rw [hkeep.walk hr (hroot j hj) hne]
    exact h.empty j hj
  · exact hslot

theorem walk_slot_absent {i : Nat} (ht : Node R m r q t) (habs : isPresent (m.mem t i) = false) :
    walk (follow m) r (q ++ [i]) = none := by
  rw [walk_concat, ht.2.2]
  exact follow_absent habs

theorem slot_ok {i : Nat} (ht : Node R m r q t) (hl : q.length ≤ 3) (hi : i < 512) (hroot : q = [] → i < 256) :
    UserPath (q ++ [i]) := ht.2.1.concat hl hi hroot

theorem destroyLeaf_spec {i : Nat} (h : Inv R pins m) (ht : Node R m r q t) (hl : q.length = 3)
    (hslot : UserPath (q ++ [i])) :
    Inv R pins (destroyLeaf t m i) ∧ Keeps R (Under r (q ++ [i])) m (destroyLeaf t m i) ∧
      Leaves R (fun r' _ => r' = r) m (destroyLeaf t m i) ∧
      walk (follow (destroyLeaf t m i)) r (q ++ [i]) = none := by
  unfold destroyLeaf
  cases hp : isPresent (m.mem t i) with
  | false =>
    simp only [hp, Bool.not_false, if_true]
    exact ⟨h, .refl m, .refl m, walk_slot_absent ht hp⟩
  | true =>
    have hnode : Node R m r (q ++ [i]) (frame (m.mem t i)) := ht.concat hslot (follow_some.2 ⟨hp, rfl⟩)
    obtain ⟨hinv, hkeep, hleaf, hnone⟩ := h.clear (pins + pin (frame (m.mem t i))) ht (by omega) hslot hp
      (fun g => by simp [slotWeight, hl])
    replace hleaf : Leaves R (fun r' _ => r' = r) m (m.setWord t i 0) := hleaf.mono fun _ _ _ he => he.1
    simp only [hp, h.not_badFrame hnode, Bool.not_true, if_false, Bool.false_eq_true]
    split
    · exact ⟨hinv.decRef, hkeep.trans (.of_mem rfl), hleaf.trans (.of_mem rfl), hnone⟩
    · exact ⟨hinv.freePage, hkeep.trans (.of_mem rfl), hleaf.trans (.of_mem rfl), hnone⟩

theorem destroyPt_spec (h : Inv R pins m) (ht : Node R m r q t) (hl : q.length = 3) :
    Emptied R pins r q 512 m (destroyPt m t) := by
  refine Loop.foldl_range (fun k m' => Emptied R pins r q k m m') 512
    ⟨h, .refl m, .refl m, fun j hj => absurd hj (by omega)⟩ fun i m' hi hm' => ?_
  have hslots : ∀ j, j < 512 → UserPath (q ++ [j]) := fun j hj =>
    slot_ok ht (by omega) hj (by rintro rfl; simp at hl)
  have ht' : Node R m' r q t := hm'.keeps.node ht (not_below_self r q)
  obtain ⟨hinv, hkeep, hleaf, hnone⟩ := destroyLeaf_spec hm'.inv ht' hl (hslots i hi)
  exact hm'.extend ht.1 (fun j hj => hslots j (by omega)) hinv hkeep hleaf hnone

/-- The number of user entries of a table at depth `n`. -/
def entriesAt (n : Nat) : Nat := if n = 0 then 256 else 512

theorem slots_of_depth (ht : Node R m r q t) (hl : q.length ≤ 3) (j : Nat) (hj : j < entriesAt q.length) :
    UserPath (q ++ [j]) := by
  unfold entriesAt at hj
  refine slot_ok ht hl ?_ fun hq => ?_
  · split at hj <;> omega
  · simpa [hq] using hj

/-- What the loops below a table must do. -/
def DestroySpec (n : Nat) (sub : Machine → Nat → Machine) : Prop :=
  ∀ R pins m r q t, Inv R pins m → Node R m r q t → q.length = n →
    Emptied R pins r q (entriesAt n) m (sub m t)

theorem destroyEntry_spec {i : Nat} {rule : HugeRule} {sub : Machine → Nat → Machine}
    (hsub : DestroySpec (q.length + 1) sub) (h : Inv R pins m) (ht : Node R m r q t) (hl : q.length < 3)
    (hrule : q = [] → rule = .ignore) (hi : i < 512) (hslot : UserPath (q ++ [i])) :
    Inv R pins (destroyEntry rule sub t m i) ∧ Keeps R (Under r (q ++ [i])) m (destroyEntry rule sub t m i) ∧
      Leaves R (fun r' _ => r' = r) m (destroyEntry rule sub t m i) ∧
      walk (follow (destroyEntry rule sub t m i)) r (q ++ [i]) = none := by
  unfold destroyEntry
  cases hp : isPresent (m.mem t i) with
  | false =>
    simp only [hp, Bool.not_false, if_true]
    exact ⟨h, .refl m, .refl m, walk_slot_absent ht hp⟩
  | true =>
    have hnode : Node R m r (q ++ [i]) (frame (m.mem t i)) := ht.concat hslot (follow_some.2 ⟨hp, rfl⟩)
    generalize hf : frame (m.mem t i) = f at hnode
    have hs := hsub _ _ _ _ _ _ h hnode (by simp)
    have ht' : Node R (sub m f) r q t := hs.keeps.node ht fun hb => by
      obtain ⟨-, j, s, he⟩ := hb
      have := congrArg List.length he
      simp at this
    have hslot' : Node R (sub m f) r (q ++ [i]) f := hs.keeps.node hnode (not_below_self r _)
    obtain ⟨u, hu, hlink⟩ := hslot'.parent UserPath.of_append
    obtain rfl := hu.unique ht'
    obtain ⟨hp', hf'⟩ := follow_some.1 hlink
    obtain ⟨hinv, hkeep, hleaf, hnone⟩ := hs.inv.clear (pins + pin f + pin f) ht' (by omega) hslot hp'
      (fun g => by simp only [Pi.add_apply, slotWeight, if_pos hl, hf']; omega)
    have hrel := hinv.releaseTable
    have hdone : Inv R pins ((releaseTable (sub m f) f).setWord u i 0) ∧
        Keeps R (Under r (q ++ [i])) m ((releaseTable (sub m f) f).setWord u i 0) ∧
        Leaves R (fun r' _ => r' = r) m ((releaseTable (sub m f) f).setWord u i 0) ∧
        walk (follow ((releaseTable (sub m f) f).setWord u i 0)) r (q ++ [i]) = none := by
      rw [releaseTable_setWord]
      have hmem : (releaseTable ((sub m f).setWord u i 0) f).mem = ((sub m f).setWord u i 0).mem := mem_releaseTable _ _
      refine ⟨hrel, ((hs.keeps.mono fun _ _ => Below.under).trans hkeep).trans (.of_mem hmem),
        (hs.leaves.trans (hleaf.mono fun _ _ _ he => he.1)).trans (.of_mem hmem), ?_⟩
      rw [(Keeps.of_mem (R := R) (D := fun _ _ => False) hmem).walk ht.1 hslot (by simp)]
      exact hnone
    simp only [hp, hf, Bool.not_true, if_false, Bool.false_eq_true, h.not_badFrame hnode]
    -- below the PML4 there are 4 KiB leaves only, so the huge-page branches are not taken
    have hsmall : rule ≠ .ignore → isHuge (m.mem u i) = false := by
      intro hne
      have hq : 0 < q.length := List.length_pos_iff.2 fun hq => hne (hrule hq)
      exact h.noHuge ht (by omega) hi hp
    cases rule with
    | ignore => exact hdone
    | skip => rw [hsmall (by simp)]; exact hdone
    | free => rw [hsmall (by simp)]; exact hdone

theorem destroyTable_spec {n : Nat} {rule : HugeRule} {sub : Machine → Nat → Machine} (hsub : DestroySpec (n + 1) sub)
    (hn : n < 3) (hrule : n = 0 → rule = .ignore) : DestroySpec n (destroyTable (entriesAt n) rule sub) := by
  intro R pins m r q t h ht hl
  subst hl
  refine Loop.foldl_range (fun k m' => Emptied R pins r q k m m') _
    ⟨h, .refl m, .refl m, fun j hj => absurd hj (by omega)⟩ fun i m' hi hm' => ?_
  have hslots := slots_of_depth ht hn.le
  have ht' : Node R m' r q t := hm'.keeps.node ht (not_below_self r q)
  have hi' : i < 512 := by unfold entriesAt at hi; split at hi <;> omega
  obtain ⟨hinv, hkeep, hleaf, hnone⟩ := destroyEntry_spec hsub hm'.inv ht' hn (fun hq => hrule (by simp [hq])) hi'
    (hslots i hi)
  exact hm'.extend ht.1 (fun j hj => hslots j (by omega)) hinv hkeep hleaf hnone

theorem destroyUserPages_spec : DestroySpec 0 destroyUserPages := by
  have h3 : DestroySpec 3 destroyPt := fun _ _ _ _ _ _ h ht hl => destroyPt_spec h ht hl
  have h2 : DestroySpec 2 destroyPd := destroyTable_spec h3 (by decide) (by simp)
  have h1 : DestroySpec 1 destroyPdpt := destroyTable_spec h2 (by decide) (by simp)
  exact destroyTable_spec h1 (by decide) fun _ => rfl

theorem node_root (hr : r ∈ R) : Node R m r [] r := ⟨hr, ⟨by simp, by simp, by simp⟩, rfl⟩

/-- **Teardown.** The address space is gone, the pages of the others are as before. -/
theorem destroyAddressSpace_spec (h : Inv R pins m) (hr : r ∈ R) :
    Inv (R \ {r}) pins (destroyAddressSpace m r) ∧
      Keeps (R \ {r}) (fun _ _ => False) m (destroyAddressSpace m r) ∧
      ∀ r' p w, Leaf (R \ {r}) (destroyAddressSpace m r) r' p w → Leaf R m r' p w := by
  have hd := destroyUserPages_spec _ _ _ _ _ _ h (node_root hr) rfl
  unfold destroyAddressSpace
  have hmem := mem_releaseTable (destroyUserPages m r) r
  have hoff : ∀ {r' : Nat} {p : List Nat}, r' ∈ R \ {r} → ¬ Below r [] r' p := fun hr' hb => hr'.2 hb.1
  have hkeep : Keeps (R \ {r}) (fun _ _ => False) m (destroyUserPages m r) :=
    ⟨fun hr' hp _ => hd.keeps.walk hr'.1 hp (hoff hr'),
      fun hn hl _ => hd.keeps.data ⟨hn.1.1, hn.2⟩ hl (hoff hn.1)⟩
  have hleaf : Leaves (R \ {r}) (fun _ _ => False) (destroyUserPages m r) (releaseTable (destroyUserPages m r) r) :=
    .of_mem hmem
  refine ⟨(hd.inv.dropRoot hr).releaseTable, hkeep.trans (.of_mem hmem), fun r' p w hl => ?_⟩
  obtain ⟨q, t, i, hp, hq, hu, ht, hw, hpres⟩ := hleaf r' p w hl id
  exact hd.leaves r' p w ⟨q, t, i, hp, hq, hu, ⟨ht.1.1, ht.2⟩, hw, hpres⟩ ht.1.2

end Destroy

section Create
variable {R : Set Nat} {pins : Nat → Nat} {m : Machine}

/-- **Creation.** The new address space maps nothing in the user half. -/
theorem createAddressSpace_spec (h : Inv R pins m) (kernelPml4 : Nat) :
    ((createAddressSpace m kernelPml4).1 = none ∧ Inv R pins (createAddressSpace m kernelPml4).2 ∧
        Keeps R (fun _ _ => False) m (createAddressSpace m kernelPml4).2 ∧
        Leaves R (fun _ _ => False) m (createAddressSpace m kernelPml4).2) ∨
      ∃ f, (createAddressSpace m kernelPml4).1 = some f ∧ f ∉ R ∧
        Inv (insert f R) pins (createAddressSpace m kernelPml4).2 ∧
        Keeps R (fun _ _ => False) m (createAddressSpace m kernelPml4).2 ∧
        Leaves R (fun _ _ => False) m (createAddressSpace m kernelPml4).2 ∧
        ∀ i p, i < 256 → walk (follow (createAddressSpace m kernelPml4).2) f (i :: p) = none := by
  have hmem : m.allocPage.2.mem = m.mem := rfl
  unfold createAddressSpace
  rcases h.allocTable with ⟨h1, h2⟩ | ⟨f, h1, h2, -, hun, huc⟩
  · left
    rcases ha : m.allocPage with ⟨o, m₁⟩
    rw [ha] at h1 h2 hmem
    cases h1
    exact ⟨rfl, h2, .of_mem hmem, .of_mem hmem⟩
  · right
    rcases ha : m.allocPage with ⟨o, m₁⟩
    rw [ha] at h1 h2 hun huc hmem
    cases h1
    have hz : ∀ {r p}, Node R (m₁.incRef f) r p f → p.length = 4 := fun hn => absurd hn (hun _ _)
    let contents : Nat → Word := fun i =>
      if i < 256 then 0 else if i < 512 then (m₁.incRef f).mem kernelPml4 i else (m₁.incRef f).mem f i
    have hempty : ∀ j, j < 256 → isPresent (((m₁.incRef f).setPage f contents).mem f j) = false := by
      intro j hj
      simp [Machine.setPage, contents, hj]
    have hun' : ∀ r p, ¬ Node R ((m₁.incRef f).setPage f contents) r p f := fun r p hn =>
      hun r p ((TablesEq.node_iff (tablesEq_setPage hz)).1 hn)
    have hk₁ : Keeps R (fun _ _ => False) m (m₁.incRef f) := .of_mem hmem
    have hk₂ : Keeps R (fun _ _ => False) (m₁.incRef f) ((m₁.incRef f).setPage f contents) :=
      keeps_setPage fun hn => absurd hn (hun _ _)
    have hl₁ : Leaves R (fun _ _ => False) m (m₁.incRef f) := .of_mem hmem
    refine ⟨f, rfl, fun hf => hun f [] (node_root hf), (h2.setPage hz).addRoot hun' huc hempty, hk₁.trans hk₂,
      hl₁.trans (.of_tablesEq (tablesEq_setPage hz)), ?_⟩
    intro i p hi
    rw [walk_cons, follow_absent (hempty i hi)]
    rfl

end Create

end Zigix.Space
