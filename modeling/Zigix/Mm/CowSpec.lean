import Zigix.Mm.SpaceOps
import Zigix.Mm.Cow

/-!
# What copy-on-write faults and user accesses do to the mapped pages

* `translate_eq`, `getPTE_eq` : the two walks of the source are walks of the forest;
* `userWrite_spec` : a store that is performed changes one byte of one page of its own address space.
-/

namespace Zigix.Fault

open Forest Pmm Pte Vmm Space

/-- The path of the page table that holds the leaf of `virt`. -/
def tablePath (virt : Nat) : List Nat := [pml4Idx virt, pdptIdx virt, pdIdx virt]

/-- The path of the leaf of `virt`. -/
def leafPath (virt : Nat) : List Nat := tablePath virt ++ [ptIdx virt]

section Paths
variable {virt : Nat}

theorem leafPath_user (h : virt < userEnd) : UserPath (leafPath virt) := by
  have h1 : pml4Idx virt < 256 := by
    unfold pml4Idx
    unfold userEnd at h
    omega
  refine ⟨by simp [leafPath, tablePath], fun i hi => ?_, fun i hi => ?_⟩
  · simp only [leafPath, tablePath, List.cons_append, List.nil_append, List.mem_cons, List.not_mem_nil, or_false] at hi
    unfold pdptIdx pdIdx ptIdx at hi
    rcases hi with rfl | rfl | rfl | rfl <;> omega
  · simp only [leafPath, tablePath, List.cons_append, List.head?_cons, Option.some.injEq] at hi
    omega

theorem leafPath_length : (leafPath virt).length = 4 := rfl

theorem tablePath_user (h : virt < userEnd) : UserPath (tablePath virt) :=
  UserPath.of_append _ _ (leafPath_user h)

theorem pdptIdx_lt : pdptIdx virt < 512 := Nat.mod_lt _ (by decide)

theorem pdIdx_lt : pdIdx virt < 512 := Nat.mod_lt _ (by decide)

theorem ptIdx_lt : ptIdx virt < 512 := Nat.mod_lt _ (by decide)

theorem leafPath_pageBase : leafPath (pageBase virt) = leafPath virt := by
  have h : pageBase virt = virt / 2 ^ 12 * 2 ^ 12 := by
    unfold pageBase pageSize
    omega
  have h4 : virt / 2 ^ 12 * 2 ^ 12 / 2 ^ 39 = virt / 2 ^ 39 := by omega
  have h3 : virt / 2 ^ 12 * 2 ^ 12 / 2 ^ 30 = virt / 2 ^ 30 := by omega
  have h2 : virt / 2 ^ 12 * 2 ^ 12 / 2 ^ 21 = virt / 2 ^ 21 := by omega
  have h1 : virt / 2 ^ 12 * 2 ^ 12 / 2 ^ 12 = virt / 2 ^ 12 := by omega
  rw [leafPath, leafPath, tablePath, tablePath, pml4Idx, pdptIdx, pdIdx, ptIdx, h, h4, h3, h2, h1]
  rfl

theorem pageBase_lt (h : virt < userEnd) : pageBase virt < userEnd := lt_of_le_of_lt (Nat.sub_le _ _) h

end Paths

section Walks
variable {R : Set Nat} {pins : Nat → Nat} {m : Machine} {r : Nat} {virt : Nat}

/-- The entry `i` of a table above the last level below a live PML4 is not huge. -/
theorem huge_eq_false (h : Inv R pins m) {q : List Nat} {t i : Nat} (ht : Node R m r q t)
    (hq : q.length = 1 ∨ q.length = 2) (hi : i < 512) {f : Nat} (hf : follow m t i = some f) :
    isHuge (m.mem t i) = false := h.noHuge ht hq hi (follow_some.1 hf).1

theorem walk_noHuge (h : Inv R pins m) (hr : r ∈ R) (hv : virt < userEnd) {pdpt pd : Nat}
    (h4 : follow m r (pml4Idx virt) = some pdpt) (h3 : follow m pdpt (pdptIdx virt) = some pd) :
    isHuge (m.mem pdpt (pdptIdx virt)) = false ∧
      ∀ {pt}, follow m pd (pdIdx virt) = some pt → isHuge (m.mem pd (pdIdx virt)) = false := by
  have hu := tablePath_user hv
  have hn1 : Node R m r [pml4Idx virt] pdpt :=
    ⟨hr, UserPath.of_append [_] [pdptIdx virt, pdIdx virt] hu, by simp [walk_cons, h4]⟩
  have hn2 : Node R m r [pml4Idx virt, pdptIdx virt] pd :=
    ⟨hr, UserPath.of_append [_, _] [pdIdx virt] hu, by simp [walk_cons, h4, h3]⟩
  exact ⟨huge_eq_false h hn1 (by simp) pdptIdx_lt h3, fun h2 => huge_eq_false h hn2 (by simp) pdIdx_lt h2⟩

theorem getPTE_eq (h : Inv R pins m) (hr : r ∈ R) (hv : virt < userEnd) :
    getPTE m r virt = (walk (follow m) r (tablePath virt)).bind fun pt =>
      (follow m pt (ptIdx virt)).map fun _ => (pt, ptIdx virt) := by
  unfold getPTE tablePath
  simp only [walk_cons, walk_nil]
  cases h4 : follow m r (pml4Idx virt) with
  | none => rfl
  | some pdpt =>
    cases h3 : follow m pdpt (pdptIdx virt) with
    | none => simp [h3]
    | some pd =>
      obtain ⟨hh3, hh2⟩ := walk_noHuge h hr hv h4 h3
      cases h2 : follow m pd (pdIdx virt) with
      | none => simp [h3, h2, hh3]
      | some pt =>
        cases h1 : follow m pt (ptIdx virt) with
        | none => simp [h3, h2, h1, hh3, hh2 h2]
        | some f => simp [h3, h2, h1, hh3, hh2 h2]

theorem translate_eq (h : Inv R pins m) (hr : r ∈ R) (hv : virt < userEnd) :
    translate m r virt = (walk (follow m) r (leafPath virt)).map fun f => f * pageSize + virt % 2 ^ 12 := by
  unfold Vmm.translate leafPath tablePath
  simp only [List.cons_append, List.nil_append, walk_cons, walk_nil]
  cases h4 : follow m r (pml4Idx virt) with
  | none => rfl
  | some pdpt =>
    cases h3 : follow m pdpt (pdptIdx virt) with
    | none => simp [h3]
    | some pd =>
      obtain ⟨hh3, hh2⟩ := walk_noHuge h hr hv h4 h3
      cases h2 : follow m pd (pdIdx virt) with
      | none => simp [h3, h2, hh3]
      | some pt =>
        cases h1 : follow m pt (ptIdx virt) with
        | none => simp [h3, h2, h1, hh3, hh2 h2]
        | some f => simp [h3, h2, h1, hh3, hh2 h2]

theorem getPTE_some (h : Inv R pins m) (hr : r ∈ R) (hv : virt < userEnd) {pt i : Nat}
    (hg : getPTE m r virt = some (pt, i)) :
    i = ptIdx virt ∧ Node R m r (tablePath virt) pt ∧ isPresent (m.mem pt i) = true ∧
      Node R m r (leafPath virt) (frame (m.mem pt i)) := by
  rw [getPTE_eq h hr hv] at hg
  obtain ⟨pt', hw, hg⟩ := Option.bind_eq_some_iff.1 hg
  obtain ⟨f, hf, he⟩ := Option.map_eq_some_iff.1 hg
  cases he
  have hn : Node R m r (tablePath virt) pt := ⟨hr, tablePath_user hv, hw⟩
  obtain ⟨hp, rfl⟩ := follow_some.1 hf
  exact ⟨rfl, hn, hp, hn.concat (leafPath_user hv) hf⟩

theorem getPTE_of_leaf (h : Inv R pins m) (hr : r ∈ R) (hv : virt < userEnd) {pt : Nat}
    (ht : Node R m r (tablePath virt) pt) (hp : isPresent (m.mem pt (ptIdx virt)) = true) :
    getPTE m r virt = some (pt, ptIdx virt) := by
  rw [getPTE_eq h hr hv, ht.2.2]
  simp [follow, hp]

end Walks

/-! ## Copy-on-write -/

section Cow
variable {R : Set Nat} {pins : Nat → Nat} {m m' : Machine} {r : Nat} {virt : Nat}

def SamePages (R : Set Nat) (m m' : Machine) : Prop :=
  ∀ r p, r ∈ R → UserPath p → p.length = 4 → page m' r p = page m r p

theorem SamePages.of_keeps (h : Keeps R (fun _ _ => False) m m') : SamePages R m m' :=
  fun _ _ hr hp hl => h.page hr hp hl id

theorem weight_le_of_ref (h : Inv R pins m) {f : Nat} {p : List Nat} (hn : Node R m r p f) (href : m.getRef f ≤ 1) :
    weight R pins m f ≤ 1 := by
  have hrc : m.pmm.refCounts f ≤ 1 := by
    have hlt := (h.inRange hn).2
    unfold Machine.getRef Pmm.getRef at href
    rwa [mul_div_pageSize, if_neg (by omega)] at href
  exact (h.sound.weight_le (a := f) (lt_of_le_of_lt hrc (by decide))).trans (by exact_mod_cast hrc)

theorem unique_of_ref (h : Inv R pins m) {f r' : Nat} {p p' : List Nat} (hn : Node R m r p f) (href : m.getRef f ≤ 1)
    (hn' : Node R m r' p' f) : r' = r ∧ p' = p := by
  have h1 : (nodes R m f).encard ≤ 1 := le_trans le_self_add (weight_le_of_ref h hn href)
  have := Set.encard_le_one_iff.1 h1 _ _ (node_mem hn') (node_mem hn)
  simp only [Prod.mk.injEq] at this
  exact ⟨this.1, this.2.1⟩

theorem uncached_of_ref (h : Inv R pins m) {f : Nat} {p : List Nat} (hn : Node R m r p f) (href : m.getRef f ≤ 1) :
    ∀ e ∈ m.cache, e.frame ≠ f := by
  intro e he hf
  have hw := weight_le_of_ref h hn href
  have h1 : 1 ≤ (nodes R m f).encard := Set.one_le_encard_iff_nonempty.2 ⟨_, node_mem hn⟩
  have h2 : 1 ≤ PageCache.cached m.cache f + pins f :=
    le_add_right (List.countP_pos_iff.2 ⟨e, he, by simp [hf]⟩)
  have h3 : ((1 + 1 : ℕ) : ℕ∞) ≤ ((1 : ℕ) : ℕ∞) := by
    rw [Nat.cast_add]
    exact (add_le_add (by exact_mod_cast h1) (by exact_mod_cast h2)).trans hw
  exact absurd (by exact_mod_cast h3 : (1 + 1 : ℕ) ≤ 1) (by decide)

theorem Keeps.atLeaf (h : Keeps R (Under r (leafPath virt)) m m') :
    Keeps R (fun r' p' => r' = r ∧ p' = leafPath virt) m m' := by
  have hon : ∀ {r' p'}, UserPath p' → Under r (leafPath virt) r' p' → r' = r ∧ p' = leafPath virt := by
    rintro r' p' hp' ⟨h1, hpre⟩
    exact ⟨h1, (hpre.eq_of_length_le (hp'.1.trans_eq leafPath_length.symm)).symm⟩
  exact ⟨fun hr hp hd => h.walk hr hp fun hs => hd (hon hp hs), fun hn hl hd => h.data hn hl fun hs => hd (hon hn.2.1 hs)⟩

/-- What `handleCow` establishes. -/
structure CowResolved (R : Set Nat) (pins : Nat → Nat) (r virt : Nat) (m : Machine) (res : Bool × Machine) : Prop where
  inv : Inv R pins res.2
  pages : SamePages R m res.2
  keeps : Keeps R (fun r' p' => r' = r ∧ p' = leafPath virt) m res.2
  leaves : Leaves R (fun r' p' => r' = r ∧ p' = leafPath virt) m res.2
  failed : res.1 = false → Leaves R (fun _ _ => False) m res.2
  uncached : res.1 = true → ∀ {f}, Node R res.2 r (leafPath virt) f → ∀ e ∈ res.2.cache, e.frame ≠ f
  writable : res.1 = true → ∃ pt, Node R res.2 r (tablePath virt) pt ∧ isPresent (res.2.mem pt (ptIdx virt)) = true ∧
    isWritable (res.2.mem pt (ptIdx virt)) = true

theorem cow_last (h : Inv R pins m) (hv : virt < userEnd) {pt : Nat} (ht : Node R m r (tablePath virt) pt)
    (hp : isPresent (m.mem pt (ptIdx virt)) = true) (href : m.getRef (frame (m.mem pt (ptIdx virt))) ≤ 1) :
    CowResolved R pins r virt m (true, m.setWord pt (ptIdx virt) (clearCow (m.mem pt (ptIdx virt)))) := by
  have hn : Node R m r (leafPath virt) (frame (m.mem pt (ptIdx virt))) :=
    ht.concat (leafPath_user hv) (follow_some.2 ⟨hp, rfl⟩)
  obtain ⟨hinv, hkeep, hleaf⟩ := h.reflag (D := fun _ _ => False) (w := clearCow (m.mem pt (ptIdx virt))) ht rfl
    (leafPath_user hv) (by simp) (by simp) fun _ _ r' p' hn' => unique_of_ref h hn href (by simpa using hn')
  refine ⟨hinv, SamePages.of_keeps hkeep, hkeep.mono fun _ _ => False.elim, hleaf, nofun, fun _ {f} hf => ?_,
    fun _ => ⟨pt, hkeep.node ht id, ?_, ?_⟩⟩
  · obtain rfl := hf.unique (hkeep.node hn id)
    exact uncached_of_ref h hn href
  · simp [hp]
  · simp

theorem cow_copy {new : Nat} (h : Inv R (pins + pin new) m) (href : m.pmm.refCounts new = 1) (hv : virt < userEnd)
    {pt : Nat} (ht : Node R m r (tablePath virt) pt) (hp : isPresent (m.mem pt (ptIdx virt)) = true) (fl : Flags)
    (hfl : fl.present = true ∧ fl.writable = true) :
    CowResolved R pins r virt m (true, ((m.copyPage new (frame (m.mem pt (ptIdx virt)))).decRef
      (frame (m.mem pt (ptIdx virt)))).setWord pt (ptIdx virt) (make fl new)) := by
  let old := frame (m.mem pt (ptIdx virt))
  have hslot := leafPath_user hv
  have hn : Node R m r (leafPath virt) old := ht.concat hslot (follow_some.2 ⟨hp, rfl⟩)
  have hpins := h.pins_lt href
  have hpin : (pins + pin new) new = 1 := by simp [hpins]
  obtain ⟨hun, huc⟩ := h.unlinked (href.trans hpin.symm) (by rw [hpin]; decide)
  have hframe : frame (make fl new) = new := frame_make _ _ (h.pin_inRange.2.trans_le h.total)
  have hpres : isPresent (make fl new) = true := by rw [isPresent_make]; exact hfl.1
  -- the copy
  have hz : ∀ {r p}, Node R m r p new → p.length = 4 := fun hn => absurd hn (hun _ _)
  have h₁ : Inv R (pins + pin new) (m.copyPage new old) := h.setPage hz
  have hk₁ : Keeps R (fun _ _ => False) m (m.copyPage new old) := keeps_setPage fun hn => absurd hn (hun _ _)
  have hun₁ : ∀ r p, ¬ Node R (m.copyPage new old) r p new := fun r p hn' =>
    hun r p ((TablesEq.node_iff (tablesEq_setPage hz)).1 hn')
  have ht₁ := hk₁.node ht id
  have hptne : pt ≠ new := fun he => hun _ _ (he ▸ ht)
  have hword : (m.copyPage new old).mem pt (ptIdx virt) = m.mem pt (ptIdx virt) := by
    simp [Machine.copyPage, Machine.setPage, hptne]
  -- the entry
  have htar : isPresent (make fl new) = true → Target R (m.copyPage new old) r (tablePath virt) (ptIdx virt)
      (make fl new) := by
    intro _
    refine ⟨by rw [hframe]; exact h.pin_inRange, ?_, fun hlt => absurd hlt (by simp [tablePath]),
      fun hlt => absurd hlt (by simp [tablePath]), ?_, ?_⟩
    · intro r' p' hn'
      exact absurd (hframe ▸ hn') (hun₁ _ _)
    · intro _ _ r' p' hn'
      exact absurd (hframe ▸ hn') (hun₁ _ _)
    · intro _ r' q' t' j hn' hq hj hpj _ hf
      rw [hframe] at hf
      have hq' : UserPath (q' ++ [j]) := hn'.2.1.concat (by omega) hj (by rintro rfl; simp at hq)
      exact absurd (hn'.concat hq' (follow_some.2 ⟨hpj, hf⟩)) (hun₁ _ _)
  have h₂ : Inv R (pins + pin old) ((m.copyPage new old).setWord pt (ptIdx virt) (make fl new)) := by
    refine h₁.relink ht₁ (by simp [tablePath]) hslot htar (fun {f} hf => ?_) fun g => ?_
    · rw [Pi.add_apply, pin_apply] at hf
      by_cases hg : f = old
      · rw [hg]
        exact h.inRange hn
      · rw [if_neg hg] at hf
        exact h.pinned (by rw [Pi.add_apply]; omega)
    · have h1 : hits (make fl new) g = pin new g := by
        simp only [hits, hpres, hframe, pin_apply, true_and, eq_comm (a := g)]
      have h2 : hits (m.mem pt (ptIdx virt)) g = pin old g := by
        simp only [hits, hp, pin_apply, true_and, eq_comm (a := g), old]
      have hsw : slotWeight (tablePath virt).length = 1 := rfl
      rw [hword, h1, h2, hsw, Pi.add_apply, Pi.add_apply]
      omega
  have hk₂ := keeps_setWord h₁ ht₁ (by simp [tablePath]) hslot htar
  have hwalk := (relinked h₁ ht₁ (by simp [tablePath]) hslot htar).walk_slot
  rw [if_pos hpres, hframe] at hwalk
  have hl₁ : Leaves R (fun r' p' => r' = r ∧ p' = leafPath virt) m (m.copyPage new old) :=
    .of_tablesEq (tablesEq_setPage hz)
  have hl₂ := hl₁.trans (leaves_relink h₁ ht₁ (by simp [tablePath]) hslot htar)
  have hk₃ := (hk₁.mono fun _ _ => False.elim).trans (Keeps.atLeaf hk₂)
  refine ⟨h₂.decRef, fun r' p' hr' hp' hl' => ?_, hk₃.trans (.of_mem rfl), hl₂.trans (.of_mem rfl), by intros; contradiction,
    fun _ {f} hf => ?_,
    fun _ => ⟨pt, hk₂.node ht₁ ?_, ?_, ?_⟩⟩
  · by_cases hs : Under r (leafPath virt) r' p'
    · -- the copied page itself
      obtain ⟨rfl, s, hs⟩ := hs
      have hs0 : s = [] := by
        have := congrArg List.length hs
        rw [List.length_append, leafPath_length, hl'] at this
        exact List.length_eq_zero_iff.1 (by omega)
      subst hs0
      rw [List.append_nil] at hs
      subst hs
      have hdata : (((m.copyPage new old).decRef old).setWord pt (ptIdx virt) (make fl new)).mem new = m.mem old := by
        funext j
        rw [mem_setWord_of_ne (by simp [Ne.symm hptne])]
        simp [Machine.decRef, Machine.copyPage, Machine.setPage]
      unfold page
      rw [hn.2.2]
      change Option.map _ (walk (follow ((m.copyPage new old).setWord pt (ptIdx virt) (make fl new))) r' (leafPath virt)) = _
      rw [show leafPath virt = tablePath virt ++ [ptIdx virt] from rfl, hwalk]
      exact congrArg some hdata
    · exact ((hk₂.page hr' hp' hl' hs).trans (hk₁.page hr' hp' hl' id))
  · have hw : walk (follow ((m.copyPage new old).setWord pt (ptIdx virt) (make fl new))) r (leafPath virt) = some f :=
      hf.2.2
    rw [show leafPath virt = tablePath virt ++ [ptIdx virt] from rfl, hwalk] at hw
    cases hw
    exact huc
  · rintro ⟨-, s, hs⟩
    have := congrArg List.length hs
    simp [tablePath] at this
  · simp [hpres]
  · simp [hfl.2]

/-- **Copy-on-write.** `handleCow` changes no page of any address space. -/
theorem handleCow_spec (h : Inv R pins m) (hr : r ∈ R) (hv : virt < userEnd) :
    CowResolved R pins r virt m (handleCow r virt m) := by
  have hsame : CowResolved R pins r virt m (false, m) := ⟨h, fun _ _ _ _ _ => rfl, .refl m, .refl m, fun _ => .refl m, nofun, nofun⟩
  unfold handleCow
  cases hg : getPTE m r virt with
  | none => exact hsame
  | some x =>
    obtain ⟨pt, i⟩ := x
    obtain ⟨rfl, ht, hp, hn⟩ := getPTE_some h hr hv hg
    dsimp only
    split
    · exact hsame
    split
    · next href => exact cow_last h hv ht hp href
    · rcases h.allocPage with ⟨h1, h2⟩ | ⟨new, h1, h2, h3⟩
      · have hmem : m.allocPage.2.mem = m.mem := rfl
        rcases ha : m.allocPage with ⟨o, m₁⟩
        rw [ha] at h1 h2 hmem
        cases h1
        exact ⟨h2, SamePages.of_keeps (.of_mem hmem), .of_mem hmem, .of_mem hmem, fun _ => .of_mem hmem, nofun, nofun⟩
      · have hmem : m.allocPage.2.mem = m.mem := rfl
        rcases ha : m.allocPage with ⟨o, m₁⟩
        rw [ha] at h1 h2 h3 hmem
        cases h1
        have hk : Keeps R (fun _ _ => False) m m₁ := .of_mem hmem
        have hres := cow_copy h2 h3 hv (hk.node ht id) (by rw [hmem]; exact hp)
          (cowFlags (noExecute (((m₁.copyPage new (frame (m.mem pt (ptIdx virt)))).decRef
            (frame (m.mem pt (ptIdx virt)))).mem pt (ptIdx virt)))) ⟨rfl, rfl⟩
        rw [hmem] at hres
        have hl : Leaves R (fun r' p' => r' = r ∧ p' = leafPath virt) m m₁ := .of_mem hmem
        exact ⟨hres.inv, fun r' p' hr' hp' hl' => (hres.pages r' p' hr' hp' hl').trans (hk.page hr' hp' hl' id),
          (hk.mono fun _ _ => False.elim).trans hres.keeps, hl.trans hres.leaves, nofun, hres.uncached, hres.writable⟩

/-! ## User accesses -/

theorem userRead_eq (h : Inv R pins m) (hr : r ∈ R) (hv : virt < userEnd) :
    userRead r virt m = (page m r (leafPath virt)).map fun c => Machine.pageByte c (virt % pageSize) := by
  have hoff : virt % pageSize < pageSize := Nat.mod_lt _ (by decide)
  unfold userRead page
  rw [if_pos hv, translate_eq h hr hv, Option.map_map, Option.map_map]
  congr 1
  funext f
  have hdiv : (f * pageSize + virt % pageSize) / pageSize = f := by
    rw [Nat.add_comm, Nat.add_mul_div_right _ _ (by decide), Nat.div_eq_of_lt hoff, Nat.zero_add]
  have hmod : (f * pageSize + virt % pageSize) % pageSize = virt % pageSize := by
    rw [Nat.add_comm, Nat.add_mul_mod_self_right, Nat.mod_mod]
  change Machine.pageByte (m.mem ((f * pageSize + virt % pageSize) / pageSize))
    ((f * pageSize + virt % pageSize) % pageSize) = _
  rw [hdiv, hmod]
  rfl

/-- The pages after a store of `b` at `virt` by the address space `r`. -/
structure Stored (R : Set Nat) (r virt : Nat) (b : BitVec 8) (m m' : Machine) : Prop where
  own : page m' r (leafPath virt) =
    (page m r (leafPath virt)).map fun c => Machine.setPageByte c (virt % pageSize) b
  mapped : (page m r (leafPath virt)).isSome
  others : ∀ r' p, r' ∈ R → UserPath p → p.length = 4 → ¬ (r' = r ∧ p = leafPath virt) → page m' r' p = page m r' p

theorem storeThrough_spec (h : Inv R pins m) (hr : r ∈ R) (hv : virt < userEnd) {b : BitVec 8}
    (hs : storeThrough r virt b m = some m') : Inv R pins m' ∧ Stored R r virt b m m' := by
  unfold storeThrough at hs
  split at hs
  · cases hs
  next pt i hg =>
  split at hs
  · next hw =>
    cases hs
    obtain ⟨rfl, ht, hp, hn⟩ := getPTE_some h hr hv hg
    have hexcl : ∀ {r' p'}, Node R m r' p' (frame (m.mem pt (ptIdx virt))) → r' = r ∧ p' = leafPath virt :=
      h.exclusive ht rfl ptIdx_lt hp hw
    have hleaf : ∀ {r' p'}, Node R m r' p' (frame (m.mem pt (ptIdx virt))) →
        p'.length = 4 ∧ (r' = r ∧ p' = leafPath virt) := by
      intro r' p' hn'
      refine ⟨?_, hexcl hn'⟩
      rw [(hexcl hn').2, leafPath_length]
    have hkeep : Keeps R (fun r' p' => r' = r ∧ p' = leafPath virt) m
        (m.storeByte (frame (m.mem pt (ptIdx virt))) (virt % pageSize) b) := keeps_setPage hleaf
    refine ⟨h.setPage fun hn' => (hleaf hn').1, ?_, ?_, fun r' p hr' hp' hl hd => hkeep.page hr' hp' hl hd⟩
    · have hwalk : walk (follow (m.storeByte (frame (m.mem pt (ptIdx virt))) (virt % pageSize) b)) r (leafPath virt) =
          some (frame (m.mem pt (ptIdx virt))) :=
        (walk_setPage (fun hn' => (hleaf hn').1) hr (leafPath_user hv)).trans hn.2.2
      unfold page
      rw [hwalk, hn.2.2]
      simp [Machine.storeByte, Machine.setPage]
    · simp [page, hn.2.2]
  · cases hs

theorem userWrite_spec (h : Inv R pins m) (hr : r ∈ R) (virt : Nat) (b : BitVec 8) :
    Inv R pins (userWrite r virt b m).2 ∧
      ((userWrite r virt b m).1 = false → SamePages R m (userWrite r virt b m).2) ∧
      ((userWrite r virt b m).1 = true → virt < userEnd ∧ Stored R r virt b m (userWrite r virt b m).2) := by
  unfold userWrite
  by_cases hv : virt < userEnd
  · rw [if_pos hv]
    cases hs : storeThrough r virt b m with
    | some m' =>
      obtain ⟨hinv, hst⟩ := storeThrough_spec h hr hv hs
      exact ⟨hinv, nofun, fun _ => ⟨hv, hst⟩⟩
    | none =>
      have hcow := handleCow_spec h hr (pageBase_lt hv)
      rcases hh : handleCow r (pageBase virt) m with ⟨ok, m'⟩
      rw [hh] at hcow
      cases ok with
      | false => exact ⟨hcow.inv, fun _ => hcow.pages, nofun⟩
      | true =>
        dsimp only
        cases hs' : storeThrough r virt b m' with
        | none => exact ⟨hcow.inv, fun _ => hcow.pages, nofun⟩
        | some m'' =>
          obtain ⟨hinv, hst⟩ := storeThrough_spec hcow.inv hr hv hs'
          have hown := hcow.pages r (leafPath virt) hr (leafPath_user hv) rfl
          refine ⟨hinv, nofun, fun _ => ⟨hv, ?_, ?_, fun r' p hr' hp hl hd => ?_⟩⟩
          · exact hst.own.trans (by rw [hown])
          · have := hst.mapped
            rwa [hown] at this
          · exact (hst.others r' p hr' hp hl hd).trans (hcow.pages r' p hr' hp hl)
  · rw [if_neg hv]
    exact ⟨h, fun _ _ _ _ _ _ => rfl, nofun⟩

end Cow

end Zigix.Fault
