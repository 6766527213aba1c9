import Zigix.Lib.Slots
import Zigix.Mm.Vma

/-!
# Disjoint areas

What the operations of `vma.zig` do to the address ranges of a table.

* `handleRangeRemoval_spec`, `splitForProtect_spec` : trimming and splitting refine.
-/

namespace Zigix.Vma

open Slots Pmm

def range (v : Vma) : Set Nat := {a | v.inUse = true ∧ v.start ≤ a ∧ a < v.stop}

def ranges (list : VmaList) : Fin maxVmas → Set Nat := fun i => (list i).range

/-- The areas in use are pairwise disjoint. -/
def NoOverlap (list : VmaList) : Prop := Apart (ranges list)

theorem ranges_update (list : VmaList) (i : Fin maxVmas) (v : Vma) :
    ranges (Function.update list i v) = Function.update (ranges list) i v.range :=
  Function.comp_update range list i v

theorem contains_iff {v : Vma} {a : Nat} : v.contains a = true ↔ a ∈ v.range := by
  simp [contains, range, and_assoc]

theorem range_eq_empty {v : Vma} (h : v.inUse = false) : v.range = ∅ := by
  simp [range, h]

theorem findVma_some {list : VmaList} {a : Nat} {i : Fin maxVmas} (h : findVma list a = some i) :
    a ∈ (list i).range := contains_iff.1 (Fin.eq_true_of_find?_eq_some h)

theorem findStart_some {list : VmaList} {a : Nat} {i : Fin maxVmas} (h : findStart list a = some i) :
    (list i).inUse = true ∧ (list i).start = a := by
  simpa using Fin.eq_true_of_find?_eq_some h

theorem firstFree_some {list : VmaList} {i : Fin maxVmas} (h : firstFree list = some i) :
    (list i).inUse = false := by
  simpa using Fin.eq_true_of_find?_eq_some h

theorem firstFree_none {list : VmaList} (h : firstFree list = none) (i : Fin maxVmas) : (list i).inUse = true := by
  simpa using Fin.eq_false_of_find?_eq_none h i

theorem twoFree_some {list : VmaList} {mid right : Fin maxVmas} (h : twoFree list = some (mid, right)) :
    (list mid).inUse = false ∧ (list right).inUse = false ∧ right ≠ mid := by
  unfold twoFree at h
  obtain ⟨m, hm, h'⟩ := Option.bind_eq_some_iff.1 h
  obtain ⟨r, hr, h''⟩ := Option.bind_eq_some_iff.1 h'
  cases h''
  have hr' : (list right).inUse = false ∧ right ≠ mid := by simpa using Fin.eq_true_of_find?_eq_some hr
  exact ⟨firstFree_some hm, hr'⟩

theorem place_some {list list' : VmaList} {v : Vma} (h : place list v = some list') :
    ∃ i, (list i).inUse = false ∧ list' = Function.update list i v := by
  unfold place at h
  obtain ⟨i, hi, rfl⟩ := Option.map_eq_some_iff.1 h
  exact ⟨i, firstFree_some hi, rfl⟩

theorem place_none {list : VmaList} {v : Vma} (h : place list v = none) (i : Fin maxVmas) :
    (list i).inUse = true := by
  unfold place at h
  exact firstFree_none (Option.map_eq_none_iff.1 h) i

/-- **Adding an area.** A range that no area covers keeps the table disjoint. -/
theorem place_spec {list list' : VmaList} {v : Vma} (h : NoOverlap list)
    (hv : Disjoint v.range (covered (ranges list))) (hp : place list v = some list') :
    NoOverlap list' ∧ covered (ranges list') ⊆ covered (ranges list) ∪ v.range := by
  obtain ⟨i, -, rfl⟩ := place_some hp
  rw [NoOverlap, ranges_update]
  exact ⟨h.replace fun k _ => hv.mono_right (subset_covered _ k), covered_update _ _ _⟩

/-- `list'` covers no address that `list` does not cover, and has no overlap if `list` has none. -/
def Refines (list list' : VmaList) : Prop :=
  NoOverlap list → NoOverlap list' ∧ covered (ranges list') ⊆ covered (ranges list)

theorem Refines.refl (list : VmaList) : Refines list list := fun h => ⟨h, subset_rfl⟩

theorem Refines.trans {l₁ l₂ l₃ : VmaList} (h : Refines l₁ l₂) (h' : Refines l₂ l₃) : Refines l₁ l₃ := fun h₁ =>
  have h₂ := h h₁
  have h₃ := h' h₂.1
  ⟨h₃.1, h₃.2.trans h₂.2⟩

section Pieces
variable {list : VmaList} {i j k : Fin maxVmas} {v w x : Vma}

theorem refines_shrink (hv : v.range ⊆ (list i).range) : Refines list (Function.update list i v) := by
  intro h
  rw [NoOverlap, ranges_update]
  exact ⟨h.shrink hv, covered_shrink hv⟩

theorem refines_split (hij : j ≠ i) (hv : v.range ⊆ (list i).range) (hw : w.range ⊆ (list i).range)
    (hvw : Disjoint v.range w.range) : Refines list (Function.update (Function.update list i v) j w) := by
  intro h
  rw [NoOverlap, ranges_update, ranges_update]
  exact ⟨h.split hij hv hw hvw, covered_split hv hw⟩

end Pieces

section Cut
variable {v : Vma} {cut start stop offset size : Nat} {flags : Flags}

theorem mem_left {a : Nat} : a ∈ (v.left cut).range ↔ v.inUse = true ∧ v.start ≤ a ∧ a < cut := Iff.rfl

theorem left_subset (h : cut ≤ v.stop) : (v.left cut).range ⊆ v.range :=
  fun _ ha => ⟨ha.1, ha.2.1, ha.2.2.trans_le h⟩

theorem piece_subset (hu : v.inUse = true) (h₁ : v.start ≤ start) (h₂ : stop ≤ v.stop) :
    (v.piece start stop flags offset size).range ⊆ v.range :=
  fun _ ha => ⟨hu, h₁.trans ha.2.1, ha.2.2.trans_le h₂⟩

theorem left_disjoint_piece (h : cut ≤ start) :
    Disjoint (v.left cut).range (v.piece start stop flags offset size).range :=
  Set.disjoint_left.2 fun _ ha hb => absurd (ha.2.2.trans_le (h.trans hb.2.1)) (lt_irrefl _)

theorem mem_left_iff {v : Vma} {cut a : Nat} (hcut : cut ≤ v.stop) :
    a ∈ (v.left cut).range ↔ a ∈ v.range ∧ a < cut := by
  rw [mem_left]
  constructor
  · rintro ⟨hu, hstart, hlt⟩
    exact ⟨⟨hu, hstart, hlt.trans_le hcut⟩, hlt⟩
  · rintro ⟨hmem, hlt⟩
    exact ⟨hmem.1, hmem.2.1, hlt⟩

theorem mem_piece_iff {v : Vma} {start stop a offset size : Nat} {flags : Flags} (hu : v.inUse = true)
    (hstart : v.start ≤ start) (hstop : stop ≤ v.stop) :
    a ∈ (v.piece start stop flags offset size).range ↔ a ∈ v.range ∧ start ≤ a ∧ a < stop := by
  constructor
  · rintro ⟨-, hle, hlt⟩
    exact ⟨⟨hu, hstart.trans hle, hlt.trans_le hstop⟩, hle, hlt⟩
  · rintro ⟨-, hle, hlt⟩
    exact ⟨rfl, hle, hlt⟩

theorem offsetAt_some {v : Vma} {cut offset : Nat} (h : v.offsetAt cut = some offset) (hi : v.inode.isSome) :
    offset = v.fileOffset + (cut - v.start) := by
  unfold offsetAt addU64 at h
  rw [if_pos hi] at h
  split at h
  · exact (Option.some.inj h).symm
  · cases h

theorem shiftedOffset_some {v : Vma} {cut offset : Nat} (h : v.shiftedOffset cut = some offset)
    (hi : v.inode.isSome) : offset = v.fileOffset + (cut - v.start) := by
  have hoff : v.offsetAt cut = some offset := by
    unfold shiftedOffset at h
    unfold offsetAt
    rw [if_pos hi] at h ⊢
    exact h
  exact offsetAt_some hoff hi

end Cut

/-- Three parts: the middle one moved to slot `j`, the right one to slot `k`. -/
theorem refines_split3 {list : VmaList} {i j k : Fin maxVmas} {s c : Nat} {flags flags' : Flags}
    {offset offset' size size' : Nat} (hji : j ≠ i) (hki : k ≠ i) (hkj : k ≠ j) (hu : (list i).inUse = true)
    (hs : (list i).start ≤ s) (hsc : s ≤ c) (hc : c ≤ (list i).stop) :
    Refines list (Function.update (Function.update (Function.update list i ((list i).left s)) j
      ((list i).piece s c flags offset size)) k ((list i).piece c (list i).stop flags' offset' size')) := by
  -- cut off the right part first, then divide what is left
  let right := (list i).piece c (list i).stop flags' offset' size'
  let list₁ := Function.update (Function.update list i ((list i).left c)) k right
  have h₁ : Refines list list₁ :=
    refines_split hki (left_subset hc) (piece_subset hu (by omega) le_rfl) (left_disjoint_piece le_rfl)
  have hi : list₁ i = (list i).left c := by simp [list₁, Function.update_of_ne hki.symm]
  let mid := (list i).piece s c flags offset size
  have h₂ : Refines list₁ (Function.update (Function.update list₁ i ((list i).left s)) j mid) := refines_split hji
    (by rw [hi]; exact fun a ha => ⟨hu, ha.2.1, ha.2.2.trans_le hsc⟩)
    (by rw [hi]; exact fun a ha => ⟨hu, hs.trans ha.2.1, ha.2.2⟩) (left_disjoint_piece le_rfl)
  convert h₁.trans h₂ using 1
  simp only [list₁, right, mid]
  rw [Function.update_comm hki.symm, Function.update_idem, Function.update_comm hki, Function.update_comm hkj]

/-! ## Removing a range -/

theorem outside_update {list : VmaList} {i : Fin maxVmas} {v : Vma} {C : Set Nat} (hv : Disjoint v.range C)
    (j : Fin maxVmas) (hj : j = i ∨ Disjoint (list j).range C) : Disjoint (Function.update list i v j).range C := by
  by_cases hji : j = i
  · subst hji
    rwa [Function.update_self]
  · rw [Function.update_of_ne hji]
    exact hj.resolve_left hji

theorem ne_of_free {list : VmaList} {i j : Fin maxVmas} {v : Vma}
    (h : (Function.update list i v j).inUse = false) (hv : v.inUse = true) : j ≠ i := by
  rintro rfl
  rw [Function.update_self, hv] at h
  cases h

/-- The turn does nothing with such an area. -/
def Clear (s e : Nat) (v : Vma) : Prop := v.inUse = false ∨ v.stop ≤ s ∨ e ≤ v.start

structure Meets (s e : Nat) (v : Vma) : Prop where
  inUse : v.inUse = true
  stop : s < v.stop
  start : v.start < e

/-- The area `[rmEnd, stop)` that is left of `v` when its start is cut off. -/
def trimStart (v : Vma) (cut offset : Nat) : Vma :=
  { v with start := cut, fileOffset := offset, fileSize := v.sizeFrom cut }

/-- What one turn does to slot `i`. -/
inductive Turn (s e : Nat) (list : VmaList) (i : Fin maxVmas) : Bool → VmaList → Prop
  | clear : Clear s e (list i) → Turn s e list i true list
  | inside : Meets s e (list i) → s ≤ (list i).start → (list i).stop ≤ e →
      Turn s e list i true (Function.update list i { list i with inUse := false })
  | split {j offset} : Meets s e (list i) → (list i).start < s → e < (list i).stop →
      (list i).offsetAt e = some offset → j ≠ i → (list j).inUse = false →
      Turn s e list i true (Function.update (Function.update list i ((list i).left s)) j
        ((list i).piece e (list i).stop (list i).flags offset ((list i).sizeFrom e)))
  | full : Meets s e (list i) → (list i).start < s → e < (list i).stop → (∀ j, (list j).inUse = true) →
      Turn s e list i false (Function.update list i ((list i).left s))
  | trimEnd : Meets s e (list i) → (list i).start < s → (list i).stop ≤ e →
      Turn s e list i true (Function.update list i ((list i).left s))
  | trimStart {offset} : Meets s e (list i) → s ≤ (list i).start → e < (list i).stop →
      (list i).shiftedOffset e = some offset →
      Turn s e list i true (Function.update list i ((list i).trimStart e offset))

section
variable {s e : Nat} {list list' : VmaList} {i : Fin maxVmas} {b : Bool}

theorem removeFrom_turn (h : removeFrom s e list i = some (b, list')) : Turn s e list i b list' := by
  unfold removeFrom at h
  simp only at h
  split at h
  · rename_i hu
    cases h
    exact .clear (.inl (by simpa using hu))
  rename_i hu
  have hu : (list i).inUse = true := by simpa using hu
  split at h
  · rename_i hno
    cases h
    exact .clear (.inr hno)
  rename_i hov
  have hmeets : Meets s e (list i) := ⟨hu, by omega, by omega⟩
  split at h
  · rename_i hin
    cases h
    exact .inside hmeets hin.1 hin.2
  split at h
  · rename_i hsplit
    obtain ⟨offset, hoff, h⟩ := Option.bind_eq_some_iff.1 h
    split at h
    · rename_i hplace
      cases h
      refine .full hmeets hsplit.1 hsplit.2 fun j => ?_
      have hall := place_none hplace j
      by_cases hji : j = i
      · rw [hji]
        exact hu
      · rwa [Function.update_of_ne hji] at hall
    · rename_i hplace
      cases h
      obtain ⟨j, hfree, rfl⟩ := place_some hplace
      have hji := ne_of_free hfree hu
      rw [Function.update_of_ne hji] at hfree
      exact .split hmeets hsplit.1 hsplit.2 hoff hji hfree
  split at h
  · rename_i hleft
    cases h
    exact .trimEnd hmeets hleft (by omega)
  · obtain ⟨offset, hoff, h⟩ := Option.bind_eq_some_iff.1 h
    cases h
    exact .trimStart hmeets (by omega) (by omega) hoff

/-- The other slots keep their areas; a free one may get the part behind the range. -/
theorem Turn.others (h : Turn s e list i b list') {j : Fin maxVmas} (hji : j ≠ i) :
    list' j = list j ∨ (list j).inUse = false ∧ Clear s e (list' j) := by
  cases h with
  | clear => exact .inl rfl
  | inside => exact .inl (Function.update_of_ne hji ..)
  | @split k offset _ _ _ _ hki hfree =>
    by_cases hjk : j = k
    · subst hjk
      rw [Function.update_self]
      exact .inr ⟨hfree, .inr (.inr le_rfl)⟩
    · exact .inl (by rw [Function.update_of_ne hjk, Function.update_of_ne hji])
  | full => exact .inl (Function.update_of_ne hji ..)
  | trimEnd => exact .inl (Function.update_of_ne hji ..)
  | trimStart => exact .inl (Function.update_of_ne hji ..)

/-- What one turn achieves: slot `i` leaves the range and no other slot enters it, unless the table is full. -/
structure Removed (s e : Nat) (list : VmaList) (i : Fin maxVmas) (b : Bool) (list' : VmaList) : Prop where
  refines : Refines list list'
  outside : b = true → ∀ j, (j = i ∨ Disjoint (list j).range (Set.Ico s e)) → Disjoint (list' j).range (Set.Ico s e)
  full : b = false → ∀ j, (list' j).inUse = true

theorem Removed.ofUnchanged {s e : Nat} {list : VmaList} {i : Fin maxVmas}
    (h : Disjoint (list i).range (Set.Ico s e)) : Removed s e list i true list where
  refines := .refl list
  outside _ j hj := by
    rcases hj with rfl | hj
    · exact h
    · exact hj
  full := nofun

theorem Removed.ofShrunk {s e : Nat} {list : VmaList} {i : Fin maxVmas} {v : Vma} (hv : v.range ⊆ (list i).range)
    (h : Disjoint v.range (Set.Ico s e)) : Removed s e list i true (Function.update list i v) where
  refines := refines_shrink hv
  outside _ := outside_update h
  full := nofun

/-- **One turn** keeps `Refines` and empties its part of the range. -/
theorem Turn.removed (h : Turn s e list i b list') (hse : s ≤ e) : Removed s e list i b list' := by
  have hleft : Disjoint ((list i).left s).range (Set.Ico s e) :=
    Set.disjoint_left.2 fun a ha hr => absurd (ha.2.2.trans_le hr.1) (lt_irrefl _)
  cases h with
  | clear hclear =>
    refine .ofUnchanged (Set.disjoint_left.2 fun a ha hr => ?_)
    have h₁ := ha.2
    have h₂ := Set.mem_Ico.1 hr
    rcases hclear with hc | hc | hc
    · exact absurd (hc.symm.trans ha.1) nofun
    · omega
    · omega
  | inside => exact .ofShrunk (by simp [range]) (by simp [range])
  | split hm hstart hstop hoff hji hfree =>
    -- left part in place, right part to a free slot
    refine ⟨refines_split hji (left_subset hm.stop.le) (piece_subset hm.inUse hm.start.le le_rfl)
      (left_disjoint_piece hse), fun _ k hk => ?_, nofun⟩
    refine outside_update ?_ k (.inr (outside_update hleft k hk))
    exact Set.disjoint_left.2 fun a ha hr => absurd (hr.2.trans_le ha.2.1) (lt_irrefl _)
  | full hm hstart hstop hfull =>
    refine ⟨refines_shrink (left_subset hm.stop.le), nofun, fun _ j => ?_⟩
    by_cases hji : j = i
    · subst hji
      rw [Function.update_self]
      exact hm.inUse
    · rw [Function.update_of_ne hji]
      exact hfull j
  | trimEnd hm => exact .ofShrunk (left_subset hm.stop.le) hleft
  | trimStart hm hstart hstop hoff =>
    refine .ofShrunk (fun a ha => ⟨hm.inUse, ?_, ha.2.2⟩) (Set.disjoint_left.2 fun a ha hr => ?_)
    · have h₁ : e ≤ a := ha.2.1
      have h₂ := hm.start
      omega
    · exact absurd (hr.2.trans_le ha.2.1) (lt_irrefl _)

end

theorem removeFrom_spec {s e : Nat} {list list' : VmaList} {i : Fin maxVmas} {b : Bool} (hse : s ≤ e)
    (h : removeFrom s e list i = some (b, list')) : Removed s e list i b list' := (removeFrom_turn h).removed hse

theorem removeLoop_spec {s e : Nat} (hse : s ≤ e) (is : List (Fin maxVmas)) {list list' : VmaList} {b : Bool}
    (h : removeLoop s e is list = some (b, list')) :
    Refines list list' ∧
      (b = true → ∀ j, (j ∈ is ∨ Disjoint (list j).range (Set.Ico s e)) → Disjoint (list' j).range (Set.Ico s e)) ∧
      (b = false → ∀ j, (list' j).inUse = true) := by
  induction is generalizing list with
  | nil =>
    cases h
    exact ⟨.refl _, fun _ j hj => hj.resolve_left List.not_mem_nil, nofun⟩
  | cons i is ih =>
    rw [removeLoop] at h
    rcases hr : removeFrom s e list i with - | ⟨b₁, list₁⟩
    · rw [hr] at h
      cases h
    · rw [hr] at h
      have hstep := removeFrom_spec hse hr
      cases b₁ with
      | false =>
        cases h
        exact ⟨hstep.refines, nofun, hstep.full⟩
      | true =>
        obtain ⟨hrest, hout, hfull⟩ := ih h
        refine ⟨hstep.refines.trans hrest, fun hb j hj => hout hb j ?_, hfull⟩
        rcases hj with hj | hj
        · rcases List.mem_cons.1 hj with rfl | hj
          · exact .inr (hstep.outside rfl j (.inl rfl))
          · exact .inl hj
        · exact .inr (hstep.outside rfl j (.inr hj))

/-- **Range removal** refines the table, and empties the range unless the table is full. -/
theorem handleRangeRemoval_spec {s e : Nat} (hse : s ≤ e) {list list' : VmaList} {b : Bool}
    (h : handleRangeRemoval list s e = some (b, list')) :
    Refines list list' ∧ (b = true → Disjoint (Set.Ico s e) (covered (ranges list'))) ∧
      (b = false → ∀ j, (list' j).inUse = true) := by
  obtain ⟨href, hout, hfull⟩ := removeLoop_spec hse _ h
  refine ⟨href, fun hb => ?_, hfull⟩
  exact Set.disjoint_iUnion_right.2 fun j => (hout hb j (.inl (List.mem_finRange j))).symm

/-! ## Changing the protection of a range -/

/-- There are free slots for the pieces that an area leaves outside `[start, stop)`. -/
def RoomToSplit (list : VmaList) (v : Vma) (start stop : Nat) : Prop :=
  start = v.start ∧ v.stop ≤ stop ∨
  ((start = v.start ∨ v.stop ≤ stop) ∧ ∃ j, (list j).inUse = false) ∨
  ∃ j k, j ≠ k ∧ (list j).inUse = false ∧ (list k).inUse = false

theorem inUse_update {list : VmaList} {v : Vma} {i : Fin maxVmas} (hv : v.inUse = (list i).inUse) (j : Fin maxVmas) :
    (Function.update list i v j).inUse = (list j).inUse := by
  by_cases hji : j = i
  · subst hji
    rwa [Function.update_self]
  · rw [Function.update_of_ne hji]

theorem twoFree_none {list : VmaList} (h : twoFree list = none) {j k : Fin maxVmas} (hj : (list j).inUse = false)
    (hk : (list k).inUse = false) : j = k := by
  unfold twoFree at h
  rcases hmid : firstFree list with - | mid
  · have := firstFree_none hmid j
    rw [hj] at this
    cases this
  · rw [hmid] at h
    rcases hright : Fin.find? (fun j => !(list j).inUse && decide (j ≠ mid)) with - | right
    · have hnone : ∀ l, (list l).inUse = false → l = mid := by
        intro l hl
        simpa [hl] using Fin.eq_false_of_find?_eq_none hright l
      rw [hnone j hj, hnone k hk]
    · simp only [bind, Option.bind_some, hright, pure] at h
      cases h

section
variable {list list' : VmaList} {i : Fin maxVmas} {v w : Vma}

theorem place_second_none (hp : place (Function.update list i v) w = none) (hv : v.inUse = (list i).inUse)
    (j : Fin maxVmas) : (list j).inUse = true := by
  have := place_none hp j
  rwa [inUse_update hv] at this

theorem place_second_some (hp : place (Function.update list i v) w = some list') (hu : (list i).inUse = true)
    (hv : v.inUse = (list i).inUse) :
    ∃ j, j ≠ i ∧ (list j).inUse = false ∧ list' = Function.update (Function.update list i v) j w := by
  obtain ⟨j, hfree, rfl⟩ := place_some hp
  have hji : j ≠ i := ne_of_free hfree (hv.trans hu)
  rw [inUse_update hv] at hfree
  exact ⟨j, hji, hfree, rfl⟩

end

/-- What `splitForProtect` does to the area `i` that covers the start of the range; `c` is the end of the range, or of
the area if that comes first. -/
inductive Divided (s c : Nat) (flags : Flags) (list : VmaList) (i : Fin maxVmas) : Bool → VmaList → Prop
  | full : ¬ RoomToSplit list (list i) s c → Divided s c flags list i false list
  | whole : s = (list i).start → c = (list i).stop →
      Divided s c flags list i true (Function.update list i { list i with flags })
  | front {j offset} : s = (list i).start → c < (list i).stop → (list i).offsetAt c = some offset → j ≠ i →
      (list j).inUse = false →
      Divided s c flags list i true (Function.update (Function.update list i { (list i).left c with flags }) j
        ((list i).piece c (list i).stop (list i).flags offset ((list i).sizeFrom c)))
  | back {j offset} : (list i).start < s → c = (list i).stop → (list i).offsetAt s = some offset → j ≠ i →
      (list j).inUse = false →
      Divided s c flags list i true (Function.update (Function.update list i ((list i).left s)) j
        ((list i).piece s (list i).stop flags offset ((list i).sizeFrom s)))
  | middle {j k offset offset'} : (list i).start < s → c < (list i).stop → (list i).offsetAt s = some offset →
      (list i).offsetAt c = some offset' → j ≠ i → k ≠ i → k ≠ j → (list j).inUse = false → (list k).inUse = false →
      Divided s c flags list i true (Function.update (Function.update (Function.update list i ((list i).left s)) j
        ((list i).piece s c flags offset (min ((list i).sizeFrom s) (c - s)))) k
        ((list i).piece c (list i).stop (list i).flags offset' ((list i).sizeFrom c)))

section
variable {s e c : Nat} {list list' : VmaList} {i : Fin maxVmas} {flags : Flags} {b : Bool}

theorem splitForProtect_divided (hfind : findVma list s = some i)
    (h : splitForProtect list s e flags = some (b, list')) : Divided s (min e (list i).stop) flags list i b list' := by
  have hs := findVma_some hfind
  have hu := hs.1
  have hc : (if e > (list i).stop then (list i).stop else e) = min e (list i).stop := by
    split <;> omega
  unfold splitForProtect at h
  rw [hfind] at h
  simp only at h
  rw [hc] at h
  generalize hce : min e (list i).stop = c at h
  have hcs : c ≤ (list i).stop := by omega
  split at h
  · next hwhole =>
    cases h
    exact .whole hwhole.1 hwhole.2
  next hpart =>
  have hnotAll : ¬ (s = (list i).start ∧ (list i).stop ≤ c) := by omega
  have hfull : (∀ j, (list j).inUse = true) → ¬ RoomToSplit list (list i) s c := by
    rintro hall (h | ⟨-, j, hj⟩ | ⟨j, k, -, hj, -⟩)
    · exact hnotAll h
    all_goals simp [hall j] at hj
  split at h
  · next hstart =>
    obtain ⟨offset, hoff, h⟩ := Option.bind_eq_some_iff.1 h
    split at h
    · next hplace =>
      cases h
      exact .full (hfull (place_second_none hplace rfl))
    · next hplace =>
      cases h
      obtain ⟨j, hji, hfree, rfl⟩ := place_second_some hplace hu rfl
      exact .front hstart (by omega) hoff hji hfree
  next hstart =>
  have hlt : (list i).start < s := by
    have := hs.2.1
    omega
  split at h
  · next hstop =>
    obtain ⟨offset, hoff, h⟩ := Option.bind_eq_some_iff.1 h
    split at h
    · next hplace =>
      cases h
      exact .full (hfull (place_second_none hplace rfl))
    · next hplace =>
      cases h
      obtain ⟨j, hji, hfree, rfl⟩ := place_second_some hplace hu rfl
      exact .back hlt hstop hoff hji hfree
  · next hstop =>
    obtain ⟨offset, hoff, h⟩ := Option.bind_eq_some_iff.1 h
    obtain ⟨offset', hoff', h⟩ := Option.bind_eq_some_iff.1 h
    have hsame : ∀ j, (Function.update list i ((list i).left s) j).inUse = (list j).inUse := inUse_update rfl
    split at h
    · next htwo =>
      cases h
      refine .full ?_
      rintro (hr | ⟨hr, -⟩ | ⟨j, k, hjk, hj, hk⟩)
      · exact hnotAll hr
      · omega
      · exact hjk (twoFree_none htwo ((hsame j).trans hj) ((hsame k).trans hk))
    · next j k htwo =>
      cases h
      obtain ⟨hj, hk, hkj⟩ := twoFree_some htwo
      refine .middle hlt (by omega) hoff hoff' (ne_of_free hj hu) (ne_of_free hk hu) hkj ?_ ?_
      · exact (hsame j).symm.trans hj
      · exact (hsame k).symm.trans hk

theorem Divided.room (h : Divided s c flags list i b list') : b = true ↔ RoomToSplit list (list i) s c := by
  cases h with
  | full hno => exact ⟨nofun, fun hroom => absurd hroom hno⟩
  | whole hstart hstop => exact ⟨fun _ => .inl ⟨hstart, hstop.ge⟩, fun _ => rfl⟩
  | @front j _ hstart _ _ _ hfree => exact ⟨fun _ => .inr (.inl ⟨.inl hstart, j, hfree⟩), fun _ => rfl⟩
  | @back j _ _ hstop _ _ hfree => exact ⟨fun _ => .inr (.inl ⟨.inr hstop.ge, j, hfree⟩), fun _ => rfl⟩
  | @middle j k _ _ _ _ _ _ _ _ hkj hj hk => exact ⟨fun _ => .inr (.inr ⟨k, j, hkj, hk, hj⟩), fun _ => rfl⟩

theorem roomToSplit_min {v : Vma} : RoomToSplit list v s (min e v.stop) ↔ RoomToSplit list v s e := by
  have hstop : v.stop ≤ min e v.stop ↔ v.stop ≤ e := by omega
  unfold RoomToSplit
  rw [hstop]

theorem Divided.refines (h : Divided s c flags list i b list') (hs : s ∈ (list i).range) (hsc : s < c)
    (hc : c ≤ (list i).stop) : Refines list list' := by
  have hu := hs.1
  have hleft : ((list i).left s).range ⊆ (list i).range := left_subset hs.2.2.le
  cases h with
  | full => exact .refl list
  | whole => exact refines_shrink fun a ha => ha
  | front hstart _ _ hji =>
    exact refines_split hji (left_subset hc) (piece_subset hu (by omega) le_rfl) (left_disjoint_piece le_rfl)
  | back hstart _ _ hji =>
    exact refines_split hji hleft (piece_subset hu hs.2.1 le_rfl) (left_disjoint_piece le_rfl)
  | middle _ _ _ _ hji hki hkj => exact refines_split3 hji hki hkj hu hs.2.1 hsc.le hc

theorem splitForProtect_spec (hse : s < e) (h : splitForProtect list s e flags = some (b, list')) :
    Refines list list' := by
  cases hfind : findVma list s with
  | none =>
    unfold splitForProtect at h
    rw [hfind] at h
    cases h
    exact .refl list
  | some i =>
    have hs := findVma_some hfind
    exact (splitForProtect_divided hfind h).refines hs (lt_min hse hs.2.2) (min_le_right _ _)

end

end Zigix.Vma
