import Mathlib.Order.CompletePartialOrder
import Mathlib.Data.Set.Lattice
import Mathlib.Data.Set.Pairwise.Basic

/-!
# Families of disjoint sets under updates

A table of slots, each owning a set. `Apart f` says that no two slots own the same element and `covered f` is what
they own together; the lemmas say what replacing, shrinking and splitting one slot does to both.
-/

namespace Slots

variable {ι α : Type*}

/-- No element has two owners. -/
def Apart (f : ι → Set α) : Prop := Pairwise (Function.onFun Disjoint f)

/-- The elements that have an owner. -/
def covered (f : ι → Set α) : Set α := ⋃ i, f i

theorem mem_covered {f : ι → Set α} {a : α} : a ∈ covered f ↔ ∃ i, a ∈ f i := Set.mem_iUnion

theorem subset_covered (f : ι → Set α) (i : ι) : f i ⊆ covered f := Set.subset_iUnion f i

variable [DecidableEq ι] {f : ι → Set α} {i j : ι} {s t : Set α}

theorem covered_update (f : ι → Set α) (i : ι) (s : Set α) : covered (Function.update f i s) ⊆ covered f ∪ s := by
  intro a ha
  obtain ⟨k, hk⟩ := mem_covered.1 ha
  by_cases hki : k = i
  · subst hki
    rw [Function.update_self] at hk
    exact .inr hk
  · rw [Function.update_of_ne hki] at hk
    exact .inl (subset_covered f k hk)

/-- Slot `i` may own any set that the other slots leave alone. -/
theorem Apart.replace (h : Apart f) (hs : ∀ k, k ≠ i → Disjoint s (f k)) : Apart (Function.update f i s) := by
  intro k l hkl
  show Disjoint (Function.update f i s k) (Function.update f i s l)
  by_cases hk : k = i
  · subst hk
    rw [Function.update_self, Function.update_of_ne hkl.symm]
    exact hs l hkl.symm
  · by_cases hl : l = i
    · subst hl
      rw [Function.update_self, Function.update_of_ne hkl]
      exact (hs k hkl).symm
    · rw [Function.update_of_ne hk, Function.update_of_ne hl]
      exact h hkl

theorem Apart.shrink (h : Apart f) (hs : s ⊆ f i) : Apart (Function.update f i s) :=
  h.replace fun _ hk => (h hk.symm).mono_left hs

theorem covered_shrink (hs : s ⊆ f i) : covered (Function.update f i s) ⊆ covered f :=
  (covered_update f i s).trans (Set.union_subset subset_rfl (hs.trans (subset_covered f i)))

/-- Two disjoint parts of slot `i`, the second one moved to slot `j`. -/
theorem Apart.split (h : Apart f) (hij : j ≠ i) (hs : s ⊆ f i) (ht : t ⊆ f i) (hst : Disjoint s t) :
    Apart (Function.update (Function.update f i s) j t) := by
  refine (h.shrink hs).replace fun k hk => ?_
  by_cases hki : k = i
  · subst hki
    rw [Function.update_self]
    exact hst.symm
  · rw [Function.update_of_ne hki]
    exact (h (Ne.symm hki)).mono_left ht

theorem covered_split (hs : s ⊆ f i) (ht : t ⊆ f i) :
    covered (Function.update (Function.update f i s) j t) ⊆ covered f :=
  (covered_update _ j t).trans
    (Set.union_subset (covered_shrink hs) (ht.trans (subset_covered f i)))

end Slots
