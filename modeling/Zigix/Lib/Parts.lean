import Mathlib.Algebra.GroupWithZero.Nat
import Mathlib.Data.List.Basic
import Mathlib.Tactic.Common

/-!
# A list that is moved part by part

A loop goes through a list part by part and moves a front of each part. Whether it has moved a front of the whole list depends
on what it does behind the first part that it has not moved completely.

* `Stretch`, `moved` : the places of a part, and those that are moved;
* `Laid` : parts as a loop meets them, one behind the other until one is not moved completely;
* `Steady` : nothing is moved behind such a part;
* `moved_iff` : the places that are moved are the first ones of the list if and only if the loop is steady.
-/

namespace Parts

variable {α : Type*}

structure Stretch (α : Type*) where
  full : List α
  done : Nat

def Stretch.moved (p : Stretch α) : List α := p.full.take p.done

/-- The places that are moved, in order. -/
def moved (ps : List (Stretch α)) : List α := ps.flatMap Stretch.moved

/-- How many they are. -/
def total (ps : List (Stretch α)) : Nat := (ps.map Stretch.done).sum

/-- The parts of `xs`. Behind a part with a gap come others, but not the places of this one. -/
inductive Laid : List α → List (Stretch α) → Prop
  | nil (xs) : Laid xs []
  | whole {p rest ps} : p.done = p.full.length → Laid rest ps → Laid (p.full ++ rest) (p :: ps)
  | gap {p xs ps} : p.done < p.full.length → p.full <+: xs →
      (∀ q ∈ ps, q.done ≤ q.full.length ∧ ∀ x ∈ q.full, x ∉ p.full) → Laid xs (p :: ps)

def Steady (ps : List (Stretch α)) : Prop := ps.Pairwise fun p q => p.done < p.full.length → q.done = 0

theorem total_cons (p : Stretch α) (ps : List (Stretch α)) : total (p :: ps) = p.done + total ps := by simp [total]

theorem moved_cons (p : Stretch α) (ps : List (Stretch α)) : moved (p :: ps) = p.moved ++ moved ps := rfl

theorem total_append (ps qs : List (Stretch α)) : total (ps ++ qs) = total ps + total qs := by simp [total]

theorem moved_of_zero {ps : List (Stretch α)} (h : ∀ q ∈ ps, q.done = 0) : moved ps = [] ∧ total ps = 0 := by
  induction ps with
  | nil => exact ⟨rfl, rfl⟩
  | cons p ps ih =>
    obtain ⟨hmoved, htotal⟩ := ih fun q hq => h q (List.mem_cons_of_mem _ hq)
    have hp := h p List.mem_cons_self
    rw [moved_cons, total_cons, hmoved, htotal, hp]
    refine ⟨?_, rfl⟩
    unfold Stretch.moved
    rw [hp, List.take_zero, List.append_nil]

/-- If something is moved, its first place is one of a part. -/
theorem moved_head {ps : List (Stretch α)} (hle : ∀ q ∈ ps, q.done ≤ q.full.length) (h : ¬ ∀ q ∈ ps, q.done = 0) :
    0 < total ps ∧ ∃ q ∈ ps, ∃ x ∈ q.full, (moved ps).head? = some x := by
  induction ps with
  | nil => exact absurd (fun q hq => by cases hq) h
  | cons p ps ih =>
    rw [moved_cons, total_cons]
    by_cases hp : p.done = 0
    · have hrest : ¬ ∀ q ∈ ps, q.done = 0 := fun hall => h fun q hq => by
        rcases List.mem_cons.1 hq with rfl | hq
        · exact hp
        · exact hall q hq
      obtain ⟨hpos, q, hq, x, hx, hhead⟩ := ih (fun q hq => hle q (List.mem_cons_of_mem _ hq)) hrest
      refine ⟨by omega, q, List.mem_cons_of_mem _ hq, x, hx, ?_⟩
      unfold Stretch.moved
      rw [hp, List.take_zero, List.nil_append, hhead]
    · have hlen := hle p List.mem_cons_self
      cases hfull : p.full with
      | nil =>
        rw [hfull] at hlen
        exact absurd (Nat.le_zero.1 hlen) hp
      | cons x xs =>
        refine ⟨by omega, p, List.mem_cons_self, x, by rw [hfull]; exact List.mem_cons_self, ?_⟩
        obtain ⟨n, hn⟩ := Nat.exists_eq_succ_of_ne_zero hp
        unfold Stretch.moved
        rw [hfull, hn, List.take_succ_cons]
        rfl

/-- **Fronts.** The places moved are the first ones of the list if and only if nothing is moved behind a gap. -/
theorem moved_iff {xs : List α} {ps : List (Stretch α)} (h : Laid xs ps) : moved ps = xs.take (total ps) ↔ Steady ps := by
  induction h with
  | nil xs => exact iff_of_true (by simp [moved, total]) List.Pairwise.nil
  | @whole p rest ps hwhole _ ih =>
    have hmoved : p.moved = p.full := by
      unfold Stretch.moved
      rw [hwhole, List.take_length]
    rw [moved_cons, total_cons, hmoved, hwhole, List.take_length_add_append, List.append_cancel_left_eq, ih]
    unfold Steady
    rw [List.pairwise_cons]
    exact ⟨fun h => ⟨fun q _ hgap => absurd hgap (by omega), h⟩, fun h => h.2⟩
  | @gap p xs ps hgap hpre hrest =>
    unfold Steady
    rw [List.pairwise_cons]
    by_cases hzero : ∀ q ∈ ps, q.done = 0
    · obtain ⟨hmoved, htotal⟩ := moved_of_zero hzero
      refine iff_of_true ?_ ⟨fun q hq _ => hzero q hq, List.pairwise_of_forall_mem_list fun q _ r hr _ => hzero r hr⟩
      obtain ⟨rest, rfl⟩ := hpre
      rw [moved_cons, total_cons, hmoved, htotal, List.append_nil, Nat.add_zero, List.take_append_of_le_length (by omega)]
      rfl
    · refine iff_of_false (fun heq => ?_) fun h => hzero fun q hq => h.1 q hq hgap
      obtain ⟨hpos, q, hq, x, hx, hhead⟩ := moved_head (fun q hq => (hrest q hq).1) hzero
      obtain ⟨rest, rfl⟩ := hpre
      -- the place behind those moved of the part is not the one moved next
      have hlen : p.moved.length = p.done := by
        unfold Stretch.moved
        rw [List.length_take]
        omega
      have hleft : (moved (p :: ps))[p.done]? = some x := by
        rw [moved_cons, List.getElem?_append_right (by omega), hlen, Nat.sub_self, ← List.head?_eq_getElem?, hhead]
      have hright : ((p.full ++ rest).take (total (p :: ps)))[p.done]? = some p.full[p.done] := by
        rw [List.getElem?_take_of_lt (by rw [total_cons]; omega), List.getElem?_append_left hgap, List.getElem?_eq_getElem hgap]
      rw [heq, hright] at hleft
      refine (hrest q hq).2 x hx ?_
      rw [← Option.some.inj hleft]
      exact List.getElem_mem hgap

end Parts
