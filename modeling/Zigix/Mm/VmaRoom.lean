import Zigix.Lib.Holders
import Zigix.Mm.VmaView

/-!
# When a range removal runs out of slots

A removal that finds no slot for the second part of an area has cut the area before it looks for the slot.

* `handleRangeRemoval_unchanged_iff` : a removal that returns `false` leaves the table as it was exactly then, because
  it then does not return `false`.
-/

namespace Zigix.Vma

open Holders

section
variable {s e : Nat} {list list' orig : VmaList} {i : Fin maxVmas} {b : Bool} {v : Vma}

/-- The area reaches beyond both ends of the range. -/
def Spans (s e : Nat) (v : Vma) : Prop := v.inUse = true ∧ v.start < s ∧ e < v.stop ∧ s < v.stop ∧ v.start < e

/-- The area lies within the range. -/
def Within (s e : Nat) (v : Vma) : Prop := v.inUse = true ∧ s ≤ v.start ∧ v.stop ≤ e ∧ s < v.stop ∧ v.start < e

instance : DecidablePred (Spans s e) := fun _ => inferInstanceAs (Decidable (_ ∧ _))

instance : DecidablePred (Within s e) := fun _ => inferInstanceAs (Decidable (_ ∧ _))

def freeSlot (v : Vma) : Nat := if v.inUse then 0 else 1

def freeSlots (list : VmaList) : Nat := ∑ i, freeSlot (list i)

theorem freeSlots_update (list : VmaList) (i : Fin maxVmas) (v : Vma) :
    freeSlots (Function.update list i v) + freeSlot (list i) = freeSlots list + freeSlot v :=
  sum_weight_update list i v freeSlot

theorem freeSlots_eq_zero (h : ∀ j, (list j).inUse = true) : freeSlots list = 0 :=
  Finset.sum_eq_zero fun j _ => if_pos (h j)

theorem freeSlots_pos (h : (list i).inUse = false) : 0 < freeSlots list := by
  have hle := Finset.single_le_sum (fun j _ => Nat.zero_le (freeSlot (list j))) (Finset.mem_univ i)
  have hone : freeSlot (list i) = 1 := by
    unfold freeSlot
    rw [h]
    rfl
  rw [hone] at hle
  exact hle

theorem freeSlot_inUse (h : v.inUse = true) : freeSlot v = 0 := if_pos h

theorem freeSlot_free (h : v.inUse = false) : freeSlot v = 1 := by
  unfold freeSlot
  rw [h]
  rfl

theorem not_meets_of_clear (h : Clear s e v) : ¬ (v.inUse = true ∧ s < v.stop ∧ v.start < e) := by
  rintro ⟨hu, hstop, hstart⟩
  rcases h with h | h | h
  · rw [h] at hu
    cases hu
  · omega
  · omega

/-! ## The free slots over a turn -/

structure Turn.Counts (s e : Nat) (list : VmaList) (i : Fin maxVmas) (b : Bool) (list' : VmaList) : Prop where
  done : b = true ↔ (Spans s e (list i) → 0 < freeSlots list)
  free : b = true → freeSlots list' + (if Spans s e (list i) then 1 else 0) =
    freeSlots list + if Within s e (list i) then 1 else 0
  /-- The area was cut before the slot was looked for. -/
  cut : b = false → list' i ≠ list i

theorem Turn.Counts.same (hspans : ¬ Spans s e (list i)) (hwithin : ¬ Within s e (list i))
    (hfree : freeSlots list' = freeSlots list) : Turn.Counts s e list i true list' where
  done := ⟨fun _ h => absurd h hspans, fun _ => rfl⟩
  free _ := by rw [if_neg hspans, if_neg hwithin, hfree]
  cut := nofun

theorem Turn.counts (h : Turn s e list i b list') : Turn.Counts s e list i b list' := by
  have hsame : ∀ {w : Vma}, Meets s e (list i) → w.inUse = true →
      freeSlots (Function.update list i w) = freeSlots list := by
    intro w hm hw
    have hcount := freeSlots_update list i w
    rw [freeSlot_inUse hm.inUse, freeSlot_inUse hw] at hcount
    exact Nat.add_right_cancel hcount
  cases h with
  | clear hclear =>
    refine .same (fun hs => ?_) (fun hw => ?_) rfl
    · exact not_meets_of_clear hclear ⟨hs.1, hs.2.2.2⟩
    · exact not_meets_of_clear hclear ⟨hw.1, hw.2.2.2⟩
  | inside hm hstart hstop =>
    have hspans : ¬ Spans s e (list i) := fun hs => by
      have := hs.2.1
      omega
    refine ⟨⟨fun _ h => absurd h hspans, fun _ => rfl⟩, fun _ => ?_, nofun⟩
    have hcount := freeSlots_update list i { list i with inUse := false }
    rw [freeSlot_inUse hm.inUse, freeSlot_free rfl] at hcount
    rw [if_neg hspans, if_pos ⟨hm.inUse, hstart, hstop, hm.stop, hm.start⟩]
    exact hcount
  | @split j offset hm hstart hstop hoff hji hfree =>
    have hspans : Spans s e (list i) := ⟨hm.inUse, hstart, hstop, hm.stop, hm.start⟩
    refine ⟨⟨fun _ _ => freeSlots_pos hfree, fun _ => rfl⟩, fun _ => ?_, nofun⟩
    have hwithin : ¬ Within s e (list i) := fun hw => by
      have := hw.2.1
      omega
    have hcount := freeSlots_update (Function.update list i ((list i).left s)) j
      ((list i).piece e (list i).stop (list i).flags offset ((list i).sizeFrom e))
    have hleft : freeSlots (Function.update list i ((list i).left s)) = freeSlots list := hsame hm hm.inUse
    rw [Function.update_of_ne hji, freeSlot_free hfree, freeSlot_inUse rfl, hleft] at hcount
    rw [if_pos hspans, if_neg hwithin]
    exact hcount
  | full hm hstart hstop hall =>
    have hspans : Spans s e (list i) := ⟨hm.inUse, hstart, hstop, hm.stop, hm.start⟩
    refine ⟨⟨nofun, fun h => ?_⟩, nofun, fun _ heq => ?_⟩
    · have hpos := h hspans
      rw [freeSlots_eq_zero hall] at hpos
      exact absurd hpos (lt_irrefl 0)
    · rw [Function.update_self] at heq
      have hcut : s = (list i).stop := congrArg Vma.stop heq
      exact absurd hm.stop (by omega)
  | trimEnd hm hstart hstop =>
    refine .same (fun hs => ?_) (fun hw => ?_) (hsame hm hm.inUse)
    · have := hs.2.2.1
      omega
    · have := hw.2.1
      omega
  | trimStart hm hstart hstop hoff =>
    refine .same (fun hs => ?_) (fun hw => ?_) (hsame hm hm.inUse)
    · have := hs.2.1
      omega
    · have := hw.2.2.1
      omega

/-! ## The loop -/

/-- The slots whose turn comes before that of slot `i`. -/
def slotsBefore (i : Fin maxVmas) : List (Fin maxVmas) := (List.finRange maxVmas).take i

def RoomForSplits (s e : Nat) (list : VmaList) : Prop :=
  ∀ i, Spans s e (list i) → (slotsBefore i).countP (fun j => decide (Spans s e (list j))) <
    freeSlots list + (slotsBefore i).countP fun j => decide (Within s e (list j))

theorem slotsBefore_eq {pre rest : List (Fin maxVmas)} (h : pre ++ i :: rest = List.finRange maxVmas) :
    slotsBefore i = pre := by
  have hlen : pre.length < (List.finRange maxVmas).length := by
    rw [← h, List.length_append, List.length_cons]
    omega
  have hi : (List.finRange maxVmas)[pre.length] = i := by
    simp only [← h, List.getElem_append_right le_rfl, Nat.sub_self, List.getElem_cons_zero]
  have hval : i.val = pre.length := by
    rw [← hi, List.getElem_finRange]
    rfl
  rw [slotsBefore, hval, ← h, List.take_left]

theorem removeLoop_room {pre is : List (Fin maxVmas)} (hall : pre ++ is = List.finRange maxVmas)
    (horig : ∀ j ∈ is, list j = orig j ∨ (orig j).inUse = false ∧ Clear s e (list j))
    (hcount : freeSlots list + pre.countP (fun j => decide (Spans s e (orig j))) =
      freeSlots orig + pre.countP fun j => decide (Within s e (orig j)))
    (h : removeLoop s e is list = some (b, list')) :
    (b = true ↔ ∀ i ∈ is, Spans s e (orig i) → (slotsBefore i).countP (fun j => decide (Spans s e (orig j))) <
      freeSlots orig + (slotsBefore i).countP fun j => decide (Within s e (orig j))) ∧
    (b = false → list' ≠ orig) := by
  induction is generalizing pre list with
  | nil =>
    cases h
    exact ⟨⟨fun _ _ hi => absurd hi List.not_mem_nil, fun _ => rfl⟩, fun htrue => Bool.noConfusion htrue⟩
  | cons i is ih =>
    have hnodup : (i :: is).Nodup := (List.nodup_append.1 (hall ▸ List.nodup_finRange maxVmas)).2.1
    obtain ⟨hi, -⟩ := List.nodup_cons.1 hnodup
    have hbefore := slotsBefore_eq hall
    -- a slot that was free before holds an area behind the range
    have hsame : (Spans s e (list i) ↔ Spans s e (orig i)) ∧ (Within s e (list i) ↔ Within s e (orig i)) ∧
        (list i ≠ orig i → ¬ Spans s e (list i)) := by
      rcases horig i List.mem_cons_self with heq | ⟨hfree, hclear⟩
      · rw [heq]
        exact ⟨Iff.rfl, Iff.rfl, fun hne => absurd rfl hne⟩
      · have hno := not_meets_of_clear hclear
        refine ⟨iff_of_false ?_ ?_, iff_of_false ?_ ?_, fun _ => ?_⟩
        · exact fun hs => hno ⟨hs.1, hs.2.2.2⟩
        · exact fun hs => absurd (hfree.symm.trans hs.1) Bool.false_ne_true
        · exact fun hw => hno ⟨hw.1, hw.2.2.2⟩
        · exact fun hw => absurd (hfree.symm.trans hw.1) Bool.false_ne_true
        · exact fun hs => hno ⟨hs.1, hs.2.2.2⟩
    obtain ⟨hspans, hwithin, hchanged⟩ := hsame
    rw [removeLoop] at h
    rcases hr : removeFrom s e list i with - | ⟨done, list₁⟩
    · rw [hr] at h
      cases h
    rw [hr] at h
    have hturn := removeFrom_turn hr
    have hc := hturn.counts
    cases done with
    | false =>
      cases h
      have hnot : Spans s e (list i) ∧ ¬ 0 < freeSlots list := by
        have hfull : ¬ (Spans s e (list i) → 0 < freeSlots list) := fun himp => absurd (hc.done.2 himp) Bool.false_ne_true
        exact Classical.not_imp.1 hfull
      refine ⟨⟨fun hfalse => absurd hfalse Bool.false_ne_true, fun hroom => ?_⟩, fun _ heq => ?_⟩
      · have hlt := hroom i List.mem_cons_self (hspans.1 hnot.1)
        rw [hbefore] at hlt
        omega
      · have hi' : list' i ≠ list i := hc.cut rfl
        rw [heq] at hi'
        exact hchanged (Ne.symm hi') hnot.1
    | true =>
      have hnext : pre ++ [i] ++ is = List.finRange maxVmas := by
        rw [List.append_assoc]
        exact hall
      have hfree := hc.free rfl
      have hrest := ih hnext (fun j hj => ?_) ?_ h
      · refine ⟨hrest.1.trans ⟨fun hroom j hj => ?_, fun hroom j hj => hroom j (List.mem_cons_of_mem _ hj)⟩, hrest.2⟩
        rcases List.mem_cons.1 hj with rfl | hj
        · intro hs
          have hpos := hc.done.1 rfl (hspans.2 hs)
          rw [hbefore]
          omega
        · exact hroom j hj
      · have hji : j ≠ i := by
          rintro rfl
          exact hi hj
        rcases hturn.others hji with heq | ⟨hfreej, hclear⟩
        · rw [heq]
          exact horig j (List.mem_cons_of_mem _ hj)
        · rcases horig j (List.mem_cons_of_mem _ hj) with heq | ⟨horigj, -⟩
          · exact .inr ⟨heq ▸ hfreej, hclear⟩
          · exact .inr ⟨horigj, hclear⟩
      · rw [List.countP_append, List.countP_append, List.countP_singleton, List.countP_singleton]
        simp only [decide_eq_true_eq, ← hspans, ← hwithin]
        omega

/-- **All or nothing.** A removal that reports that it ran out of slots has changed nothing if and only if there was
room for all its splits: then it does not report it. -/
theorem handleRangeRemoval_unchanged_iff (hr : handleRangeRemoval list s e = some (b, list')) :
    (b = false → list' = list) ↔ RoomForSplits s e list := by
  have hall : [] ++ List.finRange maxVmas = List.finRange maxVmas := List.nil_append _
  have horig : ∀ j ∈ List.finRange maxVmas, list j = list j ∨ (list j).inUse = false ∧ Clear s e (list j) :=
    fun _ _ => .inl rfl
  have hcount : freeSlots list + ([] : List (Fin maxVmas)).countP (fun j => decide (Spans s e (list j))) =
      freeSlots list + ([] : List (Fin maxVmas)).countP fun j => decide (Within s e (list j)) := by
    rw [List.countP_nil, List.countP_nil]
  obtain ⟨hdone, hcut⟩ := removeLoop_room hall horig hcount hr
  have hroom : b = true ↔ RoomForSplits s e list :=
    hdone.trans ⟨fun h i => h i (List.mem_finRange i), fun h i _ => h i⟩
  refine Iff.trans ?_ hroom
  cases b with
  | false => exact ⟨fun h => absurd (h rfl) (hcut rfl), nofun⟩
  | true => exact ⟨fun _ => rfl, nofun⟩

end

/-- One area of four pages, split in its middle. -/
theorem handleRangeRemoval_unchanged_fourPages :
    ∃ list', handleRangeRemoval fourPagesTable 0x2000 0x3000 = some (true, list') ∧
      RoomForSplits 0x2000 0x3000 fourPagesTable := by
  have hdone : (handleRangeRemoval fourPagesTable 0x2000 0x3000).map Prod.fst = some true := by decide +kernel
  obtain ⟨⟨b, list'⟩, hr, rfl⟩ := Option.map_eq_some_iff.1 hdone
  exact ⟨list', hr, (handleRangeRemoval_unchanged_iff hr).1 nofun⟩

/-- A full table: area `i` has four pages from `0x10000 * (i + 1)` on. -/
def fullTable : VmaList := fun i =>
  { fourPages with start := 0x10000 * (i + 1), stop := 0x10000 * (i + 1) + 0x4000 }

/-- `munmap` of the second page of the first area: the removal fails and the last two pages have lost their area. -/
theorem full_table_loses_tail : ∃ list', handleRangeRemoval fullTable 0x11000 0x12000 = some (false, list') ∧
    findVma fullTable 0x13000 = some 0 ∧ findVma list' 0x13000 = none ∧ list' ≠ fullTable := by
  have hdone : (handleRangeRemoval fullTable 0x11000 0x12000).map (fun r => (r.1, findVma r.2 0x13000)) =
      some (false, none) := by decide +kernel
  have hbefore : findVma fullTable 0x13000 = some 0 := by decide +kernel
  obtain ⟨⟨b, list'⟩, hr, heq⟩ := Option.map_eq_some_iff.1 hdone
  obtain ⟨rfl, hnone⟩ := Prod.mk.inj heq
  refine ⟨list', hr, hbefore, hnone, ?_⟩
  rintro rfl
  rw [hbefore] at hnone
  cases hnone

end Zigix.Vma
