import Mathlib.Algebra.BigOperators.Fin
import Mathlib.Algebra.Order.BigOperators.Group.Finset

/-!
# Who points to an object

Tables of optional pointers and the exact count of the pointers to each object.

* `holders t a` : the slots of the table `t` that point to `a`; `total f a` : those of all tables of a family;
* `Exact count live n` : an object with `n` references has the count `n` and is live as long as there is one.
-/

namespace Holders

open Finset

section
variable {ι β : Type*} [Fintype ι] [DecidableEq ι]

/-- Replacing one value under a sum of weights. -/
theorem sum_weight_update (f : ι → β) (i : ι) (x : β) (weight : β → Nat) :
    (∑ j, weight (Function.update f i x j)) + weight (f i) = (∑ j, weight (f j)) + weight x := by
  have hrest : ∑ j ∈ univ.erase i, weight (Function.update f i x j) = ∑ j ∈ univ.erase i, weight (f j) := by
    refine sum_congr rfl fun j hj => ?_
    rw [Function.update_of_ne (ne_of_mem_erase hj)]
  have hnew : weight x + ∑ j ∈ univ.erase i, weight (f j) = ∑ j, weight (Function.update f i x j) := by
    rw [← hrest, ← add_sum_erase univ (fun j => weight (Function.update f i x j)) (mem_univ i), Function.update_self]
  have hold : weight (f i) + ∑ j ∈ univ.erase i, weight (f j) = ∑ j, weight (f j) :=
    add_sum_erase univ (fun j => weight (f j)) (mem_univ i)
  omega

end

/-! ## Counting pointers -/

section
variable {ι κ α : Type*} [Fintype ι] [Fintype κ] [DecidableEq α]

def holders (t : ι → Option α) (a : α) : Nat := ∑ i, if t i = some a then 1 else 0

/-- Overwriting one slot. -/
theorem holders_update [DecidableEq ι] (t : ι → Option α) (i : ι) (x : Option α) (a : α) :
    holders (Function.update t i x) a + (if t i = some a then 1 else 0) =
      holders t a + if x = some a then 1 else 0 :=
  sum_weight_update t i x fun y => if y = some a then 1 else 0

theorem holders_pos {t : ι → Option α} {i : ι} {a : α} (h : t i = some a) : 0 < holders t a := by
  have hle := single_le_sum (fun j _ => Nat.zero_le (if t j = some a then 1 else 0)) (mem_univ i)
  rw [if_pos h] at hle
  exact hle

theorem holders_eq_zero {t : ι → Option α} {a : α} (h : ∀ i, t i ≠ some a) : holders t a = 0 :=
  sum_eq_zero fun i _ => if_neg (h i)

def total (f : κ → ι → Option α) (a : α) : Nat := ∑ k, holders (f k) a

/-- Replacing one table. -/
theorem total_update [DecidableEq κ] (f : κ → ι → Option α) (k : κ) (t : ι → Option α) (a : α) :
    total (Function.update f k t) a + holders (f k) a = total f a + holders t a :=
  sum_weight_update f k t fun s => holders s a

theorem holders_le_total (f : κ → ι → Option α) (k : κ) (a : α) : holders (f k) a ≤ total f a :=
  single_le_sum (fun j _ => Nat.zero_le (holders (f j) a)) (mem_univ k)

theorem total_eq_zero {f : κ → ι → Option α} {a : α} (h : ∀ k i, f k i ≠ some a) : total f a = 0 :=
  sum_eq_zero fun k _ => holders_eq_zero (h k)

end

/-! ## Exact counts -/

/-- The count of a live object is the number of its references, and it is live as long as there is one. -/
structure Exact (count : Nat) (live : Bool) (n : Nat) : Prop where
  count_eq : live = true → count = n
  live_iff : live = true ↔ 0 < n

section
variable {count n : Nat} {live : Bool}

theorem Exact.zero_of_free (h : Exact count false n) : n = 0 := by
  have := h.live_iff
  simp at this
  exact this

/-- A new object with its first reference. -/
theorem Exact.first : Exact 1 true 1 := ⟨fun _ => rfl, by decide⟩

theorem Exact.acquire (h : Exact count live n) (hn : 0 < n) : Exact (count + 1) live (n + 1) := by
  have hlive := h.live_iff.2 hn
  exact ⟨fun _ => by rw [h.count_eq hlive], ⟨fun _ => Nat.succ_pos n, fun _ => hlive⟩⟩

/-- One reference less; the last one frees the object. -/
theorem Exact.release (h : Exact count live n) (hn : 0 < n) :
    Exact (count - 1) (if count - 1 = 0 then false else live) (n - 1) := by
  have hlive := h.live_iff.2 hn
  have hcount := h.count_eq hlive
  by_cases hlast : count - 1 = 0
  · rw [if_pos hlast]
    exact ⟨nofun, by simp; omega⟩
  · rw [if_neg hlast]
    exact ⟨fun _ => by omega, by rw [hlive]; simp; omega⟩

end

end Holders
