import Mathlib.Data.List.Basic
import Mathlib.Data.List.Nodup
import Mathlib.Logic.Function.Basic

/-!
# Chains of links

A table `next` of links. `Seg next a l b` says that following the links from `a` visits the nodes of `l`, in this order,
and then arrives at `b`.

* `Seg.congr`, `seg_append` : frames and composition;
* `Seg.redirect` : the last link of a segment leads elsewhere;
* `removeFirst` : the first `n` elements of a list with a property, taken out.
-/

namespace Chains

variable {α : Type*} {next next' : α → α} {a b c : α} {l l₁ l₂ : List α}

def Seg (next : α → α) : α → List α → α → Prop
  | a, [], b => a = b
  | a, x :: l, b => a = x ∧ Seg next (next x) l b

theorem seg_append : Seg next a (l₁ ++ l₂) c ↔ ∃ b, Seg next a l₁ b ∧ Seg next b l₂ c := by
  induction l₁ generalizing a with
  | nil => exact ⟨fun h => ⟨a, rfl, h⟩, fun ⟨b, hab, h⟩ => by cases hab; exact h⟩
  | cons x l₁ ih =>
    constructor
    · rintro ⟨rfl, h⟩
      obtain ⟨b, h₁, h₂⟩ := ih.1 h
      exact ⟨b, ⟨rfl, h₁⟩, h₂⟩
    · rintro ⟨b, ⟨rfl, h₁⟩, h₂⟩
      exact ⟨rfl, ih.2 ⟨b, h₁, h₂⟩⟩

/-- A segment depends on the links of its nodes only. -/
theorem Seg.congr (h : Seg next a l b) (heq : ∀ x ∈ l, next' x = next x) : Seg next' a l b := by
  induction l generalizing a with
  | nil => exact h
  | cons x l ih =>
    obtain ⟨rfl, h⟩ := h
    refine ⟨rfl, ?_⟩
    rw [heq a List.mem_cons_self]
    exact ih h fun y hy => heq y (List.mem_cons_of_mem _ hy)

/-- The last link redirected. -/
theorem Seg.redirect {p : α} (h : Seg next a (l ++ [p]) b) (heq : ∀ x ∈ l, next' x = next x)
    (hc : next' p = c) : Seg next' a (l ++ [p]) c := by
  obtain ⟨x, hl, rfl, -⟩ := seg_append.1 h
  exact seg_append.2 ⟨x, hl.congr heq, rfl, hc⟩

section RemoveFirst
variable (P : α → Prop) [DecidablePred P]

/-- The first `n` elements with the property, and what is left. -/
def removeFirst : Nat → List α → List α × List α
  | 0, l => ([], l)
  | _ + 1, [] => ([], [])
  | n + 1, x :: l =>
    if P x then (x :: (removeFirst n l).1, (removeFirst n l).2)
    else ((removeFirst (n + 1) l).1, x :: (removeFirst (n + 1) l).2)

variable {P} {n : Nat}

theorem removeFirst_nil : removeFirst P n [] = ([], []) := by
  cases n with
  | zero => rfl
  | succ n => rfl

theorem length_removeFirst (n : Nat) (l : List α) :
    (removeFirst P n l).1.length = min n (l.filter (fun x => decide (P x))).length := by
  induction l generalizing n with
  | nil => simp [removeFirst_nil]
  | cons x l ih =>
    cases n with
    | zero => simp [removeFirst]
    | succ n =>
      by_cases hx : P x
      · simp only [removeFirst, if_pos hx, List.length_cons, ih n, List.filter_cons, decide_eq_true hx, if_true]
        omega
      · simp [removeFirst, ih (n + 1), hx]

theorem removeFirst_perm (n : Nat) (l : List α) : ((removeFirst P n l).1 ++ (removeFirst P n l).2).Perm l := by
  induction l generalizing n with
  | nil => simp [removeFirst_nil]
  | cons x l ih =>
    cases n with
    | zero => simp [removeFirst]
    | succ n =>
      by_cases hx : P x
      · simp only [removeFirst, if_pos hx, List.cons_append]
        exact (ih n).cons x
      · simp only [removeFirst, if_neg hx]
        exact List.perm_middle.trans ((ih (n + 1)).cons x)

theorem of_mem_removeFirst {x : α} (h : x ∈ (removeFirst P n l).1) : P x := by
  induction l generalizing n with
  | nil => simp [removeFirst_nil] at h
  | cons y l ih =>
    cases n with
    | zero => simp [removeFirst] at h
    | succ n =>
      by_cases hy : P y
      · rw [removeFirst, if_pos hy] at h
        rcases List.mem_cons.1 h with rfl | h
        · exact hy
        · exact ih h
      · rw [removeFirst, if_neg hy] at h
        exact ih h

end RemoveFirst

end Chains
