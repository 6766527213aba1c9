/-!
# Bisection

* `bisect p fuel lo hi` : the loop that halves `lo ≤ i < hi` until it has the first index at which `p` fails;
* `bisect_spec` : for a predicate that holds on an initial segment it finds its end.
-/

namespace Bisect

variable {p : Nat → Bool} {fuel lo hi : Nat}

/-- The loop, in at most `fuel` turns. -/
def bisect (p : Nat → Bool) : Nat → Nat → Nat → Nat
  | 0, lo, _ => lo
  | fuel + 1, lo, hi =>
    if lo < hi then
      let mid := lo + (hi - lo) / 2
      if p mid then bisect p fuel (mid + 1) hi else bisect p fuel lo mid
    else lo

/-- What the loop has found. -/
structure EndsAt (p : Nat → Bool) (lo hi r : Nat) : Prop where
  ge : lo ≤ r
  le : r ≤ hi
  before : ∀ i, lo ≤ i → i < r → p i = true
  after : ∀ i, r ≤ i → i < hi → p i = false

/-- The predicate has to be decreasing between `lo` and `hi` only. -/
theorem bisect_spec (hmono : ∀ i j, lo ≤ i → i ≤ j → j < hi → p j = true → p i = true) (hle : lo ≤ hi)
    (hfuel : hi - lo ≤ fuel) : EndsAt p lo hi (bisect p fuel lo hi) := by
  induction fuel generalizing lo hi with
  | zero => exact ⟨Nat.le_refl _, hle, fun i h h' => by rw [bisect] at h'; omega, fun i h h' => by
      rw [bisect] at h
      omega⟩
  | succ fuel ih =>
    rw [bisect]
    by_cases hlt : lo < hi
    · rw [if_pos hlt]
      dsimp only
      generalize hmid : lo + (hi - lo) / 2 = mid
      have hlo : lo ≤ mid := by omega
      have hhi : mid < hi := by omega
      by_cases hp : p mid = true
      · rw [if_pos hp]
        have h : EndsAt p (mid + 1) hi (bisect p fuel (mid + 1) hi) :=
          ih (fun i j hi' hij hj => hmono i j (by omega) hij hj) (by omega) (by omega)
        refine ⟨by have := h.ge; omega, h.le, fun i hi' hr => ?_, h.after⟩
        by_cases him : i ≤ mid
        · exact hmono i mid hi' him hhi hp
        · exact h.before i (by omega) hr
      · rw [if_neg hp]
        have h : EndsAt p lo mid (bisect p fuel lo mid) :=
          ih (fun i j hi' hij hj => hmono i j hi' hij (by omega)) hlo (by omega)
        refine ⟨h.ge, by have := h.le; omega, h.before, fun i hr hi' => ?_⟩
        by_cases him : i < mid
        · exact h.after i hr him
        · exact Bool.eq_false_iff.2 fun hpi => hp (hmono mid i hlo (by omega) hi' hpi)
    · rw [if_neg hlt]
      exact ⟨Nat.le_refl _, hle, fun i h h' => by omega, fun i h h' => by omega⟩

end Bisect
