import Mathlib.Logic.Relation

/-!
# Loops that read input and may fail

A turn of the loop fails for good (`none`), goes on from a new state or ends with a result.

* `run` : at most a number of turns;
* `isSome_run_iff` : where every further turn leaves less to do, the loop ends without a failure exactly if no turn that
  it comes to fails.
-/

namespace Turns

inductive Turn (σ α : Type*) where
  | again (s : σ)
  | done (a : α) (s : σ)

variable {σ α : Type*} {step : σ → Option (Turn σ α)}

def run (step : σ → Option (Turn σ α)) : Nat → σ → Option (α × σ)
  | 0, _ => none
  | n + 1, s =>
    match step s with
    | none => none
    | some (.again s') => run step n s'
    | some (.done a s') => some (a, s')

/-- One turn goes on from `s'`. -/
def Next (step : σ → Option (Turn σ α)) (s s' : σ) : Prop := step s = some (.again s')

/-- The states that turns begin in. -/
abbrev Reaches (step : σ → Option (Turn σ α)) : σ → σ → Prop := Relation.ReflTransGen (Next step)

/-- **A loop with less and less to do ends without a failure exactly if none of its turns fails.** -/
theorem isSome_run_iff (size : σ → Nat) (hless : ∀ s s', Next step s s' → size s' < size s) {n : Nat} {s : σ}
    (hn : size s < n) : (run step n s).isSome ↔ ∀ s', Reaches step s s' → (step s').isSome := by
  induction n generalizing s with
  | zero => omega
  | succ n ih =>
    rw [run]
    constructor
    · intro h s' hs'
      rcases Relation.ReflTransGen.cases_head hs' with rfl | ⟨t, hnext, hrest⟩
      · cases hstep : step s with
        | none =>
          rw [hstep] at h
          cases h
        | some turn => rfl
      · have hless' := hless _ _ hnext
        rw [hnext] at h
        exact (ih (by omega)).1 h s' hrest
    · intro h
      obtain ⟨turn, hstep⟩ := Option.isSome_iff_exists.1 (h s .refl)
      rw [hstep]
      cases turn with
      | again t =>
        have hless' := hless _ _ hstep
        exact (ih (by omega)).2 fun s' hs' => h s' (.head hstep hs')
      | done a t => rfl

end Turns
