import Mathlib.Data.Set.Card
import Mathlib.Tactic.Ring

/-!
# Saturating reference counts

`Sound cap rc weight` : every count is at least the weight of the references to its object, unless it has
saturated at `cap`. The rules follow the references: `acquire` and `release` move one count together with one
reference, `exchange` moves references only, and `pos` and `unique` are what an owner learns from a count.
-/

namespace RefCount

variable {A : Type*}

/-- Counts bound the weight of the references from above, except saturated ones. -/
def Sound (cap : Nat) (rc : A → Nat) (weight : A → ℕ∞) : Prop := ∀ a, cap ≤ rc a ∨ weight a ≤ rc a

section Rules
variable {cap : Nat} {rc rc' : A → Nat} {weight weight' : A → ℕ∞} {a : A}

theorem Sound.exchange (h : Sound cap rc weight) (hw : ∀ b, weight' b ≤ weight b) : Sound cap rc weight' := by
  intro b
  rcases h b with hc | hc
  · exact .inl hc
  · exact .inr ((hw b).trans hc)

/-- One count goes up (or has saturated) with one more reference. -/
theorem Sound.acquire (h : Sound cap rc weight) (hrc : ∀ b, b ≠ a → rc' b = rc b)
    (ha : rc' a = rc a + 1 ∨ (cap ≤ rc a ∧ rc' a = rc a)) (hw : ∀ b, b ≠ a → weight' b ≤ weight b)
    (hwa : weight' a ≤ weight a + 1) : Sound cap rc' weight' := by
  intro b
  by_cases hb : b = a
  · subst hb
    rcases ha with ha | ⟨hcap, ha⟩
    · rw [ha]
      rcases h b with hc | hc
      · exact .inl (by omega)
      · right
        push_cast
        exact hwa.trans (by gcongr)
    · exact .inl (by omega)
  · rw [hrc b hb]
    rcases h b with hc | hc
    · exact .inl hc
    · exact .inr ((hw b hb).trans hc)

/-- One count goes down (or has saturated) with one reference less. -/
theorem Sound.release (h : Sound cap rc weight) (hrc : ∀ b, b ≠ a → rc' b = rc b)
    (ha : rc' a + 1 = rc a ∧ rc a ≠ cap ∨ (cap ≤ rc a ∧ rc' a = rc a)) (hw : ∀ b, b ≠ a → weight' b ≤ weight b)
    (hwa : weight' a + 1 ≤ weight a) : Sound cap rc' weight' := by
  intro b
  by_cases hb : b = a
  · subst hb
    rcases ha with ⟨ha, hne⟩ | ⟨hcap, ha⟩
    · rcases h b with hc | hc
      · exact .inl (by omega)
      · right
        have h1 : weight' b + 1 ≤ ((rc' b + 1 : ℕ) : ℕ∞) := by rw [ha]; exact hwa.trans hc
        push_cast at h1
        exact (ENat.add_le_add_iff_right (by decide)).1 h1
    · exact .inl (by omega)
  · rw [hrc b hb]
    rcases h b with hc | hc
    · exact .inl hc
    · exact .inr ((hw b hb).trans hc)

/-- References that move between two ways of counting them. -/
theorem add_le_add_of_exchange {x y : ℕ∞} {a b c d : ℕ} (h : x + a ≤ y + b) (h' : c + b ≤ d + a) :
    x + c ≤ y + d := by
  have h1 : (x + c) + ((a + b : ℕ) : ℕ∞) ≤ (y + d) + ((a + b : ℕ) : ℕ∞) :=
    calc (x + c) + ((a + b : ℕ) : ℕ∞) = (x + a) + ((c + b : ℕ) : ℕ∞) := by push_cast; ring
      _ ≤ (y + b) + ((d + a : ℕ) : ℕ∞) := add_le_add h (by exact_mod_cast h')
      _ = (y + d) + ((a + b : ℕ) : ℕ∞) := by push_cast; ring
  exact (ENat.add_le_add_iff_right (ENat.natCast_ne_top _)).1 h1

/-- A referenced object has a positive count. -/
theorem Sound.pos (h : Sound cap rc weight) (hcap : 0 < cap) (hw : 1 ≤ weight a) : 0 < rc a := by
  rcases h a with hc | hc
  · omega
  · exact_mod_cast hw.trans hc

/-- A count below `cap` bounds the weight. -/
theorem Sound.weight_le (h : Sound cap rc weight) (hlt : rc a < cap) : weight a ≤ rc a := by
  rcases h a with hc | hc
  · omega
  · exact hc

end Rules

end RefCount
