import Mathlib.Data.Set.Basic
import Mathlib.Data.List.Infix

/-!
# Forests of tables

A table maps indices to optional links to further tables or leaves; a path from a root is followed by `walk`.
`At next R ok r p f` : following the admissible path `p` from the root `r` ends in `f`. A node at depth at most
`d` is a table, one at depth `d + 1` is a leaf.

* `walk_append`, `walk_congr` : splitting a walk and its footprint;
* `Separated` : no table is reached twice;
* `Relinked` : one link of one table was changed; `Relinked.at_iff` says which nodes there are afterwards and
  `Relinked.separated` that they stay separated.
-/

namespace Forest

variable {F I : Type*}

/-- Follow a path from `t`. -/
def walk (next : F → I → Option F) (t : F) : List I → Option F
  | [] => some t
  | i :: p => (next t i).bind fun t' => walk next t' p

@[simp] theorem walk_nil (next : F → I → Option F) (t : F) : walk next t [] = some t := rfl

theorem walk_cons (next : F → I → Option F) (t : F) (i : I) (p : List I) :
    walk next t (i :: p) = (next t i).bind fun t' => walk next t' p := rfl

theorem walk_append (next : F → I → Option F) (t : F) (p q : List I) :
    walk next t (p ++ q) = (walk next t p).bind fun t' => walk next t' q := by
  induction p generalizing t with
  | nil => rfl
  | cons i p ih =>
    rw [List.cons_append, walk_cons, walk_cons]
    cases next t i with
    | none => rfl
    | some t' => exact ih t'

theorem walk_concat (next : F → I → Option F) (t : F) (p : List I) (i : I) :
    walk next t (p ++ [i]) = (walk next t p).bind fun t' => next t' i := by
  rw [walk_append]
  congr 1
  funext t'
  rw [walk_cons]
  cases next t' i <;> rfl

/-- A walk depends on the links it follows only. -/
theorem walk_congr {next next' : F → I → Option F} {t : F} {p : List I}
    (h : ∀ q i, q ++ [i] <+: p → ∀ f, walk next t q = some f → next' f i = next f i) :
    walk next' t p = walk next t p := by
  induction p generalizing t with
  | nil => rfl
  | cons i p ih =>
    have h0 : next' t i = next t i := h [] i ⟨p, rfl⟩ t rfl
    rw [walk_cons, walk_cons, h0]
    cases hn : next t i with
    | none => rfl
    | some t' =>
      refine ih (t := t') fun q j hq f hf => ?_
      refine h (i :: q) j ?_ f ?_
      · obtain ⟨r, hr⟩ := hq
        exact ⟨r, by rw [← hr]; simp⟩
      · rw [walk_cons, hn]
        exact hf

/-! ## Nodes -/

/-- `f` is the node at path `p` below the root `r`. -/
def At (next : F → I → Option F) (R : Set F) (ok : List I → Prop) (r : F) (p : List I) (f : F) : Prop :=
  r ∈ R ∧ ok p ∧ walk next r p = some f

/-- No table is reached along two paths, and no table is also a leaf. -/
def Separated (next : F → I → Option F) (R : Set F) (ok : List I → Prop) (d : Nat) : Prop :=
  ∀ {r p f r' p'}, At next R ok r p f → At next R ok r' p' f → p'.length ≤ d → r = r' ∧ p = p'

section Nodes
variable {next next' : F → I → Option F} {R : Set F} {ok : List I → Prop} {d : Nat}
variable {r r' r₀ t f g : F} {p p' p₀ : List I} {i : I}

theorem At.unique (h : At next R ok r p f) (h' : At next R ok r p g) : f = g := by
  have := h.2.2.symm.trans h'.2.2
  exact Option.some.inj this

theorem At.concat (h : At next R ok r p t) (hok : ok (p ++ [i])) (hl : next t i = some f) :
    At next R ok r (p ++ [i]) f := by
  refine ⟨h.1, hok, ?_⟩
  rw [walk_concat, h.2.2]
  exact hl

/-- The table holding the last link of a node. -/
theorem At.parent (hok : ∀ p q, ok (p ++ q) → ok p) (h : At next R ok r (p ++ [i]) f) :
    ∃ t, At next R ok r p t ∧ next t i = some f := by
  have hw := h.2.2
  rw [walk_concat] at hw
  obtain ⟨t, ht, hn⟩ := Option.bind_eq_some_iff.1 hw
  exact ⟨t, ⟨h.1, hok _ _ h.2.1, ht⟩, hn⟩

/-- Changing links outside the tables changes no walk. -/
theorem walk_eq_of_tables (hok : ∀ p q, ok (p ++ q) → ok p) (hlen : ∀ p, ok p → p.length ≤ d + 1)
    (heq : ∀ r p f, At next R ok r p f → p.length ≤ d → ∀ j, next' f j = next f j) (hr : r ∈ R) (hp : ok p) :
    walk next' r p = walk next r p := by
  refine walk_congr fun q j hq f hf => ?_
  obtain ⟨s, rfl⟩ := hq
  have h1 := hlen _ hp
  simp only [List.length_append, List.length_singleton] at h1
  exact heq r q f ⟨hr, hok q _ (by simpa using hp), hf⟩ (by omega) j

theorem at_eq_of_tables (hok : ∀ p q, ok (p ++ q) → ok p) (hlen : ∀ p, ok p → p.length ≤ d + 1)
    (heq : ∀ r p f, At next R ok r p f → p.length ≤ d → ∀ j, next' f j = next f j) :
    At next' R ok r p f ↔ At next R ok r p f := by
  constructor
  · intro h
    exact ⟨h.1, h.2.1, by rw [← walk_eq_of_tables hok hlen heq h.1 h.2.1]; exact h.2.2⟩
  · intro h
    exact ⟨h.1, h.2.1, by rw [walk_eq_of_tables hok hlen heq h.1 h.2.1]; exact h.2.2⟩

/-! ## Changing one link -/

/-- Link `i` of the table `t` at `(r₀, p₀)` becomes `l`, which starts a subtree of one node; no other link of a
table changes. -/
structure Relinked (next next' : F → I → Option F) (R : Set F) (ok : List I → Prop) (d : Nat)
    (r₀ : F) (p₀ : List I) (t : F) (i : I) (l : Option F) : Prop where
  prefix_ok : ∀ p q, ok (p ++ q) → ok p
  depth : ∀ p, ok p → p.length ≤ d + 1
  sep : Separated next R ok d
  table : At next R ok r₀ p₀ t
  table_depth : p₀.length ≤ d
  slot_ok : ok (p₀ ++ [i])
  link : next' t i = l
  others : ∀ r p f, At next R ok r p f → p.length ≤ d → ∀ j, ¬ (f = t ∧ j = i) → next' f j = next f j
  single : ∀ f, l = some f → p₀.length < d → ∀ j, next' f j = none

namespace Relinked
variable {l : Option F} (h : Relinked next next' R ok d r₀ p₀ t i l)
include h

theorem walk_off (hr : r ∈ R) (hp : ok p) (hoff : ¬ (r = r₀ ∧ p₀ ++ [i] <+: p)) :
    walk next' r p = walk next r p := by
  refine walk_congr fun q j hq f hf => ?_
  obtain ⟨s, rfl⟩ := hq
  have h1 := h.depth _ hp
  simp only [List.length_append, List.length_singleton] at h1
  have hat : At next R ok r q f := ⟨hr, h.prefix_ok q _ (by simpa using hp), hf⟩
  refine h.others r q f hat (by omega) j ?_
  rintro ⟨rfl, rfl⟩
  obtain ⟨rfl, rfl⟩ := h.sep hat h.table h.table_depth
  exact hoff ⟨rfl, _, rfl⟩

theorem walk_table : walk next' r₀ p₀ = some t := by
  rw [h.walk_off h.table.1 h.table.2.1]
  · exact h.table.2.2
  · rintro ⟨-, s, hs⟩
    have := congrArg List.length hs
    simp at this

theorem walk_slot : walk next' r₀ (p₀ ++ [i]) = l := by
  rw [walk_concat, h.walk_table]
  exact h.link

theorem walk_below (j : I) (s : List I) (hp : ok (p₀ ++ [i] ++ j :: s)) : walk next' r₀ (p₀ ++ [i] ++ j :: s) = none := by
  have h1 := h.depth _ hp
  simp only [List.length_append, List.length_cons] at h1
  rw [walk_append, h.walk_slot]
  cases hl : l with
  | none => rfl
  | some f =>
    change walk next' f (j :: s) = none
    rw [walk_cons, h.single f hl (by omega) j]
    rfl

/-- The nodes after the change. -/
theorem at_iff : At next' R ok r p f ↔
    (At next R ok r p f ∧ ¬ (r = r₀ ∧ p₀ ++ [i] <+: p)) ∨ (r = r₀ ∧ p = p₀ ++ [i] ∧ l = some f) := by
  by_cases hoff : r = r₀ ∧ p₀ ++ [i] <+: p
  · obtain ⟨rfl, s, rfl⟩ := hoff
    constructor
    · rintro ⟨hr, hp, hw⟩
      cases s with
      | nil =>
        rw [List.append_nil] at hw ⊢
        exact .inr ⟨rfl, rfl, by rw [← h.walk_slot]; exact hw⟩
      | cons j s =>
        rw [h.walk_below j s hp] at hw
        cases hw
    · rintro (⟨-, hn⟩ | ⟨-, hp, hl⟩)
      · exact absurd ⟨rfl, s, rfl⟩ hn
      · rw [hp]
        exact ⟨h.table.1, h.slot_ok, by rw [h.walk_slot]; exact hl⟩
  · constructor
    · rintro ⟨hr, hp, hw⟩
      exact .inl ⟨⟨hr, hp, by rw [← h.walk_off hr hp hoff]; exact hw⟩, hoff⟩
    · rintro (⟨⟨hr, hp, hw⟩, -⟩ | ⟨rfl, rfl, -⟩)
      · exact ⟨hr, hp, by rw [h.walk_off hr hp hoff]; exact hw⟩
      · exact absurd ⟨rfl, [], by simp⟩ hoff

/-- The nodes stay separated when a new table was no node and a new leaf no table. -/
theorem separated (hleaf : ∀ f, l = some f → ∀ r p, At next R ok r p f → d < p.length)
    (htable : ∀ f, l = some f → p₀.length < d → ∀ r p, ¬ At next R ok r p f) : Separated next' R ok d := by
  intro r p f r' p' ha ha' hlen
  rcases h.at_iff.1 ha with ⟨hb, -⟩ | ⟨rfl, rfl, hl⟩ <;> rcases h.at_iff.1 ha' with ⟨hb', -⟩ | ⟨rfl, rfl, hl'⟩
  · exact h.sep hb hb' hlen
  · rw [List.length_append, List.length_singleton] at hlen
    exact absurd hb (htable f hl' (by omega) _ _)
  · have := hleaf f hl _ _ hb'
    omega
  · exact ⟨rfl, rfl⟩

end Relinked

end Nodes

end Forest
