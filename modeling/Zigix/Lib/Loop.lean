import Mathlib.Data.List.Basic

/-!
# Counted loops with an early exit

`loop body is s` runs `body i` for the indices of a list in order and stops at the first one that reports
failure; `loop_range` is the invariant rule for `0 .. n - 1`, `loop_range_succ` adds an index, and `foldl_range` is the
rule for loops that cannot fail;
`foldlM_range` shows that a loop whose turns may have no result has one.
`search body is s` stops at the first index that has a result; `search_rule` is its invariant rule.
-/

namespace Loop

variable {σ : Type*}

/-- Run `body` over the indices; the flag says whether every turn succeeded. -/
def loop (body : Nat → σ → Bool × σ) : List Nat → σ → Bool × σ
  | [], s => (true, s)
  | i :: is, s =>
    match body i s with
    | (true, s') => loop body is s'
    | (false, s') => (false, s')

/-- What a loop establishes: `P` at the end, or `Q` where it stopped. -/
structure Result (P Q : σ → Prop) (r : Bool × σ) : Prop where
  ok : r.1 = true → P r.2
  fail : r.1 = false → Q r.2

theorem Result.ofTrue {P Q : σ → Prop} {s : σ} (h : P s) : Result P Q (true, s) := ⟨fun _ => h, nofun⟩

theorem Result.ofFalse {P Q : σ → Prop} {s : σ} (h : Q s) : Result P Q (false, s) := ⟨nofun, fun _ => h⟩

theorem Result.of_eq_true {P Q : σ → Prop} {r : Bool × σ} {s : σ} (h : Result P Q r) (hr : r = (true, s)) : P s := by
  subst hr
  exact h.ok rfl

theorem Result.mono {P P' Q Q' : σ → Prop} {r : Bool × σ} (h : Result P Q r) (hP : ∀ s, P s → P' s)
    (hQ : ∀ s, Q s → Q' s) : Result P' Q' r := ⟨fun hr => hP _ (h.ok hr), fun hr => hQ _ (h.fail hr)⟩

theorem loop_from (body : Nat → σ → Bool × σ) (P : Nat → σ → Prop) (Q : σ → Prop) (k n : Nat)
    (step : ∀ i s, k ≤ i → i < k + n → P i s → Result (P (i + 1)) Q (body i s)) (s : σ) (h : P k s) :
    Result (P (k + n)) Q (loop body (List.range' k n) s) := by
  induction n generalizing k s with
  | zero => exact .ofTrue h
  | succ n ih =>
    rw [List.range'_succ, loop]
    have hs := step k s (Nat.le_refl k) (by omega) h
    rcases hb : body k s with ⟨b, s'⟩
    rw [hb] at hs
    cases b with
    | false => exact .ofFalse (hs.fail rfl)
    | true =>
      have := ih (k + 1) (fun i s hi hlt => step i s (by omega) (by omega)) s' (hs.ok rfl)
      rwa [Nat.add_assoc, Nat.add_comm 1 n] at this

/-- The invariant rule of `for (0..n)` with early exit. -/
theorem loop_range {body : Nat → σ → Bool × σ} (P : Nat → σ → Prop) (Q : σ → Prop) (n : Nat) {s : σ}
    (h : P 0 s) (step : ∀ i s, i < n → P i s → Result (P (i + 1)) Q (body i s)) :
    Result (P n) Q (loop body (List.range n) s) := by
  rw [List.range_eq_range']
  simpa using loop_from body P Q 0 n (fun i s _ hi => step i s (by omega)) s h

theorem loop_append (body : Nat → σ → Bool × σ) (is js : List Nat) (s : σ) :
    loop body (is ++ js) s = if (loop body is s).1 = true then loop body js (loop body is s).2 else loop body is s := by
  induction is generalizing s with
  | nil => rfl
  | cons i is ih =>
    rw [List.cons_append, loop, loop]
    rcases hb : body i s with ⟨b, s'⟩
    cases b with
    | false => rfl
    | true => exact ih s'

/-- One index more: the loop runs it if it has not stopped before. -/
theorem loop_range_succ (body : Nat → σ → Bool × σ) (n : Nat) (s : σ) :
    loop body (List.range (n + 1)) s =
      if (loop body (List.range n) s).1 = true then body n (loop body (List.range n) s).2
      else loop body (List.range n) s := by
  have hone : ∀ s', loop body [n] s' = body n s' := by
    intro s'
    unfold loop
    rcases body n s' with ⟨b, s''⟩
    cases b <;> rfl
  rw [List.range_succ, loop_append, hone]

/-- The invariant rule of `for (0..n)`. -/
theorem foldl_range {body : σ → Nat → σ} (P : Nat → σ → Prop) (n : Nat) {s : σ}
    (h : P 0 s) (step : ∀ i s, i < n → P i s → P (i + 1) (body s i)) :
    P n ((List.range n).foldl body s) := by
  induction n with
  | zero => simpa using h
  | succ n ih =>
    rw [List.range_succ, List.foldl_append]
    exact step n _ (Nat.lt_succ_self n) (ih fun i s hi => step i s (by omega))

/-- The invariant rule of `for (0..n)` for turns that may have no result. -/
theorem foldlM_range {body : σ → Nat → Option σ} (P : Nat → σ → Prop) (n : Nat) {s : σ} (h : P 0 s)
    (step : ∀ i s, i < n → P i s → ∃ s', body s i = some s' ∧ P (i + 1) s') :
    ∃ s', (List.range n).foldlM body s = some s' ∧ P n s' := by
  induction n with
  | zero => exact ⟨s, rfl, h⟩
  | succ n ih =>
    obtain ⟨s₁, hrun, h₁⟩ := ih fun i s hi => step i s (by omega)
    obtain ⟨s₂, hbody, h₂⟩ := step n s₁ (Nat.lt_succ_self n) h₁
    refine ⟨s₂, ?_, h₂⟩
    rw [List.range_succ, List.foldlM_append, hrun]
    simp [hbody]

/-- Run `body` over the indices until it returns something. -/
def search {β : Type*} (body : Nat → σ → Option β × σ) : List Nat → σ → Option β × σ
  | [], s => (none, s)
  | i :: is, s =>
    match body i s with
    | (none, s') => search body is s'
    | (some b, s') => (some b, s')

/-- What a search establishes: `P` when there is no result, and `Q` of one. -/
structure Found {β : Type*} (P : σ → Prop) (Q : β → σ → Prop) (r : Option β × σ) : Prop where
  none : r.1 = none → P r.2
  some : ∀ b, r.1 = some b → Q b r.2

theorem search_rule {β : Type*} {body : Nat → σ → Option β × σ} (P : σ → Prop) (Q : β → σ → Prop) (is : List Nat)
    (step : ∀ i ∈ is, ∀ s, P s → Found P Q (body i s)) {s : σ} (h : P s) : Found P Q (search body is s) := by
  induction is generalizing s with
  | nil => exact ⟨fun _ => h, nofun⟩
  | cons i is ih =>
    have hs := step i List.mem_cons_self s h
    unfold search
    rcases hb : body i s with ⟨b, s'⟩
    rw [hb] at hs
    cases b with
    | none => exact ih (fun j hj => step j (List.mem_cons_of_mem _ hj)) (hs.none rfl)
    | some b => exact ⟨nofun, fun b' hb' => Option.some.inj hb' ▸ hs.some b rfl⟩

end Loop
