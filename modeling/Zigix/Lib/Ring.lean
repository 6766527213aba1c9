import Zigix.Lib.Loop
import Mathlib.Data.Nat.ModEq

/-!
# Ring buffers and copy loops

* `store pos f k buf` : the loop `for (0..k) |i| buf[pos(i)] = f(i)`;
* `slice n buf start len` : `len` cells from `start` on, around a ring of `n` cells;
* `slice_store` : storing behind a slice appends to it; `slice_advance` : moving the start drops from it.
-/

namespace Ring

variable {α : Type*}

def store (pos : Nat → Nat) (f : Nat → α) (k : Nat) (buf : Nat → α) : Nat → α :=
  (List.range k).foldl (fun b i => Function.update b (pos i) (f i)) buf

def slice (n : Nat) (buf : Nat → α) (start len : Nat) : List α := (List.range len).map fun i => buf ((start + i) % n)

/-! ## Copy loops -/

theorem store_succ (pos : Nat → Nat) (f : Nat → α) (k : Nat) (buf : Nat → α) :
    store pos f (k + 1) buf = Function.update (store pos f k buf) (pos k) (f k) := by
  rw [store, List.range_succ, List.foldl_append]
  rfl

theorem store_congr {pos pos' : Nat → Nat} {f : Nat → α} {k : Nat} {buf : Nat → α} (h : ∀ i < k, pos i = pos' i) :
    store pos f k buf = store pos' f k buf := by
  induction k with
  | zero => rfl
  | succ k ih => rw [store_succ, store_succ, h k (Nat.lt_succ_self k), ih fun i hi => h i (by omega)]

/-- A loop in two parts. -/
theorem store_add (pos : Nat → Nat) (f : Nat → α) (a b : Nat) (buf : Nat → α) :
    store pos f (a + b) buf = store (fun i => pos (a + i)) (fun i => f (a + i)) b (store pos f a buf) := by
  induction b with
  | zero => rfl
  | succ b ih => rw [← Nat.add_assoc, store_succ, store_succ, ih]

/-- Cells that the loop does not name keep their contents. -/
theorem store_frame {pos : Nat → Nat} {f : Nat → α} {k j : Nat} {buf : Nat → α} (h : ∀ i < k, pos i ≠ j) :
    store pos f k buf j = buf j := by
  induction k with
  | zero => rfl
  | succ k ih =>
    rw [store_succ, Function.update_of_ne (h k (Nat.lt_succ_self k)).symm]
    exact ih fun i hi => h i (by omega)

theorem store_at {pos : Nat → Nat} {f : Nat → α} {k i : Nat} {buf : Nat → α}
    (inj : ∀ i j, i < k → j < k → pos i = pos j → i = j) (hi : i < k) : store pos f k buf (pos i) = f i := by
  induction k with
  | zero => omega
  | succ k ih =>
    rw [store_succ]
    by_cases hik : i = k
    · subst hik
      rw [Function.update_self]
    · have hne : pos i ≠ pos k := fun h => hik (inj i k hi (Nat.lt_succ_self k) h)
      rw [Function.update_of_ne hne]
      exact ih (fun a b ha hb => inj a b (by omega) (by omega)) (by omega)

theorem map_getD_take (xs : List α) (x : α) {k : Nat} (hk : k ≤ xs.length) :
    (List.range k).map (fun i => xs.getD i x) = xs.take k := by
  apply List.ext_getElem
  · simp [hk]
  · intro i h₁ h₂
    simp only [List.length_map, List.length_range] at h₁
    simp [List.getD_eq_getElem?_getD, List.getElem?_eq_getElem (h₁.trans_le hk)]

/-! ## Slices -/

@[simp] theorem length_slice (n : Nat) (buf : Nat → α) (start len : Nat) : (slice n buf start len).length = len := by
  simp [slice]

/-- Positions less than a round apart are different cells. -/
theorem cell_inj {n start i j : Nat} (hi : i < n) (hj : j < n) (h : (start + i) % n = (start + j) % n) : i = j := by
  have hij : i % n = j % n := Nat.ModEq.add_left_cancel' start h
  rwa [Nat.mod_eq_of_lt hi, Nat.mod_eq_of_lt hj] at hij

theorem slice_store {n start len k : Nat} {buf f : Nat → α} (h : len + k ≤ n) :
    slice n (store (fun i => (start + len + i) % n) f k buf) start (len + k) =
      slice n buf start len ++ (List.range k).map f := by
  rw [slice, List.range_add, List.map_append, List.map_map]
  congr 1
  · apply List.map_congr_left
    intro i hi
    rw [List.mem_range] at hi
    refine store_frame fun j hj heq => ?_
    rw [Nat.add_assoc] at heq
    have := cell_inj (by omega) (by omega) heq
    omega
  · apply List.map_congr_left
    intro i hi
    rw [List.mem_range] at hi
    show store _ f k buf ((start + (len + i)) % n) = f i
    rw [← Nat.add_assoc]
    refine store_at (fun a b ha hb heq => ?_) hi
    exact cell_inj (by omega) (by omega) heq

theorem slice_mod (n : Nat) (buf : Nat → α) (start len : Nat) : slice n buf (start % n) len = slice n buf start len := by
  unfold slice
  apply List.map_congr_left
  intro i _
  rw [Nat.mod_add_mod]

theorem slice_add (n : Nat) (buf : Nat → α) (start a b : Nat) :
    slice n buf start (a + b) = slice n buf start a ++ slice n buf (start + a) b := by
  unfold slice
  rw [List.range_add, List.map_append, List.map_map]
  congr 1
  apply List.map_congr_left
  intro i _
  show buf ((start + (a + i)) % n) = _
  rw [Nat.add_assoc]

/-- Consuming `k` of `len` cells. -/
theorem slice_advance {n start len k : Nat} {buf : Nat → α} (hk : k ≤ len) :
    slice n buf start len = slice n buf start k ++ slice n buf ((start + k) % n) (len - k) := by
  rw [slice_mod, ← slice_add, Nat.add_sub_cancel' hk]

end Ring
