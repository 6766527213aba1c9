import Mathlib.Data.List.Basic
import Mathlib.Data.List.Range

/-!
# Streams that are consumed in blocks

A stream of symbols goes to a function of the state in blocks of `B` symbols; what does not fill a block waits.

* `feed B f s xs` : the state after the full blocks of `xs`; `rest B xs` : the symbols that wait;
* `feed_append`, `rest_append` : the symbols that come later meet those that wait, so the state does not depend on how
  the stream is cut into pieces;
* `feed_block` : the first block of a stream.
-/

namespace Blocks

variable {σ β : Type*} {B : Nat} {f : σ → List β → σ} {s : σ} {xs ys : List β}

def feed (B : Nat) (f : σ → List β → σ) (s : σ) (xs : List β) : σ :=
  (List.range (xs.length / B)).foldl (fun s i => f s ((xs.drop (i * B)).take B)) s

def rest (B : Nat) (xs : List β) : List β := xs.drop (xs.length / B * B)

theorem length_rest (B : Nat) (xs : List β) : (rest B xs).length = xs.length % B := by
  rw [rest, List.length_drop]
  have := Nat.div_add_mod xs.length B
  rw [Nat.mul_comm] at this
  omega

theorem feed_of_lt (h : xs.length < B) : feed B f s xs = s := by
  rw [feed, Nat.div_eq_of_lt h]
  rfl

theorem rest_of_lt (h : xs.length < B) : rest B xs = xs := by
  rw [rest, Nat.div_eq_of_lt h, Nat.zero_mul, List.drop_zero]

theorem feed_append_of_dvd (hB : 0 < B) (h : B ∣ xs.length) : feed B f s (xs ++ ys) = feed B f (feed B f s xs) ys := by
  obtain ⟨n, hn⟩ := h
  have hdiv : (xs ++ ys).length / B = n + ys.length / B := by
    rw [List.length_append, hn, Nat.mul_add_div hB]
  have hxs : xs.length / B = n := by
    rw [hn, Nat.mul_div_cancel_left _ hB]
  unfold feed
  rw [hdiv, hxs, List.range_add, List.foldl_append, List.foldl_map]
  have hfirst : (List.range n).foldl (fun s i => f s (((xs ++ ys).drop (i * B)).take B)) s =
      (List.range n).foldl (fun s i => f s ((xs.drop (i * B)).take B)) s := by
    apply List.foldl_ext
    intro s i hi
    have hle : (i + 1) * B ≤ n * B := Nat.mul_le_mul_right B (List.mem_range.1 hi)
    rw [Nat.succ_mul] at hle
    have hlen : xs.length = n * B := by
      rw [hn, Nat.mul_comm]
    rw [List.drop_append_of_le_length (by omega), List.take_append_of_le_length]
    rw [List.length_drop]
    omega
  rw [hfirst]
  apply List.foldl_ext
  intro s i _
  have hoff : (n + i) * B = xs.length + i * B := by
    rw [Nat.add_mul, hn, Nat.mul_comm n B]
  rw [hoff, List.drop_length_add_append]

theorem rest_append_of_dvd (hB : 0 < B) (h : B ∣ xs.length) : rest B (xs ++ ys) = rest B ys := by
  obtain ⟨n, hn⟩ := h
  have hoff : (xs ++ ys).length / B * B = xs.length + ys.length / B * B := by
    rw [List.length_append, hn, Nat.mul_add_div hB, Nat.add_mul, Nat.mul_comm n B]
  rw [rest, hoff, List.drop_length_add_append]
  rfl

/-- The blocks before the waiting symbols. -/
theorem take_append_rest (B : Nat) (xs : List β) : xs.take (xs.length / B * B) ++ rest B xs = xs :=
  List.take_append_drop _ _

theorem dvd_length_take (B : Nat) (xs : List β) : B ∣ (xs.take (xs.length / B * B)).length := by
  rw [List.length_take, Nat.min_eq_left (Nat.div_mul_le_self _ _)]
  exact ⟨_, Nat.mul_comm _ _⟩

theorem feed_take (hB : 0 < B) : feed B f s (xs.take (xs.length / B * B)) = feed B f s xs := by
  have hlt : (rest B xs).length < B := by
    rw [length_rest]
    exact Nat.mod_lt _ hB
  conv_rhs => rw [← take_append_rest B xs, feed_append_of_dvd hB (dvd_length_take B xs)]
  rw [feed_of_lt hlt]

/-- **The state after a longer stream**, from the state and the waiting symbols of a shorter one. -/
theorem feed_append (hB : 0 < B) (xs ys : List β) :
    feed B f s (xs ++ ys) = feed B f (feed B f s xs) (rest B xs ++ ys) := by
  conv_lhs => rw [← take_append_rest B xs, List.append_assoc, feed_append_of_dvd hB (dvd_length_take B xs)]
  rw [feed_take hB]

theorem rest_append (hB : 0 < B) (xs ys : List β) : rest B (xs ++ ys) = rest B (rest B xs ++ ys) := by
  conv_lhs => rw [← take_append_rest B xs, List.append_assoc, rest_append_of_dvd hB (dvd_length_take B xs)]

/-- The first block. -/
theorem feed_block (hB : 0 < B) (h : xs.length = B) : feed B f s (xs ++ ys) = feed B f (f s xs) ys := by
  rw [feed_append_of_dvd hB ⟨1, by rw [h, Nat.mul_one]⟩]
  congr 1
  rw [feed, h, Nat.div_self hB]
  simp [List.take_of_length_le h.le]

theorem rest_block (hB : 0 < B) (h : xs.length = B) : rest B (xs ++ ys) = rest B ys :=
  rest_append_of_dvd hB ⟨1, by rw [h, Nat.mul_one]⟩

end Blocks
