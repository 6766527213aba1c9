import Mathlib.Data.List.Basic
import Mathlib.Tactic.Common

/-!
# Streams that travel in pieces

A stream of symbols arrives in pieces; one read gets no more than the rest of the first piece. A write hands over as many
symbols as the other side takes. Loops around both move a given number of symbols.

* `readFull_eq` : however the stream is cut, the loop gets its next `n` symbols and leaves the others;
* `writeAll_eq` : however much each call takes, everything arrives, in order.
-/

namespace Pieces

variable {β : Type*}

/-! ## Reading -/

/-- One read of at most `n` symbols. -/
def read (n : Nat) : List (List β) → List β × List (List β)
  | [] => ([], [])
  | p :: ps => (p.take n, if n < p.length then p.drop n :: ps else ps)

/-- Reads until there are `n` symbols; a read that gets none is the end or an error, and fails. -/
def readFull (n : Nat) (ps : List (List β)) : Option (List β) × List (List β) :=
  if n = 0 then (some [], ps)
  else
    match read n ps with
    | ([], ps') => (none, ps')
    | (x :: got, ps') =>
      let (more, ps'') := readFull (n - (got.length + 1)) ps'
      (more.map fun ys => x :: got ++ ys, ps'')
termination_by n

/-- No piece is empty. -/
def Solid (ps : List (List β)) : Prop := ∀ p ∈ ps, p ≠ []

theorem read_spec {n : Nat} {ps : List (List β)} (hn : 0 < n) (hps : Solid ps) (hlen : 0 < ps.flatten.length) :
    ∃ x got ps', read n ps = (x :: got, ps') ∧ got.length < n ∧ x :: got ++ ps'.flatten = ps.flatten ∧ Solid ps' := by
  cases ps with
  | nil => exact absurd hlen (Nat.lt_irrefl 0)
  | cons p ps =>
    have hp : p ≠ [] := hps p List.mem_cons_self
    have hrest : Solid ps := fun q hq => hps q (List.mem_cons_of_mem _ hq)
    obtain ⟨y, ys, rfl⟩ := List.exists_cons_of_ne_nil hp
    obtain ⟨m, rfl⟩ := Nat.exists_eq_succ_of_ne_zero (Nat.ne_of_gt hn)
    rw [read, List.take_succ_cons]
    refine ⟨y, ys.take m, _, rfl, ?_, ?_, ?_⟩
    · rw [List.length_take]
      omega
    · split
      · rw [List.flatten_cons, List.flatten_cons, List.drop_succ_cons, List.cons_append, ← List.append_assoc,
          List.take_append_drop, List.cons_append]
      · rename_i hlt
        rw [List.length_cons] at hlt
        rw [List.take_of_length_le (by omega), List.flatten_cons]
    · split
      · rename_i hlt
        intro q hq
        rcases List.mem_cons.1 hq with rfl | hq
        · intro hnil
          have := congrArg List.length hnil
          rw [List.length_drop, List.length_nil] at this
          omega
        · exact hrest q hq
      · exact hrest

/-- **The loop gets the next `n` symbols of the stream**, wherever it is cut. -/
theorem readFull_eq {n : Nat} {ps : List (List β)} (hps : Solid ps) (hlen : n ≤ ps.flatten.length) :
    ∃ ps', readFull n ps = (some (ps.flatten.take n), ps') ∧ ps'.flatten = ps.flatten.drop n ∧ Solid ps' := by
  induction n using Nat.strongRecOn generalizing ps with
  | ind n ih =>
    rw [readFull]
    split
    · rename_i h
      subst h
      exact ⟨ps, rfl, rfl, hps⟩
    · rename_i h
      obtain ⟨x, got, ps', hread, hgot, hsplit, hps'⟩ := read_spec (Nat.pos_of_ne_zero h) hps (by omega)
      have hle : n - (got.length + 1) ≤ ps'.flatten.length := by
        rw [← hsplit, List.length_append, List.length_cons] at hlen
        omega
      obtain ⟨ps'', hmore, hflat, hsolid⟩ := ih _ (by omega) hps' hle
      have hcut : n = (x :: got).length + (n - (got.length + 1)) := by
        rw [List.length_cons]
        omega
      refine ⟨ps'', ?_, ?_, hsolid⟩
      · simp only [hread, hmore, Option.map_some]
        rw [← hsplit]
        conv_rhs => rw [hcut, List.take_length_add_append]
      · rw [hflat, ← hsplit]
        conv_rhs => rw [hcut, List.drop_length_add_append]

/-- What a successful loop took away. -/
theorem readFull_some {n : Nat} {ps ps' : List (List β)} {xs : List β} (h : readFull n ps = (some xs, ps')) :
    xs.length = n ∧ xs ++ ps'.flatten = ps.flatten := by
  induction n using Nat.strongRecOn generalizing ps xs with
  | ind n ih =>
    rw [readFull] at h
    split at h
    · rename_i hn
      cases h
      exact ⟨hn.symm, rfl⟩
    · rename_i hn
      cases ps with
      | nil => cases h
      | cons p ps =>
        rw [read] at h
        cases hp : p.take n with
        | nil =>
          rw [hp] at h
          cases h
        | cons x got =>
          rw [hp] at h
          have htake := congrArg List.length hp
          rw [List.length_take, List.length_cons] at htake
          obtain ⟨ys, hys⟩ : ∃ ys, readFull (n - (got.length + 1)) (if n < p.length then p.drop n :: ps else ps) =
              (ys, ps') := ⟨_, congrArg (Prod.mk _) (congrArg Prod.snd h)⟩
          simp only [hys] at h
          cases ys with
          | none => cases h
          | some ys =>
            cases h
            obtain ⟨hlen, hflat⟩ := ih _ (by omega) hys
            refine ⟨by rw [List.length_append, hlen, List.length_cons]; omega, ?_⟩
            rw [List.append_assoc, hflat, ← hp]
            split
            · rw [List.flatten_cons, List.flatten_cons, ← List.append_assoc, List.take_append_drop]
            · rw [List.take_of_length_le (by omega), List.flatten_cons]

/-! ## Writing -/

/-- The other side: what it took, and how much call `k` takes. -/
structure Sink (β : Type*) where
  taken : List β
  accepts : Nat → Nat
  calls : Nat
  deriving Inhabited

/-- One write: how many symbols were taken. -/
def Sink.write (s : Sink β) (xs : List β) : Nat × Sink β :=
  let n := min (s.accepts s.calls) xs.length
  (n, { s with taken := s.taken ++ xs.take n, calls := s.calls + 1 })

/-- Writes until everything is taken; a call that takes nothing fails. -/
def Sink.writeAll (s : Sink β) (xs : List β) : Bool × Sink β :=
  if xs.length = 0 then (true, s)
  else if (s.write xs).1 = 0 then (false, (s.write xs).2)
  else (s.write xs).2.writeAll (xs.drop (s.write xs).1)
termination_by xs.length
decreasing_by
  rw [List.length_drop]
  omega

/-- No call fails. -/
def Sink.Open (s : Sink β) : Prop := ∀ k, 0 < s.accepts k

/-- **Everything arrives**, however much each call takes. -/
theorem Sink.writeAll_eq {s : Sink β} (hs : s.Open) (xs : List β) :
    ∃ s', s.writeAll xs = (true, s') ∧ s'.taken = s.taken ++ xs ∧ s'.accepts = s.accepts := by
  induction hl : xs.length using Nat.strongRecOn generalizing s xs with
  | ind l ih =>
    rw [writeAll]
    split
    · rename_i h
      rw [List.length_eq_zero_iff] at h
      exact ⟨s, rfl, by rw [h, List.append_nil], rfl⟩
    · rename_i h
      have hpos : (s.write xs).1 ≠ 0 := by
        have := hs s.calls
        change min _ _ ≠ 0
        omega
      have hopen : (s.write xs).2.Open := hs
      rw [if_neg hpos]
      obtain ⟨s', hrun, htaken, haccepts⟩ := ih (xs.drop (s.write xs).1).length (by rw [List.length_drop]; omega) hopen _ rfl
      refine ⟨s', hrun, ?_, haccepts⟩
      rw [htaken]
      change s.taken ++ xs.take (s.write xs).1 ++ _ = _
      rw [List.append_assoc, List.take_append_drop]

theorem Sink.Open.of_accepts {s s' : Sink β} (hs : s.Open) (h : s'.accepts = s.accepts) : s'.Open := fun k => by
  rw [h]
  exact hs k

end Pieces
