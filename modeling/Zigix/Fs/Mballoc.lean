import Zigix.Fs.FreeBlocks

/-!
# Free runs in a bitmap (`kernel/fs/common/bitmap.zig`, `kernel/fs/ext4/mballoc.zig`)

* `findContiguousZeros` : the first run of zeros from a hint on, around the end of the bitmap but not across it;
* `setRange` : the bits of the run are set;
* `allocFromBitmap_spec` : all bits of the run were zero, exactly they are set.
-/

namespace Zigix.Mballoc

open Bytes
open FreeBlocks (testBit)

variable {bmap : Buf} {total count hint checked start run fuel n b : Nat}

/-! ## The bitmap -/

def setBit (bmap : Buf) (bit : Nat) : Buf :=
  Function.update bmap (bit / 8) (bmap (bit / 8) ||| (1#8 <<< (bit % 8)))

def setRange (bmap : Buf) (start count : Nat) : Buf :=
  (List.range count).foldl (fun bmap i => setBit bmap (start + i)) bmap

/-- The loop of `findContiguousZeros`, in at most `fuel` turns. -/
def scanZeros (bmap : Buf) (total count hint : Nat) : Nat → Nat → Nat → Nat → Option Nat
  | 0, _, _, _ => none
  | fuel + 1, checked, start, run =>
    let pos := (hint + checked) % total
    if testBit bmap pos then scanZeros bmap total count hint fuel (checked + 1) start 0
    else
      let start := if run = 0 then pos else start
      let run := run + 1
      if count ≤ run then some start
      else scanZeros bmap total count hint fuel (checked + 1) start (if pos + 1 = total then 0 else run)

def findContiguousZeros (bmap : Buf) (total count hint : Nat) : Option Nat :=
  if count = 0 then some hint
  else if total < count then none
  else scanZeros bmap total count hint total 0 hint 0

/-! ## The allocator -/

structure AllocRequest where
  count : Nat
  goal : Nat
  minCount : Nat

structure BlockGroupState where
  bgNumber : Nat
  blocksPerGroup : Nat
  firstDataBlock : Nat

def BlockGroupState.startBlock (bg : BlockGroupState) : Nat := bg.firstDataBlock + bg.bgNumber * bg.blocksPerGroup

def hintOf (total : Nat) (req : AllocRequest) (bg : BlockGroupState) : Nat :=
  if bg.startBlock ≤ req.goal ∧ req.goal - bg.startBlock < total then req.goal - bg.startBlock else 0

/-- The loop that halves the count, in at most `fuel` turns. -/
def tryShorter (bmap : Buf) (total minCount hint : Nat) : Nat → Nat → Option (Nat × Nat)
  | 0, _ => none
  | fuel + 1, tryCount =>
    if minCount ≤ tryCount then
      match findContiguousZeros bmap total tryCount hint with
      | some bit => some (bit, tryCount)
      | none => tryShorter bmap total minCount hint fuel (tryCount / 2)
    else none

def findRun (bmap : Buf) (total hint : Nat) (req : AllocRequest) : Option (Nat × Nat) :=
  match findContiguousZeros bmap total req.count hint with
  | some bit => some (bit, req.count)
  | none =>
    if req.minCount < req.count then
      match tryShorter bmap total req.minCount hint (req.count + 1) req.count with
      | some r => some r
      | none =>
        if 0 < req.minCount then (findContiguousZeros bmap total req.minCount hint).map fun bit => (bit, req.minCount)
        else none
    else none

def allocFromBitmap (bmap : Buf) (total : Nat) (req : AllocRequest) (bg : BlockGroupState) :
    Option (Nat × Nat × Buf) :=
  (findRun bmap total (hintOf total req bg) req).map fun (bit, count) =>
    (bg.startBlock + bit, count, setRange bmap bit count)

/-! ## What the search finds -/

theorem testBit_setBit (bmap : Buf) (bit b : Nat) : testBit (setBit bmap bit) b = (testBit bmap b || decide (b = bit)) := by
  unfold testBit setBit
  by_cases hbyte : b / 8 = bit / 8
  · rw [hbyte, Function.update_self, BitVec.getLsbD_or, BitVec.getLsbD_shiftLeft, BitVec.getLsbD_one]
    have hlt : b % 8 < 8 := Nat.mod_lt _ (by decide)
    congr 1
    by_cases heq : b = bit
    · simp [heq, Nat.mod_lt]
    · have hne : b % 8 ≠ bit % 8 := fun he => heq (by omega)
      simp only [heq, decide_false]
      by_cases hle : b % 8 < bit % 8
      · simp [hle]
      · have : ¬ b % 8 - bit % 8 = 0 := by omega
        simp [this]
  · have hne : b ≠ bit := fun he => hbyte (by rw [he])
    rw [Function.update_of_ne hbyte, decide_eq_false hne, Bool.or_false]

theorem testBit_setRange (bmap : Buf) (start count b : Nat) :
    testBit (setRange bmap start count) b = (testBit bmap b || decide (start ≤ b ∧ b < start + count)) := by
  unfold setRange
  induction count with
  | zero =>
    have hno : ¬ (start ≤ b ∧ b < start + 0) := by omega
    rw [List.range_zero, List.foldl_nil, decide_eq_false hno, Bool.or_false]
  | succ count ih =>
    rw [List.range_succ, List.foldl_append, List.foldl_cons, List.foldl_nil, testBit_setBit, ih, Bool.or_assoc]
    congr 1
    rw [← Bool.decide_or]
    exact decide_eq_decide.2 (by omega)

def ZeroRun (bmap : Buf) (total start count : Nat) : Prop :=
  start + count ≤ total ∧ ∀ b, start ≤ b → b < start + count → testBit bmap b = false

theorem mod_succ (h : n % total + 1 < total) : (n + 1) % total = n % total + 1 := by
  have hdiv := Nat.div_add_mod n total
  calc (n + 1) % total = (n % total + 1 + total * (n / total)) % total := by
        congr 1
        omega
    _ = n % total + 1 := by rw [Nat.add_mul_mod_self_left, Nat.mod_eq_of_lt h]

/-- What holds before a turn: the run ends before the next position. -/
structure Scanned (bmap : Buf) (total count hint checked start run : Nat) : Prop where
  short : run < count
  zeros : ZeroRun bmap total start run ∨ run = 0
  next : run = 0 ∨ (hint + checked) % total = start + run

theorem scanZeros_spec (hpos : 0 < total) (h : Scanned bmap total count hint checked start run)
    (hr : scanZeros bmap total count hint fuel checked start run = some b) : ZeroRun bmap total b count := by
  induction fuel generalizing checked start run with
  | zero => cases hr
  | succ fuel ih =>
    have hshort := h.short
    have hlt := Nat.mod_lt (hint + checked) hpos
    rw [scanZeros] at hr
    dsimp only at hr
    split at hr
    · exact ih ⟨by omega, .inr rfl, .inl rfl⟩ hr
    · next hbit =>
      have hrun : ZeroRun bmap total (if run = 0 then (hint + checked) % total else start) (run + 1) ∧
          (if run = 0 then (hint + checked) % total else start) + run = (hint + checked) % total := by
        by_cases hzero : run = 0
        · subst hzero
          rw [if_pos rfl]
          refine ⟨⟨by omega, fun b hle hb => ?_⟩, by omega⟩
          obtain rfl : b = (hint + checked) % total := by omega
          simpa using hbit
        · rw [if_neg hzero]
          have hnext := h.next.resolve_left hzero
          refine ⟨⟨by omega, fun b hle hb => ?_⟩, hnext.symm⟩
          rcases Nat.lt_or_ge b (start + run) with hin | hge
          · exact (h.zeros.resolve_right hzero).2 b hle hin
          · obtain rfl : b = (hint + checked) % total := by omega
            simpa using hbit
      obtain ⟨hzeros, hend⟩ := hrun
      split at hr
      · next hcount =>
        obtain rfl := Option.some.inj hr
        rwa [show count = run + 1 by omega]
      · next hcount =>
        by_cases hlast : (hint + checked) % total + 1 = total
        · rw [if_pos hlast] at hr
          exact ih ⟨by omega, .inr rfl, .inl rfl⟩ hr
        · rw [if_neg hlast] at hr
          refine ih ⟨by omega, .inl hzeros, .inr ?_⟩ hr
          rw [← Nat.add_assoc hint, mod_succ (by omega)]
          omega

theorem findContiguousZeros_spec (hhint : hint ≤ total) (h : findContiguousZeros bmap total count hint = some b) :
    ZeroRun bmap total b count := by
  unfold findContiguousZeros at h
  split at h
  · next hzero =>
    obtain rfl := Option.some.inj h
    exact ⟨by omega, fun b hle hb => by omega⟩
  · next hzero =>
    split at h
    · cases h
    · exact scanZeros_spec (by omega) ⟨by omega, .inr rfl, .inl rfl⟩ h

theorem tryShorter_spec {m t : Nat} {r : Nat × Nat} (hhint : hint ≤ total)
    (h : tryShorter bmap total m hint fuel t = some r) : ZeroRun bmap total r.1 r.2 ∧ m ≤ r.2 ∧ r.2 ≤ t := by
  induction fuel generalizing t with
  | zero => cases h
  | succ fuel ih =>
    rw [tryShorter] at h
    split at h
    · next hle =>
      cases hfind : findContiguousZeros bmap total t hint with
      | some bit =>
        rw [hfind] at h
        obtain rfl := Option.some.inj h
        exact ⟨findContiguousZeros_spec hhint hfind, hle, le_rfl⟩
      | none =>
        rw [hfind] at h
        obtain ⟨hrun, hm, ht⟩ := ih h
        exact ⟨hrun, hm, ht.trans (Nat.div_le_self ..)⟩
    · cases h

theorem hintOf_le (total : Nat) (req : AllocRequest) (bg : BlockGroupState) : hintOf total req bg ≤ total := by
  unfold hintOf
  split
  · next h => exact h.2.le
  · exact Nat.zero_le _

/-- **A run** of zeros, as long as it was asked for or at least of the least length. -/
theorem findRun_spec {req : AllocRequest} {r : Nat × Nat} (hhint : hint ≤ total)
    (h : findRun bmap total hint req = some r) :
    ZeroRun bmap total r.1 r.2 ∧ r.2 ≤ req.count ∧ (r.2 = req.count ∨ req.minCount ≤ r.2) := by
  unfold findRun at h
  cases hfind : findContiguousZeros bmap total req.count hint with
  | some bit =>
    rw [hfind] at h
    obtain rfl := Option.some.inj h
    exact ⟨findContiguousZeros_spec hhint hfind, le_rfl, .inl rfl⟩
  | none =>
    rw [hfind] at h
    dsimp only at h
    split at h
    · next hlt =>
      cases hshort : tryShorter bmap total req.minCount hint (req.count + 1) req.count with
      | some r' =>
        rw [hshort] at h
        obtain rfl := Option.some.inj h
        obtain ⟨hrun, hm, ht⟩ := tryShorter_spec hhint hshort
        exact ⟨hrun, ht, .inr hm⟩
      | none =>
        rw [hshort] at h
        dsimp only at h
        split at h
        · obtain ⟨bit, hbit, rfl⟩ := Option.map_eq_some_iff.1 h
          exact ⟨findContiguousZeros_spec hhint hbit, hlt.le, .inr le_rfl⟩
        · cases h
    · cases h

/-- **What the allocator gives** was free, and exactly that is marked. -/
theorem allocFromBitmap_spec {req : AllocRequest} {bg : BlockGroupState} {bmap' : Buf} {first : Nat}
    (h : allocFromBitmap bmap total req bg = some (first, n, bmap')) :
    ∃ bit, first = bg.startBlock + bit ∧ ZeroRun bmap total bit n ∧ bmap' = setRange bmap bit n ∧ n ≤ req.count ∧
      (n = req.count ∨ req.minCount ≤ n) := by
  obtain ⟨⟨bit, n'⟩, hfind, heq⟩ := Option.map_eq_some_iff.1 h
  simp only [Prod.mk.injEq] at heq
  obtain ⟨rfl, rfl, rfl⟩ := heq
  obtain ⟨hrun, hle, hmin⟩ := findRun_spec (hintOf_le ..) hfind
  exact ⟨bit, rfl, hrun, rfl, hle, hmin⟩

end Zigix.Mballoc
