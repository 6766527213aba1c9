import Zigix.Fs.Mballoc

/-!
# Bitmap search (`kernel/fs/common/bitmap.zig`, `kernel/fs/ext4/mballoc.zig`)

The searches start at a hint and go around the end of the bitmap, with checked `u32` arithmetic (`none` where a sum overflows).

* `findFirstZero` : skips whole bytes, also the last one, of which a part may lie behind the end: `Jumps`;
* `findContiguousZeros`, `allocFromBitmap` : do not see a run across the hint: `Found`;
* `searches_complete_iff` : all of them.
-/

namespace Zigix.BitmapSearch

open Bytes
open FreeBlocks (testBit)
open Mballoc (ZeroRun AllocRequest BlockGroupState hintOf scanZeros setRange)

variable {bmap : Buf} {total count hint pos checked stop fuel start run b n : Nat}

def addU32 (a b : Nat) : Option Nat := if a + b < 2 ^ 32 then some (a + b) else none

/-! ## The searches -/

/-- A whole byte may be skipped here: `pos % 8 == 0 and checked + 8 <= total_bits`, and the byte is full. -/
def skips (bmap : Buf) (total pos checked : Nat) : Option Bool :=
  if pos % 8 = 0 then (addU32 checked 8).map fun ahead => decide (ahead ≤ total ∧ bmap (pos / 8) = 0xFF)
  else some false

/-- The loop of `findFirstZero`, in at most `fuel` turns. -/
def firstLoop (bmap : Buf) (total : Nat) : Nat → Nat → Nat → Option (Option Nat)
  | 0, _, _ => some none
  | fuel + 1, pos, checked =>
    if checked < total then do
      if ← skips bmap total pos checked then
        let pos ← addU32 pos 7
        let checked ← addU32 checked 7
        firstLoop bmap total fuel ((← addU32 pos 1) % total) (← addU32 checked 1)
      else if testBit bmap pos = false then some (some pos)
      else firstLoop bmap total fuel ((← addU32 pos 1) % total) (← addU32 checked 1)
    else some none

def findFirstZero (bmap : Buf) (total hint : Nat) : Option (Option Nat) := firstLoop bmap total (total + 1) hint 0

/-- The loop of `findContiguousZeros`, in at most `fuel` turns. -/
def runLoop (bmap : Buf) (total count hint : Nat) : Nat → Nat → Nat → Nat → Option (Option Nat)
  | 0, _, _, _ => some none
  | fuel + 1, checked, start, run => do
    let pos := (← addU32 hint checked) % total
    if testBit bmap pos then runLoop bmap total count hint fuel (checked + 1) start 0
    else
      let start := if run = 0 then pos else start
      let run := run + 1
      if count ≤ run then some (some start)
      else runLoop bmap total count hint fuel (checked + 1) start (if pos + 1 = total then 0 else run)

def findContiguousZeros (bmap : Buf) (total count hint : Nat) : Option (Option Nat) :=
  if count = 0 then some (some hint)
  else if total < count then some none
  else runLoop bmap total count hint total 0 hint 0

/-- The counts of the loop that halves them, in at most `fuel` turns. -/
def halves (minCount : Nat) : Nat → Nat → List Nat
  | 0, _ => []
  | fuel + 1, tryCount => if minCount ≤ tryCount then tryCount :: halves minCount fuel (tryCount / 2) else []

/-- The counts that `allocFromBitmap` searches for: the one asked for, shorter ones, the least one. -/
def tried (req : AllocRequest) : List Nat :=
  req.count :: if req.minCount < req.count then
    halves req.minCount (req.count + 1) req.count ++ (if 0 < req.minCount then [req.minCount] else [])
  else []

def findAny (bmap : Buf) (total hint : Nat) : List Nat → Option (Option (Nat × Nat))
  | [] => some none
  | count :: counts => do
    match ← findContiguousZeros bmap total count hint with
    | some bit => some (some (bit, count))
    | none => findAny bmap total hint counts

/-- The first block, the number of blocks, and the bitmap in which they are marked; `some none` is `false`. -/
def allocFromBitmap (bmap : Buf) (total : Nat) (req : AllocRequest) (bg : BlockGroupState) :
    Option (Option (Nat × Nat × Buf)) :=
  (findAny bmap total (hintOf total req bg) (tried req)).map fun r => r.map fun (bit, count) =>
    (bg.startBlock + bit, count, setRange bmap bit count)

/-! ## What they are for -/

/-- Null exactly when all bits are set, and otherwise a clear bit. -/
def FirstZero (bmap : Buf) (total : Nat) (r : Option (Option Nat)) : Prop :=
  ∃ answer, r = some answer ∧ (answer = none ↔ ∀ b < total, testBit bmap b = true) ∧
    ∀ b, answer = some b → b < total ∧ testBit bmap b = false

/-- Null exactly when there is no run of clear bits, and otherwise the start of one. -/
def FreeRun (bmap : Buf) (total count : Nat) (r : Option (Option Nat)) : Prop :=
  ∃ answer, r = some answer ∧ (answer = none ↔ ¬ ∃ s, ZeroRun bmap total s count) ∧
    ∀ s, answer = some s → ZeroRun bmap total s count

/-- False exactly when there is no run of the least length. -/
def Allocates (bmap : Buf) (total : Nat) (req : AllocRequest) (r : Option (Option (Nat × Nat × Buf))) : Prop :=
  ∃ answer, r = some answer ∧ (answer = none ↔ ¬ ∃ s, ZeroRun bmap total s req.minCount)

/-- The bits from `lo` on, below `hi`, are set. -/
def AllSet (bmap : Buf) (lo hi : Nat) : Prop := ∀ b, lo ≤ b → b < hi → testBit bmap b = true

/-- The search skips the last byte, of which the end of the bitmap is a part, and comes out behind the first bits. -/
def Jumps (bmap : Buf) (total hint : Nat) : Prop :=
  total % 8 ≠ 0 ∧ 8 ≤ hint + total % 8 ∧ hint ≤ 8 * (total / 8) ∧ AllSet bmap hint (8 * (total / 8)) ∧
    bmap (total / 8) = 0xFF

/-- A sum overflows; the bitmap has almost `2 ^ 32` bits. -/
def Overflows (bmap : Buf) (total hint : Nat) : Prop :=
  2 ^ 32 ≤ total + 7 ∧ (Jumps bmap total hint ∨ hint = 0 ∧ AllSet bmap 0 (8 * (total / 8)) ∨
    AllSet bmap hint total ∧ 1 ≤ hint % 8 ∧ hint % 8 ≤ total % 8 ∧ AllSet bmap 0 (8 * (hint / 8)))

def Found (bmap : Buf) (total count hint : Nat) : Prop :=
  ∃ s, ZeroRun bmap total s count ∧ (hint ≤ s ∨ s + count ≤ hint ∧ s + count + total ≤ 2 ^ 32)

/-! ## One turn -/

theorem addU32_of_lt {a b : Nat} (h : a + b < 2 ^ 32) : addU32 a b = some (a + b) := if_pos h

theorem addU32_eq_none {a b : Nat} : addU32 a b = none ↔ 2 ^ 32 ≤ a + b := by
  unfold addU32
  split
  · next h => exact ⟨nofun, fun hle => absurd h (Nat.not_lt.2 hle)⟩
  · next h => exact ⟨fun _ => Nat.le_of_not_lt h, fun _ => rfl⟩

theorem testBit_full (pos : Nat) (hfull : bmap (pos / 8) = 0xFF) (hb : b / 8 = pos / 8) : testBit bmap b = true := by
  unfold testBit
  rw [hb, hfull]
  have hlt : b % 8 < 8 := Nat.mod_lt _ (by decide)
  have hbits : ∀ i < 8, (0xFF#8).getLsbD i = true := by decide
  exact hbits _ hlt

theorem firstLoop_done (h : total ≤ checked) : firstLoop bmap total fuel pos checked = some none := by
  cases fuel with
  | zero => rfl
  | succ fuel => rw [firstLoop, if_neg (Nat.not_lt.2 h)]

theorem skips_false (hover : pos % 8 = 0 → checked + 8 < 2 ^ 32)
    (h : pos % 8 = 0 → bmap (pos / 8) = 0xFF → total < checked + 8) : skips bmap total pos checked = some false := by
  unfold skips
  split
  · next haligned =>
    rw [addU32_of_lt (hover haligned), Option.map_some]
    have hno : ¬ (checked + 8 ≤ total ∧ bmap (pos / 8) = 0xFF) := fun ⟨hle, hfull⟩ => by
      have := h haligned hfull
      omega
    rw [decide_eq_false hno]
  · rfl

theorem skips_true (haligned : pos % 8 = 0) (hfull : bmap (pos / 8) = 0xFF) (hle : checked + 8 ≤ total)
    (h32 : total < 2 ^ 32) : skips bmap total pos checked = some true := by
  unfold skips
  rw [if_pos haligned, addU32_of_lt (by omega), Option.map_some, decide_eq_true ⟨hle, hfull⟩]

theorem firstLoop_set (hlt : checked < total) (h32 : total < 2 ^ 32) (hpos : pos < total)
    (hskip : skips bmap total pos checked = some false) (hbit : testBit bmap pos = true) :
    firstLoop bmap total (fuel + 1) pos checked = firstLoop bmap total fuel ((pos + 1) % total) (checked + 1) := by
  rw [firstLoop, if_pos hlt, hskip, hbit]
  change (addU32 pos 1 >>= fun p => addU32 checked 1 >>= fun c => firstLoop bmap total fuel (p % total) c) = _
  rw [addU32_of_lt (show pos + 1 < 2 ^ 32 by omega), addU32_of_lt (show checked + 1 < 2 ^ 32 by omega)]
  rfl

theorem firstLoop_clear (hlt : checked < total) (hskip : skips bmap total pos checked = some false)
    (hbit : testBit bmap pos = false) : firstLoop bmap total (fuel + 1) pos checked = some (some pos) := by
  rw [firstLoop, if_pos hlt, hskip, hbit]
  rfl

theorem firstLoop_skip (hpos : pos + 8 < 2 ^ 32) (hle : checked + 8 ≤ total) (h32 : total < 2 ^ 32)
    (hskip : skips bmap total pos checked = some true) :
    firstLoop bmap total (fuel + 1) pos checked = firstLoop bmap total fuel ((pos + 8) % total) (checked + 8) := by
  rw [firstLoop, if_pos (by omega), hskip, addU32_of_lt (show pos + 7 < 2 ^ 32 by omega),
    addU32_of_lt (show checked + 7 < 2 ^ 32 by omega)]
  change (addU32 (pos + 7) 1 >>= fun p => addU32 (checked + 7) 1 >>= fun c => firstLoop bmap total fuel (p % total) c) = _
  rw [addU32_of_lt (show pos + 7 + 1 < 2 ^ 32 by omega), addU32_of_lt (show checked + 7 + 1 < 2 ^ 32 by omega)]
  rfl

theorem firstLoop_panic (hlt : checked < total) (haligned : pos % 8 = 0) (hover : 2 ^ 32 ≤ checked + 8) :
    firstLoop bmap total (fuel + 1) pos checked = none := by
  have hskip : skips bmap total pos checked = none := by
    unfold skips
    rw [if_pos haligned, addU32_eq_none.2 hover]
    rfl
  rw [firstLoop, if_pos hlt, hskip]
  rfl

theorem firstLoop_panic_skip (hlt : checked < total) (hskip : skips bmap total pos checked = some true)
    (hover : 2 ^ 32 ≤ pos + 8) : firstLoop bmap total (fuel + 1) pos checked = none := by
  rw [firstLoop, if_pos hlt, hskip]
  change (addU32 pos 7 >>= fun p => addU32 checked 7 >>= fun c => addU32 p 1 >>= fun p => addU32 c 1 >>= fun c =>
    firstLoop bmap total fuel (p % total) c) = _
  cases hp : addU32 pos 7 with
  | none => rfl
  | some p =>
    obtain rfl : pos + 7 = p := by
      unfold addU32 at hp
      split at hp
      · exact Option.some.inj hp
      · cases hp
    cases hc : addU32 checked 7 with
    | none => rfl
    | some c =>
      change (addU32 (pos + 7) 1 >>= fun p => addU32 c 1 >>= fun c => firstLoop bmap total fuel (p % total) c) = _
      rw [addU32_eq_none.2 (by omega)]
      rfl

/-! ## Passing over set bits -/

/-- **A part of the bitmap in which all bits are set**: the search comes to its end, if no sum overflows and no byte is
skipped that is not in this part as a whole. -/
theorem firstLoop_pass (checked fuel : Nat) (h32 : total < 2 ^ 32) (hset : AllSet bmap pos stop) (hpos : pos ≤ stop) (hstop : stop ≤ total)
    (hend : checked + (stop - pos) ≤ total) (hfuel : total < checked + fuel)
    (hover : ∀ p, pos ≤ p → p < stop → p % 8 = 0 → checked + (p - pos) + 8 < 2 ^ 32)
    (hlast : ∀ p, pos ≤ p → p < stop → p % 8 = 0 → stop < p + 8 → bmap (p / 8) = 0xFF → total < checked + (p - pos) + 8) :
    ∃ fuel', total < checked + (stop - pos) + fuel' ∧
      firstLoop bmap total fuel (pos % total) checked = firstLoop bmap total fuel' (stop % total) (checked + (stop - pos)) := by
  induction hd : stop - pos using Nat.strong_induction_on generalizing pos checked fuel with
  | _ d ih =>
  by_cases hdone : pos = stop
  · subst hdone
    obtain rfl : d = 0 := by omega
    exact ⟨fuel, hfuel, rfl⟩
  have hlt : pos < stop := lt_of_le_of_ne hpos hdone
  obtain ⟨fuel, rfl⟩ : ∃ f, fuel = f + 1 := ⟨fuel - 1, by omega⟩
  rw [Nat.mod_eq_of_lt (show pos < total by omega)]
  -- the turn comes `k` bits further
  have hrest : ∀ k, 0 < k → pos + k ≤ stop → (∀ f, firstLoop bmap total (f + 1) pos checked =
      firstLoop bmap total f ((pos + k) % total) (checked + k)) → ∃ fuel', total < checked + d + fuel' ∧
      firstLoop bmap total (fuel + 1) pos checked = firstLoop bmap total fuel' (stop % total) (checked + d) := by
    intro k hk hle hturn
    obtain ⟨fuel', hfuel', heq⟩ := ih (stop - (pos + k)) (by omega) (checked + k) fuel (fun b hb => hset b (by omega)) hle
      (show checked + k + (stop - (pos + k)) ≤ total by omega) (show total < checked + k + fuel by omega)
      (fun p hp hp' ha => by have := hover p (by omega) hp' ha; omega)
      (fun p hp hp' ha hs hf => by have := hlast p (by omega) hp' ha hs hf; omega) rfl
    rw [show checked + k + (stop - (pos + k)) = checked + d by omega] at hfuel' heq
    exact ⟨fuel', hfuel', (hturn fuel).trans heq⟩
  by_cases hskip : pos % 8 = 0 ∧ checked + 8 ≤ total ∧ bmap (pos / 8) = 0xFF
  · obtain ⟨haligned, hle, hfull⟩ := hskip
    have hin : pos + 8 ≤ stop := by
      by_contra hout
      have := hlast pos le_rfl hlt haligned (by omega) hfull
      omega
    exact hrest 8 (by decide) hin fun f => firstLoop_skip (by omega) hle h32 (skips_true haligned hfull hle h32)
  · have hfalse : skips bmap total pos checked = some false := skips_false
      (fun ha => by have := hover pos le_rfl hlt ha; omega) fun ha hf => by
        by_contra hle
        exact hskip ⟨ha, Nat.le_of_not_lt hle, hf⟩
    exact hrest 1 (by decide) hlt fun f => firstLoop_set (by omega) h32 (by omega) hfalse (hset pos le_rfl hlt)

/-- **A clear bit** behind set ones is found. -/
theorem firstLoop_finds (checked fuel : Nat) (h32 : total < 2 ^ 32) (hset : AllSet bmap pos b) (hpos : pos ≤ b) (hb : b < total)
    (hclear : testBit bmap b = false) (hend : checked + (b - pos) < total) (hfuel : total < checked + fuel)
    (hover : ∀ p, pos ≤ p → p ≤ b → p % 8 = 0 → checked + (p - pos) + 8 < 2 ^ 32) :
    firstLoop bmap total fuel (pos % total) checked = some (some b) := by
  have hnot : ∀ p, p ≤ b → p % 8 = 0 → b < p + 8 → bmap (p / 8) ≠ 0xFF := fun p hle ha hlt hfull => by
    rw [testBit_full p hfull (by omega)] at hclear
    cases hclear
  obtain ⟨fuel', hfuel', heq⟩ := firstLoop_pass checked fuel h32 hset hpos hb.le hend.le hfuel (fun p hp hp' => hover p hp hp'.le)
    fun p _ hp' ha hs hf => absurd hf (hnot p hp'.le ha hs)
  obtain ⟨f, rfl⟩ : ∃ f, fuel' = f + 1 := ⟨fuel' - 1, by omega⟩
  rw [heq, Nat.mod_eq_of_lt hb]
  exact firstLoop_clear hend (skips_false (fun ha => hover b hpos le_rfl ha) fun ha hf =>
    absurd hf (hnot b le_rfl ha (by omega))) hclear

/-! ## The first zero -/

theorem FirstZero.of_clear (hb : b < total) (hclear : testBit bmap b = false) : FirstZero bmap total (some (some b)) :=
  ⟨some b, rfl, ⟨nofun, fun h => by rw [h b hb] at hclear; cases hclear⟩, fun b' h => by
    obtain rfl := Option.some.inj h
    exact ⟨hb, hclear⟩⟩

theorem firstZero_null : FirstZero bmap total (some none) ↔ AllSet bmap 0 total := by
  constructor
  · rintro ⟨answer, h, hnull, -⟩ b _ hb
    obtain rfl := Option.some.inj h
    exact hnull.1 rfl b hb
  · exact fun h => ⟨none, rfl, ⟨fun _ b hb => h b (Nat.zero_le b) hb, fun _ => rfl⟩, nofun⟩

theorem not_firstZero_panic : ¬ FirstZero bmap total none := fun ⟨_, h, _⟩ => nomatch h

theorem AllSet.mono {lo hi lo' hi' : Nat} (h : AllSet bmap lo hi) (hlo : lo ≤ lo') (hhi : hi' ≤ hi) : AllSet bmap lo' hi' :=
  fun b hb hb' => h b (hlo.trans hb) (hb'.trans_le hhi)

theorem AllSet.append {lo mid hi : Nat} (h : AllSet bmap lo mid) (h' : AllSet bmap mid hi) : AllSet bmap lo hi :=
  fun b hb hb' => (Nat.lt_or_ge b mid).elim (h b hb) fun hge => h' b hge hb'

theorem exists_clear {lo hi : Nat} (h : ¬ AllSet bmap lo hi) :
    ∃ b, lo ≤ b ∧ b < hi ∧ testBit bmap b = false ∧ AllSet bmap lo b := by
  have hex : ∃ b, lo ≤ b ∧ b < hi ∧ testBit bmap b = false := by
    by_contra hno
    refine h fun b hb hb' => ?_
    by_contra hbit
    exact hno ⟨b, hb, hb', by simpa using hbit⟩
  obtain ⟨hlo, hhi, hclear⟩ := Nat.find_spec hex
  refine ⟨Nat.find hex, hlo, hhi, hclear, fun b hb hlt => ?_⟩
  by_contra hbit
  exact Nat.find_min hex hlt ⟨hb, hlt.trans hhi, by simpa using hbit⟩

theorem allSet_last (hfull : bmap (total / 8) = 0xFF) : AllSet bmap (8 * (total / 8)) total := fun b hb hb' =>
  testBit_full (8 * (total / 8)) (by rw [Nat.mul_div_cancel_left _ (by decide)]; exact hfull) (by omega)

theorem panics_at_last (h32 : total < 2 ^ 32) (hbig : 2 ^ 32 ≤ total + 7) (hset : AllSet bmap 0 (8 * (total / 8))) :
    findFirstZero bmap total 0 = none := by
  obtain ⟨fuel', hfuel', heq⟩ := firstLoop_pass 0 (total + 1) h32 hset (Nat.zero_le _) (by omega) (by omega)
    (show total < 0 + (total + 1) by omega) (fun p _ hp' _ => by omega) (fun p _ hp' ha hs _ => by omega)
  rw [Nat.zero_mod, Nat.sub_zero, Nat.zero_add] at heq
  obtain ⟨f, rfl⟩ : ∃ f, fuel' = f + 1 := ⟨fuel' - 1, by omega⟩
  unfold findFirstZero
  rw [heq, Nat.mod_eq_of_lt (by omega)]
  exact firstLoop_panic (by omega) (Nat.mul_mod_right ..) (by omega)

theorem findFirstZero_clear (h32 : total < 2 ^ 32) (hhint : hint < total) (h : ¬ AllSet bmap hint total) :
    FirstZero bmap total (findFirstZero bmap total hint) ↔ ¬ Overflows bmap total hint := by
  obtain ⟨b, hle, hb, hclear, hset⟩ := exists_clear h
  by_cases hover : 2 ^ 32 ≤ total + 7 ∧ hint = 0 ∧ 8 * (total / 8) ≤ b
  · obtain ⟨hbig, rfl, hlast⟩ := hover
    have hfirst := hset.mono le_rfl hlast
    rw [panics_at_last h32 hbig hfirst]
    exact ⟨fun h => absurd h not_firstZero_panic, fun h => absurd ⟨hbig, .inr (.inl ⟨rfl, hfirst⟩)⟩ h⟩
  · have hfinds := firstLoop_finds 0 (total + 1) h32 hset hle hb hclear (by omega) (by omega)
      fun p hp hp' ha => by omega
    rw [Nat.mod_eq_of_lt hhint] at hfinds
    unfold findFirstZero
    rw [hfinds]
    refine ⟨fun _ hoverflows => ?_, fun _ => .of_clear hb hclear⟩
    obtain ⟨hbig, ⟨-, -, -, hfirst, hfull⟩ | ⟨hzero, hfirst⟩ | ⟨hall, -⟩⟩ := hoverflows
    · exact h (hfirst.append (allSet_last hfull))
    · refine hover ⟨hbig, hzero, ?_⟩
      by_contra hlt
      rw [hfirst b (Nat.zero_le b) (Nat.lt_of_not_le hlt)] at hclear
      cases hclear
    · exact h hall

theorem findFirstZero_jump (h32 : total < 2 ^ 32) (hhint : hint < total) (hj : Jumps bmap total hint) :
    FirstZero bmap total (findFirstZero bmap total hint) ↔ ¬ Overflows bmap total hint ∧
      (AllSet bmap 0 (8 - total % 8) ∨ ¬ AllSet bmap (8 - total % 8) hint) := by
  obtain ⟨hpart, hge, hle, hset, hfull⟩ := hj
  obtain ⟨fuel', hfuel', heq⟩ := firstLoop_pass 0 (total + 1) h32 hset hle (by omega) (by omega)
    (show total < 0 + (total + 1) by omega) (fun p _ hp' _ => by omega) (fun p _ hp' ha hs _ => by omega)
  rw [Nat.mod_eq_of_lt hhint, Nat.zero_add, Nat.mod_eq_of_lt (show 8 * (total / 8) < total by omega)] at heq
  obtain ⟨f, rfl⟩ : ∃ f, fuel' = f + 1 := ⟨fuel' - 1, by omega⟩
  have hskip : skips bmap total (8 * (total / 8)) (8 * (total / 8) - hint) = some true :=
    skips_true (Nat.mul_mod_right ..) (by rw [Nat.mul_div_cancel_left _ (by decide)]; exact hfull) (by omega) h32
  unfold findFirstZero
  by_cases hbig : 2 ^ 32 ≤ total + 7
  · rw [heq, firstLoop_panic_skip (by omega) hskip (by omega)]
    exact ⟨fun h => absurd h not_firstZero_panic, fun h => absurd ⟨hbig, .inl ⟨hpart, hge, hle, hset, hfull⟩⟩ h.1⟩
  rw [firstLoop_skip (by omega) (by omega) h32 hskip, show 8 * (total / 8) + 8 = total + (8 - total % 8) by omega,
    Nat.add_mod_left] at heq
  have hno : ¬ Overflows bmap total hint := fun h => hbig h.1
  by_cases hrest : AllSet bmap (8 - total % 8) hint
  · obtain ⟨f', -, heq'⟩ := firstLoop_pass (8 * (total / 8) - hint + 8) f h32 hrest (by omega) (by omega)
      (by omega) (by omega) (fun p _ hp' _ => by omega) (fun p _ hp' _ hs _ => by omega)
    rw [heq, heq', firstLoop_done (by omega), firstZero_null]
    refine ⟨fun h => ⟨hno, .inl (h.mono le_rfl (by omega))⟩, fun ⟨_, h⟩ => ?_⟩
    exact ((h.resolve_right (not_not.2 hrest)).append hrest).append (hset.append (allSet_last hfull))
  · obtain ⟨b, hb, hb', hclear, hsetb⟩ := exists_clear hrest
    rw [heq, firstLoop_finds _ f h32 hsetb hb (by omega) hclear (by omega) (by omega) (fun p _ hp' _ => by omega)]
    exact ⟨fun _ => ⟨hno, .inr hrest⟩, fun _ => .of_clear (by omega) hclear⟩

theorem findFirstZero_around (h32 : total < 2 ^ 32) (hhint : hint < total) (hset : AllSet bmap hint total)
    (hj : ¬ Jumps bmap total hint) : FirstZero bmap total (findFirstZero bmap total hint) ↔ ¬ Overflows bmap total hint := by
  by_cases hstart : 2 ^ 32 ≤ total + 7 ∧ hint = 0
  · obtain ⟨hbig, rfl⟩ := hstart
    have hfirst := hset.mono le_rfl (show 8 * (total / 8) ≤ total by omega)
    rw [panics_at_last h32 hbig hfirst]
    exact ⟨fun h => absurd h not_firstZero_panic, fun h => absurd ⟨hbig, .inr (.inl ⟨rfl, hfirst⟩)⟩ h⟩
  have hlast : ∀ p, hint ≤ p → p < total → p % 8 = 0 → total < p + 8 → bmap (p / 8) = 0xFF → total < 0 + (p - hint) + 8 :=
    fun p hp hp' ha hs hf => by
      by_contra hno
      refine hj ⟨by omega, by omega, by omega, hset.mono le_rfl (by omega), ?_⟩
      rwa [show total / 8 = p / 8 by omega]
  obtain ⟨fuel', hfuel', heq⟩ := firstLoop_pass 0 (total + 1) h32 hset hhint.le le_rfl (by omega)
    (show total < 0 + (total + 1) by omega) (fun p _ hp' ha => by omega) hlast
  rw [Nat.mod_eq_of_lt hhint, Nat.zero_add, Nat.mod_self] at heq
  unfold findFirstZero
  rw [heq]
  by_cases hover : 2 ^ 32 ≤ total + 7 ∧ 1 ≤ hint % 8 ∧ hint % 8 ≤ total % 8 ∧ AllSet bmap 0 (8 * (hint / 8))
  · obtain ⟨hbig, hone, hmod, hfirst⟩ := hover
    obtain ⟨f', hf', heq'⟩ := firstLoop_pass (total - hint) fuel' h32 hfirst (Nat.zero_le _) (by omega)
      (by omega) (by omega) (fun p _ hp' _ => by omega) (fun p _ hp' ha hs _ => by omega)
    obtain ⟨f, rfl⟩ : ∃ f, f' = f + 1 := ⟨f' - 1, by omega⟩
    rw [Nat.zero_mod, Nat.mod_eq_of_lt (show 8 * (hint / 8) < total by omega)] at heq'
    rw [heq', firstLoop_panic (by omega) (Nat.mul_mod_right ..) (by omega)]
    exact ⟨fun h => absurd h not_firstZero_panic, fun h => absurd ⟨hbig, .inr (.inr ⟨hset, hone, hmod, hfirst⟩)⟩ h⟩
  have hno : ¬ Overflows bmap total hint := by
    rintro ⟨hbig, h | ⟨h, -⟩ | ⟨-, hone, hmod, hfirst⟩⟩
    · exact hj h
    · exact hstart ⟨hbig, h⟩
    · exact hover ⟨hbig, hone, hmod, hfirst⟩
  -- where the sum would overflow, all bits before it are set
  have hsum : ∀ p, p < hint → AllSet bmap 0 p → p % 8 = 0 → total - hint + (p - 0) + 8 < 2 ^ 32 := fun p hp hsetp ha => by
    by_contra hge
    exact hover ⟨by omega, by omega, by omega, hsetp.mono le_rfl (by omega)⟩
  by_cases hrest : AllSet bmap 0 hint
  · obtain ⟨f', -, heq'⟩ := firstLoop_pass (total - hint) fuel' h32 hrest (Nat.zero_le _) hhint.le (by omega)
      (by omega) (fun p _ hp' ha => hsum p hp' (hrest.mono le_rfl hp'.le) ha) (fun p _ hp' _ hs _ => by omega)
    rw [Nat.zero_mod] at heq'
    rw [heq', firstLoop_done (by omega), firstZero_null]
    exact ⟨fun _ => hno, fun _ => hrest.append hset⟩
  · obtain ⟨b, hb, hb', hclear, hsetb⟩ := exists_clear hrest
    have hfinds := firstLoop_finds (total - hint) fuel' h32 hsetb hb (by omega) hclear (by omega) (by omega)
      fun p _ hp' ha => hsum p (by omega) (hsetb.mono le_rfl hp') ha
    rw [Nat.zero_mod] at hfinds
    rw [hfinds]
    exact ⟨fun _ => hno, fun _ => .of_clear (by omega) hclear⟩

/-- **`findFirstZero`** is complete, unless it jumps over the only clear bits, or a sum overflows. -/
theorem findFirstZero_iff (h32 : total < 2 ^ 32) (hhint : hint < total) :
    FirstZero bmap total (findFirstZero bmap total hint) ↔ ¬ Overflows bmap total hint ∧
      (Jumps bmap total hint → AllSet bmap 0 (8 - total % 8) ∨ ¬ AllSet bmap (8 - total % 8) hint) := by
  by_cases hj : Jumps bmap total hint
  · exact (findFirstZero_jump h32 hhint hj).trans (and_congr_right fun _ => ⟨fun h _ => h, fun h => h hj⟩)
  · have hiff : FirstZero bmap total (findFirstZero bmap total hint) ↔ ¬ Overflows bmap total hint := by
      by_cases hset : AllSet bmap hint total
      · exact findFirstZero_around h32 hhint hset hj
      · exact findFirstZero_clear h32 hhint hset
    exact hiff.trans ⟨fun h => ⟨h, fun h' => absurd h' hj⟩, fun h => h.1⟩

/-! ## Runs -/

theorem scanZeros_finds (fuel checked start run : Nat) {s : Nat} (hcount : 0 < count) (hrun : ZeroRun bmap total s count) (hpos : (hint + checked) % total ≤ s + run)
    (hlt : (hint + checked) % total < s + count) (hfuel : s + count ≤ (hint + checked) % total + fuel) :
    ∃ b, scanZeros bmap total count hint fuel checked start run = some b := by
  induction fuel generalizing checked start run with
  | zero => omega
  | succ fuel ih =>
    have hend := hrun.1
    rw [scanZeros]
    dsimp only
    by_cases hbit : testBit bmap ((hint + checked) % total) = true
    · -- the position is before the run
      have hbefore : (hint + checked) % total < s := by
        by_contra hin
        rw [hrun.2 _ (Nat.le_of_not_lt hin) hlt] at hbit
        cases hbit
      rw [if_pos hbit]
      have hnext : (hint + (checked + 1)) % total = (hint + checked) % total + 1 := by
        rw [← Nat.add_assoc, Mballoc.mod_succ (by omega)]
      exact ih _ _ _ (by omega) (by omega) (by omega)
    · rw [if_neg hbit]
      by_cases hcount : count ≤ run + 1
      · rw [if_pos hcount]
        exact ⟨_, rfl⟩
      · rw [if_neg hcount]
        have hinside : (hint + checked) % total + 1 < total := by omega
        have hnext : (hint + (checked + 1)) % total = (hint + checked) % total + 1 := by
          rw [← Nat.add_assoc, Mballoc.mod_succ hinside]
        rw [if_neg (show ¬ (hint + checked) % total + 1 = total by omega)]
        exact ih _ _ _ (by omega) (by omega) (by omega)

theorem scanZeros_later (n : Nat) (h : scanZeros bmap total count hint (n + fuel) checked start run = none) :
    ∃ start' run', scanZeros bmap total count hint fuel (checked + n) start' run' = none := by
  induction n generalizing checked start run with
  | zero =>
    rw [Nat.zero_add] at h
    exact ⟨start, run, h⟩
  | succ n ih =>
    rw [Nat.succ_add, scanZeros] at h
    dsimp only at h
    rw [show checked + (n + 1) = checked + 1 + n by omega]
    split at h
    · exact ih h
    · split at h
      · cases h
      · exact ih h

def OneSided (total hint checked start run : Nat) : Prop :=
  run = 0 ∨ hint ≤ start ∧ start + run = hint + checked ∧ hint + checked < total ∨ start + run + total = hint + checked

theorem scanZeros_within (hhint : hint < total) (hend : checked + fuel ≤ total) (hshort : run < count)
    (h : OneSided total hint checked start run)
    (hr : scanZeros bmap total count hint fuel checked start run = some b) :
    hint ≤ b ∨ b + count + total ≤ hint + checked + fuel := by
  induction fuel generalizing checked start run with
  | zero => cases hr
  | succ fuel ih =>
    rw [scanZeros] at hr
    dsimp only at hr
    have hpos : (hint + checked) % total = if hint + checked < total then hint + checked else hint + checked - total := by
      split
      · next hlt => exact Nat.mod_eq_of_lt hlt
      · next hge => rw [Nat.mod_eq_sub_mod (Nat.le_of_not_lt hge), Nat.mod_eq_of_lt (by omega)]
    generalize (hint + checked) % total = pos at hr hpos
    unfold OneSided at h ih
    split at hr
    · have := ih (by omega) (by omega) (.inl rfl) hr
      omega
    · split at hr
      · obtain rfl := Option.some.inj hr
        split at hpos <;> split <;> omega
      · by_cases hlast : pos + 1 = total
        · rw [if_pos hlast] at hr
          have := ih (by omega) (by omega) (.inl rfl) hr
          omega
        · rw [if_neg hlast] at hr
          have := ih (by omega) (by omega) (by split at hpos <;> split <;> omega) hr
          omega

theorem runLoop_eq (fuel n checked start run : Nat) (hle : hint + checked + fuel ≤ 2 ^ 32) (hn : n = 0 ∨ hint + checked + fuel = 2 ^ 32) :
    runLoop bmap total count hint (fuel + n) checked start run =
      match scanZeros bmap total count hint fuel checked start run with
      | some b => some (some b)
      | none => if n = 0 then some none else none := by
  induction fuel generalizing checked start run with
  | zero =>
    rw [scanZeros, Nat.zero_add]
    cases n with
    | zero => rfl
    | succ n =>
      rw [runLoop, addU32_eq_none.2 (by omega), if_neg (Nat.succ_ne_zero n)]
      rfl
  | succ fuel ih =>
    rw [Nat.succ_add, runLoop, scanZeros, addU32_of_lt (by omega), Option.bind_eq_bind, Option.bind_some]
    dsimp only
    split
    · exact ih _ _ _ (by omega) (by omega)
    · split
      · rfl
      · exact ih _ _ _ (by omega) (by omega)

theorem findContiguousZeros_eq (hfit : hint + total ≤ 2 ^ 32) :
    findContiguousZeros bmap total count hint = some (Mballoc.findContiguousZeros bmap total count hint) := by
  unfold findContiguousZeros Mballoc.findContiguousZeros
  split
  · rfl
  · split
    · rfl
    · refine (runLoop_eq total 0 0 hint 0 (by omega) (.inl rfl)).trans ?_
      cases scanZeros bmap total count hint total 0 hint 0 <;> rfl

theorem Found.le {s : Nat} (h : ZeroRun bmap total s count) : count ≤ total := by
  have := h.1
  omega

/-- **What `findContiguousZeros` returns.** -/
theorem findContiguousZeros_cases (bmap : Buf) (h32 : total < 2 ^ 32) (hhint : hint < total) (hcount : 0 < count) :
    (Found bmap total count hint ∧ ∃ b, findContiguousZeros bmap total count hint = some (some b) ∧ ZeroRun bmap total b count) ∨
    (¬ Found bmap total count hint ∧ (total < count ∨ hint + total ≤ 2 ^ 32) ∧
      findContiguousZeros bmap total count hint = some none) ∨
    (¬ Found bmap total count hint ∧ count ≤ total ∧ 2 ^ 32 < hint + total ∧
      findContiguousZeros bmap total count hint = none) := by
  unfold findContiguousZeros
  rw [if_neg (by omega)]
  by_cases hlarge : total < count
  · rw [if_pos hlarge]
    exact .inr (.inl ⟨fun ⟨s, hs, _⟩ => by have := Found.le hs; omega, .inl hlarge, rfl⟩)
  rw [if_neg hlarge]
  -- the turns before the overflow
  obtain ⟨fuel, n, hsum, hfuel⟩ : ∃ fuel n, fuel + n = total ∧ fuel = min total (2 ^ 32 - hint) :=
    ⟨min total (2 ^ 32 - hint), total - min total (2 ^ 32 - hint), by omega, rfl⟩
  rw [← hsum, runLoop_eq fuel n 0 hint 0 (by omega) (by omega), hsum]
  cases hscan : scanZeros bmap total count hint fuel 0 hint 0 with
  | some b =>
    have hzeros := Mballoc.scanZeros_spec (by omega) ⟨hcount, .inr rfl, .inl rfl⟩ hscan
    have hside := scanZeros_within hhint (by omega) hcount (.inl rfl) hscan
    exact .inl ⟨⟨b, hzeros, by omega⟩, b, rfl, hzeros⟩
  | none =>
    have hnot : ¬ Found bmap total count hint := by
      rintro ⟨s, hrun, hside⟩
      have hend := hrun.1
      obtain hle | ⟨hle, hbound⟩ := hside
      · have hstart : (hint + 0) % total = hint := Nat.mod_eq_of_lt hhint
        obtain ⟨b, hb⟩ : ∃ b, scanZeros bmap total count hint fuel 0 hint 0 = some b :=
          scanZeros_finds _ _ _ _ hcount hrun (by omega) (by omega) (by omega)
        rw [hscan] at hb
        cases hb
      · have hzero : (hint + (total - hint)) % total = 0 := by
          rw [Nat.add_sub_cancel' hhint.le, Nat.mod_self]
        rw [← Nat.add_sub_cancel' (show total - hint ≤ fuel by omega)] at hscan
        obtain ⟨start', run', hnone⟩ := scanZeros_later _ hscan
        rw [Nat.zero_add] at hnone
        obtain ⟨b, hb⟩ : ∃ b, scanZeros bmap total count hint (fuel - (total - hint)) (total - hint) start' run' = some b :=
          scanZeros_finds _ _ _ _ hcount hrun (by omega) (by omega) (by omega)
        rw [hnone] at hb
        cases hb
    dsimp only
    by_cases hn : n = 0
    · rw [if_pos hn]
      exact .inr (.inl ⟨hnot, .inr (by omega), rfl⟩)
    · rw [if_neg hn]
      exact .inr (.inr ⟨hnot, by omega, by omega, rfl⟩)

/-- **`findContiguousZeros`** is complete, unless all runs cross the hint, or the sum overflows before one is found. -/
theorem findContiguousZeros_iff (h32 : total < 2 ^ 32) (hhint : hint < total) (hcount : 0 < count) :
    FreeRun bmap total count (findContiguousZeros bmap total count hint) ↔
      ((∃ s, ZeroRun bmap total s count) → Found bmap total count hint) ∧
        (count ≤ total → 2 ^ 32 < hint + total → Found bmap total count hint) := by
  obtain ⟨hfound, b, heq, hrun⟩ | ⟨hnot, hno, heq⟩ | ⟨hnot, hle, hlt, heq⟩ :=
    findContiguousZeros_cases bmap h32 hhint hcount
  · rw [heq]
    refine ⟨fun _ => ⟨fun _ => hfound, fun _ _ => hfound⟩, fun _ => ⟨some b, rfl, ⟨nofun, fun h => absurd ⟨b, hrun⟩ h⟩, ?_⟩⟩
    intro s hs
    obtain rfl := Option.some.inj hs
    exact hrun
  · rw [heq]
    constructor
    · rintro ⟨answer, h, hnull, -⟩
      obtain rfl := Option.some.inj h
      exact ⟨fun h => absurd h (hnull.1 rfl), fun hle hlt => by omega⟩
    · exact fun h => ⟨none, rfl, ⟨fun _ hrun => hnot (h.1 hrun), fun _ => rfl⟩, nofun⟩
  · rw [heq]
    exact ⟨fun ⟨_, h, _⟩ => (nomatch h), fun h => absurd (h.2 hle hlt) hnot⟩

/-! ## Allocating -/

theorem halves_ge {m c tryCount : Nat} (h : c ∈ halves m fuel tryCount) : m ≤ c := by
  induction fuel generalizing tryCount with
  | zero => cases h
  | succ fuel ih =>
    rw [halves] at h
    split at h
    · next hle =>
      rcases List.mem_cons.1 h with rfl | h
      · exact hle
      · exact ih h
    · cases h

theorem tried_ge {req : AllocRequest} (hmin : req.minCount ≤ req.count) {c : Nat} (h : c ∈ tried req) : req.minCount ≤ c := by
  unfold tried at h
  rcases List.mem_cons.1 h with rfl | h
  · exact hmin
  split at h
  · rcases List.mem_append.1 h with h | h
    · exact halves_ge h
    · split at h
      · exact (List.mem_singleton.1 h).ge
      · cases h
  · cases h

theorem minCount_tried {req : AllocRequest} (hpos : 0 < req.minCount) (hmin : req.minCount ≤ req.count) :
    req.minCount ∈ tried req := by
  unfold tried
  by_cases hlt : req.minCount < req.count
  · rw [if_pos hlt, if_pos hpos]
    exact List.mem_cons_of_mem _ (List.mem_append_right _ (List.mem_singleton_self _))
  · rw [show req.minCount = req.count by omega]
    exact List.mem_cons_self

theorem Found.shorter {m : Nat} (h : Found bmap total count hint) (hle : m ≤ count) : Found bmap total m hint := by
  obtain ⟨s, ⟨hend, hzeros⟩, hside⟩ := h
  exact ⟨s, ⟨by omega, fun b hb hb' => hzeros b hb (by omega)⟩, by omega⟩

/-- Where no sum overflows, some count is found if one of them can be. -/
theorem findAny_fits (bmap : Buf) (h32 : total < 2 ^ 32) (hhint : hint < total) (hfit : hint + total ≤ 2 ^ 32) :
    ∀ {counts : List Nat}, (∀ c ∈ counts, 0 < c) →
      ∃ r, findAny bmap total hint counts = some r ∧ (r = none ↔ ∀ c ∈ counts, ¬ Found bmap total c hint)
  | [], _ => ⟨none, rfl, ⟨fun _ _ h => (nomatch h), fun _ => rfl⟩⟩
  | c :: counts, hpos => by
    rw [findAny]
    obtain ⟨hfound, b, heq, -⟩ | ⟨hnot, -, heq⟩ | ⟨-, -, hlt, -⟩ :=
      findContiguousZeros_cases bmap h32 hhint (hpos c List.mem_cons_self)
    · rw [heq]
      exact ⟨some (b, c), rfl, nofun, fun h => absurd hfound (h c List.mem_cons_self)⟩
    · rw [heq]
      obtain ⟨r, hr, hnone⟩ := findAny_fits bmap h32 hhint hfit fun c hc => hpos c (List.mem_cons_of_mem _ hc)
      exact ⟨r, hr, hnone.trans ⟨fun h => List.forall_mem_cons.2 ⟨hnot, h⟩, fun h => (List.forall_mem_cons.1 h).2⟩⟩
    · omega

theorem findAny_overflows (bmap : Buf) (h32 : total < 2 ^ 32) (hhint : hint < total) (hover : 2 ^ 32 < hint + total) :
    ∀ {counts : List Nat}, (∀ c ∈ counts, 0 < c) →
      (counts.find? (fun c => decide (c ≤ total)) = none ∧ findAny bmap total hint counts = some none) ∨
      ∃ c, counts.find? (fun c => decide (c ≤ total)) = some c ∧
        (Found bmap total c hint ∧ (∃ r, findAny bmap total hint counts = some (some r)) ∨
          ¬ Found bmap total c hint ∧ findAny bmap total hint counts = none)
  | [], _ => .inl ⟨rfl, rfl⟩
  | c :: counts, hpos => by
    rw [findAny, List.find?_cons]
    obtain ⟨hfound, b, heq, hrun⟩ | ⟨hnot, hlarge | hfit, heq⟩ | ⟨hnot, hle, -, heq⟩ :=
      findContiguousZeros_cases bmap h32 hhint (hpos c List.mem_cons_self)
    · rw [heq, decide_eq_true (Found.le hrun)]
      exact .inr ⟨c, rfl, .inl ⟨hfound, _, rfl⟩⟩
    · rw [heq, decide_eq_false (Nat.not_le.2 hlarge)]
      exact findAny_overflows bmap h32 hhint hover fun c hc => hpos c (List.mem_cons_of_mem _ hc)
    · omega
    · rw [heq, decide_eq_true hle]
      exact .inr ⟨c, rfl, .inr ⟨hnot, rfl⟩⟩

theorem allocates_iff {req : AllocRequest} {r : Option (Option (Nat × Nat))}
    {mark : Nat × Nat → Nat × Nat × Buf} : Allocates bmap total req (r.map fun r => r.map mark) ↔
      ∃ answer, r = some answer ∧ (answer = none ↔ ¬ ∃ s, ZeroRun bmap total s req.minCount) := by
  constructor
  · rintro ⟨answer, h, hnone⟩
    obtain ⟨answer', rfl, rfl⟩ := Option.map_eq_some_iff.1 h
    exact ⟨answer', rfl, Option.map_eq_none_iff.symm.trans hnone⟩
  · rintro ⟨answer, rfl, hnone⟩
    exact ⟨answer.map mark, rfl, Option.map_eq_none_iff.trans hnone⟩

/-- **`allocFromBitmap`** is complete, unless all runs of the least length cross the hint, or a sum overflows before one is
found. -/
theorem allocFromBitmap_iff {req : AllocRequest} {bg : BlockGroupState} (htotal : 0 < total) (h32 : total < 2 ^ 32)
    (hpos : 0 < req.minCount) (hmin : req.minCount ≤ req.count) :
    Allocates bmap total req (allocFromBitmap bmap total req bg) ↔
      (hintOf total req bg + total ≤ 2 ^ 32 → (∃ s, ZeroRun bmap total s req.minCount) →
        Found bmap total req.minCount (hintOf total req bg)) ∧
      (2 ^ 32 < hintOf total req bg + total → ∀ c, (tried req).find? (fun c => decide (c ≤ total)) = some c →
        Found bmap total c (hintOf total req bg)) := by
  have hhint : hintOf total req bg < total := by
    unfold hintOf
    split
    · next h => exact h.2
    · exact htotal
  have hall : ∀ c ∈ tried req, 0 < c := fun c hc => hpos.trans_le (tried_ge hmin hc)
  unfold allocFromBitmap
  rw [allocates_iff]
  by_cases hfit : hintOf total req bg + total ≤ 2 ^ 32
  · obtain ⟨r, hr, hnone⟩ := findAny_fits bmap h32 hhint hfit hall
    have hleast : (∀ c ∈ tried req, ¬ Found bmap total c (hintOf total req bg)) ↔
        ¬ Found bmap total req.minCount (hintOf total req bg) :=
      ⟨fun h => h _ (minCount_tried hpos hmin), fun h c hc hfound => h (hfound.shorter (tried_ge hmin hc))⟩
    rw [hr]
    constructor
    · rintro ⟨answer, h, hiff⟩
      obtain rfl := Option.some.inj h
      refine ⟨fun _ hrun => ?_, fun hlt => absurd hfit (Nat.not_le.2 hlt)⟩
      by_contra hno
      exact hiff.1 (hnone.2 (hleast.2 hno)) hrun
    · rintro ⟨h, -⟩
      refine ⟨r, rfl, hnone.trans (hleast.trans ⟨fun hno hrun => hno (h hfit hrun), fun hno hfound => hno ?_⟩)⟩
      obtain ⟨s, hs, -⟩ := hfound
      exact ⟨s, hs⟩
  · obtain ⟨hlarge, hr⟩ | ⟨c, hc, ⟨hfound, r, hr⟩ | ⟨hnot, hr⟩⟩ :=
      findAny_overflows bmap h32 hhint (Nat.lt_of_not_le hfit) hall
    · rw [hr]
      refine ⟨fun _ => ⟨fun h => absurd h hfit, fun _ c hc => ?_⟩, fun _ => ⟨none, rfl, fun _ ⟨s, hs⟩ => ?_, fun _ => rfl⟩⟩
      · rw [hlarge] at hc
        cases hc
      · have := List.find?_eq_none.1 hlarge _ (minCount_tried hpos hmin)
        exact this (by simpa using Found.le hs)
    · rw [hr, hc]
      refine ⟨fun _ => ⟨fun h => absurd h hfit, fun _ c' hc' => ?_⟩, fun _ => ⟨some r, rfl, nofun, fun hno => ?_⟩⟩
      · obtain rfl := Option.some.inj hc'
        exact hfound
      · obtain ⟨s, hs, -⟩ := hfound.shorter (tried_ge hmin (List.mem_of_find?_eq_some hc))
        exact absurd ⟨s, hs⟩ hno
    · rw [hr, hc]
      exact ⟨fun ⟨_, h, _⟩ => (nomatch h), fun h => absurd (h.2 (Nat.lt_of_not_le hfit) c rfl) hnot⟩

/-- **Bitmap search.** `findFirstZero` is complete unless it jumps over the only clear bits, `findContiguousZeros` and
`allocFromBitmap` are unless all runs cross the hint; in bitmaps of more than `2 ^ 31` bits a sum may overflow. -/
theorem searches_complete_iff (htotal : 0 < total) (h32 : total < 2 ^ 32) (hhint : hint < total) :
    (FirstZero bmap total (findFirstZero bmap total hint) ↔ ¬ Overflows bmap total hint ∧
      (Jumps bmap total hint → AllSet bmap 0 (8 - total % 8) ∨ ¬ AllSet bmap (8 - total % 8) hint)) ∧
    (∀ count, 0 < count → (FreeRun bmap total count (findContiguousZeros bmap total count hint) ↔
      ((∃ s, ZeroRun bmap total s count) → Found bmap total count hint) ∧
        (count ≤ total → 2 ^ 32 < hint + total → Found bmap total count hint))) ∧
    (∀ req bg, 0 < req.minCount → req.minCount ≤ req.count →
      (Allocates bmap total req (allocFromBitmap bmap total req bg) ↔
        (hintOf total req bg + total ≤ 2 ^ 32 → (∃ s, ZeroRun bmap total s req.minCount) →
          Found bmap total req.minCount (hintOf total req bg)) ∧
        (2 ^ 32 < hintOf total req bg + total → ∀ c, (tried req).find? (fun c => decide (c ≤ total)) = some c →
          Found bmap total c (hintOf total req bg)))) :=
  ⟨findFirstZero_iff h32 hhint, fun _ hcount => findContiguousZeros_iff h32 hhint hcount,
    fun _ _ hpos hmin => allocFromBitmap_iff htotal h32 hpos hmin⟩

/-! ## Missed bits -/

/-- Eleven bits in two bytes; only the first one is clear. -/
def tailBitmap : Buf := fun i => if i = 0 then 0xFE else 0xFF

/-- Four clear bits, and the hint behind the second one. -/
theorem searches_complete_iff_small :
    ¬ FreeRun (fun _ => 0) 4 4 (findContiguousZeros (fun _ => 0) 4 4 2) := by
  rw [((searches_complete_iff (by decide) (by decide) (by decide)).2.1 4 (by decide))]
  rintro ⟨h, -⟩
  obtain ⟨s, ⟨hend, -⟩, hside⟩ := h ⟨0, by decide, fun b _ _ => by simp [testBit]⟩
  omega

/-- A free bit, a free run and free blocks that are not found. -/
theorem searches_miss :
    (findFirstZero tailBitmap 11 8 = some none ∧ testBit tailBitmap 0 = false ∧
      ¬ FirstZero tailBitmap 11 (findFirstZero tailBitmap 11 8)) ∧
    (findContiguousZeros (fun _ => 0) 4 4 2 = some none ∧
      ¬ FreeRun (fun _ => 0) 4 4 (findContiguousZeros (fun _ => 0) 4 4 2)) ∧
    ¬ Allocates (fun _ => 0) 4 ⟨4, 2, 4⟩ (allocFromBitmap (fun _ => 0) 4 ⟨4, 2, 4⟩ ⟨0, 4, 0⟩) := by
  have hfirst : findFirstZero tailBitmap 11 8 = some none := by decide
  have hclear : testBit tailBitmap 0 = false := by decide
  have hrun : findContiguousZeros (fun _ => 0) 4 4 2 = some none := by decide
  have halloc : allocFromBitmap (fun _ => 0) 4 ⟨4, 2, 4⟩ ⟨0, 4, 0⟩ = some none := by
    unfold allocFromBitmap
    rw [show findAny (fun _ => 0) 4 (hintOf 4 ⟨4, 2, 4⟩ ⟨0, 4, 0⟩) (tried ⟨4, 2, 4⟩) = some none by decide]
    rfl
  have hzeros : ∃ s, ZeroRun (fun _ => 0) 4 s 4 := ⟨0, by decide, fun b _ _ => by simp [testBit]⟩
  refine ⟨⟨hfirst, hclear, ?_⟩, ⟨hrun, ?_⟩, ?_⟩
  · rw [hfirst, firstZero_null]
    intro h
    rw [h 0 le_rfl (by decide)] at hclear
    cases hclear
  · rw [hrun]
    rintro ⟨answer, h, hnull, -⟩
    obtain rfl := Option.some.inj h
    exact hnull.1 rfl hzeros
  · rw [halloc]
    rintro ⟨answer, h, hnull⟩
    obtain rfl := Option.some.inj h
    exact hnull.1 rfl hzeros

end Zigix.BitmapSearch
