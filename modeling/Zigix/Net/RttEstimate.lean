import Zigix.Net.Tcp
import Mathlib.Algebra.Order.Field.Rat
import Mathlib.Algebra.Order.Group.MinMax
import Mathlib.Tactic.Linarith
import Mathlib.Tactic.NormNum
import Mathlib.Tactic.Ring

/-!
# The retransmission timer (`updateRto` in `kernel/net/tcp.zig`)

`srtt` holds eight times SRTT, `rttvar` four times RTTVAR, but a deviation goes into `rttvar` with a quarter of its weight.

* `lag` : the deviations that are missing from `rttvar`, as the filter would have them;
* `updateRto_spec` : one sample in integers; `Follows` : the error of one state, kept by every sample;
* `rtt_estimate` : nothing overflows, and the error is the missing deviations, but for the rounding.
-/

namespace Zigix.Tcp

/-! ## RFC 6298 -/

/-- The smoothed round-trip time and its variance, in ticks. -/
structure Estimate where
  srtt : ℚ
  rttvar : ℚ

def Estimate.first (r : Nat) : Estimate := ⟨r, r / 2⟩

/-- `alpha = 1/8`, `beta = 1/4`. -/
def Estimate.next (e : Estimate) (r : Nat) : Estimate :=
  ⟨7 / 8 * e.srtt + 1 / 8 * r, 3 / 4 * e.rttvar + 1 / 4 * |e.srtt - r|⟩

def estimate (r : Nat) (rs : List Nat) : Estimate := rs.foldl Estimate.next (.first r)

/-- The timeout, clamped. -/
def Estimate.rto (e : Estimate) : ℚ := min 6000 (max 20 (e.srtt + 4 * e.rttvar))

/-- Three quarters of every deviation, filtered as RTTVAR is. -/
def lagFrom : Estimate → ℚ → List Nat → ℚ
  | _, l, [] => l
  | e, l, r :: rs => lagFrom (e.next r) (3 / 4 * l + 3 / 4 * |e.srtt - r|) rs

def lag (r : Nat) (rs : List Nat) : ℚ := lagFrom (.first r) 0 rs

structure Tracks (bound : ℚ) (c : TcpConnection) (e : Estimate) : Prop where
  srtt : |(c.srtt : ℚ) - 8 * e.srtt| ≤ bound
  rttvar : |(c.rttvar : ℚ) - 4 * e.rttvar| ≤ bound
  rto : |(c.rto : ℚ) - e.rto| ≤ bound

def updates (c : TcpConnection) (rs : List Nat) : Option TcpConnection := rs.foldlM updateRto c

/-- No further sample of a tick or more is taken for a first one, because `srtt` is 0. -/
def Unbroken (c : TcpConnection) : List Nat → Prop
  | [] => True
  | r :: rs => (c.srtt = 0 → r = 0) ∧ ∀ c', updateRto c r = some c' → Unbroken c' rs

/-! ## One sample -/

/-- The fields after samples of at most `2 ^ 24` ticks. -/
structure Sampled (srtt rttvar : Int) : Prop where
  srtt_nonneg : 0 ≤ srtt
  srtt_le : srtt ≤ 2 ^ 27
  rttvar_nonneg : 0 ≤ rttvar
  rttvar_le : rttvar ≤ 2 ^ 26
  rttvar_srtt : rttvar ≤ srtt + 4

theorem toI32_of_lt {a : Int} (h : -2 ^ 31 ≤ a ∧ a < 2 ^ 31) : toI32 a = some a := if_pos h

structure AfterSample (c c' : TcpConnection) (r : Nat) : Prop where
  first : c.srtt = 0 → c'.srtt = 8 * r ∧ c'.rttvar = 2 * r
  srtt : c.srtt ≠ 0 → c'.srtt = (7 * c.srtt + 8 * r) / 8
  rttvar : c.srtt ≠ 0 → c'.rttvar = (3 * c.rttvar + |c.srtt / 8 - r|) / 4
  rto : c'.rto = clampRto (max 1 (c'.srtt / 8 + c'.rttvar)).toNat

theorem updateRto_spec {c : TcpConnection} {r : Nat} (h : Sampled c.srtt c.rttvar) (hr : r ≤ 2 ^ 24) :
    ∃ c', updateRto c r = some c' ∧ Sampled c'.srtt c'.rttvar ∧ AfterSample c c' r := by
  obtain ⟨hs, hs', hv, hv', hvs⟩ := h
  unfold updateRto
  rw [toI32_of_lt (show -2 ^ 31 ≤ (r : Int) ∧ (r : Int) < 2 ^ 31 by omega), Option.bind_eq_bind, Option.bind_some]
  by_cases hzero : c.srtt = 0
  · have hsample : takeSample c r = some ((r : Int) * 8, (r : Int) * 2) := by
      unfold takeSample firstSample
      rw [if_pos hzero, toI32_of_lt (show -2 ^ 31 ≤ (r : Int) * 8 ∧ (r : Int) * 8 < 2 ^ 31 by omega),
        toI32_of_lt (show -2 ^ 31 ≤ (r : Int) * 2 ∧ (r : Int) * 2 < 2 ^ 31 by omega)]
      rfl
    rw [hsample, Option.bind_eq_bind, Option.bind_some]
    dsimp only
    rw [Int.tdiv_eq_ediv_of_nonneg (show 0 ≤ (r : Int) * 8 by omega),
      toI32_of_lt (show -2 ^ 31 ≤ (r : Int) * 8 / 8 + r * 2 ∧ (r : Int) * 8 / 8 + r * 2 < 2 ^ 31 by omega)]
    exact ⟨_, rfl, ⟨by dsimp only; omega, by dsimp only; omega, by dsimp only; omega, by dsimp only; omega,
      by dsimp only; omega⟩, fun _ => ⟨mul_comm _ _, mul_comm _ _⟩, fun hne => absurd hzero hne, fun hne => absurd hzero hne, rfl⟩
  · -- the deviation
    obtain ⟨d, hd⟩ : ∃ d, d = |c.srtt / 8 - r| := ⟨_, rfl⟩
    have hdev : (if c.srtt.tdiv 8 > r then c.srtt.tdiv 8 - (r : Int) else r - c.srtt.tdiv 8) = d := by
      rw [hd, Int.tdiv_eq_ediv_of_nonneg hs]
      split
      · next hlt => exact (abs_of_pos (by omega)).symm
      · next hle =>
        rw [abs_of_nonpos (by omega)]
        omega
    have hd₀ : 0 ≤ d := hd ▸ abs_nonneg _
    have hdcases : d = c.srtt / 8 - r ∨ d = r - c.srtt / 8 := by
      rcases abs_choice (c.srtt / 8 - r) with h | h
      · exact .inl (hd.trans h)
      · exact .inr (by rw [hd, h]; omega)
    have hsample : takeSample c r = some ((7 * c.srtt + r * 8) / 8, (3 * c.rttvar + d) / 4) := by
      unfold takeSample nextSample
      rw [if_neg hzero, hdev, toI32_of_lt (show -2 ^ 31 ≤ d ∧ d < 2 ^ 31 by omega), Option.bind_eq_bind, Option.bind_some,
        toI32_of_lt (show -2 ^ 31 ≤ 3 * c.rttvar ∧ 3 * c.rttvar < 2 ^ 31 by omega), Option.bind_some,
        toI32_of_lt (show -2 ^ 31 ≤ 3 * c.rttvar + d ∧ 3 * c.rttvar + d < 2 ^ 31 by omega), Option.bind_some,
        toI32_of_lt (show -2 ^ 31 ≤ 7 * c.srtt ∧ 7 * c.srtt < 2 ^ 31 by omega), Option.bind_some,
        toI32_of_lt (show -2 ^ 31 ≤ (r : Int) * 8 ∧ (r : Int) * 8 < 2 ^ 31 by omega), Option.bind_some,
        toI32_of_lt (show -2 ^ 31 ≤ 7 * c.srtt + r * 8 ∧ 7 * c.srtt + r * 8 < 2 ^ 31 by omega), Option.bind_some,
        Int.tdiv_eq_ediv_of_nonneg (by omega), Int.tdiv_eq_ediv_of_nonneg (by omega)]
      rfl
    rw [hsample, Option.bind_eq_bind, Option.bind_some]
    dsimp only
    rw [Int.tdiv_eq_ediv_of_nonneg (by omega), toI32_of_lt (by constructor <;> omega)]
    refine ⟨_, rfl, ⟨by dsimp only; omega, by dsimp only; omega, by dsimp only; omega, by dsimp only; omega,
      by dsimp only; omega⟩, fun h => absurd h hzero, fun _ => ?_, fun _ => ?_, rfl⟩
    · show (7 * c.srtt + r * 8) / 8 = _
      rw [mul_comm (r : Int) 8]
    · show (3 * c.rttvar + d) / 4 = _
      rw [hd]

theorem sampled_fresh {c : TcpConnection} (hs : c.srtt = 0) (hv : c.rttvar = 0) : Sampled c.srtt c.rttvar :=
  ⟨by omega, by omega, by omega, by omega, by omega⟩

/-! ## The error -/

/-- The error of `srtt`, and that of `rttvar` when the deviations in `l` are missing from it. -/
structure Follows (c : TcpConnection) (e : Estimate) (l : ℚ) : Prop where
  srtt : |(c.srtt : ℚ) - 8 * e.srtt| ≤ 7
  rttvar : |(c.rttvar : ℚ) - (4 * e.rttvar - l)| ≤ 13
  lag_nonneg : 0 ≤ l
  lag_le : l ≤ 4 * e.rttvar

variable {c c' : TcpConnection} {e : Estimate} {l : ℚ} {r : Nat}

theorem Follows.first (h : AfterSample c c' r) (hzero : c.srtt = 0) : Follows c' (.first r) 0 := by
  obtain ⟨hs, hv⟩ := h.first hzero
  unfold Estimate.first
  refine ⟨?_, ?_, le_rfl, ?_⟩
  · rw [hs, abs_le]
    push_cast
    constructor <;> linarith
  · rw [hv, abs_le]
    push_cast
    constructor <;> linarith
  · have : (0 : ℚ) ≤ r := Nat.cast_nonneg r
    dsimp only
    linarith

theorem div_bounds (a : Int) {n : Int} (hn : 0 < n) : ((a / n : Int) : ℚ) * n ≤ a ∧ (a : ℚ) ≤ (a / n : Int) * n + (n - 1) := by
  have hle : a / n * n ≤ a := Int.ediv_mul_le a hn.ne'
  have hge : a ≤ a / n * n + (n - 1) := by
    have := Int.lt_ediv_add_one_mul_self a hn
    linarith
  exact ⟨by exact_mod_cast hle, by exact_mod_cast hge⟩

theorem srtt_next (e : Estimate) (r : Nat) : 8 * (e.next r).srtt = 7 * e.srtt + r := by
  unfold Estimate.next
  dsimp only
  ring

theorem rttvar_next (e : Estimate) (r : Nat) : 4 * (e.next r).rttvar = 3 * e.rttvar + |e.srtt - r| := by
  unfold Estimate.next
  dsimp only
  ring

theorem Follows.next (hrange : Sampled c.srtt c.rttvar) (h : Follows c e l) (hafter : AfterSample c c' r) (hunbroken : c.srtt = 0 → r = 0) :
    Follows c' (e.next r) (3 / 4 * l + 3 / 4 * |e.srtt - r|) := by
  obtain ⟨hs, hv, hl, hle⟩ := h
  obtain ⟨hs₁, hs₂⟩ := abs_le.1 hs
  obtain ⟨hv₁, hv₂⟩ := abs_le.1 hv
  have hnext := rttvar_next e r
  obtain ⟨dev, hdev⟩ : ∃ dev, dev = |e.srtt - r| := ⟨_, rfl⟩
  have hpos : 0 ≤ dev := hdev ▸ abs_nonneg _
  rw [← hdev] at hnext ⊢
  have hlag : 0 ≤ 3 / 4 * l + 3 / 4 * dev := by linarith
  have hle' : 3 / 4 * l + 3 / 4 * dev ≤ 4 * (e.next r).rttvar := by linarith
  by_cases hzero : c.srtt = 0
  · -- the filter begins again, with a sample of 0 ticks
    obtain rfl := hunbroken hzero
    obtain ⟨hs', hv'⟩ := hafter.first hzero
    have hvar : (c.rttvar : ℚ) ≤ 4 := by
      have := hrange.rttvar_srtt
      rw [hzero] at this
      exact_mod_cast this
    rw [hzero, Int.cast_zero] at hs₁ hs₂
    rw [Nat.cast_zero, mul_zero] at hs' hv'
    have hsmall : dev ≤ 7 / 8 := by
      rw [hdev, Nat.cast_zero, sub_zero, abs_le]
      constructor <;> linarith
    refine ⟨?_, ?_, hlag, hle'⟩
    · rw [hs', srtt_next, Int.cast_zero, Nat.cast_zero, abs_le]
      constructor <;> linarith
    · rw [hv', hnext, Int.cast_zero, abs_le]
      constructor <;> linarith
  · have hs' := hafter.srtt hzero
    have hv' := hafter.rttvar hzero
    obtain ⟨hsum, hsum'⟩ := div_bounds (7 * c.srtt + 8 * r) (show (0 : Int) < 8 by decide)
    obtain ⟨hvar, hvar'⟩ := div_bounds (3 * c.rttvar + |c.srtt / 8 - r|) (show (0 : Int) < 4 by decide)
    obtain ⟨hmean, hmean'⟩ := div_bounds c.srtt (show (0 : Int) < 8 by decide)
    rw [← hs'] at hsum hsum'
    rw [← hv'] at hvar hvar'
    push_cast at hsum hsum' hvar hvar' hmean hmean'
    -- the deviation in whole ticks is off by less than two
    have hticks : |(|((c.srtt / 8 : Int) : ℚ) - r| - dev)| ≤ 7 / 4 := by
      rw [hdev]
      refine (abs_abs_sub_abs_le_abs_sub _ _).trans ?_
      rw [abs_le]
      constructor <;> linarith
    obtain ⟨hticks₁, hticks₂⟩ := abs_le.1 hticks
    refine ⟨?_, ?_, hlag, hle'⟩
    · rw [srtt_next, abs_le]
      constructor <;> linarith
    · rw [hnext, abs_le]
      constructor <;> linarith

theorem clampRto_eq (n : Int) : (clampRto (max 1 n).toNat : Int) = min 6000 (max 20 n) := by
  unfold clampRto minRto maxRto
  dsimp only
  split <;> split <;> omega

/-- **The error of one state** is what is missing from `rttvar`, but for the rounding. -/
theorem Follows.tracks_iff (h : Follows c e l) (hrto : c.rto = clampRto (max 1 (c.srtt / 8 + c.rttvar)).toNat) (bound : ℚ) :
    (l ≤ bound → Tracks (bound + 16) c e) ∧ (Tracks bound c e → l ≤ bound + 16) := by
  obtain ⟨hs, hv, hl, hle⟩ := h
  obtain ⟨hs₁, hs₂⟩ := abs_le.1 hs
  obtain ⟨hv₁, hv₂⟩ := abs_le.1 hv
  refine ⟨fun hbound => ⟨?_, ?_, ?_⟩, fun htracks => ?_⟩
  · exact hs.trans (by linarith)
  · rw [abs_le]
    constructor <;> linarith
  · have hcast : (c.rto : ℚ) = min 6000 (max 20 (((c.srtt / 8 : Int) : ℚ) + c.rttvar)) := by
      have := congrArg (fun n : Int => (n : ℚ)) (clampRto_eq (c.srtt / 8 + c.rttvar))
      push_cast at this
      rw [hrto]
      exact this
    obtain ⟨hmean, hmean'⟩ := div_bounds c.srtt (show (0 : Int) < 8 by decide)
    push_cast at hmean hmean'
    rw [hcast]
    unfold Estimate.rto
    refine (abs_min_sub_min_le_max _ _ _ _).trans ?_
    rw [sub_self, abs_zero]
    refine max_le (by linarith) ((abs_max_sub_max_le_max _ _ _ _).trans ?_)
    rw [sub_self, abs_zero]
    refine max_le (by linarith) (abs_le.2 ?_)
    constructor <;> linarith
  · obtain ⟨hv₃, -⟩ := abs_le.1 htracks.rttvar
    linarith

/-! ## All samples -/

theorem follows_updates (hrange : Sampled c.srtt c.rttvar) (h : Follows c e l)
    (hrto : c.rto = clampRto (max 1 (c.srtt / 8 + c.rttvar)).toNat) {rs : List Nat} (hrs : ∀ x ∈ rs, x ≤ 2 ^ 24)
    (hunbroken : Unbroken c rs) : ∃ c', updates c rs = some c' ∧ Follows c' (rs.foldl Estimate.next e) (lagFrom e l rs) ∧
      c'.rto = clampRto (max 1 (c'.srtt / 8 + c'.rttvar)).toNat := by
  induction rs generalizing c e l with
  | nil => exact ⟨c, rfl, h, hrto⟩
  | cons r rs ih =>
    obtain ⟨hfirst, hrest⟩ := hunbroken
    obtain ⟨c₁, hupdate, hrange₁, hafter⟩ := updateRto_spec hrange (hrs r List.mem_cons_self)
    obtain ⟨c', hc', hfollows⟩ := ih hrange₁ (h.next hrange hafter hfirst) hafter.rto
      (fun x hx => hrs x (List.mem_cons_of_mem _ hx)) (hrest c₁ hupdate)
    refine ⟨c', ?_, hfollows⟩
    unfold updates
    rw [List.foldlM_cons, hupdate]
    exact hc'

theorem updates_returns (hrange : Sampled c.srtt c.rttvar) {rs : List Nat} (hrs : ∀ x ∈ rs, x ≤ 2 ^ 24) :
    ∃ c', updates c rs = some c' ∧ Sampled c'.srtt c'.rttvar := by
  induction rs generalizing c with
  | nil => exact ⟨c, rfl, hrange⟩
  | cons r rs ih =>
    obtain ⟨c₁, hupdate, hrange₁, -⟩ := updateRto_spec hrange (hrs r List.mem_cons_self)
    obtain ⟨c', hc', hrange'⟩ := ih hrange₁ fun x hx => hrs x (List.mem_cons_of_mem _ hx)
    refine ⟨c', ?_, hrange'⟩
    unfold updates
    rw [List.foldlM_cons, hupdate]
    exact hc'

/-- **The retransmission timer.** No sequence of samples of at most `2 ^ 24` ticks overflows. While no later sample is taken
for a first one, `srtt`, `rttvar` and `rto` are the estimate of RFC 6298 within a bound, but for a rounding of 16 ticks, exactly
if the deviations that are missing from `rttvar` are within it. -/
theorem rtt_estimate (hsrtt : c.srtt = 0) (hrttvar : c.rttvar = 0) (r : Nat) (rs : List Nat)
    (hrs : ∀ x ∈ r :: rs, x ≤ 2 ^ 24) : ∃ c', updates c (r :: rs) = some c' ∧
      ((∀ c₁, updateRto c r = some c₁ → Unbroken c₁ rs) → ∀ bound,
        (lag r rs ≤ bound → Tracks (bound + 16) c' (estimate r rs)) ∧
        (Tracks bound c' (estimate r rs) → lag r rs ≤ bound + 16)) := by
  have hrange := sampled_fresh hsrtt hrttvar
  obtain ⟨c₁, hupdate, hrange₁, hafter⟩ := updateRto_spec hrange (hrs r List.mem_cons_self)
  have hrs' : ∀ x ∈ rs, x ≤ 2 ^ 24 := fun x hx => hrs x (List.mem_cons_of_mem _ hx)
  obtain ⟨c', hc', -⟩ := updates_returns hrange₁ hrs'
  refine ⟨c', ?_, fun hunbroken bound => ?_⟩
  · unfold updates
    rw [List.foldlM_cons, hupdate]
    exact hc'
  · obtain ⟨c'', hc'', hfollows, hrto⟩ :=
      follows_updates hrange₁ (Follows.first hafter hsrtt) hafter.rto hrs' (hunbroken c₁ hupdate)
    obtain rfl := Option.some.inj (hc'.symm.trans hc'')
    exact hfollows.tracks_iff hrto bound

/-- A steady connection. -/
theorem rtt_estimate_steady : ∃ c', updates emptyConn [80, 80] = some c' ∧ Tracks 16 c' (estimate 80 [80]) := by
  obtain ⟨c', hc', htracks⟩ := rtt_estimate (c := emptyConn) rfl rfl 80 [80] (by decide)
  have hunbroken : ∀ c₁, updateRto emptyConn 80 = some c₁ → Unbroken c₁ [80] := fun c₁ h₁ => by
    have hsrtt : (updateRto emptyConn 80).map (·.srtt) = some 640 := by decide +kernel
    rw [h₁] at hsrtt
    refine ⟨fun hzero => ?_, fun _ _ => trivial⟩
    have hsrtt := Option.some.inj hsrtt
    dsimp only at hsrtt
    omega
  have hlag : lag 80 [80] ≤ 0 := by
    unfold lag lagFrom lagFrom Estimate.first
    norm_num
  have := (htracks hunbroken 0).1 hlag
  rw [zero_add] at this
  exact ⟨c', hc', this⟩

/-- A sample of a tick and then one of `2 ^ 24` ticks: three quarters of the deviation are missing. -/
theorem deviation_missing : ¬ ∃ bound : ℚ, bound ≤ 2 ^ 23 ∧ ∀ r rs, (∀ x ∈ r :: rs, x ≤ 2 ^ 24) →
    ∃ c', updates emptyConn (r :: rs) = some c' ∧ Tracks bound c' (estimate r rs) := by
  rintro ⟨bound, hbound, hall⟩
  obtain ⟨c', hc', htracks⟩ := hall 1 [2 ^ 24] (by decide)
  have hrttvar : (updates emptyConn [1, 2 ^ 24]).map (·.rttvar) = some 4194305 := by decide +kernel
  rw [hc'] at hrttvar
  obtain ⟨h, -⟩ := abs_le.1 htracks.rttvar
  have hrttvar : c'.rttvar = 4194305 := Option.some.inj hrttvar
  rw [hrttvar] at h
  unfold estimate at h
  rw [List.foldl_cons, List.foldl_nil, rttvar_next] at h
  unfold Estimate.first at h
  norm_num at h hbound
  linarith

end Zigix.Tcp
