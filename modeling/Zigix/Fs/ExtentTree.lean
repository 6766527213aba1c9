import Zigix.Fs.Extents
import Mathlib.Data.List.Basic

/-!
# The extent tree is a map

* `extent_tree_is_map` : both together; a lookup through a leaf that has been changed is the old one, updated.
-/

namespace Zigix.Ext4

open Bytes Bisect

variable {read : Nat → Option Buf} {buf buf' root leaf : Buf} {e e' ext : Extent} {l lo hi d k i j pos n c : Nat}
  {L : List Extent} {a : Option Nat}

/-! ## One extent -/

theorem Extent.covers_iff : e.covers l = true ↔ e.block ≤ l ∧ l < e.block + e.blockCount := by
  simp [Extent.covers]

theorem Extent.translate_eq (h : e.block + e.blockCount ≤ 2 ^ 32 - 1) :
    e.translate l = some (if e.covers l = true then some (e.place l) else none) := by
  have hlt : e.block + e.blockCount < 2 ^ 32 := by omega
  unfold Extent.translate Extent.contains Extent.endBlock Extent.covers
  by_cases hle : e.block ≤ l
  · rw [if_pos hle, if_pos hlt]
    by_cases hl : l < e.block + e.blockCount
    · simp [hle, hl, Extent.place]
    · simp [hl]
  · rw [if_neg hle]
    simp [hle]

theorem Disjoint.symm (h : Disjoint e e') : Disjoint e' e := fun l hl => h l hl.symm

/-! ## A leaf -/

theorem searchLeaf_eq {is : List Nat} (h : ∀ i ∈ is, (extentAt buf i).block + (extentAt buf i).blockCount ≤ 2 ^ 32 - 1) :
    searchLeaf buf l is = some (((is.map (extentAt buf)).find? fun e => e.covers l).map fun e => e.place l) := by
  induction is with
  | nil => rfl
  | cons i is ih =>
    rw [searchLeaf, Extent.translate_eq (h i (List.mem_cons_self ..)), List.map_cons]
    by_cases hc : (extentAt buf i).covers l = true
    · rw [if_pos hc, List.find?_cons_of_pos (p := fun e : Extent => e.covers l) hc]
      simp only [bind, Option.bind_some, Option.map_some]
    · rw [if_neg hc, List.find?_cons_of_neg (p := fun e : Extent => e.covers l) hc]
      simp only [bind, Option.bind_some]
      exact ih fun j hj => h j (List.mem_cons_of_mem _ hj)

theorem Leaf.search (h : Leaf buf) : searchLeaf buf l (List.range (entries buf)) =
    some (((leafExtents buf).find? fun e => e.covers l).map fun e => e.place l) :=
  searchLeaf_eq fun _ hi => h.bound _ (List.mem_map_of_mem hi)

theorem find_of_disjoint (h : L.Pairwise Disjoint) (he : e ∈ L) (hc : e.covers l = true) :
    L.find? (fun e => e.covers l) = some e := by
  induction L with
  | nil => cases he
  | cons x L ih =>
    rw [List.pairwise_cons] at h
    rcases List.mem_cons.1 he with rfl | he
    · exact List.find?_cons_of_pos hc
    · have hx : ¬ x.covers l = true := fun hx => h.1 e he l ⟨hx, hc⟩
      rw [List.find?_cons_of_neg (p := fun e : Extent => e.covers l) hx]
      exact ih h.2 he

/-! ## Index nodes -/

theorem indexBlock_le (h : ∀ i, i < entries buf → indexBlock buf i ≤ childEnd buf hi i) (hij : i < j)
    (hj : j < entries buf) : childEnd buf hi i ≤ indexBlock buf j := by
  induction j with
  | zero => omega
  | succ j ih =>
    rcases Nat.lt_succ_iff_lt_or_eq.1 hij with hlt | rfl
    · have hstep := h j (by omega)
      rw [childEnd, if_pos hj] at hstep
      exact (ih hlt (by omega)).trans hstep
    · rw [childEnd, if_pos hj]

theorem indexBlock_mono (h : ∀ i, i < entries buf → indexBlock buf i ≤ childEnd buf hi i) (hij : i ≤ j)
    (hj : j < entries buf) : indexBlock buf i ≤ indexBlock buf j := by
  rcases Nat.lt_or_eq_of_le hij with hlt | rfl
  · exact (h i (by omega)).trans (indexBlock_le h hlt hj)
  · exact le_rfl

theorem findIndex_spec (hv : isValid buf = true) (hd : depth buf ≠ 0) (hpos : 0 < entries buf)
    (h : ∀ i, i < entries buf → indexBlock buf i ≤ childEnd buf hi i) :
    ∃ idx, findIndex buf l = some idx ∧ idx < entries buf ∧ (∀ i, i < idx → indexBlock buf idx ≤ l) ∧
      ∀ i, idx < i → i < entries buf → l < indexBlock buf i := by
  have hends : EndsAt (fun mid => decide (indexBlock buf mid ≤ l)) 0 (entries buf)
      (bisect (fun mid => decide (indexBlock buf mid ≤ l)) (entries buf) 0 (entries buf)) :=
    bisect_spec (fun i j _ hij hj hp => by
      have := indexBlock_mono h hij hj
      rw [decide_eq_true_eq] at hp ⊢
      omega) (Nat.zero_le _) (by omega)
  unfold findIndex
  rw [hv, show isLeaf buf = false from decide_eq_false hd, show decide (entries buf = 0) = false from
    decide_eq_false (by omega)]
  simp only [Bool.not_true, Bool.or_self, Bool.false_eq_true, if_false]
  generalize bisect _ _ _ _ = r at hends ⊢
  have hle := hends.le
  by_cases hr : 0 < r
  · refine ⟨r - 1, if_pos hr, by omega, fun i _ => ?_, fun i hlt hi => ?_⟩
    · exact of_decide_eq_true (hends.before (r - 1) (Nat.zero_le _) (by omega))
    · have := of_decide_eq_false (hends.after i (by omega) hi)
      omega
  · refine ⟨0, if_neg hr, hpos, fun i hi => absurd hi (Nat.not_lt_zero i), fun i _ hi => ?_⟩
    have := of_decide_eq_false (hends.after i (by omega) hi)
    omega

theorem findIndex_empty (h : entries buf = 0) : findIndex buf l = none := by
  unfold findIndex
  rw [show decide (entries buf = 0) = true from decide_eq_true h]
  simp

/-! ## Trees -/

theorem mem_extents_succ : e ∈ extents read (d + 1) buf ↔
    ∃ i < entries buf, ∃ child, read (childBlock buf i) = some child ∧ e ∈ extents read d child := by
  rw [extents, List.mem_flatMap]
  constructor
  · rintro ⟨i, hi, he⟩
    cases hr : read (childBlock buf i) with
    | none =>
      rw [hr] at he
      cases he
    | some child =>
      rw [hr] at he
      exact ⟨i, List.mem_range.1 hi, child, hr, he⟩
  · rintro ⟨i, hi, child, hr, he⟩
    refine ⟨i, List.mem_range.2 hi, ?_⟩
    rw [hr]
    exact he

theorem WellFormed.within (h : WellFormed read d buf lo hi) (he : e ∈ extents read d buf) :
    lo ≤ e.block ∧ e.block + e.blockCount ≤ hi := by
  induction d generalizing buf lo hi with
  | zero => exact h.2 e he
  | succ d ih =>
    obtain ⟨-, -, hchildren⟩ := h
    obtain ⟨i, hi', child, hread, he⟩ := mem_extents_succ.1 he
    obtain ⟨hlo, -, hhi, child', hread', hwf⟩ := hchildren i hi'
    rw [hread] at hread'
    obtain rfl := Option.some.inj hread'
    have := ih hwf he
    omega

/-- **No block is in two extents** of a tree. -/
theorem WellFormed.disjoint (h : WellFormed read d buf lo hi) : (extents read d buf).Pairwise Disjoint := by
  induction d generalizing buf lo hi with
  | zero => exact h.1.disjoint
  | succ d ih =>
    obtain ⟨-, -, hchildren⟩ := h
    rw [extents, List.pairwise_flatMap]
    constructor
    · intro i hi'
      obtain ⟨-, -, -, child, hread, hwf⟩ := hchildren i (List.mem_range.1 hi')
      rw [hread]
      exact ih hwf
    · refine List.pairwise_lt_range.imp_of_mem fun {i j} hi' hj hij x hx y hy l hl => ?_
      rw [List.mem_range] at hi' hj
      obtain ⟨-, -, -, child, hread, hwf⟩ := hchildren i hi'
      obtain ⟨-, -, -, child', hread', hwf'⟩ := hchildren j hj
      rw [hread] at hx
      rw [hread'] at hy
      have hend := (hwf.within hx).2
      have hstart := (hwf'.within hy).1
      have hle := indexBlock_le (fun i hi => (hchildren i hi).2.1) hij hj
      obtain ⟨hx, hy⟩ := hl
      rw [Extent.covers_iff] at hx hy
      omega

theorem WellFormed.valid (h : WellFormed read d buf lo hi) : isValid buf = true := by
  cases d with
  | zero => exact h.1.valid
  | succ d => exact h.1

/-! ### One level -/

theorem descend_leaf (h : depth buf = 0) : descend read l k a buf = some (some (a, buf)) := by
  unfold descend
  rw [if_pos h]

section Level
variable (h : depth buf ≠ 0)
include h

theorem descend_nowhere (hidx : findIndex buf l = none) : descend read l (k + 1) a buf = some none := by
  rw [descend, if_neg h, hidx]

theorem descend_unread (hidx : findIndex buf l = some i) (hread : read (childBlock buf i) = none) :
    descend read l (k + 1) a buf = some none := by
  rw [descend, if_neg h, hidx]
  dsimp only
  rw [hread]

theorem descend_invalid {child : Buf} (hidx : findIndex buf l = some i) (hread : read (childBlock buf i) = some child)
    (hv : ¬ isValid child = true) : descend read l (k + 1) a buf = some none := by
  rw [descend, if_neg h, hidx]
  dsimp only
  rw [hread]
  exact if_neg hv

theorem descend_child {child : Buf} (hidx : findIndex buf l = some i) (hread : read (childBlock buf i) = some child)
    (hv : isValid child = true) :
    descend read l (k + 1) a buf = descend read l k (some (childBlock buf i)) child := by
  rw [descend, if_neg h, hidx]
  dsimp only
  rw [hread]
  exact if_pos hv

end Level

/-- **The walk** ends in the leaf that has the extent of the block, or where there is none. -/
theorem descend_spec (h : WellFormed read d buf lo hi) (hf : d ≤ k) :
    (descend read l k a buf = some none ∧ ∀ e ∈ extents read d buf, ¬ e.covers l = true) ∨
    ∃ b leaf, descend read l k a buf = some (some (b, leaf)) ∧ Leaf leaf ∧
      ∀ e, e.covers l = true → (e ∈ extents read d buf ↔ e ∈ leafExtents leaf) := by
  induction d generalizing buf lo hi k a with
  | zero =>
    exact .inr ⟨a, buf, descend_leaf h.1.leaf, h.1, fun _ _ => Iff.rfl⟩
  | succ d ih =>
    obtain ⟨k, rfl⟩ : ∃ n, k = n + 1 := ⟨k - 1, by omega⟩
    obtain ⟨hv, hd, hchildren⟩ := h
    have hd0 : depth buf ≠ 0 := by omega
    by_cases hpos : 0 < entries buf
    · obtain ⟨idx, hidx, hlt, hbefore, hafter⟩ := findIndex_spec (l := l) hv hd0 hpos fun i hi => (hchildren i hi).2.1
      obtain ⟨-, -, -, child, hread, hwf⟩ := hchildren idx hlt
      have hmem : ∀ e, e.covers l = true → (e ∈ extents read (d + 1) buf ↔ e ∈ extents read d child) := fun e hc => by
        rw [mem_extents_succ]
        constructor
        · rintro ⟨i, hi', child', hread', he⟩
          obtain ⟨-, -, -, child'', hread'', hwf'⟩ := hchildren i hi'
          rw [hread'] at hread''
          obtain rfl := Option.some.inj hread''
          have hin := hwf'.within he
          rw [Extent.covers_iff] at hc
          rcases Nat.lt_trichotomy i idx with hlt' | rfl | hgt
          · have := hbefore i hlt'
            have := indexBlock_le (fun i hi => (hchildren i hi).2.1) hlt' hlt
            omega
          · rw [hread] at hread'
            obtain rfl := Option.some.inj hread'
            exact he
          · have := hafter i hgt hi'
            omega
        · exact fun he => ⟨idx, hlt, child, hread, he⟩
      rw [descend_child hd0 hidx hread hwf.valid]
      rcases ih (k := k) (a := some (childBlock buf idx)) hwf (by omega) with ⟨hnone, hno⟩ | ⟨b, leaf, hsome, hleaf, hiff⟩
      · exact .inl ⟨hnone, fun e he hc => hno e ((hmem e hc).1 he) hc⟩
      · exact .inr ⟨b, leaf, hsome, hleaf, fun e hc => (hmem e hc).trans (hiff e hc)⟩
    · refine .inl ⟨descend_nowhere hd0 (findIndex_empty (by omega)), fun e he => ?_⟩
      obtain ⟨i, hi', -⟩ := mem_extents_succ.1 he
      omega

/-- **Lookup** on a well-formed tree. -/
theorem lookup_spec (h : WellFormed read d root 0 (2 ^ 32 - 1)) (hf : d ≤ k) :
    (∀ e ∈ extents read d root, e.covers l = true → lookup read k root l = some (some (e.place l))) ∧
      (lookup read k root l = some none ↔ ∀ e ∈ extents read d root, ¬ e.covers l = true) := by
  have hnone : (∀ e ∈ extents read d root, ¬ e.covers l = true) → lookup read k root l = some none := fun hno => by
    unfold lookup
    rw [if_pos h.valid]
    rcases descend_spec (l := l) (a := none) h hf with ⟨hd, -⟩ | ⟨b, leaf, hd, hleaf, hiff⟩
    · rw [hd]
      rfl
    · rw [hd]
      simp only [bind, Option.bind_some]
      rw [hleaf.search, List.find?_eq_none.2 fun e he hc => hno e ((hiff e hc).2 he) hc]
      rfl
  have hsome : ∀ e ∈ extents read d root, e.covers l = true → lookup read k root l = some (some (e.place l)) :=
    fun e he hc => by
      unfold lookup
      rw [if_pos h.valid]
      rcases descend_spec (l := l) (a := none) h hf with ⟨-, hno⟩ | ⟨b, leaf, hd, hleaf, hiff⟩
      · exact absurd hc (hno e he)
      · rw [hd]
        simp only [bind, Option.bind_some]
        rw [hleaf.search, find_of_disjoint hleaf.disjoint ((hiff e hc).1 he) hc]
        rfl
  refine ⟨hsome, fun hl e he hc => ?_, hnone⟩
  rw [hsome e he hc] at hl
  cases hl

/-! ## Insertion -/

theorem extentAt_congr (h : ∀ k, 12 + 12 * i ≤ k → buf' k = buf k) : extentAt buf' i = extentAt buf i :=
  Extent.ext (getLE_congr fun _ _ => h _ (by omega)) (getLE_congr fun _ _ => h _ (by omega))
    (getLE_congr fun _ _ => h _ (by omega)) (getLE_congr fun _ _ => h _ (by omega))

theorem setExtent_of_notMem (h : c < 12 + 12 * i ∨ 24 + 12 * i ≤ c) : setExtent buf i e c = buf c := by
  unfold setExtent
  rw [putLE_of_notMem (by omega), putLE_of_notMem (by omega), putLE_of_notMem (by omega), putLE_of_notMem (by omega)]

theorem extentAt_setExtent_self : extentAt (setExtent buf i e) i = e := by
  have hblock : e.block < 256 ^ 4 := e.block_lt
  have hlen : e.len < 256 ^ 2 := e.len_lt
  have hhi : e.startHi < 256 ^ 2 := e.startHi_lt
  have hlo : e.startLo < 256 ^ 4 := e.startLo_lt
  unfold setExtent extentAt
  dsimp only
  refine Extent.ext ?_ ?_ ?_ ?_
  · dsimp only
    rw [getLE_putLE_of_disjoint (by omega), getLE_putLE_of_disjoint (by omega), getLE_putLE_of_disjoint (by omega),
      getLE_putLE, Nat.mod_eq_of_lt hblock]
  · dsimp only
    rw [getLE_putLE_of_disjoint (by omega), getLE_putLE_of_disjoint (by omega), getLE_putLE, Nat.mod_eq_of_lt hlen]
  · dsimp only
    rw [getLE_putLE_of_disjoint (by omega), getLE_putLE, Nat.mod_eq_of_lt hhi]
  · dsimp only
    rw [getLE_putLE, Nat.mod_eq_of_lt hlo]

theorem extentAt_setExtent (h : j ≠ i) : extentAt (setExtent buf i e) j = extentAt buf j :=
  Extent.ext (getLE_congr fun _ _ => setExtent_of_notMem (by omega)) (getLE_congr fun _ _ => setExtent_of_notMem (by omega))
    (getLE_congr fun _ _ => setExtent_of_notMem (by omega)) (getLE_congr fun _ _ => setExtent_of_notMem (by omega))

theorem shiftRight_of_lt (h : c < 24 + 12 * pos) : shiftRight pos n buf c = buf c := by
  induction n generalizing buf with
  | zero => rfl
  | succ n ih =>
    rw [shiftRight, ih]
    exact setExtent_of_notMem (by omega)

theorem extentAt_shiftRight : extentAt (shiftRight pos n buf) j =
    if pos < j ∧ j ≤ pos + n then extentAt buf (j - 1) else extentAt buf j := by
  induction n generalizing buf with
  | zero => rw [shiftRight, if_neg (by omega)]
  | succ n ih =>
    rw [shiftRight, ih]
    by_cases hlast : j = pos + n + 1
    · rw [hlast, if_neg (by omega), if_pos (by omega), extentAt_setExtent_self]
      rfl
    · by_cases hin : pos < j ∧ j ≤ pos + n
      · rw [if_pos hin, if_pos (by omega), extentAt_setExtent (by omega)]
      · rw [if_neg hin, if_neg (by omega), extentAt_setExtent hlast]

/-- The leaf after an insertion at `pos`. -/
def inserted (buf : Buf) (pos : Nat) (ext : Extent) : Buf :=
  putLE (setExtent (shiftRight pos (entries buf - pos) buf) pos ext) 2 2 (entries buf + 1)

theorem inserted_header (h : c < 2 ∨ 4 ≤ c) (h' : c < 12) : inserted buf pos ext c = buf c := by
  unfold inserted
  rw [putLE_of_notMem h, setExtent_of_notMem (by omega), shiftRight_of_lt (by omega)]

theorem inserted_magic : magic (inserted buf pos ext) = magic buf :=
  getLE_congr fun _ _ => inserted_header (by omega) (by omega)

theorem inserted_maxEntries : maxEntries (inserted buf pos ext) = maxEntries buf :=
  getLE_congr fun _ _ => inserted_header (by omega) (by omega)

theorem inserted_depth : depth (inserted buf pos ext) = depth buf :=
  getLE_congr fun _ _ => inserted_header (by omega) (by omega)

theorem inserted_entries (h : entries buf + 1 < 2 ^ 16) : entries (inserted buf pos ext) = entries buf + 1 := by
  unfold inserted entries at *
  rw [getLE_putLE]
  exact Nat.mod_eq_of_lt h

theorem extentAt_inserted (hpos : pos ≤ entries buf) (hj : j ≤ entries buf) : extentAt (inserted buf pos ext) j =
    if j < pos then extentAt buf j else if j = pos then ext else extentAt buf (j - 1) := by
  have hheader : extentAt (inserted buf pos ext) j =
      extentAt (setExtent (shiftRight pos (entries buf - pos) buf) pos ext) j :=
    extentAt_congr fun k hk => putLE_of_notMem (by omega)
  rw [hheader]
  rcases Nat.lt_trichotomy j pos with hlt | rfl | hgt
  · rw [extentAt_setExtent (by omega), extentAt_shiftRight, if_neg (by omega), if_pos hlt]
  · rw [extentAt_setExtent_self, if_neg (by omega), if_pos rfl]
  · rw [extentAt_setExtent (by omega), extentAt_shiftRight, if_pos (by omega), if_neg (by omega), if_neg (by omega)]

theorem insertPos_spec (buf : Buf) (ext : Extent)
    (hsorted : ∀ i j, i < j → j < entries buf → (extentAt buf i).block ≤ (extentAt buf j).block) :
    insertPos buf ext ≤ entries buf ∧ (∀ i, i < insertPos buf ext → (extentAt buf i).block ≤ ext.block) ∧
      ∀ i, insertPos buf ext ≤ i → i < entries buf → ext.block ≤ (extentAt buf i).block := by
  unfold insertPos
  cases hfind : (List.range (entries buf)).find? fun i => decide (ext.block < (extentAt buf i).block) with
  | none =>
    refine ⟨le_rfl, fun i hi => ?_, fun i hle hi => absurd hi (Nat.not_lt.2 hle)⟩
    have := List.find?_eq_none.1 hfind i (List.mem_range.2 hi)
    simpa using this
  | some pos =>
    rw [List.find?_range_eq_some] at hfind
    obtain ⟨hp, hmem, hbefore⟩ := hfind
    have hlt : pos < entries buf := List.mem_range.1 hmem
    have hblock : ext.block < (extentAt buf pos).block := of_decide_eq_true hp
    refine ⟨hlt.le, fun i hi => ?_, fun i hle hi => ?_⟩
    · have := hbefore i hi
      simpa using this
    · rcases Nat.lt_or_eq_of_le hle with hlt' | rfl
      · exact hblock.le.trans (hsorted pos i hlt' hi)
      · exact hblock.le

theorem pairwise_leaf {R : Extent → Extent → Prop} :
    (leafExtents buf).Pairwise R ↔ ∀ i j, i < j → j < entries buf → R (extentAt buf i) (extentAt buf j) := by
  unfold leafExtents
  rw [List.pairwise_map, List.pairwise_iff_getElem]
  simp only [List.length_range, List.getElem_range]
  exact ⟨fun h i j hij hj => h i j (by omega) hj hij, fun h i j _ hj hij => h i j hij hj⟩

theorem mem_leaf : e ∈ leafExtents buf ↔ ∃ i < entries buf, extentAt buf i = e := by
  unfold leafExtents
  simp only [List.mem_map, List.mem_range]

section Inserted
variable (hpos : pos ≤ entries buf) (hroom : entries buf + 1 < 2 ^ 16)
include hpos hroom

theorem pairwise_inserted {R : Extent → Extent → Prop} (h : (leafExtents buf).Pairwise R)
    (hbefore : ∀ i, i < pos → R (extentAt buf i) ext) (hafter : ∀ i, pos ≤ i → i < entries buf → R ext (extentAt buf i)) :
    (leafExtents (inserted buf pos ext)).Pairwise R := by
  rw [pairwise_leaf] at h ⊢
  intro i j hij hj
  rw [inserted_entries hroom] at hj
  rw [extentAt_inserted hpos (by omega), extentAt_inserted hpos (by omega)]
  rcases Nat.lt_trichotomy i pos with hi | rfl | hi
  · rw [if_pos hi]
    rcases Nat.lt_trichotomy j pos with hj' | rfl | hj'
    · rw [if_pos hj']
      exact h i j hij (by omega)
    · rw [if_neg (by omega), if_pos rfl]
      exact hbefore i hi
    · rw [if_neg (by omega), if_neg (by omega)]
      exact h i (j - 1) (by omega) (by omega)
  · rw [if_neg (by omega), if_pos rfl, if_neg (by omega), if_neg (by omega)]
    exact hafter (j - 1) (by omega) (by omega)
  · rw [if_neg (by omega), if_neg (by omega), if_neg (by omega), if_neg (by omega)]
    exact h (i - 1) (j - 1) (by omega) (by omega)

theorem mem_inserted : e ∈ leafExtents (inserted buf pos ext) ↔ e = ext ∨ e ∈ leafExtents buf := by
  rw [mem_leaf, mem_leaf, inserted_entries hroom]
  constructor
  · rintro ⟨j, hj, rfl⟩
    rw [extentAt_inserted hpos (by omega)]
    split
    · exact .inr ⟨j, by omega, rfl⟩
    · split
      · exact .inl rfl
      · exact .inr ⟨j - 1, by omega, rfl⟩
  · rintro (rfl | ⟨i, hi, rfl⟩)
    · exact ⟨pos, by omega, by rw [extentAt_inserted hpos hpos, if_neg (by omega), if_pos rfl]⟩
    · by_cases hlt : i < pos
      · exact ⟨i, by omega, by rw [extentAt_inserted hpos (by omega), if_pos hlt]⟩
      · refine ⟨i + 1, by omega, ?_⟩
        rw [extentAt_inserted hpos (by omega), if_neg (by omega), if_neg (by omega), Nat.add_sub_cancel]

end Inserted

/-- **Insertion** keeps a leaf sorted and disjoint, and adds exactly the extent. -/
theorem insertInLeaf_spec (h : Leaf buf) (hroom : entries buf < maxEntries buf)
    (hdisjoint : ∀ e ∈ leafExtents buf, Disjoint e ext) (hbound : ext.block + ext.blockCount ≤ 2 ^ 32 - 1) :
    ∃ buf', insertInLeaf buf ext = some (true, buf') ∧ Leaf buf' ∧
      ∀ e, e ∈ leafExtents buf' ↔ e = ext ∨ e ∈ leafExtents buf := by
  have hmax : maxEntries buf < 2 ^ 16 := getLE_lt buf 4 2
  have hcount : entries buf + 1 < 2 ^ 16 := by omega
  obtain ⟨hpos, hbefore, hafter⟩ := insertPos_spec buf ext (pairwise_leaf.1 h.sorted)
  have hmem : ∀ e, e ∈ leafExtents (inserted buf (insertPos buf ext) ext) ↔ e = ext ∨ e ∈ leafExtents buf :=
    fun e => mem_inserted hpos hcount
  have hvalid := h.valid
  unfold isValid at hvalid
  simp only [Bool.and_eq_true, decide_eq_true_eq] at hvalid
  refine ⟨inserted buf (insertPos buf ext) ext, ?_, ⟨?_, ?_, ?_, ?_, fun e he => ?_⟩, hmem⟩
  · unfold insertInLeaf
    rw [h.valid, show isLeaf buf = true from decide_eq_true h.leaf, decide_eq_false (by omega)]
    simp only [Bool.not_true, Bool.or_self, Bool.false_eq_true, if_false]
    exact if_pos hcount
  · unfold isValid
    rw [inserted_magic, inserted_maxEntries, inserted_entries hcount, decide_eq_true hvalid.1, decide_eq_true (Nat.succ_le_of_lt hroom)]
    rfl
  · rw [inserted_depth, h.leaf]
  · exact pairwise_inserted hpos hcount h.sorted hbefore hafter
  · exact pairwise_inserted hpos hcount h.disjoint
      (fun i hi => hdisjoint _ (mem_leaf.2 ⟨i, by omega, rfl⟩))
      (fun i _ hi => (hdisjoint _ (mem_leaf.2 ⟨i, hi, rfl⟩)).symm)
  · rcases (hmem e).1 he with rfl | he
    · exact hbound
    · exact h.bound e he

theorem search_inserted (h : Leaf buf) (h' : Leaf buf') (hdisjoint : ∀ e ∈ leafExtents buf, Disjoint e ext)
    (hmem : ∀ e, e ∈ leafExtents buf' ↔ e = ext ∨ e ∈ leafExtents buf) :
    searchLeaf buf' l (List.range (entries buf')) =
      if ext.covers l = true then some (some (ext.place l)) else searchLeaf buf l (List.range (entries buf)) := by
  rw [h.search, h'.search]
  by_cases hc : ext.covers l = true
  · rw [if_pos hc, find_of_disjoint h'.disjoint ((hmem ext).2 (.inl rfl)) hc]
    rfl
  · rw [if_neg hc]
    by_cases hex : ∃ e ∈ leafExtents buf, e.covers l = true
    · obtain ⟨e, he, hce⟩ := hex
      rw [find_of_disjoint h.disjoint he hce, find_of_disjoint h'.disjoint ((hmem e).2 (.inr he)) hce]
    · have hno : ∀ e ∈ leafExtents buf, ¬ e.covers l = true := fun e he hce => hex ⟨e, he, hce⟩
      rw [List.find?_eq_none.2 hno, List.find?_eq_none.2 fun e he hce => ?_]
      rcases (hmem e).1 he with rfl | he
      · exact hc hce
      · exact hno e he hce

/-! ## A leaf of a tree -/

theorem descend_read {b : Nat} (h : descend read l k a buf = some (some (some b, leaf)))
    (hat : ∀ b, a = some b → read b = some buf) : read b = some leaf := by
  by_cases hd : depth buf = 0
  · rw [descend_leaf hd] at h
    obtain ⟨rfl, rfl⟩ := Prod.mk.inj (Option.some.inj (Option.some.inj h))
    exact hat b rfl
  · induction k generalizing a buf with
    | zero =>
      rw [descend, if_neg hd] at h
      cases h
    | succ k ih =>
      cases hidx : findIndex buf l with
      | none =>
        rw [descend_nowhere hd hidx] at h
        cases h
      | some i =>
        cases hchild : read (childBlock buf i) with
        | none =>
          rw [descend_unread hd hidx hchild] at h
          cases h
        | some child =>
          by_cases hv : isValid child = true
          · rw [descend_child hd hidx hchild hv] at h
            have hat' : ∀ b, some (childBlock buf i) = some b → read b = some child := fun b hb =>
              Option.some.inj hb ▸ hchild
            by_cases hd' : depth child = 0
            · rw [descend_leaf hd'] at h
              obtain ⟨hb, rfl⟩ := Prod.mk.inj (Option.some.inj (Option.some.inj h))
              exact hat' b hb
            · exact ih h hat' hd'
          · rw [descend_invalid hd hidx hchild hv] at h
            cases h

/-- The contents of block `c` have become `buf'`. -/
def swap (c : Nat) (buf' : Buf) (a : Option Nat) (node : Buf) : Buf := if a = some c then buf' else node

theorem descend_update (hread : read c = some leaf) (hleaf : Leaf leaf) (hleaf' : Leaf buf')
    (hat : a = some c → buf = leaf) :
    descend (Function.update read c (some buf')) l k a (swap c buf' a buf) =
      (descend read l k a buf).map (Option.map fun r => (r.1, swap c buf' r.1 r.2)) := by
  induction k generalizing a buf with
  | zero =>
    by_cases hc : a = some c
    · rw [hat hc, swap, if_pos hc, descend_leaf hleaf'.leaf, descend_leaf hleaf.leaf]
      simp only [Option.map_some, swap, if_pos hc]
    · rw [show swap c buf' a buf = buf from if_neg hc]
      by_cases hd : depth buf = 0
      · rw [descend_leaf hd, descend_leaf hd]
        simp only [Option.map_some, swap, if_neg hc]
      · rw [descend, if_neg hd, descend, if_neg hd, Option.map_none]
  | succ k ih =>
    by_cases hc : a = some c
    · rw [hat hc, swap, if_pos hc, descend_leaf hleaf'.leaf, descend_leaf hleaf.leaf]
      simp only [Option.map_some, swap, if_pos hc]
    · rw [show swap c buf' a buf = buf from if_neg hc]
      by_cases hd : depth buf = 0
      · rw [descend_leaf hd, descend_leaf hd]
        simp only [Option.map_some, swap, if_neg hc]
      · cases hidx : findIndex buf l with
        | none => rw [descend_nowhere hd hidx, descend_nowhere hd hidx, Option.map_some, Option.map_none]
        | some i =>
          by_cases hcb : childBlock buf i = c
          · have hread' : Function.update read c (some buf') (childBlock buf i) = some buf' := by
              rw [hcb, Function.update_self]
            rw [descend_child hd hidx hread' hleaf'.valid, descend_child hd hidx (hcb ▸ hread) hleaf.valid,
              descend_leaf hleaf'.leaf, descend_leaf hleaf.leaf]
            simp only [Option.map_some, swap, hcb, if_true]
          · have hne : ¬ some (childBlock buf i) = some c := fun h => hcb (Option.some.inj h)
            have hsame : Function.update read c (some buf') (childBlock buf i) = read (childBlock buf i) :=
              Function.update_of_ne hcb ..
            cases hchild : read (childBlock buf i) with
            | none =>
              rw [descend_unread hd hidx (hsame.trans hchild), descend_unread hd hidx hchild, Option.map_some,
                Option.map_none]
            | some child =>
              by_cases hv : isValid child = true
              · have hstep := ih (a := some (childBlock buf i))
                  (show some (childBlock buf i) = some c → child = leaf from fun h => absurd h hne)
                rw [show swap c buf' (some (childBlock buf i)) child = child from if_neg hne] at hstep
                rw [descend_child hd hidx (hsame.trans hchild) hv, descend_child hd hidx hchild hv]
                exact hstep
              · rw [descend_invalid hd hidx (hsame.trans hchild) hv, descend_invalid hd hidx hchild hv, Option.map_some,
                  Option.map_none]

theorem lookup_inserted (h : WellFormed read d root 0 (2 ^ 32 - 1)) (hf : d ≤ k) (hread : read c = some leaf)
    (hleaf : Leaf leaf) (hleaf' : Leaf buf') (hdisjoint : ∀ e ∈ leafExtents leaf, Disjoint e ext)
    (hmem : ∀ e, e ∈ leafExtents buf' ↔ e = ext ∨ e ∈ leafExtents leaf)
    (hown : ∀ l, ext.covers l = true → ∃ leaf, descend read l k none root = some (some (some c, leaf))) :
    lookup (Function.update read c (some buf')) k root l =
      if ext.covers l = true then some (some (ext.place l)) else lookup read k root l := by
  have hstep := descend_update (l := l) (k := k) (a := none) hread hleaf hleaf' (show none = some c → root = leaf from nofun)
  rw [show swap c buf' none root = root from if_neg nofun] at hstep
  unfold lookup
  rw [if_pos h.valid, if_pos h.valid, hstep]
  rcases descend_spec (l := l) (a := none) h hf with ⟨hd, -⟩ | ⟨b, leaf', hd, -, -⟩
  · have hc : ¬ ext.covers l = true := fun hc => by
      obtain ⟨leaf', hd'⟩ := hown l hc
      rw [hd] at hd'
      cases hd'
    rw [hd, if_neg hc]
    rfl
  · rw [hd]
    simp only [Option.map_some, bind, Option.bind_some]
    by_cases hb : b = some c
    · subst hb
      have hsame : leaf' = leaf := by
        have := descend_read hd nofun
        rw [hread] at this
        exact (Option.some.inj this).symm
      rw [hsame, show swap c buf' (some c) leaf = buf' from if_pos rfl]
      exact search_inserted hleaf hleaf' hdisjoint hmem
    · have hc : ¬ ext.covers l = true := fun hc => by
        obtain ⟨leaf'', hd'⟩ := hown l hc
        rw [hd] at hd'
        exact hb (Prod.mk.inj (Option.some.inj (Option.some.inj hd'))).1
      rw [if_neg hc, show swap c buf' b leaf' = leaf' from if_neg hb]

theorem lookup_leaf (h : Leaf buf) : lookup read k buf l = searchLeaf buf l (List.range (entries buf)) := by
  unfold lookup
  rw [if_pos h.valid, descend_leaf h.leaf]
  simp only [bind, Option.bind_some]

/-- **The extent tree is a map.** In a well-formed tree of any depth no block is in two extents, and `lookup` gives the
place of a block in the extent that covers it, or nothing exactly where no extent does. A leaf with room, in the inode
or at block `c` of a tree in which the extent belongs there, takes every extent that is disjoint from its entries: it
remains sorted and disjoint, and `lookup` changes on the blocks of the extent only. -/
theorem extent_tree_is_map (read : Nat → Option Buf) :
    (∀ d root k l, WellFormed read d root 0 (2 ^ 32 - 1) → d ≤ k →
      (extents read d root).Pairwise Disjoint ∧
      (∀ e ∈ extents read d root, e.covers l = true →
        lookup read k root l = some (some (e.physicalBlock + (l - e.block)))) ∧
      (lookup read k root l = some none ↔ ∀ e ∈ extents read d root, ¬ e.covers l = true)) ∧
    ∀ buf ext, Leaf buf → entries buf < maxEntries buf → (∀ e ∈ leafExtents buf, Disjoint e ext) →
      ext.block + ext.blockCount ≤ 2 ^ 32 - 1 →
      ∃ buf', insertInLeaf buf ext = some (true, buf') ∧ Leaf buf' ∧
        (∀ e, e ∈ leafExtents buf' ↔ e = ext ∨ e ∈ leafExtents buf) ∧
        (∀ k l, lookup read k buf' l =
          if ext.covers l = true then some (some (ext.physicalBlock + (l - ext.block))) else lookup read k buf l) ∧
        ∀ d root k c, WellFormed read d root 0 (2 ^ 32 - 1) → d ≤ k → read c = some buf →
          (∀ l, ext.covers l = true → ∃ leaf, descend read l k none root = some (some (some c, leaf))) →
          ∀ l, lookup (Function.update read c (some buf')) k root l =
            if ext.covers l = true then some (some (ext.physicalBlock + (l - ext.block))) else lookup read k root l := by
  constructor
  · intro d root k l h hf
    exact ⟨h.disjoint, lookup_spec h hf⟩
  · intro buf ext hleaf hroom hdisjoint hbound
    obtain ⟨buf', hinsert, hleaf', hmem⟩ := insertInLeaf_spec hleaf hroom hdisjoint hbound
    refine ⟨buf', hinsert, hleaf', hmem, fun k l => ?_, fun d root k c h hf hread hown l => ?_⟩
    · rw [lookup_leaf hleaf, lookup_leaf hleaf']
      exact search_inserted hleaf hleaf' hdisjoint hmem
    · exact lookup_inserted h hf hread hleaf hleaf' hdisjoint hmem hown

/-! ### Two leaves -/

section Small

def node (entries depth : Nat) : Buf :=
  putLE (putLE (putLE (putLE (fun _ => 0) 0 2 extentMagic) 2 2 entries) 4 2 4) 6 2 depth

def smallExtent (block len start : Nat) (h : block < 2 ^ 32 ∧ len < 2 ^ 16 ∧ start < 2 ^ 32) : Extent :=
  ⟨block, len, 0, start, h.1, h.2.1, by decide, h.2.2⟩

def firstExtent : Extent := smallExtent 0 2 100 (by decide)

def secondExtent : Extent := smallExtent 10 4 200 (by decide)

def newExtent : Extent := smallExtent 3 1 300 (by decide)

def firstLeaf : Buf := setExtent (node 1 0) 0 firstExtent

def secondLeaf : Buf := setExtent (node 1 0) 0 secondExtent

def smallRoot : Buf := putLE (putLE (putLE (node 2 1) 16 4 7) 24 4 10) 28 4 8

def smallRead : Nat → Option Buf
  | 7 => some firstLeaf
  | 8 => some secondLeaf
  | _ => none

theorem leaf_of_single (hv : isValid buf = true) (hd : depth buf = 0) (he : leafExtents buf = [e])
    (hb : e.block + e.blockCount ≤ 2 ^ 32 - 1) : Leaf buf := by
  refine ⟨hv, hd, ?_, ?_, ?_⟩
  · rw [he]
    exact List.pairwise_singleton ..
  · rw [he]
    exact List.pairwise_singleton ..
  · rw [he]
    exact List.forall_mem_singleton.2 hb

theorem firstLeaf_extents : leafExtents firstLeaf = [firstExtent] := by decide +kernel

theorem secondLeaf_extents : leafExtents secondLeaf = [secondExtent] := by decide +kernel

theorem firstLeaf_leaf : Leaf firstLeaf :=
  leaf_of_single (by decide +kernel) (by decide +kernel) firstLeaf_extents (by decide +kernel)

theorem secondLeaf_leaf : Leaf secondLeaf :=
  leaf_of_single (by decide +kernel) (by decide +kernel) secondLeaf_extents (by decide +kernel)

theorem smallRoot_wellFormed : WellFormed smallRead 1 smallRoot 0 (2 ^ 32 - 1) := by
  refine ⟨by decide +kernel, by decide +kernel, fun i hi => ?_⟩
  rw [show entries smallRoot = 2 by decide +kernel] at hi
  obtain rfl | rfl : i = 0 ∨ i = 1 := by omega
  · refine ⟨by decide +kernel, by decide +kernel, by decide +kernel, firstLeaf, ?_, firstLeaf_leaf, ?_⟩
    · rw [show childBlock smallRoot 0 = 7 by decide +kernel]
      rfl
    · rw [firstLeaf_extents]
      decide +kernel
  · refine ⟨by decide +kernel, by decide +kernel, by decide +kernel, secondLeaf, ?_, secondLeaf_leaf, ?_⟩
    · rw [show childBlock smallRoot 1 = 8 by decide +kernel]
      rfl
    · rw [secondLeaf_extents]
      decide +kernel

theorem newExtent_covers (h : newExtent.covers l = true) : l = 3 := by
  rw [Extent.covers_iff, show newExtent.block = 3 from rfl, show newExtent.blockCount = 1 from rfl] at h
  omega

/-- Block 12 is the third of the second extent, block 5 is a hole, and block 3 can be added. -/
theorem extent_tree_is_map_small : lookup smallRead 1 smallRoot 12 = some (some 202) ∧
    lookup smallRead 1 smallRoot 5 = some none ∧ ∃ leaf, insertInLeaf firstLeaf newExtent = some (true, leaf) ∧
      lookup (Function.update smallRead 7 (some leaf)) 1 smallRoot 3 = some (some 300) := by
  obtain ⟨hlookup, hinsert⟩ := extent_tree_is_map smallRead
  obtain ⟨-, hsome, -⟩ := hlookup 1 smallRoot 1 12 smallRoot_wellFormed le_rfl
  obtain ⟨-, -, hnone⟩ := hlookup 1 smallRoot 1 5 smallRoot_wellFormed le_rfl
  obtain ⟨leaf, hleaf, -, -, -, htree⟩ := hinsert firstLeaf newExtent firstLeaf_leaf (by decide +kernel)
    (by
      rw [firstLeaf_extents]
      refine List.forall_mem_singleton.2 fun l hl => ?_
      have hl' := newExtent_covers hl.2
      rw [hl'] at hl
      revert hl
      decide +kernel) (by decide +kernel)
  have hchild : childBlock smallRoot 0 = 7 := by decide +kernel
  refine ⟨hsome secondExtent (by decide +kernel) (by decide +kernel), hnone.2 (by decide +kernel), leaf, hleaf, ?_⟩
  refine (htree 1 smallRoot 1 7 smallRoot_wellFormed le_rfl rfl (fun l hl => ?_) 3).trans ?_
  · rw [newExtent_covers hl]
    refine ⟨firstLeaf, ?_⟩
    rw [descend_child (i := 0) (by decide +kernel) (by decide +kernel) (by rw [hchild]; rfl) firstLeaf_leaf.valid,
      descend_leaf firstLeaf_leaf.leaf, hchild]
  · rw [if_pos (by decide +kernel)]
    decide +kernel

end Small

end Zigix.Ext4
