import Zigix.Mm.VmaSpec

/-!
# What the areas say about an address

* `handleRangeRemoval_view` : removing a range empties it and changes nothing outside;
* `splitForProtect_view` : the new protection holds exactly on the range, within the area it starts in.
-/

namespace Zigix.Vma

open Slots Pmm

/-! ## Views -/

section
variable {β : Type*}

/-- `read` for the area that `findVma` finds. -/
def view (read : Vma → Nat → β) (list : VmaList) (a : Nat) : Option β := (findVma list a).map fun i => read (list i) a

/-- The area covers `a` and `read` gives `b` there. -/
def SaysAt (read : Vma → Nat → β) (v : Vma) (a : Nat) (b : β) : Prop := a ∈ v.range ∧ read v a = b

def Says (read : Vma → Nat → β) (list : VmaList) (a : Nat) (b : β) : Prop := ∃ i, SaysAt read (list i) a b

variable {read : Vma → Nat → β} {list list' : VmaList} {i j k : Fin maxVmas} {v w x : Vma} {a : Nat} {b : β}

theorem findVma_none_iff : findVma list a = none ↔ ∀ i, a ∉ (list i).range := by
  unfold findVma
  rw [Fin.find?_eq_none_iff]
  simp only [← contains_iff, Bool.not_eq_true]

theorem view_eq_some (h : NoOverlap list) : view read list a = some b ↔ Says read list a b := by
  unfold view
  rw [Option.map_eq_some_iff]
  constructor
  · rintro ⟨i, hfind, hread⟩
    exact ⟨i, findVma_some hfind, hread⟩
  · rintro ⟨i, hmem, hread⟩
    cases hfind : findVma list a with
    | none => exact absurd hmem (findVma_none_iff.1 hfind i)
    | some j =>
      have hij : i = j := by
        by_contra hne
        exact Set.disjoint_left.1 (h hne) hmem (findVma_some hfind)
      exact ⟨i, congrArg some hij.symm, hread⟩

theorem view_congr {read' : Vma → Nat → β} (h : NoOverlap list) (h' : NoOverlap list')
    (htells : ∀ b, Says read list' a b ↔ Says read' list a b) : view read list' a = view read' list a := by
  apply Option.ext
  intro b
  rw [view_eq_some h', view_eq_some h, htells]

theorem not_saysAt_free (h : v.inUse = false) : ¬ SaysAt read v a b := fun hs => absurd (h.symm.trans hs.1.1) nofun

section
variable {read' : Vma → Nat → β}

theorem says_update (hother : ∀ k, k ≠ i → (SaysAt read (list k) a b ↔ SaysAt read' (list k) a b))
    (hv : SaysAt read v a b ↔ SaysAt read' (list i) a b) :
    Says read (Function.update list i v) a b ↔ Says read' list a b := by
  refine exists_congr fun k => ?_
  by_cases hki : k = i
  · subst hki
    rw [Function.update_self]
    exact hv
  · rw [Function.update_of_ne hki]
    exact hother k hki

/-- Dividing an area into a part that stays in its slot and a part in a free one. -/
theorem says_split (hji : j ≠ i) (hfree : (list j).inUse = false)
    (hother : ∀ k, k ≠ i → (SaysAt read (list k) a b ↔ SaysAt read' (list k) a b))
    (hvw : SaysAt read v a b ∨ SaysAt read w a b ↔ SaysAt read' (list i) a b) :
    Says read (Function.update (Function.update list i v) j w) a b ↔ Says read' list a b := by
  constructor
  · rintro ⟨k, hk⟩
    by_cases hkj : k = j
    · subst hkj
      rw [Function.update_self] at hk
      exact ⟨i, hvw.1 (.inr hk)⟩
    rw [Function.update_of_ne hkj] at hk
    by_cases hki : k = i
    · subst hki
      rw [Function.update_self] at hk
      exact ⟨k, hvw.1 (.inl hk)⟩
    · rw [Function.update_of_ne hki] at hk
      exact ⟨k, (hother k hki).1 hk⟩
  · rintro ⟨k, hk⟩
    have hkj : k ≠ j := by
      rintro rfl
      exact not_saysAt_free hfree hk
    by_cases hki : k = i
    · subst hki
      rcases hvw.2 hk with hs | hs
      · exact ⟨k, by rwa [Function.update_of_ne hkj, Function.update_self]⟩
      · exact ⟨j, by rwa [Function.update_self]⟩
    · exact ⟨k, by rwa [Function.update_of_ne hkj, Function.update_of_ne hki, hother k hki]⟩

theorem says_split3 (hji : j ≠ i) (hki : k ≠ i) (hkj : k ≠ j) (hj : (list j).inUse = false)
    (hk : (list k).inUse = false)
    (hother : ∀ m, m ≠ i → (SaysAt read (list m) a b ↔ SaysAt read' (list m) a b))
    (hparts : SaysAt read v a b ∨ SaysAt read w a b ∨ SaysAt read x a b ↔ SaysAt read' (list i) a b) :
    Says read (Function.update (Function.update (Function.update list i v) j w) k x) a b ↔ Says read' list a b := by
  constructor
  · rintro ⟨m, hm⟩
    by_cases hmk : m = k
    · subst hmk
      rw [Function.update_self] at hm
      exact ⟨i, hparts.1 (.inr (.inr hm))⟩
    rw [Function.update_of_ne hmk] at hm
    by_cases hmj : m = j
    · subst hmj
      rw [Function.update_self] at hm
      exact ⟨i, hparts.1 (.inr (.inl hm))⟩
    rw [Function.update_of_ne hmj] at hm
    by_cases hmi : m = i
    · subst hmi
      rw [Function.update_self] at hm
      exact ⟨m, hparts.1 (.inl hm)⟩
    · rw [Function.update_of_ne hmi] at hm
      exact ⟨m, (hother m hmi).1 hm⟩
  · rintro ⟨m, hm⟩
    have hmj : m ≠ j := by
      rintro rfl
      exact not_saysAt_free hj hm
    have hmk : m ≠ k := by
      rintro rfl
      exact not_saysAt_free hk hm
    by_cases hmi : m = i
    · subst hmi
      rcases hparts.2 hm with hs | hs | hs
      · exact ⟨m, by rwa [Function.update_of_ne hmk, Function.update_of_ne hmj, Function.update_self]⟩
      · exact ⟨j, by rwa [Function.update_of_ne hkj.symm, Function.update_self]⟩
      · exact ⟨k, by rwa [Function.update_self]⟩
    · exact ⟨m, by rwa [Function.update_of_ne hmk, Function.update_of_ne hmj, Function.update_of_ne hmi, hother m hmi]⟩

end

end

def backing (v : Vma) (a : Nat) : Flags × Option Nat × Option Nat :=
  (v.flags, v.inode, v.inode.map fun _ => v.fileOffset + (a - v.start))

/-! ## A turn of a removal, seen from outside the range -/

section
variable {β : Type*} {read : Vma → Nat → β} {s e a : Nat} {list list' orig : VmaList} {i : Fin maxVmas} {b : β}

/-- What is left of `v` without the range says the same of `a` as `v` does. -/
structure SameCut (read : Vma → Nat → β) (s e a : Nat) (v : Vma) : Prop where
  left : v.start < s → a < s → read (v.left s) a = read v a
  piece : e < v.stop → e ≤ a → ∀ offset, v.offsetAt e = some offset →
    read (v.piece e v.stop v.flags offset (v.sizeFrom e)) a = read v a
  trim : e < v.stop → e ≤ a → ∀ offset, v.shiftedOffset e = some offset → read (v.trimStart e offset) a = read v a

theorem saysAt_iff {v w : Vma} (hmem : a ∈ w.range ↔ a ∈ v.range) (hread : a ∈ v.range → read w a = read v a) :
    SaysAt read w a b ↔ SaysAt read v a b := by
  constructor
  · rintro ⟨hw, rfl⟩
    exact ⟨hmem.1 hw, (hread (hmem.1 hw)).symm⟩
  · rintro ⟨hv, rfl⟩
    exact ⟨hmem.2 hv, hread hv⟩

theorem Turn.reading (h : Turn s e list i true list') (hse : s ≤ e) (ha : a < s ∨ e ≤ a)
    (hcut : Meets s e (list i) → SameCut read s e a (list i)) : Says read list' a b ↔ Says read list a b := by
  cases h with
  | clear => exact Iff.rfl
  | inside hm hstart hstop =>
    refine says_update (fun _ _ => Iff.rfl) (iff_of_false (not_saysAt_free rfl) ?_)
    rintro ⟨hmem, -⟩
    have := hmem.2
    omega
  | @split j offset hm hstart hstop hoff hji hfree =>
    have hsame := hcut hm
    refine says_split hji hfree (fun _ _ => Iff.rfl) ?_
    rcases ha with ha | ha
    · have hright :
          ¬ SaysAt read ((list i).piece e (list i).stop (list i).flags offset ((list i).sizeFrom e)) a b := by
        rintro ⟨hmem, -⟩
        have : e ≤ a := hmem.2.1
        omega
      rw [or_iff_left hright]
      exact saysAt_iff ((mem_left_iff hm.stop.le).trans (and_iff_left ha)) fun _ => hsame.left hstart ha
    · have hleft : ¬ SaysAt read ((list i).left s) a b := by
        rintro ⟨hmem, -⟩
        have : a < s := hmem.2.2
        omega
      rw [or_iff_right hleft]
      refine saysAt_iff ?_ fun _ => hsame.piece hstop ha _ hoff
      rw [mem_piece_iff hm.inUse hm.start.le le_rfl]
      exact and_iff_left_of_imp fun hmem => ⟨ha, hmem.2.2⟩
  | trimEnd hm hstart hstop =>
    refine says_update (fun _ _ => Iff.rfl) ?_
    rcases ha with ha | ha
    · exact saysAt_iff ((mem_left_iff hm.stop.le).trans (and_iff_left ha)) fun _ => (hcut hm).left hstart ha
    · refine iff_of_false ?_ ?_
      · rintro ⟨hmem, -⟩
        have : a < s := hmem.2.2
        omega
      · rintro ⟨hmem, -⟩
        have := hmem.2.2
        omega
  | trimStart hm hstart hstop hoff =>
    refine says_update (fun _ _ => Iff.rfl) ?_
    rcases ha with ha | ha
    · refine iff_of_false ?_ ?_
      · rintro ⟨hmem, -⟩
        have : e ≤ a := hmem.2.1
        omega
      · rintro ⟨hmem, -⟩
        have := hmem.2.1
        omega
    · refine saysAt_iff ?_ fun _ => (hcut hm).trim hstop ha _ hoff
      have hle : (list i).start ≤ a := hm.start.le.trans ha
      exact ⟨fun hmem => ⟨hmem.1, hle, hmem.2.2⟩, fun hmem => ⟨hmem.1, ha, hmem.2.2⟩⟩

theorem removeLoop_reading (hse : s ≤ e) (ha : a < s ∨ e ≤ a) {is : List (Fin maxVmas)} (hnodup : is.Nodup)
    (horig : ∀ j ∈ is, list j = orig j ∨ Clear s e (list j))
    (hcut : ∀ j ∈ is, Meets s e (orig j) → SameCut read s e a (orig j))
    (h : removeLoop s e is list = some (true, list')) : Says read list' a b ↔ Says read list a b := by
  induction is generalizing list with
  | nil =>
    cases h
    exact Iff.rfl
  | cons i is ih =>
    obtain ⟨hi, hnodup⟩ := List.nodup_cons.1 hnodup
    rw [removeLoop] at h
    rcases hr : removeFrom s e list i with - | ⟨done, list₁⟩
    · rw [hr] at h
      cases h
    rw [hr] at h
    cases done with
    | false => cases h
    | true =>
      have hturn := removeFrom_turn hr
      have hstep : Says read list₁ a b ↔ Says read list a b := hturn.reading hse ha fun hm => by
        rcases horig i List.mem_cons_self with heq | hclear
        · rw [heq] at hm ⊢
          exact hcut i List.mem_cons_self hm
        · have h₁ := hm.inUse
          have h₂ := hm.stop
          have h₃ := hm.start
          rcases hclear with hc | hc | hc
          · rw [hc] at h₁
            cases h₁
          · omega
          · omega
      refine (ih hnodup (fun j hj => ?_) (fun j hj => hcut j (List.mem_cons_of_mem _ hj)) h).trans hstep
      have hji : j ≠ i := by
        rintro rfl
        exact hi hj
      rcases hturn.others hji with heq | ⟨-, hclear⟩
      · rw [heq]
        exact horig j (List.mem_cons_of_mem _ hj)
      · exact .inr hclear

end

/-! ## Removing a range -/

section
variable {s e a : Nat} {list list' : VmaList} {b : Bool}

theorem position_cut {v : Vma} {cut offset : Nat} (hstart : v.start ≤ cut) (ha : cut ≤ a)
    (hoff : v.inode.isSome → offset = v.fileOffset + (cut - v.start)) :
    (v.inode.map fun _ => offset + (a - cut)) = v.inode.map fun _ => v.fileOffset + (a - v.start) := by
  cases hi : v.inode with
  | none => rfl
  | some ino =>
    have := hoff (by rw [hi]; rfl)
    show some (offset + (a - cut)) = some (v.fileOffset + (a - v.start))
    congr 1
    omega

theorem sameCut_backing {v : Vma} (hm : v.start ≤ e) : SameCut backing s e a v where
  left _ _ := rfl
  piece _ ha offset hoff := by
    show (v.flags, v.inode, v.inode.map fun _ => offset + (a - e)) = _
    rw [position_cut hm ha (offsetAt_some hoff)]
    rfl
  trim _ ha offset hoff := by
    show (v.flags, v.inode, v.inode.map fun _ => offset + (a - e)) = _
    rw [position_cut hm ha (shiftedOffset_some hoff)]
    rfl

theorem handleRangeRemoval_noOverlap (h : NoOverlap list) (hse : s ≤ e)
    (hr : handleRangeRemoval list s e = some (b, list')) : NoOverlap list' := ((handleRangeRemoval_spec hse hr).1 h).1

/-- **Range removal**: nothing covers the range any more, and every address outside keeps its protection, its inode
and its position in the file. -/
theorem handleRangeRemoval_view (h : NoOverlap list) (hse : s ≤ e)
    (hr : handleRangeRemoval list s e = some (true, list')) :
    NoOverlap list' ∧ (∀ a, s ≤ a → a < e → findVma list' a = none) ∧
      ∀ a, a < s ∨ e ≤ a → view backing list' a = view backing list a := by
  have h' := handleRangeRemoval_noOverlap h hse hr
  refine ⟨h', fun a hs he => ?_, fun a ha => ?_⟩
  · have hempty := (handleRangeRemoval_spec hse hr).2.1 rfl
    refine findVma_none_iff.2 fun i hi => ?_
    exact Set.disjoint_left.1 hempty ⟨hs, he⟩ (mem_covered.2 ⟨i, hi⟩)
  · exact view_congr h h' fun _ => removeLoop_reading hse ha (List.nodup_finRange _) (fun _ _ => .inl rfl)
      (fun _ _ hm => sameCut_backing hm.start.le) hr

end

theorem noOverlap_single (v : Vma) : NoOverlap (Function.update emptyVmaList 0 v) := by
  have hempty : ∀ i, ranges emptyVmaList i = ∅ := fun i => range_eq_empty rfl
  rw [NoOverlap, ranges_update]
  refine Apart.replace (fun i j _ => ?_) fun k _ => ?_
  · show Disjoint (ranges emptyVmaList i) (ranges emptyVmaList j)
    rw [hempty i]
    exact Set.empty_disjoint _
  · rw [hempty k]
    exact Set.disjoint_empty _

def fourPages : Vma :=
  { start := 0x1000, stop := 0x5000, flags := { read := true, user := true }, inUse := true, inode := some 7,
    fileOffset := 0x2000, fileSize := 0 }

def fourPagesTable : VmaList := Function.update emptyVmaList 0 fourPages

/-- The second page is removed: the third one is still the fifth page of the file. -/
theorem handleRangeRemoval_view_middle : ∃ list',
    handleRangeRemoval fourPagesTable 0x2000 0x3000 = some (true, list') ∧
      view backing list' 0x3000 = some ({ read := true, user := true }, some 7, some 0x4000) := by
  have hdone : (handleRangeRemoval fourPagesTable 0x2000 0x3000).map Prod.fst = some true := by decide +kernel
  obtain ⟨⟨b, list'⟩, hr, rfl⟩ := Option.map_eq_some_iff.1 hdone
  refine ⟨list', hr, ?_⟩
  rw [(handleRangeRemoval_view (noOverlap_single _) (by decide) hr).2.2 0x3000 (.inr (by decide))]
  decide +kernel

/-- `backing` with a position also where there is no file. -/
def position (v : Vma) (a : Nat) : Flags × Option Nat × Nat := (v.flags, v.inode, v.fileOffset + (a - v.start))

def fourAnonymous : Vma := { fourPages with inode := none, fileOffset := 0 }

/-- An anonymous area has no file: its `file_offset` stays 0 when its start is cut off. -/
theorem position_of_anonymous : ¬ ∀ (list list' : VmaList) (s e : Nat), NoOverlap list → s ≤ e →
    s % 4096 = 0 → e % 4096 = 0 → handleRangeRemoval list s e = some (true, list') →
    ∀ a, a < s ∨ e ≤ a → view position list' a = view position list a := by
  intro hall
  have hdone : (handleRangeRemoval (Function.update emptyVmaList 0 fourAnonymous) 0x1000 0x2000).map (fun r =>
      (r.1, view position r.2 0x3000)) = some (true, some ({ read := true, user := true }, none, 0x1000)) := by
    decide +kernel
  obtain ⟨⟨b, list'⟩, hr, heq⟩ := Option.map_eq_some_iff.1 hdone
  obtain ⟨rfl, hafter⟩ := Prod.mk.inj heq
  have hview := hall _ list' 0x1000 0x2000 (noOverlap_single _) (by decide) (by decide) (by decide) hr 0x3000
    (.inr (by decide))
  rw [hafter] at hview
  revert hview
  decide +kernel

/-! ## Changing the protection of a range -/

section
variable {s e c a : Nat} {list list' : VmaList} {i : Fin maxVmas} {flags : Flags} {b : Bool}

theorem saysAt_part {β : Type*} {read read' : Vma → Nat → β} {v w : Vma} {p : Prop} {b : β}
    (hmem : a ∈ w.range ↔ a ∈ v.range ∧ p) (hread : a ∈ w.range → read w a = read' v a) :
    SaysAt read w a b ↔ SaysAt read' v a b ∧ p := by
  constructor
  · rintro ⟨hw, rfl⟩
    obtain ⟨hv, hp⟩ := hmem.1 hw
    exact ⟨⟨hv, (hread hw).symm⟩, hp⟩
  · rintro ⟨⟨hv, rfl⟩, hp⟩
    have hw := hmem.2 ⟨hv, hp⟩
    exact ⟨hw, hread hw⟩

/-- The areas that a split makes of `v`. -/
inductive Part (s c : Nat) (flags : Flags) (v : Vma) : Vma → Prop
  | whole : s = v.start → c = v.stop → Part s c flags v { v with flags }
  | front : s = v.start → c < v.stop → Part s c flags v { v.left c with flags }
  | before : v.start < s → Part s c flags v (v.left s)
  | within {offset} : v.start < s → c < v.stop → v.offsetAt s = some offset →
      Part s c flags v (v.piece s c flags offset (min (v.sizeFrom s) (c - s)))
  | back {offset} : v.start < s → c = v.stop → v.offsetAt s = some offset →
      Part s c flags v (v.piece s v.stop flags offset (v.sizeFrom s))
  | behind {offset} : v.start ≤ c → c < v.stop → v.offsetAt c = some offset →
      Part s c flags v (v.piece c v.stop v.flags offset (v.sizeFrom c))

/-- **A split** says of every address what its parts say. -/
theorem Divided.reading {β : Type*} {read read' : Vma → Nat → β} {b : β} (h : Divided s c flags list i true list')
    (hs : s ∈ (list i).range) (hsc : s < c) (hc : c ≤ (list i).stop)
    (hother : ∀ k, k ≠ i → a ∈ (list k).range → read (list k) a = read' (list k) a)
    (hpart : ∀ w, Part s c flags (list i) w → a ∈ w.range → read w a = read' (list i) a) :
    Says read list' a b ↔ Says read' list a b := by
  have hu := hs.1
  have htells : ∀ k, k ≠ i → (SaysAt read (list k) a b ↔ SaysAt read' (list k) a b) := fun k hki =>
    and_congr_right fun hmem => by rw [hother k hki hmem]
  have hpiece : ∀ {start stop offset size : Nat} {fl : Flags}, (list i).start ≤ start → stop ≤ (list i).stop →
      (a ∈ ((list i).piece start stop fl offset size).range ↔ a ∈ (list i).range ∧ start ≤ a ∧ a < stop) :=
    mem_piece_iff hu
  have hend : a ∈ (list i).range → a < (list i).stop := fun hmem => hmem.2.2
  cases h with
  | whole hstart hstop =>
    refine says_update htells (and_congr_right fun hmem => ?_)
    rw [hpart _ (.whole hstart hstop) hmem]
  | front hstart hstop hoff hji hfree =>
    have hle : (list i).start ≤ c := by omega
    refine says_split hji hfree htells ?_
    have hmem : a ∈ Vma.range { (list i).left c with flags } ↔ a ∈ (list i).range ∧ a < c := mem_left_iff hc
    rw [saysAt_part hmem (hpart _ (.front hstart hstop)), saysAt_part (hpiece hle le_rfl)
      (hpart _ (.behind hle hstop hoff)), ← and_or_left]
    refine and_iff_left_of_imp fun hv => ?_
    have := hend hv.1
    omega
  | back hstart hstop hoff hji hfree =>
    refine says_split hji hfree htells ?_
    rw [saysAt_part (mem_left_iff hs.2.2.le) (hpart _ (.before hstart)),
      saysAt_part (hpiece hstart.le le_rfl) (hpart _ (.back hstart hstop hoff)), ← and_or_left]
    refine and_iff_left_of_imp fun hv => ?_
    have := hend hv.1
    omega
  | middle hstart hstop hoff hoff' hji hki hkj hj hk =>
    have hle : (list i).start ≤ c := by omega
    refine says_split3 hji hki hkj hj hk htells ?_
    rw [saysAt_part (mem_left_iff hs.2.2.le) (hpart _ (.before hstart)),
      saysAt_part (hpiece hstart.le hc) (hpart _ (.within hstart hstop hoff)),
      saysAt_part (hpiece hle le_rfl) (hpart _ (.behind hle hstop hoff')), ← and_or_left, ← and_or_left]
    refine and_iff_left_of_imp fun hv => ?_
    have := hend hv.1
    omega

/-- `backing` with the protection `flags` on `[s, c)`. -/
def reprotected (flags : Flags) (s c : Nat) (v : Vma) (a : Nat) : Flags × Option Nat × Option Nat :=
  if s ≤ a ∧ a < c then (flags, (backing v a).2) else backing v a

theorem backing_piece {v : Vma} {cut stop offset size : Nat} (hcut : v.start ≤ cut) (ha : cut ≤ a)
    (hoff : v.offsetAt cut = some offset) :
    backing (v.piece cut stop flags offset size) a = (flags, (backing v a).2) := by
  show (flags, v.inode, v.inode.map fun _ => offset + (a - cut)) = _
  rw [position_cut hcut ha (offsetAt_some hoff)]
  rfl

theorem Part.backing_eq {v w : Vma} (h : Part s c flags v w) (ha : a ∈ w.range) :
    backing w a = reprotected flags s c v a := by
  have hin : s ≤ a → a < c → reprotected flags s c v a = (flags, (backing v a).2) := fun h₁ h₂ => if_pos ⟨h₁, h₂⟩
  have hout : (a < s ∨ c ≤ a) → reprotected flags s c v a = backing v a := fun h => if_neg (by omega)
  cases h with
  | whole hstart hstop =>
    have hlow : v.start ≤ a := ha.2.1
    have hhigh : a < v.stop := ha.2.2
    rw [hin (by omega) (by omega)]
    rfl
  | front hstart hstop =>
    have hlow : v.start ≤ a := ha.2.1
    have hhigh : a < c := ha.2.2
    rw [hin (by omega) hhigh]
    rfl
  | before hstart =>
    have hhigh : a < s := ha.2.2
    rw [hout (.inl hhigh)]
    rfl
  | within hstart hstop hoff =>
    rw [hin ha.2.1 ha.2.2, backing_piece hstart.le ha.2.1 hoff]
  | back hstart hstop hoff =>
    have hhigh : a < v.stop := ha.2.2
    rw [hin ha.2.1 (by omega), backing_piece hstart.le ha.2.1 hoff]
  | behind hle hstop hoff =>
    have hlow : c ≤ a := ha.2.1
    rw [hout (.inr hlow), backing_piece hle hlow hoff]
    rfl

theorem offsetAt_fits {v : Vma} {cut : Nat} (h : v.inode.isSome → v.fileOffset + (v.stop - v.start) < 2 ^ 64)
    (hcut : cut ≤ v.stop) : ∃ offset, v.offsetAt cut = some offset := by
  unfold offsetAt addU64
  by_cases hi : v.inode.isSome
  · have := h hi
    rw [if_pos hi, if_pos (by omega)]
    exact ⟨_, rfl⟩
  · rw [if_neg hi]
    exact ⟨_, rfl⟩

theorem splitForProtect_returns (e : Nat) (flags : Flags) (hfit : ∀ i, findVma list s = some i →
    (list i).inode.isSome → (list i).fileOffset + ((list i).stop - (list i).start) < 2 ^ 64) :
    (splitForProtect list s e flags).isSome := by
  unfold splitForProtect
  cases hfind : findVma list s with
  | none => rfl
  | some i =>
    have hs := (findVma_some hfind).2.2
    have hfits : ∀ {cut}, cut ≤ (list i).stop → ∃ offset, (list i).offsetAt cut = some offset :=
      offsetAt_fits (hfit i hfind)
    simp only
    generalize hc : (if e > (list i).stop then (list i).stop else e) = c
    have hcs : c ≤ (list i).stop := by
      rw [← hc]
      split <;> omega
    obtain ⟨offset, hoff⟩ := hfits hs.le
    obtain ⟨offset', hoff'⟩ := hfits hcs
    rw [hoff, hoff']
    simp only [Option.bind_eq_bind, Option.bind_some]
    split
    · rfl
    split
    · split <;> rfl
    split
    · split <;> rfl
    · split <;> rfl

/-- **Protection split**: a refusal changes nothing. Otherwise the area that covers the start of the range has the new
protection exactly on the range, and inode and position in the file stay what they were at every address. -/
theorem splitForProtect_view (flags : Flags) (h : NoOverlap list) (hse : s < e) :
    ((∀ i, findVma list s = some i → (list i).inode.isSome →
      (list i).fileOffset + ((list i).stop - (list i).start) < 2 ^ 64) → (splitForProtect list s e flags).isSome) ∧
    ∀ b list', splitForProtect list s e flags = some (b, list') → (b = false → list' = list) ∧
      (b = true → NoOverlap list' ∧ ∃ i, s ∈ (list i).range ∧
        (∀ a ∈ (list i).range, s ≤ a → a < e → view backing list' a = some (flags, (backing (list i) a).2)) ∧
        ∀ a, ¬ (a ∈ (list i).range ∧ s ≤ a ∧ a < e) → view backing list' a = view backing list a) := by
  refine ⟨splitForProtect_returns e flags, fun b list' hr => ⟨?_, ?_⟩⟩
  · rintro rfl
    cases hfind : findVma list s with
    | none =>
      unfold splitForProtect at hr
      rw [hfind] at hr
      cases hr
      rfl
    | some i =>
      cases splitForProtect_divided hfind hr
      rfl
  · rintro rfl
    have h' := (splitForProtect_spec hse hr h).1
    cases hfind : findVma list s with
    | none =>
      unfold splitForProtect at hr
      rw [hfind] at hr
      cases hr
    | some i =>
      have hs := findVma_some hfind
      have hother : ∀ {a} k, k ≠ i → a ∈ (list k).range →
          backing (list k) a = reprotected flags s (min e (list i).stop) (list k) a := by
        intro a k hki hk
        refine (if_neg fun hin => ?_).symm
        have hai : a ∈ (list i).range := ⟨hs.1, hs.2.1.trans hin.1, hin.2.trans_le (min_le_right _ _)⟩
        exact Set.disjoint_left.1 (h hki) hk hai
      have hsc := lt_min hse hs.2.2
      have htells : ∀ a, view backing list' a = view (reprotected flags s (min e (list i).stop)) list a := fun a =>
        view_congr h h' fun _ => (splitForProtect_divided hfind hr).reading hs hsc (min_le_right _ _) hother
          fun w hw => hw.backing_eq
      refine ⟨h', i, hs, fun a ha has hae => ?_, fun a ha => ?_⟩
      · rw [htells, view_eq_some h]
        refine ⟨i, ha, ?_⟩
        rw [reprotected, if_pos ⟨has, lt_min hae ha.2.2⟩]
      · rw [htells]
        refine view_congr h h fun b => exists_congr fun j => and_congr_right fun haj => ?_
        rw [reprotected, if_neg fun hin => ?_]
        have hai : a ∈ (list i).range := ⟨hs.1, hs.2.1.trans hin.1, hin.2.trans_le (min_le_right _ _)⟩
        exact ha ⟨hai, hin.1, hin.2.trans_le (min_le_left _ _)⟩

end

/-- The second page becomes writable: it is still the fourth page of the file. -/
theorem splitForProtect_view_middle : ∃ list', splitForProtect fourPagesTable 0x2000 0x3000
      { read := true, write := true, user := true } = some (true, list') ∧
    view backing list' 0x2000 = some ({ read := true, write := true, user := true }, some 7, some 0x3000) := by
  have hno : NoOverlap fourPagesTable := noOverlap_single fourPages
  have hse : 0x2000 < 0x3000 := by decide
  have hdone : (splitForProtect fourPagesTable 0x2000 0x3000
      { read := true, write := true, user := true }).map Prod.fst = some true := by decide +kernel
  obtain ⟨⟨b, list'⟩, hr, rfl⟩ := Option.map_eq_some_iff.1 hdone
  obtain ⟨-, i, hs, hin, -⟩ := ((splitForProtect_view _ hno hse).2 _ _ hr).2 rfl
  refine ⟨list', hr, ?_⟩
  have hi : i = 0 := by
    by_contra hne
    have hu := hs.1
    rw [fourPagesTable, Function.update_of_ne hne] at hu
    cases hu
  subst hi
  rw [hin 0x2000 hs (by decide) (by decide)]
  decide +kernel

/-- Two adjacent areas of a file, and one of no file behind them. -/
def adjacentTable : VmaList := Function.update (Function.update (Function.update emptyVmaList 0 fourPages) 1
  { fourPages with start := 0x5000, stop := 0x9000 }) 2 { fourAnonymous with start := 0x9000, stop := 0xd000 }

theorem mem_adjacentTable {k : Fin maxVmas} {a : Nat} (h : a ∈ (adjacentTable k).range) :
    (k = 0 ∧ 0x1000 ≤ a ∧ a < 0x5000) ∨ (k = 1 ∧ 0x5000 ≤ a ∧ a < 0x9000) ∨ (k = 2 ∧ 0x9000 ≤ a ∧ a < 0xd000) := by
  unfold adjacentTable at h
  by_cases h₂ : k = 2
  · rw [h₂, Function.update_self] at h
    exact .inr (.inr ⟨h₂, h.2⟩)
  rw [Function.update_of_ne h₂] at h
  by_cases h₁ : k = 1
  · rw [h₁, Function.update_self] at h
    exact .inr (.inl ⟨h₁, h.2⟩)
  rw [Function.update_of_ne h₁] at h
  by_cases h₀ : k = 0
  · rw [h₀, Function.update_self] at h
    exact .inl ⟨h₀, h.2⟩
  · rw [Function.update_of_ne h₀] at h
    exact absurd h.1 nofun

theorem noOverlap_adjacentTable : NoOverlap adjacentTable := by
  intro i j hij
  refine Set.disjoint_left.2 fun a hi hj => hij ?_
  have h₁ := mem_adjacentTable hi
  have h₂ := mem_adjacentTable hj
  omega

def writableFlags : Flags := { read := true, write := true, user := true }

/-- A range may reach into a second area, whose protection stays; and the new part of an area without a file starts
again at position 0. -/
theorem splitForProtect_stops_at_area : NoOverlap adjacentTable ∧
    (splitForProtect adjacentTable 0x4000 0x6000 writableFlags).map Prod.fst = some true ∧
    (splitForProtect adjacentTable 0x4000 0x6000 writableFlags).bind (fun r => view backing r.2 0x4000) =
      some (writableFlags, some 7, some 0x5000) ∧
    (splitForProtect adjacentTable 0x4000 0x6000 writableFlags).bind (fun r => view backing r.2 0x5000) =
      some ({ read := true, user := true }, some 7, some 0x2000) ∧
    (splitForProtect adjacentTable 0xa000 0xd000 writableFlags).bind (fun r => view position r.2 0xa000) =
      some (writableFlags, none, 0) ∧
    view position adjacentTable 0xa000 = some ({ read := true, user := true }, none, 0x1000) := by
  refine ⟨noOverlap_adjacentTable, ?_⟩
  decide +kernel

end Zigix.Vma
