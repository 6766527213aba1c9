import Zigix.Mm.Fault
import Zigix.Mm.VmaView

/-!
# What a page of an area is filled with, before and after a cut

* `cuts_keep_contents_iff` : a removal and a change of protection keep the contents of all remaining pages exactly if
  no cut is such.
-/

namespace Zigix.Vma

open Pmm Fault

/-- What `handleDemandPage` fills the frame of page `a` with: the outcome and the words of the frame. -/
def pageContents (v : Vma) (a : Nat) : FileSystem → Nat → Machine → Option (Bool × (Nat → Pte.Word)) :=
  fun fs f m => (fillPage fs v a f (m.zeroPage f)).map fun r => (r.1, r.2.mem f)

/-- The bytes of page `a` that come from the file: the others stay zero. -/
def fileWindow (v : Vma) (a : Nat) : Nat :=
  if v.fileSize = 0 then Pmm.pageSize else min (v.fileSize - (a - v.start)) Pmm.pageSize

/-- Inode, position in the file and number of the bytes of page `a` that come from a file. -/
def fileData (v : Vma) (a : Nat) : Option (Nat × Nat × Nat) :=
  v.inode.map fun ino => (ino, v.fileOffset + (a - v.start), v.fileWindow a)

section
variable {v w : Vma} {a : Nat} {fs : FileSystem} {f : Nat} {m : Machine}

theorem unread_iff : 0 < v.fileSize ∧ v.fileSize ≤ a - v.start ↔ v.fileWindow a = 0 := by
  unfold fileWindow Pmm.pageSize
  split <;> omega

theorem isBssBoundary_eq :
    isBssBoundary v (a - v.start) = decide (0 < v.fileWindow a ∧ v.fileWindow a < Pmm.pageSize) := by
  rw [isBssBoundary, ← Bool.decide_and, ← Bool.decide_and, decide_eq_decide]
  unfold fileWindow Pmm.pageSize
  split <;> omega

theorem readLen_eq : readLen v (a - v.start) = v.fileWindow a := by
  unfold readLen fileWindow
  by_cases h : v.fileSize = 0
  · rw [if_pos h, if_neg (by omega)]
  · rw [if_neg h, if_pos (by omega)]

theorem fillPage_eq (hle : v.start ≤ a) : fillPage fs v a f m =
    match v.inode with
    | none => some (true, m)
    | some ptr => if v.fileWindow a = 0 then some (true, m)
      else (addU64 v.fileOffset (a - v.start)).map fun filePos =>
        fillFromFile fs v (fs.inode ptr) (a - v.start) filePos f m := by
  unfold fillPage
  cases v.inode with
  | none => rfl
  | some ptr =>
    simp only
    rw [subU64, if_pos hle, Option.bind_eq_bind, Option.bind_some]
    by_cases hunread : v.fileWindow a = 0
    · rw [if_pos hunread, if_pos (unread_iff.2 hunread)]
    · rw [if_neg hunread, if_neg (mt unread_iff.1 hunread)]
      cases addU64 v.fileOffset (a - v.start) <;> rfl

theorem fillFromFile_congr {inode : Ext2.Inode} {filePos : Nat} (hwin : w.fileWindow a = v.fileWindow a) :
    fillFromFile fs w inode (a - w.start) filePos f m = fillFromFile fs v inode (a - v.start) filePos f m := by
  unfold fillFromFile
  rw [isBssBoundary_eq, isBssBoundary_eq, readLen_eq, readLen_eq, hwin]

/-- **`fileData` decides the contents.** -/
theorem pageContents_congr (hw : w.start ≤ a) (hv : v.start ≤ a) (hdata : fileData w a = fileData v a) :
    pageContents w a = pageContents v a := by
  funext fs f m
  unfold pageContents
  rw [fillPage_eq hw, fillPage_eq hv]
  unfold fileData at hdata
  cases hino : v.inode with
  | none =>
    rw [hino, Option.map_none, Option.map_eq_none_iff] at hdata
    rw [hdata]
  | some ptr =>
    rw [hino, Option.map_some, Option.map_eq_some_iff] at hdata
    obtain ⟨ptr', hino', heq⟩ := hdata
    obtain ⟨rfl, hpos, hwin⟩ : ptr' = ptr ∧ w.fileOffset + (a - w.start) = v.fileOffset + (a - v.start) ∧
        w.fileWindow a = v.fileWindow a := by simpa only [Prod.mk.injEq] using heq
    rw [hino']
    simp only [hwin]
    unfold addU64
    rw [hpos]
    by_cases hfit : v.fileOffset + (a - v.start) < 2 ^ 64
    · rw [if_pos hfit, Option.map_some, Option.map_some, fillFromFile_congr hwin]
    · rw [if_neg hfit, Option.map_none, Option.map_none]

theorem pageContents_below (hino : w.inode = v.inode) (hstart : w.start = v.start) (hlt : a < v.start) :
    pageContents w a = pageContents v a := by
  funext fs f m
  unfold pageContents fillPage
  rw [hino, hstart, subU64, if_neg (not_le.2 hlt)]
  cases v.inode <;> rfl

/-! ## A page behind the file data -/

theorem pageContents_behind (hle : v.start ≤ a) (hwin : v.fileWindow a = 0) :
    pageContents v a fs f m = some (true, fun _ => 0) := by
  unfold pageContents
  rw [fillPage_eq hle]
  have hmem : (m.zeroPage f).mem f = fun _ => 0 := Function.update_self ..
  cases v.inode with
  | none =>
    simp only [Option.map_some]
    rw [hmem]
  | some ptr =>
    simp only
    rw [if_pos hwin, Option.map_some, hmem]

/-- A machine whose page cache has page `filePos` of inode 1, all ones. -/
def cachedOnes (filePos : Nat) : Machine :=
  { Machine.boot with
    mem := fun f _ => if f = 600 then 1 else 0
    cache := [{ inodeNum := 1, pageIndex := pageIndex filePos, frame := 600, dirty := false }] }

def cacheOnly : FileSystem where
  disk := { blockSize := 4096, readBlock := fun _ => none }
  inode _ := { ino := 1, size := 2 ^ 40, getFileBlock := fun _ => none, hasRead := true }

theorem pageContents_whole {ptr : Nat} (hino : v.inode = some ptr) (hle : v.start ≤ a)
    (hwin : v.fileWindow a = Pmm.pageSize) (hfit : v.fileOffset + (a - v.start) < 2 ^ 64) :
    pageContents v a cacheOnly 601 (cachedOnes (v.fileOffset + (a - v.start))) = some (true, fun _ => 1) := by
  have hbss : isBssBoundary v (a - v.start) = false := by
    rw [isBssBoundary_eq, hwin]
    rfl
  unfold pageContents
  rw [fillPage_eq hle, hino]
  simp only
  rw [hwin, if_neg (by decide), addU64, if_pos hfit, Option.map_some, Option.map_some]
  unfold fillFromFile
  rw [hbss]
  generalize v.fileOffset + (a - v.start) = filePos
  have hlook : ((cachedOnes filePos).zeroPage 601).lookup ((cacheOnly.inode ptr).ino % 2 ^ 32) (pageIndex filePos) =
      (some 600, (cachedOnes filePos).zeroPage 601) := by
    have hkey : PageCache.Entry.hasKey 1 (pageIndex filePos)
        { inodeNum := 1, pageIndex := pageIndex filePos, frame := 600, dirty := false } = true := by
      simp [PageCache.Entry.hasKey]
    show Machine.lookup _ 1 (pageIndex filePos) = _
    simp only [Machine.lookup, PageCache.lookup, cachedOnes, Machine.zeroPage, Machine.setPage, List.find?_cons, hkey,
      List.eraseP_cons, cond_true]
  simp only [Bool.false_eq_true, if_false]
  rw [hlook]
  rfl

/-- **The same page behind the data of `v` and at the start of a part without `file_size`.** -/
theorem pageContents_ne {ptr : Nat} (hv : v.start ≤ a) (hbehind : v.fileWindow a = 0) (hino : w.inode = some ptr)
    (hw : w.start ≤ a) (hsize : w.fileSize = 0) (hfit : w.fileOffset + (a - w.start) < 2 ^ 64) :
    pageContents w a ≠ pageContents v a := by
  intro heq
  have hone := congrFun (congrFun (congrFun heq cacheOnly) 601) (cachedOnes (w.fileOffset + (a - w.start)))
  have hwin : w.fileWindow a = Pmm.pageSize := if_pos hsize
  rw [pageContents_whole hino hw hwin hfit, pageContents_behind hv hbehind] at hone
  have hword := congrFun (Prod.mk.inj (Option.some.inj hone)).2 0
  exact absurd hword (by decide)

end

/-! ## Cuts -/

/-- The cut leaves a part of the file-backed area `v` that starts behind its file data. -/
structure CutBehindData (cut : Nat) (v : Vma) : Prop where
  inUse : v.inUse = true
  inode : v.inode.isSome
  data : 0 < v.fileSize
  behind : v.fileSize ≤ cut - v.start
  start : v.start < cut
  stop : cut < v.stop

section
variable {v w : Vma} {s c e a cut stop offset size : Nat} {flags : Flags}

theorem fileWindow_left (hv : v.start % 4096 = 0) (hc : cut % 4096 = 0) (ha : a % 4096 = 0) (hstart : v.start ≤ a)
    (hlt : a < cut) : (v.left cut).fileWindow a = v.fileWindow a := by
  have hsize : (v.left cut).fileSize = if v.fileSize > cut - v.start then cut - v.start else v.fileSize := rfl
  have hlow : (v.left cut).start = v.start := rfl
  unfold fileWindow Pmm.pageSize
  rw [hsize, hlow]
  grind

theorem fileWindow_behind (hw : w.start = cut) (hsize : w.fileSize = v.sizeFrom cut) (hstart : v.start ≤ cut)
    (hle : cut ≤ a) (hcut : ¬ (0 < v.fileSize ∧ v.fileSize ≤ cut - v.start)) : w.fileWindow a = v.fileWindow a := by
  unfold fileWindow Pmm.pageSize
  rw [hsize, hw, sizeFrom]
  split <;> split <;> split <;> omega

theorem fileWindow_within (hw : w.start = s) (hsize : w.fileSize = min (v.sizeFrom s) (c - s)) (hs : s % 4096 = 0)
    (hc : c % 4096 = 0) (ha : a % 4096 = 0) (hstart : v.start ≤ s) (hle : s ≤ a) (hlt : a < c)
    (hcut : ¬ (0 < v.fileSize ∧ v.fileSize ≤ s - v.start)) : w.fileWindow a = v.fileWindow a := by
  unfold fileWindow Pmm.pageSize
  rw [hsize, hw, sizeFrom]
  split <;> split <;> split <;> omega

theorem fileData_eq (hino : w.inode = v.inode) (hpos : v.inode.isSome → w.fileOffset + (a - w.start) =
    v.fileOffset + (a - v.start)) (hwin : v.inode.isSome → w.fileWindow a = v.fileWindow a) :
    fileData w a = fileData v a := by
  unfold fileData
  rw [hino]
  cases hv : v.inode with
  | none => rfl
  | some ptr =>
    have hsome : v.inode.isSome := by
      rw [hv]
      rfl
    rw [Option.map_some, Option.map_some, hpos hsome, hwin hsome]

theorem not_behind (hu : v.inUse = true) (hcut : ¬ CutBehindData cut v) (hstart : v.start < cut) (hstop : cut < v.stop)
    (hino : v.inode.isSome) : ¬ (0 < v.fileSize ∧ v.fileSize ≤ cut - v.start) :=
  fun h => hcut ⟨hu, hino, h.1, h.2, hstart, hstop⟩

/-! ## Removing a range -/

theorem sameCut_contents (hv : v.start % 4096 = 0) (hs : s % 4096 = 0) (ha : a % 4096 = 0) (hm : Meets s e v)
    (hcut : ¬ CutBehindData e v) : SameCut pageContents s e a v := by
  have hbehind : ∀ {w : Vma} {offset}, e < v.stop → e ≤ a → w.inode = v.inode → w.start = e → w.fileOffset = offset →
      w.fileSize = v.sizeFrom e → (v.inode.isSome → offset = v.fileOffset + (e - v.start)) →
      pageContents w a = pageContents v a := by
    intro w offset hstop hea hino hstart hoffset hsize hoff
    have hle : v.start ≤ a := hm.start.le.trans hea
    refine pageContents_congr (hstart.le.trans hea) hle (fileData_eq hino (fun hi => ?_) fun hi => ?_)
    · have h₁ := hoff hi
      have h₂ := hm.start
      rw [hoffset, hstart]
      omega
    · exact fileWindow_behind hstart hsize hm.start.le hea (not_behind hm.inUse hcut hm.start hstop hi)
  constructor
  · intro hstart hlt
    by_cases hle : v.start ≤ a
    · have hwin := fileWindow_left hv hs ha hle hlt
      exact pageContents_congr hle hle (fileData_eq rfl (fun _ => rfl) fun _ => hwin)
    · exact pageContents_below rfl rfl (not_le.1 hle)
  · intro hstop hea offset hoff
    exact hbehind hstop hea rfl rfl rfl rfl (offsetAt_some hoff)
  · intro hstop hea offset hoff
    exact hbehind hstop hea rfl rfl rfl rfl (shiftedOffset_some hoff)

end

section
variable {list list' : VmaList} {i j : Fin maxVmas} {s e cut : Nat} {flags : Flags} {b : Bool}

theorem view_ne_of_cut (h : NoOverlap list) (h' : NoOverlap list') (hcut : CutBehindData cut (list i))
    (hmem : cut ∈ (list' j).range) (hino : (list' j).inode = (list i).inode) (hstart : (list' j).start = cut)
    (hsize : (list' j).fileSize = 0) (hfit : (list' j).fileOffset < 2 ^ 64) :
    view pageContents list' cut ≠ view pageContents list cut := by
  intro heq
  obtain ⟨ptr, hptr⟩ := Option.isSome_iff_exists.1 hcut.inode
  have hi : cut ∈ (list i).range := ⟨hcut.inUse, hcut.start.le, hcut.stop⟩
  have hbefore : view pageContents list cut = some (pageContents (list i) cut) := (view_eq_some h).2 ⟨i, hi, rfl⟩
  have hafter : view pageContents list' cut = some (pageContents (list' j) cut) := (view_eq_some h').2 ⟨j, hmem, rfl⟩
  rw [hbefore, hafter] at heq
  refine pageContents_ne hcut.start.le (unread_iff.1 ⟨hcut.data, hcut.behind⟩) (hino.trans hptr) hstart.le hsize ?_
    (Option.some.inj heq)
  rw [hstart, Nat.sub_self]
  exact hfit

/-- What a part that begins at `a` would take over: inode, position, bytes of file data; and whether the position is
out of range although the area begins before `a`. -/
def tailData (v : Vma) (a : Nat) : Option (Nat × Nat × Nat × Bool) :=
  v.inode.map fun ino =>
    (ino, v.fileOffset + (a - v.start), v.sizeFrom a, decide (2 ^ 64 ≤ v.fileOffset + (a - v.start) ∧ v.start < a))

theorem tailData_start {v w : Vma} {offset : Nat} (hino : w.inode = v.inode) (hstart : w.start = cut)
    (hoffset : w.fileOffset = offset) (hsize : w.fileSize = v.sizeFrom cut)
    (hoff : v.inode.isSome → v.fileOffset + (cut - v.start) < 2 ^ 64 ∧ offset = v.fileOffset + (cut - v.start)) :
    tailData w cut = tailData v cut := by
  unfold tailData
  rw [hino]
  cases hv : v.inode with
  | none => rfl
  | some ptr =>
    obtain ⟨hfit, rfl⟩ := hoff (by rw [hv]; rfl)
    have hw : w.sizeFrom cut = v.sizeFrom cut := by
      rw [sizeFrom, hstart, hsize, Nat.sub_self, Nat.sub_zero]
      split <;> omega
    have hflag : (2 ^ 64 ≤ v.fileOffset + (cut - v.start) ∧ cut < cut) ↔
        2 ^ 64 ≤ v.fileOffset + (cut - v.start) ∧ v.start < cut := by omega
    rw [Option.map_some, Option.map_some, hw, hoffset, hstart, Nat.sub_self, Nat.add_zero]
    simp only [hflag]

theorem offsetAt_fit {v : Vma} {offset : Nat} (h : v.offsetAt cut = some offset) (hi : v.inode.isSome) :
    v.fileOffset + (cut - v.start) < 2 ^ 64 := by
  unfold offsetAt addU64 at h
  rw [if_pos hi] at h
  split at h
  · assumption
  · cases h

theorem shiftedOffset_fit {v : Vma} {offset : Nat} (h : v.shiftedOffset cut = some offset) (hi : v.inode.isSome) :
    v.fileOffset + (cut - v.start) < 2 ^ 64 := by
  unfold shiftedOffset addU64 at h
  rw [if_pos hi] at h
  split at h
  · assumption
  · cases h

theorem sameCut_tailData {v : Vma} (hse : s < e) : SameCut tailData s e e v where
  left _ h := absurd h (by omega)
  piece _ _ _ hoff := tailData_start rfl rfl rfl rfl fun hi => ⟨offsetAt_fit hoff hi, offsetAt_some hoff hi⟩
  trim _ _ _ hoff := tailData_start rfl rfl rfl rfl fun hi => ⟨shiftedOffset_fit hoff hi, shiftedOffset_some hoff hi⟩

theorem removed_behind (h : NoOverlap list) (hse : s < e) (hr : handleRangeRemoval list s e = some (true, list'))
    (hcut : CutBehindData e (list i)) : view pageContents list' e ≠ view pageContents list e := by
  obtain ⟨ptr, hptr⟩ := Option.isSome_iff_exists.1 hcut.inode
  obtain ⟨h', hempty, -⟩ := handleRangeRemoval_view h hse.le hr
  have hbefore : Says tailData list e (tailData (list i) e) := ⟨i, ⟨hcut.inUse, hcut.start.le, hcut.stop⟩, rfl⟩
  have horig : ∀ j ∈ List.finRange maxVmas, list j = list j ∨ Clear s e (list j) := fun _ _ => .inl rfl
  obtain ⟨k, hmem, hdata⟩ := (removeLoop_reading hse.le (.inr le_rfl) (List.nodup_finRange maxVmas) horig
    (fun _ _ _ => sameCut_tailData hse) hr).2 hbefore
  -- the area that covers the end of the range begins there
  have hstart : (list' k).start = e := by
    have hnone := findVma_none_iff.1 (hempty (e - 1) (by omega) (by omega)) k
    have hle : (list' k).start ≤ e := hmem.2.1
    by_contra hne
    exact hnone ⟨hmem.1, by omega, by have := hmem.2.2; omega⟩
  unfold tailData at hdata
  rw [hptr, Option.map_some, Option.map_eq_some_iff] at hdata
  obtain ⟨ptr', hptr', heq⟩ := hdata
  obtain ⟨rfl, hpos, hsize, hfit⟩ := by simpa only [Prod.mk.injEq, decide_eq_decide] using heq
  have hzero : (list i).sizeFrom e = 0 := if_neg (by have := hcut.behind; omega)
  rw [hstart, Nat.sub_self, Nat.add_zero] at hpos hfit
  refine view_ne_of_cut h h' hcut hmem (hptr'.trans hptr.symm) hstart ?_ ?_
  · rw [hzero, sizeFrom, hstart, Nat.sub_self] at hsize
    split at hsize <;> omega
  · have hstarts := hcut.start
    by_contra hge
    exact absurd (hfit.2 ⟨by omega, hstarts⟩).2 (lt_irrefl _)

/-! ## Changing the protection of a range -/

theorem Part.contents {v w : Vma} {c a : Nat} (h : Part s c flags v w) (hu : v.inUse = true) (hsc : s < c)
    (hc : c ≤ v.stop) (hv : v.start % 4096 = 0) (hs : s % 4096 = 0) (hc4 : c < v.stop → c % 4096 = 0)
    (ha : a % 4096 = 0) (hcut : ¬ CutBehindData s v) (hcut' : ¬ CutBehindData c v) (hmem : a ∈ w.range) :
    pageContents w a = pageContents v a := by
  have hlow : w.start ≤ a := hmem.2.1
  have hhigh : a < w.stop := hmem.2.2
  cases h with
  | whole => exact pageContents_congr hlow hlow rfl
  | front _ hstop =>
    have hwin := fileWindow_left hv (hc4 hstop) ha hlow hhigh
    exact pageContents_congr hlow hlow (fileData_eq rfl (fun _ => rfl) fun _ => hwin)
  | before =>
    have hwin := fileWindow_left hv hs ha hlow hhigh
    exact pageContents_congr hlow hlow (fileData_eq rfl (fun _ => rfl) fun _ => hwin)
  | @within offset hstart hstop hoff =>
    have hsa : s ≤ a := hlow
    refine pageContents_congr hlow (hstart.le.trans hsa) (fileData_eq rfl (fun hi => ?_) fun hi => ?_)
    · have hpos := offsetAt_some hoff hi
      show offset + (a - s) = _
      omega
    · exact fileWindow_within rfl rfl hs (hc4 hstop) ha hstart.le hsa hhigh
        (not_behind hu hcut hstart (hsc.trans_le hc) hi)
  | @back offset hstart hstop hoff =>
    have hsa : s ≤ a := hlow
    refine pageContents_congr hlow (hstart.le.trans hsa) (fileData_eq rfl (fun hi => ?_) fun hi => ?_)
    · have hpos := offsetAt_some hoff hi
      show offset + (a - s) = _
      omega
    · exact fileWindow_behind rfl rfl hstart.le hsa (not_behind hu hcut hstart (hsc.trans_le hc) hi)
  | @behind offset hle hstop hoff =>
    have hca : c ≤ a := hlow
    refine pageContents_congr hlow (hle.trans hca) (fileData_eq rfl (fun hi => ?_) fun hi => ?_)
    · have hpos := offsetAt_some hoff hi
      show offset + (a - c) = _
      omega
    · refine fileWindow_behind rfl rfl hle hca fun hbehind => ?_
      have hstart : v.start < c := Nat.lt_of_sub_pos (hbehind.1.trans_le hbehind.2)
      exact hcut' ⟨hu, hi, hbehind.1, hbehind.2, hstart, hstop⟩

theorem Divided.behind {c : Nat} (h : NoOverlap list) (h' : NoOverlap list')
    (hd : Divided s c flags list i true list') (hsc : s < c) (hcut : cut = s ∨ cut = c)
    (hbad : CutBehindData cut (list i)) : view pageContents list' cut ≠ view pageContents list cut := by
  have hzero : (list i).sizeFrom cut = 0 := if_neg (by have := hbad.behind; omega)
  have hstarts := hbad.start
  have hstops := hbad.stop
  -- the part that begins at the cut is in slot `j`
  have hpart : ∀ {j stop offset size fl}, list' j = (list i).piece cut stop fl offset size → cut < stop →
      (list i).offsetAt cut = some offset → size = 0 →
      view pageContents list' cut ≠ view pageContents list cut := by
    intro j stop offset size fl hj hstop hoff hsize
    have hfit := offsetAt_fit hoff hbad.inode
    have hoffset := offsetAt_some hoff hbad.inode
    refine view_ne_of_cut h h' hbad ?_ (by rw [hj]; rfl) (by rw [hj]; rfl) (by rw [hj]; exact hsize) ?_
    · rw [hj]
      exact ⟨rfl, le_rfl, hstop⟩
    · rw [hj]
      show offset < 2 ^ 64
      omega
  cases hd with
  | whole hstart hstop => omega
  | front hstart hstop hoff =>
    obtain rfl : cut = c := by omega
    exact hpart (Function.update_self ..) hstop hoff hzero
  | back hstart hstop hoff =>
    obtain rfl : cut = s := by omega
    exact hpart (Function.update_self ..) hstops hoff hzero
  | middle hstart hstop hoff hoff' hji hki hkj =>
    rcases hcut with rfl | rfl
    · refine hpart (by rw [Function.update_of_ne hkj.symm, Function.update_self]) hsc hoff ?_
      rw [hzero, Nat.zero_min]
    · exact hpart (Function.update_self ..) hstop hoff' hzero

/-! ## Both -/

/-- **Cuts and contents.** A removal, and a change of protection, leave every remaining page with the contents that it
would have had, if and only if no cut leaves a part that starts behind the file data of its area. -/
theorem cuts_keep_contents_iff (h : NoOverlap list)
    (hstart : ∀ i, (list i).inUse = true → (list i).start % 4096 = 0) (hs : s % 4096 = 0) (he : e % 4096 = 0)
    (hse : s < e) :
    (∀ list', handleRangeRemoval list s e = some (true, list') →
      ((∀ a, a % 4096 = 0 → a < s ∨ e ≤ a → view pageContents list' a = view pageContents list a) ↔
        ∀ i, ¬ CutBehindData e (list i))) ∧
    ∀ flags b list', splitForProtect list s e flags = some (b, list') →
      ((∀ a, a % 4096 = 0 → view pageContents list' a = view pageContents list a) ↔
        ∀ i, findVma list s = some i → RoomToSplit list (list i) s e →
          ¬ CutBehindData s (list i) ∧ ¬ CutBehindData e (list i)) := by
  refine ⟨fun list' hr => ⟨fun hsame i hcut => ?_, fun hcut a ha hout => ?_⟩, fun flags b list' hr => ?_⟩
  · exact removed_behind h hse hr hcut (hsame e he (.inr le_rfl))
  · have horig : ∀ j ∈ List.finRange maxVmas, list j = list j ∨ Clear s e (list j) := fun _ _ => .inl rfl
    exact view_congr h (handleRangeRemoval_noOverlap h hse.le hr) fun _ =>
      removeLoop_reading hse.le hout (List.nodup_finRange _) horig
        (fun j _ hm => sameCut_contents (hstart j hm.inUse) hs ha hm (hcut j)) hr
  cases hfind : findVma list s with
  | none =>
    unfold splitForProtect at hr
    rw [hfind] at hr
    cases hr
    exact ⟨fun _ => nofun, fun _ _ _ => rfl⟩
  | some i =>
    have hd := splitForProtect_divided hfind hr
    have hroom := hd.room.trans roomToSplit_min
    cases b with
    | false =>
      cases hd
      refine ⟨fun _ j hj hroomj => ?_, fun _ _ _ => rfl⟩
      cases hj
      exact absurd (hroom.2 hroomj) nofun
    | true =>
      have hmem := findVma_some hfind
      have h' := (splitForProtect_spec hse hr h).1
      have hsc : s < min e (list i).stop := lt_min hse hmem.2.2
      have hmin : CutBehindData e (list i) ↔ CutBehindData (min e (list i).stop) (list i) := by
        have hlow : e < (list i).stop → min e (list i).stop = e := fun hlt => min_eq_left hlt.le
        constructor
        · intro hcut
          rwa [hlow hcut.stop]
        · intro hcut
          rwa [hlow (by have := hcut.stop; omega)] at hcut
      constructor
      · intro hsame j hj _
        cases hj
        refine ⟨fun hcut => ?_, fun hcut => ?_⟩
        · exact hd.behind h h' hsc (.inl rfl) hcut (hsame s hs)
        · have hcut' := hmin.1 hcut
          refine hd.behind h h' hsc (.inr rfl) hcut' ?_
          have hc := hcut'.stop
          rw [show min e (list i).stop = e by omega]
          exact hsame e he
      · intro hcuts a ha
        obtain ⟨hcut, hcut'⟩ := hcuts i rfl (hroom.1 rfl)
        refine view_congr h h' fun _ => hd.reading hmem hsc (min_le_right _ _) (fun _ _ _ => rfl) fun w hw haw => ?_
        have hend : min e (list i).stop < (list i).stop → min e (list i).stop % 4096 = 0 := by
          intro hlt
          rw [show min e (list i).stop = e by omega]
          exact he
        exact hw.contents hmem.1 hsc (min_le_right _ _) (hstart i hmem.1) hs hend ha hcut (mt hmin.2 hcut') haw

end

def dataSegment : Vma :=
  { start := 0x1000, stop := 0x5000, flags := { read := true, write := true, user := true }, inUse := true,
    inode := some 7, fileOffset := 0x2000, fileSize := 0x1800 }

def segmentTable : VmaList := Function.update emptyVmaList 0 dataSegment

/-- Removing the first page keeps the others. -/
theorem cuts_keep_contents_first : ∃ list', handleRangeRemoval segmentTable 0x1000 0x2000 = some (true, list') ∧
    view pageContents list' 0x3000 = view pageContents segmentTable 0x3000 := by
  have hdone : (handleRangeRemoval segmentTable 0x1000 0x2000).map Prod.fst = some true := by decide +kernel
  obtain ⟨⟨b, list'⟩, hr, rfl⟩ := Option.map_eq_some_iff.1 hdone
  have hslot : ∀ i, (segmentTable i).inUse = true → segmentTable i = dataSegment := by
    intro i hi
    by_cases h0 : i = 0
    · rw [h0]
      exact Function.update_self ..
    · rw [segmentTable, Function.update_of_ne h0] at hi
      cases hi
  have hstart : ∀ i, (segmentTable i).inUse = true → (segmentTable i).start % 4096 = 0 := by
    intro i hi
    rw [hslot i hi]
    rfl
  refine ⟨list', hr, ?_⟩
  have hno : NoOverlap segmentTable := noOverlap_single dataSegment
  have hiff := (cuts_keep_contents_iff hno hstart (by decide) (by decide) (by decide)).1 list' hr
  refine hiff.2 ?_ 0x3000 (by decide) (.inr (by decide))
  intro i hcut
  have hbehind := hcut.behind
  rw [hslot i hcut.inUse] at hbehind
  exact absurd hbehind (by decide)

/-- Removing the third page: the fourth one, zero before, is the seventh page of the file afterwards. -/
theorem zeros_become_file : ∃ list', handleRangeRemoval segmentTable 0x3000 0x4000 = some (true, list') ∧
    (view pageContents segmentTable 0x4000).bind (fun fill => fill cacheOnly 601 (cachedOnes 0x5000)) =
      some (true, fun _ => 0) ∧
    (view pageContents list' 0x4000).bind (fun fill => fill cacheOnly 601 (cachedOnes 0x5000)) =
      some (true, fun _ => 1) := by
  have hdone : (handleRangeRemoval segmentTable 0x3000 0x4000).map (fun r => (r.1, findVma r.2 0x4000, r.2 1)) =
      some (true, some 1, { dataSegment with start := 0x4000, fileOffset := 0x5000, fileSize := 0 }) := by
    decide +kernel
  obtain ⟨⟨b, list'⟩, hr, heq⟩ := Option.map_eq_some_iff.1 hdone
  obtain ⟨rfl, hfind', hpiece⟩ := by simpa only [Prod.mk.injEq] using heq
  have hfind : findVma segmentTable 0x4000 = some 0 := by decide +kernel
  refine ⟨list', hr, ?_, ?_⟩
  · have hzero : fileWindow (segmentTable 0) 0x4000 = 0 := by decide +kernel
    rw [view, hfind, Option.map_some, Option.bind_some, pageContents_behind (by decide +kernel) hzero]
  · rw [view, hfind', Option.map_some, Option.bind_some, hpiece]
    exact pageContents_whole rfl le_rfl rfl (by decide)

end Zigix.Vma
