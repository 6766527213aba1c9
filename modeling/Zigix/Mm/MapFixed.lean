import Zigix.Mm.Backing
import Zigix.Mm.Mprotect
import Zigix.Mm.VmaContents
import Zigix.Proc.ForkIsolation

/-!
# `MAP_FIXED`

A fixed mapping with small pages edits the areas and nothing else; one with huge pages does not remove any area.

* `Replaced a s s'` : the range of the call is that of the new mapping alone, and everything outside is as it was;
* `mapFixed_replaces_iff` : with small pages exactly if no page of the range was mapped and the end of the range cuts no
  area behind its file data; with huge pages never if an area was there.
-/

namespace Zigix.Mmap

open Vma hiding pageSize
open Vmm
open Slots
open Pmm (pageSize)
open Fault (userRead userWrite)

/-! ## Adding an area -/

section
variable {β : Type*} {read : Vma → Nat → β} {list list' : VmaList} {v : Vma} {x : Nat} {b : β}

theorem says_place (hp : place list v = some list') (hx : x ∉ v.range) : Says read list' x b ↔ Says read list x b := by
  obtain ⟨j, hfree, rfl⟩ := place_some hp
  exact says_update (fun _ _ => Iff.rfl) (iff_of_false (fun h => hx h.1) (not_saysAt_free hfree))

theorem place_covers (hp : place list v = some list') (hfree : ∀ i, x ∉ (list i).range) :
    ∃ i, list' i = v ∧ ∀ k, x ∈ (list' k).range → k = i := by
  obtain ⟨j, -, rfl⟩ := place_some hp
  refine ⟨j, Function.update_self .., fun k hk => ?_⟩
  by_contra hkj
  rw [Function.update_of_ne hkj] at hk
  exact hfree k hk

theorem place_keeps {i : Fin maxVmas} (hp : place list v = some list') (hi : (list i).inUse = true) :
    list' i = list i ∧ ∃ j, j ≠ i ∧ list' j = v := by
  obtain ⟨j, hfree, rfl⟩ := place_some hp
  have hji : j ≠ i := by
    rintro rfl
    rw [hfree] at hi
    cases hi
  exact ⟨Function.update_of_ne hji.symm .., j, hji, Function.update_self ..⟩

end

/-! ## What replacing means -/

/-- The range of the call. -/
def mapEnd (a : MmapArgs) : Nat := a.addr + mmapLength a

structure Replaced (a : MmapArgs) (s s' : Sys) : Prop where
  /-- one area covers an address of the range, and says of it what the call asks for -/
  area : ∀ x, a.addr ≤ x → x < mapEnd a → ∃ i, x ∈ (s'.proc.vmas i).range ∧
    (∀ k, x ∈ (s'.proc.vmas k).range → k = i) ∧
    backing (s'.proc.vmas i) x = backing (mapping s.proc a a.addr) x ∧
    pageContents (s'.proc.vmas i) x = pageContents (mapping s.proc a a.addr) x
  /-- a page that is there without a fault shows what the fault would have filled in: zeros -/
  present : ∀ q ∈ pagesOf a.addr (mapEnd a), ∀ phys, Vmm.translate s'.machine s'.proc.pageTable q = some phys →
    mapAnonymous a.flags = true ∧ ∀ k < 512, s'.machine.mem (phys / pageSize) k = 0
  /-- no frame that was mapped in the range still is -/
  stale : ∀ q ∈ pagesOf a.addr (mapEnd a), ∀ q' ∈ pagesOf a.addr (mapEnd a), ∀ phys,
    Vmm.translate s.machine s.proc.pageTable q = some phys →
      Vmm.translate s'.machine s'.proc.pageTable q' ≠ some phys
  /-- a frame that was mapped in the range has lost a reference for each page -/
  refs : ∀ q ∈ pagesOf a.addr (mapEnd a), ∀ phys, Vmm.translate s.machine s.proc.pageTable q = some phys →
    s'.machine.getRef (phys / pageSize) + (pagesOf a.addr (mapEnd a)).countP (fun q' =>
      decide (Vmm.translate s.machine s.proc.pageTable q' = some phys)) = s.machine.getRef (phys / pageSize)
  outside : ∀ x, x < a.addr ∨ mapEnd a ≤ x →
    view backing s'.proc.vmas x = view backing s.proc.vmas x ∧
    (x % pageSize = 0 → view pageContents s'.proc.vmas x = view pageContents s.proc.vmas x) ∧
    Vmm.translate s'.machine s'.proc.pageTable x = Vmm.translate s.machine s.proc.pageTable x ∧
    ∀ phys, Vmm.translate s.machine s.proc.pageTable x = some phys →
      s'.machine.mem (phys / pageSize) = s.machine.mem (phys / pageSize)

/-! ## The calls -/

section
variable {a : MmapArgs} {s s' : Sys} {base : Nat}

def hugePages (a : MmapArgs) : Bool := mapAnonymous a.flags && mapHugetlb a.flags

structure SmallFixed (a : MmapArgs) (s s' : Sys) (list : VmaList) : Prop where
  removed : handleRangeRemoval s.proc.vmas a.addr (mapEnd a) = some (true, list)
  placed : place list (mapping s.proc a a.addr) = some s'.proc.vmas
  machine : s'.machine = s.machine
  root : s'.proc.pageTable = s.proc.pageTable
  start : a.addr % 4096 = 0
  stop : mapEnd a % 4096 = 0
  nonempty : a.addr < mapEnd a

theorem mmapSmall_fixed {flags : Flags} {inode : Option Nat} {offset : Nat} (hfix : mapFixed a.flags = true)
    (hp : mmapPage a = pageSize) (hlen : a.length ≠ 0) (hflags : flags = (mapping s.proc a 0).flags)
    (hinode : inode = (mapping s.proc a 0).inode) (hoffset : offset = (mapping s.proc a 0).fileOffset)
    (hr : mmapSmall a (mmapLength a) flags inode offset s = some (.ok base, s')) : ∃ list, SmallFixed a s s' list := by
  subst hflags hinode hoffset
  unfold mmapSmall at hr
  rw [if_pos hfix] at hr
  split at hr
  · cases hr
  next halign =>
  obtain ⟨stop, hstop, hr⟩ := Option.bind_eq_some_iff.1 hr
  cases addU64_some hstop
  obtain ⟨⟨b, list⟩, hrem, hr⟩ := Option.bind_eq_some_iff.1 hr
  rcases mmapAt_cases hr with ⟨hr, -⟩ | ⟨vmas, hok, rfl, hadd⟩
  · cases hr
  cases hok
  have hpos := mmapLength_pos hlen
  have hmod := mmapLength_mod a
  rw [hp] at hmod
  have hplaced : place list (mapping s.proc a a.addr) = some vmas := hadd
  have hdone : b = true := by
    cases b with
    | true => rfl
    | false =>
      -- a removal that fails leaves no slot for the new area
      obtain ⟨j, hfree, -⟩ := place_some hplaced
      have hfull := (handleRangeRemoval_spec (by omega) hrem).2.2 rfl j
      rw [hfree] at hfull
      cases hfull
  subst hdone
  refine ⟨list, hrem, hplaced, rfl, rfl, ?_, ?_, ?_⟩
  · unfold pageSize at halign
    omega
  · unfold mapEnd
    unfold pageSize at halign hmod
    omega
  · unfold mapEnd
    omega

theorem sysMmap_smallFixed (hfix : mapFixed a.flags = true) (hsmall : hugePages a = false)
    (hr : sysMmap a s = some (.ok base, s')) : ∃ list, SmallFixed a s s' list := by
  have hp : mmapPage a = pageSize := by
    unfold mmapPage
    rw [show (mapAnonymous a.flags && mapHugetlb a.flags) = false from hsmall]
    rfl
  unfold sysMmap at hr
  split at hr
  · cases hr
  next hlen0 =>
  obtain ⟨len, hlen, hr⟩ := Option.bind_eq_some_iff.1 hr
  obtain rfl : len = mmapLength a := by rw [mmapLength, hp, alignUp_some hlen]
  split at hr
  · cases hr
  split at hr
  · next hanon =>
    have hhuge : mapHugetlb a.flags = false := by
      unfold hugePages at hsmall
      rw [hanon] at hsmall
      exact hsmall
    split at hr
    · next htlb => exact absurd htlb (Bool.eq_false_iff.1 hhuge)
    · refine mmapSmall_fixed hfix hp hlen0 ?_ ?_ ?_ hr
      · simp [mapping, hanon, hhuge, protToVmaFlags]
      · simp [mapping, hanon]
      · simp [mapping, hanon]
  · next hanon =>
    have hanon : mapAnonymous a.flags = false := by simpa using hanon
    split at hr
    · cases hr
    split at hr
    · cases hr
    · next inode hget =>
      refine mmapSmall_fixed hfix hp hlen0 ?_ ?_ ?_ hr
      · simp [mapping, hanon]
      · simp [mapping, hanon, hget]
      · simp [mapping, hanon]

theorem sysMmap_hugeFixed (hfix : mapFixed a.flags = true) (hhuge : hugePages a = true)
    (hr : sysMmap a s = some (.ok base, s')) :
    ∃ v, place s.proc.vmas v = some s'.proc.vmas ∧ v.range = (mapping s.proc a a.addr).range := by
  obtain ⟨hanon, htlb⟩ : mapAnonymous a.flags = true ∧ mapHugetlb a.flags = true := by
    simpa [hugePages] using hhuge
  unfold sysMmap at hr
  split at hr
  · cases hr
  obtain ⟨len, hlen, hr⟩ := Option.bind_eq_some_iff.1 hr
  split at hr
  · cases hr
  unfold mmapHuge at hr
  obtain ⟨len', hlen', hr⟩ := Option.bind_eq_some_iff.1 hr
  obtain rfl : len' = mmapLength a := by
    rw [mmapLength, mmapPage, hanon, htlb, alignUp_some hlen']
    rfl
  rw [if_pos hfix] at hr
  split at hr
  · cases hr
  rcases mmapHugeAt_cases hr with ⟨hr, -⟩ | ⟨phys, vmas, hok, hproc, hadd⟩
  · cases hr
  · cases hok
    refine ⟨_, by rw [hproc]; exact hadd, ?_⟩
    rw [range_of_inUse rfl, range_of_inUse rfl]
    rfl

/-! ## When the range is replaced -/

theorem mem_mapping_range {x : Nat} :
    x ∈ (mapping s.proc a a.addr).range ↔ a.addr ≤ x ∧ x < mapEnd a := and_iff_right rfl

theorem SmallFixed.areas {list : VmaList} (hd : SmallFixed a s s' list) (h : NoOverlap s.proc.vmas) :
    (∀ x, a.addr ≤ x → x < mapEnd a → ∃ i, s'.proc.vmas i = mapping s.proc a a.addr ∧
      ∀ k, x ∈ (s'.proc.vmas k).range → k = i) ∧
    ∀ {β : Type} (read : Vma → Nat → β) (x : Nat), x < a.addr ∨ mapEnd a ≤ x →
      view read s'.proc.vmas x = view read list x := by
  obtain ⟨hlist, hempty, -⟩ := handleRangeRemoval_view h hd.nonempty.le hd.removed
  have hnone : ∀ x, a.addr ≤ x → x < mapEnd a → ∀ i, x ∉ (list i).range := fun x hlow hhigh =>
    findVma_none_iff.1 (hempty x hlow hhigh)
  have hdisjoint : Disjoint (mapping s.proc a a.addr).range (covered (ranges list)) := by
    refine Set.disjoint_left.2 fun x hx hcov => ?_
    obtain ⟨i, hi⟩ := mem_covered.1 hcov
    obtain ⟨hlow, hhigh⟩ := mem_mapping_range.1 hx
    exact hnone x hlow hhigh i hi
  have h' := (place_spec hlist hdisjoint hd.placed).1
  refine ⟨fun x hlow hhigh => ?_, fun read x hx => ?_⟩
  · exact place_covers hd.placed (hnone x hlow hhigh)
  · refine view_congr hlist h' fun _ => says_place hd.placed fun hmem => ?_
    have := mem_mapping_range.1 hmem
    omega

/-- **`MAP_FIXED` replaces** what was in its range, with small pages, if and only if no page of the range was mapped and
the range does not end behind the file data of an area; with huge pages never if an area was in the range. -/
theorem mapFixed_replaces_iff (h : NoOverlap s.proc.vmas)
    (hstart : ∀ i, (s.proc.vmas i).inUse = true → (s.proc.vmas i).start % 4096 = 0) (hfix : mapFixed a.flags = true)
    (hr : sysMmap a s = some (.ok base, s')) :
    (hugePages a = false → (Replaced a s s' ↔
      (∀ q ∈ pagesOf a.addr (mapEnd a), Vmm.translate s.machine s.proc.pageTable q = none) ∧
        ∀ i, ¬ CutBehindData (mapEnd a) (s.proc.vmas i))) ∧
    (hugePages a = true → (∃ i x, x ∈ (s.proc.vmas i).range ∧ a.addr ≤ x ∧ x < mapEnd a) → ¬ Replaced a s s') := by
  constructor
  · intro hsmall
    obtain ⟨list, hd⟩ := sysMmap_smallFixed hfix hsmall hr
    obtain ⟨hin, hout⟩ := hd.areas h
    have hcuts := (cuts_keep_contents_iff h hstart hd.start hd.stop hd.nonempty).1 list hd.removed
    have hsame : ∀ x, Vmm.translate s'.machine s'.proc.pageTable x = Vmm.translate s.machine s.proc.pageTable x := by
      intro x
      rw [hd.machine, hd.root]
    constructor
    · intro hrep
      refine ⟨fun q hq => ?_, hcuts.1 fun x hx hxout => ?_⟩
      · cases htr : Vmm.translate s.machine s.proc.pageTable q with
        | none => rfl
        | some phys => exact absurd ((hsame q).trans htr) (hrep.stale q hq q hq phys htr)
      · rw [← hout pageContents x hxout]
        exact (hrep.outside x hxout).2.1 hx
    · rintro ⟨hnone, hcut⟩
      refine ⟨fun x hlow hhigh => ?_, fun q hq phys htr => ?_, fun q hq q' _ phys htr => ?_, fun q hq phys htr => ?_,
        fun x hx => ⟨?_, fun hx0 => ?_, hsame x, fun phys _ => ?_⟩⟩
      · obtain ⟨i, hi, honly⟩ := hin x hlow hhigh
        exact ⟨i, by rw [hi]; exact mem_mapping_range.2 ⟨hlow, hhigh⟩, honly, by rw [hi], by rw [hi]⟩
      · rw [hsame, hnone q hq] at htr
        cases htr
      · rw [hnone q hq] at htr
        cases htr
      · rw [hnone q hq] at htr
        cases htr
      · rw [hout backing x hx]
        exact (handleRangeRemoval_view h hd.nonempty.le hd.removed).2.2 x hx
      · rw [hout pageContents x hx]
        exact hcuts.2 hcut x hx0 hx
      · rw [hd.machine]
  · rintro hhuge ⟨i, x, hi, hlow, hhigh⟩ hrep
    obtain ⟨v, hplace, hrange⟩ := sysMmap_hugeFixed hfix hhuge hr
    obtain ⟨hkept, j, hji, hj⟩ := place_keeps hplace hi.1
    obtain ⟨k, -, honly, -⟩ := hrep.area x hlow hhigh
    have hold : i = k := honly i (by rw [hkept]; exact hi)
    have hnew : j = k := honly j (by rw [hj, hrange]; exact mem_mapping_range.2 ⟨hlow, hhigh⟩)
    exact hji (hnew.trans hold.symm)

end

def overFourPages : MmapArgs := { addr := 0x2000, length := 0x1000, prot := 3, flags := 0x32, fd := 0, offset := 0 }

theorem mapFixed_replaces_untouched : ∃ s', sysMmap overFourPages fourPagesProcess = some (.ok 0x2000, s') ∧
    Replaced overFourPages fourPagesProcess s' := by
  have hdone : (sysMmap overFourPages fourPagesProcess).map Prod.fst = some (.ok 0x2000) := by decide +kernel
  obtain ⟨⟨r, s'⟩, hr, rfl⟩ := Option.map_eq_some_iff.1 hdone
  have hno : NoOverlap fourPagesProcess.proc.vmas := noOverlap_single fourPages
  have hslot : ∀ i, (fourPagesProcess.proc.vmas i).inUse = true → fourPagesProcess.proc.vmas i = fourPages := by
    intro i hi
    by_cases h0 : i = 0
    · rw [h0]
      rfl
    · have hempty : fourPagesProcess.proc.vmas i = emptyVma := by
        show Function.update emptyVmaList 0 fourPages i = emptyVma
        rw [Function.update_of_ne h0]
        rfl
      rw [hempty] at hi
      cases hi
  have hstart : ∀ i, (fourPagesProcess.proc.vmas i).inUse = true → (fourPagesProcess.proc.vmas i).start % 4096 = 0 := by
    intro i hi
    rw [hslot i hi]
    rfl
  refine ⟨s', hr, ((mapFixed_replaces_iff hno hstart (by decide) hr).1 (by decide)).2 ⟨fun q _ => ?_, fun i hcut => ?_⟩⟩
  · have hnone : (leafEntry fourPagesProcess.machine fourPagesProcess.proc.pageTable q).isSome =
        (Vmm.translate fourPagesProcess.machine fourPagesProcess.proc.pageTable q).isSome := leafEntry_isSome
    rw [leafEntry_fourPages] at hnone
    exact Option.isNone_iff_eq_none.1 (by simpa using hnone.symm)
  · have hdata := hcut.data
    rw [hslot i hcut.inUse] at hdata
    exact absurd hdata (by decide)

def touchedProcess : Sys where
  machine := (userWrite 512 0x400000 7 Fork.onePage).2
  proc :=
    { emptyProcess.proc with
      vmas := Function.update emptyVmaList 0 { fourAnonymous with start := 0x400000, stop := 0x401000 } }

def overTouched : MmapArgs := { overFourPages with addr := 0x400000 }

/-- The new page is the old one: it reads 7, and its frame has the reference that it had. -/
theorem mapFixed_shows_old_page :
    (sysMmap overTouched touchedProcess).map (fun r => (r.1, userRead 512 0x400000 r.2.machine)) =
      some (.ok 0x400000, some 7) ∧
    (sysMmap overTouched touchedProcess).map (fun r =>
      (Vmm.translate r.2.machine 512 0x400000, r.2.machine.getRef 514)) = some (some (514 * 4096), 1) ∧
    Vmm.translate touchedProcess.machine 512 0x400000 = some (514 * 4096) ∧
    touchedProcess.machine.getRef 514 = 1 := by
  decide +kernel

end Zigix.Mmap
