import Zigix.Mm.Fault
import Zigix.Mm.MmapSpec

/-!
# What backs an address

* `Backed maps list` : every mapped address is in an area that backs it; kept by `mmap` and `munmap` calls that find a
  slot for the part behind the range they remove.
-/

namespace Zigix.Mmap

open Pmm (pageSize addU64 subU64)
open Vma hiding pageSize
open Vmm Slots

abbrev Mappings := Nat → Option Vma

/-- `u` is a part of the mapping `v`: both start on a page, without guard pages or a bound on the file data. -/
structure Backs (v u : Vma) : Prop where
  flags : u.flags = v.flags
  inode : u.inode = v.inode
  guardPages : u.guardPages = 0 ∧ v.guardPages = 0
  fileSize : u.fileSize = 0 ∧ v.fileSize = 0
  aligned : u.start % pageSize = 0 ∧ v.start % pageSize = 0
  offset : v.inode.isSome = true → u.fileOffset + v.start = v.fileOffset + u.start

def Backed (maps : Mappings) (list : VmaList) : Prop :=
  ∀ x v, maps x = some v → ∃ i, x ∈ (list i).range ∧ Backs v (list i)

def soleArea (v : Vma) : VmaList := Function.update emptyVmaList 0 v

section
variable {maps : Mappings} {list list' : VmaList} {v u : Vma} {i j : Fin maxVmas} {s e x : Nat}

theorem Backs.refl (hguard : v.guardPages = 0) (hsize : v.fileSize = 0) (haligned : v.start % pageSize = 0) :
    Backs v v := ⟨rfl, rfl, ⟨hguard, hguard⟩, ⟨hsize, hsize⟩, ⟨haligned, haligned⟩, fun _ => rfl⟩

/-! ## Faults -/

theorem subU64_pageBase (haligned : v.start % pageSize = 0) (hx : v.start ≤ x) :
    subU64 (Fault.pageBase x) v.start = some (Fault.pageBase x - v.start) := by
  refine if_pos ?_
  unfold Fault.pageBase
  unfold pageSize at *
  omega

theorem fillPage_of_backs (h : Backs v u) (fs : Fault.FileSystem) (hu : u.start ≤ x) (hv : v.start ≤ x) (f : Nat)
    (m : Machine) : Fault.fillPage fs u (Fault.pageBase x) f m = Fault.fillPage fs v (Fault.pageBase x) f m := by
  have hubase : u.start ≤ Fault.pageBase x := by
    have := h.aligned.1
    unfold Fault.pageBase
    unfold pageSize at *
    omega
  have hvbase : v.start ≤ Fault.pageBase x := by
    have := h.aligned.2
    unfold Fault.pageBase
    unfold pageSize at *
    omega
  unfold Fault.fillPage
  rw [h.inode]
  cases hinode : v.inode with
  | none => rfl
  | some ptr =>
    have hoffset := h.offset (by rw [hinode]; rfl)
    have hsum : u.fileOffset + (Fault.pageBase x - u.start) = v.fileOffset + (Fault.pageBase x - v.start) := by omega
    have hfill : ∀ a b pos, Fault.fillFromFile fs u (fs.inode ptr) a pos f m =
        Fault.fillFromFile fs v (fs.inode ptr) b pos f m := by
      intro a b pos
      simp only [Fault.fillFromFile, Fault.isBssBoundary, Fault.readLen, h.fileSize.1, h.fileSize.2, lt_irrefl,
        decide_false, Bool.false_and, Bool.false_eq_true, if_false]
    simp only [subU64_pageBase h.aligned.1 hu, subU64_pageBase h.aligned.2 hv, bind, Option.bind_some, h.fileSize.1,
      h.fileSize.2, lt_irrefl, false_and, if_false]
    rw [show addU64 u.fileOffset (Fault.pageBase x - u.start) = addU64 v.fileOffset (Fault.pageBase x - v.start) by
      unfold addU64
      rw [hsum]]
    cases addU64 v.fileOffset (Fault.pageBase x - v.start) with
    | none => rfl
    | some pos => exact congrArg some (hfill _ _ pos)

theorem findVma_eq_some (h : NoOverlap list) (hi : x ∈ (list i).range) : findVma list x = some i := by
  cases hfind : findVma list x with
  | none =>
    have := Fin.eq_false_of_find?_eq_none hfind i
    rw [contains_iff.2 hi] at this
    cases this
  | some j =>
    by_cases hij : i = j
    · rw [hij]
    · exact absurd hi (Set.disjoint_left.1 (h (Ne.symm hij)) (findVma_some hfind))

theorem noOverlap_soleArea (v : Vma) : NoOverlap (soleArea v) := by
  intro i j hij
  refine Set.disjoint_left.2 fun x hi hj => hij ?_
  have hzero : ∀ k, x ∈ (soleArea v k).range → k = 0 := by
    intro k hk
    by_contra hne
    rw [soleArea, Function.update_of_ne hne] at hk
    exact absurd hk.1 Bool.false_ne_true
  rw [hzero i hi, hzero j hj]

/-- **A fault at a backed address** is resolved with the mapping. -/
theorem resolve_of_backs (fs : Fault.FileSystem) {p : Process} (h : NoOverlap p.vmas) (hi : x ∈ (p.vmas i).range)
    (hv : x ∈ v.range) (hback : Backs v (p.vmas i)) (err : Fault.ErrorCode) (m : Machine) :
    Fault.resolve fs p x err m = Fault.resolve fs { p with vmas := soleArea v } x err m := by
  have hsole : x ∈ (soleArea v 0).range := by
    rw [soleArea, Function.update_self]
    exact hv
  have hpage : Fault.handleDemandPage fs p.pageTable (p.vmas i) (Fault.pageBase x) m =
      Fault.handleDemandPage fs p.pageTable v (Fault.pageBase x) m := by
    unfold Fault.handleDemandPage Fault.mapFlags
    simp only [fillPage_of_backs hback fs hi.2.1 hv.2.1, hback.flags]
  unfold Fault.resolve
  rw [findVma_eq_some h hi, findVma_eq_some (noOverlap_soleArea v) hsole]
  have hvma : soleArea v 0 = v := Function.update_self ..
  simp only [hvma, Fault.inGuard, hback.guardPages.1, hback.guardPages.2, lt_irrefl, if_false, hpage]

/-! ## Adding and removing areas -/

theorem Backed.update (h : Backed maps list) (hi : ∀ x v, maps x = some v → x ∈ (list i).range → Backs v (list i) →
    x ∈ u.range ∧ Backs v u) : Backed maps (Function.update list i u) := by
  intro x v hx
  obtain ⟨j, hj, hback⟩ := h x v hx
  by_cases hji : j = i
  · subst hji
    exact ⟨j, by rw [Function.update_self]; exact hi x v hx hj hback⟩
  · exact ⟨j, by rw [Function.update_of_ne hji]; exact ⟨hj, hback⟩⟩

theorem Backs.left (h : Backs v u) (cut : Nat) : Backs v (u.left cut) where
  flags := h.flags
  inode := h.inode
  guardPages := h.guardPages
  fileSize := by
    refine ⟨?_, h.fileSize.2⟩
    simp [Vma.left, h.fileSize.1]
  aligned := h.aligned
  offset := h.offset

theorem Backs.right {w : Vma} (h : Backs v u) (he : e % pageSize = 0) (hlt : u.start ≤ e) (hflags : w.flags = u.flags)
    (hinode : w.inode = u.inode) (hguard : w.guardPages = 0) (hstart : w.start = e) (hsize : w.fileSize = u.sizeFrom e)
    (hoffset : u.inode.isSome = true → w.fileOffset = u.fileOffset + (e - u.start)) : Backs v w where
  flags := hflags.trans h.flags
  inode := hinode.trans h.inode
  guardPages := ⟨hguard, h.guardPages.2⟩
  fileSize := by
    refine ⟨?_, h.fileSize.2⟩
    simp [hsize, Vma.sizeFrom, h.fileSize.1]
  aligned := ⟨hstart.symm ▸ he, h.aligned.2⟩
  offset hsome := by
    have := h.offset hsome
    have := hoffset (h.inode.symm ▸ hsome)
    omega

/-! ## Removing a range -/

/-- No mapped address lies in `[s, e)`. -/
def Unmapped (maps : Mappings) (s e : Nat) : Prop := ∀ x v, maps x = some v → x ∉ Set.Ico s e

theorem removeFrom_backed (h : Backed maps list) (hout : Unmapped maps s e) (he : e % pageSize = 0)
    (hr : removeFrom s e list i = some (true, list')) : Backed maps list' := by
  have hoff : ∀ {x v}, maps x = some v → x < s ∨ e ≤ x := by
    intro x v hx
    have := hout x v hx
    rw [Set.mem_Ico] at this
    omega
  cases removeFrom_turn hr with
  | clear => exact h
  | inside hm hstart hstop =>
    refine h.update fun x v hx hi _ => ?_
    have h1 := hi.2
    have h2 := hoff hx
    omega
  | @split j offset hm hstart hstop hoffset hji hfree =>
    intro x v hx
    obtain ⟨k, hk, hback⟩ := h x v hx
    by_cases hki : k = i
    · subst hki
      -- the address is in front of the range or behind it
      rcases hoff hx with hlt | hge
      · refine ⟨k, ?_⟩
        rw [Function.update_of_ne hji.symm, Function.update_self]
        exact ⟨⟨hm.inUse, hk.2.1, hlt⟩, hback.left s⟩
      · refine ⟨j, ?_⟩
        rw [Function.update_self]
        exact ⟨⟨rfl, hge, hk.2.2⟩, hback.right he hm.start.le rfl rfl rfl rfl rfl (offsetAt_some hoffset)⟩
    · have hkj : k ≠ j := by
        intro hkj
        rw [← hkj, hk.1] at hfree
        cases hfree
      refine ⟨k, ?_⟩
      rw [Function.update_of_ne hkj, Function.update_of_ne hki]
      exact ⟨hk, hback⟩
  | trimEnd hm hstart hstop =>
    refine h.update fun x v hx hi hback => ?_
    have h1 := hi.2
    have h2 := hoff hx
    exact ⟨⟨hm.inUse, hi.2.1, by show x < s; omega⟩, hback.left s⟩
  | trimStart hm hstart hstop hoffset =>
    refine h.update fun x v hx hi hback => ?_
    have h1 := hi.2
    have h2 := hoff hx
    exact ⟨⟨hm.inUse, by show e ≤ x; omega, hi.2.2⟩,
      hback.right he hm.start.le rfl rfl hback.guardPages.1 rfl rfl (shiftedOffset_some hoffset)⟩

/-- A split finds a slot: no area reaches over both ends of the range, or some slot is free. -/
def Room (list : VmaList) (s e : Nat) : Prop :=
  (∀ i, (list i).inUse = true → ¬ ((list i).start < s ∧ e < (list i).stop)) ∨ ∃ i, (list i).inUse = false

theorem Room.trimmed (h : Room list s e) (hi : (list i).inUse = true) (hu : ¬ (u.start < s ∧ e < u.stop)) :
    Room (Function.update list i u) s e := by
  rcases h with h | ⟨k, hk⟩
  · refine .inl fun k hk => ?_
    by_cases hki : k = i
    · subst hki
      rwa [Function.update_self]
    · rw [Function.update_of_ne hki] at hk ⊢
      exact h k hk
  · have hki : k ≠ i := by
      intro hki
      rw [hki, hi] at hk
      cases hk
    exact .inr ⟨k, by rwa [Function.update_of_ne hki]⟩

theorem removeFrom_room (h : NoOverlap list) (hroom : Room list s e) (hse : s < e) {b : Bool}
    (hr : removeFrom s e list i = some (b, list')) : b = true ∧ Room list' s e := by
  have hleft : ¬ (((list i).left s).start < s ∧ e < ((list i).left s).stop) := by
    show ¬ ((list i).start < s ∧ e < s)
    omega
  cases removeFrom_turn hr with
  | clear => exact ⟨rfl, hroom⟩
  | inside => exact ⟨rfl, .inr ⟨i, by rw [Function.update_self]⟩⟩
  | @split j offset hm hstart hstop hoffset hji hfree =>
    refine ⟨rfl, .inl fun k hk => ?_⟩
    by_cases hkj : k = j
    · subst hkj
      rw [Function.update_self]
      show ¬ (e < s ∧ e < (list i).stop)
      omega
    rw [Function.update_of_ne hkj] at hk ⊢
    by_cases hki : k = i
    · subst hki
      rwa [Function.update_self]
    rw [Function.update_of_ne hki] at hk ⊢
    -- no other area covers `s`
    intro hover
    have hs : s ∈ (list i).range := ⟨hm.inUse, hstart.le, hm.stop⟩
    have hs' : s ∈ (list k).range := ⟨hk, hover.1.le, by omega⟩
    exact Set.disjoint_left.1 (h hki) hs' hs
  | full hm hstart hstop hfull =>
    rcases hroom with hroom | ⟨k, hk⟩
    · exact absurd ⟨hstart, hstop⟩ (hroom i hm.inUse)
    · exact absurd ((hfull k).symm.trans hk) nofun
  | trimEnd hm => exact ⟨rfl, hroom.trimmed hm.inUse hleft⟩
  | trimStart hm =>
    refine ⟨rfl, hroom.trimmed hm.inUse ?_⟩
    show ¬ (e < s ∧ e < (list i).stop)
    omega

theorem removeLoop_backed (hse : s < e) (he : e % pageSize = 0) (hout : Unmapped maps s e)
    (is : List (Fin maxVmas)) (h : NoOverlap list) (hroom : Room list s e) (hback : Backed maps list) {b : Bool}
    (hr : removeLoop s e is list = some (b, list')) : b = true ∧ Backed maps list' := by
  induction is generalizing list with
  | nil =>
    cases hr
    exact ⟨rfl, hback⟩
  | cons i is ih =>
    rw [removeLoop] at hr
    rcases hstep : removeFrom s e list i with - | ⟨b₁, list₁⟩
    · rw [hstep] at hr
      cases hr
    · rw [hstep] at hr
      obtain ⟨rfl, hroom₁⟩ := removeFrom_room h hroom hse hstep
      exact ih ((removeFrom_spec hse.le hstep).refines h).1 hroom₁ (removeFrom_backed hback hout he hstep) hr

/-- **Removing a range** that finds room for its splits keeps what backs the addresses outside it. -/
theorem handleRangeRemoval_backed (hse : s < e) (he : e % pageSize = 0) (hout : Unmapped maps s e)
    (h : NoOverlap list) (hroom : Room list s e) (hback : Backed maps list) {b : Bool}
    (hr : handleRangeRemoval list s e = some (b, list')) : b = true ∧ Backed maps list' :=
  removeLoop_backed hse he hout _ h hroom hback hr

end

/-! ## munmap -/

def munmapLength (length : Nat) : Nat := alignDown pageSize (length + pageSize - 1)

/-- The addresses of `[s, e)` are no longer mapped. -/
def Mappings.remove (maps : Mappings) (s e : Nat) : Mappings := fun x => if s ≤ x ∧ x < e then none else maps x

theorem Mappings.remove_le {maps : Mappings} {s e x : Nat} {v : Vma} (h : maps.remove s e x = some v) :
    maps x = some v := by
  unfold Mappings.remove at h
  split at h
  · cases h
  · exact h

theorem Mappings.remove_unmapped (maps : Mappings) (s e : Nat) : Unmapped (maps.remove s e) s e := by
  intro x v hx hmem
  rw [Mappings.remove, if_pos ⟨hmem.1, hmem.2⟩] at hx
  cases hx

theorem Backed.mono {maps maps' : Mappings} {list : VmaList} (h : Backed maps list)
    (hle : ∀ x v, maps' x = some v → maps x = some v) : Backed maps' list := fun x v hx => h x v (hle x v hx)

/-- **munmap** keeps what backs the addresses outside its range. -/
theorem sysMunmap_backed {maps : Mappings} {addr length : Nat} {s s' : Sys} {r : Except Errno Nat}
    (h : NoOverlap s.proc.vmas) (hback : Backed maps s.proc.vmas)
    (hroom : addr % pageSize = 0 → length ≠ 0 → Room s.proc.vmas addr (addr + munmapLength length))
    (hr : sysMunmap addr length s = some (r, s')) :
    (r = .error .EINVAL ∧ s' = s) ∨
      (r = .ok 0 ∧ Backed (maps.remove addr (addr + munmapLength length)) s'.proc.vmas ∧
        s'.proc.pageTable = s.proc.pageTable) := by
  unfold sysMunmap at hr
  split at hr
  · cases hr
    exact .inl ⟨rfl, rfl⟩
  · next hargs =>
    obtain ⟨len, hlen, hr⟩ := Option.bind_eq_some_iff.1 hr
    obtain ⟨stop, hstop, hr⟩ := Option.bind_eq_some_iff.1 hr
    cases addU64_some hstop
    have hpos := alignUp_pos (by decide) (by omega) hlen
    obtain rfl : len = munmapLength length := alignUp_some hlen
    obtain ⟨⟨emptied, vmas⟩, hrem, hr⟩ := Option.bind_eq_some_iff.1 hr
    cases hr
    have halign : (addr + munmapLength length) % pageSize = 0 := by
      rw [munmapLength, alignDown, Nat.add_mul_mod_self_right]
      omega
    have hdone := handleRangeRemoval_backed (by omega) halign (maps.remove_unmapped _ _) h (hroom (by omega) (by omega))
      (hback.mono fun x v => Mappings.remove_le) hrem
    exact .inr ⟨rfl, hdone.2, rfl⟩

/-! ## mmap -/

/-- The area that an accepted call asks for, at `base`. -/
def mapping (p : Process) (a : MmapArgs) (base : Nat) : Vma where
  start := base
  stop := base + mmapLength a
  flags :=
    if mapAnonymous a.flags then
      { protToVmaFlags a.prot with
        anon := true
        gigapage := mapHugetlb a.flags && useGiga a.flags
        hugepage := mapHugetlb a.flags && !useGiga a.flags }
    else protToVmaFlags a.prot
  inUse := true
  inode := if mapAnonymous a.flags then none else p.fdGet a.fd
  fileOffset := if mapAnonymous a.flags then 0 else a.offset
  fileSize := 0

/-- The areas that a new one is added to: a fixed mapping with small pages first removes its range. -/
def Cleared (a : MmapArgs) (list list' : VmaList) : Prop :=
  list' = list ∨ mapFixed a.flags = true ∧
    ∃ b, handleMapFixedOverlap list a.addr (a.addr + mmapLength a) = some (b, list')

/-- The areas after `sysMmap`. -/
inductive MmapAreas (a : MmapArgs) (s : Sys) : Except Errno Nat → Sys → Prop
  | rejected (e : Errno) (h : ¬ accepted s.proc a) : MmapAreas a s (.error e) s
  | failed (e : Errno) (s' : Sys) (h : accepted s.proc a) (hclear : Cleared a s.proc.vmas s'.proc.vmas)
      (hroot : s'.proc.pageTable = s.proc.pageTable) : MmapAreas a s (.error e) s'
  | mapped (base : Nat) (s' : Sys) (list : VmaList) (v : Vma) (h : accepted s.proc a)
      (hclear : Cleared a s.proc.vmas list) (hplace : place list v = some s'.proc.vmas)
      (hrange : v.range = (mapping s.proc a base).range) (hback : Backs (mapping s.proc a base) v)
      (hfixed : mapFixed a.flags = true → base = a.addr) (hroot : s'.proc.pageTable = s.proc.pageTable) :
      MmapAreas a s (.ok base) s'

section
variable {a : MmapArgs} {s s₀ s' : Sys} {r : Except Errno Nat} {base len : Nat}

theorem pageSize_dvd_mmapPage (a : MmapArgs) : pageSize ∣ mmapPage a := by
  unfold mmapPage hugeSize
  split
  · split
    · exact ⟨262144, by decide⟩
    · exact ⟨512, by decide⟩
  · exact dvd_rfl

theorem aligned_of_mmapPage (h : base % mmapPage a = 0) : base % pageSize = 0 :=
  Nat.mod_eq_zero_of_dvd ((pageSize_dvd_mmapPage a).trans (Nat.dvd_of_mod_eq_zero h))

theorem alignDown_mod (size n : Nat) : alignDown size n % size = 0 := Nat.mul_mod_left _ _

theorem mmapAt_areas {flags : Flags} {inode : Option Nat} {offset : Nat} (hacc : accepted s.proc a)
    (hclear : Cleared a s.proc.vmas s₀.proc.vmas) (hroot : s₀.proc.pageTable = s.proc.pageTable)
    (hbase : base % pageSize = 0) (hfixed : mapFixed a.flags = true → base = a.addr)
    (hflags : flags = (mapping s.proc a 0).flags) (hinode : inode = (mapping s.proc a 0).inode)
    (hoffset : offset = (mapping s.proc a 0).fileOffset)
    (hr : mmapAt base (mmapLength a) flags inode offset s₀ = some (r, s')) : MmapAreas a s r s' := by
  subst hflags hinode hoffset
  rcases mmapAt_cases hr with ⟨rfl, rfl⟩ | ⟨vmas, rfl, rfl, hadd⟩
  · exact .failed _ _ hacc hclear hroot
  · unfold addMmapVma addElfVma at hadd
    refine .mapped _ _ _ _ hacc hclear hadd ?_ ?_ hfixed hroot
    · rw [range_of_inUse rfl, range_of_inUse rfl]
      rfl
    · exact ⟨rfl, rfl, ⟨rfl, rfl⟩, ⟨rfl, rfl⟩, ⟨hbase, hbase⟩, fun _ => rfl⟩

theorem mmapHugeAt_areas (hacc : accepted s.proc a) (hvmas : s₀.proc.vmas = s.proc.vmas)
    (hroot : s₀.proc.pageTable = s.proc.pageTable) (hanon : mapAnonymous a.flags = true)
    (hhuge : mapHugetlb a.flags = true) (hbase : base % pageSize = 0)
    (hfixed : mapFixed a.flags = true → base = a.addr)
    (hr : mmapHugeAt a (mmapLength a) base s₀ = some (r, s')) : MmapAreas a s r s' := by
  rcases mmapHugeAt_cases hr with ⟨rfl, hproc⟩ | ⟨phys, vmas, rfl, hproc, hadd⟩
  · exact .failed _ _ hacc (.inl (by rw [hproc]; exact hvmas)) (by rw [hproc]; exact hroot)
  · unfold addMmapVmaHuge at hadd
    refine .mapped _ _ _ _ hacc (.inl hvmas) (by rw [hproc]; exact hadd) ?_ ?_ hfixed (by rw [hproc]; exact hroot)
    · rw [range_of_inUse rfl, range_of_inUse rfl]
      rfl
    · refine ⟨?_, ?_, ⟨rfl, rfl⟩, ⟨rfl, rfl⟩, ⟨hbase, hbase⟩, ?_⟩
      · simp [mapping, hanon, hhuge]
      · simp [mapping, hanon]
      · simp [mapping, hanon]

theorem mmapHuge_areas (hlen0 : a.length ≠ 0) (hwx : (protWrite a.prot && protExec a.prot) = false)
    (hanon : mapAnonymous a.flags = true) (hhuge : mapHugetlb a.flags = true) (hr : mmapHuge a s = some (r, s')) :
    MmapAreas a s r s' := by
  have hp : mmapPage a = hugeSize a.flags := by simp [mmapPage, hanon, hhuge]
  have hacc : (mapFixed a.flags = true → a.addr % mmapPage a = 0) → accepted s.proc a := fun hal =>
    ⟨hlen0, hwx, hal, fun hno => by simp [hanon] at hno⟩
  unfold mmapHuge at hr
  obtain ⟨len, hlen, hr⟩ := Option.bind_eq_some_iff.1 hr
  have hl : len = mmapLength a := by rw [mmapLength, hp, alignUp_some hlen]
  subst hl
  split at hr
  · next hfix =>
    split at hr
    · next hmis =>
      cases hr
      refine .rejected _ fun h => hmis ?_
      rw [← hp]
      exact h.2.2.1 hfix
    · next halign =>
      have halign : a.addr % mmapPage a = 0 := by rw [hp]; omega
      exact mmapHugeAt_areas (hacc fun _ => halign) rfl rfl hanon hhuge (aligned_of_mmapPage halign) (fun _ => rfl) hr
  · next hfix =>
    obtain ⟨⟨base, proc⟩, hbase, hr⟩ := Option.bind_eq_some_iff.1 hr
    obtain ⟨hb, -, rfl⟩ := allocMmapRegion_some hbase
    have halign : base % mmapPage a = 0 := by rw [hb, hp]; exact alignDown_mod _ _
    have hr : mmapHugeAt a (mmapLength a) base { s with proc.mmapHint := base } = some (r, s') := hr
    refine mmapHugeAt_areas (hacc fun h => absurd h hfix) ?_ ?_ hanon hhuge (aligned_of_mmapPage halign)
      (fun h => absurd h hfix) hr <;> rfl

theorem mmapSmall_areas {flags : Flags} {inode : Option Nat} {offset : Nat} (hp : mmapPage a = pageSize)
    (hacc : (mapFixed a.flags = true → a.addr % mmapPage a = 0) → accepted s.proc a)
    (hflags : flags = (mapping s.proc a 0).flags) (hinode : inode = (mapping s.proc a 0).inode)
    (hoffset : offset = (mapping s.proc a 0).fileOffset)
    (hr : mmapSmall a (mmapLength a) flags inode offset s = some (r, s')) : MmapAreas a s r s' := by
  unfold mmapSmall at hr
  split at hr
  · next hfix =>
    split at hr
    · next hmis =>
      cases hr
      refine .rejected _ fun h => hmis ?_
      rw [← hp]
      exact h.2.2.1 hfix
    · next halign =>
      obtain ⟨stop, hstop, hr⟩ := Option.bind_eq_some_iff.1 hr
      cases addU64_some hstop
      obtain ⟨⟨emptied, vmas⟩, hrem, hr⟩ := Option.bind_eq_some_iff.1 hr
      have hr : mmapAt a.addr (mmapLength a) flags inode offset { s with proc.vmas := vmas } = some (r, s') := hr
      refine mmapAt_areas (hacc fun _ => by rw [hp]; omega) ?_ ?_ (by omega) (fun _ => rfl) hflags hinode hoffset hr
      · exact .inr ⟨hfix, emptied, hrem⟩
      · rfl
  · next hfix =>
    obtain ⟨⟨base, proc⟩, hbase, hr⟩ := Option.bind_eq_some_iff.1 hr
    obtain ⟨hb, -, rfl⟩ := allocMmapRegion_some hbase
    have hr : mmapAt base (mmapLength a) flags inode offset { s with proc.mmapHint := base } = some (r, s') := hr
    refine mmapAt_areas (hacc fun h => absurd h hfix) ?_ ?_ (by rw [hb]; exact alignDown_mod _ _)
      (fun h => absurd h hfix) hflags hinode hoffset hr
    · exact .inl rfl
    · rfl

theorem sysMmap_areas (hr : sysMmap a s = some (r, s')) : MmapAreas a s r s' := by
  unfold sysMmap at hr
  split at hr
  · next hlen0 =>
    cases hr
    exact .rejected _ fun h => h.1 hlen0
  · next hlen0 =>
    obtain ⟨len, hlen, hr⟩ := Option.bind_eq_some_iff.1 hr
    split at hr
    · next hwx =>
      cases hr
      refine .rejected _ fun h => ?_
      rw [h.2.1] at hwx
      cases hwx
    · next hwx =>
      have hwx : (protWrite a.prot && protExec a.prot) = false := by simpa using hwx
      split at hr
      · next hanon =>
        split at hr
        · next hhuge => exact mmapHuge_areas hlen0 hwx hanon hhuge hr
        · next hhuge =>
          have hp : mmapPage a = pageSize := by simp [mmapPage, hhuge]
          obtain rfl : len = mmapLength a := by rw [mmapLength, hp, alignUp_some hlen]
          refine mmapSmall_areas hp (fun hal => ⟨hlen0, hwx, hal, fun hno => by simp [hanon] at hno⟩) ?_ ?_ ?_ hr
          · simp [mapping, hanon, hhuge, protToVmaFlags]
          · simp [mapping, hanon]
          · simp [mapping, hanon]
      · next hanon =>
        have hanon : mapAnonymous a.flags = false := by simpa using hanon
        split at hr
        · next hfd =>
          cases hr
          refine .rejected _ fun h => ?_
          have := (h.2.2.2 hanon).1
          omega
        · next hfd =>
          split at hr
          · next hget =>
            cases hr
            refine .rejected _ fun h => ?_
            have := (h.2.2.2 hanon).2
            rw [hget] at this
            cases this
          · next inode hget =>
            have hp : mmapPage a = pageSize := by simp [mmapPage, hanon]
            obtain rfl : len = mmapLength a := by rw [mmapLength, hp, alignUp_some hlen]
            refine mmapSmall_areas hp (fun hal => ⟨hlen0, hwx, hal, fun _ => ⟨by omega, by simp [hget]⟩⟩) ?_ ?_ ?_ hr
            · simp [mapping, hanon]
            · simp [mapping, hanon, hget]
            · simp [mapping, hanon]

end

/-! ## What backs an address after mmap -/

/-- The addresses of `v` are mapped by it. -/
def Mappings.add (maps : Mappings) (v : Vma) : Mappings := fun x => if v.start ≤ x ∧ x < v.stop then some v else maps x

theorem Mappings.add_some {maps : Mappings} {v w : Vma} {x : Nat} (h : maps.add v x = some w) :
    (w = v ∧ v.start ≤ x ∧ x < v.stop) ∨ maps x = some w := by
  unfold Mappings.add at h
  split at h
  · next hx =>
    cases h
    exact .inl ⟨rfl, hx⟩
  · exact .inr h

section
variable {maps : Mappings} {a : MmapArgs} {list list' : VmaList} {u v : Vma}

theorem Backed.place (h : Backed maps list) (hin : v.inUse = true) (hrange : u.range = v.range) (hback : Backs v u)
    (hp : Vma.place list u = some list') : Backed (maps.add v) list' := by
  obtain ⟨j, hfree, rfl⟩ := place_some hp
  intro x w hx
  rcases Mappings.add_some hx with ⟨rfl, hlo, hhi⟩ | hx
  · exact ⟨j, by
      rw [Function.update_self, hrange]
      exact ⟨⟨hin, hlo, hhi⟩, hback⟩⟩
  · obtain ⟨i, hi, hiback⟩ := h x w hx
    have hij : i ≠ j := by
      intro hij
      rw [← hij, hi.1] at hfree
      cases hfree
    exact ⟨i, by
      rw [Function.update_of_ne hij]
      exact ⟨hi, hiback⟩⟩

theorem mmapLength_mod (a : MmapArgs) : mmapLength a % mmapPage a = 0 := alignDown_mod _ _

theorem mmapLength_pos (h : a.length ≠ 0) : 0 < mmapLength a := by
  have hpage := mmapPage_pos a
  exact Nat.mul_pos (Nat.div_pos (by omega) hpage) hpage

theorem Cleared.backed {p : Process} (hc : Cleared a list list') (hacc : accepted p a) (h : NoOverlap list)
    (hback : Backed maps list)
    (hfixed : mapFixed a.flags = true →
      Unmapped maps a.addr (a.addr + mmapLength a) ∧ Room list a.addr (a.addr + mmapLength a)) : Backed maps list' := by
  rcases hc with rfl | ⟨hfix, b, hrem⟩
  · exact hback
  · have haddr : a.addr % mmapPage a = 0 := hacc.2.2.1 hfix
    have halign : (a.addr + mmapLength a) % mmapPage a = 0 := by
      rw [Nat.add_mod, haddr, mmapLength_mod]
      exact Nat.zero_mod _
    have hpos := mmapLength_pos hacc.1
    obtain ⟨hout, hroom⟩ := hfixed hfix
    exact (handleRangeRemoval_backed (by omega) (aligned_of_mmapPage halign) hout h hroom hback hrem).2

/-- **mmap** keeps what backs the mapped addresses, and its own range is backed by what was asked for. -/
theorem MmapAreas.backed {s s' : Sys} {r : Except Errno Nat} (hareas : MmapAreas a s r s') (h : NoOverlap s.proc.vmas)
    (hback : Backed maps s.proc.vmas)
    (hfixed : accepted s.proc a → mapFixed a.flags = true →
      Unmapped maps a.addr (a.addr + mmapLength a) ∧ Room s.proc.vmas a.addr (a.addr + mmapLength a)) :
    (∀ e, r = .error e → Backed maps s'.proc.vmas) ∧
      ∀ base, r = .ok base → Backed (maps.add (mapping s.proc a base)) s'.proc.vmas := by
  cases hareas with
  | rejected e hrej => exact ⟨fun _ _ => hback, nofun⟩
  | failed e s' hacc hclear hroot => exact ⟨fun _ _ => hclear.backed hacc h hback (hfixed hacc), nofun⟩
  | mapped base s' list v hacc hclear hplace hrange hmap hfix hroot =>
    refine ⟨nofun, fun b hb => ?_⟩
    cases hb
    exact (hclear.backed hacc h hback (hfixed hacc)).place rfl hrange hmap hplace

end

end Zigix.Mmap
