import Zigix.Mm.Mmap
import Zigix.Mm.VmaSpec

/-!
# Disjoint areas over runs of memory system calls

The allocator of `sysMmap` only lowers a hint; it never looks at the areas. Its ranges are free as long as nothing
else enters the arena `[floor, mmap_hint)` below the hint, and the areas stay disjoint as long as the calls that do
not remove what they cover (`MAP_FIXED | MAP_HUGETLB`, `mremap` in place, `brk`) are given addresses that are free.

* `syscall_inv` : one call; `areas_stay_disjoint` : any run.
-/

namespace Zigix.Mmap

open Slots Vma Vmm
open Pmm (addU64 subU64 mulU64)

/-! ## Alignment -/

theorem alignUp_some {size len n : Nat} (h : alignUp size len = some n) : n = alignDown size (len + size - 1) := by
  unfold alignUp addU64 at h
  split at h
  · exact (Option.some.inj h).symm
  · cases h

theorem alignUp_pos {size len n : Nat} (hs : 0 < size) (hl : len ≠ 0) (h : alignUp size len = some n) : 0 < n := by
  rw [alignUp_some h, alignDown]
  exact Nat.mul_pos (Nat.div_pos (by omega) hs) hs

theorem alignDown_le (size n : Nat) : alignDown size n ≤ n := Nat.div_mul_le_self n size

theorem addU64_some {a b c : Nat} (h : addU64 a b = some c) : c = a + b := by
  unfold addU64 at h
  split at h
  · exact (Option.some.inj h).symm
  · cases h

theorem allocMmapRegion_some {size len base : Nat} {p p' : Process}
    (h : allocMmapRegion size p len = some (base, p')) :
    base = alignDown size (p.mmapHint - len) ∧ base + len ≤ p.mmapHint ∧ p' = { p with mmapHint := base } := by
  unfold allocMmapRegion subU64 at h
  split at h
  · next hle =>
    cases h
    have := alignDown_le size (p.mmapHint - len)
    exact ⟨rfl, by omega, rfl⟩
  · cases h

/-! ## The invariant -/

/-- The addresses that the allocator will hand out, down to `floor`. -/
def arena (floor : Nat) (p : Process) : Set Nat := Set.Ico floor p.mmapHint

structure Inv (floor : Nat) (p : Process) : Prop where
  noOverlap : NoOverlap p.vmas
  arenaFree : Disjoint (arena floor p) (covered (ranges p.vmas))

section Steps
variable {floor : Nat} {p : Process} {list list' : VmaList} {v : Vma}

theorem Inv.refines (h : Inv floor p) (hr : Refines p.vmas list) : Inv floor { p with vmas := list } :=
  ⟨(hr h.noOverlap).1, h.arenaFree.mono_right (hr h.noOverlap).2⟩

theorem Inv.place (h : Inv floor p) (hfree : Disjoint v.range (covered (ranges p.vmas)))
    (harena : Disjoint (arena floor p) v.range) (hp : Vma.place p.vmas v = some list) :
    Inv floor { p with vmas := list } := by
  obtain ⟨h₁, h₂⟩ := place_spec h.noOverlap hfree hp
  exact ⟨h₁, (Set.disjoint_union_right.2 ⟨h.arenaFree, harena⟩).mono_right h₂⟩

theorem Inv.bump {base : Nat} (h : Inv floor p) (hb : base ≤ p.mmapHint) : Inv floor { p with mmapHint := base } :=
  ⟨h.noOverlap, h.arenaFree.mono_left (Set.Ico_subset_Ico_right hb)⟩

theorem Inv.bump_free {base len : Nat} (h : Inv floor p) (hf : floor ≤ base) (hb : base + len ≤ p.mmapHint) :
    Disjoint (Set.Ico base (base + len)) (covered (ranges p.vmas)) :=
  h.arenaFree.mono_left (Set.Ico_subset_Ico hf hb)

theorem Inv.setStop {i : Fin maxVmas} {newEnd : Nat} (h : Inv floor p)
    (hfree : ∀ j, j ≠ i → Disjoint (Set.Ico (p.vmas i).stop newEnd) (p.vmas j).range)
    (harena : Disjoint (arena floor p) (Set.Ico (p.vmas i).stop newEnd)) :
    Inv floor { p with vmas := Vma.setStop p.vmas i newEnd } := by
  have hsub : ({ p.vmas i with stop := newEnd } : Vma).range ⊆ (p.vmas i).range ∪ Set.Ico (p.vmas i).stop newEnd := by
    intro a ha
    by_cases hlt : a < (p.vmas i).stop
    · exact .inl ⟨ha.1, ha.2.1, hlt⟩
    · exact .inr ⟨by omega, ha.2.2⟩
  have hcov : covered (ranges (Vma.setStop p.vmas i newEnd)) ⊆
      covered (ranges p.vmas) ∪ Set.Ico (p.vmas i).stop newEnd := by
    rw [Vma.setStop, ranges_update]
    refine (covered_update _ _ _).trans (Set.union_subset Set.subset_union_left (hsub.trans ?_))
    exact Set.union_subset_union_left _ (subset_covered (ranges p.vmas) i)
  refine ⟨?_, (Set.disjoint_union_right.2 ⟨h.arenaFree, harena⟩).mono_right hcov⟩
  show NoOverlap (Vma.setStop p.vmas i newEnd)
  rw [NoOverlap, Vma.setStop, ranges_update]
  refine h.noOverlap.replace fun j hj => ?_
  exact (Set.disjoint_union_left.2 ⟨h.noOverlap hj.symm, hfree j hj⟩).mono_left hsub

end Steps

/-! ## mmap -/

section Mmap
variable {floor base len : Nat} {s s' : Sys} {r : Except Errno Nat}

theorem range_of_inUse {v : Vma} (h : v.inUse = true) : v.range = Set.Ico v.start v.stop := by
  ext a
  simp [range, h]

theorem mmapAt_cases {flags : Flags} {inode : Option Nat} {offset : Nat}
    (hr : mmapAt base len flags inode offset s = some (r, s')) :
    (r = .error .ENOMEM ∧ s' = s) ∨
      ∃ vmas, r = .ok base ∧ s' = { s with proc.vmas := vmas } ∧
        addMmapVma s.proc.vmas base (base + len) flags inode offset = some vmas := by
  unfold mmapAt at hr
  obtain ⟨stop, hstop, hr⟩ := Option.bind_eq_some_iff.1 hr
  cases addU64_some hstop
  split at hr
  · cases hr
    exact .inl ⟨rfl, rfl⟩
  · next vmas hadd =>
    cases hr
    exact .inr ⟨vmas, rfl, rfl, hadd⟩

/-- So with huge pages; a failure leaves the process alone, and the machine may change in any way. -/
theorem mmapHugeAt_cases {a : MmapArgs} (hr : mmapHugeAt a len base s = some (r, s')) :
    (r = .error .ENOMEM ∧ s'.proc = s.proc) ∨
      ∃ phys vmas, r = .ok base ∧ s'.proc = { s.proc with vmas } ∧
        addMmapVmaHuge s.proc.vmas base (base + len)
          { protToVmaFlags a.prot with anon := true, gigapage := useGiga a.flags, hugepage := !useGiga a.flags } phys = some vmas := by
  unfold mmapHugeAt at hr
  obtain ⟨⟨phys, pmm⟩, -, hr⟩ := Option.bind_eq_some_iff.1 hr
  cases phys with
  | none =>
    cases hr
    exact .inl ⟨rfl, rfl⟩
  | some phys =>
    obtain ⟨⟨failed, m⟩, -, hr⟩ := Option.bind_eq_some_iff.1 hr
    cases failed with
    | some i =>
      obtain ⟨m', -, hr⟩ := Option.bind_eq_some_iff.1 hr
      cases hr
      exact .inl ⟨rfl, rfl⟩
    | none =>
      obtain ⟨stop, hstop, hr⟩ := Option.bind_eq_some_iff.1 hr
      cases addU64_some hstop
      split at hr
      · obtain ⟨m', -, hr⟩ := Option.bind_eq_some_iff.1 hr
        cases hr
        exact .inl ⟨rfl, rfl⟩
      · next vmas hadd =>
        cases hr
        exact .inr ⟨phys, vmas, rfl, rfl, hadd⟩

theorem mmapAt_inv {flags : Flags} {inode : Option Nat} {offset : Nat} (h : Inv floor s.proc)
    (hfree : Disjoint (Set.Ico base (base + len)) (covered (ranges s.proc.vmas)))
    (harena : Disjoint (arena floor s.proc) (Set.Ico base (base + len)))
    (hr : mmapAt base len flags inode offset s = some (r, s')) :
    Inv floor s'.proc ∧ ∀ b, r = .ok b → b = base := by
  rcases mmapAt_cases hr with ⟨rfl, rfl⟩ | ⟨vmas, rfl, rfl, hadd⟩
  · exact ⟨h, nofun⟩
  · unfold addMmapVma addElfVma at hadd
    exact ⟨h.place (by rwa [range_of_inUse rfl]) (by rwa [range_of_inUse rfl]) hadd,
      fun b hb => (Except.ok.inj hb).symm⟩

theorem mmapHugeAt_inv {a : MmapArgs} (h : Inv floor s.proc)
    (hfree : Disjoint (Set.Ico base (base + len)) (covered (ranges s.proc.vmas)))
    (harena : Disjoint (arena floor s.proc) (Set.Ico base (base + len)))
    (hr : mmapHugeAt a len base s = some (r, s')) : Inv floor s'.proc ∧ ∀ b, r = .ok b → b = base := by
  rcases mmapHugeAt_cases hr with ⟨rfl, hproc⟩ | ⟨phys, vmas, rfl, hproc, hadd⟩
  · rw [hproc]
    exact ⟨h, nofun⟩
  · rw [hproc]
    unfold addMmapVmaHuge at hadd
    exact ⟨h.place (by rwa [range_of_inUse rfl]) (by rwa [range_of_inUse rfl]) hadd,
      fun b hb => (Except.ok.inj hb).symm⟩

def mmapPage (a : MmapArgs) : Nat :=
  if mapAnonymous a.flags && mapHugetlb a.flags then hugeSize a.flags else Pmm.pageSize

def mmapLength (a : MmapArgs) : Nat := alignDown (mmapPage a) (a.length + mmapPage a - 1)

theorem mmapPage_pos (a : MmapArgs) : 0 < mmapPage a := by
  unfold mmapPage hugeSize
  split
  · split <;> decide
  · decide

/-- The arguments pass the checks of `sysMmap`. -/
def accepted (p : Process) (a : MmapArgs) : Prop :=
  a.length ≠ 0 ∧ (protWrite a.prot && protExec a.prot) = false ∧
    (mapFixed a.flags = true → a.addr % mmapPage a = 0) ∧
    (mapAnonymous a.flags = false → a.fd < 2 ^ 63 ∧ (p.fdGet a.fd).isSome = true)

/-- What `mmap` may be asked for. -/
structure MmapMeets (floor : Nat) (p : Process) (a : MmapArgs) : Prop where
  /-- a fixed mapping keeps off the arena -/
  keepsOff : mapFixed a.flags = true → Disjoint (arena floor p) (Set.Ico a.addr (a.addr + mmapLength a))
  /-- and with huge pages off every area -/
  hugeFree : mapFixed a.flags = true → mapAnonymous a.flags = true → mapHugetlb a.flags = true →
    Disjoint (Set.Ico a.addr (a.addr + mmapLength a)) (covered (ranges p.vmas))
  /-- the allocator stays above the floor of the arena -/
  aboveFloor : mapFixed a.flags = false → floor ≤ alignDown (mmapPage a) (p.mmapHint - mmapLength a)

/-- What a call of `sysMmap` achieves. -/
structure MmapDone (floor : Nat) (a : MmapArgs) (s : Sys) (r : Except Errno Nat) (s' : Sys) : Prop where
  inv : Inv floor s'.proc
  free : mapFixed a.flags = false → ∀ b, r = .ok b →
    Disjoint (Set.Ico b (b + mmapLength a)) (covered (ranges s.proc.vmas))

theorem MmapDone.failed {a : MmapArgs} {e : Errno} (h : Inv floor s'.proc) : MmapDone floor a s (.error e) s' :=
  ⟨h, fun _ => nofun⟩

theorem Inv.arena_bump (base : Nat) (p : Process) :
    Disjoint (arena floor { p with mmapHint := base }) (Set.Ico base (base + len)) :=
  Set.disjoint_left.2 fun _ ha hb => absurd (ha.2.trans_le hb.1) (lt_irrefl _)

theorem mmapHuge_spec {a : MmapArgs} (hp : mmapPage a = hugeSize a.flags) (hanon : mapAnonymous a.flags = true)
    (hhuge : mapHugetlb a.flags = true) (h : Inv floor s.proc)
    (hm : (mapFixed a.flags = true → a.addr % mmapPage a = 0) → MmapMeets floor s.proc a)
    (hr : mmapHuge a s = some (r, s')) : MmapDone floor a s r s' := by
  unfold mmapHuge at hr
  obtain ⟨len, hlen, hr⟩ := Option.bind_eq_some_iff.1 hr
  have hl : len = mmapLength a := by rw [mmapLength, hp, alignUp_some hlen]
  subst hl
  split at hr
  · next hfix =>
    split at hr
    · cases hr
      exact .failed h
    · next halign =>
      have hm := hm fun _ => by rw [hp]; omega
      have := mmapHugeAt_inv h (hm.hugeFree hfix hanon hhuge) (hm.keepsOff hfix) hr
      exact ⟨this.1, fun hno => absurd hfix (by simp [hno])⟩
  · next hfix =>
    have hfix : mapFixed a.flags = false := by simpa using hfix
    have hm := hm fun hf => by simp [hfix] at hf
    obtain ⟨⟨base, proc⟩, hbase, hr⟩ := Option.bind_eq_some_iff.1 hr
    obtain ⟨hb, hle, rfl⟩ := allocMmapRegion_some hbase
    have hfloor : floor ≤ base := by rw [hb, ← hp]; exact hm.aboveFloor hfix
    have hfree := h.bump_free hfloor hle
    have := mmapHugeAt_inv (s := { s with proc.mmapHint := base }) (h.bump (by omega)) hfree
      (Inv.arena_bump base s.proc) hr
    exact ⟨this.1, fun _ b hb => by rw [this.2 b hb]; exact hfree⟩

theorem mmapSmall_spec {a : MmapArgs} {flags : Flags} {inode : Option Nat} {offset : Nat}
    (hp : mmapPage a = Pmm.pageSize) (hpos : 0 < mmapLength a) (h : Inv floor s.proc)
    (hm : (mapFixed a.flags = true → a.addr % mmapPage a = 0) → MmapMeets floor s.proc a) (hr : mmapSmall a (mmapLength a) flags inode offset s = some (r, s')) :
    MmapDone floor a s r s' := by
  unfold mmapSmall at hr
  split at hr
  · next hfix =>
    split at hr
    · cases hr
      exact .failed h
    · next halign =>
      have hm := hm fun _ => by rw [hp]; omega
      obtain ⟨stop, hstop, hr⟩ := Option.bind_eq_some_iff.1 hr
      cases addU64_some hstop
      obtain ⟨⟨emptied, vmas⟩, hrem, hr⟩ := Option.bind_eq_some_iff.1 hr
      obtain ⟨href, hout, hfull⟩ := handleRangeRemoval_spec (by omega) hrem
      have hinv := h.refines href
      refine ⟨?_, fun hno => absurd hfix (by simp [hno])⟩
      cases emptied with
      | true => exact (mmapAt_inv (s := { s with proc.vmas := vmas }) hinv (hout rfl) (hm.keepsOff hfix) hr).1
      | false =>
        -- a full table: the area is not added either
        rcases mmapAt_cases hr with ⟨-, rfl⟩ | ⟨_, -, -, hadd⟩
        · exact hinv
        · unfold addMmapVma addElfVma at hadd
          obtain ⟨i, hi, -⟩ := place_some hadd
          have := hfull rfl i
          simp_all
  · next hfix =>
    have hfix : mapFixed a.flags = false := by simpa using hfix
    have hm := hm fun hf => by simp [hfix] at hf
    obtain ⟨⟨base, proc⟩, hbase, hr⟩ := Option.bind_eq_some_iff.1 hr
    obtain ⟨hb, hle, rfl⟩ := allocMmapRegion_some hbase
    have hfloor : floor ≤ base := by rw [hb, ← hp]; exact hm.aboveFloor hfix
    have hfree := h.bump_free hfloor hle
    have := mmapAt_inv (s := { s with proc.mmapHint := base }) (h.bump (by omega)) hfree
      (Inv.arena_bump base s.proc) hr
    exact ⟨this.1, fun _ b hb => by rw [this.2 b hb]; exact hfree⟩

/-- **One mmap.** -/
theorem sysMmap_spec {a : MmapArgs} (h : Inv floor s.proc) (hm : accepted s.proc a → MmapMeets floor s.proc a)
    (hr : sysMmap a s = some (r, s')) : MmapDone floor a s r s' := by
  unfold sysMmap at hr
  split at hr
  · cases hr
    exact .failed h
  · next hlen0 =>
    obtain ⟨len, hlen, hr⟩ := Option.bind_eq_some_iff.1 hr
    have hsmall : mmapPage a = Pmm.pageSize → len = mmapLength a ∧ 0 < mmapLength a := fun hp => by
      have : len = mmapLength a := by rw [mmapLength, hp, alignUp_some hlen]
      exact ⟨this, this ▸ alignUp_pos (by decide) hlen0 hlen⟩
    split at hr
    · cases hr
      exact .failed h
    · next hwx =>
      have hwx : (protWrite a.prot && protExec a.prot) = false := by simpa using hwx
      split at hr
      · next hanon =>
        have hm := fun hal => hm ⟨hlen0, hwx, hal, fun hno => by simp [hanon] at hno⟩
        split at hr
        · next hhuge => exact mmapHuge_spec (by simp [mmapPage, hanon, hhuge]) hanon hhuge h hm hr
        · next hhuge =>
          have hp : mmapPage a = Pmm.pageSize := by simp [mmapPage, hhuge]
          obtain ⟨rfl, hpos⟩ := hsmall hp
          exact mmapSmall_spec hp hpos h hm hr
      · next hanon =>
        split at hr
        · cases hr
          exact .failed h
        · next hfd =>
          split at hr
          · cases hr
            exact .failed h
          · next inode hget =>
            have hm := fun hal => hm ⟨hlen0, hwx, hal, fun _ => ⟨by omega, by simp [hget]⟩⟩
            have hp : mmapPage a = Pmm.pageSize := by simp [mmapPage, hanon]
            obtain ⟨rfl, hpos⟩ := hsmall hp
            exact mmapSmall_spec hp hpos h hm hr

end Mmap

/-! ## munmap and mprotect -/

section Ranges
variable {floor addr length prot : Nat} {s s' : Sys} {r : Except Errno Nat}

theorem sysMunmap_inv (h : Inv floor s.proc) (hr : sysMunmap addr length s = some (r, s')) : Inv floor s'.proc := by
  unfold sysMunmap at hr
  split at hr
  · cases hr
    exact h
  · next hargs =>
    obtain ⟨len, hlen, hr⟩ := Option.bind_eq_some_iff.1 hr
    obtain ⟨stop, hstop, hr⟩ := Option.bind_eq_some_iff.1 hr
    cases addU64_some hstop
    have hpos := alignUp_pos (by decide) (by omega) hlen
    obtain ⟨⟨emptied, vmas⟩, hrem, hr⟩ := Option.bind_eq_some_iff.1 hr
    cases hr
    exact h.refines (handleRangeRemoval_spec (by omega) hrem).1

theorem sysMprotect_inv (h : Inv floor s.proc) (hr : sysMprotect addr length prot s = some (r, s')) :
    Inv floor s'.proc := by
  unfold sysMprotect at hr
  split at hr
  · cases hr
    exact h
  · next hargs =>
    obtain ⟨len, hlen, hr⟩ := Option.bind_eq_some_iff.1 hr
    obtain ⟨stop, hstop, hr⟩ := Option.bind_eq_some_iff.1 hr
    cases addU64_some hstop
    have hpos := alignUp_pos (by decide) (by omega) hlen
    split at hr
    · cases hr
      exact h
    · obtain ⟨⟨done, vmas⟩, hsplit, hr⟩ := Option.bind_eq_some_iff.1 hr
      have hinv := h.refines (splitForProtect_spec (by omega) hsplit)
      simp only at hr
      split at hr
      · cases hr
        exact hinv
      · split at hr
        · cases hr
          exact hinv
        · cases hr
          exact hinv

end Ranges

/-! ## mremap and brk -/

/-- The area in slot `i` may end at `newEnd`: no other area and no arena lies in between. -/
structure MayEnd (floor : Nat) (p : Process) (i : Fin maxVmas) (newEnd : Nat) : Prop where
  others : ∀ j, j ≠ i → Disjoint (Set.Ico (p.vmas i).stop newEnd) (p.vmas j).range
  arena : Disjoint (arena floor p) (Set.Ico (p.vmas i).stop newEnd)

theorem Inv.mayEnd {floor : Nat} {p : Process} {i : Fin maxVmas} {newEnd : Nat} (h : Inv floor p)
    (hm : MayEnd floor p i newEnd) : Inv floor { p with vmas := Vma.setStop p.vmas i newEnd } :=
  h.setStop hm.others hm.arena

theorem MayEnd.of_le {floor : Nat} {p : Process} {i : Fin maxVmas} {newEnd : Nat} (h : newEnd ≤ (p.vmas i).stop) :
    MayEnd floor p i newEnd := by
  have : Set.Ico (p.vmas i).stop newEnd = ∅ := Set.Ico_eq_empty_of_le h
  exact ⟨fun _ _ => by simp [this], by simp [this]⟩

/-- What `mremap` may be asked for: a new end in place, or a move into the arena. -/
def MremapMeets (floor : Nat) (p : Process) (oldAddr oldSize newSize : Nat) : Prop :=
  ∀ i, findVma p.vmas oldAddr = some i → ∀ alignedOld alignedNew,
    alignUp Pmm.pageSize oldSize = some alignedOld → alignUp Pmm.pageSize newSize = some alignedNew →
    if alignedNew ≤ alignedOld ∨ canGrow p.vmas (p.vmas i) (oldAddr + alignedOld) (oldAddr + alignedNew) = true then
      MayEnd floor p i (oldAddr + alignedNew)
    else floor ≤ alignDown Pmm.pageSize (p.mmapHint - alignedNew)

theorem refines_removeVma (list : VmaList) (start : Nat) : Refines list (removeVma list start).2 := by
  unfold removeVma
  split
  · exact .refl list
  · exact refines_shrink (by simp [range])

theorem sysMremap_inv {floor oldAddr oldSize newSize flags : Nat} {s s' : Sys} {r : Except Errno Nat}
    (h : Inv floor s.proc) (hm : MremapMeets floor s.proc oldAddr oldSize newSize)
    (hr : sysMremap oldAddr oldSize newSize flags s = some (r, s')) : Inv floor s'.proc := by
  unfold sysMremap at hr
  split at hr
  · cases hr
    exact h
  · obtain ⟨alignedOld, hold, hr⟩ := Option.bind_eq_some_iff.1 hr
    obtain ⟨alignedNew, hnew, hr⟩ := Option.bind_eq_some_iff.1 hr
    simp only at hr
    split at hr
    · cases hr
      exact h
    · next vi hfind =>
      have hm := hm vi hfind _ _ hold hnew
      split at hr
      · next hle =>
        rw [if_pos (.inl hle)] at hm
        obtain ⟨newEnd, hend, hr⟩ := Option.bind_eq_some_iff.1 hr
        cases addU64_some hend
        obtain ⟨oldEnd, -, hr⟩ := Option.bind_eq_some_iff.1 hr
        cases hr
        exact h.mayEnd hm
      · next hgt =>
        obtain ⟨newEnd, hend, hr⟩ := Option.bind_eq_some_iff.1 hr
        cases addU64_some hend
        split at hr
        · next hgrow =>
          cases hr
          rw [if_pos (.inr hgrow)] at hm
          exact h.mayEnd hm
        · next hno =>
          rw [if_neg (not_or.2 ⟨hgt, hno⟩)] at hm
          split at hr
          · cases hr
            exact h
          · obtain ⟨⟨newAddr, proc⟩, hbase, hr⟩ := Option.bind_eq_some_iff.1 hr
            obtain ⟨hb, hle, rfl⟩ := allocMmapRegion_some hbase
            have hbump : Inv floor { s.proc with mmapHint := newAddr } := h.bump (by omega)
            obtain ⟨stop, hstop, hr⟩ := Option.bind_eq_some_iff.1 hr
            cases addU64_some hstop
            split at hr
            · cases hr
              exact hbump
            · next vmas hadd =>
              cases hr
              unfold addMmapVma addElfVma at hadd
              have hfree := h.bump_free (by rw [hb]; exact hm) hle
              have hplaced := hbump.place (by rwa [range_of_inUse rfl])
                (by rw [range_of_inUse rfl]; exact Inv.arena_bump newAddr s.proc) hadd
              exact hplaced.refines (refines_removeVma vmas oldAddr)

/-- What `brk` may be asked for: the heap grows over free addresses below the arena. -/
structure HeapMayGrow (floor : Nat) (p : Process) (newBreak : Nat) : Prop where
  extend : ∀ i, heapVma p = some i → MayEnd floor p i newBreak
  free : heapVma p = none →
    Disjoint (Set.Ico (max p.heapCurrent p.heapStart) newBreak) (covered (ranges p.vmas))
  arena : heapVma p = none → Disjoint (arena floor p) (Set.Ico (max p.heapCurrent p.heapStart) newBreak)

def BrkMeets (floor : Nat) (p : Process) (requested : Nat) : Prop :=
  ∀ newBreak, alignUp Pmm.pageSize requested = some newBreak → p.heapCurrent < newBreak →
    p.heapStart ≤ newBreak → newBreak - p.heapStart ≤ maxHeap → HeapMayGrow floor p newBreak

theorem expandHeap_inv {floor newBreak : Nat} {p : Process} (h : Inv floor p) (hm : HeapMayGrow floor p newBreak) :
    Inv floor { p with vmas := expandHeap p newBreak } := by
  unfold expandHeap
  split
  · next i hi => exact h.mayEnd (hm.extend i hi)
  · next hnone =>
    have hfree := hm.free hnone
    have harena := hm.arena hnone
    cases hadd : addVma p.vmas (max p.heapCurrent p.heapStart) newBreak heapFlags with
    | none => exact h
    | some vmas =>
      unfold addVma addMmapVma addElfVma at hadd
      exact h.place (by rwa [range_of_inUse rfl]) (by rwa [range_of_inUse rfl]) hadd

theorem shrinkHeap_inv {floor newBreak : Nat} {p : Process} (h : Inv floor p) :
    Inv floor { p with vmas := shrinkHeap p newBreak } := by
  unfold shrinkHeap
  split
  · split
    · next i hi =>
      have := (findVma_some hi).2.2
      exact h.mayEnd (.of_le (by omega))
    · exact h
  · exact h

theorem sysBrk_inv {floor requested : Nat} {s s' : Sys} {r : Except Errno Nat} (h : Inv floor s.proc)
    (hm : BrkMeets floor s.proc requested) (hr : sysBrk requested s = some (r, s')) : Inv floor s'.proc := by
  unfold sysBrk at hr
  split at hr
  · cases hr
    exact h
  · obtain ⟨newBreak, hnew, hr⟩ := Option.bind_eq_some_iff.1 hr
    split at hr
    · cases hr
      exact h
    · next hlow =>
      split at hr
      · cases hr
        exact h
      · next hlimit =>
        split at hr
        · next hgt =>
          cases hr
          have := expandHeap_inv h (hm _ hnew hgt (by omega) (by omega))
          exact ⟨this.noOverlap, this.arenaFree⟩
        · split at hr
          · cases hr
            have : Inv floor { s.proc with vmas := shrinkHeap s.proc newBreak } := shrinkHeap_inv h
            exact ⟨this.noOverlap, this.arenaFree⟩
          · cases hr
            exact h

/-! ## Runs -/

/-- The rules for a call on process `p`. -/
def Meets (floor : Nat) (p : Process) : Call → Prop
  | .mmap a => accepted p a → MmapMeets floor p a
  | .mremap oldAddr oldSize newSize _ => MremapMeets floor p oldAddr oldSize newSize
  | .brk requested => BrkMeets floor p requested
  | .munmap _ _ => True
  | .mprotect _ _ _ => True

/-- **One call** that keeps to the rules keeps the invariant. -/
theorem syscall_inv {floor : Nat} {s s' : Sys} {c : Call} {r : Except Errno Nat} (h : Inv floor s.proc)
    (hm : Meets floor s.proc c) (hr : syscall c s = some (r, s')) : Inv floor s'.proc := by
  unfold syscall at hr
  cases c with
  | mmap a => exact (sysMmap_spec h hm hr).inv
  | munmap addr length => exact sysMunmap_inv h hr
  | mprotect addr length prot => exact sysMprotect_inv h hr
  | mremap oldAddr oldSize newSize flags => exact sysMremap_inv h hm hr
  | brk requested => exact sysBrk_inv h hm hr

/-- The state after a sequence of calls; `none` after a panic. -/
def run (s : Sys) : List Call → Option Sys
  | [] => some s
  | c :: cs =>
    match syscall c s with
    | none => none
    | some (_, s') => run s' cs

def AllMeet (floor : Nat) (s : Sys) : List Call → Prop
  | [] => True
  | c :: cs => Meets floor s.proc c ∧ ∀ r s', syscall c s = some (r, s') → AllMeet floor s' cs

theorem run_inv {floor : Nat} {s s' : Sys} {cs : List Call} (h : Inv floor s.proc) (hm : AllMeet floor s cs)
    (hr : run s cs = some s') : Inv floor s'.proc := by
  induction cs generalizing s with
  | nil =>
    cases hr
    exact h
  | cons c cs ih =>
    rw [run] at hr
    rcases hc : syscall c s with - | ⟨r, s₁⟩
    · rw [hc] at hr
      cases hr
    · rw [hc] at hr
      exact ih (syscall_inv h hm.1 hc) (hm.2 r s₁ hc) hr

/-- **Disjoint areas.** From disjoint areas and a free arena, after any run whose calls keep to the rules the areas
are disjoint, and a further `mmap` without `MAP_FIXED` that keeps to them gets a range that no area covered. -/
theorem areas_stay_disjoint {floor : Nat} {s s' : Sys} {cs : List Call} (h : NoOverlap s.proc.vmas)
    (harena : Disjoint (arena floor s.proc) (covered (ranges s.proc.vmas))) (hm : AllMeet floor s cs)
    (hr : run s cs = some s') :
    NoOverlap s'.proc.vmas ∧ ∀ a base s'', mapFixed a.flags = false → Meets floor s'.proc (.mmap a) →
      sysMmap a s' = some (.ok base, s'') →
      Disjoint (Set.Ico base (base + mmapLength a)) (covered (ranges s'.proc.vmas)) := by
  have hinv := run_inv ⟨h, harena⟩ hm hr
  refine ⟨hinv.noOverlap, fun a base s'' hfix hmeet hok => ?_⟩
  exact (sysMmap_spec hinv hmeet hok).free hfix base rfl

/-! ## A fixed mapping just below the hint -/

/-- A process without areas. -/
def emptyProcess : Sys where
  machine := .boot
  proc :=
    { pageTable := 512, heapStart := 0x500000, heapCurrent := 0x500000, fds := fun _ => none, vmas := emptyVmaList,
      mmapHint := 0x700000000000 }

def anyPage : MmapArgs := { addr := 0, length := 0x1000, prot := 3, flags := 0x22, fd := 0, offset := 0 }

def fixedPage : MmapArgs := { anyPage with addr := 0x6ffffffff000, flags := 0x32 }

theorem noOverlap_empty : NoOverlap emptyProcess.proc.vmas := by
  intro i j _
  show Disjoint emptyVma.range emptyVma.range
  rw [range_eq_empty rfl]
  exact Set.disjoint_empty _

theorem covered_empty : covered (ranges emptyProcess.proc.vmas) = ∅ := by
  refine Set.eq_empty_of_forall_notMem fun a ha => ?_
  obtain ⟨i, hi⟩ := mem_covered.1 ha
  exact Bool.false_ne_true hi.1

theorem areas_stay_disjoint_anyPage : ∃ s', run emptyProcess [.mmap anyPage] = some s' ∧ NoOverlap s'.proc.vmas := by
  have hsome : (run emptyProcess [.mmap anyPage]).isSome = true := by decide +kernel
  obtain ⟨s', hs'⟩ := Option.isSome_iff_exists.1 hsome
  have hmeets : MmapMeets 0x100000000 emptyProcess.proc anyPage :=
    ⟨nofun, nofun, fun _ => by decide⟩
  have hall : AllMeet 0x100000000 emptyProcess [.mmap anyPage] := ⟨fun _ => hmeets, fun _ _ _ => trivial⟩
  have harena : Disjoint (arena 0x100000000 emptyProcess.proc) (covered (ranges emptyProcess.proc.vmas)) := by
    rw [covered_empty]
    exact Set.disjoint_empty _
  exact ⟨s', hs', (areas_stay_disjoint noOverlap_empty harena hall hs').1⟩

/-- The allocator hands out the page that the fixed mapping just took. -/
theorem areas_overlap_after_fixed :
    NoOverlap emptyProcess.proc.vmas ∧ ∃ s₁ s₂, run emptyProcess [.mmap fixedPage] = some s₁ ∧
      sysMmap anyPage s₁ = some (.ok 0x6ffffffff000, s₂) ∧
      ¬ Disjoint (Set.Ico 0x6ffffffff000 (0x6ffffffff000 + mmapLength anyPage)) (covered (ranges s₁.proc.vmas)) ∧
      ¬ NoOverlap s₂.proc.vmas := by
  let page : Vma :=
    { start := 0x6ffffffff000, stop := 0x700000000000, flags := { protToVmaFlags 3 with anon := true }, inUse := true,
      inode := none, fileOffset := 0, fileSize := 0 }
  have h₁ : (run emptyProcess [.mmap fixedPage]).map (fun s => s.proc.vmas 0) = some page := by decide +kernel
  have h₂ : ((run emptyProcess [.mmap fixedPage]).bind (sysMmap anyPage)).map
      (fun r => (r.1, r.2.proc.vmas 0, r.2.proc.vmas 1)) = some (.ok 0x6ffffffff000, page, page) := by decide +kernel
  obtain ⟨s₁, hs₁, hv⟩ := Option.map_eq_some_iff.1 h₁
  rw [hs₁, Option.bind_some] at h₂
  obtain ⟨⟨r, s₂⟩, hs₂, hr⟩ := Option.map_eq_some_iff.1 h₂
  obtain ⟨rfl, hv₀, hv₁⟩ : r = .ok 0x6ffffffff000 ∧ s₂.proc.vmas 0 = page ∧ s₂.proc.vmas 1 = page := by
    simpa using hr
  have hmem : 0x6ffffffff000 ∈ page.range := ⟨rfl, by decide, by decide⟩
  refine ⟨noOverlap_empty, s₁, s₂, hs₁, hs₂, fun hd => ?_, fun hno => ?_⟩
  · have hlen : mmapLength anyPage = 0x1000 := by decide +kernel
    have hin : 0x6ffffffff000 ∈ Set.Ico 0x6ffffffff000 (0x6ffffffff000 + mmapLength anyPage) := by
      rw [hlen]
      simp
    refine Set.disjoint_left.1 hd hin (mem_covered.2 ⟨0, ?_⟩)
    show 0x6ffffffff000 ∈ (s₁.proc.vmas 0).range
    rwa [hv]
  · have hd : Disjoint (s₂.proc.vmas 0).range (s₂.proc.vmas 1).range := hno (by decide : (0 : Fin maxVmas) ≠ 1)
    rw [hv₀, hv₁] at hd
    exact Set.disjoint_left.1 hd hmem hmem

end Zigix.Mmap
