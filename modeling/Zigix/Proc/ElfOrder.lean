import Zigix.Mm.PageSupply
import Zigix.Proc.ElfSpec

/-!
# Segments that share a page

* `loadElf_right_iff` : an image is loaded as it should be exactly if its segments are clean: the pages that a segment
  gets replace those of the segments before it.
-/

namespace Zigix.Elf

open Pmm (pageSize)
open Vmm
open PageMap
open Mmap (Plenty plenty_allocPage plenty_mapPage exists_plenty)

variable {root n : Nat} {m m' m'' : Machine} {data : List Byte} {header : Elf64Header} {p q : Elf64Phdr}
  {ps qs : List Elf64Phdr} {v : Nat} {order : List Nat} {info info' : ElfInfo}

/-! ## The last segment decides -/

theorem finalByte_eq {init b : Option Byte} (hall : ∀ p ∈ ps, p.Covers v → some (p.byteAt data v) = b) :
    finalByte data ps init v = if ∃ p ∈ ps, p.Covers v then b else init := by
  induction ps generalizing init with
  | nil => exact (if_neg fun ⟨_, hp, _⟩ => List.not_mem_nil hp).symm
  | cons p ps ih =>
    have hstep : finalByte data (p :: ps) init v =
        finalByte data ps (if p.Covers v then some (p.byteAt data v) else init) v := rfl
    rw [hstep, ih fun q hq => hall q (List.mem_cons_of_mem p hq)]
    by_cases hrest : ∃ q ∈ ps, q.Covers v
    · obtain ⟨q, hq, hc⟩ := hrest
      rw [if_pos ⟨q, hq, hc⟩, if_pos ⟨q, List.mem_cons_of_mem p hq, hc⟩]
    · rw [if_neg hrest]
      by_cases hp : p.Covers v
      · rw [if_pos hp, if_pos ⟨p, List.mem_cons_self, hp⟩]
        exact hall p List.mem_cons_self hp
      · rw [if_neg hp, if_neg]
        rintro ⟨q, hq, hc⟩
        rcases List.mem_cons.1 hq with rfl | hq
        · exact hp hc
        · exact hrest ⟨q, hq, hc⟩

/-! ## Disjoint and clean segments -/

/-- The segments have no byte in common. -/
def Apart (p q : Elf64Phdr) : Prop :=
  ∀ v, p.pVaddr ≤ v → v < p.pVaddr + p.pMemsz → q.pVaddr ≤ v → v < q.pVaddr + q.pMemsz → False

/-- The file data of `p` is zero on the pages of `q`. -/
def Clean (data : List Byte) (p q : Elf64Phdr) : Prop :=
  ∀ v, p.pVaddr ≤ v → v < p.pVaddr + p.pFilesz → q.Covers v → fileByte data p.pVaddr p.pOffset v = 0

/-- Clean both ways. -/
def Compatible (data : List Byte) (p q : Elf64Phdr) : Prop := Clean data p q ∧ Clean data q p

instance : Std.Symm Apart := ⟨fun _ _ h v h1 h2 h3 h4 => h v h3 h4 h1 h2⟩

instance : Std.Symm (Compatible data) := ⟨fun _ _ h => And.symm h⟩

theorem Apart.symm (h : Apart p q) : Apart q p := Std.Symm.symm p q h

theorem byteAt_of_apart (hp : p.Checked data) (hd : Apart p q) (hsizes : q.pFilesz ≤ q.pMemsz) (h1 : p.pVaddr ≤ v)
    (h2 : v < p.pVaddr + p.pFilesz) : q.byteAt data v = 0 := by
  have hps := hp.sizes
  exact if_neg fun h => hd v h1 (by omega) h.1 (by omega)

theorem byteAt_of_file (h1 : p.pVaddr ≤ v) (h2 : v < p.pVaddr + p.pFilesz) :
    p.byteAt data v = fileByte data p.pVaddr p.pOffset v := if_pos ⟨h1, h2⟩

theorem Compatible.byteAt_eq (h : Compatible data p q) (hp : p.Checked data) (hq : q.Checked data) (hd : Apart p q)
    (hcp : p.Covers v) (hcq : q.Covers v) : p.byteAt data v = q.byteAt data v := by
  by_cases hfp : p.pVaddr ≤ v ∧ v < p.pVaddr + p.pFilesz
  · rw [byteAt_of_file hfp.1 hfp.2, h.1 v hfp.1 hfp.2 hcq, byteAt_of_apart hp hd hq.sizes hfp.1 hfp.2]
  · by_cases hfq : q.pVaddr ≤ v ∧ v < q.pVaddr + q.pFilesz
    · rw [byteAt_of_file hfq.1 hfq.2, h.2 v hfq.1 hfq.2 hcp, byteAt_of_apart hq hd.symm hp.sizes hfq.1 hfq.2]
    · rw [Elf64Phdr.byteAt, Elf64Phdr.byteAt, if_neg hfp, if_neg hfq]

section Agree
variable (hc : ∀ p ∈ ps, p.Checked data) (hd : ps.Pairwise Apart) (hclean : ps.Pairwise (Compatible data))
include hc hd hclean

theorem byteAt_eq (hp : p ∈ ps) (hq : q ∈ ps) (hcp : p.Covers v) (hcq : q.Covers v) :
    p.byteAt data v = q.byteAt data v := by
  by_cases hpq : p = q
  · rw [hpq]
  · exact (hclean.forall hp hq hpq).byteAt_eq (hc p hp) (hc q hq) (hd.forall hp hq hpq) hcp hcq

theorem finalByte_of_covers (init : Option Byte) (hp : p ∈ ps) (hcp : p.Covers v) :
    finalByte data ps init v = some (p.byteAt data v) := by
  rw [finalByte_eq fun q hq hcq => congrArg some (byteAt_eq hc hd hclean hq hp hcq hcp), if_pos ⟨p, hp, hcp⟩]

theorem finalByte_perm (init : Option Byte) (hperm : qs.Perm ps) :
    finalByte data qs init v = finalByte data ps init v := by
  by_cases hcov : ∃ p ∈ ps, p.Covers v
  · obtain ⟨p, hp, hcp⟩ := hcov
    rw [finalByte_of_covers hc hd hclean init hp hcp]
    have hd' : qs.Pairwise Apart := (hperm.pairwise_iff fun {_ _} => Apart.symm).2 hd
    have hclean' : qs.Pairwise (Compatible data) := (hperm.pairwise_iff fun {_ _} h => And.symm h).2 hclean
    exact finalByte_of_covers (fun q hq => hc q (hperm.subset hq)) hd' hclean' init (hperm.symm.subset hp) hcp
  · have hnone : ∀ {l : List Elf64Phdr}, (∀ p ∈ l, ¬ p.Covers v) → finalByte data l init v = init := fun {l} hl => by
      rw [finalByte_eq (b := none) fun p hp hcp => absurd hcp (hl p hp), if_neg fun ⟨p, hp, hcp⟩ => hl p hp hcp]
    have hps : ∀ p ∈ ps, ¬ p.Covers v := fun p hp hcp => hcov ⟨p, hp, hcp⟩
    rw [hnone hps, hnone fun q hq => hps q (hperm.subset hq)]

end Agree

/-! ## Enough memory -/

theorem mapZeroed_plenty (root : Nat) (flags : MapFlags) (addr : Nat) {k : Nat} (h : Plenty (4 * k + n) m) :
    (mapZeroed root flags k addr m).1 = true ∧ Plenty n (mapZeroed root flags k addr m).2 := by
  induction k generalizing addr m with
  | zero => exact ⟨rfl, h.mono (by omega)⟩
  | succ k ih =>
    have hmore : Plenty (4 * k + n + 3 + 1) m := h.mono (by omega)
    obtain ⟨f, hf, hplenty, -⟩ := plenty_allocPage hmore
    rw [mapZeroed]
    rcases ha : m.allocPage with ⟨o, m₁⟩
    rw [ha] at hf hplenty
    cases hf
    dsimp only
    have hzeroed : Plenty (4 * k + n + 3) (m₁.zeroPage f) := hplenty.of_pmm rfl
    obtain ⟨hmap, hplenty'⟩ := plenty_mapPage hzeroed root addr f flags
    rcases hx : mapPage (m₁.zeroPage f) root addr f flags with ⟨b, m₂⟩
    rw [hx] at hmap hplenty'
    cases hmap
    exact ih (addr + pageSize) hplenty'

theorem copyFile_pmm {fuel vaddr srcOff remaining : Nat} :
    (copyFile root data fuel vaddr srcOff remaining m).2.pmm = m.pmm := by
  induction fuel generalizing vaddr srcOff remaining m with
  | zero => rfl
  | succ fuel ih =>
    rw [copyFile]
    split
    · rfl
    · dsimp only
      split
      · rfl
      · next phys _ =>
        rw [ih]
        obtain ⟨c, hc⟩ := Fault.storeBytes_eq m (phys / pageSize) (phys % pageSize)
          ((data.drop srcOff).take (min remaining (pageSize - vaddr % pageSize)))
        rw [hc]
        rfl

theorem loadSegment_plenty (h : Ready root m) (hp : p.Checked data) (hm : Plenty (4 * p.pages + n) m) :
    ∃ m', loadSegment root data p m = (true, m') ∧ Plenty n m' := by
  obtain ⟨hb, hplenty⟩ := mapZeroed_plenty root p.mapFlags p.segStart hm
  rcases hmap : mapZeroed root p.mapFlags p.pages p.segStart m with ⟨b, m₁⟩
  rw [hmap] at hb hplenty
  cases hb
  obtain ⟨m₂, hm₂, -, -⟩ := fillSegment_spec h hp hmap
  refine ⟨m₂, ?_, hplenty.of_pmm ?_⟩
  · unfold Elf64Phdr.mapFlags Elf64Phdr.pages at hmap
    rw [loadSegment, hmap]
    exact hm₂
  · exact (congrArg (·.2.pmm) hm₂).symm.trans copyFile_pmm

theorem loadPhdrs_succeeds (h : Ready root m) (hchecks : ∀ i ∈ order, ∃ x, checkPhdr data header i = some (.ok x))
    (hm : Plenty (4 * ((segments data header order).map Elf64Phdr.pages).sum + n) m)
    (hne : info.segmentsLoaded + (segments data header order).length ≠ 0) :
    ∃ info' m', loadPhdrs root data header order info m = some (.ok info', m') := by
  induction order generalizing info m with
  | nil =>
    have hne : info.segmentsLoaded ≠ 0 := hne
    exact ⟨info, m, by rw [loadPhdrs, if_neg hne]⟩
  | cons i order ih =>
    obtain ⟨⟨x, hcheck⟩, hchecks⟩ := List.forall_mem_cons.1 hchecks
    rw [loadPhdrs, hcheck, Option.bind_eq_bind, Option.bind_some]
    cases x with
    | none =>
      have hskip : segments data header (i :: order) = segments data header order := by
        simp [segments, segment, hcheck]
      rw [hskip] at hm hne
      exact ih h hchecks hm hne
    | some p =>
      have hseg : segment data header i = some p := by simp [segment, hcheck]
      have hsegs : segments data header (i :: order) = p :: segments data header order := by
        simp [segments, hseg]
      rw [hsegs, List.map_cons, List.sum_cons] at hm
      obtain ⟨m₁, hm₁, hplenty⟩ := loadSegment_plenty
        (n := 4 * ((segments data header order).map Elf64Phdr.pages).sum + n) h (segment_checked hseg)
        (hm.mono (by omega))
      obtain ⟨hready, -⟩ := loadSegment_spec h (segment_checked hseg) hm₁
      dsimp only
      rw [hm₁]
      exact ih hready hchecks hplenty (by
        unfold ElfInfo.add
        dsimp only
        omega)

/-! ## How much memory is enough -/

def bytesOf (ps : List Elf64Phdr) : Finset Nat :=
  ps.foldr (fun p s => Finset.Ico p.pVaddr (p.pVaddr + p.pMemsz) ∪ s) ∅

theorem mem_bytesOf : v ∈ bytesOf ps ↔ ∃ p ∈ ps, p.pVaddr ≤ v ∧ v < p.pVaddr + p.pMemsz := by
  induction ps with
  | nil => simp [bytesOf]
  | cons p ps ih =>
    have hunion : bytesOf (p :: ps) = Finset.Ico p.pVaddr (p.pVaddr + p.pMemsz) ∪ bytesOf ps := rfl
    rw [hunion, Finset.mem_union, Finset.mem_Ico, ih, List.exists_mem_cons_iff]

theorem card_bytesOf (hd : ps.Pairwise Apart) : (bytesOf ps).card = (ps.map Elf64Phdr.pMemsz).sum := by
  induction ps with
  | nil => rfl
  | cons p ps ih =>
    obtain ⟨hp, hps⟩ := List.pairwise_cons.1 hd
    have hunion : bytesOf (p :: ps) = Finset.Ico p.pVaddr (p.pVaddr + p.pMemsz) ∪ bytesOf ps := rfl
    have hdisj : Disjoint (Finset.Ico p.pVaddr (p.pVaddr + p.pMemsz)) (bytesOf ps) := by
      rw [Finset.disjoint_left]
      intro v hv hv'
      obtain ⟨q, hq, h1, h2⟩ := mem_bytesOf.1 hv'
      rw [Finset.mem_Ico] at hv
      exact hp q hq v hv.1 hv.2 h1 h2
    rw [hunion, Finset.card_union_of_disjoint hdisj, ih hps, Nat.card_Ico, List.map_cons, List.sum_cons]
    omega

theorem sum_memsz_le (hc : ∀ p ∈ ps, p.Checked data) (hd : ps.Pairwise Apart) :
    (ps.map Elf64Phdr.pMemsz).sum ≤ userSpaceEnd := by
  rw [← card_bytesOf hd, ← Finset.card_range userSpaceEnd]
  refine Finset.card_le_card fun v hv => ?_
  obtain ⟨p, hp, _, h2⟩ := mem_bytesOf.1 hv
  exact Finset.mem_range.2 (Nat.lt_of_lt_of_le h2 (hc p hp).memory)

theorem pages_le (p : Elf64Phdr) : p.pages * pageSize ≤ p.pMemsz + 2 * pageSize := by
  unfold Elf64Phdr.pages Elf64Phdr.segEnd Elf64Phdr.segStart pageAlignUp
  simp only [pageSize]
  omega

theorem sum_pages_le (ps : List Elf64Phdr) :
    (ps.map Elf64Phdr.pages).sum * pageSize ≤ (ps.map Elf64Phdr.pMemsz).sum + ps.length * (2 * pageSize) := by
  induction ps with
  | nil => exact Nat.le_refl 0
  | cons p ps ih =>
    have hp := pages_le p
    simp only [List.map_cons, List.sum_cons, List.length_cons, Nat.add_mul] at *
    omega

theorem le_lt (data : List Byte) (off n : Nat) : le data off n < 256 ^ n := by
  induction n generalizing off with
  | zero => exact Nat.one_pos
  | succ n ih =>
    have hrest := ih (off + 1)
    have hbyte := (data.getD off 0).isLt
    rw [le, Nat.pow_succ]
    omega

theorem getHeader_phnum (h : getHeader data = some header) : header.ePhnum < 65536 := by
  have hread : header = readHeader data := by
    unfold getHeader at h
    dsimp only at h
    split at h
    · cases h
    split at h
    · cases h
    split at h
    · cases h
    split at h
    · cases h
    split at h
    · cases h
    split at h
    · cases h
    exact (Option.some.inj h).symm
  rw [hread]
  exact le_lt data 56 2

/-! ## The loader -/

structure LoadsRight (data : List Byte) (header : Elf64Header) : Prop where
  faithful : ∀ root m info m', Ready root m → loadElf root data m = some (.ok info, m') →
    ∀ p ∈ segments data header (List.range header.ePhnum), ∀ k < p.pMemsz,
      userByte root m' (p.pVaddr + k) = some (if k < p.pFilesz then data.getD (p.pOffset + k) 0 else 0)
  unordered : ∀ root m order info info' m' m'', Ready root m → order.Perm (List.range header.ePhnum) →
    loadElf root data m = some (.ok info, m') →
    loadPhdrs root data header order ⟨header.eEntry, 0, 0⟩ m = some (.ok info', m'') →
    info' = info ∧ ∀ v < userSpaceEnd, userByte root m'' v = userByte root m' v

theorem segments_checked (hp : p ∈ segments data header order) : p.Checked data := by
  obtain ⟨i, -, hi⟩ := List.mem_filterMap.1 hp
  exact segment_checked hi

theorem segments_perm (data : List Byte) (header : Elf64Header) {order' : List Nat} (h : order.Perm order') :
    (segments data header order).Perm (segments data header order') := h.filterMap _

theorem foldl_add_perm {info : ElfInfo} (h : ps.Perm qs) : ps.foldl ElfInfo.add info = qs.foldl ElfInfo.add info := by
  have : RightCommutative ElfInfo.add := ⟨fun info p q => by
    unfold ElfInfo.add
    rw [ElfInfo.mk.injEq]
    exact ⟨rfl, by dsimp only; omega, rfl⟩⟩
  exact h.foldl_eq info

theorem loadElf_eq (hh : getHeader data = some header) (root : Nat) (m : Machine) : loadElf root data m =
    loadPhdrs root data header (List.range header.ePhnum) ⟨header.eEntry, 0, 0⟩ m := by
  rw [loadElf, hh]

section Main
variable (hh : getHeader data = some header) (hd : (segments data header (List.range header.ePhnum)).Pairwise Apart)
include hh hd

theorem loadsRight_of_clean (hclean : (segments data header (List.range header.ePhnum)).Pairwise (Compatible data)) :
    LoadsRight data header := by
  have hchecked : ∀ p ∈ segments data header (List.range header.ePhnum), p.Checked data :=
    fun p hp => segments_checked hp
  constructor
  · intro root m info m' h hr p hp k hk
    rw [loadElf_eq hh] at hr
    obtain ⟨-, -, -, hbytes⟩ := loadPhdrs_spec h hr
    have hpc := hchecked p hp
    have hmem := hpc.memory
    rw [hbytes _ (by omega), finalByte_of_covers hchecked hd hclean _ hp (hpc.covers (by omega) (by omega)),
      Elf64Phdr.byteAt, fileByte, Nat.add_sub_cancel_left]
    by_cases hf : k < p.pFilesz
    · rw [if_pos hf, if_pos (by omega)]
    · rw [if_neg hf, if_neg (by omega)]
  · intro root m order info info' m' m'' h hperm hr hr'
    rw [loadElf_eq hh] at hr
    obtain ⟨-, -, hinfo, hbytes⟩ := loadPhdrs_spec h hr
    obtain ⟨-, -, hinfo', hbytes'⟩ := loadPhdrs_spec h hr'
    have hsegs := segments_perm data header hperm
    refine ⟨hinfo'.trans ((foldl_add_perm hsegs).trans hinfo.symm), fun v hv => ?_⟩
    rw [hbytes v hv, hbytes' v hv]
    exact finalByte_perm hchecked hd hclean _ hsegs

variable (hload : ∃ root m info m', Ready root m ∧ loadElf root data m = some (.ok info, m'))
include hload

theorem loads_in_any_order : ∃ root m, Ready root m ∧ ∀ order, order.Perm (List.range header.ePhnum) →
    ∃ info m', loadPhdrs root data header order ⟨header.eEntry, 0, 0⟩ m = some (.ok info, m') := by
  obtain ⟨root₀, m₀, info₀, m₁, hready₀, hr₀⟩ := hload
  rw [loadElf_eq hh] at hr₀
  obtain ⟨hchecks, -, hinfo₀, -⟩ := loadPhdrs_spec hready₀ hr₀
  -- the accepted image has at least one segment
  have hne : segments data header (List.range header.ePhnum) ≠ [] := by
    intro hnil
    have hskip : ∀ {l : List Nat} {m m' : Machine}, segments data header l = [] →
        loadPhdrs root₀ data header l ⟨header.eEntry, 0, 0⟩ m ≠ some (.ok info₀, m') := by
      intro l m m' hl hr
      induction l with
      | nil =>
        rw [loadPhdrs, if_pos rfl] at hr
        cases hr
      | cons i l ih =>
        rw [loadPhdrs] at hr
        obtain ⟨res, hcheck, hr⟩ := Option.bind_eq_some_iff.1 hr
        cases res with
        | error e => cases hr
        | ok x =>
          cases x with
          | none => exact ih (by simpa [segments, segment, hcheck] using hl) hr
          | some p => simp [segments, segment, hcheck] at hl
    exact hskip hnil hr₀
  have hsum := sum_pages_le (segments data header (List.range header.ePhnum))
  have hmem := sum_memsz_le (fun p hp => segments_checked hp) hd
  have hlen : (segments data header (List.range header.ePhnum)).length ≤ header.ePhnum := by
    have := List.length_filterMap_le (segment data header) (List.range header.ePhnum)
    rwa [List.length_range] at this
  have hphnum := getHeader_phnum hh
  obtain ⟨root, m, hacc, hhuge, hplenty⟩ := exists_plenty (n := 2 ^ 35) (by decide)
  refine ⟨root, m, ⟨hacc, fun v _ => hhuge v⟩, fun order hperm => ?_⟩
  have hsegs := segments_perm data header hperm
  refine loadPhdrs_succeeds (n := 0) ⟨hacc, fun v _ => hhuge v⟩ (fun i hi => hchecks i (hperm.subset hi)) ?_ ?_
  · refine hplenty.mono ?_
    rw [(hsegs.map Elf64Phdr.pages).sum_eq]
    simp only [pageSize, userSpaceEnd] at *
    omega
  · rw [hsegs.length_eq]
    have := List.length_pos_iff.2 hne
    omega

theorem clean_of_loadsRight (h : LoadsRight data header) (hp : p ∈ segments data header (List.range header.ePhnum))
    (hq : q ∈ segments data header (List.range header.ePhnum)) (hap : Apart p q) : Clean data p q := by
  intro v h1 h2 hcov
  have hpc := segments_checked hp
  have hsizes := hpc.sizes
  have hmem := hpc.memory
  obtain ⟨i, hi, hseg⟩ := List.mem_filterMap.1 hp
  obtain ⟨j, hj, hsegj⟩ := List.mem_filterMap.1 hq
  have hji : j ≠ i := by
    rintro rfl
    obtain rfl : p = q := Option.some.inj (hseg.symm.trans hsegj)
    exact hap v h1 (by omega) h1 (by omega)
  -- program header `i` first, so that `q` comes after `p`
  have hperm : (i :: (List.range header.ePhnum).erase i).Perm (List.range header.ePhnum) :=
    (List.perm_cons_erase hi).symm
  have hsegs : segments data header (i :: (List.range header.ePhnum).erase i) =
      p :: segments data header ((List.range header.ePhnum).erase i) := by
    simp [segments, hseg]
  have hq' : q ∈ segments data header ((List.range header.ePhnum).erase i) :=
    List.mem_filterMap.2 ⟨j, (List.mem_erase_of_ne hji).2 hj, hsegj⟩
  have hap' : ∀ r ∈ segments data header ((List.range header.ePhnum).erase i), Apart p r := by
    have hall := ((segments_perm data header hperm).pairwise_iff
      fun {_ _} => Apart.symm).2 hd
    rw [hsegs] at hall
    exact (List.pairwise_cons.1 hall).1
  obtain ⟨root, m, hready, hany⟩ := loads_in_any_order hh hd hload
  obtain ⟨info, m₁, hr₁⟩ := hany _ (List.Perm.refl _)
  obtain ⟨info', m₂, hr₂⟩ := hany _ hperm
  have hright := h.faithful root m info m₁ hready ((loadElf_eq hh root m).trans hr₁) p hp (v - p.pVaddr) (by omega)
  have hsame := (h.unordered root m _ info info' m₁ m₂ hready hperm ((loadElf_eq hh root m).trans hr₁) hr₂).2 v
    (by omega)
  obtain ⟨-, -, -, hbytes⟩ := loadPhdrs_spec hready hr₂
  have hzero : userByte root m₂ v = some 0 := by
    rw [hbytes v (by omega), hsegs, finalByte, List.foldl_cons, ← finalByte]
    refine (finalByte_eq (b := some 0) fun r hr hcr => ?_).trans (if_pos ⟨q, hq', hcov⟩)
    rw [byteAt_of_apart hpc (hap' r hr) (segments_checked hr).sizes h1 h2]
  rw [Nat.add_sub_cancel' h1, if_pos (by omega)] at hright
  rw [hzero, hright] at hsame
  exact (Option.some.inj hsame).symm

/-- **The ELF loader.** An accepted image with disjoint segments is loaded right exactly if no page of one segment
holds file data of another that is not zero. -/
theorem loadElf_right_iff : LoadsRight data header ↔
    (segments data header (List.range header.ePhnum)).Pairwise (Compatible data) := by
  refine ⟨fun h => ?_, loadsRight_of_clean hh hd⟩
  rw [List.pairwise_iff_forall_sublist]
  intro p q hsub
  have hp : p ∈ _ := hsub.subset List.mem_cons_self
  have hq : q ∈ _ := hsub.subset (List.mem_cons_of_mem _ List.mem_cons_self)
  have hap := List.pairwise_iff_forall_sublist.1 hd hsub
  exact ⟨clean_of_loadsRight hh hd hload h hp hq hap, clean_of_loadsRight hh hd hload h hq hp hap.symm⟩

end Main

/-! ## Two small images -/

/-- A number in `n` bytes. -/
def leBytes : Nat → Nat → List Byte
  | 0, _ => []
  | n + 1, v => BitVec.ofNat 8 v :: leBytes n (v / 256)

def phdrBytes (p : Elf64Phdr) : List Byte :=
  leBytes 4 p.pType ++ leBytes 4 p.pFlags ++ leBytes 8 p.pOffset ++ leBytes 8 p.pVaddr ++ leBytes 8 p.pVaddr ++
    leBytes 8 p.pFilesz ++ leBytes 8 p.pMemsz ++ leBytes 8 pageSize

def imageOf (ps : List Elf64Phdr) : List Byte :=
  [0x7F, 0x45, 0x4C, 0x46, 2, 1] ++ List.replicate 10 0 ++ leBytes 2 etExec ++ leBytes 2 emX86_64 ++ leBytes 4 1 ++
    leBytes 8 0x1000 ++ leBytes 8 headerSize ++ leBytes 8 0 ++ leBytes 4 0 ++ leBytes 2 headerSize ++
    leBytes 2 phdrSize ++ leBytes 2 ps.length ++ leBytes 6 0 ++ ps.flatMap phdrBytes

/-- The first byte of the file, read-only, at `vaddr`. -/
def byteSegment (vaddr : Nat) : Elf64Phdr where
  pType := ptLoad
  pFlags := 4
  pOffset := 0
  pVaddr := vaddr
  pFilesz := 1
  pMemsz := 1

def twoBytes (a b : Nat) : List Byte := imageOf [byteSegment a, byteSegment b]

theorem ready_emptySpace : Ready 512 emptySpace := by
  obtain ⟨hacc, hhuge⟩ := Mmap.accounted_newTable Space.boot_inv newTable_boot
  exact ⟨hacc, fun v _ => hhuge v⟩

theorem byteSegment_apart {a b : Nat} (h : a ≠ b) : [byteSegment a, byteSegment b].Pairwise Apart := by
  refine List.pairwise_pair.2 fun v h1 h2 h3 h4 => h ?_
  simp only [byteSegment] at *
  omega

def twoHeader : Elf64Header where
  eIdent := [0x7F, 0x45, 0x4C, 0x46, 2, 1] ++ List.replicate 10 0
  eType := etExec
  eMachine := emX86_64
  eEntry := 0x1000
  ePhoff := headerSize
  ePhentsize := phdrSize
  ePhnum := 2

theorem loadElf_right_iff_twoPages : LoadsRight (twoBytes 0x1000 0x2000) twoHeader ↔
    (segments (twoBytes 0x1000 0x2000) twoHeader (List.range twoHeader.ePhnum)).Pairwise
      (Compatible (twoBytes 0x1000 0x2000)) := by
  have hload : (loadElf 512 (twoBytes 0x1000 0x2000) emptySpace).map Prod.fst = some (.ok ⟨0x1000, 0x3000, 2⟩) := by
    decide +kernel
  obtain ⟨⟨r, m'⟩, hr, rfl⟩ := Option.map_eq_some_iff.1 hload
  have hsegs : segments (twoBytes 0x1000 0x2000) twoHeader (List.range twoHeader.ePhnum) =
      [byteSegment 0x1000, byteSegment 0x2000] := by decide +kernel
  exact loadElf_right_iff (by decide +kernel) (hsegs ▸ byteSegment_apart (by decide))
    ⟨512, emptySpace, _, m', ready_emptySpace, hr⟩

/-- The page of the second segment wipes the first one's byte, which is on the same page. -/
theorem loadElf_wipes_shared_page : ∃ info m',
    getHeader (twoBytes 0x1000 0x1800) = some twoHeader ∧
    segments (twoBytes 0x1000 0x1800) twoHeader (List.range twoHeader.ePhnum) =
      [byteSegment 0x1000, byteSegment 0x1800] ∧
    [byteSegment 0x1000, byteSegment 0x1800].Pairwise Apart ∧ Ready 512 emptySpace ∧
    loadElf 512 (twoBytes 0x1000 0x1800) emptySpace = some (.ok info, m') ∧
    (twoBytes 0x1000 0x1800).getD 0 0 = 0x7F ∧ userByte 512 m' 0x1000 = some 0 ∧
    ¬ LoadsRight (twoBytes 0x1000 0x1800) twoHeader := by
  have hload : (loadElf 512 (twoBytes 0x1000 0x1800) emptySpace).map
      (fun r => (r.1, userByte 512 r.2 0x1000)) = some (.ok ⟨0x1000, 0x2000, 2⟩, some 0) := by decide +kernel
  obtain ⟨⟨r, m'⟩, hr, hv⟩ := Option.map_eq_some_iff.1 hload
  obtain ⟨rfl, hfirst⟩ := Prod.ext_iff.1 hv
  have hsegs : segments (twoBytes 0x1000 0x1800) twoHeader (List.range twoHeader.ePhnum) =
      [byteSegment 0x1000, byteSegment 0x1800] := by decide +kernel
  have hbyte : (twoBytes 0x1000 0x1800).getD 0 0 = 0x7F := by decide +kernel
  refine ⟨_, m', by decide +kernel, hsegs, byteSegment_apart (by decide), ready_emptySpace, hr, hbyte, hfirst,
    fun h => ?_⟩
  have hright : userByte 512 m' 0x1000 = some ((twoBytes 0x1000 0x1800).getD 0 0) :=
    h.faithful 512 emptySpace _ m' ready_emptySpace hr (byteSegment 0x1000) (hsegs ▸ List.mem_cons_self) 0 Nat.one_pos
  rw [hbyte] at hright
  have hzero : (some 0 : Option Byte) = some 0x7F := hfirst.symm.trans hright
  exact absurd hzero (by decide)

end Zigix.Elf
