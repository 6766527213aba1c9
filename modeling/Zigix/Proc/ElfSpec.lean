import Zigix.Mm.FaultSpec
import Zigix.Mm.PageMove
import Zigix.Mm.PageSearch
import Zigix.Proc.Elf

/-!
# What the ELF loader leaves in memory

* `copyFile_spec`, `loadSegment_spec` : a segment replaces the bytes of all its pages;
* `loadPhdrs_spec` : of the segments that cover a byte, the last one decides it.
-/

namespace Zigix.Elf

open Pmm (pageSize)
open Vmm
open PageMap
open Mmap (Accounted MappedNew MapsNew contents contents_congr pageMap_of_translate)
open Ext2 (storeBytes)
open Fault (pageByte_storeBytes mem_storeBytes_of_ne storeBytes_eq)

variable {root addr virt n f : Nat} {m m' m'' : Machine} {data : List Byte} {S T : Set (Fin (2 ^ 36))}

/-! ## The view of a process -/

structure Ready (root : Nat) (m : Machine) : Prop where
  accounted : ∃ pins, Accounted root pins m
  noHuge : ∀ v < userSpaceEnd, NoHuge root m v

/-- The byte that a process reads at `v`. -/
def userByte (root : Nat) (m : Machine) (v : Nat) : Option Byte :=
  (contents root m (pageNumber v)).map fun page => Machine.pageByte page (v % pageSize)

theorem userByte_congr {v : Nat} (h : contents root m' (pageNumber v) = contents root m (pageNumber v)) :
    userByte root m' v = userByte root m v := by
  unfold userByte
  rw [h]

theorem pageNumber_val {v : Nat} (h : v < userSpaceEnd) : (pageNumber v).val = v / pageSize := by
  refine Nat.mod_eq_of_lt ?_
  simp only [userSpaceEnd, pageSize] at *
  omega

theorem pageNumber_eq_iff {v x : Nat} (hv : v < userSpaceEnd) (hx : x < userSpaceEnd) :
    pageNumber v = pageNumber x ↔ v / pageSize = x / pageSize := by
  rw [← Fin.val_inj, pageNumber_val hv, pageNumber_val hx]

/-! ## New pages -/

/-- The pages in `S` are new and zero, each mapped once; all other pages are as they were. -/
structure Renewed (root : Nat) (S : Set (Fin (2 ^ 36))) (m m' : Machine) : Prop where
  ready : Ready root m'
  zero : ∀ x ∈ S, contents root m' x = some fun _ => 0
  sole : ∀ x ∈ S, ∀ y, pageMap root m' y = pageMap root m' x → y = x
  others : ∀ x ∉ S, pageMap root m' x = pageMap root m x ∧ contents root m' x = contents root m x

theorem Renewed.refl (h : Ready root m) : Renewed root ∅ m m :=
  ⟨h, fun _ hx => absurd hx (Set.notMem_empty _), fun _ hx => absurd hx (Set.notMem_empty _), fun _ _ => ⟨rfl, rfl⟩⟩

theorem Renewed.trans (h : Renewed root S m m') (h' : Renewed root T m' m'') : Renewed root (S ∪ T) m m'' := by
  refine ⟨h'.ready, fun x hx => ?_, fun x hx y hy => ?_, fun x hx => ?_⟩
  · by_cases hT : x ∈ T
    · exact h'.zero x hT
    · rw [(h'.others x hT).2]
      exact h.zero x (hx.resolve_right hT)
  · by_cases hT : x ∈ T
    · exact h'.sole x hT y hy
    · by_cases hyT : y ∈ T
      · exact (h'.sole y hyT x hy.symm).symm
      · rw [(h'.others x hT).1, (h'.others y hyT).1] at hy
        exact h.sole x (hx.resolve_right hT) y hy
  · have hS : x ∉ S := fun hx' => hx (.inl hx')
    have hT : x ∉ T := fun hx' => hx (.inr hx')
    exact ⟨(h'.others x hT).1.trans (h.others x hS).1, (h'.others x hT).2.trans (h.others x hS).2⟩

theorem Renewed.of_mappedNew (h : Ready root m) (hnew : MappedNew root virt f (fun _ => 0) m m') :
    Renewed root {pageNumber virt} m m' := by
  have hself : pageMap root m' (pageNumber virt) = some f := by rw [hnew.pages, Function.update_self]
  have hother : ∀ x, x ≠ pageNumber virt → pageMap root m' x = pageMap root m x := fun x hx => by
    rw [hnew.pages, Function.update_of_ne hx]
  refine ⟨⟨hnew.accounted, fun v hv => hnew.noHuge v (h.noHuge v hv)⟩, fun x hx => ?_, fun x hx y hy => ?_,
    fun x hx => ?_⟩
  · rw [Set.mem_singleton_iff.1 hx, contents, hself, ← hnew.page]
    rfl
  · rw [Set.mem_singleton_iff.1 hx, hself] at hy
    rw [Set.mem_singleton_iff.1 hx]
    by_contra hne
    rw [hother y hne] at hy
    exact hnew.new y hy
  · exact ⟨hother x hx, contents_congr (hother x hx) fun u hu => hnew.data x u hu⟩

/-- The numbers of the pages of `[addr, addr + n * pageSize)`. -/
def pagesOf (addr n : Nat) : Set (Fin (2 ^ 36)) := {x | addr / pageSize ≤ x.val ∧ x.val < addr / pageSize + n}

theorem mem_pagesOf {v : Nat} (hv : v < userSpaceEnd) (haddr : addr % pageSize = 0) :
    pageNumber v ∈ pagesOf addr n ↔ addr ≤ v ∧ v < addr + n * pageSize := by
  unfold pagesOf
  rw [Set.mem_ofPred_eq, pageNumber_val hv]
  simp only [pageSize] at *
  omega

theorem mapZeroed_spec {flags : MapFlags} (h : Ready root m) (haddr : addr % pageSize = 0)
    (hend : addr + n * pageSize ≤ userSpaceEnd) (hr : mapZeroed root flags n addr m = (true, m')) :
    Renewed root (pagesOf addr n) m m' := by
  induction n generalizing addr m with
  | zero =>
    cases hr
    have hempty : pagesOf addr 0 = ∅ := Set.eq_empty_of_forall_notMem fun x hx => by
      unfold pagesOf at hx
      rw [Set.mem_ofPred_eq] at hx
      omega
    rw [hempty]
    exact .refl h
  | succ n ih =>
    obtain ⟨pins, hacc⟩ := h.accounted
    have hlt : addr < userSpaceEnd := by
      simp only [pageSize] at hend
      omega
    have halloc := hacc.allocPage
    rw [mapZeroed] at hr
    rcases ha : m.allocPage with ⟨o, m₁⟩
    rw [ha] at halloc hr
    rcases halloc with ⟨hnone, _⟩ | ⟨f, hsome, hfresh⟩
    · cases hnone
      cases hr
    · cases hsome
      dsimp only at hr hfresh
      have hmaps := hacc.mapNew (hfresh fun _ => 0) (h.noHuge addr hlt) flags
      have hzero : m₁.setPage f (fun _ => 0) = m₁.zeroPage f := rfl
      rw [hzero] at hmaps
      rcases hx : mapPage (m₁.zeroPage f) root addr f flags with ⟨b, m₂⟩
      rw [hx] at hmaps hr
      cases hmaps with
      | outOfMemory => cases hr
      | done hnew =>
        have hone := Renewed.of_mappedNew h hnew
        have hrest := ih hone.ready (by rw [Nat.add_mod_right]; exact haddr) (by
          rw [Nat.succ_mul] at hend
          omega) hr
        have hunion : pagesOf addr (n + 1) = {pageNumber addr} ∪ pagesOf (addr + pageSize) n := by
          ext x
          unfold pagesOf
          rw [Set.mem_union, Set.mem_singleton_iff, Set.mem_ofPred_eq, Set.mem_ofPred_eq, ← Fin.val_inj,
            pageNumber_val hlt]
          simp only [pageSize] at *
          omega
        rw [hunion]
        exact hone.trans hrest

/-! ## File data -/

/-- The byte of the file that belongs at `v`, if the file's bytes from `off` on start at `vaddr`. -/
def fileByte (data : List Byte) (vaddr off v : Nat) : Byte := data.getD (off + (v - vaddr)) 0

def SoleOn (root : Nat) (m : Machine) (lo hi : Nat) : Prop :=
  ∀ v, lo ≤ v → v < hi → ∃ f, pageMap root m (pageNumber v) = some f ∧
    ∀ y, pageMap root m y = some f → y = pageNumber v

theorem Ready.store {off : Nat} {bs : List Byte} (h : Ready root m) (hlt : virt < userSpaceEnd)
    (hf : pageMap root m (pageNumber virt) = some f) (hsole : ∀ y, pageMap root m y = some f → y = pageNumber virt)
    (hoff : off = virt % pageSize) (hlen : off + bs.length ≤ pageSize) :
    Ready root (storeBytes m f off bs) ∧ pageMap root (storeBytes m f off bs) = pageMap root m ∧
      ∀ v < userSpaceEnd, userByte root (storeBytes m f off bs) v =
        if virt ≤ v ∧ v < virt + bs.length then some (bs.getD (v - virt) 0) else userByte root m v := by
  obtain ⟨pins, hacc⟩ := h.accounted
  have huntabled := hacc.apart hf
  have hother : ∀ u, u ≠ f → (storeBytes m f off bs).mem u = m.mem u := fun u hu => mem_storeBytes_of_ne hu off bs
  have hinv : Space.Inv ∅ pins (storeBytes m f off bs) := by
    obtain ⟨c, hc⟩ := storeBytes_eq m f off bs
    rw [hc]
    exact inv_empty_withMem hacc.pinned.inv
  obtain ⟨hacc', hext⟩ := hacc.of_tables (fun q u hu => hother u fun he => huntabled q (he ▸ hu)) hinv
    (fun ht => hacc.pinned.tables ht) hacc.counted
  have hpages := pageMap_eq hext.same
  refine ⟨⟨⟨pins, hacc'⟩, fun v hv => hext.noHuge v (h.noHuge v hv)⟩, hpages, fun v hv => ?_⟩
  by_cases hpage : pageNumber v = pageNumber virt
  · have hdiv := (pageNumber_eq_iff hv hlt).1 hpage
    unfold userByte contents
    rw [hpages, hpage, hf]
    simp only [Option.map_some]
    rw [pageByte_storeBytes]
    have hiff : off ≤ v % pageSize ∧ v % pageSize < off + bs.length ↔ virt ≤ v ∧ v < virt + bs.length := by
      simp only [pageSize] at *
      omega
    have hsub : v % pageSize - off = v - virt := by
      simp only [pageSize] at *
      omega
    rw [hsub]
    by_cases hin : virt ≤ v ∧ v < virt + bs.length
    · rw [if_pos hin, if_pos (hiff.2 hin)]
    · rw [if_neg hin, if_neg fun h' => hin (hiff.1 h')]
  · have hout : ¬ (virt ≤ v ∧ v < virt + bs.length) := fun hin => hpage ((pageNumber_eq_iff hv hlt).2 (by
      simp only [pageSize] at *
      omega))
    rw [if_neg hout]
    refine userByte_congr (contents_congr (congrFun hpages _) fun u hu => hother u ?_)
    rintro rfl
    exact hpage (hsole _ hu)

theorem copyFile_spec {fuel vaddr srcOff remaining : Nat} (h : Ready root m) (hfuel : remaining ≤ fuel)
    (hsole : SoleOn root m vaddr (vaddr + remaining)) (hend : vaddr + remaining ≤ userSpaceEnd)
    (hdata : srcOff + remaining ≤ data.length) :
    ∃ m', copyFile root data fuel vaddr srcOff remaining m = (true, m') ∧ Ready root m' ∧
      ∀ v < userSpaceEnd, userByte root m' v =
        if vaddr ≤ v ∧ v < vaddr + remaining then some (fileByte data vaddr srcOff v) else userByte root m v := by
  induction fuel generalizing vaddr srcOff remaining m with
  | zero =>
    obtain rfl := Nat.le_zero.1 hfuel
    refine ⟨m, rfl, h, fun v _ => ?_⟩
    rw [if_neg (by omega)]
  | succ fuel ih =>
    rw [copyFile]
    split
    · next hzero =>
      subst hzero
      refine ⟨m, rfl, h, fun v _ => ?_⟩
      rw [if_neg (by omega)]
    · next hpos =>
      obtain ⟨f, hf, hone⟩ := hsole vaddr (Nat.le_refl _) (by omega)
      have htrans : translate m root vaddr = some (f * pageSize + vaddr % pageSize) := by
        rw [translate_eq_pageMap, hf]
        rfl
      have hmod : vaddr % pageSize < pageSize := Nat.mod_lt _ (by decide)
      have hdiv : (f * pageSize + vaddr % pageSize) / pageSize = f := by
        rw [Nat.mul_comm, Nat.mul_add_div (by decide), Nat.div_eq_of_lt hmod, Nat.add_zero]
      have hrem : (f * pageSize + vaddr % pageSize) % pageSize = vaddr % pageSize := by
        rw [Nat.mul_comm, Nat.mul_add_mod, Nat.mod_mod]
      rw [htrans]
      dsimp only
      rw [hdiv, hrem]
      generalize hchunk : min remaining (pageSize - vaddr % pageSize) = chunk
      have hchunk₁ : 0 < chunk ∧ chunk ≤ remaining ∧ vaddr % pageSize + chunk ≤ pageSize := by omega
      have hlen : ((data.drop srcOff).take chunk).length = chunk := by
        rw [List.length_take, List.length_drop]
        omega
      have hfits : vaddr % pageSize + ((data.drop srcOff).take chunk).length ≤ pageSize := by
        rw [hlen]
        exact hchunk₁.2.2
      obtain ⟨hready, hpages, hbytes⟩ := h.store (by omega) hf hone rfl hfits
      rw [hlen] at hbytes
      have hsole' : SoleOn root (storeBytes m f (vaddr % pageSize) ((data.drop srcOff).take chunk)) (vaddr + chunk)
          (vaddr + chunk + (remaining - chunk)) := fun v h1 h2 => by
        rw [hpages]
        exact hsole v (by omega) (by omega)
      have hdata' : srcOff + chunk + (remaining - chunk) ≤ data.length := by omega
      obtain ⟨m', hm', hready', hbytes'⟩ := ih hready (by omega) hsole' (by omega) hdata'
      refine ⟨m', hm', hready', fun v hv => ?_⟩
      rw [hbytes' v hv, hbytes v hv]
      by_cases h1 : vaddr ≤ v ∧ v < vaddr + chunk
      · have hget : ((data.drop srcOff).take chunk).getD (v - vaddr) 0 = fileByte data vaddr srcOff v := by
          rw [fileByte, List.getD_eq_getElem?_getD, List.getElem?_take_of_lt (by omega), List.getElem?_drop,
            ← List.getD_eq_getElem?_getD]
        rw [if_neg (by omega), if_pos h1, if_pos (by omega), hget]
      · rw [if_neg h1]
        by_cases h2 : vaddr + chunk ≤ v ∧ v < vaddr + chunk + (remaining - chunk)
        · rw [if_pos h2, if_pos (by omega)]
          unfold fileByte
          rw [show srcOff + chunk + (v - (vaddr + chunk)) = srcOff + (v - vaddr) by omega]
        · rw [if_neg h2, if_neg (by omega)]

/-! ## One segment -/

/-- The pages of the segment contain `v`. -/
def Elf64Phdr.Covers (p : Elf64Phdr) (v : Nat) : Prop := p.segStart ≤ v ∧ v < p.segEnd

instance (p : Elf64Phdr) (v : Nat) : Decidable (p.Covers v) := inferInstanceAs (Decidable (_ ∧ _))

/-- What the segment puts at `v`: its file data, and zeros on the rest of its pages. -/
def Elf64Phdr.byteAt (p : Elf64Phdr) (data : List Byte) (v : Nat) : Byte :=
  if p.pVaddr ≤ v ∧ v < p.pVaddr + p.pFilesz then fileByte data p.pVaddr p.pOffset v else 0

structure Elf64Phdr.Checked (p : Elf64Phdr) (data : List Byte) : Prop where
  load : p.pType = ptLoad
  memory : p.pVaddr + p.pMemsz ≤ userSpaceEnd
  start : p.pVaddr < userSpaceEnd
  sizes : p.pFilesz ≤ p.pMemsz
  file : p.pOffset + p.pFilesz ≤ data.length

theorem Elf64Phdr.Checked.bounds {p : Elf64Phdr} (h : p.Checked data) :
    p.segStart % pageSize = 0 ∧ p.segStart ≤ p.pVaddr ∧ p.pVaddr + p.pMemsz ≤ p.segEnd ∧
      p.segEnd ≤ userSpaceEnd ∧ p.segStart + (p.segEnd - p.segStart) / pageSize * pageSize = p.segEnd := by
  have h1 := h.memory
  unfold Elf64Phdr.segStart Elf64Phdr.segEnd pageAlignUp
  simp only [pageSize, userSpaceEnd] at *
  omega

theorem Elf64Phdr.Checked.covers {p : Elf64Phdr} (h : p.Checked data) {v : Nat} (h1 : p.pVaddr ≤ v)
    (h2 : v < p.pVaddr + p.pMemsz) : p.Covers v := by
  obtain ⟨-, hb₁, hb₂, -, -⟩ := h.bounds
  exact ⟨hb₁.trans h1, Nat.lt_of_lt_of_le h2 hb₂⟩

def Elf64Phdr.mapFlags (p : Elf64Phdr) : MapFlags :=
  { user := true, writable := p.writable, noExecute := !p.executable }

def Elf64Phdr.pages (p : Elf64Phdr) : Nat := (p.segEnd - p.segStart) / pageSize

theorem fillSegment_spec {p : Elf64Phdr} (h : Ready root m) (hp : p.Checked data)
    (hmap : mapZeroed root p.mapFlags p.pages p.segStart m = (true, m')) :
    ∃ m'', copyFile root data p.pFilesz p.pVaddr p.pOffset p.pFilesz m' = (true, m'') ∧ Ready root m'' ∧
      ∀ v < userSpaceEnd, userByte root m'' v =
        if p.Covers v then some (p.byteAt data v) else userByte root m v := by
  obtain ⟨halign, hlo, hhi, hend, hspan⟩ := hp.bounds
  have hsizes := hp.sizes
  have hnew := mapZeroed_spec h halign (by rw [Elf64Phdr.pages, hspan]; exact hend) hmap
  have hmem : ∀ v < userSpaceEnd, pageNumber v ∈ pagesOf p.segStart p.pages ↔ p.Covers v := fun v hv => by
    rw [mem_pagesOf hv halign, Elf64Phdr.pages, hspan]
    rfl
  have hsole : SoleOn root m' p.pVaddr (p.pVaddr + p.pFilesz) := fun v h1 h2 => by
    have hx := (hmem v (by omega)).2 (hp.covers h1 (by omega))
    have hzero := hnew.zero _ hx
    unfold contents at hzero
    obtain ⟨f, hf, -⟩ := Option.map_eq_some_iff.1 hzero
    exact ⟨f, hf, fun y hy => hnew.sole _ hx y (hy.trans hf.symm)⟩
  obtain ⟨m₂, hm₂, hready, hbytes⟩ := copyFile_spec hnew.ready (Nat.le_refl p.pFilesz) hsole (by omega) hp.file
  refine ⟨m₂, hm₂, hready, fun v hv => ?_⟩
  rw [hbytes v hv]
  unfold Elf64Phdr.byteAt
  by_cases hfile : p.pVaddr ≤ v ∧ v < p.pVaddr + p.pFilesz
  · rw [if_pos hfile, if_pos hfile, if_pos (hp.covers hfile.1 (by omega))]
  · rw [if_neg hfile, if_neg hfile]
    by_cases hcov : p.Covers v
    · rw [if_pos hcov, userByte, hnew.zero _ ((hmem v hv).2 hcov)]
      simp only [Option.map_some]
      congr 1
      simp [Machine.pageByte, Machine.wordByte]
    · rw [if_neg hcov]
      exact userByte_congr (hnew.others _ fun hx => hcov ((hmem v hv).1 hx)).2

theorem loadSegment_spec {p : Elf64Phdr} (h : Ready root m) (hp : p.Checked data)
    (hr : loadSegment root data p m = (true, m')) : Ready root m' ∧
      ∀ v < userSpaceEnd, userByte root m' v =
        if p.Covers v then some (p.byteAt data v) else userByte root m v := by
  unfold loadSegment at hr
  dsimp only at hr
  split at hr
  · cases hr
  · next m₁ hmap =>
    obtain ⟨m₂, hm₂, hready, hbytes⟩ := fillSegment_spec h hp hmap
    rw [hm₂] at hr
    cases hr
    exact ⟨hready, hbytes⟩

/-! ## All segments -/

/-- The segment of program header `i`, if it is to be loaded. -/
def segment (data : List Byte) (header : Elf64Header) (i : Nat) : Option Elf64Phdr :=
  match checkPhdr data header i with
  | some (.ok (some p)) => some p
  | _ => none

def segments (data : List Byte) (header : Elf64Header) (order : List Nat) : List Elf64Phdr :=
  order.filterMap (segment data header)

/-- Of the segments that cover `v`, the last one decides its byte. -/
def finalByte (data : List Byte) (ps : List Elf64Phdr) (init : Option Byte) (v : Nat) : Option Byte :=
  ps.foldl (fun b p => if p.Covers v then some (p.byteAt data v) else b) init

theorem segment_checked {header : Elf64Header} {i : Nat} {p : Elf64Phdr} (h : segment data header i = some p) :
    p.Checked data := by
  have hcheck : checkPhdr data header i = some (.ok (some p)) := by
    unfold segment at h
    split at h
    · next hc => rw [hc, Option.some.inj h]
    · cases h
  simp only [checkPhdr, bind, Option.bind_eq_some_iff, pure] at hcheck
  obtain ⟨off, -, stop, -, h⟩ := hcheck
  split at h
  · cases h
  split at h
  · cases h
  next hload =>
  split at h
  · cases h
  next hstart =>
  obtain ⟨memEnd, hmem, h⟩ := Option.bind_eq_some_iff.1 h
  split at h
  · cases h
  next hmemEnd =>
  split at h
  · cases h
  next hsizes =>
  obtain ⟨fileEnd, hfile, h⟩ := Option.bind_eq_some_iff.1 h
  split at h
  · cases h
  next hfileEnd =>
  obtain rfl : readPhdr data off = p := by simpa using h
  rw [Pmm.addU64_some hmem] at hmemEnd
  rw [Pmm.addU64_some hfile] at hfileEnd
  exact ⟨Decidable.not_not.1 hload, Nat.le_of_not_lt hmemEnd, Nat.lt_of_not_le hstart, Nat.le_of_not_lt hsizes,
    Nat.le_of_not_lt hfileEnd⟩

/-- A successful loop passed all checks, and left what the segments put there. -/
theorem loadPhdrs_spec {header : Elf64Header} {order : List Nat} {info info' : ElfInfo} (h : Ready root m)
    (hr : loadPhdrs root data header order info m = some (.ok info', m')) :
    (∀ i ∈ order, ∃ x, checkPhdr data header i = some (.ok x)) ∧ Ready root m' ∧
      info' = (segments data header order).foldl ElfInfo.add info ∧
      ∀ v < userSpaceEnd, userByte root m' v =
        finalByte data (segments data header order) (userByte root m v) v := by
  induction order generalizing info m with
  | nil =>
    rw [loadPhdrs] at hr
    split at hr
    · cases hr
    · cases hr
      exact ⟨nofun, h, rfl, fun _ _ => rfl⟩
  | cons i order ih =>
    rw [loadPhdrs] at hr
    obtain ⟨res, hcheck, hr⟩ := Option.bind_eq_some_iff.1 hr
    cases res with
    | error e => cases hr
    | ok x =>
    cases x with
    | none =>
      obtain ⟨hchecks, hready, hinfo, hbytes⟩ := ih h hr
      have hskip : segments data header (i :: order) = segments data header order := by
        simp [segments, segment, hcheck]
      rw [hskip]
      exact ⟨List.forall_mem_cons.2 ⟨⟨_, hcheck⟩, hchecks⟩, hready, hinfo, hbytes⟩
    | some p =>
      have hseg : segment data header i = some p := by simp [segment, hcheck]
      have hsegs : segments data header (i :: order) = p :: segments data header order := by
        simp [segments, hseg]
      dsimp only at hr
      split at hr
      · cases hr
      · next m₁ hload =>
        obtain ⟨hready₁, hbytes₁⟩ := loadSegment_spec h (segment_checked hseg) hload
        obtain ⟨hchecks, hready, hinfo, hbytes⟩ := ih hready₁ hr
        rw [hsegs]
        refine ⟨List.forall_mem_cons.2 ⟨⟨_, hcheck⟩, hchecks⟩, hready, hinfo, fun v hv => ?_⟩
        rw [hbytes v hv, hbytes₁ v hv]
        rfl

end Zigix.Elf
