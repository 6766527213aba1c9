import Zigix.Mm.PmmInv

/-!
# The allocator built from the boot memory map (`initFromBootEntries` in `kernel/mm/pmm.zig`)

* `initFromBootEntries` : the highest address sizes the bitmap and the reference counts, the first suitable entry
  holds them, the usable entries are marked free, then their storage, the kernel image and page `0` are reserved;
* `Apart` : what a memory map has to guarantee about the pages left free; `initFromBootEntries_apart_iff`.

The printed totals (`total_usable`) are left out. The bitmap pointer is undefined until a place is found, so the
state of a boot that finds none has no free page.
-/

namespace Zigix.Pmm

/-- `MemoryKind` of `boot_info.zig`. -/
inductive MemoryKind
  | usable
  | reserved
  | acpiReclaimable
  | kernelAndModules
  | bootloaderReclaimable
  | framebuffer
  deriving DecidableEq

/-- `BootMemEntry`. -/
structure BootMemEntry where
  base : Nat
  length : Nat
  kind : MemoryKind

/-- The kinds whose pages pass 3 marks free. -/
def BootMemEntry.isUsable (e : BootMemEntry) : Bool :=
  e.kind = .usable || e.kind = .bootloaderReclaimable

/-! ## The passes -/

def highestUsable : List BootMemEntry → Nat → Option Nat
  | [], highest => some highest
  | e :: rest, highest => do
    let top ← addU64 e.base e.length
    highestUsable rest
      (if (e.isUsable || e.kind = .acpiReclaimable) && highest < top then top else highest)

/-- `bitmap_size`. -/
def bitmapSize (total : Nat) : Nat := (total + 7) / 8

/-- `ref_counts_size`. -/
def refCountsSize (total : Nat) : Nat := total * 2

/-- `(n + 7) & ~7`. -/
def alignUp8 (n : Nat) : Nat := (n + 7) / 8 * 8

/-- `metadata_size`. -/
def metadataSize (total : Nat) : Nat := alignUp8 (bitmapSize total) + refCountsSize total

/-- Pass 2: an entry that may hold the bitmap and the reference counts. The sum fits: the entry is long enough. -/
def suitable (kernelBase kernelEnd metadata : Nat) (e : BootMemEntry) : Bool :=
  e.isUsable && metadata ≤ e.length && 0x100000 ≤ e.base &&
    (kernelEnd ≤ e.base || e.base + metadata ≤ kernelBase)

/-- The pages from `first` up to `last` (exclusive). -/
def pagesUpTo (first last : Nat) : List Nat := List.range' first (last - first)

def markFree (s : State) (p : Nat) : State :=
  { s with bitmap := setBit s.bitmap p, freePageCount := s.freePageCount + 1 }

def reserve (s : State) (p : Nat) : State :=
  if s.isFree p then { s with bitmap := clearBit s.bitmap p, freePageCount := s.freePageCount - 1 } else s

def BootMemEntry.pages (e : BootMemEntry) (total : Nat) : List Nat :=
  pagesUpTo (e.base / pageSize) (min (e.base / pageSize + e.length / pageSize) total)

def markUsable (s : State) (entries : List BootMemEntry) : State :=
  entries.foldl (fun s e => if e.isUsable then (e.pages s.totalPages).foldl markFree s else s) s

/-- `KERNEL_VIRT_BASE`. -/
def kernelVirtBase : Nat := 0xFFFFFFFF80000000

/-- `effective_end`: the larger of the boot loader's and the linker's end of the kernel image; `endSymbol` is the
address of `__kernel_end`. -/
def effectiveEnd (kernelBase kernelEnd endSymbol : Nat) : Option Nat := do
  let size ← subU64 endSymbol kernelVirtBase
  let trueEnd ← addU64 kernelBase size
  return if kernelEnd < trueEnd then trueEnd else kernelEnd

structure Boot where
  state : State
  /-- `bitmap_phys`, if a place was found. -/
  bitmapPhys : Option PhysAddr

/-- `ref_counts_phys`. -/
def refCountsPhys (bitmapPhys total : Nat) : Nat := alignUp8 (bitmapPhys + bitmapSize total)

def storageEnd (bitmapPhys total : Nat) : Nat := refCountsPhys bitmapPhys total + refCountsSize total

def cleared (highest : Nat) : State where
  bitmap := fun _ => 0#8
  totalPages := highest / pageSize
  freePageCount := 0
  highestPhys := highest
  refCounts := fun _ => 0
  nextFreeHint := 0

def initFromBootEntries (entries : List BootMemEntry) (kernelBase kernelEnd endSymbol : Nat) : Option Boot := do
  let highest ← highestUsable entries 0
  let total := highest / pageSize
  let metadata := metadataSize total
  match entries.find? (suitable kernelBase kernelEnd metadata) with
  | none => return ⟨cleared highest, none⟩
  | some e =>
    let s := markUsable (cleared highest) entries
    let first := e.base / pageSize
    let s := (List.range' first ((metadata + pageSize - 1) / pageSize)).foldl reserve s
    let last ← effectiveEnd kernelBase kernelEnd endSymbol
    let rounded ← addU64 last pageSize
    let kernelEndPage := (rounded - 1) / pageSize
    let s := (pagesUpTo (kernelBase / pageSize) (min kernelEndPage total)).foldl reserve s
    let s := if 0 < total then reserve s 0 else s
    let rounded ← addU64 (e.base + metadata) pageSize
    let bitmapEndPage := (rounded - 1) / pageSize
    return ⟨{ s with nextFreeHint := if kernelEndPage < bitmapEndPage then bitmapEndPage else kernelEndPage },
      some e.base⟩

/-! ## Which pages are free -/

/-- The free pages are exactly `F`, all below `total_pages` and counted once; no page is referenced. -/
structure FreeIs (s : State) (F : Set Nat) : Prop where
  inv : Inv s
  refs : ∀ p, s.refCounts p = 0
  free : ∀ p, s.isFree p = true ↔ p ∈ F

theorem FreeIs.congr {s : State} {F G : Set Nat} (h : FreeIs s F) (he : ∀ p, p ∈ F ↔ p ∈ G) : FreeIs s G :=
  ⟨h.inv, h.refs, fun p => (h.free p).trans (he p)⟩

theorem FreeIs.cleared (highest : Nat) : FreeIs (cleared highest) ∅ := by
  have hnone : ∀ p, (Pmm.cleared highest).isFree p = false := fun p => by
    rw [State.isFree, testBit_eq]
    exact BitVec.getLsbD_zero
  refine ⟨⟨?_, fun p hp => ?_, fun _ _ => rfl⟩, fun _ => rfl, fun p => ?_⟩
  · simp only [hnone, Bool.false_eq_true, Nat.count_false]
    rfl
  · simp [hnone] at hp
  · simp [hnone]

theorem isFree_markFree (s : State) (p q : Nat) : (markFree s p).isFree q = (decide (q = p) || s.isFree q) :=
  testBit_setBit _ _ _

theorem FreeIs.markFree {s : State} {F : Set Nat} (h : FreeIs s F) {p : Nat} (hlt : p < s.totalPages) (hp : p ∉ F) :
    FreeIs (markFree s p) (insert p F) := by
  have hnf : s.isFree p = false := by
    rw [← Bool.not_eq_true, h.free]
    exact hp
  refine ⟨⟨?_, fun q hq => ?_, fun q _ => h.refs q⟩, h.refs, fun q => ?_⟩
  · have hcount := count_clear (Pmm.markFree s p).isFree s.isFree p s.totalPages hlt (by simp [isFree_markFree])
      (fun q => by rw [isFree_markFree]; by_cases hq : q = p <;> simp [hq, hnf])
    have h1 := h.inv.count_eq
    change s.freePageCount + 1 = Nat.count (fun q => (Pmm.markFree s p).isFree q = true) s.totalPages
    omega
  · rw [isFree_markFree, Bool.or_eq_true, decide_eq_true_eq] at hq
    rcases hq with rfl | hq
    · exact hlt
    · exact h.inv.free_lt q hq
  · rw [isFree_markFree, Bool.or_eq_true, decide_eq_true_eq, h.free, Set.mem_insert_iff]

theorem FreeIs.reserve {s : State} {F : Set Nat} (h : FreeIs s F) (p : Nat) : FreeIs (reserve s p) (F \ {p}) := by
  unfold Pmm.reserve
  split
  · next hp =>
    -- the writes of `take`, without the reference count
    have hfree : ∀ q,
        ({ s with bitmap := clearBit s.bitmap p, freePageCount := s.freePageCount - 1 } : State).isFree q =
          (decide (q ≠ p) && s.isFree q) := fun q => testBit_clearBit _ _ _
    have hcount := count_clear s.isFree _ p s.totalPages (h.inv.free_lt p hp) hp hfree
    refine ⟨⟨?_, fun q hq => ?_, fun q _ => h.refs q⟩, h.refs, fun q => ?_⟩
    · have h1 := h.inv.count_eq
      dsimp only at hcount ⊢
      omega
    · rw [hfree, Bool.and_eq_true] at hq
      exact h.inv.free_lt q hq.2
    · rw [hfree, Bool.and_eq_true, decide_eq_true_eq, h.free, and_comm]
      rfl
  · next hp =>
    refine h.congr fun q => ?_
    rw [h.free] at hp
    constructor
    · intro hq
      refine ⟨hq, fun he => hp ?_⟩
      rwa [Set.mem_singleton_iff.1 he] at hq
    · exact fun hq => hq.1

theorem totalPages_reserve (s : State) (p : Nat) : (reserve s p).totalPages = s.totalPages := by
  unfold reserve
  split <;> rfl

theorem FreeIs.markAll {s : State} {F : Set Nat} (h : FreeIs s F) {l : List Nat} (hnd : l.Nodup)
    (hl : ∀ p ∈ l, p < s.totalPages ∧ p ∉ F) :
    FreeIs (l.foldl Pmm.markFree s) (F ∪ {p | p ∈ l}) ∧ (l.foldl Pmm.markFree s).totalPages = s.totalPages := by
  induction l generalizing s F with
  | nil => exact ⟨h.congr fun p => by simp, rfl⟩
  | cons p rest ih =>
    have hp := hl p List.mem_cons_self
    have hnd' := List.nodup_cons.1 hnd
    obtain ⟨h1, h2⟩ := ih (h.markFree hp.1 hp.2) hnd'.2 fun q hq => by
      have hq' := hl q (List.mem_cons_of_mem _ hq)
      refine ⟨hq'.1, fun hin => ?_⟩
      rcases Set.mem_insert_iff.1 hin with rfl | hin
      · exact hnd'.1 hq
      · exact hq'.2 hin
    refine ⟨h1.congr fun q => ?_, h2⟩
    simp only [Set.mem_union, Set.mem_insert_iff, Set.mem_ofPred_eq, List.mem_cons]
    tauto

theorem FreeIs.reserveAll {s : State} {F : Set Nat} (h : FreeIs s F) (l : List Nat) :
    FreeIs (l.foldl Pmm.reserve s) (F \ {p | p ∈ l}) := by
  induction l generalizing s F with
  | nil => exact h.congr fun p => by simp
  | cons p rest ih =>
    refine (ih (h.reserve p)).congr fun q => ?_
    simp only [Set.mem_sdiff, Set.mem_singleton_iff, Set.mem_ofPred_eq, List.mem_cons]
    tauto

theorem mem_pagesUpTo {first last p : Nat} : p ∈ pagesUpTo first last ↔ first ≤ p ∧ p < last := by
  rw [pagesUpTo, List.mem_range'_1]
  omega

/-- Page `p` lies inside the entry. -/
def BootMemEntry.Holds (e : BootMemEntry) (p : Nat) : Prop :=
  e.base ≤ p * pageSize ∧ (p + 1) * pageSize ≤ e.base + e.length

structure WellFormed (entries : List BootMemEntry) : Prop where
  aligned : ∀ e ∈ entries, pageSize ∣ e.base ∧ pageSize ∣ e.length
  apart : entries.Pairwise fun a b =>
    a.isUsable = true → b.isUsable = true → a.base + a.length ≤ b.base ∨ b.base + b.length ≤ a.base

theorem BootMemEntry.mem_pages {e : BootMemEntry} (ha : pageSize ∣ e.base ∧ pageSize ∣ e.length) (total p : Nat) :
    p ∈ e.pages total ↔ p < total ∧ e.Holds p := by
  obtain ⟨⟨b, hb⟩, l, hl⟩ := ha
  rw [BootMemEntry.pages, mem_pagesUpTo, BootMemEntry.Holds, hb, hl]
  simp only [pageSize]
  omega

theorem markUsable_free {s : State} {F : Set Nat} (h : FreeIs s F) {entries : List BootMemEntry}
    (hw : WellFormed entries) (hF : ∀ e ∈ entries, e.isUsable = true → ∀ p, e.Holds p → p ∉ F) :
    FreeIs (markUsable s entries) (F ∪ {p | p < s.totalPages ∧ ∃ e ∈ entries, e.isUsable = true ∧ e.Holds p}) ∧
      (markUsable s entries).totalPages = s.totalPages := by
  induction entries generalizing s F with
  | nil => exact ⟨h.congr fun p => by simp, rfl⟩
  | cons e rest ih =>
    have hw' : WellFormed rest :=
      ⟨fun x hx => hw.aligned x (List.mem_cons_of_mem _ hx), (List.pairwise_cons.1 hw.apart).2⟩
    have hF' := fun x hx => hF x (List.mem_cons_of_mem e hx)
    rw [markUsable, List.foldl_cons, ← markUsable]
    by_cases hu : e.isUsable = true
    · rw [if_pos hu]
      have hmem := e.mem_pages (hw.aligned e List.mem_cons_self) s.totalPages
      obtain ⟨h1, h2⟩ := h.markAll (l := e.pages s.totalPages) List.nodup_range' fun p hp =>
        ⟨((hmem p).1 hp).1, hF e List.mem_cons_self hu p ((hmem p).1 hp).2⟩
      obtain ⟨h3, h4⟩ := ih h1 hw' fun x hx hxu p hp hin => by
        rcases hin with hin | hin
        · exact hF' x hx hxu p hp hin
        · -- two usable entries do not share a page
          have hap := (List.pairwise_cons.1 hw.apart).1 x hx hu hxu
          have he := ((hmem p).1 hin).2
          simp only [BootMemEntry.Holds, pageSize] at hp he
          omega
      refine ⟨h3.congr fun p => ?_, by rw [h4, h2]⟩
      simp only [Set.mem_union, Set.mem_ofPred_eq, hmem, h2, List.mem_cons, exists_eq_or_imp, hu, true_and]
      tauto
    · rw [if_neg hu]
      obtain ⟨h3, h4⟩ := ih h hw' hF'
      refine ⟨h3.congr fun p => ?_, h4⟩
      simp [hu]

/-! ## The state after the boot -/

/-- Page `p` has a byte in `[lo, hi)`. -/
def Touches (p lo hi : Nat) : Prop := p * pageSize < hi ∧ lo < (p + 1) * pageSize

theorem storageEnd_eq {base : Nat} (ha : pageSize ∣ base) (total : Nat) :
    storageEnd base total = base + metadataSize total := by
  obtain ⟨k, rfl⟩ := ha
  simp only [storageEnd, refCountsPhys, metadataSize, alignUp8, refCountsSize, pageSize]
  omega

theorem mem_storagePages {base : Nat} (ha : pageSize ∣ base) (total p : Nat) :
    p ∈ List.range' (base / pageSize) ((metadataSize total + pageSize - 1) / pageSize) ↔
      Touches p base (storageEnd base total) := by
  rw [storageEnd_eq ha, List.mem_range'_1, Touches]
  generalize metadataSize total = n
  obtain ⟨k, rfl⟩ := ha
  simp only [pageSize]
  omega

theorem mem_kernelPages {total p : Nat} (hp : p < total) (kernelBase last : Nat) :
    p ∈ pagesUpTo (kernelBase / pageSize) (min ((last + pageSize - 1) / pageSize) total) ↔
      Touches p kernelBase last := by
  rw [mem_pagesUpTo, Touches]
  simp only [pageSize]
  omega

/-- The pages a boot leaves free: those of the usable entries without the storage at `base`, the kernel image and
page `0`. -/
def leftFree (entries : List BootMemEntry) (total base kernelBase last : Nat) : Set Nat :=
  {p | p < total ∧ (∃ e ∈ entries, e.isUsable = true ∧ e.Holds p) ∧ ¬ Touches p base (storageEnd base total) ∧
    ¬ Touches p kernelBase last ∧ p ≠ 0}

inductive BootResult (entries : List BootMemEntry) (kernelBase kernelEnd endSymbol highest : Nat) (b : Boot) : Prop
  | unplaced (hstate : b.state = cleared highest) (hphys : b.bitmapPhys = none)
      (hfind : entries.find? (suitable kernelBase kernelEnd (metadataSize (highest / pageSize))) = none)
  | placed (e : BootMemEntry) (last : Nat)
      (hfind : entries.find? (suitable kernelBase kernelEnd (metadataSize (highest / pageSize))) = some e)
      (hlast : effectiveEnd kernelBase kernelEnd endSymbol = some last) (hphys : b.bitmapPhys = some e.base)
      (htotal : b.state.totalPages = highest / pageSize)
      (hfree : FreeIs b.state (leftFree entries (highest / pageSize) e.base kernelBase last))

theorem foldl_reserve_total (s : State) (l : List Nat) : (l.foldl reserve s).totalPages = s.totalPages := by
  induction l generalizing s with
  | nil => rfl
  | cons p rest ih => rw [List.foldl_cons, ih, totalPages_reserve]

theorem addU64_eq {a b n : Nat} (h : addU64 a b = some n) : n = a + b ∧ n < 2 ^ 64 := by
  unfold addU64 at h
  split at h
  · next hlt =>
    cases h
    exact ⟨rfl, hlt⟩
  · cases h

theorem initFromBootEntries_result {entries : List BootMemEntry} {kernelBase kernelEnd endSymbol : Nat} {b : Boot}
    (hw : WellFormed entries) (hb : initFromBootEntries entries kernelBase kernelEnd endSymbol = some b) :
    ∃ highest, highestUsable entries 0 = some highest ∧
      BootResult entries kernelBase kernelEnd endSymbol highest b := by
  unfold initFromBootEntries at hb
  obtain ⟨highest, hhigh, hb⟩ := Option.bind_eq_some_iff.1 hb
  refine ⟨highest, hhigh, ?_⟩
  dsimp only at hb
  split at hb
  · next hfind =>
    cases hb
    exact .unplaced rfl rfl hfind
  · next e hfind =>
    obtain ⟨last, hlast, hb⟩ := Option.bind_eq_some_iff.1 hb
    obtain ⟨rounded, hround, hb⟩ := Option.bind_eq_some_iff.1 hb
    obtain ⟨bitmapEnd, -, hb⟩ := Option.bind_eq_some_iff.1 hb
    have hmem := List.mem_of_find?_eq_some hfind
    have ha := (hw.aligned e hmem).1
    have hr : rounded - 1 = last + pageSize - 1 := by rw [(addU64_eq hround).1]
    -- the folds, one after the other
    obtain ⟨h1, ht1⟩ := markUsable_free (FreeIs.cleared highest) hw fun _ _ _ _ _ h => h
    have h2 := h1.reserveAll (List.range' (e.base / pageSize)
      ((metadataSize (highest / pageSize) + pageSize - 1) / pageSize))
    have h3 := h2.reserveAll (pagesUpTo (kernelBase / pageSize)
      (min ((rounded - 1) / pageSize) (highest / pageSize)))
    cases hb
    refine .placed e last hfind hlast rfl ?_ ?_
    · dsimp only
      split
      · rw [totalPages_reserve, foldl_reserve_total, foldl_reserve_total, ht1]
        rfl
      · rw [foldl_reserve_total, foldl_reserve_total, ht1]
        rfl
    · have hcongr : ∀ p, p ∈ ((((∅ ∪ {p | p < (cleared highest).totalPages ∧
            ∃ e ∈ entries, e.isUsable = true ∧ e.Holds p}) \
          {p | p ∈ List.range' (e.base / pageSize)
            ((metadataSize (highest / pageSize) + pageSize - 1) / pageSize)}) \
          {p | p ∈ pagesUpTo (kernelBase / pageSize) (min ((rounded - 1) / pageSize) (highest / pageSize))}) \
          {0} : Set Nat) ↔ p ∈ leftFree entries (highest / pageSize) e.base kernelBase last := fun p => by
        have hT : (cleared highest).totalPages = highest / pageSize := rfl
        simp only [Set.mem_sdiff, Set.mem_union, Set.mem_empty_iff_false, false_or, Set.mem_ofPred_eq,
          Set.mem_singleton_iff, mem_storagePages ha, hT, leftFree, hr]
        constructor
        · rintro ⟨⟨⟨⟨hlt, hu⟩, hs⟩, hk⟩, h0⟩
          exact ⟨hlt, hu, hs, fun h => hk ((mem_kernelPages hlt _ _).2 h), h0⟩
        · rintro ⟨hlt, hu, hs, hk, h0⟩
          exact ⟨⟨⟨⟨hlt, hu⟩, hs⟩, fun h => hk ((mem_kernelPages hlt _ _).1 h)⟩, h0⟩
      split
      · have h4 := (h3.reserve 0).congr hcongr
        exact ⟨⟨h4.inv.count_eq, h4.inv.free_lt, h4.inv.ref_zero⟩, h4.refs, h4.free⟩
      · next h0 =>
        have h4 : FreeIs _ _ := h3.congr fun p => by
          rw [← hcongr]
          constructor
          · refine fun hp => ⟨hp, fun _ => ?_⟩
            have hlt : p < (cleared highest).totalPages := by
              rcases hp.1.1 with h | h
              · exact h.elim
              · exact h.1
            exact h0 (Nat.lt_of_le_of_lt (Nat.zero_le p) hlt)
          · exact fun hp => hp.1
        exact ⟨⟨h4.inv.count_eq, h4.inv.free_lt, h4.inv.ref_zero⟩, h4.refs, h4.free⟩

/-! ## The boot does not panic -/

theorem addU64_of_lt {a b : Nat} (h : a + b < 2 ^ 64) : addU64 a b = some (a + b) := if_pos h

theorem highestUsable_isSome {entries : List BootMemEntry} (hfit : ∀ e ∈ entries, e.base + e.length < 2 ^ 64)
    (highest : Nat) : ∃ n, highestUsable entries highest = some n := by
  induction entries generalizing highest with
  | nil => exact ⟨highest, rfl⟩
  | cons e rest ih =>
    rw [highestUsable, addU64_of_lt (hfit e List.mem_cons_self)]
    exact ih (fun x hx => hfit x (List.mem_cons_of_mem e hx)) _

/-- A map whose entries end at least a page below `2 ^ 64`, and a kernel image that does too, boot without a panic. -/
theorem initFromBootEntries_isSome {entries : List BootMemEntry} {kernelBase kernelEnd endSymbol last : Nat}
    (hfit : ∀ e ∈ entries, e.base + e.length + pageSize < 2 ^ 64)
    (hlast : effectiveEnd kernelBase kernelEnd endSymbol = some last) (hroom : last + pageSize < 2 ^ 64) :
    ∃ b, initFromBootEntries entries kernelBase kernelEnd endSymbol = some b := by
  obtain ⟨highest, hhigh⟩ :=
    highestUsable_isSome (fun e he => Nat.lt_of_le_of_lt (Nat.le_add_right _ _) (hfit e he)) 0
  unfold initFromBootEntries
  rw [hhigh]
  dsimp only [Option.bind_eq_bind, Option.bind_some]
  split
  · exact ⟨_, rfl⟩
  · next e hfind =>
    have hs := List.find?_some hfind
    simp only [suitable, Bool.and_eq_true, decide_eq_true_eq] at hs
    have hlen := hs.1.1.2
    have hfits : e.base + metadataSize (highest / pageSize) + pageSize < 2 ^ 64 := by
      have := hfit e (List.mem_of_find?_eq_some hfind)
      omega
    rw [hlast, addU64_of_lt hfits]
    dsimp only [Option.bind_some]
    rw [addU64_of_lt hroom]
    exact ⟨_, rfl⟩

/-! ## What the boot guarantees -/

/-- The boot memory map's promise: free pages lie in usable entries, outside the kernel image
`[kernelBase, last)`, the allocator's storage and page `0`; they are counted; and the storage is not placed over the
kernel image. -/
structure Guarded (entries : List BootMemEntry) (kernelBase last : Nat) (b : Boot) : Prop where
  counted : b.state.freePageCount = Nat.count (fun p => b.state.isFree p = true) b.state.totalPages
  below : ∀ p, b.state.isFree p = true → p < b.state.totalPages
  usable : ∀ p, b.state.isFree p = true → ∃ e ∈ entries, e.isUsable = true ∧ e.Holds p
  kernel : ∀ p, b.state.isFree p = true → ¬ Touches p kernelBase last
  storage : ∀ p, b.state.isFree p = true →
    ∀ base ∈ b.bitmapPhys, ¬ Touches p base (storageEnd base b.state.totalPages)
  page_zero : b.state.isFree 0 = false
  apart : ∀ base ∈ b.bitmapPhys, ¬ (base < last ∧ kernelBase < storageEnd base b.state.totalPages)

/-- `e` is the first entry that passes the placement test of pass 2. -/
def FirstSuitable (entries : List BootMemEntry) (kernelBase kernelEnd metadata : Nat) (e : BootMemEntry) : Prop :=
  suitable kernelBase kernelEnd metadata e = true ∧
    ∃ before after, entries = before ++ e :: after ∧ ∀ x ∈ before, suitable kernelBase kernelEnd metadata x = false

def InKernelTail (kernelBase kernelEnd last metadata : Nat) (e : BootMemEntry) : Prop :=
  kernelEnd ≤ e.base ∧ e.base < last ∧ kernelBase < e.base + metadata

theorem find?_suitable {entries : List BootMemEntry} {kernelBase kernelEnd metadata : Nat} {e : BootMemEntry} :
    entries.find? (suitable kernelBase kernelEnd metadata) = some e ↔
      FirstSuitable entries kernelBase kernelEnd metadata e := by
  rw [List.find?_eq_some_iff_append, FirstSuitable]
  simp only [Bool.not_eq_true']

/-- The allocator of every boot: the invariant holds and page `0` is reserved. -/
structure Booted (s : State) : Prop where
  inv : Inv s
  zero_used : s.isFree 0 = false
  zero_unreferenced : s.refCounts 0 = 0

theorem initFromBootEntries_booted {entries : List BootMemEntry} {kernelBase kernelEnd endSymbol : Nat} {b : Boot}
    (hw : WellFormed entries) (hb : initFromBootEntries entries kernelBase kernelEnd endSymbol = some b) :
    Booted b.state := by
  obtain ⟨highest, -, hr⟩ := initFromBootEntries_result hw hb
  have hfree : ∃ F, FreeIs b.state F ∧ 0 ∉ F := by
    cases hr with
    | unplaced hstate => exact ⟨∅, hstate ▸ FreeIs.cleared highest, fun h => h⟩
    | placed e last _ _ _ _ hfree => exact ⟨_, hfree, fun h => h.2.2.2.2 rfl⟩
  obtain ⟨F, hF, h0⟩ := hfree
  refine ⟨hF.inv, ?_, hF.refs 0⟩
  rw [← Bool.not_eq_true, hF.free]
  exact h0

/-- Pass 2's test keeps the storage off the part of the kernel image it knows about. -/
theorem suitable_apart_iff {kernelBase kernelEnd metadata : Nat} {e : BootMemEntry}
    (hs : suitable kernelBase kernelEnd metadata e = true) (last : Nat) :
    ¬ (e.base < last ∧ kernelBase < e.base + metadata) ↔ ¬ InKernelTail kernelBase kernelEnd last metadata e := by
  simp only [suitable, Bool.and_eq_true, Bool.or_eq_true, decide_eq_true_eq] at hs
  rw [InKernelTail]
  have := hs.2
  omega

/-- **The boot memory map.** For every page-aligned map whose usable entries do not overlap, the allocator that
`initFromBootEntries` leaves behind is `Guarded` exactly when the first entry that passes the placement test does
not start in the tail of the kernel image the test does not know about. -/
theorem initFromBootEntries_guarded_iff {entries : List BootMemEntry}
    {kernelBase kernelEnd endSymbol highest last : Nat} {b : Boot} (hw : WellFormed entries)
    (hb : initFromBootEntries entries kernelBase kernelEnd endSymbol = some b)
    (hhigh : highestUsable entries 0 = some highest)
    (hlast : effectiveEnd kernelBase kernelEnd endSymbol = some last) :
    Guarded entries kernelBase last b ↔
      ∀ e, FirstSuitable entries kernelBase kernelEnd (metadataSize (highest / pageSize)) e →
        ¬ InKernelTail kernelBase kernelEnd last (metadataSize (highest / pageSize)) e := by
  have hboot := initFromBootEntries_booted hw hb
  obtain ⟨highest', hhigh', hr⟩ := initFromBootEntries_result hw hb
  have hh : highest' = highest := Option.some.inj (hhigh'.symm.trans hhigh)
  subst hh
  cases hr with
  | unplaced hstate hphys hfind =>
    have hnone : ∀ p, b.state.isFree p ≠ true := fun p hp =>
      ((hstate ▸ FreeIs.cleared highest' : FreeIs b.state ∅).free p).1 hp
    refine ⟨fun _ e he => ?_, fun _ => ⟨hboot.inv.count_eq, hboot.inv.free_lt, fun p hp => absurd hp (hnone p),
      fun p hp => absurd hp (hnone p), fun p hp => absurd hp (hnone p), hboot.zero_used, fun base hbase => ?_⟩⟩
    · rw [← find?_suitable, hfind] at he
      cases he
    · rw [hphys] at hbase
      cases hbase
  | placed e last' hfind hlast' hphys htotal hfree =>
    have hl : last' = last := Option.some.inj (hlast'.symm.trans hlast)
    subst hl
    have hfirst := find?_suitable.1 hfind
    have hend := storageEnd_eq (hw.aligned e (List.mem_of_find?_eq_some hfind)).1 (highest' / pageSize)
    have hapart := suitable_apart_iff hfirst.1 last'
    rw [← hend, ← htotal] at hapart
    constructor
    · intro hg e' he'
      have hee : e' = e := Option.some.inj ((find?_suitable.2 he').symm.trans hfind)
      subst hee
      rw [← htotal]
      exact hapart.1 (hg.apart _ hphys)
    · intro hc
      refine ⟨hboot.inv.count_eq, hboot.inv.free_lt, fun p hp => ((hfree.free p).1 hp).2.1,
        fun p hp => ((hfree.free p).1 hp).2.2.2.1, fun p hp base hbase => ?_, hboot.zero_used, fun base hbase => ?_⟩
      · rw [hphys] at hbase
        cases hbase
        rw [htotal]
        exact ((hfree.free p).1 hp).2.2.1
      · rw [hphys] at hbase
        cases hbase
        have hplaced := hc e hfirst
        rw [← htotal] at hplaced
        exact hapart.2 hplaced

def oneBank : List BootMemEntry := [⟨0x300000, 0x100000, .usable⟩]

theorem oneBank_wellFormed : WellFormed oneBank := by
  refine ⟨fun e he => ?_, List.pairwise_singleton _ _⟩
  rw [List.mem_singleton.1 he]
  exact ⟨⟨0x300, by decide⟩, ⟨0x100, by decide⟩⟩

/-- A kernel that ends where the bank begins, and the linker agrees: the free pages are guarded. -/
theorem initFromBootEntries_guarded_oneBank :
    ∃ b, initFromBootEntries oneBank 0x200000 0x300000 0xFFFFFFFF80100000 = some b ∧
      Guarded oneBank 0x200000 0x300000 b := by
  have hsome : (initFromBootEntries oneBank 0x200000 0x300000 0xFFFFFFFF80100000).isSome = true := by decide +kernel
  obtain ⟨b, hb⟩ := Option.isSome_iff_exists.1 hsome
  have hhigh : highestUsable oneBank 0 = some 0x400000 := by decide
  have hlast : effectiveEnd 0x200000 0x300000 0xFFFFFFFF80100000 = some 0x300000 := by decide
  refine ⟨b, hb, (initFromBootEntries_guarded_iff oneBank_wellFormed hb hhigh hlast).2 fun e _ ht => ?_⟩
  exact absurd ht.2.1 (Nat.not_lt.2 ht.1)

/-- The linker's end lies 4 KiB beyond the boot loader's: the storage is placed over the last page of the kernel. -/
theorem initFromBootEntries_overlaps_kernel :
    ∃ b, initFromBootEntries oneBank 0x200000 0x300000 0xFFFFFFFF80101000 = some b ∧
      effectiveEnd 0x200000 0x300000 0xFFFFFFFF80101000 = some 0x301000 ∧ WellFormed oneBank ∧
      ¬ Guarded oneBank 0x200000 0x301000 b := by
  have hplace : (initFromBootEntries oneBank 0x200000 0x300000 0xFFFFFFFF80101000).map
      (fun b => b.bitmapPhys) = some (some 0x300000) := by decide +kernel
  obtain ⟨b, hb, hphys⟩ := Option.map_eq_some_iff.1 hplace
  refine ⟨b, hb, by decide, oneBank_wellFormed, fun hg => hg.apart _ hphys ⟨by decide, ?_⟩⟩
  rw [storageEnd_eq ⟨0x300, by decide⟩]
  exact Nat.lt_of_lt_of_le (by decide) (Nat.le_add_right 0x300000 _)

end Zigix.Pmm
