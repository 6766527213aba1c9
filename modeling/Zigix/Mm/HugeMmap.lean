import Zigix.Mm.Backing
import Zigix.Mm.HugePages
import Zigix.Mm.MmapSpec
import Zigix.Mm.TableFrames

/-!
# `MAP_HUGETLB`

* `mapLarge_step` : one huge page; `mapHugeRun_step` : all of them;
* `sysMmap_huge_iff` : on success the range is backed exactly if the call asks for one 1 GiB page, or for 2 MiB pages
  outside all 1 GiB pages; on failure the allocator is as before exactly if one 1 GiB or 2 MiB run is to be given back
  and no table was added.
-/

namespace Zigix.Mmap

open Vmm
open PageMap
open TableFrames
open Pmm (pageSize addU64 mulU64 takeAll SameFrames)
open PageCache (cached)
open Pte (isPresent isHuge frame)

/-! ## One huge page -/

/-- The tables that map a huge page at `virt` are there. -/
def HasTables (giga : Bool) (root : Nat) (m : Machine) (virt : Nat) : Prop :=
  isPresent (m.mem root (pml4Idx virt)) = true ∧
    (giga = false → isPresent (m.mem (frame (m.mem root (pml4Idx virt))) (pdptIdx virt)) = true)

/-- A huge page of either size. -/
def mapLarge (giga : Bool) (m : Machine) (root virt f : Nat) (flags : MapFlags) : Bool × Machine :=
  if giga then mapGigaPage m root virt f flags else mapHugePage m root virt f flags

section
variable {giga : Bool} {root virt f base phys : Nat} {m m' m₁ : Machine} {flags : MapFlags}

theorem hasTables_congr (h : Upper root m m') (v : Nat) : HasTables giga root m' v ↔ HasTables giga root m v := by
  have ha : pml4Idx v < 512 := Nat.mod_lt _ (by decide)
  have hi : pdptIdx v < 512 := Nat.mod_lt _ (by decide)
  unfold HasTables
  rw [h.pml4 _ ha]
  refine and_congr_right fun hpres => ?_
  rw [h.pdpts _ ha _ (Space.follow_some.2 ⟨hpres, rfl⟩) _ hi]

/-- What the calls rely on. -/
structure Good (giga : Bool) (root : Nat) (m : Machine) : Prop where
  tree : Tree root m
  held : giga = false → Held root m

theorem Good.live (h : Good giga root m) : Live m := by
  obtain ⟨pins, hinv, -⟩ := h.tree.live
  exact ⟨pins, hinv⟩

inductive Tabled (giga : Bool) (root virt : Nat) (m : Machine) : Bool × Machine → Prop
  | there {m' : Machine} (hhas : HasTables giga root m virt) (hpmm : m'.pmm = m.pmm) (hcache : m'.cache = m.cache)
      (hsame : ∀ v, HasTables giga root m' v ↔ HasTables giga root m v) : Tabled giga root virt m (true, m')
  | outOfMemory (hhas : ¬ HasTables giga root m virt) (hnone : (newTable m).1 = none) :
      Tabled giga root virt m (false, (newTable m).2)
  | added {b : Bool} {t : Nat} {m' : Machine} (hhas : ¬ HasTables giga root m virt) (hsome : (newTable m).1 = some t)
      (honly : TableOnly (newTable m).2 m') : Tabled giga root virt m (b, m')

theorem withTable_only {x : Option Nat × Machine} {k : Nat → Machine → Bool × Machine} (h : TableOnly m x.2)
    (hk : ∀ t, TableOnly m (k t x.2).2) : TableOnly m (withTable x k).2 := by
  rcases x with ⟨- | t, m₁⟩
  · exact h
  · exact hk t

theorem mapGigaPage_tabled (h : Tree root m) : Tabled true root virt m (mapGigaPage m root virt f flags) := by
  obtain ⟨pins, hinv, -⟩ := h.live
  have hlive : Live m := ⟨pins, hinv⟩
  unfold mapGigaPage ensureTable
  split
  · next hpres =>
    refine .there ⟨hpres, nofun⟩ rfl rfl fun v => ?_
    have ht : Table root m [pml4Idx virt] (frame (m.mem root (pml4Idx virt))) :=
      table_of_follow (Nat.mod_lt _ (by decide)) (Space.follow_some.2 ⟨hpres, rfl⟩)
    have hne : root ≠ frame (m.mem root (pml4Idx virt)) := (h.ne_root ht (List.cons_ne_nil _ _)).symm
    have hword : ∀ a w, (m.setWord (frame (m.mem root (pml4Idx virt))) (pdptIdx virt) w).mem root a = m.mem root a :=
      fun a w => Space.mem_setWord_of_ne fun hc => hne hc.1
    unfold HasTables
    simp only [Bool.true_eq_false, false_imp_iff, and_true]
    exact iff_of_eq (congrArg (fun w => isPresent w = true) (hword _ _))
  · next hpres =>
    have hhas : ¬ HasTables true root m virt := fun h => hpres h.1
    have hnone := Tabled.outOfMemory (m := m) hhas
    have honly := newTable_only hlive
    rcases hnew : newTable m with ⟨- | t, m₁⟩
    · rw [hnew] at hnone
      exact hnone rfl
    · rw [hnew] at honly
      refine .added hhas (by rw [hnew]) ?_
      rw [hnew]
      exact ((TableOnly.refl honly.live).setWord _ _ _).setWord _ _ _

theorem mapHugePage_tabled (h : Held root m) : Tabled false root virt m (mapHugePage m root virt f flags) := by
  obtain ⟨pins, hinv, -⟩ := h.live
  have hlive : Live m := ⟨pins, hinv⟩
  have honly := newTable_only hlive
  by_cases hpres : isPresent (m.mem root (pml4Idx virt)) = true
  · have hpdpt : ensureTable m root (pml4Idx virt) = (some (frame (m.mem root (pml4Idx virt))), m) := if_pos hpres
    unfold mapHugePage
    rw [hpdpt]
    unfold withTable
    dsimp only
    by_cases hpres' : isPresent (m.mem (frame (m.mem root (pml4Idx virt))) (pdptIdx virt)) = true
    · have hpd : ensureTable m (frame (m.mem root (pml4Idx virt))) (pdptIdx virt) =
          (some (frame (m.mem (frame (m.mem root (pml4Idx virt))) (pdptIdx virt))), m) := if_pos hpres'
      rw [hpd]
      exact .there ⟨hpres, fun _ => hpres'⟩ rfl rfl (hasTables_congr
        (h.upper_setWord (Space.follow_some.2 ⟨hpres, rfl⟩) (Space.follow_some.2 ⟨hpres', rfl⟩) _ _))
    · have hhas : ¬ HasTables false root m virt := fun h => hpres' (h.2 rfl)
      have hnone := Tabled.outOfMemory (m := m) hhas
      unfold ensureTable
      rw [if_neg hpres']
      rcases hnew : newTable m with ⟨- | t, m₁⟩
      · rw [hnew] at hnone
        exact hnone rfl
      · rw [hnew] at honly
        refine .added hhas (by rw [hnew]) ?_
        rw [hnew]
        exact ((TableOnly.refl honly.live).setWord _ _ _).setWord _ _ _
  · have hhas : ¬ HasTables false root m virt := fun h => hpres h.1
    have hnone := Tabled.outOfMemory (m := m) hhas
    unfold mapHugePage
    rw [show ensureTable m root (pml4Idx virt) = _ from if_neg hpres]
    rcases hnew : newTable m with ⟨- | t, m₁⟩
    · rw [hnew] at hnone
      exact hnone rfl
    · rw [hnew] at honly
      refine .added hhas (by rw [hnew]) ?_
      rw [hnew]
      have hlink := (TableOnly.refl honly.live).setWord root (pml4Idx virt) (Pte.table t)
      have hnext := hlink.trans (ensureTable_only hlink.live t (pdptIdx virt))
      exact withTable_only hnext fun pd => hnext.setWord _ _ _

/-- One huge page. -/
structure LargeStep (giga : Bool) (root virt f : Nat) (m : Machine) (x : Bool × Machine) : Prop where
  good : Good giga root x.2
  leaves : giga = false → ∀ v, gigaLeaf root x.2 v = gigaLeaf root m v
  mapped : x.1 = true → (giga = false → gigaLeaf root m virt = none) → LargeMapped giga root virt f m x.2
  tabled : Tabled giga root virt m x

theorem mapLarge_step (h : Good giga root m) (virt f : Nat) (flags : MapFlags) :
    LargeStep giga root virt f m (mapLarge giga m root virt f flags) := by
  unfold mapLarge
  cases giga with
  | true =>
    have hstep := mapGigaPage_step h.tree virt f flags
    exact ⟨⟨hstep.tree, nofun⟩, nofun, fun hdone _ => hstep.mapped hdone, mapGigaPage_tabled h.tree⟩
  | false =>
    have hheld := h.held rfl
    have hstep := mapHugePage_step hheld virt f flags
    exact ⟨⟨hstep.keeps.held.tree, fun _ => hstep.keeps.held⟩, fun _ => hstep.keeps.giga,
      fun hdone hleaf => hstep.mapped hdone (hleaf rfl), mapHugePage_tabled hheld⟩

theorem Tabled.only {x : Bool × Machine} (hlive : Live m) (hlive' : Live x.2) (h : Tabled giga root virt m x) :
    TableOnly m x.2 := by
  cases h with
  | there hhas hpmm hcache => exact (TableOnly.refl hlive').of_pmm hpmm hcache
  | outOfMemory => exact newTable_only hlive
  | added _ _ honly => exact (newTable_only hlive).trans honly

/-! ## A run of huge pages -/

/-- The outcome of a run whose pages have all their tables if and only if `all`. -/
inductive RunTabled (all : Prop) (m : Machine) : Option Nat × Machine → Prop
  | there {m' : Machine} (hall : all) (hpmm : m'.pmm = m.pmm) (hcache : m'.cache = m.cache) :
      RunTabled all m (none, m')
  | outOfMemory {i : Nat} {m' : Machine} (hall : ¬ all) (hnone : (newTable m).1 = none)
      (hpmm : m'.pmm = (newTable m).2.pmm) : RunTabled all m (some i, m')
  | added {r : Option Nat} {t : Nat} {m' : Machine} (hall : ¬ all) (hsome : (newTable m).1 = some t)
      (honly : TableOnly (newTable m).2 m') : RunTabled all m (r, m')

/-- The page `i` of a run and its translation. -/
def InPage (giga : Bool) (base i v : Nat) : Prop := hugePath giga v = hugePath giga (base + i * hugeBytes giga)

structure RunMapped (giga : Bool) (root base phys : Nat) (is : List Nat) (m m' : Machine) : Prop where
  others : ∀ v, (∀ i ∈ is, ¬ InPage giga base i v) → Vmm.translate m' root v = Vmm.translate m root v
  page : ∀ v, (∃ i ∈ is, InPage giga base i v) → ∃ i ∈ is, InPage giga base i v ∧ Vmm.translate m' root v =
    some ((phys + i * hugeBytes giga) / pageSize % 2 ^ 40 * pageSize + v % hugeBytes giga)

structure RunStep (giga : Bool) (root base phys : Nat) (is : List Nat) (m : Machine) (x : Option Nat × Machine) :
    Prop where
  good : Good giga root x.2
  only : TableOnly m x.2
  leaves : giga = false → ∀ v, gigaLeaf root x.2 v = gigaLeaf root m v
  mapped : x.1 = none → (giga = false → ∀ i ∈ is, gigaLeaf root m (base + i * hugeBytes giga) = none) →
    RunMapped giga root base phys is m x.2
  tabled : RunTabled (∀ i ∈ is, HasTables giga root m (base + i * hugeBytes giga)) m x

theorem RunMapped.cons {i : Nat} {is : List Nat} {m₂ : Machine}
    (h : LargeMapped giga root (base + i * hugeBytes giga) ((phys + i * hugeBytes giga) / pageSize) m m₁)
    (h' : RunMapped giga root base phys is m₁ m₂) : RunMapped giga root base phys (i :: is) m m₂ where
  others v hv := by
    rw [h'.others v fun j hj => hv j (List.mem_cons_of_mem _ hj)]
    exact h.others v (hv i List.mem_cons_self)
  page v hv := by
    by_cases hlater : ∃ j ∈ is, InPage giga base j v
    · obtain ⟨j, hj, hpage, htr⟩ := h'.page v hlater
      exact ⟨j, List.mem_cons_of_mem _ hj, hpage, htr⟩
    · push Not at hlater
      obtain ⟨j, hj, hpage⟩ := hv
      obtain rfl : j = i := by
        rcases List.mem_cons.1 hj with rfl | hj
        · rfl
        · exact absurd hpage (hlater j hj)
      refine ⟨j, List.mem_cons_self, hpage, ?_⟩
      rw [h'.others v hlater, h.page v hpage]

theorem mapHugeRun_step {is : List Nat} {x : Option Nat × Machine} (h : Good giga root m)
    (hr : mapHugeRun giga (hugeBytes giga) root base phys flags is m = some x) :
    RunStep giga root base phys is m x := by
  induction is generalizing m with
  | nil =>
    cases hr
    exact ⟨h, .refl h.live, fun _ _ => rfl, fun _ _ => ⟨fun _ _ => rfl, by simp⟩, .there (by simp) rfl rfl⟩
  | cons i is ih =>
    unfold mapHugeRun at hr
    obtain ⟨off, hoff, hr⟩ := Option.bind_eq_some_iff.1 hr
    obtain ⟨virt, hvirt, hr⟩ := Option.bind_eq_some_iff.1 hr
    obtain ⟨off', hoff', hr⟩ := Option.bind_eq_some_iff.1 hr
    obtain ⟨physI, hphysI, hr⟩ := Option.bind_eq_some_iff.1 hr
    cases Pmm.mulU64_some hoff
    cases Pmm.mulU64_some hoff'
    cases addU64_some hvirt
    cases addU64_some hphysI
    have hstep := mapLarge_step h (base + i * hugeBytes giga) ((phys + i * hugeBytes giga) / pageSize) flags
    have honly := hstep.tabled.only h.live hstep.good.live
    rcases hlarge : mapLarge giga m root (base + i * hugeBytes giga) ((phys + i * hugeBytes giga) / pageSize) flags with
      ⟨b, m₁⟩
    unfold mapLarge at hlarge
    rw [hlarge] at hr
    change mapLarge giga m root _ _ flags = (b, m₁) at hlarge
    rw [hlarge] at hstep honly
    cases b with
    | false =>
      cases hr
      refine ⟨hstep.good, honly, hstep.leaves, fun hnone => absurd hnone (Option.some_ne_none i), ?_⟩
      have htabled := hstep.tabled
      cases htabled with
      | outOfMemory hhas hnone => exact .outOfMemory (fun hall => hhas (hall i List.mem_cons_self)) hnone rfl
      | added hhas hsome honly' => exact .added (fun hall => hhas (hall i List.mem_cons_self)) hsome honly'
    | true =>
      have hrest := ih hstep.good hr
      refine ⟨hrest.good, honly.trans hrest.only, fun hgiga v => (hrest.leaves hgiga v).trans (hstep.leaves hgiga v),
        fun hnone hleaf => ?_, ?_⟩
      · refine .cons (hstep.mapped rfl fun hgiga => hleaf hgiga i List.mem_cons_self) (hrest.mapped hnone ?_)
        intro hgiga j hj
        rw [hstep.leaves hgiga]
        exact hleaf hgiga j (List.mem_cons_of_mem _ hj)
      · have htabled := hstep.tabled
        have hrun := hrest.tabled
        have honly' := hrest.only
        cases htabled with
        | added hhas hsome honly₁ =>
          exact .added (fun hall => hhas (hall i List.mem_cons_self)) hsome (honly₁.trans honly')
        | there hhas hpmm hcache hsame =>
          have hiff : (∀ j ∈ i :: is, HasTables giga root m (base + j * hugeBytes giga)) ↔
              ∀ j ∈ is, HasTables giga root m₁ (base + j * hugeBytes giga) := by
            simp only [hsame]
            exact ⟨fun hall j hj => hall j (List.mem_cons_of_mem _ hj),
              fun hall j hj => (List.mem_cons.1 hj).elim (fun he => he ▸ hhas) (hall j)⟩
          have hm₁ : m₁ = { m with mem := m₁.mem } := by
            rcases m with ⟨pmm, mem, cache⟩
            rcases m₁ with ⟨pmm₁, mem₁, cache₁⟩
            cases hpmm
            cases hcache
            rfl
          obtain ⟨hfst, hpmm', hcache'⟩ := newTable_withMem m m₁.mem
          rw [← hm₁] at hfst hpmm' hcache'
          cases hrun with
          | there hall hp hc => exact .there (hiff.2 hall) (hp.trans hpmm) (hc.trans hcache)
          | outOfMemory hall hnone hp =>
            exact .outOfMemory (fun h => hall (hiff.1 h)) (hfst.symm.trans hnone) (hp.trans hpmm')
          | added hall hsome honly₂ =>
            exact .added (fun h => hall (hiff.1 h)) (hfst.symm.trans hsome) (honly₂.of_pmm hpmm' hcache')

/-! ## The frames of the mapping -/

/-- The number of frames that are allocated for `count` pages: 1 GiB is always one page. -/
def hugeFrames (giga : Bool) (count : Nat) : Nat := if giga then Pmm.pagesPerGiga else count * Pmm.pagesPerHuge

/-- The run from frame `b` on was free, and has been taken. -/
structure RunTaken (giga : Bool) (count b : Nat) (m : Machine) (pmm : Pmm.State) : Prop where
  state : pmm = takeAll m.pmm (List.range' b (hugeFrames giga count))
  free : ∀ q ∈ List.range' b (hugeFrames giga count), m.pmm.isFree q = true ∧ Pmm.minAllocPage ≤ q
  some : giga = false → 0 < count

theorem allocHuge_cases {count : Nat} {o : Option Pmm.PhysAddr} {pmm : Pmm.State}
    (h : allocHuge giga count m.pmm = some (o, pmm)) :
    o = none ∧ pmm = m.pmm ∨ ∃ b, o = some (b * pageSize) ∧ RunTaken giga count b m pmm := by
  unfold allocHuge at h
  cases giga with
  | true =>
    have h : some (Pmm.allocGigaPage m.pmm) = some (o, pmm) := h
    rcases Pmm.allocAligned_cases m.pmm Pmm.pagesPerGiga Pmm.pagesPerGiga (by decide) with hnone | ⟨b, hsome, hfree⟩
    · unfold Pmm.allocGigaPage at h
      rw [hnone] at h
      cases h
      exact .inl ⟨rfl, rfl⟩
    · unfold Pmm.allocGigaPage at h
      rw [hsome] at h
      cases h
      exact .inr ⟨b, rfl, rfl, hfree, nofun⟩
  | false =>
    have h : Pmm.allocHugePages m.pmm count = some (o, pmm) := h
    unfold Pmm.allocHugePages at h
    split at h
    · cases h
      exact .inl ⟨rfl, rfl⟩
    next hcount =>
    obtain ⟨need, hneed, h⟩ := Option.bind_eq_some_iff.1 h
    cases Pmm.mulU64_some hneed
    rcases Pmm.allocAligned_cases m.pmm Pmm.pagesPerHuge (count * Pmm.pagesPerHuge) (by decide) with
      hnone | ⟨b, hsome, hfree⟩
    · rw [hnone] at h
      cases h
      exact .inl ⟨rfl, rfl⟩
    · rw [hsome] at h
      cases h
      exact .inr ⟨b, rfl, rfl, hfree, fun _ => Nat.pos_of_ne_zero hcount⟩

variable {count b : Nat} {pmm pmm' : Pmm.State}

theorem RunTaken.moves (h : RunTaken giga count b m pmm) : Pmm.Moves m.pmm pmm := by
  rw [h.state]
  exact Pmm.takeAll_moves _ _ List.nodup_range' h.free

theorem RunTaken.refCounts (h : RunTaken giga count b m pmm) (q : Nat) :
    pmm.refCounts q = if q ∈ List.range' b (hugeFrames giga count) then 1 else m.pmm.refCounts q := by
  rw [h.state]
  exact Pmm.refCounts_takeAll ..

theorem isFree_takeAll (s : Pmm.State) (pages : List Nat) (q : Nat) :
    (takeAll s pages).isFree q = (decide (q ∉ pages) && s.isFree q) := by
  induction pages generalizing s with
  | nil => simp [takeAll]
  | cons p pages ih =>
    rw [takeAll, List.foldl_cons, ← takeAll, ih, Pmm.isFree_take]
    by_cases hq : q ∈ pages
    · simp [hq]
    · by_cases hp : q = p <;> simp [hq, hp]

theorem RunTaken.isFree (h : RunTaken giga count b m pmm) (q : Nat) :
    pmm.isFree q = (decide (q ∉ List.range' b (hugeFrames giga count)) && m.pmm.isFree q) := by
  rw [h.state]
  exact isFree_takeAll ..

theorem uncached_of_free {pins : Nat → Nat} {q : Nat} (h : Space.Inv ∅ pins m) (hq : m.pmm.isFree q = true) :
    cached m.cache q = 0 := by
  have hzero := h.pmm.ref_zero q hq
  have hw := h.sound.weight_le (a := q) (by rw [hzero]; decide)
  rw [hzero] at hw
  have hle : ((cached m.cache q + pins q : ℕ) : ℕ∞) ≤ ((0 : ℕ) : ℕ∞) := le_trans le_add_self hw
  have hle : cached m.cache q + pins q ≤ 0 := by exact_mod_cast hle
  omega

theorem RunTaken.inv {pins : Nat → Nat} (h : RunTaken giga count b m pmm) (hinv : Space.Inv ∅ pins m) :
    Space.Inv ∅ pins { m with pmm := pmm } := by
  refine hinv.withPmm h.moves hinv.pinned fun q => ?_
  rw [h.refCounts]
  split
  · next hq =>
    have hzero := hinv.pmm.ref_zero q (h.free q hq).1
    have hw := hinv.sound.weight_le (a := q) (by rw [hzero]; decide)
    rw [hzero] at hw
    exact .inr (hw.trans (by simp))
  · exact hinv.sound q

theorem RunTaken.good (h : RunTaken giga count b m pmm) (hheld : Held root m) :
    Good giga root { m with pmm := pmm } := by
  obtain ⟨pins, hinv, hpins, hgiga⟩ := hheld.live
  have htree : Tree root { m with pmm := pmm } := ⟨hheld.tree.separated, pins, h.inv hinv, hpins⟩
  exact ⟨htree, fun _ => ⟨htree, ⟨pins, h.inv hinv, hpins, hgiga⟩, hheld.apart⟩⟩

theorem mem_run {q n : Nat} : q ∈ List.range' b n ↔ b ≤ q ∧ q < b + n := List.mem_range'_1

/-! ## Giving the frames back -/

theorem unmapLarge_pmm (giga : Bool) (m : Machine) (root virt : Nat) :
    (if giga then unmapGigaPage m root virt else unmapHugePage m root virt).pmm = m.pmm := by
  cases giga
  · unfold unmapHugePage
    rw [if_neg (by decide)]
    split <;> rfl
  · unfold unmapGigaPage
    rw [if_pos rfl]
    split <;> rfl

/-- One 1 GiB page or one 2 MiB page is given back, whatever was allocated. -/
theorem undoHuge_some {pageSz n : Nat} (h : undoHuge giga pageSz root base (b * pageSize) n m = some m') :
    Pmm.freeEach m.pmm (List.range' b (hugeFrames giga 1)) = some m'.pmm := by
  have hfold : ∀ (js : List Nat) (m : Machine), (js.foldl (fun m j =>
      if giga then unmapGigaPage m root (base + j * pageSz) else unmapHugePage m root (base + j * pageSz)) m).pmm =
        m.pmm := by
    intro js
    induction js with
    | nil => exact fun _ => rfl
    | cons j js ih => exact fun m => (ih _).trans (unmapLarge_pmm giga m root _)
  unfold undoHuge at h
  dsimp only at h
  rw [hfold] at h
  obtain ⟨pmm, hpmm, rfl⟩ := Option.map_eq_some_iff.1 h
  have hpmm : Pmm.freePages m.pmm (b * pageSize) (hugeFrames giga 1) = some pmm := by
    cases giga <;> exact hpmm
  unfold Pmm.freePages at hpmm
  obtain ⟨-, -, hpmm⟩ := Option.bind_eq_some_iff.1 hpmm
  rwa [Pmm.mul_div_pageSize] at hpmm

/-- There is no page for a table, and the page cache gives none back. -/
def Exhausted (m : Machine) : Prop := m.allocPage.1 = none ∧ SameFrames m.pmm m.allocPage.2.pmm

theorem newTable_none (h : (newTable m).1 = none) : m.allocPage.1 = none ∧ (newTable m).2 = m.allocPage.2 := by
  unfold newTable at h ⊢
  rcases hm : m.allocPage with ⟨- | f, m₁⟩
  · exact ⟨rfl, rfl⟩
  · rw [hm] at h
    cases h

theorem newTable_some {t : Nat} (h : (newTable m).1 = some t) : m.allocPage.1 = some t := by
  unfold newTable at h
  rcases hm : m.allocPage with ⟨- | f, m₁⟩
  · rw [hm] at h
    cases h
  · rw [hm] at h
    exact h

theorem sameFrames_undo_iff (h : RunTaken giga count b m pmm) (hlive : Live m) (hone : giga = true ∨ count = 1)
    (honly : TableOnly { m with pmm := pmm } m₁)
    (hfree : Pmm.freeEach m₁.pmm (List.range' b (hugeFrames giga 1)) = some pmm') :
    SameFrames m.pmm pmm' ↔ SameFrames pmm m₁.pmm := by
  obtain ⟨pins, hinv⟩ := hlive
  obtain ⟨pins₁, hinv₁⟩ := honly.live
  have hrun : hugeFrames giga 1 = hugeFrames giga count := by
    unfold hugeFrames
    rcases hone with hone | hone
    · rw [if_pos hone, if_pos hone]
    · rw [hone]
  rw [hrun] at hfree
  have htotal : pmm.totalPages = m.pmm.totalPages := h.moves.total
  have htotal₁ : m₁.pmm.totalPages = pmm.totalPages := honly.total
  have htotal' : pmm'.totalPages = m₁.pmm.totalPages := (Pmm.freeEach_moves hfree).total
  have hkept : ∀ q ∈ List.range' b (hugeFrames giga count), m₁.pmm.refCounts q = 1 := by
    intro q hq
    have hpmm : pmm.refCounts q = 1 := by rw [h.refCounts, if_pos hq]
    have huncached : cached m.cache q = 0 := uncached_of_free hinv (h.free q hq).1
    exact (honly.kept q huncached (by show 0 < pmm.refCounts q; omega)).trans hpmm
  have hspec := Pmm.freeEach_spec List.nodup_range' (fun q hq => by
    obtain ⟨hfree, hmin⟩ := h.free q hq
    have hlt := hinv.pmm.free_lt q hfree
    unfold Pmm.minAllocPage at hmin
    exact ⟨by omega, by omega, hkept q hq⟩) hfree
  have hpages : (∀ q, pmm'.isFree q = m.pmm.isFree q ∧ pmm'.refCounts q = m.pmm.refCounts q) ↔
      ∀ q, m₁.pmm.isFree q = pmm.isFree q ∧ m₁.pmm.refCounts q = pmm.refCounts q := by
    refine forall_congr' fun q => ?_
    obtain ⟨href, hfree'⟩ := hspec q
    rw [href, hfree', h.refCounts, h.isFree]
    by_cases hq : q ∈ List.range' b (hugeFrames giga count)
    · have hused : m₁.pmm.isFree q = false := hinv₁.pmm.not_free (by rw [hkept q hq]; decide)
      simp [hq, hkept q hq, hused, (h.free q hq).1, hinv.pmm.ref_zero q (h.free q hq).1]
    · simp [hq]
  constructor
  · intro hsame
    have hall := hpages.1 fun q => ⟨hsame.isFree q, congrFun hsame.refCounts q⟩
    exact .of_pages (h.inv hinv).pmm hinv₁.pmm htotal₁ (fun q => (hall q).1) fun q => (hall q).2
  · intro hsame
    have hall := hpages.2 fun q => ⟨hsame.isFree q, congrFun hsame.refCounts q⟩
    exact .of_pages hinv.pmm ((Pmm.freeEach_moves hfree).inv hinv₁.pmm) (htotal'.trans (htotal₁.trans htotal))
      (fun q => (hall q).1) fun q => (hall q).2

/-- Of several 2 MiB pages only the first is given back: the first frame of the second stays in use. -/
theorem undo_keeps_second (h : RunTaken false count b m pmm) (hlive : Live m) (hcount : 2 ≤ count)
    (honly : TableOnly { m with pmm := pmm } m₁)
    (hfree : Pmm.freeEach m₁.pmm (List.range' b (hugeFrames false 1)) = some pmm') :
    pmm'.refCounts (b + Pmm.pagesPerHuge) = 1 ∧ m.pmm.refCounts (b + Pmm.pagesPerHuge) = 0 := by
  obtain ⟨pins, hinv⟩ := hlive
  have hq : b + Pmm.pagesPerHuge ∈ List.range' b (hugeFrames false count) := by
    refine mem_run.2 ⟨by omega, ?_⟩
    have htwo : 2 * Pmm.pagesPerHuge ≤ count * Pmm.pagesPerHuge := Nat.mul_le_mul_right _ hcount
    show b + Pmm.pagesPerHuge < b + count * Pmm.pagesPerHuge
    unfold Pmm.pagesPerHuge at htwo ⊢
    omega
  have hpmm : pmm.refCounts (b + Pmm.pagesPerHuge) = 1 := by rw [h.refCounts, if_pos hq]
  have huncached : cached m.cache (b + Pmm.pagesPerHuge) = 0 := uncached_of_free hinv (h.free _ hq).1
  have hkept : m₁.pmm.refCounts (b + Pmm.pagesPerHuge) = pmm.refCounts (b + Pmm.pagesPerHuge) :=
    honly.kept _ huncached (by show 0 < pmm.refCounts (b + Pmm.pagesPerHuge); omega)
  have hlast : pmm'.refCounts (b + Pmm.pagesPerHuge) = m₁.pmm.refCounts (b + Pmm.pagesPerHuge) := by
    refine Pmm.freeEach_other (fun hmem => ?_) hfree
    have hlt : b + Pmm.pagesPerHuge < b + 1 * Pmm.pagesPerHuge := (mem_run.1 hmem).2
    omega
  exact ⟨by omega, hinv.pmm.ref_zero _ (h.free _ hq).1⟩

theorem undo_restores_iff {is : List Nat} {x : Option Nat × Machine} (h : RunTaken giga count b m pmm) (hlive : Live m)
    (hcache : ∀ q, cached m.cache q ≤ 1) (hstep : RunStep giga root base phys is { m with pmm := pmm } x)
    (hlive₀ : Live { m with pmm := pmm })
    (hfree : Pmm.freeEach x.2.pmm (List.range' b (hugeFrames giga 1)) = some pmm') :
    SameFrames m.pmm pmm' ↔ (giga = true ∨ count = 1) ∧
      ((∀ i ∈ is, HasTables giga root m (base + i * hugeBytes giga)) ∨ Exhausted { m with pmm := pmm }) := by
  by_cases hone : giga = true ∨ count = 1
  · rw [sameFrames_undo_iff h hlive hone hstep.only hfree, and_iff_right hone]
    have htabled := hstep.tabled
    rcases x with ⟨r, m₁⟩
    cases htabled with
    | there hall hpmm =>
      refine iff_of_true ?_ (.inl hall)
      rw [hpmm]
      exact ⟨rfl, rfl, rfl⟩
    | outOfMemory hall hnone hpmm =>
      obtain ⟨halloc, hnew⟩ := newTable_none hnone
      rw [hpmm, hnew]
      exact ⟨fun hsame => .inr ⟨halloc, hsame⟩, fun hor => (hor.resolve_left hall).2⟩
    | @added r t m₁ hall hsome honly =>
      refine iff_of_false (fun hsame => ?_) ?_
      · -- the table has two references; before, the cache had one at most
        have hnew := newTable_cases hlive₀
        generalize newTable { m with pmm := pmm } = y at hnew hsome honly
        cases hnew with
        | outOfMemory => cases hsome
        | @added f m₂ hfrom hto huncached _ =>
          have hkept := honly.kept f huncached (by show 0 < m₂.pmm.refCounts f; omega)
          have hpmm := congrFun hsame.refCounts f
          have hle : cached m.cache f ≤ 1 := hcache f
          have hfrom : pmm.refCounts f ≤ cached m.cache f := hfrom
          have hto : m₂.pmm.refCounts f = 2 := hto
          have hkept : m₁.pmm.refCounts f = m₂.pmm.refCounts f := hkept
          have hpmm : m₁.pmm.refCounts f = pmm.refCounts f := hpmm
          omega
      · rintro (hall' | hex)
        · exact hall hall'
        · have hnone := hex.1
          rw [newTable_some hsome] at hnone
          cases hnone
  · refine iff_of_false (fun hsame => ?_) fun hboth => hone hboth.1
    push Not at hone
    obtain ⟨hgiga, hcount⟩ := hone
    have hgiga : giga = false := by simpa using hgiga
    subst hgiga
    have hpos := h.some rfl
    obtain ⟨href, hzero⟩ := undo_keeps_second h hlive (by omega) hstep.only hfree
    have hsame := congrFun hsame.refCounts (b + Pmm.pagesPerHuge)
    omega

end

/-! ## The call -/

/-- The pages that the call asks for. -/
def hugeCount (a : MmapArgs) : Nat := mmapLength a / hugeSize a.flags

/-- The call is accepted, its place is chosen and its frames are taken. -/
structure Started (a : MmapArgs) (s : Sys) (base b : Nat) (pmm : Pmm.State) : Prop where
  length : a.length ≠ 0
  allowed : (protWrite a.prot && protExec a.prot) = false
  fixed : mapFixed a.flags = true → base = a.addr
  aligned : base % hugeSize a.flags = 0
  alloc : allocHuge (useGiga a.flags) (hugeCount a) s.machine.pmm = some (some (b * pageSize), pmm)
  hint : mapFixed a.flags = false → (allocMmapRegion (hugeSize a.flags) s.proc (mmapLength a)).map Prod.fst = some base

def hugeRun (a : MmapArgs) (s : Sys) (base b : Nat) (pmm : Pmm.State) : Option (Option Nat × Machine) :=
  mapHugeRun (useGiga a.flags) (hugeBytes (useGiga a.flags)) s.proc.pageTable base (b * pageSize)
    { writable := protWrite a.prot, user := true, noExecute := !protExec a.prot } (List.range (hugeCount a))
    { s.machine with pmm := pmm }

inductive HugeOutcome (a : MmapArgs) (s : Sys) : Except Errno Nat × Sys → Prop
  | refused {e : Errno} {s' : Sys} (hstart : ∀ base b pmm, ¬ Started a s base b pmm) (hmachine : s'.machine = s.machine) :
      HugeOutcome a s (.error e, s')
  | undone {e : Errno} {s' : Sys} {base b n : Nat} {pmm : Pmm.State} {x : Option Nat × Machine}
      (hstart : Started a s base b pmm) (hrun : hugeRun a s base b pmm = some x)
      (hundo : undoHuge (useGiga a.flags) (hugeSize a.flags) s.proc.pageTable base (b * pageSize) n x.2 = some s'.machine) :
      HugeOutcome a s (.error e, s')
  | mapped {s' : Sys} {base b : Nat} {pmm : Pmm.State} (hstart : Started a s base b pmm)
      (hrun : hugeRun a s base b pmm = some (none, s'.machine)) (hroot : s'.proc.pageTable = s.proc.pageTable) :
      HugeOutcome a s (.ok base, s')

theorem hugeSize_eq (flags : Nat) : hugeSize flags = hugeBytes (useGiga flags) := by
  unfold hugeSize hugeBytes
  split <;> rfl

section
variable {a : MmapArgs} {s s₀ s' : Sys} {base : Nat} {res : Except Errno Nat}

theorem mmapHugeAt_outcome (hm : s₀.machine = s.machine) (hroot : s₀.proc.pageTable = s.proc.pageTable)
    (hlen : a.length ≠ 0) (hwx : (protWrite a.prot && protExec a.prot) = false)
    (hfixed : mapFixed a.flags = true → base = a.addr) (halign : base % hugeSize a.flags = 0)
    (hhint : mapFixed a.flags = false →
      (allocMmapRegion (hugeSize a.flags) s.proc (mmapLength a)).map Prod.fst = some base)
    (hr : mmapHugeAt a (mmapLength a) base s₀ = some (res, s')) : HugeOutcome a s (res, s') := by
  unfold mmapHugeAt at hr
  rw [hm, hroot] at hr
  obtain ⟨⟨o, pmm⟩, halloc, hr⟩ := Option.bind_eq_some_iff.1 hr
  have halloc : allocHuge (useGiga a.flags) (hugeCount a) s.machine.pmm = some (o, pmm) := halloc
  rcases allocHuge_cases halloc with ⟨rfl, rfl⟩ | ⟨b, rfl, htaken⟩
  · cases hr
    refine .refused (fun base' b pmm hstart => ?_) (by rw [← hm])
    have hsome := hstart.alloc
    rw [halloc] at hsome
    cases hsome
  have hstart : Started a s base b pmm := ⟨hlen, hwx, hfixed, halign, halloc, hhint⟩
  obtain ⟨x, hrun, hr⟩ := Option.bind_eq_some_iff.1 hr
  have hrun : hugeRun a s base b pmm = some x := by
    unfold hugeRun
    rw [← hugeSize_eq]
    exact hrun
  rcases x with ⟨- | i, m⟩
  · obtain ⟨stop, hstop, hr⟩ := Option.bind_eq_some_iff.1 hr
    split at hr
    · obtain ⟨m', hundo, hr⟩ := Option.bind_eq_some_iff.1 hr
      cases hr
      exact .undone hstart hrun hundo
    · cases hr
      exact .mapped hstart hrun hroot
  · obtain ⟨m', hundo, hr⟩ := Option.bind_eq_some_iff.1 hr
    cases hr
    exact .undone hstart hrun hundo

theorem sysMmap_hugeOutcome (hanon : mapAnonymous a.flags = true) (hhuge : mapHugetlb a.flags = true)
    (hr : sysMmap a s = some (res, s')) : HugeOutcome a s (res, s') := by
  unfold sysMmap at hr
  split at hr
  · next hlen =>
    cases hr
    exact .refused (fun _ _ _ hstart => hstart.length hlen) rfl
  next hlen =>
  obtain ⟨len, -, hr⟩ := Option.bind_eq_some_iff.1 hr
  cases hwx : protWrite a.prot && protExec a.prot with
  | true =>
    rw [if_pos hwx] at hr
    cases hr
    refine .refused (fun _ _ _ hstart => ?_) rfl
    have hallowed := hstart.allowed
    rw [hwx] at hallowed
    cases hallowed
  | false =>
  rw [if_neg (by rw [hwx]; exact Bool.false_ne_true)] at hr
  unfold mmapHuge at hr
  obtain ⟨len', hlen', hr⟩ := Option.bind_eq_some_iff.1 hr
  obtain rfl : len' = mmapLength a := by
    rw [mmapLength, mmapPage, hanon, hhuge, alignUp_some hlen']
    rfl
  cases hfix : mapFixed a.flags with
  | true =>
    rw [if_pos hfix] at hr
    split at hr
    · next hmod =>
      cases hr
      refine .refused (fun base b pmm hstart => hmod ?_) rfl
      rw [← hstart.fixed hfix]
      exact hstart.aligned
    · next hmod =>
      refine mmapHugeAt_outcome rfl rfl hlen hwx (fun _ => rfl) (not_not.1 hmod) (fun h => ?_) hr
      rw [hfix] at h
      cases h
  | false =>
    rw [if_neg (by rw [hfix]; exact Bool.false_ne_true)] at hr
    obtain ⟨⟨base, proc⟩, hregion, hr⟩ := Option.bind_eq_some_iff.1 hr
    obtain ⟨hbase, -, hproc⟩ := allocMmapRegion_some hregion
    refine mmapHugeAt_outcome (show Sys.machine { s with proc := proc } = s.machine from rfl) (by rw [hproc]) hlen hwx (fun h => ?_) ?_
      (fun _ => by rw [hregion]; rfl) hr
    · rw [hfix] at h
      cases h
    · rw [hbase]
      exact alignDown_mod _ _

/-! ## Backed, or undone -/

/-- Every page of `[base, base + len)` is mapped to a frame that was free, is not free any more, and has one
reference. -/
structure FramesBacked (base len : Nat) (s s' : Sys) : Prop where
  frame : ∀ x, base ≤ x → x < base + len → ∃ phys, Vmm.translate s'.machine s'.proc.pageTable x = some phys ∧
    s.machine.pmm.isFree (phys / pageSize) = true ∧ s'.machine.pmm.isFree (phys / pageSize) = false ∧
      s'.machine.pmm.refCounts (phys / pageSize) = 1

theorem Started.taken {b : Nat} {pmm : Pmm.State} (h : Started a s base b pmm) :
    RunTaken (useGiga a.flags) (hugeCount a) b s.machine pmm := by
  rcases allocHuge_cases h.alloc with ⟨hnone, -⟩ | ⟨b', hb', htaken⟩
  · cases hnone
  · obtain rfl : b = b' := Nat.eq_of_mul_eq_mul_right (by decide) (Option.some.inj hb')
    exact htaken

theorem Started.unique {base' b b' : Nat} {pmm pmm' : Pmm.State} (h : Started a s base b pmm)
    (h' : Started a s base' b' pmm') : base' = base ∧ b' = b ∧ pmm' = pmm := by
  have halloc := h'.alloc
  rw [h.alloc] at halloc
  obtain ⟨hphys, hpmm⟩ := Prod.mk.inj (Option.some.inj halloc)
  refine ⟨?_, (Nat.eq_of_mul_eq_mul_right (by decide) (Option.some.inj hphys)).symm, hpmm.symm⟩
  cases hfix : mapFixed a.flags with
  | true => rw [h.fixed hfix, h'.fixed hfix]
  | false =>
    have hhint := h'.hint hfix
    rw [h.hint hfix] at hhint
    exact (Option.some.inj hhint).symm

theorem Started.step {b : Nat} {pmm : Pmm.State} {x : Option Nat × Machine} (h : Started a s base b pmm)
    (hheld : Held s.proc.pageTable s.machine) (hrun : hugeRun a s base b pmm = some x) :
    RunStep (useGiga a.flags) s.proc.pageTable base (b * pageSize) (List.range (hugeCount a))
      { s.machine with pmm := pmm } x :=
  mapHugeRun_step (h.taken.good hheld) hrun

theorem hugeCount_mul (hanon : mapAnonymous a.flags = true) (hhuge : mapHugetlb a.flags = true) :
    mmapLength a = hugeCount a * hugeBytes (useGiga a.flags) := by
  have hmod := mmapLength_mod a
  have hpage : mmapPage a = hugeSize a.flags := by
    unfold mmapPage
    rw [hanon, hhuge]
    rfl
  rw [hpage] at hmod
  rw [← hugeSize_eq]
  exact (Nat.div_mul_cancel (Nat.dvd_of_mod_eq_zero hmod)).symm

theorem hugePath_congr {giga : Bool} {v w : Nat} (h : v / hugeBytes giga = w / hugeBytes giga) :
    hugePath giga v = hugePath giga w := by
  cases giga with
  | true =>
    have h : v / 2 ^ 30 = w / 2 ^ 30 := h
    have h₁ : v / 2 ^ 39 = w / 2 ^ 39 := by omega
    show [pml4Idx v, pdptIdx v] = [pml4Idx w, pdptIdx w]
    unfold pml4Idx pdptIdx
    rw [h, h₁]
  | false =>
    have h : v / 2 ^ 21 = w / 2 ^ 21 := h
    have h₁ : v / 2 ^ 39 = w / 2 ^ 39 := by omega
    have h₂ : v / 2 ^ 30 = w / 2 ^ 30 := by omega
    show [pml4Idx v, pdptIdx v, pdIdx v] = [pml4Idx w, pdptIdx w, pdIdx w]
    unfold pml4Idx pdptIdx pdIdx
    rw [h, h₁, h₂]

theorem inPage_of_mem {giga : Bool} {x : Nat} (hb : base % hugeBytes giga = 0) (hx : base ≤ x) :
    InPage giga base ((x - base) / hugeBytes giga) x := by
  refine hugePath_congr ?_
  cases giga <;>
  · simp only [hugeBytes, Bool.false_eq_true, if_false, if_true] at *
    omega

theorem RunTaken.bound {giga : Bool} {count b : Nat} {m : Machine} {pmm : Pmm.State} {pins : Nat → Nat}
    (h : RunTaken giga count b m pmm) (hinv : Space.Inv ∅ pins m) : b + hugeFrames giga count ≤ 2 ^ 40 := by
  have hpos : 0 < hugeFrames giga count := by
    unfold hugeFrames
    split
    · decide
    · next hgiga => exact Nat.mul_pos (h.some (by simpa using hgiga)) (by decide)
  have hlast : b + hugeFrames giga count - 1 ∈ List.range' b (hugeFrames giga count) :=
    mem_run.2 ⟨by omega, by omega⟩
  have hlt := hinv.pmm.free_lt _ (h.free _ hlast).1
  have htotal := hinv.total
  omega

theorem frame_mem_run {giga : Bool} {count b j x : Nat} (hbound : b + hugeFrames giga count ≤ 2 ^ 40) (hj : j < count)
    (hone : giga = true → count = 1) :
    ((b * pageSize + j * hugeBytes giga) / pageSize % 2 ^ 40 * pageSize + x % hugeBytes giga) / pageSize ∈
      List.range' b (hugeFrames giga count) := by
  refine mem_run.2 ?_
  cases giga with
  | true =>
    have hone := hone rfl
    simp only [hugeFrames, hugeBytes, if_true, Pmm.pagesPerGiga, pageSize] at *
    omega
  | false =>
    simp only [hugeFrames, hugeBytes, Bool.false_eq_true, if_false, Pmm.pagesPerHuge, pageSize] at *
    omega

theorem framesBacked_iff {b : Nat} {pmm : Pmm.State} (hanon : mapAnonymous a.flags = true)
    (hhuge : mapHugetlb a.flags = true) (hheld : Held s.proc.pageTable s.machine) (hstart : Started a s base b pmm)
    (hrun : hugeRun a s base b pmm = some (none, s'.machine)) (hroot : s'.proc.pageTable = s.proc.pageTable) :
    FramesBacked base (mmapLength a) s s' ↔ (useGiga a.flags = true → hugeCount a = 1) ∧
      (useGiga a.flags = false → ∀ i < hugeCount a, gigaLeaf s.proc.pageTable s.machine (base + i * 2 ^ 21) = none) := by
  have htaken := hstart.taken
  have hstep := hstart.step hheld hrun
  have hlen := hugeCount_mul hanon hhuge
  have haligned := hstart.aligned
  rw [hugeSize_eq] at haligned
  have hcount : 0 < hugeCount a := by
    have hpos := mmapLength_pos hstart.length
    rw [hlen] at hpos
    exact Nat.pos_of_mul_pos_right hpos
  obtain ⟨pins, hinv, -, hgiga⟩ := hheld.live
  obtain ⟨pins', hinv'⟩ := hstep.good.live
  have hbound := htaken.bound hinv
  generalize useGiga a.flags = giga at *
  generalize hugeCount a = count at *
  rw [hlen]
  constructor
  · intro hback
    refine ⟨fun htrue => ?_, fun hfalse i hi => ?_⟩
    · -- the second 1 GiB page has frames that nobody allocated, or that are tables
      by_contra hone
      subst htrue
      have htwo : 2 ≤ count := by omega
      obtain ⟨phys, htr, hfree, hused, href⟩ := hback.frame (base + 2 ^ 30) (by omega) (by
        show base + 2 ^ 30 < base + count * 2 ^ 30
        omega)
      have hone : InPage true base 1 (base + 2 ^ 30) := hugePath_congr (by rw [Nat.one_mul]; rfl)
      obtain ⟨j, hj, hpage, htr'⟩ := (hstep.mapped rfl nofun).page (base + 2 ^ 30) ⟨1, List.mem_range.2 htwo, hone⟩
      rw [hroot, htr'] at htr
      obtain rfl := Option.some.inj htr
      have hpdpt : [pml4Idx (base + 2 ^ 30), pdptIdx (base + 2 ^ 30)] =
          [pml4Idx (base + j * 2 ^ 30), pdptIdx (base + j * 2 ^ 30)] := hpage
      have hidx : pml4Idx (base + 2 ^ 30) = pml4Idx (base + j * 2 ^ 30) ∧
          pdptIdx (base + 2 ^ 30) = pdptIdx (base + j * 2 ^ 30) := by simpa using hpdpt
      have hj' : j % 2 ^ 18 = 1 := by
        unfold pml4Idx pdptIdx at hidx
        have hal : base % 2 ^ 30 = 0 := haligned
        omega
      generalize hf : ((b * pageSize + j * hugeBytes true) / pageSize % 2 ^ 40 * pageSize +
        (base + 2 ^ 30) % hugeBytes true) / pageSize = f at hfree hused href
      have hout : f ∉ List.range' b (hugeFrames true count) := by
        intro hmem
        obtain ⟨hlow, hhigh⟩ := mem_run.1 hmem
        have hal : base % 2 ^ 30 = 0 := haligned
        have hbound : b + 262144 ≤ 2 ^ 40 := hbound
        have hhigh : f < b + 262144 := hhigh
        simp only [hugeBytes, if_true, pageSize] at hf
        omega
      have hpmm : pmm.isFree f = true := by
        rw [htaken.isFree, hfree]
        simp [hout]
      have huncached : cached s.machine.cache f = 0 := uncached_of_free hinv hfree
      rcases hstep.only.fresh f huncached hpmm with hstill | htwo'
      · exact Bool.false_ne_true (hused.symm.trans hstill)
      · have href : s'.machine.pmm.refCounts f = 1 := href
        have htwo' : 2 ≤ s'.machine.pmm.refCounts f := htwo'
        omega
    · -- a page in a 1 GiB page keeps the frame that it had, which was in use
      subst hfalse
      cases hleaf : gigaLeaf s.proc.pageTable s.machine (base + i * 2 ^ 21) with
      | none => rfl
      | some D =>
        have hleaf' : gigaLeaf s'.proc.pageTable s'.machine (base + i * 2 ^ 21) = some D := by
          rw [hroot]
          exact (hstep.leaves rfl _).trans hleaf
        obtain ⟨phys, htr, hfree, -, -⟩ := hback.frame (base + i * 2 ^ 21) (by omega) (by
          show base + i * 2 ^ 21 < base + count * 2 ^ 21
          omega)
        rw [translate_gigaLeaf hleaf'] at htr
        obtain rfl := Option.some.inj htr
        have hk : (base + i * 2 ^ 21) % 2 ^ 30 / 4096 < 2 ^ 18 := by omega
        have hpin := hgiga _ D hleaf _ hk
        have hframe : (D * pageSize + (base + i * 2 ^ 21) % 2 ^ 30) / pageSize =
            D + (base + i * 2 ^ 21) % 2 ^ 30 / 4096 := by
          unfold pageSize
          omega
        rw [hframe] at hfree
        have hzero := hinv.pmm.ref_zero _ hfree
        have hpos : 0 < s.machine.pmm.refCounts (D + (base + i * 2 ^ 21) % 2 ^ 30 / 4096) := by
          refine hinv.sound.pos (by decide) (le_trans ?_ le_add_self)
          exact_mod_cast (show 1 ≤ cached s.machine.cache _ + pins _ by omega)
        omega
  · rintro ⟨hone, hleaf⟩
    have hmapped := hstep.mapped rfl fun hfalse i hi => by
      subst hfalse
      exact hleaf rfl i (List.mem_range.1 hi)
    refine ⟨fun x hlow hhigh => ?_⟩
    have hi : (x - base) / hugeBytes giga < count := by
      have hpos : 0 < hugeBytes giga := by cases giga <;> decide
      exact (Nat.div_lt_iff_lt_mul hpos).2 (by omega)
    obtain ⟨j, hj, -, htr⟩ := hmapped.page x ⟨_, List.mem_range.2 hi, inPage_of_mem haligned hlow⟩
    refine ⟨_, by rw [hroot]; exact htr, ?_⟩
    have hmem := frame_mem_run (x := x) hbound (List.mem_range.1 hj) hone
    generalize ((b * pageSize + j * hugeBytes giga) / pageSize % 2 ^ 40 * pageSize + x % hugeBytes giga) / pageSize = f
      at hmem ⊢
    have hfree := (htaken.free f hmem).1
    have hpmm : pmm.refCounts f = 1 := by rw [htaken.refCounts, if_pos hmem]
    have huncached : cached s.machine.cache f = 0 := uncached_of_free hinv hfree
    have hkept : s'.machine.pmm.refCounts f = pmm.refCounts f :=
      hstep.only.kept f huncached (by show 0 < pmm.refCounts f; omega)
    have href : s'.machine.pmm.refCounts f = 1 := hkept.trans hpmm
    exact ⟨hfree, hinv'.pmm.not_free (by show 0 < s'.machine.pmm.refCounts f; omega), href⟩

/-- **`MAP_HUGETLB`**: on success every page of the mapping has a frame of its own that the call has allocated, exactly
if the call asks for one 1 GiB page, or for 2 MiB pages none of which lies in a 1 GiB page; on failure the allocator is as
before exactly if no frames were taken, or if one 1 GiB or 2 MiB run was taken and no table was added for it. -/
theorem sysMmap_huge_iff (hheld : Held s.proc.pageTable s.machine) (hcache : ∀ q, cached s.machine.cache q ≤ 1)
    (hanon : mapAnonymous a.flags = true) (hhuge : mapHugetlb a.flags = true) (hr : sysMmap a s = some (res, s')) :
    (∀ base, res = .ok base → (FramesBacked base (mmapLength a) s s' ↔
      (useGiga a.flags = true → hugeCount a = 1) ∧ (useGiga a.flags = false → ∀ i < hugeCount a,
        gigaLeaf s.proc.pageTable s.machine (base + i * 2 ^ 21) = none))) ∧
    (∀ e, res = .error e → (SameFrames s.machine.pmm s'.machine.pmm ↔ ∀ base b pmm, Started a s base b pmm →
      (useGiga a.flags = true ∨ hugeCount a = 1) ∧
        ((∀ i < hugeCount a, HasTables (useGiga a.flags) s.proc.pageTable s.machine
            (base + i * hugeBytes (useGiga a.flags))) ∨ Exhausted { s.machine with pmm := pmm }))) := by
  have houtcome := sysMmap_hugeOutcome hanon hhuge hr
  cases houtcome with
  | refused hstart hmachine =>
    refine ⟨nofun, fun _ _ => iff_of_true ?_ fun base b pmm h => absurd h (hstart base b pmm)⟩
    rw [hmachine]
    exact ⟨rfl, rfl, rfl⟩
  | mapped hstart hrun hroot =>
    refine ⟨fun base hbase => ?_, nofun⟩
    cases hbase
    exact framesBacked_iff hanon hhuge hheld hstart hrun hroot
  | @undone e s' base b n pmm x hstart hrun hundo =>
    have htaken := hstart.taken
    have hlive : Live s.machine := ⟨hheld.live.choose, hheld.live.choose_spec.1⟩
    have hiff := undo_restores_iff htaken hlive hcache (hstart.step hheld hrun)
      (htaken.good hheld).live (undoHuge_some hundo)
    simp only [List.mem_range] at hiff
    refine ⟨nofun, fun _ _ => ?_⟩
    rw [hiff]
    constructor
    · intro hcond base' b' pmm' hstart'
      obtain ⟨rfl, rfl, rfl⟩ := hstart.unique hstart'
      exact hcond
    · intro hall
      exact hall base b pmm hstart

end


/-! ## A machine with four free huge pages -/

def wideBoot : Machine where
  pmm :=
    { bitmap := fun byte => if 64 ≤ byte ∧ byte < 320 then 255 else 0
      totalPages := 2560
      freePageCount := 2048
      highestPhys := 2560 * pageSize
      refCounts := fun _ => 0
      nextFreeHint := 512 }
  mem := fun _ _ => 0
  cache := []

theorem wideBoot_inv : Space.Inv ∅ 0 wideBoot := by
  refine Space.inv_of_noRoots ⟨by decide +kernel, fun p hp => ?_, fun _ _ => rfl⟩ (by decide) le_rfl rfl
  by_contra hlt
  have hlt : ¬ p < 2560 := hlt
  have hb : wideBoot.pmm.bitmap (p / 8) = 0 := if_neg (by omega)
  simp [Pmm.State.isFree, Pmm.testBit, hb] at hp

def wideProcess : Sys := { emptyProcess with machine := (newTable wideBoot).2, proc.pageTable := 512 }

def oneHugePage : MmapArgs := { addr := 0, length := 0x1000, prot := 3, flags := 0x40022, fd := 0, offset := 0 }

theorem wideBoot_newTable : (newTable wideBoot).1 = some 512 := by decide +kernel

theorem wideProcess_held : Held wideProcess.proc.pageTable wideProcess.machine :=
  newTable_held wideBoot_inv wideBoot_newTable

theorem sysMmap_huge_one : ∃ s', sysMmap oneHugePage wideProcess = some (.ok 0x6fffffe00000, s') ∧
    FramesBacked 0x6fffffe00000 0x200000 wideProcess s' := by
  have hdone : (sysMmap oneHugePage wideProcess).map Prod.fst = some (.ok 0x6fffffe00000) := by decide +kernel
  obtain ⟨⟨r, s'⟩, hr, rfl⟩ := Option.map_eq_some_iff.1 hdone
  have hcache : ∀ q, cached wideProcess.machine.cache q ≤ 1 := fun q => by
    have hempty : wideProcess.machine.cache = [] := by decide +kernel
    rw [hempty]
    exact Nat.zero_le _
  refine ⟨s', hr, ((sysMmap_huge_iff wideProcess_held hcache (by decide) (by decide) hr).1 _ rfl).2
    ⟨fun h => ?_, fun _ i _ => ?_⟩⟩
  · exact absurd h (by decide)
  · exact gigaLeaf_of_empty (newTable_tree wideBoot_inv wideBoot_newTable).2 _

def fullProcess : Sys :=
  { wideProcess with
    proc.vmas := fun i => { Vma.emptyVma with start := 0x10000 + i * 0x2000, stop := 0x11000 + i * 0x2000, inUse := true } }

def twoHugePages : MmapArgs := { oneHugePage with length := 0x400000 }

/-- The table of areas is full: the call fails, and frame 1536, which was free, stays in use with one reference. -/
theorem sysMmap_huge_leaks : ∃ s', sysMmap twoHugePages fullProcess = some (.error .ENOMEM, s') ∧
    fullProcess.machine.pmm.refCounts 1536 = 0 ∧ s'.machine.pmm.refCounts 1536 = 1 := by
  have hdone : (sysMmap twoHugePages fullProcess).map Prod.fst = some (.error .ENOMEM) := by decide +kernel
  obtain ⟨⟨r, s'⟩, hr, rfl⟩ := Option.map_eq_some_iff.1 hdone
  have halloc : (allocHuge false 2 fullProcess.machine.pmm).map Prod.fst = some (some (1024 * pageSize)) := by
    decide +kernel
  obtain ⟨⟨o, pmm⟩, halloc, rfl⟩ := Option.map_eq_some_iff.1 halloc
  have hstarted : Started twoHugePages fullProcess 0x6fffffc00000 1024 pmm :=
    ⟨by decide, rfl, nofun, by decide, halloc, fun _ => by decide⟩
  refine ⟨s', hr, by decide +kernel, ?_⟩
  have houtcome := sysMmap_hugeOutcome (by decide) (by decide) hr
  cases houtcome with
  | refused hstart => exact absurd hstarted (hstart _ _ _)
  | @undone e s' base b n pmm' x hstart hrun hundo =>
    have hb : 1024 = b := (hstart.unique hstarted).2.1
    have hheld : Held fullProcess.proc.pageTable fullProcess.machine := wideProcess_held
    have hlive : Live fullProcess.machine := ⟨_, hheld.live.choose_spec.1⟩
    have hkept := (undo_keeps_second hstart.taken hlive (by decide) (hstart.step hheld hrun).only
      (undoHuge_some hundo)).1
    rw [← hb] at hkept
    exact hkept

end Zigix.Mmap
