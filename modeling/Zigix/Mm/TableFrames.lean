import Zigix.Mm.MapSpec

/-!
# What table allocations do to other frames

* `freePage_other`, `evictUpTo_count` : a release touches one frame, an eviction only cached ones;
* `newTable_only`, `newTable_grew` : one allocation;
* `SameFrames` : the bitmap, the reference counts and `free_pages` are equal; `freeEach_takeAll` gives back a run.
-/

namespace Zigix.Pmm

section
variable {s s' : State} {p q : Nat} {phys : PhysAddr} {pages : List Nat}

theorem freePage_other (h : phys ≠ q * pageSize) :
    (freePage s phys).refCounts q = s.refCounts q ∧ (freePage s phys).isFree q = s.isFree q := by
  unfold freePage
  split
  · exact ⟨rfl, rfl⟩
  next halign =>
  have hq : q ≠ phys / pageSize := by
    rintro rfl
    exact h (Nat.div_mul_cancel (Nat.dvd_of_mod_eq_zero (not_not.1 halign))).symm
  dsimp only
  split
  · exact ⟨rfl, rfl⟩
  split
  · exact ⟨rfl, rfl⟩
  split
  · exact ⟨rfl, rfl⟩
  split
  · exact ⟨rfl, rfl⟩
  split
  · simp [hq]
  · simp [hq]

theorem freePage_count (s : State) (phys : PhysAddr) (q : Nat) :
    s.refCounts q ≤ (freePage s phys).refCounts q + if phys = q * pageSize then 1 else 0 := by
  by_cases h : phys = q * pageSize
  · rw [if_pos h, h]
    unfold freePage
    simp only [mul_div_pageSize]
    split
    · omega
    split
    · omega
    split
    · omega
    split
    · omega
    split
    · omega
    split
    · simp
      omega
    · simp
      omega
  · rw [(freePage_other h).1, if_neg h, Nat.add_zero]

theorem foldl_freePage_other (h : q ∉ pages) :
    ((pages.map (· * pageSize)).foldl freePage s).refCounts q = s.refCounts q ∧
      ((pages.map (· * pageSize)).foldl freePage s).isFree q = s.isFree q := by
  induction pages generalizing s with
  | nil => exact ⟨rfl, rfl⟩
  | cons p pages ih =>
    have hne : p * pageSize ≠ q * pageSize := by
      intro he
      have hpq : p = q := Nat.eq_of_mul_eq_mul_right (by decide) he
      exact h (hpq ▸ List.mem_cons_self)
    obtain ⟨href, hfree⟩ := ih (s := freePage s (p * pageSize)) fun hq => h (List.mem_cons_of_mem _ hq)
    exact ⟨href.trans (freePage_other hne).1, hfree.trans (freePage_other hne).2⟩

theorem foldl_freePage_count (s : State) (pages : List Nat) (q : Nat) :
    s.refCounts q ≤ ((pages.map (· * pageSize)).foldl freePage s).refCounts q + pages.count q := by
  induction pages generalizing s with
  | nil => exact Nat.le_refl _
  | cons p pages ih =>
    have hstep := freePage_count s (p * pageSize) q
    have hrest := ih (freePage s (p * pageSize))
    have hpq : (p * pageSize = q * pageSize) = (p = q) := by
      unfold pageSize
      simp only [eq_iff_iff]
      omega
    simp only [hpq] at hstep
    simp only [List.map_cons, List.foldl_cons, List.count_cons, beq_iff_eq]
    omega

/-! ## Giving back a run -/

/-- The bitmap, the counts and `free_pages` are equal; `next_free_hint` may differ. -/
structure SameFrames (s s' : State) : Prop where
  bitmap : s'.bitmap = s.bitmap
  refCounts : s'.refCounts = s.refCounts
  freePageCount : s'.freePageCount = s.freePageCount

theorem SameFrames.isFree (h : SameFrames s s') (q : Nat) : s'.isFree q = s.isFree q := by
  unfold State.isFree
  rw [h.bitmap]

theorem SameFrames.of_pages (hi : Inv s) (hi' : Inv s') (htotal : s'.totalPages = s.totalPages)
    (hfree : ∀ q, s'.isFree q = s.isFree q) (href : ∀ q, s'.refCounts q = s.refCounts q) : SameFrames s s' where
  bitmap := by
    funext b
    refine BitVec.eq_of_getLsbD_eq fun i hi => ?_
    have hbit : s'.isFree (8 * b + i) = s.isFree (8 * b + i) := hfree _
    unfold State.isFree at hbit
    rw [testBit_eq, testBit_eq] at hbit
    have hdiv : (8 * b + i) / 8 = b := by omega
    have hmod : (8 * b + i) % 8 = i := by omega
    rwa [hdiv, hmod] at hbit
  refCounts := funext href
  freePageCount := by rw [hi'.count_eq, hi.count_eq, htotal, funext hfree]

theorem freeEach_spec (hnd : pages.Nodup)
    (hpages : ∀ p ∈ pages, 0 < p ∧ p < s.totalPages ∧ s.refCounts p = 1) (h : freeEach s pages = some s') :
    ∀ q, s'.refCounts q = (if q ∈ pages then 0 else s.refCounts q) ∧
      s'.isFree q = (decide (q ∈ pages) || s.isFree q) := by
  induction pages generalizing s with
  | nil =>
    cases h
    intro q
    simp
  | cons p pages ih =>
    obtain ⟨hpos, hlt, hone⟩ := hpages p List.mem_cons_self
    rw [freeEach, Option.bind_eq_bind, Option.bind_eq_some_iff] at h
    obtain ⟨phys, hphys, h⟩ := h
    cases mulU64_some hphys
    have hfreed : freePage s (p * pageSize) = (s.setRef p 0).give p := by
      have h0 : ¬ s.totalPages ≤ p := by omega
      have h1 : p ≠ 0 := by omega
      unfold freePage
      simp [mul_div_pageSize, h0, h1, hone, saturated]
    rw [hfreed] at h
    have hp := (List.nodup_cons.1 hnd).1
    intro q
    obtain ⟨href, hfree⟩ := ih (List.nodup_cons.1 hnd).2 (fun g hg => by
      obtain ⟨hpos', hlt', hone'⟩ := hpages g (List.mem_cons_of_mem _ hg)
      have hne : g ≠ p := fun he => hp (he ▸ hg)
      exact ⟨hpos', by simpa using hlt', by simpa [hne] using hone'⟩) h q
    rw [href, hfree]
    by_cases hqp : q = p
    · subst hqp
      simp
    · simp [hqp]

theorem freeEach_other (hq : q ∉ pages) (h : freeEach s pages = some s') : s'.refCounts q = s.refCounts q := by
  induction pages generalizing s with
  | nil =>
    cases h
    rfl
  | cons p pages ih =>
    rw [freeEach, Option.bind_eq_bind, Option.bind_eq_some_iff] at h
    obtain ⟨phys, hphys, h⟩ := h
    cases mulU64_some hphys
    rw [ih (fun hc => hq (List.mem_cons_of_mem _ hc)) h]
    refine (freePage_other fun he => hq ?_).1
    have hpq : p = q := Nat.eq_of_mul_eq_mul_right (by decide) he
    exact hpq ▸ List.mem_cons_self

end

end Zigix.Pmm

/-! ## Evictions -/

namespace Zigix.PageCache

theorem evictUpTo_count (n : Nat) (c : Cache) (f : Nat) :
    (evictUpTo n c).1.count f + cached (evictUpTo n c).2 f = cached c f := by
  induction n generalizing c with
  | zero => simp [evictUpTo]
  | succ n ih =>
    rw [evictUpTo]
    split
    · next g c' he =>
      obtain ⟨e, rfl, hperm⟩ := evictOne_perm he
      have hrest := ih c'
      rw [← cached_perm hperm f, cached_cons, List.count_cons]
      simp only [beq_iff_eq]
      omega
    · simp

end Zigix.PageCache

namespace Zigix.TableFrames

open Pmm Vmm
open PageCache (cached)
open Space (pin)

section
variable {m m' m'' : Machine} {f q t i : Nat}

def source (m : Machine) : Pmm.State := allocFrom m.pmm m.evictPageCacheAction.1

theorem source_moves (m : Machine) : Moves m.pmm (source m) := (allocPage_cases _ _).1

theorem source_count (m : Machine) (q : Nat) : m.pmm.refCounts q ≤ (source m).refCounts q + cached m.cache q := by
  unfold source allocFrom
  split
  · omega
  · have hle : m.pmm.refCounts q ≤ (m.evictPageCacheAction.1.released.foldl freePage m.pmm).refCounts q +
        List.count q (PageCache.evictUpTo 32 m.cache).1 := foldl_freePage_count ..
    have hcount := PageCache.evictUpTo_count 32 m.cache q
    omega

theorem source_other (h : cached m.cache q = 0) :
    (source m).refCounts q = m.pmm.refCounts q ∧ (source m).isFree q = m.pmm.isFree q := by
  unfold source allocFrom
  split
  · exact ⟨rfl, rfl⟩
  · refine foldl_freePage_other fun (hq : q ∈ (PageCache.evictUpTo 32 m.cache).1) => ?_
    have hcount := PageCache.evictUpTo_count 32 m.cache q
    have hpos := List.count_pos_iff.2 hq
    omega

theorem allocPage_source (m : Machine) :
    (m.allocPage.1 = none ∧ m.allocPage.2.pmm = source m ∨
      ∃ f, m.allocPage.1 = some f ∧ m.allocPage.2.pmm = (takeAt (source m) f).2 ∧ (source m).isFree f = true) ∧
    ∀ q, cached m.allocPage.2.cache q ≤ cached m.cache q := by
  let recovery := m.evictPageCacheAction.1
  have heq : m.allocPage = ((Pmm.allocPage m.pmm recovery).1.map (· / pageSize),
      { m with
        pmm := (Pmm.allocPage m.pmm recovery).2
        cache := if (allocPageInner m.pmm).1.isSome then m.cache else m.evictPageCacheAction.2 }) := rfl
  rw [heq]
  refine ⟨?_, fun q => ?_⟩
  · obtain ⟨-, hp | ⟨f, hp, hfree, -⟩⟩ := allocPage_cases m.pmm recovery
    · rw [hp]
      exact .inl ⟨rfl, rfl⟩
    · rw [hp]
      exact .inr ⟨f, congrArg some (mul_div_pageSize f), rfl, hfree⟩
  · have hcount := PageCache.evictUpTo_count 32 m.cache q
    dsimp only
    split
    · exact Nat.le_refl _
    · unfold Machine.evictPageCacheAction
      dsimp only
      omega

/-! ## Tables only -/

/-- The counts of a sound machine: no page table is looked at. -/
def Live (m : Machine) : Prop := ∃ pins, Space.Inv ∅ pins m

theorem Live.setWord (h : Live m) (t i : Nat) (w : Pte.Word) : Live (m.setWord t i w) := by
  obtain ⟨pins, hinv⟩ := h
  exact ⟨pins, hinv.withMem fun hn => absurd hn.1 (Set.notMem_empty _)⟩

structure TableOnly (m m' : Machine) : Prop where
  live : Live m'
  total : m'.pmm.totalPages = m.pmm.totalPages
  uncached : ∀ q, cached m.cache q = 0 → cached m'.cache q = 0
  kept : ∀ q, cached m.cache q = 0 → 0 < m.pmm.refCounts q → m'.pmm.refCounts q = m.pmm.refCounts q
  fresh : ∀ q, cached m.cache q = 0 → m.pmm.isFree q = true → m'.pmm.isFree q = true ∨ 2 ≤ m'.pmm.refCounts q

theorem TableOnly.refl (h : Live m) : TableOnly m m :=
  ⟨h, rfl, fun _ hq => hq, fun _ _ _ => rfl, fun _ _ hq => .inl hq⟩

theorem TableOnly.trans (h : TableOnly m m') (h' : TableOnly m' m'') : TableOnly m m'' where
  live := h'.live
  total := h'.total.trans h.total
  uncached q hq := h'.uncached q (h.uncached q hq)
  kept q hq hpos := by
    have hsame := h.kept q hq hpos
    rw [h'.kept q (h.uncached q hq) (by omega), hsame]
  fresh q hq hfree := by
    rcases h.fresh q hq hfree with hfree' | htwo
    · exact h'.fresh q (h.uncached q hq) hfree'
    · have hsame := h'.kept q (h.uncached q hq) (by omega)
      exact .inr (by omega)

theorem TableOnly.setWord (h : TableOnly m m') (t i : Nat) (w : Pte.Word) : TableOnly m (m'.setWord t i w) :=
  ⟨h.live.setWord t i w, h.total, h.uncached, h.kept, h.fresh⟩

theorem TableOnly.of_pmm {m₁ : Machine} (h : TableOnly m m') (hpmm : m.pmm = m₁.pmm) (hcache : m.cache = m₁.cache) :
    TableOnly m₁ m' :=
  ⟨h.live, hpmm ▸ h.total, fun q hq => h.uncached q (hcache ▸ hq), fun q hq hpos => by rw [h.kept q (hcache ▸ hq) (hpmm ▸ hpos), hpmm],
    fun q hq hfree => h.fresh q (hcache ▸ hq) (hpmm ▸ hfree)⟩

/-- The outcomes of `newTable`. -/
inductive NewTable (m : Machine) : Option Nat × Machine → Prop
  | outOfMemory {m' : Machine} (hpmm : m'.pmm = source m) (honly : TableOnly m m') : NewTable m (none, m')
  /-- the new table was free, or was freed by the evictions -/
  | added {f : Nat} {m' : Machine} (hfrom : m.pmm.refCounts f ≤ cached m.cache f) (hto : m'.pmm.refCounts f = 2)
      (huncached : cached m'.cache f = 0) (honly : TableOnly m m') : NewTable m (some f, m')

theorem newTable_cases (h : Live m) : NewTable m (newTable m) := by
  obtain ⟨pins, hinv⟩ := h
  obtain ⟨halloc, hcache⟩ := allocPage_source m
  have hspec := hinv.newTable (D := fun _ _ => False) (E := fun _ _ => False)
  unfold newTable at hspec ⊢
  rcases ha : m.allocPage with ⟨o, m₁⟩
  rw [ha] at halloc hcache hspec
  cases o with
  | none =>
    obtain ⟨-, hpmm⟩ := halloc.resolve_right fun ⟨f, hf, _⟩ => nomatch hf
    obtain ⟨-, hinv', -⟩ := hspec.resolve_right fun ⟨f, hf, _⟩ => nomatch hf
    refine .outOfMemory hpmm ⟨⟨pins, hinv'⟩, ?_, fun q hq => ?_, fun q hq _ => ?_, fun q hq hfree => ?_⟩
    · dsimp only at hpmm ⊢
      rw [hpmm]
      exact (source_moves m).total
    · have := hcache q
      dsimp only at this ⊢
      omega
    · dsimp only at hpmm ⊢
      rw [hpmm]
      exact (source_other hq).1
    · dsimp only at hpmm ⊢
      rw [hpmm, (source_other hq).2]
      exact .inl hfree
  | some f =>
    obtain ⟨f', hf', hpmm, hfree⟩ := halloc.resolve_left fun h => nomatch h.1
    cases hf'
    obtain ⟨f', hf', hfresh, -⟩ := hspec.resolve_left fun h => nomatch h.1
    cases hf'
    have hzero : (source m).refCounts f = 0 := ((source_moves m).inv hinv.pmm).ref_zero f hfree
    have hpmm : m₁.pmm = (takeAt (source m) f).2 := hpmm
    have hrefs : ∀ q, m₁.pmm.refCounts q = if q = f then 1 else (source m).refCounts q := by
      intro q
      rw [hpmm]
      exact refCounts_take _ _ _
    obtain ⟨hpos, hlt⟩ : 0 < f ∧ f < m₁.pmm.totalPages := by
      refine ⟨hfresh.inv.pin_inRange.1, ?_⟩
      rw [hpmm]
      exact ((source_moves m).inv hinv.pmm).free_lt f hfree
    have htwo : ∀ q, (Pmm.incRef m₁.pmm (f * pageSize)).refCounts q = if q = f then 2 else (source m).refCounts q := by
      intro q
      have hone : m₁.pmm.refCounts f = 1 := by rw [hrefs, if_pos rfl]
      rw [refCounts_incRef hlt hpos, hone]
      by_cases hq : q = f
      · rw [if_pos ⟨hq, by decide⟩, if_pos hq]
      · rw [if_neg fun hc => hq hc.1, if_neg hq, hrefs, if_neg hq]
    have hfreed : ∀ q, (Pmm.incRef m₁.pmm (f * pageSize)).isFree q = (decide (q ≠ f) && (source m).isFree q) := by
      intro q
      have hsame : (Pmm.incRef m₁.pmm (f * pageSize)).isFree q = m₁.pmm.isFree q := by
        unfold Pmm.incRef
        dsimp only
        split
        · rfl
        split
        · rfl
        split <;> rfl
      rw [hsame, hpmm]
      exact isFree_take _ _ _
    have hcount := source_count m f
    refine .added (by omega) ((htwo f).trans (if_pos rfl)) ?_ ⟨⟨_, hfresh.inv⟩, ?_, fun q hq => ?_,
      fun q hq hpos' => ?_, fun q hq hfree' => ?_⟩
    · exact List.countP_eq_zero.2 fun e he => by simpa using hfresh.uncached e he
    · have htotal : (Pmm.incRef m₁.pmm (f * pageSize)).totalPages = m₁.pmm.totalPages :=
        (incRef_moves _ _ (by rw [mul_div_pageSize, hrefs, if_pos rfl]; decide)).total
      refine htotal.trans ?_
      rw [hpmm]
      exact (source_moves m).total
    · have hle := hcache q
      have hq' : cached m₁.cache q = 0 := by
        dsimp only at hle
        omega
      exact hq'
    · have hne : q ≠ f := by
        rintro rfl
        rw [← (source_other hq).1] at hpos'
        omega
      exact (htwo q).trans (by rw [if_neg hne, (source_other hq).1])
    · by_cases hqf : q = f
      · exact .inr (by rw [hqf]; exact ((htwo f).trans (if_pos rfl)).ge)
      · refine .inl ((hfreed q).trans ?_)
        rw [(source_other hq).2, hfree']
        simp [hqf]

theorem newTable_withMem (m : Machine) (mem : Nat → Nat → Pte.Word) :
    (newTable { m with mem := mem }).1 = (newTable m).1 ∧
      (newTable { m with mem := mem }).2.pmm = (newTable m).2.pmm ∧
      (newTable { m with mem := mem }).2.cache = (newTable m).2.cache := by
  have halloc : Machine.allocPage { m with mem := mem } = (m.allocPage.1, { m.allocPage.2 with mem := mem }) := rfl
  unfold newTable
  rw [halloc]
  rcases m.allocPage with ⟨- | f, m₁⟩ <;> exact ⟨rfl, rfl, rfl⟩

theorem newTable_only (h : Live m) : TableOnly m (newTable m).2 := by
  have hcases := newTable_cases h
  generalize newTable m = x at hcases
  cases hcases with
  | outOfMemory _ honly => exact honly
  | added _ _ _ honly => exact honly

theorem ensureTable_only (h : Live m) (t i : Nat) : TableOnly m (ensureTable m t i).2 := by
  have hnew := newTable_only h
  unfold ensureTable
  split
  · exact .refl h
  · rcases hn : newTable m with ⟨o, m₁⟩
    rw [hn] at hnew
    cases o with
    | none => exact hnew
    | some f => exact hnew.setWord _ _ _

end

end Zigix.TableFrames
