import Zigix.Mm.FaultSpec

/-!
# Two machines that differ in hidden pages

* `ext2Read_twins`, `resolve_twins` : reading files and page faults do the same on both machines and leave them so.
-/

namespace Zigix.Fault

open Forest Pmm Pte Vmm Space Ext2

/-- Equal but for the contents of the frames in `D`. -/
structure Agree (D : Set Nat) (m m' : Machine) : Prop where
  pmm : m'.pmm = m.pmm
  cache : m'.cache = m.cache
  mem : ∀ f, f ∉ D → m'.mem f = m.mem f

/-- The frames of `D` are mapped pages that the page cache does not hold. -/
structure Hidden (R : Set Nat) (D : Set Nat) (m : Machine) : Prop where
  linked : ∀ f ∈ D, ∃ r p, Node R m r p f ∧ p.length = 4
  uncached : ∀ e ∈ m.cache, e.frame ∉ D

structure Twin (R : Set Nat) (D : Set Nat) (m m' : Machine) : Prop where
  hidden : Hidden R D m
  agree : Agree D m m'

/-- The same result on both machines. -/
def Twins {α : Type} (R : Set Nat) (D : Set Nat) (x y : α × Machine) : Prop := y.1 = x.1 ∧ Twin R D x.2 y.2

section Agree
variable {D : Set Nat} {m m' : Machine}

theorem Agree.refl (m : Machine) : Agree D m m := ⟨rfl, rfl, fun _ _ => rfl⟩

theorem Agree.mono {D' : Set Nat} (h : Agree D m m') (hD : D ⊆ D') : Agree D' m m' :=
  ⟨h.pmm, h.cache, fun f hf => h.mem f fun hd => hf (hD hd)⟩

theorem Agree.allocPage (h : Agree D m m') :
    m'.allocPage.1 = m.allocPage.1 ∧ Agree D m.allocPage.2 m'.allocPage.2 := by
  have he : m'.evictPageCacheAction = m.evictPageCacheAction := by
    unfold Machine.evictPageCacheAction
    rw [h.cache]
  unfold Machine.allocPage
  rw [he, h.pmm, h.cache]
  exact ⟨rfl, rfl, rfl, h.mem⟩

theorem Agree.incRef (h : Agree D m m') (f : Nat) : Agree D (m.incRef f) (m'.incRef f) :=
  ⟨by simp [Machine.incRef, h.pmm], h.cache, h.mem⟩

theorem Agree.decRef (h : Agree D m m') (f : Nat) : Agree D (m.decRef f) (m'.decRef f) :=
  ⟨by simp [Machine.decRef, h.pmm], h.cache, h.mem⟩

theorem Agree.freePage (h : Agree D m m') (f : Nat) : Agree D (m.freePage f) (m'.freePage f) :=
  ⟨by simp [Machine.freePage, h.pmm], h.cache, h.mem⟩

theorem Agree.setPage {f : Nat} {c c' : Nat → Word} (h : Agree D m m') (hc : f ∉ D → c' = c) :
    Agree D (m.setPage f c) (m'.setPage f c') := by
  refine ⟨h.pmm, h.cache, fun g hg => ?_⟩
  simp only [Machine.setPage, Function.update_apply]
  split
  · next he => exact hc (he ▸ hg)
  · exact h.mem g hg

theorem Agree.setWord (h : Agree D m m') (t i : Nat) (w : Word) : Agree D (m.setWord t i w) (m'.setWord t i w) := by
  refine ⟨h.pmm, h.cache, fun g hg => ?_⟩
  simp only [Machine.setWord, Function.update_apply]
  split
  · next he => rw [h.mem t (he ▸ hg)]
  · exact h.mem g hg

theorem Agree.storeBytes (h : Agree D m m') (f off : Nat) (bs : List (BitVec 8)) :
    Agree D (storeBytes m f off bs) (storeBytes m' f off bs) := by
  induction bs generalizing m m' off with
  | nil => exact h
  | cons b bs ih => exact ih (h.setPage fun hf => by rw [h.mem f hf]) (off + 1)

theorem Agree.lookup (h : Agree D m m') (ino idx : Nat) :
    (m'.lookup ino idx).1 = (m.lookup ino idx).1 ∧ Agree D (m.lookup ino idx).2 (m'.lookup ino idx).2 := by
  unfold Machine.lookup
  rw [h.cache]
  exact ⟨rfl, h.pmm, rfl, h.mem⟩

theorem Agree.insert (h : Agree D m m') (ino idx f : Nat) : Agree D (m.insert ino idx f) (m'.insert ino idx f) := by
  unfold Machine.insert
  rw [h.cache]
  have hc : ∀ c, Agree D { m with cache := c } { m' with cache := c } := fun c => ⟨h.pmm, rfl, h.mem⟩
  split
  · exact hc _
  · exact (hc _).incRef f
  · unfold Machine.dropEntry
    split
    · exact ((hc _).freePage _).incRef f
    · exact (hc _).incRef f

theorem Agree.newTable (h : Agree D m m') :
    (newTable m').1 = (newTable m).1 ∧ Agree D (newTable m).2 (newTable m').2 := by
  obtain ⟨ho, ha⟩ := h.allocPage
  unfold Vmm.newTable
  rcases hx : m.allocPage with ⟨o, m₁⟩
  rcases hy : m'.allocPage with ⟨o', m₁'⟩
  rw [hx, hy] at ho ha
  obtain rfl : o' = o := ho
  cases o' with
  | none => exact ⟨rfl, ha⟩
  | some f => exact ⟨rfl, (ha.incRef f).setPage fun _ => rfl⟩

theorem Agree.ensureTable (h : Agree D m m') {t : Nat} (ht : t ∉ D) (i : Nat) :
    (ensureTable m' t i).1 = (ensureTable m t i).1 ∧ Agree D (ensureTable m t i).2 (ensureTable m' t i).2 := by
  unfold Vmm.ensureTable
  rw [h.mem t ht]
  split
  · exact ⟨rfl, h⟩
  obtain ⟨ho, hn⟩ := h.newTable
  rcases hx : Vmm.newTable m with ⟨o, m₁⟩
  rcases hy : Vmm.newTable m' with ⟨o', m₁'⟩
  rw [hx, hy] at ho hn
  obtain rfl : o' = o := ho
  cases o' with
  | none => exact ⟨rfl, hn⟩
  | some f => exact ⟨rfl, hn.setWord t i _⟩

end Agree

/-! ## The page cache gains fresh pages only -/

section Cache
variable {m : Machine}

theorem evictUpTo_subset (n : Nat) (c : PageCache.Cache) : ∀ e ∈ (PageCache.evictUpTo n c).2, e ∈ c := by
  induction n generalizing c with
  | zero => exact fun _ he => he
  | succ n ih =>
    unfold PageCache.evictUpTo
    split
    · next f c' h =>
      obtain ⟨e', -, hperm⟩ := PageCache.evictOne_perm h
      exact fun e he => hperm.mem_iff.1 (List.mem_cons_of_mem e' (ih c' e he))
    · exact fun _ he => he

theorem cache_allocPage (m : Machine) : ∀ e ∈ m.allocPage.2.cache, e ∈ m.cache := by
  intro e he
  unfold Machine.allocPage at he
  dsimp only at he
  split at he
  · exact he
  · exact evictUpTo_subset 32 m.cache e he

theorem cache_lookup (m : Machine) (ino idx : Nat) : ∀ e ∈ (m.lookup ino idx).2.cache, e ∈ m.cache :=
  fun _ he => (PageCache.lookup_perm m.cache ino idx).mem_iff.1 he

theorem lookup_mem {ino idx f : Nat} (h : (m.lookup ino idx).1 = some f) : ∃ e ∈ m.cache, e.frame = f := by
  unfold Machine.lookup PageCache.lookup at h
  dsimp only at h
  cases he : m.cache.find? (PageCache.Entry.hasKey ino idx) with
  | none =>
    rw [he] at h
    cases h
  | some e =>
    rw [he] at h
    cases h
    exact ⟨e, List.mem_of_find?_eq_some he, rfl⟩

theorem cache_insert (m : Machine) (ino idx f : Nat) :
    ∀ e ∈ (m.insert ino idx f).cache, e ∈ m.cache ∨ e.frame = f := by
  intro e he
  have hperm := PageCache.lookup_perm m.cache ino idx
  unfold Machine.insert PageCache.insert at he
  rcases hl : PageCache.lookup m.cache ino idx with ⟨o, c⟩
  rw [hl] at he hperm
  cases o with
  | some g => exact .inl (hperm.mem_iff.1 he)
  | none =>
    dsimp only at he
    split at he
    · next hins =>
      split at hins
      · cases hins
      · split at hins
        · cases hins
        · cases hins
          exact .inl (hperm.mem_iff.1 he)
    · next hins =>
      split at hins
      · cases hins
        rcases List.mem_cons.1 he with rfl | he
        · exact .inr rfl
        · exact .inl (hperm.mem_iff.1 he)
      · split at hins <;> cases hins
    · next victim c' hins =>
      split at hins
      · cases hins
      · split at hins
        · cases hins
          have he : e ∈ ({ inodeNum := ino, pageIndex := idx, frame := f, dirty := false } : PageCache.Entry) ::
              c.dropLast := by
            unfold Machine.dropEntry at he
            split at he <;> exact he
          rcases List.mem_cons.1 he with rfl | he
          · exact .inr rfl
          · exact .inl (hperm.mem_iff.1 (List.dropLast_subset c he))
        · cases hins

theorem cache_newTable (m : Machine) : ∀ e ∈ (newTable m).2.cache, e ∈ m.cache := by
  intro e he
  have hsub := cache_allocPage m
  unfold newTable at he
  rcases hx : m.allocPage with ⟨o, m₁⟩
  rw [hx] at he hsub
  cases o with
  | none => exact hsub e he
  | some f => exact hsub e he

theorem cache_ensureTable (m : Machine) (t i : Nat) : ∀ e ∈ (ensureTable m t i).2.cache, e ∈ m.cache := by
  intro e he
  unfold ensureTable at he
  split at he
  · exact he
  have hsub := cache_newTable m
  rcases hx : newTable m with ⟨o, m₁⟩
  rw [hx] at he hsub
  cases o with
  | none => exact hsub e he
  | some f => exact hsub e he

theorem cache_mapPage (m : Machine) (r virt f : Nat) (flags : MapFlags) :
    ∀ e ∈ (mapPage m r virt f flags).2.cache, e ∈ m.cache := by
  intro e he
  unfold mapPage at he
  have h1 := cache_ensureTable m r (pml4Idx virt)
  rcases hx1 : ensureTable m r (pml4Idx virt) with ⟨o1, m1⟩
  rw [hx1] at he h1
  cases o1 with
  | none => exact h1 e he
  | some pdpt =>
  have h2 := cache_ensureTable m1 pdpt (pdptIdx virt)
  simp only [withTable] at he
  rcases hx2 : ensureTable m1 pdpt (pdptIdx virt) with ⟨o2, m2⟩
  rw [hx2] at he h2
  cases o2 with
  | none => exact h1 e (h2 e he)
  | some pd =>
  have h3 := cache_ensureTable m2 pd (pdIdx virt)
  dsimp only at he
  rcases hx3 : ensureTable m2 pd (pdIdx virt) with ⟨o3, m3⟩
  rw [hx3] at he h3
  cases o3 with
  | none => exact h1 e (h2 e (h3 e he))
  | some pt => exact h1 e (h2 e (h3 e he))

end Cache

/-! ## Hidden pages -/

section Hidden
variable {R : Set Nat} {pins : Nat → Nat} {D : Set Nat} {m m' m₁ : Machine} {E : Nat → List Nat → Prop} {f : Nat}

/-- Hidden pages stay so when their leaves stay and the cache gains none of them. -/
theorem Hidden.of_keeps (h : Hidden R D m) (hk : Keeps R E m m₁)
    (hE : ∀ f ∈ D, ∀ {r p}, Node R m r p f → p.length = 4 → ¬ E r p) (hc : ∀ e ∈ m₁.cache, e ∈ m.cache ∨ e.frame ∉ D) :
    Hidden R D m₁ := by
  refine ⟨fun f hf => ?_, fun e he => (hc e he).elim (h.uncached e) id⟩
  obtain ⟨r, p, hn, hl⟩ := h.linked f hf
  exact ⟨r, p, hk.node hn (hE f hf hn hl), hl⟩

theorem Hidden.of_mem (h : Hidden R D m) (hmem : m₁.mem = m.mem) (hc : ∀ e ∈ m₁.cache, e ∈ m.cache ∨ e.frame ∉ D) :
    Hidden R D m₁ :=
  h.of_keeps (E := fun _ _ => False) (.of_mem hmem) (fun _ _ _ _ _ _ => id) hc

theorem Hidden.not_table (h : Hidden R D m) (hi : Inv R pins m) {r : Nat} {p : List Nat} (hn : Node R m r p f)
    (hl : p.length ≤ 3) : f ∉ D := by
  intro hf
  obtain ⟨r', p', hn', hl'⟩ := h.linked f hf
  obtain ⟨-, rfl⟩ := hi.separated hn' hn hl
  omega

theorem Hidden.not_unlinked (h : Hidden R D m) (hu : Unlinked R m f) : f ∉ D := by
  intro hf
  obtain ⟨r, p, hn, -⟩ := h.linked f hf
  exact hu r p hn

theorem Hidden.setPage {c : Nat → Word} (h : Hidden R D m) (hf : ∀ {r p}, Node R m r p f → p.length = 4) :
    Hidden R D (m.setPage f c) := by
  refine ⟨fun g hg => ?_, h.uncached⟩
  obtain ⟨r, p, hn, hl⟩ := h.linked g hg
  exact ⟨r, p, (TablesEq.node_iff (tablesEq_setPage hf)).2 hn, hl⟩

theorem Hidden.allocPage (h : Hidden R D m) (hi : Inv R pins m) :
    Hidden R D m.allocPage.2 ∧ ∀ f, m.allocPage.1 = some f → f ∉ D ∧ Owns R pins f m.allocPage.2 := by
  have hh : Hidden R D m.allocPage.2 := h.of_mem rfl fun e he => .inl (cache_allocPage m e he)
  refine ⟨hh, fun f hf => ?_⟩
  rcases owns_allocPage hi with ⟨hnone, -⟩ | ⟨g, hg, howns, -⟩
  · rw [hf] at hnone
    cases hnone
  · rw [hf] at hg
    cases hg
    exact ⟨hh.not_unlinked howns.unlinked, howns⟩

theorem Twin.lookup (h : Twin R D m m') (ino idx : Nat) : Twins R D (m.lookup ino idx) (m'.lookup ino idx) := by
  obtain ⟨ho, ha⟩ := h.agree.lookup ino idx
  exact ⟨ho, h.hidden.of_mem rfl fun e he => .inl (cache_lookup m ino idx e he), ha⟩

theorem Twin.insert (h : Twin R D m m') (hf : f ∉ D) (ino idx : Nat) :
    Twin R D (m.insert ino idx f) (m'.insert ino idx f) := by
  refine ⟨h.hidden.of_mem (mem_insert _ _ _ _) fun e he => ?_, h.agree.insert ino idx f⟩
  exact (cache_insert m ino idx f e he).imp_right fun (hef : e.frame = f) => hef ▸ hf

theorem Twin.freePage (h : Twin R D m m') (f : Nat) : Twin R D (m.freePage f) (m'.freePage f) :=
  ⟨h.hidden.of_mem rfl fun _ he => .inl he, h.agree.freePage f⟩

theorem Twin.setPage {c c' : Nat → Word} (h : Twin R D m m') (hu : Unlinked R m f) (hc : f ∉ D → c' = c) :
    Twin R D (m.setPage f c) (m'.setPage f c') :=
  ⟨h.hidden.setPage fun hn => absurd hn (hu _ _), h.agree.setPage hc⟩

theorem Twin.storeBytes (h : Twin R D m m') (hu : Unlinked R m f) (off : Nat) (bs : List (BitVec 8)) :
    Twin R D (storeBytes m f off bs) (storeBytes m' f off bs) := by
  obtain ⟨c, hc⟩ := storeBytes_eq m f off bs
  refine ⟨?_, h.agree.storeBytes f off bs⟩
  rw [hc]
  exact h.hidden.setPage fun hn => absurd hn (hu _ _)

/-! ## Reading a file -/

theorem cacheBlock_twin (disk : Disk) (ino fileBlock : Nat) (data : Nat → BitVec 8) (hi : Inv R pins m)
    (h : Twin R D m m') : Twin R D (cacheBlock disk ino fileBlock data m) (cacheBlock disk ino fileBlock data m') := by
  obtain ⟨hh, hfresh⟩ := h.hidden.allocPage hi
  obtain ⟨ho, ha⟩ := h.agree.allocPage
  unfold cacheBlock
  rcases hx : m.allocPage with ⟨o, m₁⟩
  rcases hy : m'.allocPage with ⟨o', m₁'⟩
  rw [hx] at ho ha hh hfresh
  rw [hy] at ho ha
  obtain rfl : o' = o := ho
  cases o' with
  | none => exact ⟨hh, ha⟩
  | some f =>
    obtain ⟨hf, howns⟩ := hfresh f rfl
    exact (Twin.storeBytes ⟨hh, ha⟩ howns.unlinked 0 _).insert hf ino fileBlock

theorem readChunk_twins (disk : Disk) (inode : Inode) (fileBlock off n : Nat) (hi : Inv R pins m) (h : Twin R D m m') :
    Twins R D (readChunk disk inode fileBlock off n m) (readChunk disk inode fileBlock off n m') := by
  unfold readChunk
  split
  · exact ⟨rfl, h⟩
  have hinv := (lookup_grown (D := fun _ _ => False) hi inode.ino fileBlock).inv
  have hmem := fun f => @lookup_mem m inode.ino fileBlock f
  obtain ⟨ho, ht⟩ := h.lookup inode.ino fileBlock
  rcases hx : m.lookup inode.ino fileBlock with ⟨o, m₁⟩
  rcases hy : m'.lookup inode.ino fileBlock with ⟨o', m₁'⟩
  rw [hx] at ho ht hinv hmem
  rw [hy] at ho ht
  obtain rfl : o' = o := ho
  cases o' with
  | some f =>
    obtain ⟨e, he, hf⟩ := hmem f rfl
    have hout : f ∉ D := hf ▸ h.hidden.uncached e he
    refine ⟨?_, ht⟩
    change some (pageBytes (m₁'.mem f) off n) = some (pageBytes (m₁.mem f) off n)
    rw [ht.agree.mem f hout]
  | none =>
    dsimp only
    split
    · exact ⟨rfl, ht⟩
    · exact ⟨rfl, cacheBlock_twin disk _ _ _ hinv ht⟩

theorem readLoop_twins (disk : Disk) (inode : Inode) (fuel offset remaining : Nat) (hi : Inv R pins m)
    (h : Twin R D m m') :
    Twins R D (readLoop disk inode fuel offset remaining m) (readLoop disk inode fuel offset remaining m') := by
  induction fuel generalizing offset remaining m m' with
  | zero => exact ⟨rfl, h⟩
  | succ fuel ih =>
    rw [readLoop, readLoop]
    split
    · exact ⟨rfl, h⟩
    dsimp only
    generalize min remaining (disk.blockSize - offset % disk.blockSize) = chunk
    have hinv := (readChunk_grown (D := fun _ _ => False) disk inode (offset / disk.blockSize % 2 ^ 32)
      (offset % disk.blockSize) chunk hi).inv
    obtain ⟨ho, ht⟩ := readChunk_twins disk inode (offset / disk.blockSize % 2 ^ 32) (offset % disk.blockSize) chunk hi h
    rcases hx : readChunk disk inode (offset / disk.blockSize % 2 ^ 32) (offset % disk.blockSize) chunk m with ⟨o, m₁⟩
    rcases hy : readChunk disk inode (offset / disk.blockSize % 2 ^ 32) (offset % disk.blockSize) chunk m' with ⟨o', m₁'⟩
    rw [hx] at ho ht hinv
    rw [hy] at ho ht
    obtain rfl : o' = o := ho
    cases o' with
    | none => exact ⟨rfl, ht⟩
    | some bytes =>
      obtain ⟨hb, ht'⟩ := ih (offset + chunk) (remaining - chunk) hinv ht
      exact ⟨congrArg (bytes ++ ·) hb, ht'⟩

/-- **A read** returns the same bytes on both machines. -/
theorem ext2Read_twins (disk : Disk) (inode : Inode) (offset count : Nat) (hi : Inv R pins m) (h : Twin R D m m') :
    Twins R D (ext2Read disk inode offset count m) (ext2Read disk inode offset count m') := by
  unfold ext2Read
  split
  · exact ⟨rfl, h⟩
  · exact readLoop_twins disk inode _ _ _ hi h

end Hidden

/-! ## Page faults -/

section Faults
variable {R : Set Nat} {pins : Nat → Nat} {D : Set Nat} {m m' : Machine} {r virt f : Nat} {fs : FileSystem} {v : Vma}

theorem fillFromFile_twins (inode : Inode) (pageOffset filePos : Nat) (ho : Owns R pins f m) (hf : f ∉ D)
    (h : Twin R D m m') :
    Twins R D (fillFromFile fs v inode pageOffset filePos f m) (fillFromFile fs v inode pageOffset filePos f m') := by
  unfold fillFromFile
  have hl : Twins R D
      (if isBssBoundary v pageOffset then (none, m) else m.lookup (inode.ino % 2 ^ 32) (pageIndex filePos))
      (if isBssBoundary v pageOffset then (none, m') else m'.lookup (inode.ino % 2 ^ 32) (pageIndex filePos)) := by
    split
    · exact ⟨rfl, h⟩
    · exact h.lookup _ _
  have hg : Grown R (pins + pin f) (fun _ _ => False) m
      (if isBssBoundary v pageOffset then (none, m) else m.lookup (inode.ino % 2 ^ 32) (pageIndex filePos)).2 := by
    split
    · exact .of_mem ho.inv rfl
    · exact lookup_grown ho.inv _ _
  have hmem : ∀ g, (if isBssBoundary v pageOffset then (none, m)
      else m.lookup (inode.ino % 2 ^ 32) (pageIndex filePos)).1 = some g → g ∉ D := by
    intro g hg
    split at hg
    · cases hg
    · obtain ⟨e, he, rfl⟩ := lookup_mem hg
      exact h.hidden.uncached e he
  dsimp only
  generalize (if isBssBoundary v pageOffset then (none, m)
    else m.lookup (inode.ino % 2 ^ 32) (pageIndex filePos)) = x at hl hg hmem
  generalize (if isBssBoundary v pageOffset then (none, m')
    else m'.lookup (inode.ino % 2 ^ 32) (pageIndex filePos)) = y at hl
  obtain ⟨o, m₁⟩ := x
  obtain ⟨o', m₁'⟩ := y
  obtain ⟨hres, ht⟩ := hl
  obtain rfl : o' = o := hres
  have ho₁ := ho.grown hg
  cases o' with
  | some cached => exact ⟨rfl, ht.setPage ho₁.unlinked fun _ => ht.agree.mem cached (hmem cached rfl)⟩
  | none =>
    dsimp only
    split
    · exact ⟨rfl, ht.freePage f⟩
    · have hr := ext2Read_grown (D := fun _ _ => False) fs.disk inode filePos (readLen v pageOffset) ho₁.inv
      obtain ⟨hb, ht₂⟩ := ext2Read_twins fs.disk inode filePos (readLen v pageOffset) ho₁.inv ht
      generalize ext2Read fs.disk inode filePos (readLen v pageOffset) m₁ = x at hr hb ht₂
      generalize ext2Read fs.disk inode filePos (readLen v pageOffset) m₁' = y at hb ht₂
      obtain ⟨bytes, m₂⟩ := x
      obtain ⟨bytes', m₂'⟩ := y
      obtain rfl : bytes' = bytes := hb
      have hst := ht₂.storeBytes (ho₁.grown hr).unlinked 0 bytes'
      dsimp only
      split
      · exact ⟨rfl, hst⟩
      · exact ⟨rfl, hst.insert hf _ _⟩

theorem ensureTable_twins {q : List Nat} {t i : Nat} (hi : Inv R pins m) (h : Twin R D m m') (ht : Node R m r q t)
    (hl : q.length < 3) (hslot : UserPath (q ++ [i])) : Twins R D (ensureTable m t i) (ensureTable m' t i) := by
  obtain ⟨ho, ha⟩ := h.agree.ensureTable (h.hidden.not_table hi ht hl.le) i
  refine ⟨ho, ?_, ha⟩
  have hE : ∀ g ∈ D, ∀ {r' p'}, Node R m r' p' g → p'.length = 4 → ¬ (r' = r ∧ p' = q ++ [i]) := by
    rintro g - r' p' - h4 ⟨-, rfl⟩
    rw [List.length_append, List.length_singleton] at h4
    omega
  have hc := fun e he => Or.inl (b := e.frame ∉ D) (cache_ensureTable m t i e he)
  have hspec := ensureTable_spec hi ht hl hslot
  rcases hx : ensureTable m t i with ⟨o, m₁⟩
  rw [hx] at hspec hc
  cases hspec with
  | outOfMemory _ grown => exact h.hidden.of_keeps grown.keeps hE hc
  | table _ f grown _ => exact h.hidden.of_keeps grown.keeps hE hc

theorem withTable_agree {x y : Option Nat × Machine} {k : Nat → Machine → Bool × Machine} (h : Twins R D x y)
    (hk : ∀ t, x.1 = some t → (k t y.2).1 = (k t x.2).1 ∧ Agree D (k t x.2).2 (k t y.2).2) :
    (withTable y k).1 = (withTable x k).1 ∧ Agree D (withTable x k).2 (withTable y k).2 := by
  obtain ⟨o, m₁⟩ := x
  obtain ⟨o', m₁'⟩ := y
  obtain ⟨ho, ht⟩ := h
  obtain rfl : o' = o := ho
  cases o' with
  | none => exact ⟨rfl, ht.agree⟩
  | some t => exact hk t rfl

theorem mapPage_agree (flags : MapFlags) (hi : Inv R pins m) (h : Twin R D m m') (hr : r ∈ R) (hv : virt < userEnd) :
    (mapPage m' r virt f flags).1 = (mapPage m r virt f flags).1 ∧
      Agree D (mapPage m r virt f flags).2 (mapPage m' r virt f flags).2 := by
  have hs1 : UserPath [pml4Idx virt] := UserPath.of_append _ [pdptIdx virt, pdIdx virt, ptIdx virt] (leafPath_user hv)
  have hs2 : UserPath [pml4Idx virt, pdptIdx virt] := UserPath.of_append _ [pdIdx virt, ptIdx virt] (leafPath_user hv)
  unfold mapPage
  have h1 := ensureTable_twins (q := []) hi h (node_root hr) (by simp) hs1
  refine withTable_agree h1 fun pdpt hpdpt => ?_
  obtain ⟨hi1, hn1⟩ := (ensureTable_spec (q := []) hi (node_root hr) (by simp) hs1).of_some hpdpt
  have h2 := ensureTable_twins hi1 h1.2 hn1 (by simp) hs2
  refine withTable_agree h2 fun pd hpd => ?_
  obtain ⟨hi2, hn2⟩ := (ensureTable_spec hi1 hn1 (by simp) hs2).of_some hpd
  have h3 := ensureTable_twins hi2 h2.2 hn2 (by simp) (tablePath_user hv)
  exact withTable_agree h3 fun pt _ => ⟨rfl, h3.2.agree.setWord pt _ _⟩

theorem hidden_offPath (hno : walk (follow m) r (leafPath virt) = none) {r' : Nat} {p' : List Nat} {g : Nat}
    (hn : Node R m r' p' g) (hl : p'.length = 4) : ¬ OnPath r virt r' p' := by
  rintro ⟨rfl, hpre⟩
  obtain rfl := hpre.eq_of_length (by rw [hl, leafPath_length])
  rw [hn.2.2] at hno
  cases hno

theorem Twin.tablesEq (h : Twin R D m m') (hi : Inv R pins m) : TablesEq R m m' := fun hn hl j => by
  rw [h.agree.mem _ (h.hidden.not_table hi hn hl)]

theorem Twin.inv (h : Twin R D m m') (hi : Inv R pins m) : Inv R pins m' := by
  have he : m' = { m with mem := m'.mem } := by
    rw [← h.agree.pmm, ← h.agree.cache]
  rw [he]
  exact hi.withMem (h.tablesEq hi)

theorem Twin.walk (h : Twin R D m m') (hi : Inv R pins m) (hr : r ∈ R) {p : List Nat} (hp : UserPath p) :
    Forest.walk (follow m') r p = Forest.walk (follow m) r p :=
  walk_eq_of_tables UserPath.of_append UserPath.length (fun _ _ _ hn hlen j => follow_eq (h.tablesEq hi hn hlen j)) hr hp

theorem Twin.translate (h : Twin R D m m') (hi : Inv R pins m) (hr : r ∈ R) (hv : virt < userEnd) :
    translate m' r virt = translate m r virt := by
  rw [translate_eq (h.inv hi) hr hv, translate_eq hi hr hv, h.walk hi hr (leafPath_user hv)]

theorem Twin.getPTE (h : Twin R D m m') (hi : Inv R pins m) (hr : r ∈ R) (hv : virt < userEnd) :
    getPTE m' r virt = getPTE m r virt := by
  rw [getPTE_eq (h.inv hi) hr hv, getPTE_eq hi hr hv, h.walk hi hr (tablePath_user hv)]
  refine Option.bind_congr fun pt hpt => ?_
  rw [follow_eq (h.tablesEq hi ⟨hr, tablePath_user hv, hpt⟩ le_rfl _)]

theorem fillPage_twins {faultPage : Nat} (ho : Owns R pins f m) (hf : f ∉ D) (h : Twin R D m m') {res : Bool × Machine}
    (hres : fillPage fs v faultPage f m = some res) :
    ∃ res', fillPage fs v faultPage f m' = some res' ∧ Twins R D res res' := by
  unfold fillPage at hres ⊢
  split at hres
  · cases hres
    exact ⟨_, rfl, rfl, h⟩
  · obtain ⟨pageOffset, hoff, hres⟩ := Option.bind_eq_some_iff.1 hres
    simp only [hoff, Option.bind_eq_bind, Option.bind_some]
    split at hres
    · next hend =>
      cases hres
      rw [if_pos hend]
      exact ⟨_, rfl, rfl, h⟩
    · next hend =>
      obtain ⟨filePos, hpos, hres⟩ := Option.bind_eq_some_iff.1 hres
      cases hres
      rw [if_neg hend, hpos]
      exact ⟨_, rfl, fillFromFile_twins _ _ _ ho hf h⟩

/-- **Demand paging** maps the same page on both machines. -/
theorem handleDemandPage_twins (hi : Inv R pins m) (h : Twin R D m m') (hr : r ∈ R) (hv : virt < userEnd)
    {res : Bool × Machine} (hres : handleDemandPage fs r v virt m = some res) :
    ∃ res', handleDemandPage fs r v virt m' = some res' ∧ Twins R D res res' := by
  have hspec := handleDemandPage_spec hi hr hv hres
  have htr := h.translate hi hr hv
  unfold handleDemandPage at hres ⊢
  rw [htr]
  split at hres
  · next hsome =>
    cases hres
    rw [if_pos hsome]
    exact ⟨_, rfl, rfl, h⟩
  next hnone =>
  rw [if_neg hnone]
  have habs : walk (follow m) r (leafPath virt) = none := by
    rw [translate_eq hi hr hv] at hnone
    simpa using hnone
  -- the hidden pages of the result: only the faulting leaf is new, and it was absent
  have hhid : (∀ e ∈ res.2.cache, e ∈ m.cache ∨ e.frame ∉ D) → Hidden R D res.2 := fun hc =>
    h.hidden.of_keeps hspec.keeps (fun _ _ _ _ hn hl => hidden_offPath habs hn hl) hc
  obtain ⟨hh, hfresh⟩ := h.hidden.allocPage hi
  obtain ⟨ho, ha⟩ := h.agree.allocPage
  rcases hx : m.allocPage with ⟨o, m₁⟩
  rcases hy : m'.allocPage with ⟨o', m₁'⟩
  rw [hx] at ho ha hh hfresh hres
  rw [hy] at ho ha
  obtain rfl : o' = o := ho
  cases o' with
  | none =>
    cases hres
    exact ⟨_, rfl, rfl, hh, ha⟩
  | some f =>
    obtain ⟨hf, howns⟩ := hfresh f rfl
    have ht₁ : Twin R D (m₁.zeroPage f) (m₁'.zeroPage f) := Twin.setPage ⟨hh, ha⟩ howns.unlinked fun _ => rfl
    have ho₁ : Owns R pins f (m₁.zeroPage f) := howns.setPage
    obtain ⟨⟨ok, m₂⟩, hfill, hres⟩ := Option.bind_eq_some_iff.1 hres
    obtain ⟨⟨ok', m₂'⟩, hfill', hok, ht₂⟩ := fillPage_twins ho₁ hf ht₁ hfill
    obtain rfl : ok' = ok := hok
    simp only [hfill', Option.bind_eq_bind, Option.bind_some]
    cases ok' with
    | false =>
      cases hres
      exact ⟨_, rfl, rfl, ht₂⟩
    | true =>
      obtain ⟨-, ho₂⟩ := (fillPage_spec ho₁ hfill).ok rfl
      obtain ⟨hmap, ha₃⟩ := mapPage_agree (f := f) (mapFlags v) ho₂.inv ht₂ hr hv
      have hc₃ := cache_mapPage m₂ r virt f (mapFlags v)
      dsimp only at hres ⊢
      rcases hx₃ : mapPage m₂ r virt f (mapFlags v) with ⟨ok, m₃⟩
      rcases hy₃ : mapPage m₂' r virt f (mapFlags v) with ⟨ok', m₃'⟩
      rw [hx₃] at hres hmap ha₃ hc₃
      rw [hy₃] at hmap ha₃
      obtain rfl : ok' = ok := hmap
      cases ok' with
      | false =>
        cases hres
        exact ⟨_, rfl, rfl, hhid fun e he => .inr (ht₂.hidden.uncached e (hc₃ e he)), ha₃.freePage f⟩
      | true =>
        cases hres
        exact ⟨_, rfl, rfl, hhid fun e he => .inr (ht₂.hidden.uncached e (hc₃ e he)), ha₃⟩

/-- **Copy-on-write** does the same on both machines, for a leaf that does not lead to a hidden page. -/
theorem handleCow_twins (hi : Inv R pins m) (h : Twin R D m m') (hr : r ∈ R) (hv : virt < userEnd)
    (hleaf : ∀ {f}, Node R m r (leafPath virt) f → f ∉ D) : Twins R D (handleCow r virt m) (handleCow r virt m') := by
  have hspec := handleCow_spec hi hr hv
  have hoff : ∀ g ∈ D, ∀ {r' p'}, Node R m r' p' g → p'.length = 4 → ¬ (r' = r ∧ p' = leafPath virt) := by
    rintro g hg r' p' hn - ⟨rfl, rfl⟩
    exact hleaf hn hg
  have hhid := fun hc => h.hidden.of_keeps hspec.keeps hoff hc
  revert hhid
  unfold handleCow
  rw [h.getPTE hi hr hv]
  cases hg : getPTE m r virt with
  | none => exact fun _ => ⟨rfl, h⟩
  | some x =>
    obtain ⟨pt, i⟩ := x
    obtain ⟨rfl, ht, hp, hn⟩ := getPTE_some hi hr hv hg
    have hpt := h.hidden.not_table hi ht le_rfl
    have href : ∀ g, m'.getRef g = m.getRef g := fun g => by simp only [Machine.getRef, h.agree.pmm]
    dsimp only
    rw [h.agree.mem pt hpt, href]
    intro hhid
    split
    · exact ⟨rfl, h⟩
    next hcow =>
    split
    · next hlast =>
      simp only [hcow, hlast, if_true] at hhid
      exact ⟨rfl, hhid fun e he => .inl he, h.agree.setWord pt _ _⟩
    next hlast =>
    simp only [hcow, hlast, if_false] at hhid
    obtain ⟨ho, ha⟩ := h.agree.allocPage
    have hc := cache_allocPage m
    rcases hx : m.allocPage with ⟨o, m₁⟩
    rcases hy : m'.allocPage with ⟨o', m₁'⟩
    rw [hx] at ho ha hc hhid
    rw [hy] at ho ha
    obtain rfl : o' = o := ho
    cases o' with
    | none => exact ⟨rfl, hhid fun e he => .inl (hc e he), ha⟩
    | some new =>
      have hold : m₁'.mem (frame (m.mem pt (ptIdx virt))) = m₁.mem (frame (m.mem pt (ptIdx virt))) :=
        ha.mem _ (hleaf hn)
      have hcopy : Agree D ((m₁.copyPage new (frame (m.mem pt (ptIdx virt)))).decRef (frame (m.mem pt (ptIdx virt))))
          ((m₁'.copyPage new (frame (m.mem pt (ptIdx virt)))).decRef (frame (m.mem pt (ptIdx virt)))) :=
        Agree.decRef (ha.setPage fun _ => hold) _
      refine ⟨rfl, hhid fun e he => .inl (hc e he), ?_⟩
      dsimp only
      rw [hcopy.mem pt hpt]
      exact hcopy.setWord pt _ _

theorem userFault_twin {p : Process} (hi : Inv R pins m) (h : Twin R D m m') (hr : p.pageTable ∈ R) (hv : virt < userEnd)
    (write : Bool) : userFault p virt write m' = userFault p virt write m := by
  unfold userFault
  rw [h.getPTE hi hr hv]
  cases hg : getPTE m p.pageTable virt with
  | none => rfl
  | some x =>
    obtain ⟨pt, i⟩ := x
    obtain ⟨-, ht, -, -⟩ := getPTE_some hi hr hv hg
    dsimp only
    rw [h.agree.mem pt (h.hidden.not_table hi ht le_rfl)]

/-- **A page fault** does the same on both machines, if it does not resolve a write to a hidden page. -/
theorem resolve_twins {p : Process} {err : ErrorCode} (hi : Inv R pins m) (h : Twin R D m m') (hr : p.pageTable ∈ R)
    (hv : virt < userEnd)
    (hleaf : err.present = true → err.write = true → ∀ {f}, Node R m p.pageTable (leafPath virt) f → f ∉ D)
    {res : Bool × Machine} (hres : resolve fs p virt err m = some res) :
    ∃ res', resolve fs p virt err m' = some res' ∧ Twins R D res res' := by
  unfold resolve at hres ⊢
  split at hres
  · next hu =>
    cases hres
    rw [if_pos hu]
    exact ⟨_, rfl, rfl, h⟩
  next hu =>
  rw [if_neg hu]
  split at hres
  · next hrw =>
    cases hres
    rw [if_pos hrw]
    exact ⟨_, rfl, rfl, h⟩
  next hrw =>
  rw [if_neg hrw]
  split at hres
  · cases hres
    exact ⟨_, rfl, rfl, h⟩
  obtain ⟨guard, hguard, hres⟩ := Option.bind_eq_some_iff.1 hres
  simp only [hguard, Option.bind_eq_bind, Option.bind_some]
  split at hres
  · next hg =>
    cases hres
    rw [if_pos hg]
    exact ⟨_, rfl, rfl, h⟩
  next hg =>
  rw [if_neg hg]
  split at hres
  · next hp =>
    rw [if_pos hp]
    exact handleDemandPage_twins hi h hr (pageBase_lt hv) hres
  next hp =>
  rw [if_neg hp]
  split at hres
  · next hw =>
    cases hres
    rw [if_pos hw]
    refine ⟨_, rfl, handleCow_twins hi h hr (pageBase_lt hv) fun hn => ?_⟩
    rw [leafPath_pageBase] at hn
    exact hleaf (by simpa using hp) hw hn
  · next hw =>
    cases hres
    rw [if_neg hw]
    exact ⟨_, rfl, rfl, h⟩

end Faults

end Zigix.Fault
