import Zigix.Mm.Fault
import Zigix.Mm.MapSpec

/-!
# What the page-fault handler does to the page tables

* `resolve_cases` : the three things a fault can do.
-/

namespace Zigix.Fault

open Forest Pmm Pte Vmm Space Ext2

section Read
variable {R : Set Nat} {pins : Nat → Nat} {m m' : Machine} {D : Nat → List Nat → Prop} {f : Nat}

theorem storeBytes_eq (m : Machine) (f off : Nat) (bs : List (BitVec 8)) :
    ∃ c, storeBytes m f off bs = m.setPage f c := by
  induction bs generalizing m off with
  | nil => exact ⟨m.mem f, by simp [storeBytes, Machine.setPage]⟩
  | cons b bs ih =>
    obtain ⟨c, hc⟩ := ih (m.storeByte f off b) (off + 1)
    refine ⟨c, ?_⟩
    rw [storeBytes, hc]
    simp [Machine.storeByte, Machine.setPage]

theorem mem_storeBytes_of_ne {m : Machine} {f g : Nat} (h : g ≠ f) (off : Nat) (bs : List (BitVec 8)) :
    (storeBytes m f off bs).mem g = m.mem g := by
  obtain ⟨c, hc⟩ := storeBytes_eq m f off bs
  rw [hc]
  simp [Machine.setPage, h]

theorem pageByte_storeBytes (m : Machine) (f off : Nat) (bs : List (BitVec 8)) (o : Nat) :
    Machine.pageByte ((storeBytes m f off bs).mem f) o =
      if off ≤ o ∧ o < off + bs.length then bs.getD (o - off) 0 else Machine.pageByte (m.mem f) o := by
  induction bs generalizing m off with
  | nil =>
    rw [if_neg (by simp)]
    rfl
  | cons b bs ih =>
    rw [storeBytes, ih]
    have hb : Machine.pageByte ((m.storeByte f off b).mem f) o = if o = off then b else Machine.pageByte (m.mem f) o := by
      simp only [Machine.storeByte, Machine.setPage, Function.update_self, Machine.pageByte_setPageByte]
    rw [hb, List.length_cons]
    by_cases h1 : o = off
    · subst h1
      rw [if_neg (by omega), if_pos rfl, if_pos (by omega)]
      simp
    · by_cases h2 : off + 1 ≤ o ∧ o < off + 1 + bs.length
      · rw [if_pos h2, if_pos (by omega)]
        have : o - off = o - (off + 1) + 1 := by omega
        rw [this, List.getD_cons_succ]
      · rw [if_neg h2, if_neg h1, if_neg (by omega)]

theorem lookup_grown (h : Inv R pins m) (ino idx : Nat) : Grown R pins D m (m.lookup ino idx).2 :=
  .of_mem (h.permCache (PageCache.lookup_perm _ _ _)) rfl

theorem insert_inv (h : Inv R (pins + pin f) m) (hf : ∀ {r p}, Node R m r p f → p.length = 4) (ino idx : Nat) :
    Inv R (pins + pin f) (m.insert ino idx f) := by
  unfold Machine.insert PageCache.insert
  have hperm := PageCache.lookup_perm m.cache ino idx
  rcases hl : PageCache.lookup m.cache ino idx with ⟨o, c⟩
  rw [hl] at hperm
  have hc := h.permCache hperm
  let e : PageCache.Entry := { inodeNum := ino, pageIndex := idx, frame := f, dirty := false }
  -- one more reference, which the new entry takes
  have hadd : ∀ m₁ : Machine, m₁.mem = m.mem → Inv R (pins + pin f) m₁ →
      Inv R (pins + pin f) { m₁.incRef f with cache := e :: m₁.cache } := fun m₁ hmem h₁ => by
    have hk : Keeps R (fun _ _ => False) m₁ m := .of_mem hmem.symm
    exact (h₁.incRef h₁.pin_inRange h₁.ref_pos_of_pin).cache (e := e) fun hn => hf (hk.node hn id)
  cases o with
  | some g => exact hc
  | none =>
    dsimp only
    split
    · next hins =>
      split at hins
      · cases hins
      · split at hins
        · cases hins
        · cases hins
          exact hc
    · next hins =>
      split at hins
      · cases hins
        exact hadd { m with cache := c } rfl hc
      · split at hins <;> cases hins
    · next victim c' hins =>
      split at hins
      · cases hins
      · split at hins
        · next hlast =>
          cases hins
          have hv : (victim :: c.dropLast).Perm m.cache := by
            refine .trans ?_ hperm
            have hsplit := List.dropLast_append_getLast? victim hlast
            refine (List.perm_append_singleton victim c.dropLast).symm.trans ?_
            rw [hsplit]
          have hpos := (h.cachedRange victim (hv.mem_iff.1 List.mem_cons_self)).1
          have hdrop : ∀ m₁ : Machine, m₁.dropEntry victim = m₁.freePage victim.frame := fun m₁ =>
            if_pos (by omega)
          rw [hdrop]
          exact hadd (({ m with cache := c.dropLast } : Machine).freePage victim.frame) rfl (h.evict hv).freePage
        · cases hins

theorem mem_insert (m : Machine) (ino idx f : Nat) : (m.insert ino idx f).mem = m.mem := by
  unfold Machine.insert Machine.dropEntry
  split
  · rfl
  · rfl
  · split <;> rfl

/-! ## Reading a file -/

theorem cacheBlock_grown (disk : Disk) (ino fileBlock : Nat) (data : Nat → BitVec 8) (h : Inv R pins m) :
    Grown R pins D m (cacheBlock disk ino fileBlock data m) := by
  have hmem : m.allocPage.2.mem = m.mem := rfl
  unfold cacheBlock
  rcases ha : m.allocPage with ⟨o, m₁⟩
  rw [ha] at hmem
  rcases owns_allocPage h with ⟨h1, h2⟩ | ⟨g, h1, h2, -⟩
  · rw [ha] at h1 h2
    cases h1
    exact .of_mem h2 hmem
  · rw [ha] at h1 h2
    cases h1
    dsimp only
    obtain ⟨c, hc⟩ := storeBytes_eq m₁ g 0 ((List.range disk.blockSize).map data)
    rw [hc]
    have hw := h2.setPage (c := c)
    have h₁ : Grown R pins D m m₁ := .of_mem h2.inv.weaken hmem
    have h₂ : Grown R pins D m₁ (m₁.setPage g c) := .setPage h2.inv.weaken h2.unlinked h2.unpinned
    have h₃ : Inv R (pins + pin g) ((m₁.setPage g c).insert ino fileBlock g) :=
      insert_inv hw.inv (fun hn => absurd hn (hw.unlinked _ _)) ino fileBlock
    exact (h₁.trans h₂).trans (.of_mem h₃.weaken (mem_insert _ _ _ _))

theorem readChunk_grown (disk : Disk) (inode : Inode) (fileBlock off n : Nat) (h : Inv R pins m) :
    Grown R pins D m (readChunk disk inode fileBlock off n m).2 := by
  unfold readChunk
  split
  · exact .of_mem h rfl
  · have hl := lookup_grown (D := D) h inode.ino fileBlock
    rcases hx : m.lookup inode.ino fileBlock with ⟨o, m₁⟩
    rw [hx] at hl
    cases o with
    | some f => exact hl
    | none =>
      dsimp only
      split
      · exact hl
      · exact hl.trans (cacheBlock_grown disk _ _ _ hl.inv)

theorem readLoop_grown (disk : Disk) (inode : Inode) (fuel offset remaining : Nat) (h : Inv R pins m) :
    Grown R pins D m (readLoop disk inode fuel offset remaining m).2 := by
  induction fuel generalizing offset remaining m with
  | zero => exact .of_mem h rfl
  | succ fuel ih =>
    rw [readLoop]
    split
    · exact .of_mem h rfl
    · have hc := readChunk_grown (D := D) disk inode (offset / disk.blockSize % 2 ^ 32) (offset % disk.blockSize)
        (min remaining (disk.blockSize - offset % disk.blockSize)) h
      dsimp only
      rcases hx : readChunk disk inode (offset / disk.blockSize % 2 ^ 32) (offset % disk.blockSize)
        (min remaining (disk.blockSize - offset % disk.blockSize)) m with ⟨o, m₁⟩
      rw [hx] at hc
      cases o with
      | none => exact hc
      | some bytes => exact hc.trans (ih _ _ hc.inv)

/-- **A read** changes no address space and no page that the caller owns. -/
theorem ext2Read_grown (disk : Disk) (inode : Inode) (offset count : Nat) (h : Inv R pins m) :
    Grown R pins D m (ext2Read disk inode offset count m).2 := by
  unfold ext2Read
  split
  · exact .of_mem h rfl
  · exact readLoop_grown disk inode _ _ _ h

end Read

/-! ## Demand paging -/

section Demand
variable {R : Set Nat} {pins : Nat → Nat} {m : Machine} {r f faultPage : Nat} {fs : FileSystem} {v : Vma}

abbrev Filled (R : Set Nat) (pins : Nat → Nat) (f : Nat) (m : Machine) : Bool × Machine → Prop :=
  Loop.Result (fun m' => Grown R pins (fun _ _ => False) m m' ∧ Owns R pins f m')
    (Grown R pins (fun _ _ => False) m)

theorem fillFromFile_spec (h : Owns R pins f m) (inode : Inode) (pageOffset filePos : Nat) :
    Filled R pins f m (fillFromFile fs v inode pageOffset filePos f m) := by
  unfold fillFromFile
  have hl : Grown R (pins + pin f) (fun _ _ => False) m
      (if isBssBoundary v pageOffset then (none, m) else m.lookup (inode.ino % 2 ^ 32) (pageIndex filePos)).2 := by
    split
    · exact .of_mem h.inv rfl
    · exact lookup_grown h.inv _ _
  dsimp only
  generalize (if isBssBoundary v pageOffset then (none, m)
    else m.lookup (inode.ino % 2 ^ 32) (pageIndex filePos)) = found at hl
  obtain ⟨o, m₁⟩ := found
  have h₁ := h.grown hl
  cases o with
  | some cached =>
    exact .ofTrue ⟨hl.weaken.trans (.setPage h₁.inv.weaken h₁.unlinked h₁.unpinned), h₁.setPage⟩
  | none =>
    dsimp only
    split
    · exact .ofFalse (hl.weaken.trans (.of_mem h₁.inv.freePage rfl))
    · have hr := ext2Read_grown (D := fun _ _ => False) fs.disk inode filePos (readLen v pageOffset) h₁.inv
      generalize ext2Read fs.disk inode filePos (readLen v pageOffset) m₁ = read at hr
      obtain ⟨bytes, m₂⟩ := read
      have h₂ := h₁.grown hr
      obtain ⟨c, hc⟩ := storeBytes_eq m₂ f 0 bytes
      dsimp only
      rw [hc]
      have h₃ := h₂.setPage (c := c)
      have hg : Grown R pins (fun _ _ => False) m (m₂.setPage f c) :=
        (hl.weaken.trans hr.weaken).trans (.setPage h₂.inv.weaken h₂.unlinked h₂.unpinned)
      split
      · exact .ofTrue ⟨hg, h₃⟩
      · have hi := insert_inv h₃.inv (fun hn => absurd hn (h₃.unlinked _ _)) (inode.ino % 2 ^ 32) (pageIndex filePos)
        have hgi : Grown R (pins + pin f) (fun _ _ => False) (m₂.setPage f c) _ := .of_mem hi (mem_insert _ _ _ _)
        exact .ofTrue ⟨hg.trans hgi.weaken, h₃.grown hgi⟩

theorem fillPage_spec (h : Owns R pins f m) {res : Bool × Machine} (hres : fillPage fs v faultPage f m = some res) :
    Filled R pins f m res := by
  have hsame : Filled R pins f m (true, m) := .ofTrue ⟨.of_mem h.inv.weaken rfl, h⟩
  unfold fillPage at hres
  split at hres
  · cases hres
    exact hsame
  · obtain ⟨pageOffset, -, hres⟩ := Option.bind_eq_some_iff.1 hres
    split at hres
    · cases hres
      exact hsame
    · obtain ⟨filePos, -, hres⟩ := Option.bind_eq_some_iff.1 hres
      cases hres
      exact fillFromFile_spec h _ _ _

/-- What a fault on a page of area `v` achieves. -/
structure DemandPaged (R : Set Nat) (pins : Nat → Nat) (r virt : Nat) (v : Vma) (m : Machine) (res : Bool × Machine) :
    Prop where
  inv : Inv R pins res.2
  keeps : Keeps R (OnPath r virt) m res.2
  leaves : Leaves R (fun r' p' => r' = r ∧ p' = leafPath virt) m res.2
  failed : res.1 = false → Leaves R (fun _ _ => False) m res.2
  present : (translate m r virt).isSome = true → res = (true, m)
  mapped : res.1 = true → translate m r virt = none →
    ∃ f, Leaf R res.2 r (leafPath virt) (make ((mapFlags v).entry false) f)

/-- **Demand paging.** Only the leaf of the faulting page changes; it gets the flags of the area. -/
theorem handleDemandPage_spec (h : Inv R pins m) (hr : r ∈ R) (hv : faultPage < userEnd) {res : Bool × Machine}
    (hres : handleDemandPage fs r v faultPage m = some res) : DemandPaged R pins r faultPage v m res := by
  have hof : ∀ {m' : Machine}, (translate m r faultPage).isSome = false → Grown R pins (OnPath r faultPage) m m' →
      DemandPaged R pins r faultPage v m (false, m') := fun hno hg =>
    ⟨hg.inv, hg.keeps, hg.leaves.mono fun _ _ _ => False.elim, fun _ => hg.leaves, fun hs => by simp [hno] at hs, nofun⟩
  unfold handleDemandPage at hres
  split at hres
  · next hsome =>
    cases hres
    exact ⟨h, .refl m, .refl m, nofun, fun _ => rfl, fun _ hn => by simp [hn] at hsome⟩
  next hnone =>
  have hno : (translate m r faultPage).isSome = false := by simpa using hnone
  have hmem : m.allocPage.2.mem = m.mem := rfl
  rcases ha : m.allocPage with ⟨o, m₁⟩
  rw [ha] at hres hmem
  rcases owns_allocPage h with ⟨h1, h2⟩ | ⟨f, h1, h2, -⟩
  · rw [ha] at h1 h2
    cases h1
    cases hres
    exact hof hno (.of_mem h2 hmem)
  · rw [ha] at h1 h2
    cases h1
    obtain ⟨⟨ok, m₂⟩, hfill, hres⟩ := Option.bind_eq_some_iff.1 hres
    have hz : Owns R pins f (m₁.zeroPage f) := h2.setPage
    have hg₁ : Grown R pins (fun _ _ => False) m (m₁.zeroPage f) :=
      (Grown.of_mem h2.inv.weaken hmem).trans (.setPage h2.inv.weaken h2.unlinked h2.unpinned)
    have hf := fillPage_spec hz hfill
    cases ok with
    | false =>
      cases hres
      exact hof hno ((hg₁.trans (hf.fail rfl)).mono fun _ _ => False.elim)
    | true =>
      obtain ⟨hg₂, ho⟩ := hf.ok rfl
      have hg := hg₁.trans hg₂
      have hmap := @mapPage_spec _ _ _ _ _ _ (mapFlags v) ho.inv ho.unlinked hr hv
      dsimp only at hres
      rcases hx : mapPage m₂ r faultPage f (mapFlags v) with ⟨ok, m₃⟩
      rw [hx] at hres hmap
      cases ok with
      | false =>
        cases hres
        have hgf : Grown R pins (OnPath r faultPage) m₃ (m₃.freePage f) := .of_mem (hmap.fail rfl).inv.freePage rfl
        exact hof hno (((hg.mono fun _ _ => False.elim).trans (hmap.fail rfl).weaken).trans hgf)
      | true =>
        cases hres
        have hd := hmap.ok rfl
        obtain ⟨pt, ht, hw⟩ := hd.leaf
        refine ⟨hd.inv, (hg.keeps.mono fun _ _ => False.elim).trans hd.keeps,
          (hg.leaves.mono fun _ _ _ => False.elim).trans hd.leaves, nofun, fun hs => by simp [hno] at hs, fun _ _ => ⟨f, ?_⟩⟩
        have := leaf_of_node (i := ptIdx faultPage) ht rfl (leafPath_user hv) (by rw [hw]; simp [MapFlags.entry])
        rwa [hw] at this

end Demand

theorem resolve_cases {fs : FileSystem} {p : Process} {virt : Nat} {err : ErrorCode} {m : Machine} {res : Bool × Machine}
    (h : resolve fs p virt err m = some res) :
    res = (false, m) ∨
      (∃ i, Vma.findVma p.vmas virt = some i ∧ err.present = false ∧
        handleDemandPage fs p.pageTable (p.vmas i) (pageBase virt) m = some res) ∨
      (err.present = true ∧ err.write = true ∧ res = handleCow p.pageTable (pageBase virt) m) := by
  unfold resolve at h
  split at h
  · exact .inl (Option.some.inj h).symm
  split at h
  · exact .inl (Option.some.inj h).symm
  split at h
  · exact .inl (Option.some.inj h).symm
  next i hi =>
  obtain ⟨guard, -, h⟩ := Option.bind_eq_some_iff.1 h
  split at h
  · exact .inl (Option.some.inj h).symm
  split at h
  · next hp => exact .inr (.inl ⟨i, hi, by simpa using hp, h⟩)
  next hp =>
  split at h
  · next hw => exact .inr (.inr ⟨by simpa using hp, hw, (Option.some.inj h).symm⟩)
  · exact .inl (Option.some.inj h).symm

end Zigix.Fault
