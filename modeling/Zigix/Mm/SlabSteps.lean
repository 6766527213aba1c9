import Zigix.Mm.SlabSpec

/-!
# One slab at a time

* `Good.release`, `maybeReclaim_good` : empty slabs go back to the page allocator.

None of them makes or ends a slab of one slot.
-/

namespace Zigix.SlabAlloc

open Chains (Seg Threaded search)

variable {s s' : State} {live live' : List Object} {L L' : Nat → Shelf → List Nat} {F F' : Nat → List Nat}
  {f : List Nat} {a c i j p : Nat} {w w' : Shelf} {o : Object} {k : Option Nat}

theorem Core.page_ne (h : Core s live F) (hi : s.Active i) (hj : s.Active j) (hne : j ≠ i) : s.page j ≠ s.page i :=
  fun he => hne (h.pages j i hj hi he)

theorem liveOn_perm (h : live'.Perm live) (p : Nat) : (liveOn live' p).Perm (liveOn live p) :=
  (h.map _).filter _

theorem liveOn_cons_self (live : List Object) (h : o.addr / pageSize = p) :
    liveOn (o :: live) p = o.addr :: liveOn live p := by
  rw [liveOn_cons, if_pos h]

theorem liveOn_cons_of_ne (live : List Object) (h : o.addr / pageSize ≠ p) : liveOn (o :: live) p = liveOn live p := by
  rw [liveOn_cons, if_neg h]

theorem Object.not_large (hc : sizeClassIndex o.size = some c) (p : Nat) : ¬ o.Large p := by
  intro h
  rw [h.1] at hc
  cases hc

/-! ## Changes to one slab -/

/-- Only the free list and the counter of slab `i` changed, and words of its page. -/
structure Touched (s s' : State) (i : Nat) : Prop where
  pool : ∀ j, ∃ n u, s'.pool j = { s.pool j with nextFree := n, inUse := u }
  others : ∀ j, j ≠ i → s'.pool j = s.pool j
  caches : ∀ c, ∃ a f, s'.caches c = { s.caches c with totalAlloc := a, totalFree := f }
  mem : ∀ a, a / pageSize ≠ s.page i → s'.mem a = s.mem a
  free : s'.free = s.free

section Touched
variable (h : Touched s s' i)
include h

theorem Touched.active_iff : s'.Active j ↔ s.Active j := by
  obtain ⟨n, u, hp⟩ := h.pool j
  unfold State.Active
  rw [hp]

theorem Touched.page_eq (j : Nat) : s'.page j = s.page j := by
  obtain ⟨n, u, hp⟩ := h.pool j
  unfold State.page
  rw [hp]

theorem Touched.cacheIdx_eq (j : Nat) : (s'.pool j).cacheIdx = (s.pool j).cacheIdx := by
  obtain ⟨n, u, hp⟩ := h.pool j
  rw [hp]

theorem Touched.capacity_eq (j : Nat) : (s'.pool j).capacity = (s.pool j).capacity := by
  obtain ⟨n, u, hp⟩ := h.pool j
  rw [hp]

theorem Touched.single_iff : s'.Single j ↔ s.Single j := by
  rw [State.Single, State.Single, h.active_iff, h.capacity_eq]

theorem Touched.next_eq (j : Nat) : s'.next j = s.next j := by
  obtain ⟨n, u, hp⟩ := h.pool j
  unfold State.next
  rw [hp]

theorem Touched.prev_eq (j : Nat) : s'.prev j = s.prev j := by
  obtain ⟨n, u, hp⟩ := h.pool j
  unfold State.prev
  rw [hp]

theorem Touched.head_eq (c : Nat) (w : Shelf) : s'.head c w = s.head c w := by
  obtain ⟨a, f, hp⟩ := h.caches c
  unfold State.head
  rw [hp]

theorem Touched.objectSize_eq (c : Nat) : (s'.caches c).objectSize = (s.caches c).objectSize := by
  obtain ⟨a, f, hp⟩ := h.caches c
  rw [hp]

theorem Touched.activeSlabs_eq (c : Nat) : (s'.caches c).activeSlabs = (s.caches c).activeSlabs := by
  obtain ⟨a, f, hp⟩ := h.caches c
  rw [hp]

theorem Touched.slots_eq (j : Nat) : s'.slots j = s.slots j := by
  obtain ⟨n, u, hp⟩ := h.pool j
  unfold State.slots
  rw [h.objectSize_eq, h.cacheIdx_eq, hp]

theorem Touched.cachesOk (hc : CachesOk s) : CachesOk s' := by
  refine ⟨fun c hlt => ?_, fun c => ?_, fun c => ?_⟩
  · rw [h.objectSize_eq]
    exact hc.size c hlt
  · obtain ⟨a, f, hp⟩ := h.caches c
    rw [hp]
    exact hc.pages c
  · obtain ⟨a, f, hp⟩ := h.caches c
    rw [hp]
    exact hc.active c

end Touched

theorem Good.touched (h : Good s live L F (some i)) (ht : Touched s s' i) (hi : s.Active i)
    (hok : SlabOk s' live' (F' i) i) (hF : ∀ j, j ≠ i → F' j = F j)
    (hon : ∀ p, p ≠ s.page i → (liveOn live' p).Perm (liveOn live p))
    (hl : ∀ o ∈ live', o ∈ live ∨
      sizeClassIndex o.size = some (s.pool i).cacheIdx ∧ o.addr / pageSize = s.page i)
    (hapart : live'.Pairwise fun o o' => ∀ p, o.Large p → ¬ o'.Large p) : Good s' live' L F' (some i) := by
  have hcore := h.core
  refine ⟨⟨ht.cachesOk hcore.caches, fun j hj => ?_, fun j m hj hm hjm => ?_, fun o ho d hd => ?_,
    fun o ho hd => ?_, fun o ho p hp => ?_, hapart⟩, ?_, ⟨fun d v j hj => ?_, fun j hj => ?_, fun d v j hj hne => ?_,
    fun d => ?_⟩⟩
  · by_cases hji : j = i
    · subst hji
      exact hok
    · have hj' := ht.active_iff.1 hj
      have hne := hcore.page_ne hi hj' hji
      have hokj := hcore.ok j hj'
      rw [hF j hji]
      refine hokj.frame ⟨_, _, ht.others j hji⟩ (ht.objectSize_eq _) (ht.free ▸ hokj.taken) (fun a ha => ?_)
        (hon _ hne) fun o ho hp => ?_
      · exact ht.mem a fun he => hne ((hokj.page_of_slot hcore.caches (hokj.free_mem ha)).symm.trans he)
      · rcases hl o ho with ho | ⟨_, hpi⟩
        · exact hokj.sizes o ho hp
        · exact absurd (hp.symm.trans hpi) hne
  · rw [ht.page_eq, ht.page_eq] at hjm
    exact hcore.pages j m (ht.active_iff.1 hj) (ht.active_iff.1 hm) hjm
  · rcases hl o ho with ho | ⟨hcls, hpi⟩
    · obtain ⟨j, hj, hjc, hjp⟩ := hcore.small o ho d hd
      exact ⟨j, ht.active_iff.2 hj, (ht.cacheIdx_eq j).trans hjc, (ht.page_eq j).trans hjp⟩
    · rw [hcls] at hd
      exact ⟨i, ht.active_iff.2 hi, (ht.cacheIdx_eq i).trans (Option.some.inj hd), (ht.page_eq i).trans hpi.symm⟩
  · rcases hl o ho with ho | ⟨hcls, _⟩
    · exact hcore.aligned o ho hd
    · rw [hcls] at hd
      cases hd
  · rcases hl o ho with ho | ⟨hcls, _⟩
    · obtain ⟨hf, hne⟩ := hcore.large o ho p hp
      refine ⟨ht.free ▸ hf, fun j hj => ?_⟩
      rw [ht.page_eq]
      exact hne j (ht.active_iff.1 hj)
    · exact absurd hp (o.not_large hcls p)
  · exact h.shelved.congr (fun j _ _ _ => ht.next_eq j) (fun j _ _ _ => ht.prev_eq j) ht.head_eq
  · rw [ht.active_iff, ht.cacheIdx_eq]
    exact h.filed.on d v j hj
  · rw [ht.cacheIdx_eq]
    exact h.filed.off j (ht.active_iff.1 hj)
  · have hji : j ≠ i := fun he => hne (he ▸ rfl)
    have hp := h.filed.placed d v j hj hne
    have hperm := hon _ (hcore.page_ne hi (h.filed.on d v j hj).1 hji)
    have hnil : liveOn live' (s.page j) = [] ↔ liveOn live (s.page j) = [] := by
      rw [← List.length_eq_zero_iff, ← List.length_eq_zero_iff, hperm.length_eq]
    refine ⟨hF j hji ▸ hp.full, ?_, ?_⟩
    · rw [ht.page_eq, ht.capacity_eq, hnil]
      exact hp.empty
    · rw [ht.page_eq, ht.capacity_eq, hnil]
      exact hp.partly
  · rw [ht.activeSlabs_eq]
    exact h.filed.count d

/-! ## An object is handed out -/

theorem popFree_touched (s : State) (c i a : Nat) : Touched s (popFree s c i a) i := by
  refine ⟨fun j => ?_, fun j hj => ?_, fun d => ?_, fun _ _ => rfl, rfl⟩
  · rw [popFree, State.pool_modifyCache, State.pool_modify]
    split
    · next he => exact ⟨_, _, by rw [he]⟩
    · exact ⟨_, _, rfl⟩
  · rw [popFree, State.pool_modifyCache, State.pool_modify, if_neg hj]
  · rw [popFree, State.caches_modifyCache, State.caches_modify]
    split
    · next he => exact ⟨_, _, by rw [he]⟩
    · exact ⟨_, _, rfl⟩

theorem popFree_pool_self (s : State) (c i a : Nat) :
    (popFree s c i a).pool i = { s.pool i with nextFree := s.mem a, inUse := (s.pool i).inUse + 1 } := by
  rw [popFree, State.pool_modifyCache, State.pool_modify, if_pos rfl]

theorem update_of_ne (F : Nat → List Nat) (f : List Nat) (hj : j ≠ i) : Function.update F i f j = F j :=
  Function.update_of_ne hj f F

theorem Good.pop (h : Good s live L F (some i)) (hi : s.Active i) (hF : F i = a :: f) (hoa : o.addr = a)
    (hcls : sizeClassIndex o.size = some (s.pool i).cacheIdx) (c : Nat) :
    Good (popFree s c i a) (o :: live) L (Function.update F i f) (some i) := by
  have ht := popFree_touched s c i a
  have hok := h.core.ok i hi
  have hpage : o.addr / pageSize = s.page i := by
    rw [hoa]
    exact hok.page_of_slot h.core.caches (hok.free_mem (hF ▸ List.mem_cons_self))
  have hchain := hok.chain
  have hslots := hok.slots
  rw [hF] at hchain hslots
  refine h.touched ht hi ?_ (fun j hj => update_of_ne F f hj) (fun p hp => ?_) (fun o' ho => ?_) ?_
  · rw [Function.update_self]
    refine ⟨?_, ?_, ?_, ?_, ?_, ?_, ?_, ?_, ?_, ?_⟩
    · exact (ht.cacheIdx_eq i).symm ▸ hok.cls
    · rw [popFree_pool_self]
      exact hok.virt
    · rw [popFree_pool_self]
      exact hok.aligned
    · rw [popFree_pool_self]
      exact hok.pos
    · rw [ht.page_eq]
      exact hok.taken
    · rw [ht.capacity_eq, ht.objectSize_eq, ht.cacheIdx_eq]
      exact hok.capacity
    · rw [popFree_pool_self]
      exact hchain.2
    · rw [ht.page_eq, ht.slots_eq, liveOn_cons_self live hpage, hoa]
      exact List.perm_middle.trans hslots
    · rw [ht.page_eq, popFree_pool_self, liveOn_cons_self live hpage, List.length_cons]
      exact congrArg (· + 1) hok.count
    · intro o' ho' hp
      rw [ht.page_eq] at hp
      rw [ht.cacheIdx_eq]
      rcases List.mem_cons.1 ho' with rfl | ho'
      · exact hcls
      · exact hok.sizes o' ho' hp
  · rw [liveOn_cons_of_ne live fun he => hp (he.symm.trans hpage)]
  · rcases List.mem_cons.1 ho with rfl | ho
    · exact .inr ⟨hcls, hpage⟩
    · exact .inl ho
  · exact List.pairwise_cons.2 ⟨fun o' _ p hp => absurd hp (o.not_large hcls p), h.core.apart⟩

theorem allocFromSlab_good (h : Good s live L F (some i)) (hi : i ∈ L c .partly) (hF : F i ≠ [])
    (hcls : sizeClassIndex o.size = some c) (hoa : o.addr = (s.pool i).nextFree) :
    ∃ s' L' F', allocFromSlab s c i = (some o.addr, s') ∧ Good s' (o :: live) L' F' none ∧
      ∀ j, s'.Single j ↔ s.Single j := by
  obtain ⟨hact, hidx⟩ := h.filed.on c .partly i hi
  have hok := h.slab hi
  have hnz : (s.pool i).nextFree ≠ 0 := fun h0 => hF (hok.nextFree_eq_zero_iff.1 h0)
  obtain ⟨f, hf⟩ : ∃ f, F i = (s.pool i).nextFree :: f := by
    have hchain := hok.chain
    cases hFi : F i with
    | nil => exact absurd hFi hF
    | cons x f =>
      rw [hFi] at hchain
      exact ⟨f, by rw [hchain.1]⟩
  have hpop := h.pop hact hf hoa (by rw [hidx]; exact hcls) c
  have ht := popFree_touched s c i (s.pool i).nextFree
  have hact' := ht.active_iff.2 hact
  have hfull := (hpop.core.ok i hact').full_iff
  rw [Function.update_self] at hfull
  have hpage : o.addr / pageSize = (popFree s c i (s.pool i).nextFree).page i := by
    rw [hoa, ht.page_eq]
    exact hok.page_of_slot h.core.caches (hok.free_mem (hf ▸ List.mem_cons_self))
  have hlive : liveOn (o :: live) ((popFree s c i (s.pool i).nextFree).page i) ≠ [] := by
    rw [liveOn_cons_self live hpage]
    exact List.cons_ne_nil _ _
  unfold allocFromSlab
  dsimp only
  rw [if_neg hnz, hoa]
  split
  · next hc =>
    have hnil := hfull.1 hc
    refine ⟨_, _, _, rfl, ((hpop.move hi Shelf.full nofun).settle ((mem_moved_self hpop.shelved hi Shelf.full).2 ⟨rfl, rfl⟩)
      ⟨iff_of_true rfl ?_, nofun, nofun⟩), fun j => ?_⟩
    · rw [Function.update_self]
      exact hnil
    · rw [(addToList_same _ _ _ _).single_iff, (removeFromList_same _ _ _ _).single_iff, ht.single_iff]
  · next hc =>
    refine ⟨_, _, _, rfl, hpop.settle hi ⟨iff_of_false nofun ?_, nofun, fun _ hnil => absurd hnil hlive⟩,
      fun j => ht.single_iff⟩
    rw [Function.update_self]
    exact fun hnil => hc (hfull.2 hnil)

/-! ## Empty slabs go back -/

section Retire
variable (s : State) (c i : Nat)

theorem retire_pool (j : Nat) :
    (retire s c i).pool j = if j = i then { s.pool i with active := false } else s.pool j := by
  rw [retire, State.pool_modifyCache, State.pool_modify]
  rfl

theorem retire_caches (d : Nat) : (retire s c i).caches d =
    if d = c then { s.caches c with activeSlabs := (s.caches c).activeSlabs - 1 } else s.caches d := by
  rw [retire, State.caches_modifyCache, State.caches_modify]
  rfl

theorem retire_free (hp : (s.caches c).slabPages = 1) (p : Nat) :
    (retire s c i).free p = if p = s.page i then true else s.free p := by
  have hset : (retire s c i).free p =
      if s.page i ≤ p ∧ p < s.page i + (s.caches c).slabPages then true else s.free p := rfl
  rw [hset, hp]
  congr 1
  exact propext ⟨fun h => Nat.le_antisymm (Nat.lt_succ_iff.1 h.2) h.1,
    fun h => ⟨h ▸ Nat.le_refl _, h ▸ Nat.lt_succ_self _⟩⟩

theorem retire_page (j : Nat) : (retire s c i).page j = s.page j := by
  rw [State.page, State.page, retire_pool]
  split
  · next he => rw [he]
  · rfl

theorem retire_next (j : Nat) : (retire s c i).next j = s.next j := by
  rw [State.next, State.next, retire_pool]
  split
  · next he => rw [he]
  · rfl

theorem retire_prev (j : Nat) : (retire s c i).prev j = s.prev j := by
  rw [State.prev, State.prev, retire_pool]
  split
  · next he => rw [he]
  · rfl

theorem retire_head (d : Nat) (w : Shelf) : (retire s c i).head d w = s.head d w := by
  rw [State.head, State.head, retire_caches]
  split
  · next he => rw [he]
  · rfl

theorem retire_active_iff {j : Nat} : (retire s c i).Active j ↔ s.Active j ∧ j ≠ i := by
  unfold State.Active
  rw [retire_pool]
  split
  · next he => simp [he]
  · next he => simp [he]

theorem CachesOk.retire (h : CachesOk s) : CachesOk (retire s c i) := by
  refine ⟨fun d hlt => ?_, fun d => ?_, fun d => ?_⟩ <;> rw [retire_caches]
  · split
    · next he => exact he ▸ h.size d hlt
    · exact h.size d hlt
  · split
    · next he => exact he ▸ h.pages d
    · exact h.pages d
  · split
    · next he => exact he ▸ h.active d
    · exact h.active d

end Retire

theorem Core.retire (h : Core s live F) (hi : s.Active i) (hnil : liveOn live (s.page i) = []) (c : Nat) :
    Core (retire s c i) live F := by
  have hfree := retire_free s c i (h.caches.pages c)
  have hpool : ∀ j, j ≠ i → (SlabAlloc.retire s c i).pool j = s.pool j := fun j hj => by rw [retire_pool, if_neg hj]
  refine ⟨h.caches.retire s c i, fun j hj => ?_, fun j m hj hm hjm => ?_, fun o ho d hd => ?_, h.aligned,
    fun o ho p hp => ?_, h.apart⟩
  · obtain ⟨hj, hji⟩ := (retire_active_iff s c i).1 hj
    have hok := h.ok j hj
    refine hok.frame ⟨_, _, hpool j hji⟩ ?_ ?_ (fun _ _ => rfl) (.refl _) hok.sizes
    · rw [retire_caches]
      split
      · next he => rw [he]
      · rfl
    · rw [hfree, if_neg (h.page_ne hi hj hji)]
      exact hok.taken
  · rw [retire_page, retire_page] at hjm
    exact h.pages j m ((retire_active_iff s c i).1 hj).1 ((retire_active_iff s c i).1 hm).1 hjm
  · obtain ⟨j, hj, hjc, hjp⟩ := h.small o ho d hd
    have hji : j ≠ i := by
      rintro rfl
      have hmem : o.addr ∈ liveOn live (s.page j) := mem_liveOn.2 ⟨⟨o, ho, rfl⟩, hjp.symm⟩
      rw [hnil] at hmem
      cases hmem
    refine ⟨j, (retire_active_iff s c i).2 ⟨hj, hji⟩, ?_, (retire_page s c i j).trans hjp⟩
    rw [hpool j hji]
    exact hjc
  · obtain ⟨hf, hne⟩ := h.large o ho p hp
    refine ⟨?_, fun j hj => ?_⟩
    · rw [hfree, if_neg fun he => hne i hi he.symm]
      exact hf
    · rw [retire_page]
      exact hne j ((retire_active_iff s c i).1 hj).1

theorem Good.release (h : Good s live L F none) (hi : i ∈ L c .empty) :
    Good (releaseSlab s c i) live (setList L c .empty ((L c .empty).erase i)) F none := by
  have hsame := removeFromList_same s c .empty i
  have hact := (h.filed.on c .empty i hi).1
  have hnil := ((h.filed.placed c .empty i hi nofun).empty rfl).1
  have hcore := (h.core.congr hsame).retire (hsame.active_iff.2 hact) (by rw [hsame.page_eq]; exact hnil) c
  have hmem : ∀ {d w j}, j ∈ setList L c .empty ((L c .empty).erase i) d w ↔ j ∈ L d w ∧ j ≠ i := by
    intro d w j
    unfold setList
    split
    · next he =>
      rw [he.1, he.2, (h.shelved.threaded c .empty).nodup.mem_erase_iff, and_comm]
    · next he => exact ⟨fun hj => ⟨hj, fun hji => he (h.shelved.apart hi (hji ▸ hj))⟩, And.left⟩
  have hpool : ∀ j, j ≠ i → ((releaseSlab s c i).pool j) = (removeFromList s c .empty i).pool j := fun j hj => by
    rw [releaseSlab, retire_pool, if_neg hj]
  refine ⟨hcore, ?_, ⟨fun d w j hj => ?_, fun j hj => ?_, fun d w j hj _ => ?_, fun d => ?_⟩⟩
  · exact (h.shelved.remove hi).congr (fun j _ _ _ => retire_next _ c i j) (fun j _ _ _ => retire_prev _ c i j)
      (retire_head _ c i)
  · obtain ⟨hj, hji⟩ := hmem.1 hj
    obtain ⟨hact, hidx⟩ := h.filed.on d w j hj
    refine ⟨(retire_active_iff _ c i).2 ⟨hsame.active_iff.2 hact, hji⟩, ?_⟩
    rw [hpool j hji, hsame.cacheIdx_eq]
    exact hidx
  · obtain ⟨hj, hji⟩ := (retire_active_iff _ c i).1 hj
    obtain ⟨w, hw⟩ := h.filed.off j (hsame.active_iff.1 hj)
    rw [hpool j hji, hsame.cacheIdx_eq]
    exact ⟨w, hmem.2 ⟨hw, hji⟩⟩
  · obtain ⟨hj, hji⟩ := hmem.1 hj
    have hp := h.filed.placed d w j hj nofun
    refine ⟨hp.full, ?_, ?_⟩ <;> rw [releaseSlab, retire_page, hsame.page_eq, ← releaseSlab, hpool j hji,
      hsame.capacity_eq]
    · exact hp.empty
    · exact hp.partly
  · have hcount := h.filed.count d
    rw [releaseSlab, retire_caches]
    split
    · next he =>
      subst he
      have hlen := List.length_erase_of_mem hi
      have hpos := List.length_pos_of_mem hi
      have hs := hsame.activeSlabs_eq d
      dsimp only
      rw [setList_self, setList_of_ne fun hd => Shelf.noConfusion hd.2,
        setList_of_ne fun hd => Shelf.noConfusion hd.2]
      omega
    · next he =>
      rw [hsame.activeSlabs_eq, setList_of_ne fun hd => he hd.1, setList_of_ne fun hd => he hd.1,
        setList_of_ne fun hd => he hd.1]
      exact hcount

theorem Good.release_single (h : Good s live L F none) (hi : i ∈ L c .empty) :
    (releaseSlab s c i).Single j ↔ s.Single j := by
  have hsame := removeFromList_same s c .empty i
  have hcap := ((h.filed.placed c .empty i hi nofun).empty rfl).2
  rw [State.Single, State.Single, releaseSlab, retire_active_iff, hsame.active_iff, retire_pool]
  split
  · next he =>
    rw [he]
    exact ⟨fun hs => absurd rfl hs.1.2, fun hs => absurd hs.2 hcap⟩
  · next hne => rw [hsame.capacity_eq, and_iff_left hne]

theorem releaseSlab_free (h : CachesOk s) (c i p : Nat) :
    (releaseSlab s c i).free p = if p = s.page i then true else s.free p := by
  have hsame := removeFromList_same s c .empty i
  rw [releaseSlab, retire_free _ c i ((h.congr hsame).pages c), hsame.page_eq, hsame.free]

theorem releaseSlab_page (s : State) (c i j : Nat) : (releaseSlab s c i).page j = s.page j := by
  rw [releaseSlab, retire_page, (removeFromList_same s c .empty i).page_eq]

theorem Good.length_lt (h : Good s live L F k) (c : Nat) (w : Shelf) : (L c w).length < fuel := by
  have hsub : L c w ⊆ List.range maxSlabs := fun i hi => List.mem_range.2 (h.filed.on c w i hi).1.1
  have hle := (List.subperm_of_subset (h.shelved.threaded c w).nodup hsub).length_le
  rw [List.length_range] at hle
  exact Nat.lt_succ_of_le hle

theorem listLength_seg {l : List Nat} {n a : Nat} (h : Seg s.next a l nullSlab) (hnull : nullSlab ∉ l)
    (hn : l.length < n) : listLength s n a = some l.length := by
  induction l generalizing a n with
  | nil =>
    obtain ⟨n, rfl⟩ := Nat.exists_eq_succ_of_ne_zero (Nat.ne_of_gt hn)
    have ha : a = nullSlab := h
    rw [listLength, if_pos ha]
    rfl
  | cons x l ih =>
    obtain ⟨n, rfl⟩ := Nat.exists_eq_succ_of_ne_zero (Nat.ne_of_gt (Nat.zero_lt_of_lt hn))
    obtain ⟨rfl, h⟩ := h
    have hne : a ≠ nullSlab := fun he => hnull (he ▸ List.mem_cons_self)
    rw [listLength, if_neg hne, ih h (fun hm => hnull (List.mem_cons_of_mem a hm)) (Nat.lt_of_succ_lt_succ hn)]
    rfl

theorem reclaimLoop_good (c : Nat) (n : Nat) (h : Good s live L F none) :
    ∃ L', Good (reclaimLoop c n s) live L' F none ∧ ∀ j, (reclaimLoop c n s).Single j ↔ s.Single j := by
  induction n generalizing s L with
  | zero => exact ⟨L, h, fun _ => Iff.rfl⟩
  | succ n ih =>
    cases n with
    | zero => exact ⟨L, h, fun _ => Iff.rfl⟩
    | succ n =>
      rw [reclaimLoop]
      split
      · exact ⟨L, h, fun _ => Iff.rfl⟩
      · next hne =>
        have hmem := (h.shelved.head_mem).resolve_left hne
        obtain ⟨L', hgood, hsingle⟩ := ih (h.release hmem)
        exact ⟨L', hgood, fun j => (hsingle j).trans (h.release_single hmem)⟩

theorem maybeReclaim_good (h : Good s live L F none) (c : Nat) :
    ∃ s' L', maybeReclaim s c = some s' ∧ Good s' live L' F none ∧ ∀ j, s'.Single j ↔ s.Single j := by
  have hthr := h.shelved.threaded c .empty
  obtain ⟨L', hgood, hsingle⟩ := reclaimLoop_good c (L c .empty).length h
  refine ⟨_, L', ?_, hgood, hsingle⟩
  unfold maybeReclaim
  rw [listLength_seg hthr.seg hthr.no_null (h.length_lt c .empty)]
  rfl

/-! ## An object comes back -/

theorem pushFree_touched (s : State) (c i : Nat) (ha : a / pageSize = s.page i) : Touched s (pushFree s c i a) i := by
  refine ⟨fun j => ?_, fun j hj => ?_, fun d => ?_, fun b hb => ?_, rfl⟩
  · rw [pushFree, State.pool_modifyCache, State.pool_modify]
    split
    · next he => exact ⟨_, _, by rw [he]⟩
    · exact ⟨_, _, rfl⟩
  · rw [pushFree, State.pool_modifyCache, State.pool_modify, if_neg hj]
  · rw [pushFree, State.caches_modifyCache, State.caches_modify]
    split
    · next he => exact ⟨_, _, by rw [he]⟩
    · exact ⟨_, _, rfl⟩
  · have hne : b ≠ a := fun he => hb (he ▸ ha)
    exact Function.update_of_ne hne _ _

theorem pushFree_pool_self (s : State) (c i a : Nat) :
    (pushFree s c i a).pool i = { s.pool i with nextFree := a, inUse := (s.pool i).inUse - 1 } := by
  rw [pushFree, State.pool_modifyCache, State.pool_modify, if_pos rfl]

theorem pushFree_mem (s : State) (c i a : Nat) :
    (pushFree s c i a).mem = Function.update s.mem a (s.pool i).nextFree := rfl

theorem liveOn_erase (ho : o ∈ live) (hp : o.addr / pageSize = p) :
    (liveOn live p).Perm (o.addr :: liveOn (live.erase o) p) := by
  rw [← liveOn_cons_self _ hp]
  exact liveOn_perm (List.perm_cons_erase ho) p

theorem liveOn_erase_of_ne (ho : o ∈ live) (hp : o.addr / pageSize ≠ p) :
    (liveOn (live.erase o) p).Perm (liveOn live p) := by
  rw [← liveOn_cons_of_ne (live.erase o) hp]
  exact liveOn_perm (List.perm_cons_erase ho).symm p

theorem Good.push (h : Good s live L F (some i)) (hi : s.Active i) (ho : o ∈ live)
    (hpage : o.addr / pageSize = s.page i) (c : Nat) :
    Good (pushFree s c i o.addr) (live.erase o) L (Function.update F i (o.addr :: F i)) (some i) := by
  have ht := pushFree_touched s c i hpage
  have hok := h.core.ok i hi
  have hperm := liveOn_erase ho hpage
  have hnd := hok.nodup h.core.caches
  have hlive : o.addr ∈ liveOn live (s.page i) := mem_liveOn.2 ⟨⟨o, ho, rfl⟩, hpage⟩
  have hfresh : o.addr ∉ F i := fun hm => (List.disjoint_of_nodup_append hnd) hm hlive
  refine h.touched ht hi ?_ (fun j hj => update_of_ne F _ hj)
    (fun p hp => liveOn_erase_of_ne ho fun he => hp (he.symm.trans hpage))
    (fun o' ho' => .inl (List.mem_of_mem_erase ho')) (h.core.apart.sublist List.erase_sublist)
  rw [Function.update_self]
  refine ⟨?_, ?_, ?_, ?_, ?_, ?_, ?_, ?_, ?_, ?_⟩
  · exact (ht.cacheIdx_eq i).symm ▸ hok.cls
  · rw [pushFree_pool_self]
    exact hok.virt
  · rw [pushFree_pool_self]
    exact hok.aligned
  · rw [pushFree_pool_self]
    exact hok.pos
  · rw [ht.page_eq]
    exact hok.taken
  · rw [ht.capacity_eq, ht.objectSize_eq, ht.cacheIdx_eq]
    exact hok.capacity
  · rw [pushFree_pool_self, pushFree_mem]
    refine ⟨rfl, ?_⟩
    rw [Function.update_self]
    refine hok.chain.congr fun a ha => ?_
    have hne : a ≠ o.addr := fun he => hfresh (he ▸ ha)
    exact Function.update_of_ne hne _ _
  · rw [ht.page_eq, ht.slots_eq]
    exact ((List.perm_middle.symm).trans (hperm.symm.append_left (F i))).trans hok.slots
  · rw [ht.page_eq, pushFree_pool_self]
    have hlen := hperm.length_eq
    rw [List.length_cons] at hlen
    dsimp only
    rw [hok.count, hlen, Nat.add_sub_cancel]
  · intro o' ho' hp
    rw [ht.page_eq] at hp
    rw [ht.cacheIdx_eq]
    exact hok.sizes o' (List.mem_of_mem_erase ho') hp

theorem freeToSlab_good (h : Good s live L F none) (hi : i ∈ L c w) (ho : o ∈ live)
    (hpage : o.addr / pageSize = s.page i) :
    ∃ s' L' F', freeToSlab s c i o.addr = some s' ∧ Good s' (live.erase o) L' F' none ∧
      ∀ j, s'.Single j ↔ s.Single j := by
  obtain ⟨hact, hidx⟩ := h.filed.on c w i hi
  have hok := h.slab hi
  have hplaced := h.filed.placed c w i hi nofun
  have hpush := (h.loosen (some i)).push hact ho hpage c
  have ht := pushFree_touched s c i hpage
  have hact' := ht.active_iff.2 hact
  have hok' := hpush.core.ok i hact'
  have hF' : Function.update F i (o.addr :: F i) i ≠ [] := by
    rw [Function.update_self]
    exact List.cons_ne_nil _ _
  have hlive : o.addr ∈ liveOn live (s.page i) := mem_liveOn.2 ⟨⟨o, ho, rfl⟩, hpage⟩
  have hlen := hok'.length
  rw [Function.update_self, List.length_cons] at hlen
  unfold freeToSlab
  dsimp only
  split
  · next hfull =>
    have hnil := hok.full_iff.1 hfull
    obtain rfl : w = .full := hplaced.full.2 hnil
    have hsame := (removeFromList_same (pushFree s c i o.addr) c .full i).trans (addToList_same _ c .partly i)
    refine ⟨_, _, _, rfl, (hpush.move hi Shelf.partly nofun).settle
      ((mem_moved_self hpush.shelved hi Shelf.partly).2 ⟨rfl, rfl⟩) ⟨iff_of_false nofun hF', nofun, fun _ hlnil => ?_⟩,
      fun j => hsame.single_iff.trans ht.single_iff⟩
    rw [hsame.page_eq] at hlnil
    rw [hsame.capacity_eq, ← hlen, hlnil, hnil]
    rfl
  · next hfull =>
    have hne := fun hnil => hfull (hok.full_iff.2 hnil)
    obtain rfl : w = .partly := by
      cases w with
      | partly => rfl
      | full => exact absurd (hplaced.full.1 rfl) hne
      | empty =>
        rw [(hplaced.empty rfl).1] at hlive
        cases hlive
    split
    · next hz =>
      have hlnil : liveOn (live.erase o) ((pushFree s c i o.addr).page i) = [] :=
        List.length_eq_zero_iff.1 (hok'.count.symm.trans hz)
      have hsame := (removeFromList_same (pushFree s c i o.addr) c .partly i).trans (addToList_same _ c .empty i)
      have hsettled := (hpush.move hi Shelf.empty nofun).settle ((mem_moved_self hpush.shelved hi Shelf.empty).2 ⟨rfl, rfl⟩)
        ⟨iff_of_false nofun hF', fun _ => ?_, nofun⟩
      · obtain ⟨s', L', hs', hgood, hsingle⟩ := maybeReclaim_good hsettled c
        exact ⟨s', L', _, hs', hgood, fun j => (hsingle j).trans (hsame.single_iff.trans ht.single_iff)⟩
      · rw [hsame.page_eq, hsame.capacity_eq]
        refine ⟨hlnil, fun hone => ?_⟩
        rw [hone, hlnil] at hlen
        exact hne (List.length_eq_zero_iff.1 (Nat.succ.inj hlen))
    · next hnz =>
      refine ⟨_, _, _, rfl, hpush.settle hi ⟨iff_of_false nofun hF', nofun, fun _ hlnil => absurd ?_ hnz⟩,
        fun j => ht.single_iff⟩
      rw [hok'.count, hlnil]
      rfl

end Zigix.SlabAlloc
