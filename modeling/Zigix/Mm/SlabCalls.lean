import Zigix.Mm.SlabSteps

/-!
# Calls of the slab allocator

* `allocObject_good`, `freeObject_good` : one object of a class;
* `kmalloc_allocated`, `kfree_good`, `shrink_good`.
-/

namespace Zigix.SlabAlloc

open Chains (Seg Threaded search search_seg)

variable {s s' : State} {live live' : List Object} {L L' : Nat → Shelf → List Nat} {F F' : Nat → List Nat}
  {f : List Nat} {a c i j p size : Nat} {w w' : Shelf} {o : Object} {k : Option Nat}

/-! ## Size classes -/

theorem sizeClassIndex_some (h : sizeClassIndex size = some c) :
    c < numSizeClasses ∧ size ≤ sizeClasses.getD c 0 := by
  unfold sizeClassIndex at h
  obtain ⟨hlt, hle, _⟩ := List.findIdx?_eq_some_iff_getElem.1 h
  refine ⟨hlt, ?_⟩
  rw [List.getD_eq_getElem?_getD, List.getElem?_eq_getElem hlt]
  exact of_decide_eq_true hle

theorem sizeClassIndex_none (h : sizeClassIndex size = none) : pageSize < size := by
  have hall := List.findIdx?_eq_none_iff.1 h 4096 (by decide)
  exact Nat.lt_of_not_le (of_decide_eq_false hall)

theorem pagesFor_pos (h : sizeClassIndex size = none) : 0 < pagesFor size := by
  have hlt := sizeClassIndex_none h
  unfold pagesFor
  simp only [pageSize] at *
  omega

theorem Object.large_self (h : sizeClassIndex o.size = none) : o.Large (o.addr / pageSize) :=
  ⟨h, Nat.le_refl _, Nat.lt_add_of_pos_right (pagesFor_pos h)⟩

theorem Core.liveOn_free (h : Core s live F) (hp : s.free p = true) : liveOn live p = [] := by
  rw [List.eq_nil_iff_forall_not_mem]
  intro a ha
  obtain ⟨⟨o, ho, rfl⟩, hpage⟩ := mem_liveOn.1 ha
  cases hc : sizeClassIndex o.size with
  | none =>
    have hf := (h.large o ho p (hpage ▸ o.large_self hc)).1
    rw [hp] at hf
    cases hf
  | some c =>
    obtain ⟨i, hi, _, hip⟩ := h.small o ho c hc
    have hf := (h.ok i hi).taken
    rw [hip, hpage, hp] at hf
    cases hf

theorem Core.page_ne_free (h : Core s live F) (hi : s.Active i) (hp : s.free p = true) : s.page i ≠ p := by
  rintro rfl
  have hf := (h.ok i hi).taken
  rw [hp] at hf
  cases hf

/-! ## A page becomes a slab -/

/-- The slots of a new slab are linked in order, in front of what `head` leads to. -/
theorem buildFreeList_seg (virt size n : Nat) {head : Nat} {mem : Nat → Nat} {l : List Nat} (hsize : 0 < size)
    (hseg : Seg mem head l 0) (hout : ∀ m < n, virt + m * size ∉ l) :
    Seg (buildFreeList virt size n head mem).2 (buildFreeList virt size n head mem).1
        ((List.range n).map (fun m => virt + m * size) ++ l) 0 ∧
      ∀ a, (∀ m < n, a ≠ virt + m * size) → (buildFreeList virt size n head mem).2 a = mem a := by
  induction n generalizing head mem l with
  | zero => exact ⟨hseg, fun a _ => rfl⟩
  | succ n ih =>
    have hself := hout n (Nat.lt_succ_self n)
    have hseg' : Seg (Function.update mem (virt + n * size) head) (virt + n * size) ((virt + n * size) :: l) 0 := by
      refine ⟨rfl, ?_⟩
      rw [Function.update_self]
      refine hseg.congr fun a ha => ?_
      have hne : a ≠ virt + n * size := fun he => hself (he ▸ ha)
      exact Function.update_of_ne hne _ _
    have hout' : ∀ m < n, virt + m * size ∉ (virt + n * size) :: l := fun m hm hmem => by
      rcases List.mem_cons.1 hmem with he | hmem
      · have := Nat.eq_of_mul_eq_mul_right hsize (Nat.add_left_cancel he)
        omega
      · exact hout m (Nat.lt_succ_of_lt hm) hmem
    obtain ⟨hchain, hmem⟩ := ih hseg' hout'
    refine ⟨?_, fun a ha => ?_⟩
    · rw [List.range_succ, List.map_append, List.append_assoc]
      exact hchain
    · rw [buildFreeList, hmem a fun m hm => ha m (Nat.lt_succ_of_lt hm)]
      exact Function.update_of_ne (ha n (Nat.lt_succ_self n)) _ _

section Carve
variable (s : State) (c i p : Nat)

/-- The slots of a slab of cache `c` on page `p`. -/
def newSlots : List Nat :=
  (List.range (pageSize / (s.caches c).objectSize)).map fun m => p * pageSize + m * (s.caches c).objectSize

theorem carve_pool_of_ne (hj : j ≠ i) : (carve s c i p).pool j = s.pool j := Function.update_of_ne hj _ _

theorem carve_pool_self (hpages : (s.caches c).slabPages = 1) : ∃ head, (carve s c i p).pool i =
    { pagePhys := p * pageSize, pageVirt := p * pageSize, nextFree := head, inUse := 0,
      capacity := pageSize / (s.caches c).objectSize, active := true, cacheIdx := c, next := nullSlab,
      prev := nullSlab } := by
  unfold carve
  dsimp only
  rw [Function.update_self, hpages, Nat.one_mul]
  exact ⟨_, rfl⟩

theorem carve_free (hpages : (s.caches c).slabPages = 1) (q : Nat) :
    (carve s c i p).free q = if q = p then false else s.free q := by
  have hset : (carve s c i p).free q = if p ≤ q ∧ q < p + (s.caches c).slabPages then false else s.free q := rfl
  rw [hset, hpages]
  congr 1
  exact propext ⟨fun h => Nat.le_antisymm (Nat.lt_succ_iff.1 h.2) h.1,
    fun h => ⟨h ▸ Nat.le_refl _, h ▸ Nat.lt_succ_self _⟩⟩

theorem carve_active_iff : (carve s c i p).Active j ↔ (if j = i then i < maxSlabs else s.Active j) := by
  unfold State.Active
  split
  · next he =>
    rw [he]
    have hact : ((carve s c i p).pool i).active = true := by simp only [carve, Function.update_self]
    rw [hact, and_iff_left rfl]
  · next he => rw [carve_pool_of_ne s c i p he]

end Carve

theorem carve_chain (s : State) (i p : Nat) (hc : CachesOk s) (hlt : c < numSizeClasses) :
    Seg (carve s c i p).mem ((carve s c i p).pool i).nextFree (newSlots s c p) 0 ∧
      ∀ a, a / pageSize ≠ p → (carve s c i p).mem a = s.mem a := by
  have hpages := hc.pages c
  obtain ⟨h16, hdvd⟩ := sizeClasses_getD hlt
  rw [← hc.size c hlt] at h16 hdvd
  have hnil : Seg (fun a => if p * pageSize ≤ a ∧ a < p * pageSize + pageSize then 0 else s.mem a) 0 [] 0 := rfl
  have hfree := buildFreeList_seg (p * pageSize) (s.caches c).objectSize (pageSize / (s.caches c).objectSize)
    (by omega) hnil fun _ _ => List.not_mem_nil
  rw [List.append_nil] at hfree
  have hmem : (carve s c i p).mem = (buildFreeList (p * pageSize) (s.caches c).objectSize
      (pageSize / (s.caches c).objectSize) 0
      fun a => if p * pageSize ≤ a ∧ a < p * pageSize + pageSize then 0 else s.mem a).2 := by
    simp only [carve, hpages, Nat.one_mul]
  have hhead : ((carve s c i p).pool i).nextFree = (buildFreeList (p * pageSize) (s.caches c).objectSize
      (pageSize / (s.caches c).objectSize) 0
      fun a => if p * pageSize ≤ a ∧ a < p * pageSize + pageSize then 0 else s.mem a).1 := by
    simp only [carve, Function.update_self, hpages, Nat.one_mul]
  rw [hmem, hhead]
  refine ⟨hfree.1, fun a ha => ?_⟩
  have hoff : ¬ (p * pageSize ≤ a ∧ a < p * pageSize + pageSize) := fun h =>
    ha (Nat.div_eq_of_lt_le h.1 (by rw [Nat.succ_mul]; exact h.2))
  rw [hfree.2 a fun m hm he => hoff ?_, if_neg hoff]
  have hle := (Nat.mul_le_mul_right (s.caches c).objectSize hm).trans (Nat.div_mul_le_self pageSize _)
  rw [Nat.succ_mul] at hle
  omega

theorem Core.carve (h : Core s live F) (hi : ¬ s.Active i) (hlt : i < maxSlabs) (hc : c < numSizeClasses)
    (hp : s.free p = true) (hpos : 0 < p) :
    Core (carve s c i p) live (Function.update F i (newSlots s c p)) := by
  have hpages := h.caches.pages c
  obtain ⟨head, hself⟩ := carve_pool_self s c i p hpages
  have hfree := carve_free s c i p hpages
  have hother := fun j (hj : j ≠ i) => carve_pool_of_ne s c i p hj
  have hact : ∀ j, (SlabAlloc.carve s c i p).Active j → j ≠ i → s.Active j := fun j hj hji => by
    rw [carve_active_iff, if_neg hji] at hj
    exact hj
  have hact' : ∀ j, s.Active j → j ≠ i ∧ (SlabAlloc.carve s c i p).Active j := fun j hj => by
    have hji : j ≠ i := fun he => hi (he ▸ hj)
    refine ⟨hji, ?_⟩
    rw [carve_active_iff, if_neg hji]
    exact hj
  obtain ⟨hchain, hmem⟩ := carve_chain s i p h.caches hc
  have hpage : (SlabAlloc.carve s c i p).page i = p := by
    rw [State.page, hself]
    exact Nat.mul_div_cancel p (by decide)
  have hpage' : ∀ j, j ≠ i → (SlabAlloc.carve s c i p).page j = s.page j := fun j hj => by
    rw [State.page, hother j hj]
    rfl
  have hnil := h.liveOn_free hp
  refine ⟨⟨h.caches.size, h.caches.pages, h.caches.active⟩, fun j hj => ?_, fun j m hj hm hjm => ?_,
    fun o ho d hd => ?_, h.aligned, fun o ho q hq => ?_, h.apart⟩
  · by_cases hji : j = i
    · subst hji
      rw [Function.update_self]
      have hslots : (SlabAlloc.carve s c j p).slots j = newSlots s c p := by
        simp only [State.slots, hself, newSlots]
        rfl
      refine ⟨?_, ?_, ?_, ?_, ?_, ?_, hchain, ?_, ?_, ?_⟩
      · rw [hself]
        exact hc
      · rw [hself]
      · rw [hself]
        exact Nat.dvd_mul_left _ _
      · rw [hself]
        exact Nat.mul_pos hpos (by decide)
      · rw [hpage, hfree, if_pos rfl]
      · rw [hself]
        rfl
      · rw [hpage, hnil, List.append_nil, hslots]
      · rw [hpage, hnil, hself]
        rfl
      · intro o ho hop
        have hmem : o.addr ∈ liveOn live p := mem_liveOn.2 ⟨⟨o, ho, rfl⟩, hop.trans hpage⟩
        rw [hnil] at hmem
        cases hmem
    · have hj := hact j hj hji
      have hok := h.ok j hj
      have hne := h.page_ne_free hj hp
      rw [Function.update_of_ne hji]
      refine hok.frame ⟨_, _, hother j hji⟩ rfl ?_ (fun a ha => ?_) (.refl _) hok.sizes
      · rw [hfree, if_neg hne]
        exact hok.taken
      · exact hmem a fun he => hne ((hok.page_of_slot h.caches (hok.free_mem ha)).symm.trans he)
  · by_cases hji : j = i <;> by_cases hmi : m = i
    · rw [hji, hmi]
    · subst hji
      rw [hpage, hpage' m hmi] at hjm
      exact absurd hjm.symm (h.page_ne_free (hact m hm hmi) hp)
    · subst hmi
      rw [hpage, hpage' j hji] at hjm
      exact absurd hjm (h.page_ne_free (hact j hj hji) hp)
    · rw [hpage' j hji, hpage' m hmi] at hjm
      exact h.pages j m (hact j hj hji) (hact m hm hmi) hjm
  · obtain ⟨j, hj, hjc, hjp⟩ := h.small o ho d hd
    obtain ⟨hji, hj'⟩ := hact' j hj
    exact ⟨j, hj', (hother j hji).symm ▸ hjc, (hpage' j hji).trans hjp⟩
  · obtain ⟨hf, hne⟩ := h.large o ho q hq
    refine ⟨?_, fun j hj => ?_⟩
    · rw [hfree]
      split
      · rfl
      · exact hf
    · by_cases hji : j = i
      · subst hji
        rw [hpage]
        rintro rfl
        rw [hp] at hf
        cases hf
      · rw [hpage' j hji]
        exact hne j (hact j hj hji)

theorem Core.recount (h : Core s live F) (c n : Nat) :
    Core (s.modifyCache c fun k => { k with activeSlabs := n }) live F := by
  have hcache : ∀ d, ∃ m, (s.modifyCache c fun k => { k with activeSlabs := n }).caches d =
      { s.caches d with activeSlabs := m } := by
    intro d
    rw [State.caches_modifyCache]
    split
    · next he => exact ⟨n, by rw [he]⟩
    · exact ⟨_, rfl⟩
  refine ⟨⟨fun d hd => ?_, fun d => ?_, fun d => ?_⟩, fun i hi => ?_, h.pages, h.small, h.aligned, h.large, h.apart⟩
  · obtain ⟨m, hm⟩ := hcache d
    rw [hm]
    exact h.caches.size d hd
  · obtain ⟨m, hm⟩ := hcache d
    rw [hm]
    exact h.caches.pages d
  · obtain ⟨m, hm⟩ := hcache d
    rw [hm]
    exact h.caches.active d
  · have hok := h.ok i hi
    obtain ⟨m, hm⟩ := hcache (s.pool i).cacheIdx
    exact hok.frame ⟨_, _, rfl⟩ (by rw [hm]) hok.taken (fun _ _ => rfl) (.refl _) hok.sizes

theorem allocSlabMeta_some (h : allocSlabMeta s = some i) : i < maxSlabs ∧ ¬ s.Active i := by
  have hmem := List.mem_range.1 (List.mem_of_find?_eq_some h)
  have hnot := List.find?_some h
  refine ⟨hmem, fun hact => ?_⟩
  rw [hact.2] at hnot
  cases hnot

theorem growCache_good (h : Good s live L F none) (hc : c < numSizeClasses) (hp : s.free p = true) (hpos : 0 < p)
    (hmeta : allocSlabMeta s = some i) : ∃ s', growCache s c (some p) = (some i, s') ∧
      Good s' live (setList L c .partly (i :: L c .partly)) (Function.update F i (newSlots s c p)) (some i) ∧
      (∀ j, s'.Active j ↔ s.Active j ∨ j = i) ∧
      (∀ j, j ≠ i → (s'.pool j).capacity = (s.pool j).capacity) ∧
      (s'.pool i).capacity = pageSize / (s.caches c).objectSize := by
  obtain ⟨hlt, hi⟩ := allocSlabMeta_some hmeta
  have hnot : ∀ d w, i ∉ L d w := fun d w hm => hi (h.filed.on d w i hm).1
  have hcore := h.core.carve hi hlt hc hp hpos
  obtain ⟨head, hself⟩ := carve_pool_self s c i p (h.core.caches.pages c)
  have hother := fun j (hj : j ≠ i) => carve_pool_of_ne s c i p hj
  have hsame := addToList_same (carve s c i p) c .partly i
  have hshelved : Shelved (carve s c i p) L := by
    refine h.shelved.congr (fun j d w hj => ?_) (fun j d w hj => ?_) fun d w => rfl
    · rw [State.next, hother j fun he => hnot d w (he ▸ hj)]
      rfl
    · rw [State.prev, hother j fun he => hnot d w (he ▸ hj)]
      rfl
  have hin : i ≠ nullSlab := by
    rintro rfl
    exact absurd hlt (by decide)
  have hadd := hshelved.add hnot hin c .partly
  have hact : ∀ j, (addToList (carve s c i p) c .partly i).Active j ↔ s.Active j ∨ j = i := fun j => by
    rw [hsame.active_iff, carve_active_iff]
    by_cases hji : j = i
    · simp [hji, hlt]
    · simp [hji]
  have hcap : ∀ j, j ≠ i → ((addToList (carve s c i p) c .partly i).pool j).capacity = (s.pool j).capacity :=
    fun j hj => by rw [hsame.capacity_eq, hother j hj]
  have hcapi : ((addToList (carve s c i p) c .partly i).pool i).capacity = pageSize / (s.caches c).objectSize := by
    rw [hsame.capacity_eq, hself]
  have hmem : ∀ {j d w}, j ∈ setList L c .partly (i :: L c .partly) d w ↔
      j ∈ L d w ∨ j = i ∧ d = c ∧ w = .partly := by
    intro j d w
    unfold setList
    split
    · next he =>
      rw [he.1, he.2, List.mem_cons, or_comm]
      simp
    · next he => exact ⟨.inl, fun hj => hj.resolve_right fun hji => he hji.2⟩
  refine ⟨(addToList (carve s c i p) c .partly i).modifyCache c fun k => { k with activeSlabs := k.activeSlabs + 1 },
    ?_, ⟨(hcore.congr hsame).recount c _, ?_, ⟨fun d w j hj => ?_, fun j hj => ?_, fun d w j hj hne => ?_,
    fun d => ?_⟩⟩, hact, hcap, hcapi⟩
  · unfold growCache
    dsimp only
    rw [hmeta]
  · refine hadd.congr (fun _ _ _ _ => rfl) (fun _ _ _ _ => rfl) fun d w => ?_
    rw [State.head, State.caches_modifyCache]
    split
    · next he =>
      rw [he]
      rfl
    · rfl
  · rcases hmem.1 hj with hj | ⟨rfl, rfl, rfl⟩
    · obtain ⟨hj', hidx⟩ := h.filed.on d w j hj
      refine ⟨(hact j).2 (.inl hj'), (hsame.cacheIdx_eq j).trans ?_⟩
      rw [hother j fun he => hnot d w (he ▸ hj)]
      exact hidx
    · exact ⟨(hact j).2 (.inr rfl), (hsame.cacheIdx_eq j).trans (by rw [hself])⟩
  · have hidx : ((addToList (carve s c i p) c .partly i).pool j).cacheIdx = ((carve s c i p).pool j).cacheIdx :=
      hsame.cacheIdx_eq j
    rw [State.pool_modifyCache, hidx]
    by_cases hji : j = i
    · subst hji
      rw [hself]
      exact ⟨.partly, hmem.2 (.inr ⟨rfl, rfl, rfl⟩)⟩
    · rw [hother j hji]
      obtain ⟨w, hw⟩ := h.filed.off j (((hact j).1 hj).resolve_right hji)
      exact ⟨w, hmem.2 (.inl hw)⟩
  · have hji : j ≠ i := fun he => hne (he ▸ rfl)
    have hj := (hmem.1 hj).resolve_right fun he => hji he.1
    have hplaced := h.filed.placed d w j hj (by simp)
    have hpage : (addToList (carve s c i p) c .partly i).page j = s.page j := by
      rw [hsame.page_eq, State.page, hother j hji]
      rfl
    rw [Function.update_of_ne hji]
    refine ⟨hplaced.full, ?_, ?_⟩
    · intro hw
      obtain ⟨hnil, hone⟩ := hplaced.empty hw
      exact ⟨hpage ▸ hnil, (hcap j hji).symm ▸ hone⟩
    · intro hw hnil
      exact (hcap j hji).trans (hplaced.partly hw (hpage ▸ hnil))
  · have hcount := h.filed.count d
    have hslabs : ((carve s c i p).caches d).activeSlabs = (s.caches d).activeSlabs := rfl
    rw [State.caches_modifyCache]
    split
    · next he =>
      subst he
      dsimp only
      rw [hsame.activeSlabs_eq, setList_self, setList_of_ne fun hd => Shelf.noConfusion hd.2,
        setList_of_ne fun hd => Shelf.noConfusion hd.2, List.length_cons]
      omega
    · next he =>
      rw [hsame.activeSlabs_eq, setList_of_ne fun hd => he hd.1, setList_of_ne fun hd => he hd.1,
        setList_of_ne fun hd => he hd.1]
      exact hcount

/-! ## One object of a class -/

def Granted (s : State) (n : Nat) (page : Option Nat) : Prop :=
  ∀ p, page = some p → 0 < p ∧ ∀ q, p ≤ q → q < p + n → s.free q = true

theorem newSlots_ne_nil (hc : CachesOk s) (hlt : c < numSizeClasses) (p : Nat) : newSlots s c p ≠ [] := by
  obtain ⟨h16, hdvd⟩ := sizeClasses_getD hlt
  rw [← hc.size c hlt] at h16 hdvd
  have hpos : 0 < pageSize / (s.caches c).objectSize :=
    Nat.div_pos (Nat.le_of_dvd (by decide) hdvd) (Nat.lt_of_lt_of_le (by decide) h16)
  unfold newSlots
  rw [Ne, List.map_eq_nil_iff, List.range_eq_nil]
  omega

theorem capacity_eq_one_iff (hc : CachesOk s) (hlt : c < numSizeClasses) :
    pageSize / (s.caches c).objectSize = 1 ↔ c = 8 := by
  rw [hc.size c hlt]
  have h : ∀ c, c < 9 → (pageSize / sizeClasses.getD c 0 = 1 ↔ c = 8) := by decide
  exact h c hlt

def Refused (s : State) (page : Option Nat) : Prop := page = none ∨ allocSlabMeta s = none

/-- What an allocation does: it fails and changes nothing, or there is a new object. Only in the `last` class do slabs
have one slot, and an allocation there leaves such a slab behind, unless it is refused. -/
structure Allocated (s : State) (live : List Object) (last : Prop) (size : Nat) (page : Option Nat)
    (r : Option Nat × State) : Prop where
  failed : r.1 = none → r.2 = s
  good : ∀ a, r.1 = some a → ∃ L F, Good r.2 (⟨a, size⟩ :: live) L F none
  single : (last → Refused s page) → ∀ j, r.2.Single j ↔ s.Single j
  grows : ∀ j, s.Single j → r.2.Single j
  one : last → ¬ Refused s page → ∃ j, r.2.Single j

theorem Allocated.refl (s : State) (live : List Object) {last : Prop} (size : Nat) {page : Option Nat}
    (h : last → Refused s page) : Allocated s live last size page (none, s) :=
  ⟨fun _ => rfl, nofun, fun _ _ => Iff.rfl, fun _ hs => hs, fun hl hn => absurd (h hl) hn⟩

theorem Good.single_iff (h : Good s live L F k) (hi : i ∈ L c w) : s.Single i ↔ c = 8 := by
  obtain ⟨hact, hidx⟩ := h.filed.on c w i hi
  have hok := h.core.ok i hact
  rw [State.Single, and_iff_right hact, hok.capacity, hidx]
  exact capacity_eq_one_iff h.core.caches (hidx ▸ hok.cls)

theorem Allocated.of_slab (h : Good s live L F none) (hi : i ∈ L c w) (hsingle : ∀ j, s'.Single j ↔ s.Single j)
    (hgood : Good s' (⟨a, size⟩ :: live) L' F' none) (page : Option Nat) :
    Allocated s live (c = 8) size page (some a, s') where
  failed := nofun
  good b hb := by
    cases hb
    exact ⟨L', F', hgood⟩
  single _ := hsingle
  grows j := (hsingle j).2
  one hc _ := ⟨i, (hsingle i).2 ((h.single_iff hi).2 hc)⟩

theorem allocObject_allocated (h : Good s live L F none) (hcls : sizeClassIndex size = some c) {page : Option Nat}
    (hpage : Granted s 1 page) : Allocated s live (c = 8) size page (allocObject s c page) := by
  have hc := (sizeClassIndex_some hcls).1
  unfold allocObject
  split
  · next hpartly =>
    -- a slab with a free slot
    have hi := h.shelved.head_mem.resolve_left hpartly
    have hF : F (s.head c .partly) ≠ [] := fun hnil =>
      Shelf.noConfusion ((h.filed.placed c .partly _ hi (by simp)).full.2 hnil)
    obtain ⟨s', L', F', heq, hgood, hsingle⟩ :=
      allocFromSlab_good (o := ⟨(s.pool (s.head c .partly)).nextFree, size⟩) (h.loosen _) hi hF hcls rfl
    rw [heq]
    exact .of_slab h hi hsingle hgood page
  · next hpartly =>
    split
    · next hempty =>
      -- the first empty slab, put on the partial list
      have hi := h.shelved.head_mem.resolve_left hempty
      have hF : F (s.head c .empty) ≠ [] := fun hnil =>
        Shelf.noConfusion ((h.filed.placed c .empty _ hi (by simp)).full.2 hnil)
      have hmove := (h.loosen (some (s.head c .empty))).move hi Shelf.partly (by simp)
      have hi' := (mem_moved_self h.shelved hi Shelf.partly).2 ⟨rfl, rfl⟩
      have hsame := (removeFromList_same s c .empty (s.head c .empty)).trans
        (addToList_same _ c .partly (s.head c .empty))
      obtain ⟨s', L', F', heq, hgood, hsingle⟩ := allocFromSlab_good
        (o := ⟨_, size⟩) hmove hi' hF hcls rfl
      dsimp only
      rw [heq]
      exact .of_slab h hi (fun j => (hsingle j).trans hsame.single_iff) hgood page
    · next hempty =>
      -- a new slab
      by_cases hr : Refused s page
      · have hfail : growCache s c page = (none, s) := by
          unfold growCache
          cases page with
          | none => rfl
          | some p =>
            dsimp only
            rw [hr.resolve_left (Option.some_ne_none p)]
        rw [hfail]
        exact .refl s live size fun _ => hr
      · rw [Refused, not_or] at hr
        obtain ⟨p, rfl⟩ := Option.ne_none_iff_exists'.1 hr.1
        obtain ⟨i, hmeta⟩ := Option.ne_none_iff_exists'.1 hr.2
        obtain ⟨hpos, hfree⟩ := hpage p rfl
        have hp := hfree p (Nat.le_refl p) (Nat.lt_succ_self p)
        obtain ⟨s₁, heq₁, hgood₁, hact, hcap, hcapi⟩ := growCache_good h hc hp hpos hmeta
        have hi : i ∈ setList L c .partly (i :: L c .partly) c .partly := by
          rw [setList_self]
          exact List.mem_cons_self
        have hF : Function.update F i (newSlots s c p) i ≠ [] := by
          rw [Function.update_self]
          exact newSlots_ne_nil h.core.caches hc p
        obtain ⟨s', L', F', heq, hgood, hsingle⟩ :=
          allocFromSlab_good (o := ⟨(s₁.pool i).nextFree, size⟩) hgood₁ hi hF hcls rfl
        rw [heq₁]
        dsimp only
        rw [heq]
        have hni := (allocSlabMeta_some hmeta).2
        have hone : s'.Single i ↔ c = 8 := (hsingle i).trans (hgood₁.single_iff hi)
        have hold : ∀ j, j ≠ i → (s'.Single j ↔ s.Single j) := fun j hji => by
          rw [hsingle, State.Single, State.Single, hact, hcap j hji, or_iff_left hji]
        refine ⟨fun hnone => absurd hnone (Option.some_ne_none _), fun a ha => ?_, fun hs j => ?_, fun j hs => ?_,
          fun hc8 _ => ⟨i, hone.2 hc8⟩⟩
        · cases ha
          exact ⟨L', F', hgood⟩
        · by_cases hji : j = i
          · subst hji
            have h8 : c ≠ 8 := fun h8 => hr.elim fun h1 h2 => (hs h8).elim h1 h2
            exact iff_of_false (fun hsj => h8 (hone.1 hsj)) fun hsj => hni hsj.1
          · exact hold j hji
        · exact (hold j fun he => hni (he ▸ hs.1)).2 hs

theorem Core.contains_iff (h : Core s live F) (hi : s.Active i) (a : Nat) :
    (s.pool i).contains pageSize a = true ↔ s.page i = a / pageSize := by
  have hok := h.ok i hi
  obtain ⟨q, hq⟩ := hok.aligned
  have hpage : s.page i = q := by
    rw [State.page, hq]
    exact Nat.mul_div_cancel_left q (by decide)
  rw [Slab.contains, hok.virt, hq, hpage, Bool.and_eq_true, decide_eq_true_eq, decide_eq_true_eq]
  simp only [pageSize]
  omega

theorem findSlab_eq (h : Good s live L F none) (hi : i ∈ L c w) (hpage : s.page i = a / pageSize) :
    findSlab s c a = some (some i) := by
  have hact := (h.filed.on c w i hi).1
  have hfind : ∀ v, (L c v).find? (fun j => (s.pool j).contains pageSize a) = if v = w then some i else none := by
    intro v
    have hiff : ∀ j ∈ L c v, (s.pool j).contains pageSize a = true → j = i := fun j hj hc => by
      have hactj := (h.filed.on c v j hj).1
      exact h.core.pages j i hactj hact (((h.core.contains_iff hactj a).1 hc).trans hpage.symm)
    split
    · next he =>
      subst he
      cases hres : (L c v).find? (fun j => (s.pool j).contains pageSize a) with
      | none => exact absurd ((h.core.contains_iff hact a).2 hpage) (List.find?_eq_none.1 hres i hi)
      | some j =>
        have hfound := List.find?_some (p := fun j => (s.pool j).contains pageSize a) hres
        rw [hiff j (List.mem_of_find?_eq_some hres) hfound]
    · next hne =>
      refine List.find?_eq_none.2 fun j hj hc => hne ?_
      rw [hiff j hj hc] at hj
      exact (h.shelved.apart hi hj).2
  have hsearch : ∀ v, search s.next nullSlab (fun j => (s.pool j).contains ((s.caches c).slabPages * pageSize) a) fuel
      (s.head c v) = some (if v = w then some i else none) := fun v => by
    have hthr := h.shelved.threaded c v
    rw [h.core.caches.pages, Nat.one_mul, search_seg hthr.seg hthr.no_null (h.length_lt c v), hfind]
  unfold findSlab
  dsimp only
  rw [hsearch, hsearch, hsearch]
  cases w <;> rfl

theorem freeObject_good (h : Good s live L F none) (ho : o ∈ live) (hcls : sizeClassIndex o.size = some c) :
    ∃ s' L' F', freeObject s c o.addr = some s' ∧ Good s' (live.erase o) L' F' none ∧
      ∀ j, s'.Single j ↔ s.Single j := by
  obtain ⟨i, hact, hidx, hpage⟩ := h.core.small o ho c hcls
  obtain ⟨w, hi⟩ := h.filed.off i hact
  rw [hidx] at hi
  obtain ⟨s', L', F', hs', hgood, hsingle⟩ := freeToSlab_good h hi ho hpage.symm
  refine ⟨s', L', F', ?_, hgood, hsingle⟩
  unfold freeObject
  rw [findSlab_eq h hi hpage]
  exact hs'

/-! ## Whole pages -/

/-- Other objects, and another answer of the page allocator, where the slabs see no difference. -/
theorem Good.reframe (h : Good s live L F none) (free : Nat → Bool)
    (hon : ∀ i, s.Active i → (liveOn live' (s.page i)).Perm (liveOn live (s.page i)))
    (hfree : ∀ i, s.Active i → free (s.page i) = false)
    (hsmall : ∀ o ∈ live', ∀ c, sizeClassIndex o.size = some c → o ∈ live)
    (hlarge : ∀ o ∈ live', sizeClassIndex o.size = none → pageSize ∣ o.addr ∧
      ∀ p, o.Large p → free p = false ∧ ∀ i, s.Active i → s.page i ≠ p)
    (hapart : live'.Pairwise fun o o' => ∀ p, o.Large p → ¬ o'.Large p) : Good { s with free } live' L F none := by
  have hcore := h.core
  refine ⟨⟨⟨hcore.caches.size, hcore.caches.pages, hcore.caches.active⟩, fun i hi => ?_, hcore.pages,
    fun o ho c hc => hcore.small o (hsmall o ho c hc) c hc, fun o ho hc => (hlarge o ho hc).1,
    fun o ho p hp => (hlarge o ho hp.1).2 p hp, hapart⟩, ⟨h.shelved.threaded, h.shelved.apart⟩,
    ⟨h.filed.on, h.filed.off, fun c w i hi hk => ?_, h.filed.count⟩⟩
  · have hok := hcore.ok i hi
    refine hok.frame ⟨_, _, rfl⟩ rfl (hfree i hi) (fun _ _ => rfl) (hon i hi) fun o ho hp => ?_
    cases hc : sizeClassIndex o.size with
    | some c => exact hc.symm.trans (hok.sizes o (hsmall o ho c hc) hp)
    | none => exact absurd hp.symm (((hlarge o ho hc).2 _ (o.large_self hc)).2 i hi)
  · have hp := h.filed.placed c w i hi hk
    have hnil : liveOn live' (s.page i) = [] ↔ liveOn live (s.page i) = [] := by
      rw [← List.length_eq_zero_iff, ← List.length_eq_zero_iff, (hon i (h.filed.on c w i hi).1).length_eq]
    exact ⟨hp.full, fun hw => ⟨hnil.2 (hp.empty hw).1, (hp.empty hw).2⟩, fun hw hn => hp.partly hw (hnil.1 hn)⟩

theorem Good.takePages (h : Good s live L F none) (hcls : sizeClassIndex size = none)
    (hfree : ∀ q, p ≤ q → q < p + pagesFor size → s.free q = true) :
    Good (s.setPages p (pagesFor size) false) (⟨p * pageSize, size⟩ :: live) L F none := by
  have hdiv : (p * pageSize) / pageSize = p := Nat.mul_div_cancel p (by decide)
  have hne : ∀ i q, s.Active i → p ≤ q → q < p + pagesFor size → s.page i ≠ q := fun i q hi h1 h2 =>
    h.core.page_ne_free hi (hfree q h1 h2)
  refine h.reframe _ (fun i hi => ?_) (fun i hi => ?_) (fun o ho c hc => ?_) (fun o ho hc => ?_) ?_
  · rw [liveOn_cons_of_ne live fun he => hne i p hi (Nat.le_refl p)
      (Nat.lt_add_of_pos_right (pagesFor_pos hcls)) (he.symm.trans hdiv)]
  · split
    · rfl
    · exact (h.core.ok i hi).taken
  · rcases List.mem_cons.1 ho with rfl | ho
    · rw [hcls] at hc
      cases hc
    · exact ho
  · rcases List.mem_cons.1 ho with rfl | ho
    · refine ⟨Nat.dvd_mul_left _ _, fun q hq => ?_⟩
      obtain ⟨_, h1, h2⟩ := hq
      dsimp only at h1 h2 ⊢
      rw [hdiv] at h1 h2
      exact ⟨if_pos ⟨h1, h2⟩, fun i hi => hne i q hi h1 h2⟩
    · refine ⟨h.core.aligned o ho hc, fun q hq => ?_⟩
      obtain ⟨hf, hpages⟩ := h.core.large o ho q hq
      refine ⟨?_, hpages⟩
      split
      · rfl
      · exact hf
  · refine List.pairwise_cons.2 ⟨fun o ho q hq hoq => ?_, h.core.apart⟩
    obtain ⟨_, h1, h2⟩ := hq
    dsimp only at h1 h2
    rw [hdiv] at h1 h2
    have hf := (h.core.large o ho q hoq).1
    rw [hfree q h1 h2] at hf
    cases hf

theorem Good.givePages (h : Good s live L F none) (ho : o ∈ live) (hcls : sizeClassIndex o.size = none) :
    Good (s.setPages (o.addr / pageSize) (pagesFor o.size) true) (live.erase o) L F none := by
  have hrange : ∀ q, o.addr / pageSize ≤ q ∧ q < o.addr / pageSize + pagesFor o.size ↔ o.Large q := fun q =>
    ⟨fun hq => ⟨hcls, hq⟩, And.right⟩
  have hsym : ∀ o₁ o₂ : Object, (∀ p, o₁.Large p → ¬ o₂.Large p) → ∀ p, o₂.Large p → ¬ o₁.Large p :=
    fun o₁ o₂ h p h₂ h₁ => h p h₁ h₂
  have hpair := ((List.perm_cons_erase ho).pairwise_iff (fun {o₁ o₂} => hsym o₁ o₂)).1 h.core.apart
  refine h.reframe _ (fun i hi => ?_) (fun i hi => ?_) (fun o' ho' c hc => List.mem_of_mem_erase ho')
    (fun o' ho' hc => ⟨h.core.aligned o' (List.mem_of_mem_erase ho') hc, fun q hq => ?_⟩)
    (List.pairwise_cons.1 hpair).2
  · exact liveOn_erase_of_ne ho fun he => (h.core.large o ho _ (o.large_self hcls)).2 i hi he.symm
  · rw [if_neg fun hq => (h.core.large o ho _ ((hrange _).1 hq)).2 i hi rfl]
    exact (h.core.ok i hi).taken
  · obtain ⟨hf, hpages⟩ := h.core.large o' (List.mem_of_mem_erase ho') q hq
    refine ⟨?_, hpages⟩
    rw [if_neg fun hoq => (List.pairwise_cons.1 hpair).1 o' ho' q ((hrange q).1 hoq) hq]
    exact hf

/-! ## The calls -/

theorem kfree_good (h : Good s live L F none) (ho : o ∈ live) : ∃ s' L' F', kfree s o.addr o.size = some s' ∧
    Good s' (live.erase o) L' F' none ∧ ∀ j, s'.Single j ↔ s.Single j := by
  unfold kfree
  cases hc : sizeClassIndex o.size with
  | some c => exact freeObject_good h ho hc
  | none => exact ⟨_, L, F, rfl, h.givePages ho hc, fun _ => Iff.rfl⟩

/-- A call of `kmalloc` fails and changes nothing, or there is a new object. -/
theorem kmalloc_allocated (h : Good s live L F none) {page : Option Nat} (hpage : Granted s (pagesFor size) page) :
    Allocated s live (sizeClassIndex size = some 8) size page (kmalloc s size page) := by
  unfold kmalloc
  split
  · next hsize =>
    refine .refl s live size fun h8 => ?_
    rw [hsize] at h8
    exact absurd h8 (by decide)
  · next hsize =>
    cases hc : sizeClassIndex size with
    | some c =>
      obtain ⟨hlt, hle⟩ := sizeClassIndex_some hc
      have hone : 1 ≤ pagesFor size := by
        unfold pagesFor
        simp only [pageSize]
        omega
      rw [Option.some.injEq]
      exact allocObject_allocated h hc fun p hp =>
        ⟨(hpage p hp).1, fun q h1 h2 => (hpage p hp).2 q h1 (Nat.lt_of_lt_of_le h2 (Nat.add_le_add_left hone p))⟩
    | none =>
      cases page with
      | none => exact .refl s live size (by simp)
      | some p =>
        refine ⟨fun hnone => absurd hnone (Option.some_ne_none _), fun a ha => ?_, fun _ _ => Iff.rfl, fun _ hs => hs,
          by simp⟩
        cases ha
        exact ⟨L, F, h.takePages hc (hpage p rfl).2⟩

/-! ## `shrink` -/

/-- The empty slabs of the caches in `cs` went back, and nothing else changed. -/
structure Shrunk (s s' : State) (L L' : Nat → Shelf → List Nat) (cs : List Nat) : Prop where
  page : ∀ j, s'.page j = s.page j
  single : ∀ j, s'.Single j ↔ s.Single j
  kept : ∀ q, s.free q = true → s'.free q = true
  freed : ∀ c ∈ cs, ∀ j ∈ L c .empty, s'.free (s.page j) = true
  empty : ∀ c ∈ cs, L' c .empty = []
  rest : ∀ c w, w ≠ .empty ∨ c ∉ cs → L' c w = L c w

theorem shrinkList_good {n : Nat} (h : Good s live L F none) (hn : (L c .empty).length < n) :
    ∃ s' L', shrinkList c n (s.head c .empty) s = some s' ∧ Good s' live L' F none ∧ Shrunk s s' L L' [c] := by
  induction n generalizing s L with
  | zero => exact absurd hn (Nat.not_lt_zero _)
  | succ n ih =>
    have hthr := h.shelved.threaded c .empty
    cases hl : L c .empty with
    | nil =>
      refine ⟨s, L, ?_, h, ⟨fun _ => rfl, fun _ => Iff.rfl, fun _ hq => hq, fun d hd j hj => ?_, fun d hd => ?_,
        fun _ _ _ => rfl⟩⟩
      · rw [shrinkList, if_pos (hthr.head_eq_null_iff.2 hl)]
      · rw [List.mem_singleton.1 hd, hl] at hj
        cases hj
      · rw [List.mem_singleton.1 hd, hl]
    | cons i l =>
      have hhead : s.head c .empty = i := by rw [hthr.head_eq, hl]; rfl
      have hi : i ∈ L c .empty := hl ▸ List.mem_cons_self
      have hnext : s.next i = l.headD nullSlab := by
        have hlinks := hthr.links
        rw [hl] at hlinks
        exact hlinks.2.1
      have herase : (L c .empty).erase i = l := by rw [hl, List.erase_cons_head]
      have hgood := h.release hi
      have hself : setList L c .empty ((L c .empty).erase i) c .empty = l := by rw [setList_self, herase]
      have hhead' : (releaseSlab s c i).head c .empty = s.next i := by
        rw [(hgood.shelved.threaded c .empty).head_eq, hself, hnext]
      rw [hl, List.length_cons] at hn
      obtain ⟨s', L', hs', hgood', hsh⟩ := ih hgood (by rw [hself]; exact Nat.lt_of_succ_lt_succ hn)
      have hfree := releaseSlab_free h.core.caches c i
      have hpage := releaseSlab_page s c i
      refine ⟨s', L', ?_, hgood', ⟨fun j => (hsh.page j).trans (hpage j),
        fun j => (hsh.single j).trans (h.release_single hi), fun q hq => hsh.kept q ?_, fun d hd j hj => ?_, hsh.empty,
        fun d w hdw => (hsh.rest d w hdw).trans (setList_of_ne fun he => ?_)⟩⟩
      · rw [hhead, shrinkList, if_neg (h.shelved.ne_null hi), ← hhead']
        exact hs'
      · rw [hfree]
        split
        · rfl
        · exact hq
      · obtain rfl := List.mem_singleton.1 hd
        rw [hl] at hj
        rcases List.mem_cons.1 hj with rfl | hj
        · exact hsh.kept _ (by rw [hfree, if_pos rfl])
        · rw [← hpage]
          exact hsh.freed d hd j (by rw [hself]; exact hj)
      · exact hdw.elim (fun hw => hw he.2) fun hc => hc (he.1 ▸ List.mem_singleton_self c)

theorem Shrunk.trans {t : State} {M : Nat → Shelf → List Nat} {cs : List Nat} (h : Shrunk s s' L L' [c])
    (h' : Shrunk s' t L' M cs) : Shrunk s t L M (c :: cs) where
  page j := (h'.page j).trans (h.page j)
  single j := (h'.single j).trans (h.single j)
  kept q hq := h'.kept q (h.kept q hq)
  freed d hd j hj := by
    by_cases hdc : d = c
    · subst hdc
      exact h'.kept _ (h.freed d (List.mem_singleton_self d) j hj)
    · rw [← h.page]
      refine h'.freed d ((List.mem_cons.1 hd).resolve_left hdc) j ?_
      rw [h.rest d .empty (.inr fun hm => hdc (List.mem_singleton.1 hm))]
      exact hj
  empty d hd := by
    by_cases hm : d ∈ cs
    · exact h'.empty d hm
    · rw [h'.rest d .empty (.inr hm)]
      exact h.empty d (List.mem_singleton.2 ((List.mem_cons.1 hd).resolve_right hm))
  rest d w hdw := by
    have hleft : w ≠ .empty ∨ d ∉ cs := hdw.imp_right fun hm hd => hm (List.mem_cons_of_mem c hd)
    have hright : w ≠ .empty ∨ d ∉ [c] := hdw.imp_right fun hm hd => hm (List.mem_singleton.1 hd ▸ List.mem_cons_self)
    rw [h'.rest d w hleft, h.rest d w hright]

theorem Good.no_slab (h : Good s live L F none) (hc : ¬ c < numSizeClasses) (w : Shelf) : L c w = [] := by
  rw [List.eq_nil_iff_forall_not_mem]
  intro i hi
  obtain ⟨hact, rfl⟩ := h.filed.on c w i hi
  exact hc (h.core.ok i hact).cls

theorem shrinkCaches_good (cs : List Nat) (h : Good s live L F none) :
    ∃ s' L', shrinkCaches cs s = some s' ∧ Good s' live L' F none ∧ Shrunk s s' L L' cs := by
  induction cs generalizing s L with
  | nil =>
    exact ⟨s, L, rfl, h, ⟨fun _ => rfl, fun _ => Iff.rfl, fun _ hq => hq, nofun, nofun, fun _ _ _ => rfl⟩⟩
  | cons c cs ih =>
    rw [shrinkCaches, h.core.caches.active]
    by_cases hc : c < numSizeClasses
    · obtain ⟨s₁, L₁, hs₁, hgood₁, hsh₁⟩ := shrinkList_good h (h.length_lt c .empty)
      obtain ⟨s₂, L₂, hs₂, hgood₂, hsh₂⟩ := ih hgood₁
      refine ⟨s₂, L₂, ?_, hgood₂, hsh₁.trans hsh₂⟩
      rw [if_pos (decide_eq_true hc), hs₁]
      exact hs₂
    · obtain ⟨s₂, L₂, hs₂, hgood₂, hsh₂⟩ := ih h
      have hsh₁ : Shrunk s s L L [c] := by
        refine ⟨fun _ => rfl, fun _ => Iff.rfl, fun _ hq => hq, fun d hd j hj => ?_, fun d hd => ?_, fun _ _ _ => rfl⟩
        · rw [List.mem_singleton.1 hd, h.no_slab hc] at hj
          cases hj
        · rw [List.mem_singleton.1 hd, h.no_slab hc]
      refine ⟨s₂, L₂, ?_, hgood₂, hsh₁.trans hsh₂⟩
      rw [if_neg (by rwa [decide_eq_true_eq])]
      exact hs₂

theorem shrink_good (h : Good s live L F none) : ∃ s' L', shrink s = some s' ∧ Good s' live L' F none ∧
    Shrunk s s' L L' (List.range maxCaches) :=
  shrinkCaches_good _ h

end Zigix.SlabAlloc
