import Mathlib.Data.List.Perm.Basic
import Mathlib.Data.List.Infix
import Zigix.Mm.SlabLists

/-!
# What the slab allocator keeps

`live` are the objects that callers hold, `F i` is the free list of slab `i`, `L c w` are the lists of cache `c`.

* `Good` : all of it.
-/

namespace Zigix.SlabAlloc

open Chains (Seg Threaded search)

structure Object where
  addr : Nat
  size : Nat
  deriving DecidableEq

variable {s s' : State} {live live' : List Object} {L L' : Nat → Shelf → List Nat} {F F' : Nat → List Nat}
  {f : List Nat} {c i j p : Nat} {w w' : Shelf} {o : Object} {k : Option Nat}

/-! ## Slots and pages -/

/-- Slab `i` is in use by a cache. -/
def State.Active (s : State) (i : Nat) : Prop := i < maxSlabs ∧ (s.pool i).active = true

/-- The page of slab `i`. -/
def State.page (s : State) (i : Nat) : Nat := (s.pool i).pagePhys / pageSize

/-- The addresses of the slots of slab `i`. -/
def State.slots (s : State) (i : Nat) : List Nat :=
  (List.range (s.pool i).capacity).map fun k => (s.pool i).pageVirt + k * (s.caches (s.pool i).cacheIdx).objectSize

/-- The addresses of the live objects on page `p`. -/
def liveOn (live : List Object) (p : Nat) : List Nat := (live.map Object.addr).filter fun a => a / pageSize = p

/-- Object `o` has page `p` to itself. -/
def Object.Large (o : Object) (p : Nat) : Prop :=
  sizeClassIndex o.size = none ∧ o.addr / pageSize ≤ p ∧ p < o.addr / pageSize + pagesFor o.size

/-- The caches are as `init` left them, but for their lists and counters. -/
structure CachesOk (s : State) : Prop where
  size : ∀ c, c < numSizeClasses → (s.caches c).objectSize = sizeClasses.getD c 0
  pages : ∀ c, (s.caches c).slabPages = 1
  active : ∀ c, (s.caches c).active = decide (c < numSizeClasses)

/-- A slab whose slots are its free list `f` and its live objects. -/
structure SlabOk (s : State) (live : List Object) (f : List Nat) (i : Nat) : Prop where
  cls : (s.pool i).cacheIdx < numSizeClasses
  virt : (s.pool i).pageVirt = (s.pool i).pagePhys
  aligned : pageSize ∣ (s.pool i).pagePhys
  pos : 0 < (s.pool i).pagePhys
  taken : s.free (s.page i) = false
  capacity : (s.pool i).capacity = pageSize / (s.caches (s.pool i).cacheIdx).objectSize
  chain : Seg s.mem (s.pool i).nextFree f 0
  slots : (f ++ liveOn live (s.page i)).Perm (s.slots i)
  count : (s.pool i).inUse = (liveOn live (s.page i)).length
  sizes : ∀ o ∈ live, o.addr / pageSize = s.page i → sizeClassIndex o.size = some (s.pool i).cacheIdx

structure Core (s : State) (live : List Object) (F : Nat → List Nat) : Prop where
  caches : CachesOk s
  ok : ∀ i, s.Active i → SlabOk s live (F i) i
  pages : ∀ i j, s.Active i → s.Active j → s.page i = s.page j → i = j
  small : ∀ o ∈ live, ∀ c, sizeClassIndex o.size = some c →
    ∃ i, s.Active i ∧ (s.pool i).cacheIdx = c ∧ s.page i = o.addr / pageSize
  aligned : ∀ o ∈ live, sizeClassIndex o.size = none → pageSize ∣ o.addr
  large : ∀ o ∈ live, ∀ p, o.Large p → s.free p = false ∧ ∀ i, s.Active i → s.page i ≠ p
  apart : live.Pairwise fun o o' => ∀ p, o.Large p → ¬ o'.Large p

theorem sizeClasses_getD (hc : c < numSizeClasses) :
    16 ≤ sizeClasses.getD c 0 ∧ sizeClasses.getD c 0 ∣ pageSize := by
  have h : ∀ c, c < 9 → 16 ≤ sizeClasses.getD c 0 ∧ sizeClasses.getD c 0 ∣ pageSize := by decide
  exact h c hc

section SlabOk

theorem SlabOk.size (hc : CachesOk s) (h : SlabOk s live f i) :
    16 ≤ (s.caches (s.pool i).cacheIdx).objectSize ∧ (s.caches (s.pool i).cacheIdx).objectSize ∣ pageSize := by
  rw [hc.size _ h.cls]
  exact sizeClasses_getD h.cls

theorem SlabOk.capacity_pos (hc : CachesOk s) (h : SlabOk s live f i) : 0 < (s.pool i).capacity := by
  rw [h.capacity]
  exact Nat.div_pos (Nat.le_of_dvd (by decide) (h.size hc).2) (Nat.lt_of_lt_of_le (by decide) (h.size hc).1)

theorem SlabOk.mem_slots (h : SlabOk s live f i) {a : Nat} (ha : a ∈ s.slots i) :
    s.page i * pageSize ≤ a ∧
      a + (s.caches (s.pool i).cacheIdx).objectSize ≤ (s.page i + 1) * pageSize ∧ 0 < a := by
  obtain ⟨k, hk, rfl⟩ := List.mem_map.1 ha
  rw [List.mem_range, h.capacity] at hk
  obtain ⟨q, hq⟩ := h.aligned
  have hpos := h.pos
  have hpage : s.page i = q := by
    rw [State.page, hq]
    exact Nat.mul_div_cancel_left q (by decide)
  rw [h.virt, hpage, hq]
  generalize (s.caches (s.pool i).cacheIdx).objectSize = size at hk
  have hle : (k + 1) * size ≤ pageSize := (Nat.mul_le_mul_right size hk).trans (Nat.div_mul_le_self _ _)
  rw [Nat.add_mul] at hle
  rw [hq] at hpos
  simp only [pageSize] at *
  omega

theorem SlabOk.page_of_slot (hc : CachesOk s) (h : SlabOk s live f i) {a : Nat} (ha : a ∈ s.slots i) :
    a / pageSize = s.page i := by
  have hm := h.mem_slots ha
  have h16 := (h.size hc).1
  refine Nat.div_eq_of_lt_le hm.1 ?_
  omega

theorem SlabOk.nodup_slots (hc : CachesOk s) (h : SlabOk s live f i) : (s.slots i).Nodup := by
  have h16 := (h.size hc).1
  refine (List.nodup_range).map fun a b hab => ?_
  exact Nat.eq_of_mul_eq_mul_right (by omega) (Nat.add_left_cancel hab)

theorem slots_apart {a b : Nat} (ha : a ∈ s.slots i) (hb : b ∈ s.slots i)
    (hne : a ≠ b) : a + (s.caches (s.pool i).cacheIdx).objectSize ≤ b ∨
      b + (s.caches (s.pool i).cacheIdx).objectSize ≤ a := by
  obtain ⟨k, _, rfl⟩ := List.mem_map.1 ha
  obtain ⟨m, _, rfl⟩ := List.mem_map.1 hb
  generalize (s.caches (s.pool i).cacheIdx).objectSize = size at hne ⊢
  rcases Nat.lt_trichotomy k m with hlt | rfl | hlt
  · have := Nat.mul_le_mul_right size (Nat.succ_le_of_lt hlt)
    rw [Nat.succ_mul] at this
    omega
  · exact absurd rfl hne
  · have := Nat.mul_le_mul_right size (Nat.succ_le_of_lt hlt)
    rw [Nat.succ_mul] at this
    omega

theorem SlabOk.free_mem (h : SlabOk s live f i) {a : Nat} (ha : a ∈ f) : a ∈ s.slots i :=
  h.slots.subset (List.mem_append_left _ ha)

theorem SlabOk.live_mem (h : SlabOk s live f i) {a : Nat} (ha : a ∈ liveOn live (s.page i)) : a ∈ s.slots i :=
  h.slots.subset (List.mem_append_right _ ha)

theorem SlabOk.nodup (hc : CachesOk s) (h : SlabOk s live f i) : (f ++ liveOn live (s.page i)).Nodup :=
  h.slots.nodup_iff.2 (h.nodup_slots hc)

theorem SlabOk.length (h : SlabOk s live f i) :
    f.length + (liveOn live (s.page i)).length = (s.pool i).capacity := by
  have hlen := h.slots.length_eq
  rwa [List.length_append, State.slots, List.length_map, List.length_range] at hlen

theorem SlabOk.full_iff (h : SlabOk s live f i) : (s.pool i).inUse = (s.pool i).capacity ↔ f = [] := by
  have hlen := h.length
  rw [h.count, ← List.length_eq_zero_iff]
  omega

theorem SlabOk.nextFree_eq_zero_iff (h : SlabOk s live f i) : (s.pool i).nextFree = 0 ↔ f = [] := by
  have hchain := h.chain
  cases f with
  | nil => exact ⟨fun _ => rfl, fun _ => hchain⟩
  | cons a f =>
    have ha := (h.mem_slots (h.free_mem List.mem_cons_self)).2.2
    rw [hchain.1]
    constructor
    · intro h0
      omega
    · intro h0
      cases h0

end SlabOk

theorem mem_liveOn {a : Nat} : a ∈ liveOn live p ↔ (∃ o ∈ live, o.addr = a) ∧ a / pageSize = p := by
  rw [liveOn, List.mem_filter, List.mem_map, decide_eq_true_eq]

theorem liveOn_cons (o : Object) (live : List Object) (p : Nat) :
    liveOn (o :: live) p = if o.addr / pageSize = p then o.addr :: liveOn live p else liveOn live p := by
  unfold liveOn
  rw [List.map_cons, List.filter_cons]
  split <;> simp_all

/-- Nothing that a slab depends on changed, but for the links of the lists. -/
theorem SlabOk.frame (h : SlabOk s live f i) (hp : ∃ n q, s'.pool i = { s.pool i with next := n, prev := q })
    (hsize : (s'.caches (s.pool i).cacheIdx).objectSize = (s.caches (s.pool i).cacheIdx).objectSize)
    (hfree : s'.free (s.page i) = false) (hm : ∀ a ∈ f, s'.mem a = s.mem a)
    (hl : (liveOn live' (s.page i)).Perm (liveOn live (s.page i)))
    (hsz : ∀ o ∈ live', o.addr / pageSize = s.page i → sizeClassIndex o.size = some (s.pool i).cacheIdx) :
    SlabOk s' live' f i := by
  obtain ⟨n, q, hp⟩ := hp
  have hpage : s'.page i = s.page i := by rw [State.page, hp]; rfl
  have hslots : s'.slots i = s.slots i := by
    simp only [State.slots, hp, hsize]
  refine ⟨?_, ?_, ?_, ?_, ?_, ?_, ?_, ?_, ?_, ?_⟩
  · rw [hp]; exact h.cls
  · rw [hp]; exact h.virt
  · rw [hp]; exact h.aligned
  · rw [hp]; exact h.pos
  · rw [hpage]; exact hfree
  · rw [hp]; exact h.capacity.trans (by rw [← hsize])
  · rw [hp]; exact h.chain.congr hm
  · rw [hpage, hslots]; exact (hl.append_left f).trans h.slots
  · rw [hpage, hp, hl.length_eq]; exact h.count
  · rw [hpage, hp]; exact hsz

/-! ## The list a slab is on -/

/-- How full a slab on shelf `w` is. A slab of one slot is never on the empty list. -/
structure Placed (s : State) (live : List Object) (f : List Nat) (w : Shelf) (i : Nat) : Prop where
  full : w = .full ↔ f = []
  empty : w = .empty → liveOn live (s.page i) = [] ∧ (s.pool i).capacity ≠ 1
  partly : w = .partly → liveOn live (s.page i) = [] → (s.pool i).capacity = 1

/-- The lists hold the active slabs, each where it belongs; slab `k` may be elsewhere. -/
structure Filed (s : State) (live : List Object) (L : Nat → Shelf → List Nat) (F : Nat → List Nat)
    (k : Option Nat) : Prop where
  on : ∀ c w i, i ∈ L c w → s.Active i ∧ (s.pool i).cacheIdx = c
  off : ∀ i, s.Active i → ∃ w, i ∈ L (s.pool i).cacheIdx w
  placed : ∀ c w i, i ∈ L c w → k ≠ some i → Placed s live (F i) w i
  count : ∀ c, (s.caches c).activeSlabs = (L c .partly).length + (L c .full).length + (L c .empty).length

structure Good (s : State) (live : List Object) (L : Nat → Shelf → List Nat) (F : Nat → List Nat)
    (k : Option Nat) : Prop where
  core : Core s live F
  shelved : Shelved s L
  filed : Filed s live L F k

theorem Good.slab (h : Good s live L F k) (hi : i ∈ L c w) : SlabOk s live (F i) i :=
  h.core.ok i (h.filed.on c w i hi).1

theorem Good.loosen (h : Good s live L F none) (k : Option Nat) : Good s live L F k :=
  ⟨h.core, h.shelved, { h.filed with placed := fun c w i hi _ => h.filed.placed c w i hi nofun }⟩

theorem Good.settle (h : Good s live L F (some i)) (hi : i ∈ L c w) (hp : Placed s live (F i) w i) :
    Good s live L F none := by
  refine ⟨h.core, h.shelved, { h.filed with placed := fun c' w' j hj _ => ?_ }⟩
  by_cases hji : j = i
  · subst hji
    obtain ⟨rfl, rfl⟩ := h.shelved.apart hi hj
    exact hp
  · exact h.filed.placed c' w' j hj fun he => hji (Option.some.inj he).symm

/-! ## Moving a slab to another list -/

/-- Slab `i` is in use and has one slot only. -/
def State.Single (s : State) (i : Nat) : Prop := s.Active i ∧ (s.pool i).capacity = 1

section Move

theorem SameButLinks.active_iff (h : SameButLinks s s') : s'.Active i ↔ s.Active i := by
  obtain ⟨n, p, hp⟩ := h.pool i
  unfold State.Active
  rw [hp]

theorem SameButLinks.page_eq (h : SameButLinks s s') (i : Nat) : s'.page i = s.page i := by
  obtain ⟨n, p, hp⟩ := h.pool i
  unfold State.page
  rw [hp]

theorem SameButLinks.cacheIdx_eq (h : SameButLinks s s') (i : Nat) : (s'.pool i).cacheIdx = (s.pool i).cacheIdx := by
  obtain ⟨n, p, hp⟩ := h.pool i
  rw [hp]

theorem SameButLinks.capacity_eq (h : SameButLinks s s') (i : Nat) : (s'.pool i).capacity = (s.pool i).capacity := by
  obtain ⟨n, p, hp⟩ := h.pool i
  rw [hp]

theorem SameButLinks.single_iff (h : SameButLinks s s') : s'.Single i ↔ s.Single i := by
  rw [State.Single, State.Single, h.active_iff, h.capacity_eq]

theorem SameButLinks.activeSlabs_eq (h : SameButLinks s s') (c : Nat) :
    (s'.caches c).activeSlabs = (s.caches c).activeSlabs := by
  obtain ⟨n, hp⟩ := h.caches c
  rw [hp]

theorem CachesOk.congr (hc : CachesOk s) (h : SameButLinks s s') : CachesOk s' := by
  refine ⟨fun c hlt => ?_, fun c => ?_, fun c => ?_⟩
  · obtain ⟨n, hp⟩ := h.caches c
    rw [hp]
    exact hc.size c hlt
  · obtain ⟨n, hp⟩ := h.caches c
    rw [hp]
    exact hc.pages c
  · obtain ⟨n, hp⟩ := h.caches c
    rw [hp]
    exact hc.active c

theorem Core.congr (hc : Core s live F) (h : SameButLinks s s') : Core s' live F := by
  refine ⟨hc.caches.congr h, fun i hi => ?_, fun i j hi hj hij => ?_, fun o ho c hoc => ?_, hc.aligned,
    fun o ho p hop => ?_, hc.apart⟩
  · have hok := hc.ok i (h.active_iff.1 hi)
    obtain ⟨n, hk⟩ := h.caches (s.pool i).cacheIdx
    exact hok.frame (h.pool i) (by rw [hk]) (h.free ▸ hok.taken) (fun a _ => congrFun h.mem a) (.refl _) hok.sizes
  · rw [h.page_eq, h.page_eq] at hij
    exact hc.pages i j (h.active_iff.1 hi) (h.active_iff.1 hj) hij
  · obtain ⟨i, hi, hic, hip⟩ := hc.small o ho c hoc
    exact ⟨i, h.active_iff.2 hi, (h.cacheIdx_eq i).trans hic, (h.page_eq i).trans hip⟩
  · obtain ⟨hf, hne⟩ := hc.large o ho p hop
    refine ⟨h.free ▸ hf, fun i hi => ?_⟩
    rw [h.page_eq]
    exact hne i (h.active_iff.1 hi)

/-- The lists after slab `i` of cache `c` moved from `w` to `w'`. -/
def moved (L : Nat → Shelf → List Nat) (c : Nat) (w w' : Shelf) (i : Nat) : Nat → Shelf → List Nat :=
  setList (setList L c w ((L c w).erase i)) c w' (i :: L c w')

theorem moved_eq (L : Nat → Shelf → List Nat) (c : Nat) (w w' : Shelf) (i c' : Nat) (v : Shelf) :
    moved L c w w' i c' v =
    if c' = c ∧ v = w' then i :: L c w' else if c' = c ∧ v = w then (L c w).erase i else L c' v := rfl

theorem mem_moved_of_ne (hji : j ≠ i) {c' : Nat} {v : Shelf} :
    j ∈ moved L c w w' i c' v ↔ j ∈ L c' v := by
  rw [moved_eq]
  split
  · next he =>
    rw [he.1, he.2, List.mem_cons]
    simp [hji]
  · split
    · next he =>
      rw [he.1, he.2]
      exact List.mem_erase_of_ne hji
    · exact Iff.rfl

theorem mem_moved_self (h : Shelved s L) (hi : i ∈ L c w) (w' : Shelf) {c' : Nat} {v : Shelf} :
    i ∈ moved L c w w' i c' v ↔ c' = c ∧ v = w' := by
  rw [moved_eq]
  split
  · next he => simp [he]
  · next he =>
    refine iff_of_false (fun hm => ?_) he
    split at hm
    · exact (h.threaded c w).nodup.not_mem_erase hm
    · next hne => exact hne (h.apart hi hm)

theorem length_moved (hi : i ∈ L c w) (hw : w ≠ w') (c' : Nat) :
    (moved L c w w' i c' .partly).length + (moved L c w w' i c' .full).length +
        (moved L c w w' i c' .empty).length =
      (L c' .partly).length + (L c' .full).length + (L c' .empty).length := by
  have hlen := List.length_erase_of_mem hi
  have hpos := List.length_pos_of_mem hi
  by_cases hc : c' = c
  · subst hc
    cases w <;> cases w' <;> first | exact absurd rfl hw | (simp [moved_eq]; omega)
  · simp [moved_eq, hc]

theorem Good.move (h : Good s live L F (some i)) (hi : i ∈ L c w) (w' : Shelf) (hw : w ≠ w') :
    Good (addToList (removeFromList s c w i) c w' i) live (moved L c w w' i) F (some i) := by
  have hsame : SameButLinks s (addToList (removeFromList s c w i) c w' i) :=
    (removeFromList_same s c w i).trans (addToList_same _ c w' i)
  have hself : ∀ {c' v}, i ∈ moved L c w w' i c' v ↔ c' = c ∧ v = w' := mem_moved_self h.shelved hi w'
  refine ⟨h.core.congr hsame, ?_, ⟨fun c' v j hj => ?_, fun j hj => ?_, fun c' v j hj hne => ?_, fun c' => ?_⟩⟩
  · have hne : (setList L c w ((L c w).erase i)) c w' = L c w' := setList_of_ne fun he => hw he.2.symm
    have hadd := (h.shelved.remove hi).add (i := i) (fun c' v hm => ?_) (h.shelved.ne_null hi) c w'
    · rwa [hne] at hadd
    · unfold setList at hm
      split at hm
      · exact (h.shelved.threaded c w).nodup.not_mem_erase hm
      · next hcw => exact hcw (h.shelved.apart hi hm)
  · rw [hsame.active_iff, hsame.cacheIdx_eq]
    by_cases hji : j = i
    · subst hji
      rw [(hself.1 hj).1]
      exact h.filed.on c w j hi
    · exact h.filed.on c' v j ((mem_moved_of_ne hji).1 hj)
  · rw [hsame.cacheIdx_eq]
    by_cases hji : j = i
    · subst hji
      exact ⟨w', hself.2 ⟨(h.filed.on c w j hi).2, rfl⟩⟩
    · obtain ⟨v, hv⟩ := h.filed.off j (hsame.active_iff.1 hj)
      exact ⟨v, (mem_moved_of_ne hji).2 hv⟩
  · have hji : j ≠ i := fun he => hne (he ▸ rfl)
    have hp := h.filed.placed c' v j ((mem_moved_of_ne hji).1 hj) hne
    exact ⟨hp.full, by rw [hsame.page_eq, hsame.capacity_eq]; exact hp.empty,
      by rw [hsame.page_eq, hsame.capacity_eq]; exact hp.partly⟩
  · rw [hsame.activeSlabs_eq, length_moved hi hw]
    exact h.filed.count c'

end Move

end Zigix.SlabAlloc
