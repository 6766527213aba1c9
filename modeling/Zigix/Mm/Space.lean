import Mathlib.Algebra.Group.Pi.Basic
import Zigix.Lib.Walk
import Zigix.Lib.RefCount
import Zigix.Mm.PmmInv
import Zigix.Mm.Vmm

/-!
# The page-table invariant

The user halves of the live address spaces form a forest: a node of depth at most 3 is a table, one of depth 4 a
mapped page. `Inv R pins m`, for the set `R` of live PML4 frames:

* tables are reached along one path only and are neither mapped nor cached;
* a writable leaf is the only leaf of its frame;
* every reference count bounds the references to its frame: leaves, tables (two each), page-cache entries, and the
  references `pins` that the running kernel code holds in local variables.

The rules below move one reference at a time: `Inv.alloc`, `Inv.incRef` and `Inv.drop` between the allocator and
the pins, `Inv.evict` and `Inv.cache` between the pins and the page cache; `Inv.relink` changes a table entry and
exchanges the references of the old and the new target.
-/

namespace Zigix.Space

open Forest Pmm Pte
open PageCache (cached)

/-- The indices of a walk in the user half, at most down to a leaf. -/
def UserPath (p : List Nat) : Prop := p.length ≤ 4 ∧ (∀ i ∈ p, i < 512) ∧ ∀ i, p.head? = some i → i < 256

theorem UserPath.of_append (p q : List Nat) (h : UserPath (p ++ q)) : UserPath p := by
  obtain ⟨hlen, hidx, hhead⟩ := h
  rw [List.length_append] at hlen
  refine ⟨by omega, fun i hi => hidx i (List.mem_append_left _ hi), fun i hi => hhead i ?_⟩
  rw [List.head?_append, hi]
  rfl

theorem UserPath.length (p : List Nat) (h : UserPath p) : p.length ≤ 3 + 1 := h.1

theorem UserPath.concat {p : List Nat} {i : Nat} (h : UserPath p) (hlen : p.length ≤ 3) (hi : i < 512)
    (hroot : p = [] → i < 256) : UserPath (p ++ [i]) := by
  refine ⟨by simp; omega, fun j hj => ?_, fun j hj => ?_⟩
  · rcases List.mem_append.1 hj with hj | hj
    · exact h.2.1 j hj
    · rw [List.mem_singleton.1 hj]; exact hi
  · cases p with
    | nil =>
      cases hj
      exact hroot rfl
    | cons k p => exact h.2.2 j (by simpa using hj)

/-- The node at path `p` of the address space `r` is frame `f`. -/
abbrev Node (R : Set Nat) (m : Machine) (r : Nat) (p : List Nat) (f : Nat) : Prop :=
  At (Vmm.follow m) R UserPath r p f

/-- The references of the page tables to a frame; a table page counts twice. -/
def nodes (R : Set Nat) (m : Machine) (f : Nat) : Set (Nat × List Nat × Bool) :=
  {h | Node R m h.1 h.2.1 f ∧ (h.2.2 = true → h.2.1.length ≤ 3)}

noncomputable def weight (R : Set Nat) (pins : Nat → Nat) (m : Machine) (f : Nat) : ℕ∞ :=
  (nodes R m f).encard + ((cached m.cache f + pins f : ℕ) : ℕ∞)

structure Inv (R : Set Nat) (pins : Nat → Nat) (m : Machine) : Prop where
  pmm : Pmm.Inv m.pmm
  /-- physical addresses have 52 bits -/
  total : m.pmm.totalPages ≤ 2 ^ 40
  highest : m.pmm.totalPages * pageSize ≤ m.pmm.highestPhys
  separated : Separated (Vmm.follow m) R UserPath 3
  inRange : ∀ {r p f}, Node R m r p f → 0 < f ∧ f < m.pmm.totalPages
  pinned : ∀ {f}, 0 < pins f → 0 < f ∧ f < m.pmm.totalPages
  /-- only 4 KiB leaves -/
  noHuge : ∀ {r p t i}, Node R m r p t → p.length = 1 ∨ p.length = 2 → i < 512 → isPresent (m.mem t i) = true →
    isHuge (m.mem t i) = false
  exclusive : ∀ {r q t i}, Node R m r q t → q.length = 3 → i < 512 → isPresent (m.mem t i) = true →
    isWritable (m.mem t i) = true → ∀ {r' p'}, Node R m r' p' (frame (m.mem t i)) → r' = r ∧ p' = q ++ [i]
  cachedRange : ∀ e ∈ m.cache, 0 < e.frame ∧ e.frame < m.pmm.totalPages
  cachedLeaf : ∀ e ∈ m.cache, ∀ {r p}, Node R m r p e.frame → p.length = 4
  sound : RefCount.Sound saturated m.pmm.refCounts (weight R pins m)

/-- One reference to `f`, as a set of pins. -/
abbrev pin (f : Nat) : Nat → Nat := Pi.single f 1

theorem pin_apply (f g : Nat) : pin f g = if g = f then 1 else 0 := by
  simp [pin, Pi.single_apply]

section Rules
variable {R : Set Nat} {pins : Nat → Nat} {m : Machine} {r t i f : Nat} {p : List Nat} {w : Word}

/-! ## Counting -/

theorem node_mem (h : Node R m r p f) : (r, p, false) ∈ nodes R m f := ⟨h, by simp⟩

theorem weight_add_pin (g : Nat) :
    weight R (pins + pin f) m g = weight R pins m g + if g = f then 1 else 0 := by
  simp only [weight, Pi.add_apply, pin_apply, Nat.cast_add]
  split <;> simp [add_assoc]

theorem weight_pos_of_node (h : Node R m r p f) : 1 ≤ weight R pins m f := by
  have h1 : 1 ≤ (nodes R m f).encard := Set.one_le_encard_iff_nonempty.2 ⟨_, node_mem h⟩
  exact h1.trans le_self_add

theorem Inv.weaken (h : Inv R (pins + pin f) m) : Inv R pins m :=
  { h with
    pinned := fun hp => h.pinned (by rw [Pi.add_apply]; omega)
    sound := h.sound.exchange fun g => by rw [weight_add_pin]; exact le_self_add }

theorem Inv.ref_pos_of_pin (h : Inv R (pins + pin f) m) : 0 < m.pmm.refCounts f := by
  refine h.sound.pos (by decide) ?_
  rw [weight_add_pin, if_pos rfl]
  exact le_add_self

/-- A frame whose count equals its pins is referenced by nothing else. -/
theorem Inv.unlinked (h : Inv R pins m) (href : m.pmm.refCounts f = pins f) (hlt : pins f < saturated) :
    (∀ r p, ¬ Node R m r p f) ∧ ∀ e ∈ m.cache, e.frame ≠ f := by
  have hw := h.sound.weight_le (a := f) (by omega)
  rw [href, weight, Nat.cast_add, ← add_assoc] at hw
  have hzero : (nodes R m f).encard + cached m.cache f = 0 := by
    have h1 : (nodes R m f).encard + cached m.cache f + pins f ≤ 0 + pins f := by rw [zero_add]; exact hw
    exact nonpos_iff_eq_zero.1 ((ENat.add_le_add_iff_right (ENat.natCast_ne_top _)).1 h1)
  obtain ⟨h1, h2⟩ := add_eq_zero.1 hzero
  refine ⟨fun r p hn => ?_, fun e he hf => ?_⟩
  · have := Set.encard_eq_zero.1 h1
    exact (Set.mem_empty_iff_false _).1 (this ▸ node_mem hn)
  · have h3 : cached m.cache f = 0 := by exact_mod_cast h2
    have := List.countP_eq_zero.1 h3 e he
    simp [hf] at this

/-! ## The allocator -/

theorem Inv.withPmm {pins' : Nat → Nat} {s : Pmm.State} (h : Inv R pins m) (hm : Moves m.pmm s)
    (hpins : ∀ {f}, 0 < pins' f → 0 < f ∧ f < m.pmm.totalPages)
    (hs : RefCount.Sound saturated s.refCounts (weight R pins' m)) : Inv R pins' { m with pmm := s } where
  pmm := hm.inv h.pmm
  total := hm.total ▸ h.total
  highest := hm.total ▸ hm.highest ▸ h.highest
  separated := h.separated
  inRange := fun hn => hm.total ▸ h.inRange hn
  pinned := fun hp => hm.total ▸ hpins hp
  noHuge := h.noHuge
  exclusive := h.exclusive
  cachedRange := fun e he => hm.total ▸ h.cachedRange e he
  cachedLeaf := h.cachedLeaf
  sound := hs

theorem Inv.incRef (h : Inv R pins m) (hf : 0 < f ∧ f < m.pmm.totalPages) (href : 0 < m.pmm.refCounts f) :
    Inv R (pins + pin f) (m.incRef f) := by
  have hrc := fun q => refCounts_incRef (s := m.pmm) hf.2 hf.1 q
  refine h.withPmm (incRef_moves _ _ (by rw [mul_div_pageSize]; exact href)) (fun {g} hg => ?_) ?_
  · rw [Pi.add_apply, pin_apply] at hg
    split at hg
    · next e => rw [e]; exact hf
    · exact h.pinned hg
  · refine h.sound.acquire (a := f) (fun g hg => ?_) ?_ (fun g hg => ?_) ?_
    · rw [hrc, if_neg (by simp [hg])]
    · rw [hrc]
      by_cases hs : m.pmm.refCounts f < saturated
      · exact .inl (by simp [hs])
      · exact .inr ⟨by omega, by simp [hs]⟩
    · rw [weight_add_pin, if_neg hg, add_zero]
    · rw [weight_add_pin, if_pos rfl]

theorem Inv.drop {s : Pmm.State} (h : Inv R (pins + pin f) m) (hm : Moves m.pmm s) (hd : Dropped m.pmm s f) :
    Inv R pins { m with pmm := s } := by
  refine h.withPmm hm (fun {g} hg => h.pinned (by rw [Pi.add_apply]; omega)) ?_
  refine h.sound.release (a := f) hd.others hd.count (fun g hg => ?_) ?_
  · rw [weight_add_pin, if_neg hg, add_zero]
  · rw [weight_add_pin, if_pos rfl]

theorem Inv.pin_inRange (h : Inv R (pins + pin f) m) : 0 < f ∧ f < m.pmm.totalPages :=
  h.pinned (by rw [Pi.add_apply, pin_apply, if_pos rfl]; omega)

theorem Inv.freePage (h : Inv R (pins + pin f) m) : Inv R pins (m.freePage f) :=
  h.drop (freePage_moves _ _) (freePage_dropped h.pin_inRange.2 h.pin_inRange.1 h.ref_pos_of_pin)

theorem Inv.decRef (h : Inv R (pins + pin f) m) : Inv R pins (m.decRef f) :=
  h.drop (decRef_moves _ _) (decRef_dropped h.pin_inRange.2 h.pin_inRange.1 h.ref_pos_of_pin)

/-- The allocator hands out a frame nothing refers to, with one reference. -/
theorem Inv.takeAt (h : Inv R pins m) (hfree : m.pmm.isFree f = true) (hmin : minAllocPage ≤ f) :
    Inv R (pins + pin f) { m with pmm := (Pmm.takeAt m.pmm f).2 } := by
  have h0 : m.pmm.refCounts f = 0 := h.pmm.ref_zero f hfree
  refine h.withPmm (takeAt_moves hfree hmin) (fun {g} hg => ?_) ?_
  · rw [Pi.add_apply, pin_apply] at hg
    split at hg
    · next e =>
      rw [e]
      exact ⟨Nat.lt_of_lt_of_le (by decide) hmin, h.pmm.free_lt f hfree⟩
    · exact h.pinned hg
  · refine h.sound.acquire (a := f) (fun g hg => ?_) (.inl ?_) (fun g hg => ?_) ?_
    · change (m.pmm.take f).refCounts g = _
      rw [refCounts_take, if_neg hg]
    · change (m.pmm.take f).refCounts f = _
      rw [refCounts_take, if_pos rfl, h0]
    · rw [weight_add_pin, if_neg hg, add_zero]
    · rw [weight_add_pin, if_pos rfl]

/-! ## The page cache -/

theorem Inv.withCache {pins' : Nat → Nat} {c : PageCache.Cache} (h : Inv R pins m)
    (hpins : ∀ {f}, 0 < pins' f → 0 < f ∧ f < m.pmm.totalPages)
    (hrange : ∀ e ∈ c, 0 < e.frame ∧ e.frame < m.pmm.totalPages)
    (hleaf : ∀ e ∈ c, ∀ {r p}, Node R m r p e.frame → p.length = 4)
    (hw : ∀ g, cached c g + pins' g ≤ cached m.cache g + pins g) : Inv R pins' { m with cache := c } :=
  { h with
    pinned := hpins
    cachedRange := hrange
    cachedLeaf := hleaf
    sound := h.sound.exchange fun g => by
      have hn : nodes R { m with cache := c } g = nodes R m g := rfl
      rw [weight, weight, hn]
      exact add_le_add le_rfl (by exact_mod_cast hw g) }

theorem Inv.evict {e : PageCache.Entry} {c : PageCache.Cache} (h : Inv R pins m) (hc : (e :: c).Perm m.cache) :
    Inv R (pins + pin e.frame) { m with cache := c } := by
  have hmem : ∀ e' ∈ c, e' ∈ m.cache := fun e' he' => hc.mem_iff.1 (List.mem_cons_of_mem _ he')
  refine h.withCache (fun {g} hg => ?_) (fun e' he' => h.cachedRange e' (hmem e' he'))
    (fun e' he' => h.cachedLeaf e' (hmem e' he')) fun g => ?_
  · rw [Pi.add_apply, pin_apply] at hg
    split at hg
    · next he => rw [he]; exact h.cachedRange e (hc.mem_iff.1 List.mem_cons_self)
    · exact h.pinned hg
  · rw [← PageCache.cached_perm hc g, PageCache.cached_cons, Pi.add_apply, pin_apply]
    simp only [eq_comm (a := g)]
    omega

theorem Inv.cache {e : PageCache.Entry} (h : Inv R (pins + pin e.frame) m)
    (hleaf : ∀ {r p}, Node R m r p e.frame → p.length = 4) : Inv R pins { m with cache := e :: m.cache } := by
  refine h.withCache (fun hg => h.pinned (by rw [Pi.add_apply]; omega)) ?_ ?_ fun g => ?_
  · intro e' he'
    rcases List.mem_cons.1 he' with rfl | he'
    · exact h.pin_inRange
    · exact h.cachedRange e' he'
  · intro e' he' r p hn
    rcases List.mem_cons.1 he' with rfl | he'
    · exact hleaf hn
    · exact h.cachedLeaf e' he' hn
  · rw [PageCache.cached_cons, Pi.add_apply, pin_apply]
    simp only [eq_comm (a := g)]
    omega

theorem Inv.permCache {c : PageCache.Cache} (h : Inv R pins m) (hc : c.Perm m.cache) :
    Inv R pins { m with cache := c } :=
  h.withCache h.pinned (fun e he => h.cachedRange e (hc.mem_iff.1 he)) (fun e he => h.cachedLeaf e (hc.mem_iff.1 he))
    fun g => by rw [PageCache.cached_perm hc g]

theorem Inv.evictUpTo (h : Inv R pins m) (n : Nat) :
    Inv R pins { m with
      pmm := ((PageCache.evictUpTo n m.cache).1.map (· * pageSize)).foldl Pmm.freePage m.pmm
      cache := (PageCache.evictUpTo n m.cache).2 } := by
  induction n generalizing m with
  | zero => exact h
  | succ n ih =>
    rw [PageCache.evictUpTo]
    split
    · next f c he =>
      obtain ⟨e, rfl, hc⟩ := PageCache.evictOne_perm he
      exact ih (h.evict hc).freePage
    · exact h

theorem Inv.allocPage (h : Inv R pins m) :
    (m.allocPage.1 = none ∧ Inv R pins m.allocPage.2) ∨
      ∃ f, m.allocPage.1 = some f ∧ Inv R (pins + pin f) m.allocPage.2 ∧ m.allocPage.2.pmm.refCounts f = 1 := by
  let recovery := m.evictPageCacheAction.1
  let cache := if (Pmm.allocPageInner m.pmm).1.isSome then m.cache else m.evictPageCacheAction.2
  have hfrom : Inv R pins { m with pmm := allocFrom m.pmm recovery, cache := cache } := by
    unfold allocFrom
    dsimp only [cache]
    split
    · exact h
    · exact h.evictUpTo 32
  have heq : m.allocPage = ((Pmm.allocPage m.pmm recovery).1.map (· / pageSize),
      { m with pmm := (Pmm.allocPage m.pmm recovery).2, cache := cache }) := rfl
  rw [heq]
  obtain ⟨-, hp | ⟨f, hp, hfree, hmin⟩⟩ := allocPage_cases m.pmm recovery
  · left
    rw [hp]
    exact ⟨rfl, hfrom⟩
  · right
    rw [hp]
    refine ⟨f, congrArg some (mul_div_pageSize f), hfrom.takeAt hfree hmin, ?_⟩
    change ((allocFrom m.pmm recovery).take f).refCounts f = 1
    rw [refCounts_take, if_pos rfl]

/-! ## Memory outside the tables -/

theorem follow_eq {m' : Machine} {t j : Nat} (h : m'.mem t j = m.mem t j) : Vmm.follow m' t j = Vmm.follow m t j := by
  unfold Vmm.follow
  rw [h]

def TablesEq (R : Set Nat) (m m' : Machine) : Prop :=
  ∀ {r p t}, Node R m r p t → p.length ≤ 3 → ∀ j, m'.mem t j = m.mem t j

theorem TablesEq.node_iff {m' : Machine} (h : TablesEq R m m') : Node R m' r p f ↔ Node R m r p f :=
  at_eq_of_tables UserPath.of_append UserPath.length fun _ _ _ hn hlen j => follow_eq (h hn hlen j)

theorem Inv.withMem {mem : Nat → Nat → Word} (h : Inv R pins m) (heq : TablesEq R m { m with mem := mem }) :
    Inv R pins { m with mem := mem } where
  pmm := h.pmm
  total := h.total
  highest := h.highest
  separated := fun ha hb => h.separated (heq.node_iff.1 ha) (heq.node_iff.1 hb)
  inRange := fun hn => h.inRange (heq.node_iff.1 hn)
  pinned := h.pinned
  noHuge := fun hn hlen hi hp => by
    have hn := heq.node_iff.1 hn
    rw [heq hn (by omega)] at hp ⊢
    exact h.noHuge hn hlen hi hp
  exclusive := fun hn hlen hi hp hw _ _ hn' => by
    have hn := heq.node_iff.1 hn
    rw [heq hn (by omega)] at hp hw hn'
    exact h.exclusive hn hlen hi hp hw (heq.node_iff.1 hn')
  cachedRange := h.cachedRange
  cachedLeaf := fun e he _ _ hn => h.cachedLeaf e he (heq.node_iff.1 hn)
  sound := h.sound.exchange fun g => by
    have hn : nodes R { m with mem := mem } g = nodes R m g := by
      ext x
      simp only [nodes, Set.mem_ofPred_eq, heq.node_iff]
    rw [weight, weight, hn]

theorem tablesEq_setPage {c : Nat → Word} (hf : ∀ {r p}, Node R m r p f → p.length = 4) :
    TablesEq R m (m.setPage f c) := by
  intro r p t hn hlen j
  have hne : t ≠ f := by
    rintro rfl
    have := hf hn
    omega
  simp [Machine.setPage, Function.update_of_ne hne]

/-! ## One table entry -/

/-- How many references an entry is to `g`: one, or none. -/
def hits (w : Word) (g : Nat) : Nat := if isPresent w = true ∧ frame w = g then 1 else 0

/-- The references a slot of a table at depth `n` is worth. -/
def slotWeight (n : Nat) : Nat := if n < 3 then 2 else 1

/-- What the new entry of a slot must satisfy. -/
structure Target (R : Set Nat) (m : Machine) (r : Nat) (p : List Nat) (i : Nat) (w : Word) : Prop where
  inRange : 0 < frame w ∧ frame w < m.pmm.totalPages
  noTable : ∀ {r' p'}, Node R m r' p' (frame w) → p'.length = 4
  emptyTable : p.length < 3 → (∀ j, isPresent (m.mem (frame w) j) = false) ∧ (∀ r' p', ¬ Node R m r' p' (frame w)) ∧
    ∀ e ∈ m.cache, e.frame ≠ frame w
  small : p.length < 3 → isHuge w = false
  exclusive : p.length = 3 → isWritable w = true → ∀ {r' p'}, Node R m r' p' (frame w) → r' = r ∧ p' = p ++ [i]
  noWriter : p.length = 3 → ∀ {r' q' t' j}, Node R m r' q' t' → q'.length = 3 → j < 512 →
    isPresent (m.mem t' j) = true → isWritable (m.mem t' j) = true → frame (m.mem t' j) = frame w →
    r' = r ∧ q' = p ∧ j = i

@[simp] theorem mem_setWord_same (t i : Nat) (w : Word) : (m.setWord t i w).mem t i = w := by
  simp [Machine.setWord]

theorem mem_setWord_of_ne {t' j : Nat} (h : ¬ (t' = t ∧ j = i)) : (m.setWord t i w).mem t' j = m.mem t' j := by
  by_cases ht : t' = t
  · subst ht
    have hj : j ≠ i := fun hj => h ⟨rfl, hj⟩
    simp [Machine.setWord, hj]
  · simp [Machine.setWord, ht]

theorem follow_absent {t j : Nat} (h : isPresent (m.mem t j) = false) : Vmm.follow m t j = none := by
  unfold Vmm.follow
  rw [h]
  rfl

theorem follow_some {t j : Nat} : Vmm.follow m t j = some f ↔ isPresent (m.mem t j) = true ∧ frame (m.mem t j) = f := by
  unfold Vmm.follow
  split <;> simp_all

theorem relinked (h : Inv R pins m) (ht : Node R m r p t) (hlen : p.length ≤ 3) (hslot : UserPath (p ++ [i]))
    (hw : isPresent w = true → Target R m r p i w) :
    Relinked (Vmm.follow m) (Vmm.follow (m.setWord t i w)) R UserPath 3 r p t i
      (if isPresent w then some (frame w) else none) where
  prefix_ok := UserPath.of_append
  depth := UserPath.length
  sep := h.separated
  table := ht
  table_depth := hlen
  slot_ok := hslot
  link := by
    unfold Vmm.follow
    rw [mem_setWord_same]
  others := fun r' p' f' _ _ j hne => follow_eq (mem_setWord_of_ne hne)
  single := fun f' hf hlt j => by
    split at hf
    · next hp =>
      cases hf
      obtain ⟨hempty, hno, -⟩ := (hw hp).emptyTable hlt
      have hne : frame w ≠ t := by
        intro he
        exact hno r p (he ▸ ht)
      refine follow_absent ?_
      rw [mem_setWord_of_ne (by simp [hne])]
      exact hempty j
    · cases hf

theorem node_setWord_iff (h : Inv R pins m) (ht : Node R m r p t) (hlen : p.length ≤ 3)
    (hslot : UserPath (p ++ [i])) (hw : isPresent w = true → Target R m r p i w) {r' f' : Nat} {p' : List Nat} :
    Node R (m.setWord t i w) r' p' f' ↔ (Node R m r' p' f' ∧ ¬ (r' = r ∧ p ++ [i] <+: p')) ∨
      (r' = r ∧ p' = p ++ [i] ∧ isPresent w = true ∧ frame w = f') := by
  refine (relinked h ht hlen hslot hw).at_iff.trans ?_
  refine or_congr Iff.rfl (and_congr Iff.rfl (and_congr Iff.rfl ?_))
  split <;> simp_all

theorem encard_diff_add {α : Type*} (s : Set α) (x : α) (n : ℕ) (h : n = 0 ∨ n = 1 ∧ x ∈ s) :
    (s \ {x}).encard + n ≤ s.encard := by
  rcases h with rfl | ⟨rfl, hx⟩
  · simpa using Set.encard_le_encard Set.sdiff_subset
  · exact le_of_eq (by simpa using Set.encard_sdiff_singleton_add_one hx)

theorem hits_le_one (w : Word) (g : Nat) : hits w g = 0 ∨ hits w g = 1 ∧ isPresent w = true ∧ frame w = g := by
  unfold hits
  split
  · next h => exact .inr ⟨rfl, h⟩
  · exact .inl rfl

def slotRefs (r : Nat) (p : List Nat) (i n : Nat) : Set (Nat × List Nat × Bool) :=
  {x | n = 1 ∧ x.1 = r ∧ x.2.1 = p ++ [i] ∧ (x.2.2 = true → p.length < 3)}

theorem encard_slotRefs_le (r : Nat) (p : List Nat) (i n : Nat) (hn : n = 0 ∨ n = 1) :
    (slotRefs r p i n).encard ≤ (slotWeight p.length * n : ℕ) := by
  rcases hn with rfl | rfl
  · have : slotRefs r p i 0 = ∅ := by ext x; simp [slotRefs]
    simp [this]
  · by_cases hlt : p.length < 3
    · have hsub : slotRefs r p i 1 ⊆ {(r, p ++ [i], false), (r, p ++ [i], true)} := by
        rintro ⟨r', p', b⟩ ⟨-, h1, h2, -⟩
        simp only at h1 h2
        subst h1 h2
        cases b <;> simp
      calc (slotRefs r p i 1).encard ≤ _ := Set.encard_le_encard hsub
        _ ≤ 1 + 1 := (Set.encard_insert_le _ _).trans (by rw [Set.encard_singleton])
        _ = (slotWeight p.length * 1 : ℕ) := by simp [slotWeight, hlt]; norm_num
    · have hsub : slotRefs r p i 1 ⊆ {(r, p ++ [i], false)} := by
        rintro ⟨r', p', b⟩ ⟨-, h1, h2, h3⟩
        simp only at h1 h2 h3
        subst h1 h2
        cases b with
        | false => simp
        | true => exact absurd (h3 rfl) hlt
      calc (slotRefs r p i 1).encard ≤ _ := Set.encard_le_encard hsub
        _ = 1 := Set.encard_singleton _
        _ = (slotWeight p.length * 1 : ℕ) := by simp [slotWeight, hlt]

theorem encard_nodes_setWord (h : Inv R pins m) (ht : Node R m r p t) (hlen : p.length ≤ 3)
    (hslot : UserPath (p ++ [i])) (hw : isPresent w = true → Target R m r p i w) (g : Nat) :
    (nodes R (m.setWord t i w) g).encard + (slotWeight p.length * hits (m.mem t i) g : ℕ) ≤
      (nodes R m g).encard + (slotWeight p.length * hits w g : ℕ) := by
  let x : Nat × List Nat × Bool := (r, p ++ [i], false)
  let y : Nat × List Nat × Bool := (r, p ++ [i], true)
  have hold : isPresent (m.mem t i) = true → frame (m.mem t i) = g → Node R m r (p ++ [i]) g := by
    intro h1 h2
    exact ht.concat hslot (follow_some.2 ⟨h1, h2⟩)
  have hsub : nodes R (m.setWord t i w) g ⊆ (nodes R m g \ {x}) \ {y} ∪ slotRefs r p i (hits w g) := by
    rintro ⟨r', p', b⟩ ⟨hn, hb⟩
    rcases (node_setWord_iff h ht hlen hslot hw).1 hn with ⟨hn, hoff⟩ | ⟨h1, h2, h3, h4⟩
    · left
      refine ⟨⟨⟨hn, hb⟩, ?_⟩, ?_⟩
      · intro he
        simp only [x, Set.mem_singleton_iff, Prod.mk.injEq] at he
        exact hoff ⟨he.1, [], by simp [he.2.1]⟩
      · intro he
        simp only [y, Set.mem_singleton_iff, Prod.mk.injEq] at he
        exact hoff ⟨he.1, [], by simp [he.2.1]⟩
    · right
      refine ⟨by simp [hits, h3, h4], h1, h2, fun hb' => ?_⟩
      have := hb hb'
      simp only at h2 this
      rw [h2, List.length_append, List.length_singleton] at this
      omega
  have hloss : ((nodes R m g \ {x}) \ {y}).encard + (slotWeight p.length * hits (m.mem t i) g : ℕ) ≤
      (nodes R m g).encard := by
    have h1 := encard_diff_add (nodes R m g) x (hits (m.mem t i) g) (by
      rcases hits_le_one (m.mem t i) g with h0 | ⟨h1, h2, h3⟩
      · exact .inl h0
      · exact .inr ⟨h1, node_mem (hold h2 h3)⟩)
    have h2 := encard_diff_add (nodes R m g \ {x}) y (if p.length < 3 then hits (m.mem t i) g else 0) (by
      split
      · next hlt =>
        rcases hits_le_one (m.mem t i) g with h0 | ⟨h1, h2, h3⟩
        · exact .inl h0
        · have hy : (p ++ [i]).length ≤ 3 := by simp; omega
          exact .inr ⟨h1, ⟨hold h2 h3, fun _ => hy⟩, by simp [x, y]⟩
      · exact .inl rfl)
    have h3 : slotWeight p.length * hits (m.mem t i) g =
        (if p.length < 3 then hits (m.mem t i) g else 0) + hits (m.mem t i) g := by
      unfold slotWeight
      split <;> omega
    rw [h3, Nat.cast_add, ← add_assoc]
    exact (add_le_add h2 le_rfl).trans h1
  have hnew := encard_slotRefs_le r p i (hits w g) ((hits_le_one w g).imp_right And.left)
  calc (nodes R (m.setWord t i w) g).encard + (slotWeight p.length * hits (m.mem t i) g : ℕ)
      ≤ ((nodes R m g \ {x}) \ {y} ∪ slotRefs r p i (hits w g)).encard
          + (slotWeight p.length * hits (m.mem t i) g : ℕ) := add_le_add (Set.encard_le_encard hsub) le_rfl
    _ ≤ ((nodes R m g \ {x}) \ {y}).encard + (slotRefs r p i (hits w g)).encard
          + (slotWeight p.length * hits (m.mem t i) g : ℕ) := add_le_add (Set.encard_union_le _ _) le_rfl
    _ = ((nodes R m g \ {x}) \ {y}).encard + (slotWeight p.length * hits (m.mem t i) g : ℕ)
          + (slotRefs r p i (hits w g)).encard := add_right_comm _ _ _
    _ ≤ (nodes R m g).encard + (slotWeight p.length * hits w g : ℕ) := add_le_add hloss hnew

/-- **One entry of a table is written.** The references of the old and the new target are exchanged with pins. -/
theorem Inv.relink {pins' : Nat → Nat} (h : Inv R pins m) (ht : Node R m r p t) (hlen : p.length ≤ 3)
    (hslot : UserPath (p ++ [i])) (hw : isPresent w = true → Target R m r p i w)
    (hpinned : ∀ {f}, 0 < pins' f → 0 < f ∧ f < m.pmm.totalPages)
    (hpins : ∀ g, pins' g + slotWeight p.length * hits w g ≤ pins g + slotWeight p.length * hits (m.mem t i) g) :
    Inv R pins' (m.setWord t i w) := by
  have hrel := relinked h ht hlen hslot hw
  have hnode : ∀ {r' f' p'}, Node R (m.setWord t i w) r' p' f' ↔ _ := node_setWord_iff h ht hlen hslot hw
  have htarget : ∀ f', (if isPresent w then some (frame w) else none) = some f' →
      isPresent w = true ∧ frame w = f' := by
    intro f' hf'
    split at hf' <;> simp_all
  -- a node above the leaves is an old table, or the new one, whose entries are all absent
  have htable : ∀ {r' p' t' j}, Node R (m.setWord t i w) r' p' t' → p'.length ≤ 3 →
      isPresent ((m.setWord t i w).mem t' j) = true → Node R m r' p' t' ∧
        ((r' = r ∧ p' = p ∧ j = i ∧ t' = t) ∨ ((m.setWord t i w).mem t' j = m.mem t' j ∧ ¬ (t' = t ∧ j = i))) := by
    intro r' p' t' j hn hl hp
    rcases hnode.1 hn with ⟨ho, -⟩ | ⟨rfl, rfl, h3, rfl⟩
    · refine ⟨ho, ?_⟩
      by_cases hs : t' = t ∧ j = i
      · obtain ⟨rfl, rfl⟩ := hs
        obtain ⟨rfl, rfl⟩ := h.separated ho ht hlen
        exact .inl ⟨rfl, rfl, rfl, rfl⟩
      · exact .inr ⟨mem_setWord_of_ne hs, hs⟩
    · rw [List.length_append, List.length_singleton] at hl
      obtain ⟨hempty, hno, -⟩ := (hw h3).emptyTable (by omega)
      have hne : frame w ≠ t := fun he => hno r' p (he ▸ ht)
      rw [mem_setWord_of_ne (by simp [hne]), hempty j] at hp
      cases hp
  refine ⟨h.pmm, h.total, h.highest, ?_, ?_, hpinned, ?_, ?_, h.cachedRange, ?_, ?_⟩
  · refine hrel.separated (fun f' hf' r' p' hn => ?_) fun f' hf' hlt r' p' hn => ?_
    · obtain ⟨h1, rfl⟩ := htarget f' hf'
      have := (hw h1).noTable hn
      omega
    · obtain ⟨h1, rfl⟩ := htarget f' hf'
      exact ((hw h1).emptyTable hlt).2.1 r' p' hn
  · intro r' p' f' hn
    rcases hnode.1 hn with ⟨hn, -⟩ | ⟨-, -, h3, rfl⟩
    · exact h.inRange hn
    · exact (hw h3).inRange
  · intro r' p' t' j hn hl hj hp
    obtain ⟨hn', ⟨rfl, rfl, rfl, rfl⟩ | ⟨he, -⟩⟩ := htable hn (by omega) hp
    · rw [mem_setWord_same] at hp ⊢
      exact (hw hp).small (by omega)
    · rw [he] at hp ⊢
      exact h.noHuge hn' hl hj hp
  · intro r' q t' j hn hl hj hp hwr r'' p'' hn''
    obtain ⟨hn', ⟨rfl, rfl, rfl, rfl⟩ | ⟨he, hne⟩⟩ := htable hn (by omega) hp
    · rw [mem_setWord_same] at hp hwr hn''
      rcases hnode.1 hn'' with ⟨ho, -⟩ | ⟨h1, h2, -⟩
      · exact (hw hp).exclusive hl hwr ho
      · exact ⟨h1, h2⟩
    · rw [he] at hp hwr hn''
      rcases hnode.1 hn'' with ⟨ho, -⟩ | ⟨rfl, rfl, h3, h4⟩
      · exact h.exclusive hn' hl hj hp hwr ho
      · by_cases hp3 : p.length = 3
        · obtain ⟨rfl, rfl, rfl⟩ := (hw h3).noWriter hp3 hn' hl hj hp hwr h4.symm
          exact ⟨rfl, rfl⟩
        · have hq : UserPath (q ++ [j]) := hn'.2.1.concat (by omega) hj (by rintro rfl; simp at hl)
          exact absurd (h4 ▸ hn'.concat hq (follow_some.2 ⟨hp, rfl⟩))
            (((hw h3).emptyTable (by omega)).2.1 r' (q ++ [j]))
  · intro e he r' p' hn
    rcases hnode.1 hn with ⟨hn, -⟩ | ⟨-, rfl, h3, h4⟩
    · exact h.cachedLeaf e he hn
    · rw [List.length_append, List.length_singleton]
      by_contra hne
      exact ((hw h3).emptyTable (by omega)).2.2 e he h4.symm
  · refine h.sound.exchange fun g => ?_
    have h1 := hpins g
    refine RefCount.add_le_add_of_exchange (encard_nodes_setWord h ht hlen hslot hw g) ?_
    change cached m.cache g + pins' g + _ ≤ _
    omega

end Rules

/-! ## No address space -/

theorem isFree_boot {p : Nat} (h : Machine.boot.pmm.isFree p = true) : p < 528 := by
  by_contra hp
  have hb : Machine.boot.pmm.bitmap (p / 8) = 0 := if_neg (by omega)
  simp [State.isFree, testBit, hb] at h

theorem inv_of_noRoots {m : Machine} (hpmm : Pmm.Inv m.pmm) (htotal : m.pmm.totalPages ≤ 2 ^ 40)
    (hhighest : m.pmm.totalPages * pageSize ≤ m.pmm.highestPhys) (hcache : m.cache = []) : Inv ∅ 0 m where
  pmm := hpmm
  total := htotal
  highest := hhighest
  separated := fun h => absurd h.1 (Set.notMem_empty _)
  inRange := fun h => absurd h.1 (Set.notMem_empty _)
  pinned := fun h => absurd h (lt_irrefl 0)
  noHuge := fun h => absurd h.1 (Set.notMem_empty _)
  exclusive := fun h => absurd h.1 (Set.notMem_empty _)
  cachedRange := fun e he => by rw [hcache] at he; cases he
  cachedLeaf := fun e he => by rw [hcache] at he; cases he
  sound := fun f => .inr (by
    have hn : nodes ∅ m f = ∅ := Set.eq_empty_of_forall_notMem fun _ h => Set.notMem_empty _ h.1.1
    rw [weight, hn, Set.encard_empty, zero_add, hcache]
    exact zero_le)

theorem boot_inv : Inv ∅ 0 .boot :=
  inv_of_noRoots ⟨by decide +kernel, fun p hp => isFree_boot hp, fun _ _ => rfl⟩ (by decide) le_rfl rfl

end Zigix.Space
