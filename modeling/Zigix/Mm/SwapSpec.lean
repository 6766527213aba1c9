import Zigix.Mm.Swap
import Zigix.Proc.CopyOut

/-!
# Evicted pages are lost

* `Inv.forget` : page tables as pages that are merely in use;
* `Evicted`, `evictOnePage_spec` : what an eviction does;
* `evicted_page_lost` : the round trip fails at every access to every evicted page.
-/

namespace Zigix.Swap

open Forest Pmm Pte Vmm Space Fault
open PageCache (cached)

/-! ## Entries -/

section Entries
variable {w : Word} {slot : Nat}

@[simp] theorem isPresent_swapPte : isPresent (swapPte slot) = false := isPresent_make ..

theorem isSwapPte_swapPte : isSwapPte (swapPte slot) = true := by
  have hbit : (swapPte slot).getLsbD 10 = true := by
    unfold swapPte
    rw [getLsbD_make_low _ _ _ (by decide), Flags.low]
    simp only [BitVec.getLsbD_append]
    simp
  unfold isSwapPte
  rw [isPresent_swapPte, hbit]
  rfl

theorem getSwapSlot_swapPte (h : slot < maxSwapSlots) : getSwapSlot (swapPte slot) = slot := by
  unfold maxSwapSlots at h
  unfold getSwapSlot swapPte
  rw [frame_make _ _ (by omega), Nat.mod_eq_of_lt (by omega)]

theorem isSwapPte_of_present (h : isPresent w = true) : isSwapPte w = false := by
  unfold isSwapPte
  rw [h]
  rfl

theorem not_present_of_isSwapPte (h : isSwapPte w = true) : isPresent w = false := by
  unfold isSwapPte at h
  rw [Bool.and_eq_true] at h
  simpa using h.1

theorem getLsbD_clearAccessed (i : Nat) (hi : i < 64) :
    (clearAccessed w).getLsbD i = (w.getLsbD i && decide (i ≠ 5)) := by
  have hbit : (1#64 <<< 5) = BitVec.twoPow 64 5 := rfl
  unfold clearAccessed
  rw [BitVec.getLsbD_and, BitVec.getLsbD_not, hbit, BitVec.getLsbD_twoPow]
  simp [hi, eq_comm]

@[simp] theorem isPresent_clearAccessed : isPresent (clearAccessed w) = isPresent w := by
  unfold isPresent
  rw [getLsbD_clearAccessed _ (by decide)]
  simp

@[simp] theorem isWritable_clearAccessed : isWritable (clearAccessed w) = isWritable w := by
  unfold isWritable
  rw [getLsbD_clearAccessed _ (by decide)]
  simp

@[simp] theorem frame_clearAccessed : frame (clearAccessed w) = frame w := by
  refine frame_eq_of_bits fun i h1 h2 => ?_
  rw [getLsbD_clearAccessed _ (by omega)]
  simp [show i ≠ 5 by omega]

end Entries

/-! ## Leaf entries -/

section Leaves
variable {R : Set Nat} {pins : Nat → Nat} {m : Machine} {r t i : Nat} {q : List Nat} {w : Word}

theorem walk_setLeaf (h : Inv R pins m) (ht : Node R m r q t) (hl : q.length = 3) (hslot : UserPath (q ++ [i]))
    {r' : Nat} {q' : List Nat} (hr : r' ∈ R) (hq : UserPath q') (hq' : q'.length ≤ 3) :
    walk (follow (m.setWord t i w)) r' q' = walk (follow m) r' q' := by
  have hrel : Relinked (follow m) (follow (m.setWord t i w)) R UserPath 3 r q t i (follow (m.setWord t i w) t i) :=
    { prefix_ok := UserPath.of_append
      depth := UserPath.length
      sep := h.separated
      table := ht
      table_depth := by omega
      slot_ok := hslot
      link := rfl
      others := fun r' p' f' _ _ j hne => follow_eq (mem_setWord_of_ne hne)
      single := fun f' _ hlt => absurd hlt (by omega) }
  refine hrel.walk_off hr hq ?_
  rintro ⟨-, s, hs⟩
  have hlen := congrArg List.length hs
  simp only [List.length_append, List.length_singleton] at hlen
  omega

theorem node_setLeaf (h : Inv R pins m) (ht : Node R m r q t) (hl : q.length = 3) (hslot : UserPath (q ++ [i]))
    {r' t' : Nat} {q' : List Nat} (hq' : q'.length ≤ 3) :
    Node R (m.setWord t i w) r' q' t' ↔ Node R m r' q' t' := by
  constructor
  · intro hn
    exact ⟨hn.1, hn.2.1, by rw [← walk_setLeaf h ht hl hslot hn.1 hn.2.1 hq']; exact hn.2.2⟩
  · intro hn
    exact ⟨hn.1, hn.2.1, by rw [walk_setLeaf h ht hl hslot hn.1 hn.2.1 hq']; exact hn.2.2⟩

theorem swapSlotAt_iff {virt slot : Nat} (hr : r ∈ R) (hv : virt < userEnd) :
    swapSlotAt m r virt = some slot ↔ ∃ pt, Node R m r (tablePath virt) pt ∧ isSwapPte (m.mem pt (ptIdx virt)) = true ∧
      getSwapSlot (m.mem pt (ptIdx virt)) = slot := by
  have hwalk : swapSlotAt m r virt = (walk (follow m) r (tablePath virt)).bind fun pt =>
      if isSwapPte (m.mem pt (ptIdx virt)) then some (getSwapSlot (m.mem pt (ptIdx virt))) else none := by
    unfold swapSlotAt tablePath
    simp only [walk_cons, walk_nil, Option.bind_assoc, Option.bind_some]
    rfl
  rw [hwalk, Option.bind_eq_some_iff]
  constructor
  · rintro ⟨pt, hpt, hval⟩
    rw [Option.ite_none_right_eq_some] at hval
    exact ⟨pt, ⟨hr, tablePath_user hv, hpt⟩, hval.1, Option.some.inj hval.2⟩
  · rintro ⟨pt, hpt, hswap, rfl⟩
    exact ⟨pt, hpt.2.2, by rw [if_pos hswap]⟩

theorem inv_forget (h : Inv R pins m) : ∃ pins', Inv ∅ pins' m ∧ ∀ f r p, Node R m r p f → 0 < pins' f := by
  classical
  let pins' : Nat → Nat := fun f => pins f + if ∃ r p, Node R m r p f then 1 else 0
  have hempty : ∀ {r p f}, ¬ Node ∅ m r p f := fun hn => hn.1.elim
  have hweight : ∀ g, weight ∅ pins' m g ≤ weight R pins m g := by
    intro g
    have hnone : nodes ∅ m g = ∅ := Set.eq_empty_of_forall_notMem fun _ hn => hempty hn.1
    unfold weight
    rw [hnone, Set.encard_empty, zero_add]
    dsimp only [pins']
    split
    · next hlinked =>
      obtain ⟨r, p, hn⟩ := hlinked
      have hone : 1 ≤ (nodes R m g).encard := Set.one_le_encard_iff_nonempty.2 ⟨_, node_mem hn⟩
      have hsum : ((cached m.cache g + (pins g + 1) : ℕ) : ℕ∞) = 1 + ((cached m.cache g + pins g : ℕ) : ℕ∞) := by
        push_cast
        ring
      rw [hsum]
      exact add_le_add_left hone _
    · exact le_add_self
  refine ⟨pins', ?_, fun f r p hn => ?_⟩
  · exact
      { pmm := h.pmm
        total := h.total
        highest := h.highest
        separated := fun hn => (hempty hn).elim
        inRange := fun hn => (hempty hn).elim
        pinned := fun {f} hf => by
          by_cases hlinked : ∃ r p, Node R m r p f
          · obtain ⟨r, p, hn⟩ := hlinked
            exact h.inRange hn
          · dsimp only [pins'] at hf
            rw [if_neg hlinked] at hf
            exact h.pinned hf
        noHuge := fun hn => (hempty hn).elim
        exclusive := fun hn => (hempty hn).elim
        cachedRange := h.cachedRange
        cachedLeaf := fun _ _ _ _ hn => (hempty hn).elim
        sound := h.sound.exchange hweight }
  · dsimp only [pins']
    rw [if_pos ⟨r, p, hn⟩]
    omega

end Leaves

/-! ## The fault at an evicted page -/

section Demand
variable {R : Set Nat} {pins : Nat → Nat} {m : Machine} {r faultPage pt f : Nat} {fs : FileSystem} {v : Vma}

theorem fill_tables (h : Inv R pins m) {o : Option Nat} {m₁ m₂ : Machine} {ok : Bool}
    (ha : m.allocPage = (o, m₁)) (ho : o = some f) (hfill : fillPage fs v faultPage f (m₁.zeroPage f) = some (ok, m₂))
    {q : List Nat} {t : Nat} (hn : Node R m r q t) : m₂.mem t = m.mem t := by
  obtain ⟨pins', hinv, hpins⟩ := inv_forget h
  have hun : ∀ {m : Machine} {f : Nat}, Unlinked ∅ m f := fun r p hn => hn.1.elim
  have hmem : m₁.mem = m.mem := congrArg (fun x => x.2.mem) ha.symm
  rcases owns_allocPage hinv with ⟨h1, -⟩ | ⟨g, h1, h2, -⟩
  · rw [ha] at h1
    rw [ho] at h1
    cases h1
  rw [ha] at h1 h2
  obtain rfl : f = g := Option.some.inj (ho.symm.trans h1)
  have hz : Owns ∅ pins' f (m₁.zeroPage f) := h2.setPage
  have hne : t ≠ f := by
    rintro rfl
    have hpos := hpins t r q hn
    have hzero := h2.unpinned
    omega
  have hdata : m₂.mem t = (m₁.zeroPage f).mem t := by
    have hspec := fillPage_spec hz hfill
    cases ok with
    | true => exact (hspec.ok rfl).1.data t (hpins t r q hn) hun
    | false => exact (hspec.fail rfl).data t (hpins t r q hn) hun
  rw [hdata]
  exact (Function.update_of_ne hne ..).trans (congrFun hmem t)

theorem ensureTable_present {t i : Nat} (h : isPresent (m.mem t i) = true) :
    ensureTable m t i = (some (frame (m.mem t i)), m) := if_pos h

theorem mapPage_of_table (ht : Node R m r (tablePath faultPage) pt) (flags : MapFlags) (f : Nat) :
    mapPage m r faultPage f flags = (true, m.setWord pt (ptIdx faultPage) (make (flags.entry false) f)) := by
  have hw := ht.2.2
  unfold tablePath at hw
  rw [walk_cons, Option.bind_eq_some_iff] at hw
  obtain ⟨pdpt, h1, hw⟩ := hw
  rw [walk_cons, Option.bind_eq_some_iff] at hw
  obtain ⟨pd, h2, hw⟩ := hw
  rw [walk_cons, Option.bind_eq_some_iff] at hw
  obtain ⟨pt', h3, hw⟩ := hw
  obtain rfl : pt' = pt := Option.some.inj hw
  obtain ⟨p1, rfl⟩ := follow_some.1 h1
  obtain ⟨p2, rfl⟩ := follow_some.1 h2
  obtain ⟨p3, rfl⟩ := follow_some.1 h3
  unfold mapPage
  rw [ensureTable_present p1]
  dsimp only [withTable]
  rw [ensureTable_present p2]
  dsimp only
  rw [ensureTable_present p3]

/-- **Demand paging over an evicted page**: the tables stay, and the entry becomes that of a new page. -/
theorem demand_over_swapped (h : Inv R pins m) (hr : r ∈ R) (hv : faultPage < userEnd)
    (ht : Node R m r (tablePath faultPage) pt) (habs : isPresent (m.mem pt (ptIdx faultPage)) = false) {m' : Machine}
    (hres : handleDemandPage fs r v faultPage m = some (true, m')) :
    ∃ m₂ f, Inv R (pins + pin f) m₂ ∧ TablesEq R m m₂ ∧
      m' = m₂.setWord pt (ptIdx faultPage) (make ((mapFlags v).entry false) f) := by
  have hnone : (translate m r faultPage).isSome = false := by
    rw [translate_eq h hr hv, leafPath, walk_concat, ht.2.2, Option.bind_some, follow_absent habs]
    rfl
  unfold handleDemandPage at hres
  rw [hnone, if_neg (by decide)] at hres
  rcases ha : m.allocPage with ⟨o, m₁⟩
  rw [ha] at hres
  cases o with
  | none => cases hres
  | some f =>
    obtain ⟨⟨ok, m₂⟩, hfill, hres⟩ := Option.bind_eq_some_iff.1 hres
    cases ok with
    | false => cases hres
    | true =>
      have htables : TablesEq R m m₂ := fun hn _ j => congrFun (fill_tables h ha rfl hfill hn) j
      have ht₂ := htables.node_iff.2 ht
      dsimp only at hres
      rw [mapPage_of_table ht₂] at hres
      have howns : Owns R pins f m₁ := by
        rcases owns_allocPage h with ⟨h1, -⟩ | ⟨g, h1, h2, -⟩
        · rw [ha] at h1
          cases h1
        · rw [ha] at h1 h2
          obtain rfl := Option.some.inj h1
          exact h2
      have hinv : Inv R (pins + pin f) m₂ := ((fillPage_spec howns.setPage hfill).ok rfl).2.inv
      exact ⟨m₂, f, hinv, htables, (congrArg Prod.snd (Option.some.inj hres)).symm⟩

end Demand

/-- The page at `virt` of process `pid` is out, in `slot`; no other entry refers to the slot. -/
structure Out (s : Swapping) (pid : Nat) (p : Process) (virt slot : Nat) : Prop where
  proc : s.system.procs pid = some p
  entry : swapSlotAt s.machine p.pageTable virt = some slot
  used : s.swap.free slot = false
  single : ∀ pid' p' virt', s.system.procs pid' = some p' → virt' < userEnd →
    swapSlotAt s.machine p'.pageTable virt' = some slot → pid' = pid ∧ leafPath virt' = leafPath virt

/-- The page at `virt`. -/
def pageAt (m : Machine) (pml4 virt : Nat) : Option (Nat → Word) :=
  (translate m pml4 virt).map fun phys => m.mem (phys / pageSize)

/-- An access brings the page back: the fault is resolved, the page is `page`, and the slot is in use if and only if
some entry refers to it. -/
def Restored (fs : FileSystem) (s : Swapping) (p : Process) (virt slot : Nat) (page : Nat → Word) (err : ErrorCode) :
    Prop :=
  ∃ s', resolve fs p virt err s = some (true, s') ∧ pageAt s'.machine p.pageTable virt = some page ∧
    (s'.swap.free slot = false ↔ s'.Refers slot)

section Access
variable {s : Swapping} {fs : FileSystem} {pid virt slot : Nat} {p : Process} {err : ErrorCode}

theorem getPTE_present {m : Machine} {r pt i : Nat} (h : getPTE m r virt = some (pt, i)) :
    isPresent (m.mem pt i) = true := by
  unfold getPTE at h
  obtain ⟨pdpt, -, h⟩ := Option.bind_eq_some_iff.1 h
  obtain ⟨pd, -, h⟩ := Option.bind_eq_some_iff.1 h
  dsimp only at h
  split at h
  · cases h
  obtain ⟨pt', -, h⟩ := Option.bind_eq_some_iff.1 h
  split at h
  · cases h
  obtain ⟨f, hf, h⟩ := Option.bind_eq_some_iff.1 h
  cases h
  exact (follow_some.1 hf).1

theorem resolveAbsent_eq (v : Vma) (faultPage : Nat) : resolveAbsent fs p v faultPage s =
    (handleDemandPage fs p.pageTable v faultPage s.machine).map fun (ok, m) => (ok, s.withMachine m) := by
  unfold resolveAbsent
  dsimp only
  split
  · cases hg : getPTE s.machine p.pageTable faultPage with
    | none => rfl
    | some x =>
      obtain ⟨pt, i⟩ := x
      dsimp only
      rw [if_neg (by rw [isSwapPte_of_present (getPTE_present hg)]; decide)]
  · rfl

theorem resolve_absent_some (herr : err.present = false) {s' : Swapping}
    (h : resolve fs p virt err s = some (true, s')) :
    ∃ v m', handleDemandPage fs p.pageTable v (pageBase virt) s.machine = some (true, m') ∧ s' = s.withMachine m' := by
  unfold resolve at h
  split at h
  · cases h
  split at h
  · cases h
  split at h
  · cases h
  next i hi =>
  obtain ⟨guard, -, h⟩ := Option.bind_eq_some_iff.1 h
  split at h
  · cases h
  rw [herr, Bool.not_false, if_pos rfl, resolveAbsent_eq] at h
  obtain ⟨⟨ok, m'⟩, hd, hval⟩ := Option.map_eq_some_iff.1 h
  cases hval
  exact ⟨_, m', hd, rfl⟩

/-- **No access brings an evicted page back.** -/
theorem not_restored (h : System.Sound s.system) (hv : virt < userEnd) (hout : Out s pid p virt slot)
    (herr : err.present = false) (page : Nat → Word) : ¬ Restored fs s p virt slot page err := by
  rintro ⟨s', hres, -, hlaw⟩
  obtain ⟨v, m', hd, rfl⟩ := resolve_absent_some herr hres
  have hr := System.mem_roots hout.proc
  obtain ⟨pt, ht, hswap, hslot⟩ := (swapSlotAt_iff hr hv).1 hout.entry
  have hpath : tablePath (pageBase virt) = tablePath virt ∧ ptIdx (pageBase virt) = ptIdx virt := by
    have hleaf : leafPath (pageBase virt) = leafPath virt := leafPath_pageBase
    obtain ⟨h1, h2⟩ := List.append_inj' hleaf rfl
    exact ⟨h1, (List.cons.inj h2).1⟩
  obtain ⟨m₂, f, hinv, htables, rfl⟩ := demand_over_swapped h.inv hr (pageBase_lt hv) (hpath.1 ▸ ht)
    (by rw [hpath.2]; exact not_present_of_isSwapPte hswap) hd
  rw [hpath.2] at hlaw
  obtain ⟨pid', p', virt', hp', hv', hentry⟩ := hlaw.1 hout.used
  have hr' := System.mem_roots hp'
  obtain ⟨pt', ht', hswap', hslot'⟩ := (swapSlotAt_iff hr' hv').1 hentry
  have ht₂ := htables.node_iff.2 ht
  have hold : Node (System.roots s.system.procs) s.machine p'.pageTable (tablePath virt') pt' :=
    htables.node_iff.1 ((node_setLeaf hinv ht₂ rfl (leafPath_user hv) le_rfl).1 ht')
  by_cases hsame : pt' = pt ∧ ptIdx virt' = ptIdx virt
  · obtain ⟨rfl, hidx⟩ := hsame
    have hword : (s.withMachine (m₂.setWord pt' (ptIdx virt) (make ((mapFlags v).entry false) f))).machine.mem pt'
        (ptIdx virt') = make ((mapFlags v).entry false) f := by
      rw [hidx]
      exact mem_setWord_same ..
    rw [hword, isSwapPte_of_present (by rw [isPresent_make]; rfl)] at hswap'
    cases hswap'
  · have hword : (s.withMachine (m₂.setWord pt (ptIdx virt) (make ((mapFlags v).entry false) f))).machine.mem pt'
        (ptIdx virt') = s.machine.mem pt' (ptIdx virt') :=
      (mem_setWord_of_ne hsame).trans (htables hold le_rfl _)
    rw [hword] at hswap' hslot'
    obtain ⟨rfl, hleaf⟩ := hout.single pid' p' virt' hp' hv' ((swapSlotAt_iff hr' hv').2 ⟨pt', hold, hswap', hslot'⟩)
    obtain ⟨htp, hip⟩ := List.append_inj' hleaf rfl
    obtain rfl := Option.some.inj (hp'.symm.trans hout.proc)
    rw [htp] at hold
    exact hsame ⟨hold.unique ht, (List.cons.inj hip).1⟩

end Access

/-! ## Evictions -/

theorem exists_virt {q : List Nat} {i : Nat} (hl : q.length = 3) (hu : UserPath (q ++ [i])) :
    ∃ virt, virt < userEnd ∧ tablePath virt = q ∧ ptIdx virt = i := by
  match q, hl with
  | [a, b, c], _ =>
    have ha : a < 256 := hu.2.2 a rfl
    have hb : b < 512 := hu.2.1 b (by simp)
    have hc : c < 512 := hu.2.1 c (by simp)
    have hi : i < 512 := hu.2.1 i (by simp)
    refine ⟨a * 2 ^ 39 + b * 2 ^ 30 + c * 2 ^ 21 + i * 2 ^ 12, by unfold userEnd; omega, ?_, by unfold ptIdx; omega⟩
    have h1 : pml4Idx (a * 2 ^ 39 + b * 2 ^ 30 + c * 2 ^ 21 + i * 2 ^ 12) = a := by unfold pml4Idx; omega
    have h2 : pdptIdx (a * 2 ^ 39 + b * 2 ^ 30 + c * 2 ^ 21 + i * 2 ^ 12) = b := by unfold pdptIdx; omega
    have h3 : pdIdx (a * 2 ^ 39 + b * 2 ^ 30 + c * 2 ^ 21 + i * 2 ^ 12) = c := by unfold pdIdx; omega
    unfold tablePath
    rw [h1, h2, h3]

/-- The sweep so far: accessed bits were cleared, and nothing else. -/
structure Swept (s₀ s : Swapping) : Prop where
  procs : s.system.procs = s₀.system.procs
  free : s.swap.free = s₀.swap.free
  inv : Inv (System.roots s₀.system.procs) 0 s.machine
  follow : follow s.machine = follow s₀.machine
  absent : ∀ t i, isPresent (s.machine.mem t i) = false → s.machine.mem t i = s₀.machine.mem t i
  data : ∀ {r p f}, Node (System.roots s₀.system.procs) s₀.machine r p f → p.length = 4 →
    s.machine.mem f = s₀.machine.mem f

/-- The page at `virt` was evicted to `slot`. -/
structure EvictedAt (s₀ s : Swapping) (pid : Nat) (p : Process) (virt slot pt : Nat) : Prop where
  proc : s₀.system.procs pid = some p
  user : virt < userEnd
  table : Node (System.roots s₀.system.procs) s₀.machine p.pageTable (tablePath virt) pt
  present : isPresent (s₀.machine.mem pt (ptIdx virt)) = true
  slot_lt : slot < maxSwapSlots
  slot_free : s₀.swap.free slot = true
  procs : s.system.procs = s₀.system.procs
  free : s.swap.free = Function.update s₀.swap.free slot false
  stored : s.swap.file.pages slot = s₀.machine.mem (frame (s₀.machine.mem pt (ptIdx virt)))
  inv : Inv (System.roots s₀.system.procs) 0 s.machine
  entry : s.machine.mem pt (ptIdx virt) = swapPte slot
  nodes : ∀ {r q t}, q.length ≤ 3 → (Node (System.roots s₀.system.procs) s.machine r q t ↔
    Node (System.roots s₀.system.procs) s₀.machine r q t)
  absent : ∀ t i, ¬ (t = pt ∧ i = ptIdx virt) → isPresent (s.machine.mem t i) = false →
    s.machine.mem t i = s₀.machine.mem t i

abbrev Sweeps (s₀ : Swapping) : Option Bool × Swapping → Prop :=
  Loop.Found (Swept s₀) fun b s => b = true → ∃ pid p virt slot pt, EvictedAt s₀ s pid p virt slot pt

section Sweep
variable {s₀ s : Swapping} {pid i t : Nat} {p : Process} {q : List Nat}

theorem Swept.node (h : Swept s₀ s) {r f : Nat} {p' : List Nat} :
    Node (System.roots s₀.system.procs) s.machine r p' f ↔ Node (System.roots s₀.system.procs) s₀.machine r p' f := by
  unfold Node
  rw [h.follow]

theorem allocSwapSlot_some {sw sw' : State} {slot : Nat} (h : allocSwapSlot sw = (some slot, sw')) :
    slot < maxSwapSlots ∧ sw.free slot = true ∧ sw' = { sw with free := Function.update sw.free slot false, used := sw.used + 1 } := by
  unfold allocSwapSlot at h
  split at h
  · cases h
  · next i hfind =>
    cases h
    have hmem := List.mem_of_find?_eq_some hfind
    rw [List.mem_range'_1] at hmem
    refine ⟨?_, List.find?_some hfind, rfl⟩
    unfold maxSwapSlots at hmem ⊢
    omega

/-- **One entry of the sweep.** -/
theorem evictEntry_spec (h : Swept s₀ s) (hp : s₀.system.procs pid = some p)
    (ht : Node (System.roots s₀.system.procs) s₀.machine p.pageTable q t) (hl : q.length = 3)
    (hslot : UserPath (q ++ [i])) : Sweeps s₀ (evictEntry t i s) := by
  have hts := h.node.2 ht
  unfold evictEntry
  dsimp only
  split
  · exact ⟨fun _ => h, by intros; contradiction⟩
  next hpres =>
  have hpres : isPresent (s.machine.mem t i) = true := by simpa using hpres
  have hleaf : Node (System.roots s₀.system.procs) s.machine p.pageTable (q ++ [i]) (frame (s.machine.mem t i)) :=
    hts.concat hslot (follow_some.2 ⟨hpres, rfl⟩)
  split
  · -- the accessed bit is cleared
    refine ⟨fun _ => ?_, by intros; contradiction⟩
    obtain ⟨hinv, hkeep, -⟩ := h.inv.reflag (D := fun _ _ => False) (w := clearAccessed (s.machine.mem t i)) hts hl hslot
      isPresent_clearAccessed frame_clearAccessed fun hp' hw r' p' hn => by
        rw [frame_clearAccessed] at hn
        rw [isWritable_clearAccessed] at hw
        exact h.inv.exclusive hts hl (hslot.2.1 i (by simp)) hpres hw hn
    have hfollow : follow (s.machine.setWord t i (clearAccessed (s.machine.mem t i))) = follow s.machine :=
      follow_reflag isPresent_clearAccessed frame_clearAccessed
    refine ⟨h.procs, h.free, hinv, hfollow.trans h.follow, fun t' i' habs => ?_, fun hn hl' => ?_⟩
    · by_cases hsame : t' = t ∧ i' = i
      · obtain ⟨rfl, rfl⟩ := hsame
        have hword : (s.machine.setWord t' i' (clearAccessed (s.machine.mem t' i'))).mem t' i' = _ :=
          mem_setWord_same ..
        have habs : isPresent ((s.machine.setWord t' i' (clearAccessed (s.machine.mem t' i'))).mem t' i') = false := habs
        rw [hword, isPresent_clearAccessed, hpres] at habs
        cases habs
      · have hword : (s.machine.setWord t i (clearAccessed (s.machine.mem t i))).mem t' i' = s.machine.mem t' i' :=
          mem_setWord_of_ne hsame
        have habs : isPresent ((s.machine.setWord t i (clearAccessed (s.machine.mem t i))).mem t' i') = false := habs
        rw [hword] at habs
        exact hword.trans (h.absent t' i' habs)
    · exact (hkeep.data (h.node.2 hn) hl' id).trans (h.data hn hl')
  split
  · exact ⟨fun _ => h, by intros; contradiction⟩
  split
  · exact ⟨fun _ => h, by intros; contradiction⟩
  rcases halloc : allocSwapSlot s.swap with ⟨o, swap⟩
  cases o with
  | none => exact ⟨by intros; contradiction, fun b hb hb' => by cases hb; cases hb'⟩
  | some slot =>
    obtain ⟨hlt, hfree, rfl⟩ := allocSwapSlot_some halloc
    dsimp only
    rcases hwrite : writeSwapPage slot (s.machine.mem (frame (s.machine.mem t i)))
      { s.swap with free := Function.update s.swap.free slot false, used := s.swap.used + 1 } with ⟨ok, swap'⟩
    unfold writeSwapPage at hwrite
    split at hwrite
    · cases hwrite
      refine ⟨by intros; contradiction, fun b hb _ => ?_⟩
      obtain ⟨virt, hv, hpath, hidx⟩ := exists_virt hl hslot
      -- what the entry was before the sweep
      have hold : isPresent (s₀.machine.mem t i) = true ∧ frame (s₀.machine.mem t i) = frame (s.machine.mem t i) := by
        have hf : follow s.machine t i = some (frame (s.machine.mem t i)) := follow_some.2 ⟨hpres, rfl⟩
        rw [h.follow] at hf
        exact follow_some.1 hf
      have hword : (s.machine.setWord t i (swapPte slot)).mem t i = swapPte slot := mem_setWord_same ..
      have hinv : Inv (System.roots s₀.system.procs) (0 + pin (frame (s.machine.mem t i)))
          (s.machine.setWord t i (swapPte slot)) := by
        refine h.inv.relink hts hl.le hslot (fun hp' => ?_) (fun {f} hf => ?_) fun g => ?_
        · rw [isPresent_swapPte] at hp'
          cases hp'
        · rw [zero_add, pin_apply] at hf
          split at hf
          · next heq =>
            rw [heq]
            exact h.inv.inRange hleaf
          · exact absurd hf (by decide)
        · have h1 : hits (swapPte slot) g = 0 := by
            unfold hits
            rw [isPresent_swapPte]
            rfl
          have h2 : hits (s.machine.mem t i) g = pin (frame (s.machine.mem t i)) g := by
            simp only [hits, hpres, pin_apply, true_and, eq_comm (a := g)]
          have hsw : slotWeight q.length = 1 := by
            rw [hl]
            rfl
          rw [h1, h2, hsw]
          simp
      refine ⟨pid, p, virt, slot, t, ⟨hp, hv, hpath ▸ ht, hidx ▸ hold.1, hlt, h.free ▸ hfree, h.procs, ?_, ?_,
        hinv.freePage, hidx ▸ hword, fun {r q' t'} hq' => ?_, fun t' i' hne habs => ?_⟩⟩
      · exact congrArg (fun x => Function.update x slot false) h.free
      · have hsame := h.data (h.node.1 hleaf) (by simp [hl])
        rw [hidx, hold.2, ← hsame]
        exact Function.update_self ..
      · exact (node_setLeaf h.inv hts hl hslot hq').trans h.node
      · rw [hidx] at hne
        have hw : (s.machine.setWord t i (swapPte slot)).mem t' i' = s.machine.mem t' i' := mem_setWord_of_ne hne
        have habs : isPresent ((s.machine.setWord t i (swapPte slot)).mem t' i') = false := habs
        rw [hw] at habs
        exact hw.trans (h.absent t' i' habs)
    · cases hwrite
      exact ⟨by intros; contradiction, fun b hb hb' => by cases hb; cases hb'⟩

theorem evictPt_spec (h : Swept s₀ s) (hp : s₀.system.procs pid = some p)
    (ht : Node (System.roots s₀.system.procs) s₀.machine p.pageTable q t) (hl : q.length = 3) :
    Sweeps s₀ (evictPt t s) := by
  refine Loop.search_rule _ _ _ (fun i hi s hs => ?_) h
  exact evictEntry_spec hs hp ht hl (ht.2.1.concat hl.le (List.mem_range.1 hi) fun hq => by rw [hq] at hl; cases hl)

theorem evictPd_spec (h : Swept s₀ s) (hp : s₀.system.procs pid = some p)
    (ht : Node (System.roots s₀.system.procs) s₀.machine p.pageTable q t) (hl : q.length = 2) :
    Sweeps s₀ (evictPd t s) := by
  refine Loop.search_rule _ _ _ (fun i hi s hs => ?_) h
  unfold evictPdEntry
  dsimp only
  split
  · exact ⟨fun _ => hs, nofun⟩
  next hgo =>
  have hpres : isPresent (s.machine.mem t i) = true := by
    simp only [Bool.or_eq_true, not_or, Bool.not_eq_true, Bool.not_eq_false'] at hgo
    exact hgo.1.1
  have hslot : UserPath (q ++ [i]) :=
    ht.2.1.concat (by omega) (List.mem_range.1 hi) fun hq => by rw [hq] at hl; cases hl
  have hnode := hs.node.1 ((hs.node.2 ht).concat hslot (follow_some.2 ⟨hpres, rfl⟩))
  exact evictPt_spec hs hp hnode (by simp [hl])

theorem evictPdpt_spec (h : Swept s₀ s) (hp : s₀.system.procs pid = some p)
    (ht : Node (System.roots s₀.system.procs) s₀.machine p.pageTable q t) (hl : q.length = 1) :
    Sweeps s₀ (evictPdpt t s) := by
  have hsearch : Loop.Found (Swept s₀) (fun r s' => Sweeps s₀ (r, s'))
      (Loop.search (evictPdptEntry t) (List.range 512) s) := by
    refine Loop.search_rule _ _ _ (fun i hi s hs => ?_) h
    unfold evictPdptEntry
    dsimp only
    split
    · exact ⟨fun _ => hs, nofun⟩
    next hgo =>
    have hpres : isPresent (s.machine.mem t i) = true := by
      simp only [Bool.or_eq_true, not_or, Bool.not_eq_true, Bool.not_eq_false'] at hgo
      exact hgo.1
    have hslot : UserPath (q ++ [i]) :=
      ht.2.1.concat (by omega) (List.mem_range.1 hi) fun hq => by rw [hq] at hl; cases hl
    have hnode := hs.node.1 ((hs.node.2 ht).concat hslot (follow_some.2 ⟨hpres, rfl⟩))
    have hpd := evictPd_spec hs hp hnode (by simp [hl])
    rcases hr : evictPd (frame (s.machine.mem t i)) s with ⟨r, s'⟩
    rw [hr] at hpd
    refine ⟨nofun, fun r' hr' => ?_⟩
    obtain rfl := Option.some.inj hr'
    exact hpd
  unfold evictPdpt
  rcases hr : Loop.search (evictPdptEntry t) (List.range 512) s with ⟨o, s'⟩
  rw [hr] at hsearch
  cases o with
  | none => exact ⟨fun _ => hsearch.none rfl, nofun⟩
  | some r => exact hsearch.some r rfl

theorem evictAt_spec (h : Swept s₀ s) (current : Option Nat) (procIdx pml4Idx : Nat) :
    Sweeps s₀ (evictAt current procIdx pml4Idx s) := by
  unfold evictAt
  cases hp : s.system.procs procIdx with
  | none => exact ⟨fun _ => h, nofun⟩
  | some p =>
    dsimp only
    rw [h.procs] at hp
    split
    · exact ⟨fun _ => h, nofun⟩
    next hgo =>
    cases hf : follow s.machine p.pageTable pml4Idx with
    | none => exact ⟨fun _ => h, nofun⟩
    | some pdpt =>
      dsimp only
      split
      · exact ⟨fun _ => h, nofun⟩
      · rw [not_or] at hgo
        have hslot : UserPath ([] ++ [pml4Idx]) :=
          UserPath.concat (p := []) ⟨by simp, by simp, by simp⟩ (by simp) (by omega) fun _ => by omega
        have hnode := h.node.1 ((node_root (System.mem_roots hp)).concat hslot hf)
        exact evictPdpt_spec h hp hnode rfl

theorem evictLoop_spec (h : Swept s₀ s) (current : Option Nat) (attempts : Nat)
    (hok : (evictLoop current attempts s).1 = true) :
    ∃ pid p virt slot pt, EvictedAt s₀ (evictLoop current attempts s).2 pid p virt slot pt := by
  induction attempts generalizing s with
  | zero => cases hok
  | succ attempts ih =>
    unfold evictLoop at hok ⊢
    dsimp only at hok ⊢
    have hclock : Swept s₀ { s with
        swap := { s.swap with clockHand := (s.swap.clockHand + 1) % (maxProcesses * 512) } } :=
      ⟨h.procs, h.free, h.inv, h.follow, h.absent, h.data⟩
    have hat := evictAt_spec hclock current (s.swap.clockHand / 512) (s.swap.clockHand % 512)
    rcases hr : evictAt current (s.swap.clockHand / 512) (s.swap.clockHand % 512)
      { s with swap := { s.swap with clockHand := (s.swap.clockHand + 1) % (maxProcesses * 512) } } with ⟨o, s'⟩
    rw [hr] at hat hok
    cases o with
    | none => exact ih (hat.none rfl) hok
    | some b => exact hat.some b rfl hok

/-- **An eviction** moves one page of one process to a free slot, and nothing else. -/
theorem evictOnePage_spec (h : System.Sound s₀.system) (current : Option Nat) (hok : evictOnePage current s₀ = (true, s)) :
    ∃ pid p virt slot pt, EvictedAt s₀ s pid p virt slot pt := by
  have hstart : Swept s₀ s₀ := ⟨rfl, rfl, h.inv, rfl, fun _ _ _ => rfl, fun _ _ => rfl⟩
  unfold evictOnePage at hok
  split at hok
  · cases hok
  · generalize 2 * maxProcesses * 512 = attempts at hok
    have hloop := evictLoop_spec hstart current attempts (by rw [hok])
    rw [hok] at hloop
    exact hloop

end Sweep

/-! ## The round trip -/

section RoundTrip
variable {s s' : Swapping} {pid virt slot pt : Nat} {p : Process}

theorem EvictedAt.out (h : EvictedAt s s' pid p virt slot pt) (hs : System.Sound s.system)
    (hused : ∀ slot, s.Refers slot → s.swap.free slot = false) : Out s' pid p virt slot := by
  have hproc : s'.system.procs pid = some p := by rw [h.procs, h.proc]
  have hr : p.pageTable ∈ System.roots s.system.procs := System.mem_roots h.proc
  have hentry : swapSlotAt s'.machine p.pageTable virt = some slot := by
    refine (swapSlotAt_iff hr h.user).2 ⟨pt, (h.nodes le_rfl).2 h.table, ?_, ?_⟩
    · rw [h.entry]
      exact isSwapPte_swapPte
    · rw [h.entry]
      exact getSwapSlot_swapPte h.slot_lt
  refine ⟨hproc, hentry, ?_, fun pid' p' virt' hp' hv' he => ?_⟩
  · rw [h.free, Function.update_self]
  · rw [h.procs] at hp'
    have hr' := System.mem_roots hp'
    obtain ⟨pt', ht', hswap', hslot'⟩ := (swapSlotAt_iff hr' hv').1 he
    have hold := (h.nodes le_rfl).1 ht'
    by_cases hsame : pt' = pt ∧ ptIdx virt' = ptIdx virt
    · obtain ⟨rfl, hidx⟩ := hsame
      obtain ⟨hroot, hpath⟩ := h.inv.separated ((h.nodes le_rfl).2 hold) ((h.nodes le_rfl).2 h.table) le_rfl
      exact ⟨hs.distinct hp' h.proc hroot, by unfold leafPath; rw [hpath, hidx]⟩
    · have hword := h.absent pt' (ptIdx virt') hsame (not_present_of_isSwapPte hswap')
      rw [hword] at hswap' hslot'
      have hrefers : s.Refers slot := ⟨pid', p', virt', hp', hv', (swapSlotAt_iff hr' hv').2 ⟨pt', hold, hswap', hslot'⟩⟩
      have hfree := hused slot hrefers
      rw [h.slot_free] at hfree
      cases hfree

theorem EvictedAt.sound (h : EvictedAt s s' pid p virt slot pt) (hs : System.Sound s.system) : System.Sound s'.system := by
  refine ⟨?_, fun {pid pid' p p'} hp hp' => ?_⟩
  · rw [h.procs]
    exact h.inv
  · rw [h.procs] at hp hp'
    exact hs.distinct hp hp'

theorem EvictedAt.page (h : EvictedAt s s' pid p virt slot pt) (hs : System.Sound s.system) :
    pageAt s.machine p.pageTable virt = some (s'.swap.file.pages slot) := by
  have hr := System.mem_roots h.proc
  have hinv : Inv (System.roots s.system.procs) 0 s.machine := hs.inv
  unfold pageAt
  rw [translate_eq hinv hr h.user, leafPath, walk_concat, h.table.2.2, Option.bind_some,
    follow_some.2 ⟨h.present, rfl⟩, h.stored]
  have hdiv : (frame (s.machine.mem pt (ptIdx virt)) * pageSize + virt % 2 ^ 12) / pageSize =
      frame (s.machine.mem pt (ptIdx virt)) := by
    unfold pageSize
    omega
  rw [Option.map_some, Option.map_some, hdiv]

/-- **The round trip fails for every evicted page.** The page of a process that `evictOnePage` chose is out afterwards,
and no later access to it, as long as it is out, resolves the fault with the page of the eviction and leaves the slot in
use if and only if some entry refers to it. -/
theorem evicted_page_lost {fs : FileSystem} (h : System.Sound s.system)
    (hused : ∀ slot, s.Refers slot → s.swap.free slot = false) (current : Option Nat)
    (hevict : evictOnePage current s = (true, s')) :
    ∃ pid p virt slot page, s.system.procs pid = some p ∧ virt < userEnd ∧
      pageAt s.machine p.pageTable virt = some page ∧ s'.swap.file.pages slot = page ∧ System.Sound s'.system ∧
      Out s' pid p virt slot ∧
      ∀ (later : Swapping) (addr : Nat) (err : ErrorCode), System.Sound later.system → Out later pid p virt slot →
        leafPath addr = leafPath virt → addr < userEnd → err.present = false →
        ¬ Restored fs later p addr slot page err := by
  obtain ⟨pid, p, virt, slot, pt, hev⟩ := evictOnePage_spec h current hevict
  refine ⟨pid, p, virt, slot, _, hev.proc, hev.user, hev.page h, rfl, hev.sound h, hev.out h hused,
    fun later addr err hl hout haddr huser herr => ?_⟩
  have hout' : Out later pid p addr slot := by
    refine ⟨hout.proc, ?_, hout.used, fun pid' p' virt' hp' hv' he => ?_⟩
    · have hsame : tablePath addr = tablePath virt ∧ ptIdx addr = ptIdx virt := by
        obtain ⟨h1, h2⟩ := List.append_inj' haddr rfl
        exact ⟨h1, (List.cons.inj h2).1⟩
      have hr := System.mem_roots hout.proc
      obtain ⟨pt', ht', hw'⟩ := (swapSlotAt_iff hr hev.user).1 hout.entry
      rw [← hsame.1] at ht'
      rw [← hsame.2] at hw'
      exact (swapSlotAt_iff hr huser).2 ⟨pt', ht', hw'⟩
    · rw [haddr]
      exact hout.single pid' p' virt' hp' hv' he
  exact not_restored hl huser hout' herr _

end RoundTrip

/-! ### A page that comes back empty -/

section OnePage

def filledPage : Machine := Fork.onePage.storeByte 514 0 7

def filled : Swapping where
  system := CopyOut.family filledPage
  swap :=
    { active := true, free := fun slot => decide (0 < slot), used := 0, clockHand := 512,
      file := { pages := fun _ _ => 0, writable := fun _ => true, readable := fun _ => true } }

def evicted : Swapping := (evictOnePage (some 2) filled).2

def absentPage : ErrorCode where
  present := false
  write := false
  user := true

theorem filledPage_inv : Inv {513, 512} 0 filledPage := by
  have hpte : getPTE Fork.onePage 512 0x400000 = some (517, 0) := by decide +kernel
  obtain ⟨-, -, -, hleaf⟩ := getPTE_some Fork.onePage_inv (by simp) (by decide) hpte
  have hframe : frame (Fork.onePage.mem 517 0) = 514 := by decide +kernel
  rw [hframe] at hleaf
  exact Fork.onePage_inv.setPage fun hn => Fork.onePage_inv.leaf_of_leaf hleaf leafPath_length hn

/-- Frames that lead to each other only, and hold no entry of an evicted page. -/
theorem swapSlotAt_none {m : Machine} {frames : List Nat} (h : ∀ t ∈ frames, ∀ i < 512,
    isSwapPte (m.mem t i) = false ∧ (isPresent (m.mem t i) = true → frame (m.mem t i) ∈ frames))
    {r : Nat} (hr : r ∈ frames) (virt : Nat) : swapSlotAt m r virt = none := by
  have hstep : ∀ {t i f}, t ∈ frames → i < 512 → follow m t i = some f → f ∈ frames := by
    intro t i f ht hi hf
    obtain ⟨hpres, rfl⟩ := follow_some.1 hf
    exact (h t ht i hi).2 hpres
  rw [Option.eq_none_iff_forall_ne_some]
  intro slot hslot
  unfold swapSlotAt at hslot
  obtain ⟨pdpt, h1, hslot⟩ := Option.bind_eq_some_iff.1 hslot
  obtain ⟨pd, h2, hslot⟩ := Option.bind_eq_some_iff.1 hslot
  obtain ⟨pt, h3, hslot⟩ := Option.bind_eq_some_iff.1 hslot
  have hpt := hstep (hstep (hstep hr (Nat.mod_lt _ (by decide)) h1) pdptIdx_lt h2) pdIdx_lt h3
  rw [(h pt hpt _ ptIdx_lt).1] at hslot
  cases hslot

set_option maxRecDepth 10000 in
theorem filled_refers (slot : Nat) : ¬ filled.Refers slot := by
  have hframes : ∀ t ∈ [0, 512, 513, 514, 515, 516, 517], ∀ i < 512, isSwapPte (filledPage.mem t i) = false ∧
      (isPresent (filledPage.mem t i) = true → frame (filledPage.mem t i) ∈ [0, 512, 513, 514, 515, 516, 517]) := by
    decide +kernel
  rintro ⟨pid, p, virt, hp, -, hslot⟩
  have hnone : ∀ r ∈ [0, 512, 513, 514, 515, 516, 517], swapSlotAt filledPage r virt = none :=
    fun r hr => swapSlotAt_none hframes hr virt
  have hslot : swapSlotAt filledPage p.pageTable virt = some slot := hslot
  rcases CopyOut.family_procs hp with ⟨-, rfl⟩ | ⟨-, rfl⟩
  · rw [hnone _ (by simp [CopyOut.writer])] at hslot
    cases hslot
  · rw [hnone _ (by simp [CopyOut.writer])] at hslot
    cases hslot

set_option maxRecDepth 10000 in
/-- The evicted page held a byte; after the next access it is zero, and slot 1 stays in use without an entry. -/
theorem swapped_page_comes_back_empty :
    System.Sound filled.system ∧ (evictOnePage (some 2) filled).1 = true ∧
      (pageAt filled.machine 512 0x400000).map (fun page => Machine.pageByte page 0) = some 7 ∧
      swapSlotAt evicted.machine 512 0x400000 = some 1 ∧
      (resolve System.noFiles (CopyOut.writer 512) 0x400000 absentPage evicted).map (fun res => (res.1,
        (pageAt res.2.machine 512 0x400000).map fun page => Machine.pageByte page 0, res.2.swap.free 1,
        swapSlotAt res.2.machine 512 0x400000)) = some (true, some 0, false, none) ∧
      ∀ page, pageAt filled.machine 512 0x400000 = some page →
        ¬ Restored System.noFiles evicted (CopyOut.writer 512) 0x400000 1 page absentPage := by
  have hbefore : (pageAt filled.machine 512 0x400000).map (fun page => Machine.pageByte page 0) = some 7 := by
    decide +kernel
  have hafter : (resolve System.noFiles (CopyOut.writer 512) 0x400000 absentPage evicted).map (fun res => (res.1,
      (pageAt res.2.machine 512 0x400000).map fun page => Machine.pageByte page 0, res.2.swap.free 1,
      swapSlotAt res.2.machine 512 0x400000)) = some (true, some 0, false, none) := by decide +kernel
  refine ⟨CopyOut.family_sound filledPage_inv, by decide +kernel, hbefore, by decide +kernel, hafter, ?_⟩
  rintro page hpage ⟨s', hres, hpage', -⟩
  rw [hpage] at hbefore
  rw [hres] at hafter
  have hzero : (pageAt s'.machine 512 0x400000).map (fun page => Machine.pageByte page 0) = some 0 :=
    congrArg (fun x => x.2.1) (Option.some.inj hafter)
  rw [show pageAt s'.machine 512 0x400000 = some page from hpage'] at hzero
  exact absurd (hbefore.symm.trans hzero) (by decide)

set_option maxRecDepth 10000 in
theorem evicted_page_lost_filled :
    (∀ slot, filled.Refers slot → filled.swap.free slot = false) ∧
      ∃ pid p virt slot page, filled.system.procs pid = some p ∧ virt < userEnd ∧
        pageAt filled.machine p.pageTable virt = some page ∧ evicted.swap.file.pages slot = page ∧
        System.Sound evicted.system ∧ Out evicted pid p virt slot ∧
        ∀ (later : Swapping) (addr : Nat) (err : ErrorCode), System.Sound later.system → Out later pid p virt slot →
          leafPath addr = leafPath virt → addr < userEnd → err.present = false →
          ¬ Restored System.noFiles later p addr slot page err := by
  have hused : ∀ slot, filled.Refers slot → filled.swap.free slot = false := fun slot hr => absurd hr (filled_refers slot)
  have hok : (evictOnePage (some 2) filled).1 = true := by decide +kernel
  have hpair : evictOnePage (some 2) filled = (true, evicted) := Prod.ext hok rfl
  exact ⟨hused, evicted_page_lost (CopyOut.family_sound filledPage_inv) hused (some 2) hpair⟩

end OnePage

end Zigix.Swap
