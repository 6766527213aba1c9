import Zigix.Mm.SlabCalls

/-!
# Runs of the slab allocator

* `step`, `exec` : the calls of `kmalloc`, `kfree` and `shrink`, with what callers write and what the page allocator
  does otherwise; `Allowed` is what callers are held to;
* `Sound`, `slab_run_sound` : live objects are apart from all else, the counters and the lists are right;
* `Reclaims`, `slab_reclaim_iff` : when everything has been freed, all pages can go back exactly if no slab was ever
  made for the last class: a slab of one slot goes from the full list to the partial one and stays there.
-/

namespace Zigix.SlabAlloc

open Chains (Seg Threaded search search_seg)

variable {s s' : State} {live : List Object} {L : Nat → Shelf → List Nat} {F : Nat → List Nat}
  {a c i p : Nat} {w : Shelf} {o o' : Object} {k : Option Nat}

/-! ## The system -/

structure Sys where
  state : State
  live : List Object

inductive Event
  | kmalloc (size : Nat) (page : Option Nat)
  | kfree (o : Object)
  | shrink
  /-- callers write to memory -/
  | write (mem : Nat → Nat)
  /-- other users of the page allocator -/
  | others (free : Nat → Bool)

def boot (free : Nat → Bool) : Sys := ⟨init free, []⟩

def step (y : Sys) : Event → Option Sys
  | .kmalloc size page =>
    match kmalloc y.state size page with
    | (some a, s) => some ⟨s, ⟨a, size⟩ :: y.live⟩
    | (none, s) => some ⟨s, y.live⟩
  | .kfree o => (kfree y.state o.addr o.size).map fun s => ⟨s, y.live.erase o⟩
  | .shrink => (shrink y.state).map fun s => ⟨s, y.live⟩
  | .write mem => some ⟨{ y.state with mem }, y.live⟩
  | .others free => some ⟨{ y.state with free }, y.live⟩

def Allowed (y : Sys) : Event → Prop
  | .kmalloc size page => Granted y.state (pagesFor size) page
  | .kfree o => o ∈ y.live
  | .shrink => True
  | .write mem => ∀ i, y.state.Active i → ∀ a, a / pageSize = y.state.page i →
      (∀ o ∈ y.live, a + 8 ≤ o.addr ∨ o.addr + o.size ≤ a) → mem a = y.state.mem a
  | .others free => (∀ i, y.state.Active i → free (y.state.page i) = false) ∧
      ∀ o ∈ y.live, ∀ p, o.Large p → free p = false

def exec : Sys → List Event → Option Sys
  | y, [] => some y
  | y, e :: es => (step y e).bind fun y => exec y es

/-- Every step of a run meets a condition on the state before it. -/
def Each (P : Sys → Event → Prop) : Sys → List Event → Prop
  | _, [] => True
  | y, e :: es => P y e ∧ ∀ y', step y e = some y' → Each P y' es

/-! ## Where objects lie -/

theorem Core.slot (h : Core s live F) (ho : o ∈ live) (hc : sizeClassIndex o.size = some c) :
    ∃ i, s.Active i ∧ s.page i = o.addr / pageSize ∧ o.addr ∈ liveOn live (s.page i) ∧
      o.size ≤ (s.caches (s.pool i).cacheIdx).objectSize := by
  obtain ⟨i, hi, rfl, hip⟩ := h.small o ho c hc
  refine ⟨i, hi, hip, mem_liveOn.2 ⟨⟨o, ho, rfl⟩, hip.symm⟩, ?_⟩
  rw [h.caches.size _ (h.ok i hi).cls]
  exact (sizeClassIndex_some hc).2

theorem Core.on_page (h : Core s live F) (hi : s.Active i)
    (hm : o.addr ∈ liveOn live (s.page i)) (hsize : o.size ≤ (s.caches (s.pool i).cacheIdx).objectSize) :
    s.page i * pageSize ≤ o.addr ∧ o.addr + o.size ≤ (s.page i + 1) * pageSize := by
  have hok := h.ok i hi
  obtain ⟨h1, h2, _⟩ := hok.mem_slots (hok.live_mem hm)
  omega

theorem Core.on_pages (h : Core s live F) (ho : o ∈ live) (hc : sizeClassIndex o.size = none) :
    o.addr = o.addr / pageSize * pageSize ∧
      o.addr + o.size ≤ (o.addr / pageSize + pagesFor o.size) * pageSize := by
  have hdvd := Nat.div_mul_cancel (h.aligned o ho hc)
  refine ⟨hdvd.symm, ?_⟩
  rw [Nat.add_mul, hdvd]
  unfold pagesFor
  simp only [pageSize]
  omega

theorem Object.not_large_iff (hc : sizeClassIndex o.size = none) :
    ¬ o.Large p ↔ p < o.addr / pageSize ∨ o.addr / pageSize + pagesFor o.size ≤ p := by
  unfold Object.Large
  rw [and_iff_right hc]
  omega

theorem Core.apart_free (h : Core s live F) (ho : o ∈ live) (hi : s.Active i) (ha : a ∈ F i) :
    a + (s.caches (s.pool i).cacheIdx).objectSize ≤ o.addr ∨ o.addr + o.size ≤ a := by
  have hok := h.ok i hi
  have hslot := hok.free_mem ha
  obtain ⟨h1, h2, _⟩ := hok.mem_slots hslot
  cases hc : sizeClassIndex o.size with
  | some c =>
    obtain ⟨j, hj, hjp, hm, hsize⟩ := h.slot ho hc
    by_cases hji : j = i
    · subst hji
      have hne : a ≠ o.addr := fun he =>
        List.disjoint_of_nodup_append (hok.nodup h.caches) ha (he ▸ hm)
      rcases slots_apart hslot (hok.live_mem hm) hne with hle | hle <;> omega
    · obtain ⟨h3, h4⟩ := h.on_page hj hm hsize
      have hne := h.page_ne hi hj hji
      simp only [pageSize] at *
      omega
  | none =>
    obtain ⟨h3, h4⟩ := h.on_pages ho hc
    have hne := (Object.not_large_iff hc).1 fun hl => (h.large o ho _ hl).2 i hi rfl
    simp only [pageSize] at *
    omega

theorem Core.apart_live (h : Core s live F) : live.Pairwise fun o o' =>
    o.addr + o.size ≤ o'.addr ∨ o'.addr + o'.size ≤ o.addr := by
  rw [List.pairwise_iff_forall_sublist]
  intro o o' hsub
  have ho : o ∈ live := hsub.subset List.mem_cons_self
  have ho' : o' ∈ live := hsub.subset (List.mem_cons_of_mem _ List.mem_cons_self)
  cases hc : sizeClassIndex o.size with
  | some c =>
    obtain ⟨i, hi, hip, hm, hsize⟩ := h.slot ho hc
    obtain ⟨h1, h2⟩ := h.on_page hi hm hsize
    cases hc' : sizeClassIndex o'.size with
    | some c' =>
      obtain ⟨j, hj, hjp, hm', hsize'⟩ := h.slot ho' hc'
      by_cases hji : j = i
      · subst hji
        have hok := h.ok j hj
        have hnd := (List.nodup_append.1 (hok.nodup h.caches)).2.1
        rw [liveOn, List.nodup_iff_pairwise_ne, List.pairwise_filter, List.pairwise_map,
          List.pairwise_iff_forall_sublist] at hnd
        have hne := hnd hsub (decide_eq_true hip.symm) (decide_eq_true hjp.symm)
        rcases slots_apart (hok.live_mem hm) (hok.live_mem hm') hne with hle | hle <;> omega
      · obtain ⟨h3, h4⟩ := h.on_page hj hm' hsize'
        have hne := h.page_ne hi hj hji
        simp only [pageSize] at *
        omega
    | none =>
      obtain ⟨h3, h4⟩ := h.on_pages ho' hc'
      have hne := (Object.not_large_iff hc').1 fun hl => (h.large o' ho' _ hl).2 i hi rfl
      simp only [pageSize] at *
      omega
  | none =>
    obtain ⟨h1, h2⟩ := h.on_pages ho hc
    cases hc' : sizeClassIndex o'.size with
    | some c' =>
      obtain ⟨j, hj, hjp, hm', hsize'⟩ := h.slot ho' hc'
      obtain ⟨h3, h4⟩ := h.on_page hj hm' hsize'
      have hne := (Object.not_large_iff hc).1 fun hl => (h.large o ho _ hl).2 j hj rfl
      simp only [pageSize] at *
      omega
    | none =>
      obtain ⟨h3, h4⟩ := h.on_pages ho' hc'
      have hap := List.pairwise_iff_forall_sublist.1 h.apart hsub
      have hne := (Object.not_large_iff hc').1 (hap _ (o.large_self hc))
      have hne' := (Object.not_large_iff hc).1 fun hl => hap _ hl (o'.large_self hc')
      simp only [pageSize] at *
      omega

theorem Core.held (h : Core s live F) (ho : o ∈ live) (h1 : o.addr ≤ a) (h2 : a < o.addr + o.size) :
    s.free (a / pageSize) = false := by
  cases hc : sizeClassIndex o.size with
  | some c =>
    obtain ⟨i, hi, hip, hm, hsize⟩ := h.slot ho hc
    obtain ⟨h3, h4⟩ := h.on_page hi hm hsize
    have hpage : a / pageSize = s.page i := Nat.div_eq_of_lt_le (Nat.le_trans h3 h1) (Nat.lt_of_lt_of_le h2 h4)
    rw [hpage]
    exact (h.ok i hi).taken
  | none =>
    obtain ⟨h3, h4⟩ := h.on_pages ho hc
    refine (h.large o ho (a / pageSize) ⟨hc, Nat.div_le_div_right h1, ?_⟩).1
    exact Nat.div_lt_of_lt_mul (by rw [Nat.mul_comm]; omega)

/-! ## Steps -/

theorem Good.write (h : Good s live L F none) {mem : Nat → Nat} (hw : Allowed ⟨s, live⟩ (.write mem)) :
    Good { s with mem } live L F none := by
  have hcore := h.core
  refine ⟨⟨⟨hcore.caches.size, hcore.caches.pages, hcore.caches.active⟩, fun i hi => ?_, hcore.pages, hcore.small,
    hcore.aligned, hcore.large, hcore.apart⟩, ⟨h.shelved.threaded, h.shelved.apart⟩,
    ⟨h.filed.on, h.filed.off, fun c w i hi hk => ?_, h.filed.count⟩⟩
  · have hok := hcore.ok i hi
    refine hok.frame ⟨_, _, rfl⟩ rfl hok.taken (fun a ha => ?_) (.refl _) hok.sizes
    refine hw i hi a (hok.page_of_slot hcore.caches (hok.free_mem ha)) fun o ho => ?_
    have hsize := (hok.size hcore.caches).1
    exact (hcore.apart_free ho hi ha).imp_left fun hle => by omega
  · have hp := h.filed.placed c w i hi hk
    exact ⟨hp.full, hp.empty, hp.partly⟩

theorem init_good (free : Nat → Bool) : Good (init free) [] (fun _ _ => []) (fun _ => []) none := by
  have hno : ∀ i, ¬ (init free).Active i := fun i hi => Bool.noConfusion hi.2
  refine ⟨⟨⟨fun _ _ => rfl, fun _ => rfl, fun _ => rfl⟩, fun i hi => absurd hi (hno i),
    fun i _ hi => absurd hi (hno i), nofun, nofun, nofun, .nil⟩, ⟨fun _ _ => .nil _ _ _, nofun⟩,
    ⟨nofun, fun i hi => absurd hi (hno i), nofun, fun _ => rfl⟩⟩

/-- A `kmalloc` of the last class that can make a slab. -/
def Spares (y : Sys) : Event → Prop
  | .kmalloc size page => 2048 < size → size ≤ 4096 → Refused y.state page
  | _ => True

def Sys.Ok (y : Sys) : Prop := ∃ L F, Good y.state y.live L F none

structure Stepped (y : Sys) (e : Event) (y' : Sys) : Prop where
  ok : y'.Ok
  spares : Spares y e → ∀ j, y'.state.Single j ↔ y.state.Single j
  grows : ∀ j, y.state.Single j → y'.state.Single j
  one : ¬ Spares y e → ∃ j, y'.state.Single j

theorem Stepped.of_single {y y' : Sys} {e : Event} (hok : y'.Ok) (hs : ∀ j, y'.state.Single j ↔ y.state.Single j)
    (he : Spares y e) : Stepped y e y' :=
  ⟨hok, fun _ => hs, fun j => (hs j).2, fun hn => absurd he hn⟩

theorem sizeClassIndex_last (size : Nat) : sizeClassIndex size = some 8 ↔ 2048 < size ∧ size ≤ 4096 := by
  have hsmall : ∀ j (hj : j < sizeClasses.length), j < 8 → sizeClasses[j] ≤ 2048 := by decide
  rw [sizeClassIndex, List.findIdx?_eq_some_iff_getElem]
  constructor
  · rintro ⟨_, hle, hnot⟩
    have h7 := hnot 7 (by decide)
    rw [decide_eq_true_eq] at h7
    exact ⟨Nat.lt_of_not_le h7, of_decide_eq_true hle⟩
  · rintro ⟨hlt, hle⟩
    refine ⟨by decide, decide_eq_true hle, fun j hj => ?_⟩
    rw [decide_eq_true_eq]
    exact fun hs => absurd (hs.trans (hsmall j _ hj)) (Nat.not_le_of_lt hlt)

theorem step_good {y : Sys} {e : Event} (h : y.Ok) (he : Allowed y e) : ∃ y', step y e = some y' ∧ Stepped y e y' := by
  obtain ⟨L, F, hgood⟩ := h
  cases e with
  | kmalloc size page =>
    have hall := kmalloc_allocated hgood he
    have hlast := sizeClassIndex_last size
    have hspares : Spares y (.kmalloc size page) ↔ (sizeClassIndex size = some 8 → Refused y.state page) := by
      rw [hlast, and_imp]
      rfl
    have hone : ¬ Spares y (.kmalloc size page) → ∃ j, (kmalloc y.state size page).2.Single j := fun hn => by
      rw [hspares, Classical.not_imp] at hn
      exact hall.one hn.1 hn.2
    cases hk : kmalloc y.state size page with
    | mk x s' =>
      rw [hk] at hall hone
      have hstep : step y (.kmalloc size page) = some ⟨s', (x.map fun a => ⟨a, size⟩).toList ++ y.live⟩ := by
        simp only [step, hk]
        cases x <;> rfl
      refine ⟨_, hstep, ⟨?_, fun hs => hall.single (hspares.1 hs), hall.grows, hone⟩⟩
      cases x with
      | none =>
        obtain rfl : s' = y.state := hall.failed rfl
        exact ⟨L, F, hgood⟩
      | some a => exact hall.good a rfl
  | kfree o =>
    obtain ⟨s', L', F', hs', hgood', hsingle⟩ := kfree_good hgood he
    refine ⟨⟨s', y.live.erase o⟩, ?_, .of_single ⟨L', F', hgood'⟩ hsingle trivial⟩
    rw [step, hs']
    rfl
  | shrink =>
    obtain ⟨s', L', hs', hgood', hsh⟩ := shrink_good hgood
    refine ⟨⟨s', y.live⟩, ?_, .of_single ⟨L', F, hgood'⟩ hsh.single trivial⟩
    rw [step, hs']
    rfl
  | write mem =>
    exact ⟨_, rfl, .of_single ⟨L, F, hgood.write he⟩ (fun _ => Iff.rfl) trivial⟩
  | others free =>
    refine ⟨_, rfl, .of_single ⟨L, F, hgood.reframe free (fun _ _ => .refl _) he.1 (fun _ ho _ _ => ho)
      (fun o ho hc => ⟨hgood.core.aligned o ho hc, fun p hp => ⟨he.2 o ho p hp, (hgood.core.large o ho p hp).2⟩⟩)
      hgood.core.apart⟩ (fun _ => Iff.rfl) trivial⟩

/-- **Runs.** Every allowed run ends and keeps the invariants. -/
theorem exec_good {y : Sys} {es : List Event} (h : y.Ok) (he : Each Allowed y es) :
    ∃ y', exec y es = some y' ∧ y'.Ok := by
  induction es generalizing y with
  | nil => exact ⟨y, rfl, h⟩
  | cons e es ih =>
    obtain ⟨y₁, hy₁, hst⟩ := step_good h he.1
    obtain ⟨y', hy', hok⟩ := ih hst.ok (he.2 y₁ hy₁)
    refine ⟨y', ?_, hok⟩
    rw [exec, hy₁]
    exact hy'

/-! ## What every run keeps -/

/-- Slab `i` is found on list `w` of cache `c`. -/
def OnList (s : State) (c : Nat) (w : Shelf) (i : Nat) : Prop :=
  search s.next nullSlab (· == i) fuel (s.head c w) = some (some i)

instance (s : State) (c : Nat) (w : Shelf) (i : Nat) : Decidable (OnList s c w i) :=
  inferInstanceAs (Decidable (_ = _))

theorem Good.onList_iff (h : Good s live L F k) : OnList s c w i ↔ i ∈ L c w := by
  have hthr := h.shelved.threaded c w
  rw [OnList, search_seg hthr.seg hthr.no_null (h.length_lt c w), Option.some.injEq]
  constructor
  · exact List.mem_of_find?_eq_some
  · intro hi
    cases hres : (L c w).find? (· == i) with
    | none => exact absurd (beq_self_eq_true i) (List.find?_eq_none.1 hres i hi)
    | some j => rw [eq_of_beq (List.find?_some (p := (· == i)) hres)]

structure Sound (s : State) (live : List Object) : Prop where
  apart : live.Pairwise fun o o' => o.addr + o.size ≤ o'.addr ∨ o'.addr + o'.size ≤ o.addr
  slots : ∀ i, s.Active i → ∃ f, Seg s.mem (s.pool i).nextFree f 0 ∧ ∀ a ∈ f, ∀ o ∈ live,
    a + (s.caches (s.pool i).cacheIdx).objectSize ≤ o.addr ∨ o.addr + o.size ≤ a
  held : ∀ o ∈ live, ∀ a, o.addr ≤ a → a < o.addr + o.size → s.free (a / pageSize) = false
  count : ∀ i, s.Active i →
    (s.pool i).inUse = (live.filter fun o => o.addr / pageSize = s.page i).length
  lists : ∀ i, s.Active i → ∃ w, ∀ v, OnList s (s.pool i).cacheIdx v i ↔ v = w
  full : ∀ i, s.Active i → (OnList s (s.pool i).cacheIdx .full i ↔ (s.pool i).nextFree = 0)

theorem Good.sound (h : Good s live L F none) : Sound s live where
  apart := h.core.apart_live
  slots i hi := ⟨F i, (h.core.ok i hi).chain, fun _ ha _ ho => h.core.apart_free ho hi ha⟩
  held _ ho _ h1 h2 := h.core.held ho h1 h2
  count i hi := by
    rw [(h.core.ok i hi).count, liveOn, List.filter_map, List.length_map]
    rfl
  lists i hi := by
    obtain ⟨w, hw⟩ := h.filed.off i hi
    refine ⟨w, fun v => ?_⟩
    rw [h.onList_iff]
    constructor
    · exact fun hv => (h.shelved.apart hw hv).2
    · rintro rfl
      exact hw
  full i hi := by
    obtain ⟨w, hw⟩ := h.filed.off i hi
    rw [h.onList_iff, (h.core.ok i hi).nextFree_eq_zero_iff]
    have hfull := (h.filed.placed _ w i hw (by simp)).full
    constructor
    · intro hm
      exact hfull.1 (h.shelved.apart hm hw).2
    · intro hnil
      rwa [hfull.2 hnil] at hw

/-- **Soundness of the slab allocator.** In whatever order objects are allocated and freed, live objects overlap
nothing, and every slab is counted and filed right. -/
theorem slab_run_sound (free : Nat → Bool) (es : List Event) (h : Each Allowed (boot free) es) :
    ∃ y, exec (boot free) es = some y ∧ Sound y.state y.live := by
  obtain ⟨y, hy, L, F, hgood⟩ := exec_good ⟨_, _, init_good free⟩ h
  exact ⟨y, hy, hgood.sound⟩

def onePage : Nat → Bool := (· == 1)

def pageRun (size : Nat) : List Event := [.kmalloc size (some 1), .kfree ⟨4096, size⟩]

theorem pageRun_allowed {size : Nat} (hpages : pagesFor size = 1)
    (hlive : (step (boot onePage) (.kmalloc size (some 1))).map Sys.live = some [⟨4096, size⟩]) :
    Each Allowed (boot onePage) (pageRun size) := by
  refine ⟨fun p hp => ?_, fun y hy => ⟨?_, fun _ _ => trivial⟩⟩
  · cases hp
    refine ⟨by decide, fun q h1 h2 => ?_⟩
    rw [hpages] at h2
    have hq : q = 1 := Nat.le_antisymm (Nat.lt_succ_iff.1 h2) h1
    rw [hq]
    rfl
  · rw [hy] at hlive
    have hmem : (⟨4096, size⟩ : Object) ∈ y.live := Option.some.inj hlive ▸ List.mem_cons_self
    exact hmem

theorem slab_run_sound_pageRun :
    ∃ y, exec (boot onePage) (pageRun 4096) = some y ∧ Sound y.state y.live :=
  slab_run_sound onePage (pageRun 4096) (pageRun_allowed (by decide) (by decide +kernel))

/-! ## Giving everything back -/

/-- Empty slabs are on empty lists, so that `shrink` gives all pages back. -/
def Reclaims (s : State) : Prop :=
  (∀ i, s.Active i → (s.pool i).inUse = 0 → OnList s (s.pool i).cacheIdx .empty i) ∧
    ∃ s', shrink s = some s' ∧ (∀ c < maxCaches, (s'.caches c).activeSlabs = 0) ∧
      ∀ i, s.Active i → s'.free (s.page i) = true

theorem Good.empty_of_not_single (h : Good s [] L F none) (hi : i ∈ L c w) (hs : ¬ s.Single i) : w = .empty := by
  have hact := (h.filed.on c w i hi).1
  have hplaced := h.filed.placed c w i hi nofun
  have hok := h.slab hi
  cases w with
  | empty => rfl
  | partly => exact absurd ⟨hact, hplaced.partly rfl rfl⟩ hs
  | full =>
    have hfull := hok.full_iff.2 (hplaced.full.1 rfl)
    have hpos := hok.capacity_pos h.core.caches
    rw [hok.count] at hfull
    exact absurd hfull.symm (Nat.ne_of_gt hpos)

theorem Good.reclaims_iff (h : Good s [] L F none) : Reclaims s ↔ ∀ i, ¬ s.Single i := by
  constructor
  · rintro ⟨hempty, _⟩ i hi
    have hon := h.onList_iff.1 (hempty i hi.1 (h.core.ok i hi.1).count)
    exact ((h.filed.placed _ .empty i hon nofun).empty rfl).2 hi.2
  · intro hno
    have hon : ∀ i, s.Active i → i ∈ L (s.pool i).cacheIdx .empty := fun i hi => by
      obtain ⟨w, hw⟩ := h.filed.off i hi
      obtain rfl := h.empty_of_not_single hw (hno i)
      exact hw
    obtain ⟨s', L', hs', hgood', hsh⟩ := shrink_good h
    have hcaches : ∀ {c}, c < numSizeClasses → c ∈ List.range maxCaches := fun hc =>
      List.mem_range.2 (Nat.lt_trans hc (by decide))
    refine ⟨fun i hi _ => h.onList_iff.2 (hon i hi), s', hs', fun c hc => ?_, fun i hi => ?_⟩
    · have hnil : ∀ w, L' c w = [] := fun w => by
        rw [List.eq_nil_iff_forall_not_mem]
        intro i hi
        have hw := hgood'.empty_of_not_single hi fun hs => hno i ((hsh.single i).1 hs)
        rw [hw, hsh.empty c (List.mem_range.2 hc)] at hi
        cases hi
      rw [hgood'.filed.count, hnil, hnil, hnil]
      rfl
    · exact hsh.freed _ (hcaches (h.core.ok i hi).cls) i (hon i hi)

theorem exec_single {y y' : Sys} {es : List Event} (h : y.Ok) (he : Each Allowed y es) (hr : exec y es = some y') :
    (∀ j, ¬ y'.state.Single j) ↔ (∀ j, ¬ y.state.Single j) ∧ Each Spares y es := by
  induction es generalizing y with
  | nil =>
    obtain rfl : y = y' := Option.some.inj hr
    exact (and_iff_left trivial).symm
  | cons e es ih =>
    obtain ⟨y₁, hy₁, hst⟩ := step_good h he.1
    rw [exec, hy₁, Option.bind_some] at hr
    rw [ih hst.ok (he.2 y₁ hy₁) hr]
    constructor
    · rintro ⟨hno, hes⟩
      refine ⟨fun j hj => hno j (hst.grows j hj), ?_, fun y₂ hy₂ => ?_⟩
      · by_contra hn
        obtain ⟨j, hj⟩ := hst.one hn
        exact hno j hj
      · rw [hy₁] at hy₂
        exact Option.some.inj hy₂ ▸ hes
    · rintro ⟨hno, hsp, hes⟩
      exact ⟨fun j hj => hno j ((hst.spares hsp j).1 hj), hes y₁ hy₁⟩

/-- **Slab reclamation.** After a run that freed all its objects, every page can go back exactly when no `kmalloc` of
2049 to 4096 bytes was given a page and metadata for a slab. -/
theorem slab_reclaim_iff (free : Nat → Bool) (es : List Event) (y : Sys) (h : Each Allowed (boot free) es)
    (hr : exec (boot free) es = some y) (hl : y.live = []) : Reclaims y.state ↔ Each Spares (boot free) es := by
  have hok : (boot free).Ok := ⟨_, _, init_good free⟩
  obtain ⟨y', hy', L, F, hgood⟩ := exec_good hok h
  rw [hr] at hy'
  obtain rfl := Option.some.inj hy'
  rw [hl] at hgood
  rw [hgood.reclaims_iff, exec_single hok h hr]
  exact and_iff_right fun i hi => Bool.noConfusion hi.1.2

theorem slab_reclaim_iff_pageRun : ∃ y, exec (boot onePage) (pageRun 2048) = some y ∧
    (Reclaims y.state ↔ Each Spares (boot onePage) (pageRun 2048)) := by
  have hrun : (exec (boot onePage) (pageRun 2048)).map Sys.live = some [] := by decide +kernel
  obtain ⟨y, hy, hlive⟩ := Option.map_eq_some_iff.1 hrun
  exact ⟨y, hy, slab_reclaim_iff onePage (pageRun 2048) y (pageRun_allowed (by decide) (by decide +kernel)) hy hlive⟩

/-- The slab of an object of a whole page stays: after the run it has no object, but it is on the partial list, and
`shrink` does not see it. -/
theorem pageRun_leaks : ∃ y, Each Allowed (boot onePage) (pageRun 4096) ∧
    exec (boot onePage) (pageRun 4096) = some y ∧ y.live = [] ∧ ¬ Reclaims y.state ∧
    ∃ s, shrink y.state = some s ∧ (s.caches 8).activeSlabs = 1 := by
  have hrun : (exec (boot onePage) (pageRun 4096)).map (fun y => (y.live, (y.state.pool 0).active,
      (y.state.pool 0).inUse, decide (OnList y.state (y.state.pool 0).cacheIdx .empty 0),
      (shrink y.state).map fun s => (s.caches 8).activeSlabs)) = some ([], true, 0, false, some 1) := by
    decide +kernel
  obtain ⟨y, hy, hv⟩ := Option.map_eq_some_iff.1 hrun
  obtain ⟨hlive, hv⟩ := Prod.ext_iff.1 hv
  obtain ⟨hact, hv⟩ := Prod.ext_iff.1 hv
  obtain ⟨huse, hv⟩ := Prod.ext_iff.1 hv
  obtain ⟨hon, hshrink⟩ := Prod.ext_iff.1 hv
  refine ⟨y, pageRun_allowed (by decide) (by decide +kernel), hy, hlive, fun hr => ?_,
    Option.map_eq_some_iff.1 hshrink⟩
  exact of_decide_eq_false hon (hr.1 0 ⟨by decide, hact⟩ huse)

end Zigix.SlabAlloc
