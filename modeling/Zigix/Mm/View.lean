import Zigix.Mm.Space

/-!
# What an address space maps, and what an update leaves alone

* `Inv.newTable`, `Inv.link`, `Inv.clear`, `Inv.addRoot`, `Inv.dropRoot` : the updates the page-table code is made of.
-/

namespace Zigix.Space

open Forest Pmm Pte

/-- The contents mapped at a leaf path. -/
def page (m : Machine) (r : Nat) (p : List Nat) : Option (Nat → Word) := (walk (Vmm.follow m) r p).map m.mem

/-- Outside `D`, walks and the contents of mapped pages are kept. -/
structure Keeps (R : Set Nat) (D : Nat → List Nat → Prop) (m m' : Machine) : Prop where
  walk : ∀ {r p}, r ∈ R → UserPath p → ¬ D r p → walk (Vmm.follow m') r p = walk (Vmm.follow m) r p
  data : ∀ {r p f}, Node R m r p f → p.length = 4 → ¬ D r p → m'.mem f = m.mem f

/-- At or below a slot. -/
def Under (x : Nat) (q : List Nat) (r : Nat) (p : List Nat) : Prop := r = x ∧ q <+: p

/-- Strictly below a table. -/
def Below (x : Nat) (q : List Nat) (r : Nat) (p : List Nat) : Prop := r = x ∧ ∃ i s, p = q ++ i :: s

section Keeps
variable {R : Set Nat} {D D' : Nat → List Nat → Prop} {m m' m'' : Machine} {r f : Nat} {p : List Nat}

theorem Keeps.of_mem (h : m'.mem = m.mem) : Keeps R D m m' := by
  have hf : Vmm.follow m' = Vmm.follow m := by
    funext t i
    exact follow_eq (by rw [h])
  exact ⟨fun _ _ _ => by rw [hf], fun _ _ _ => by rw [h]⟩

theorem Keeps.refl (m : Machine) : Keeps R D m m := .of_mem rfl

theorem Keeps.mono (h : Keeps R D m m') (hD : ∀ r p, D r p → D' r p) : Keeps R D' m m' :=
  ⟨fun hr hp hd => h.walk hr hp fun hd' => hd (hD _ _ hd'), fun hn hl hd => h.data hn hl fun hd' => hd (hD _ _ hd')⟩

theorem Keeps.node (h : Keeps R D m m') (hn : Node R m r p f) (hd : ¬ D r p) : Node R m' r p f :=
  ⟨hn.1, hn.2.1, by rw [h.walk hn.1 hn.2.1 hd]; exact hn.2.2⟩

theorem Keeps.trans (h : Keeps R D m m') (h' : Keeps R D m' m'') : Keeps R D m m'' :=
  ⟨fun hr hp hd => (h'.walk hr hp hd).trans (h.walk hr hp hd),
    fun hn hl hd => (h'.data (h.node hn hd) hl hd).trans (h.data hn hl hd)⟩

theorem Keeps.page (h : Keeps R D m m') (hr : r ∈ R) (hp : UserPath p) (hl : p.length = 4) (hd : ¬ D r p) :
    page m' r p = page m r p := by
  unfold Space.page
  rw [h.walk hr hp hd]
  cases hw : Forest.walk (Vmm.follow m) r p with
  | none => rfl
  | some f => exact congrArg some (h.data ⟨hr, hp, hw⟩ hl hd)

theorem not_below_self (x : Nat) (q : List Nat) : ¬ Below x q r q := by
  rintro ⟨-, i, s, h⟩
  have := congrArg List.length h
  simp at this

theorem Under.below {x : Nat} {q : List Nat} {i : Nat} (h : Under x (q ++ [i]) r p) : Below x q r p := by
  obtain ⟨hx, s, hs⟩ := h
  exact ⟨hx, i, s, by rw [← hs]; simp⟩

theorem Below.under {x : Nat} {q : List Nat} {i : Nat} (h : Below x (q ++ [i]) r p) : Under x (q ++ [i]) r p := by
  obtain ⟨hx, j, s, hs⟩ := h
  exact ⟨hx, j :: s, hs.symm⟩

theorem not_under_of_ne {x : Nat} {q s : List Nat} {i j : Nat} (h : j ≠ i) : ¬ Under x (q ++ [i]) r (q ++ j :: s) := by
  rintro ⟨-, u, hu⟩
  have hu : q ++ i :: u = q ++ j :: s := by simpa using hu
  have := List.append_cancel_left hu
  cases this
  exact h rfl

end Keeps

/-- The present leaf entry at the path `p`. -/
def Leaf (R : Set Nat) (m : Machine) (r : Nat) (p : List Nat) (w : Word) : Prop :=
  ∃ q t i, p = q ++ [i] ∧ q.length = 3 ∧ UserPath p ∧ Node R m r q t ∧ m.mem t i = w ∧ isPresent w = true

/-- Outside `E`, the leaf entries were there before. -/
def Leaves (R : Set Nat) (E : Nat → List Nat → Prop) (m m' : Machine) : Prop :=
  ∀ r p w, Leaf R m' r p w → ¬ E r p → Leaf R m r p w

section Leaves
variable {R : Set Nat} {pins : Nat → Nat} {E E' : Nat → List Nat → Prop} {m m' m'' : Machine} {r t i : Nat}
variable {p : List Nat} {w : Word}

theorem Leaf.length (h : Leaf R m r p w) : p.length = 4 := by
  obtain ⟨q, t, i, rfl, hl, -⟩ := h
  simp [hl]

theorem Leaf.node (h : Leaf R m r p w) : Node R m r p (frame w) := by
  obtain ⟨q, t, i, rfl, -, hu, ht, rfl, hp⟩ := h
  exact ht.concat hu (follow_some.2 ⟨hp, rfl⟩)

theorem leaf_of_node (ht : Node R m r p t) (hl : p.length = 3) (hu : UserPath (p ++ [i]))
    (hp : isPresent (m.mem t i) = true) : Leaf R m r (p ++ [i]) (m.mem t i) := ⟨p, t, i, rfl, hl, hu, ht, rfl, hp⟩

theorem Leaf.entry (h : Leaf R m r (p ++ [i]) w) (ht : Node R m r p t) :
    m.mem t i = w ∧ isPresent (m.mem t i) = true := by
  obtain ⟨q, t', j, he, -, -, ht', rfl, hp⟩ := h
  obtain ⟨rfl, hj⟩ := List.append_inj' he rfl
  cases hj
  obtain rfl := ht.unique ht'
  exact ⟨rfl, hp⟩

theorem Leaf.unique {w' : Word} (h : Leaf R m r p w) (h' : Leaf R m r p w') : w = w' := by
  obtain ⟨q, t, i, rfl, -, -, ht, rfl, -⟩ := h
  exact (h'.entry ht).1

theorem Leaf.weaken {R' : Set Nat} (h : Leaf R' m r p w) (hr : r ∈ R) : Leaf R m r p w := by
  obtain ⟨q, t, i, he, hl, hu, ht, hw, hp⟩ := h
  exact ⟨q, t, i, he, hl, hu, ⟨hr, ht.2⟩, hw, hp⟩

theorem leaf_of_walk (hr : r ∈ R) (hu : UserPath p) (hl : p.length = 4) (hw : walk (Vmm.follow m) r p = some t) :
    ∃ w, Leaf R m r p w := by
  have hne : p ≠ [] := List.ne_nil_of_length_pos (by omega)
  obtain ⟨q, i, rfl⟩ : ∃ q i, p = q ++ [i] := ⟨_, _, (List.dropLast_append_getLast hne).symm⟩
  rw [walk_concat] at hw
  obtain ⟨t', ht, hf⟩ := Option.bind_eq_some_iff.1 hw
  have hlen : q.length = 3 := by simpa using hl
  exact ⟨_, leaf_of_node ⟨hr, .of_append q [i] hu, ht⟩ hlen hu (follow_some.1 hf).1⟩

theorem Leaves.mono (h : Leaves R E m m') (hE : ∀ r p, p.length = 4 → E r p → E' r p) : Leaves R E' m m' :=
  fun r p w hl hn => h r p w hl fun he => hn (hE r p hl.length he)

theorem Leaves.trans (h : Leaves R E m m') (h' : Leaves R E m' m'') : Leaves R E m m'' :=
  fun r p w hl hn => h r p w (h' r p w hl hn) hn

theorem Leaves.of_tablesEq (h : TablesEq R m m') : Leaves R E m m' := by
  rintro r p w ⟨q, t, i, rfl, hl, hu, ht, hw, hp⟩ -
  have ht := h.node_iff.1 ht
  exact ⟨q, t, i, rfl, hl, hu, ht, by rw [← hw, h ht hl.le], hp⟩

theorem Leaves.of_mem (h : m'.mem = m.mem) : Leaves R E m m' :=
  .of_tablesEq fun _ _ _ => by rw [h]

theorem Leaves.refl (m : Machine) : Leaves R E m m := .of_mem rfl

theorem leaves_setWord (h : Inv R pins m) (ht : Node R m r p t) (hlen : p.length ≤ 3)
    (hnode : ∀ {r' p' f}, Node R (m.setWord t i w) r' p' f → p'.length = 3 →
      Node R m r' p' f ∨ ∀ j, isPresent ((m.setWord t i w).mem f j) = false) :
    Leaves R (fun r' p' => r' = r ∧ p' = p ++ [i]) m (m.setWord t i w) := by
  rintro r' p' w' ⟨q, t', j, rfl, hl, hu, ht', hw, hp⟩ hne
  rcases hnode ht' hl with hold | hempty
  · refine ⟨q, t', j, rfl, hl, hu, hold, ?_, hp⟩
    rw [← hw, mem_setWord_of_ne]
    rintro ⟨rfl, rfl⟩
    obtain ⟨rfl, rfl⟩ := h.separated hold ht hlen
    exact hne ⟨rfl, rfl⟩
  · rw [← hw, hempty j] at hp
    cases hp

end Leaves

section Updates
variable {R : Set Nat} {pins : Nat → Nat} {m : Machine} {D E : Nat → List Nat → Prop} {r t i f : Nat} {p : List Nat}
variable {w : Word}

theorem leaves_relink (h : Inv R pins m) (ht : Node R m r p t) (hlen : p.length ≤ 3) (hslot : UserPath (p ++ [i]))
    (hw : isPresent w = true → Target R m r p i w) :
    Leaves R (fun r' p' => r' = r ∧ p' = p ++ [i]) m (m.setWord t i w) := by
  refine leaves_setWord h ht hlen fun {r' p' f} hn hl => ?_
  rcases (node_setWord_iff h ht hlen hslot hw).1 hn with ⟨hold, -⟩ | ⟨rfl, rfl, hp, rfl⟩
  · exact .inl hold
  · have hlt : p.length < 3 := by
      rw [List.length_append, List.length_singleton] at hl
      omega
    obtain ⟨hempty, hun, -⟩ := (hw hp).emptyTable hlt
    refine .inr fun j => ?_
    rw [mem_setWord_of_ne]
    · exact hempty j
    · rintro ⟨he, -⟩
      exact hun r' p (he ▸ ht)

theorem walk_setPage {c : Nat → Word} (hf : ∀ {r p}, Node R m r p f → p.length = 4) (hr : r ∈ R) (hp : UserPath p) :
    walk (Vmm.follow (m.setPage f c)) r p = walk (Vmm.follow m) r p :=
  walk_eq_of_tables UserPath.of_append UserPath.length
    (fun _ _ _ hn hlen j => follow_eq (tablesEq_setPage hf hn hlen j)) hr hp

theorem keeps_setPage {c : Nat → Word} (hf : ∀ {r p}, Node R m r p f → p.length = 4 ∧ D r p) :
    Keeps R D m (m.setPage f c) := by
  refine ⟨fun hr hp _ => walk_setPage (fun hn => (hf hn).1) hr hp, fun {r p g} hn hl hd => ?_⟩
  have hne : g ≠ f := by
    rintro rfl
    exact hd (hf hn).2
  simp [Machine.setPage, hne]

theorem Inv.setPage {c : Nat → Word} (h : Inv R pins m) (hf : ∀ {r p}, Node R m r p f → p.length = 4) :
    Inv R pins (m.setPage f c) := h.withMem (tablesEq_setPage hf)

theorem keeps_setWord (h : Inv R pins m) (ht : Node R m r p t) (hlen : p.length ≤ 3) (hslot : UserPath (p ++ [i]))
    (hw : isPresent w = true → Target R m r p i w) : Keeps R (Under r (p ++ [i])) m (m.setWord t i w) := by
  refine ⟨fun hr hp hd => (relinked h ht hlen hslot hw).walk_off hr hp hd, fun {r' p' g} hn hl _ => ?_⟩
  have hne : g ≠ t := by
    rintro rfl
    obtain ⟨-, rfl⟩ := h.separated hn ht hlen
    omega
  funext j
  exact mem_setWord_of_ne (by simp [hne])

theorem follow_reflag (hpres : isPresent w = isPresent (m.mem t i)) (hframe : frame w = frame (m.mem t i)) :
    Vmm.follow (m.setWord t i w) = Vmm.follow m := by
  funext t' j
  by_cases hs : t' = t ∧ j = i
  · obtain ⟨rfl, rfl⟩ := hs
    unfold Vmm.follow
    rw [mem_setWord_same, hpres, hframe]
  · exact follow_eq (mem_setWord_of_ne hs)

theorem Inv.leaf_of_leaf (h : Inv R pins m) (hn : Node R m r p f) (hl : p.length = 4) {r' : Nat} {p' : List Nat}
    (hn' : Node R m r' p' f) : p'.length = 4 := by
  have h4 := hn'.2.1.1
  by_contra hlt
  obtain ⟨-, rfl⟩ := h.separated hn hn' (by omega)
  exact hlt hl

theorem Inv.reflag (h : Inv R pins m) (ht : Node R m r p t) (hl : p.length = 3) (hslot : UserPath (p ++ [i]))
    (hpres : isPresent w = isPresent (m.mem t i)) (hframe : frame w = frame (m.mem t i))
    (hexcl : isPresent w = true → isWritable w = true →
      ∀ {r' p'}, Node R m r' p' (frame w) → r' = r ∧ p' = p ++ [i]) :
    Inv R pins (m.setWord t i w) ∧ Keeps R D m (m.setWord t i w) ∧
      Leaves R (fun r' p' => r' = r ∧ p' = p ++ [i]) m (m.setWord t i w) := by
  have hfol := follow_reflag hpres hframe
  have htar : isPresent w = true → Target R m r p i w := by
    intro hp
    have hn : Node R m r (p ++ [i]) (frame w) := ht.concat hslot (follow_some.2 ⟨hpres ▸ hp, hframe.symm⟩)
    refine ⟨h.inRange hn, h.leaf_of_leaf hn (by simp [hl]), by omega, by omega, fun _ => hexcl hp, ?_⟩
    intro _ r' q' t' j hn' hq hj hpj hwj hf
    obtain ⟨h1, h2⟩ := h.exclusive hn' hq hj hpj hwj (hf ▸ hn)
    obtain ⟨h3, h4⟩ := List.append_inj' h2 rfl
    exact ⟨h1.symm, h3.symm, (List.cons.inj h4).1.symm⟩
  refine ⟨h.relink ht (by omega) hslot htar h.pinned fun g => ?_, ⟨fun _ _ _ => by rw [hfol], ?_⟩,
    leaves_relink h ht (by omega) hslot htar⟩
  · have : hits w g = hits (m.mem t i) g := by unfold hits; rw [hpres, hframe]
    rw [this]
  · intro r' p' g hn hl' _
    have hne : g ≠ t := by
      rintro rfl
      obtain ⟨-, rfl⟩ := h.separated hn ht (by omega)
      omega
    funext j
    exact mem_setWord_of_ne (by simp [hne])

/-- A fresh zeroed table page: nothing refers to it, and the caller holds its two references. -/
structure FreshTable (R : Set Nat) (pins : Nat → Nat) (m : Machine) (f : Nat) : Prop where
  inv : Inv R (pins + pin f + pin f) m
  unlinked : ∀ r p, ¬ Node R m r p f
  uncached : ∀ e ∈ m.cache, e.frame ≠ f
  unpinned : pins f = 0
  empty : ∀ j, isPresent (m.mem f j) = false

theorem Inv.pins_lt (h : Inv R (pins + pin f) m) (href : m.pmm.refCounts f = 1) : pins f = 0 := by
  have hw := h.sound.weight_le (a := f) (by rw [href]; decide)
  rw [href, weight_add_pin, if_pos rfl, weight] at hw
  have h1 : ((PageCache.cached m.cache f + pins f : ℕ) : ℕ∞) + 1 ≤ ((0 + 1 : ℕ) : ℕ∞) := by
    refine le_trans (add_le_add ?_ le_rfl) hw
    exact le_add_self
  have h2 : PageCache.cached m.cache f + pins f + 1 ≤ 0 + 1 := by exact_mod_cast h1
  omega

theorem Inv.allocTable (h : Inv R pins m) :
    (m.allocPage.1 = none ∧ Inv R pins m.allocPage.2) ∨
      ∃ f, m.allocPage.1 = some f ∧ Inv R (pins + pin f + pin f) (m.allocPage.2.incRef f) ∧ pins f = 0 ∧
        (∀ r p, ¬ Node R (m.allocPage.2.incRef f) r p f) ∧ ∀ e ∈ (m.allocPage.2.incRef f).cache, e.frame ≠ f := by
  refine h.allocPage.imp_right fun ⟨f, h1, h2, h3⟩ => ⟨f, h1, ?_⟩
  have hf := h2.pin_inRange
  have hinc := h2.incRef hf h2.ref_pos_of_pin
  have hpins : pins f = 0 := h2.pins_lt h3
  have href : (m.allocPage.2.incRef f).pmm.refCounts f = (pins + pin f + pin f) f := by
    change (Pmm.incRef m.allocPage.2.pmm (f * pageSize)).refCounts f = _
    rw [refCounts_incRef hf.2 hf.1, h3]
    simp [hpins, saturated]
  exact ⟨hinc, hpins, hinc.unlinked href (by simp [hpins, saturated])⟩

theorem Inv.newTable (h : Inv R pins m) :
    ((Vmm.newTable m).1 = none ∧ Inv R pins (Vmm.newTable m).2 ∧ Keeps R D m (Vmm.newTable m).2 ∧
        Leaves R E m (Vmm.newTable m).2) ∨
      ∃ f, (Vmm.newTable m).1 = some f ∧ FreshTable R pins (Vmm.newTable m).2 f ∧ Keeps R D m (Vmm.newTable m).2 ∧
        Leaves R E m (Vmm.newTable m).2 := by
  have hmem : m.allocPage.2.mem = m.mem := rfl
  unfold Vmm.newTable
  rcases h.allocTable with ⟨h1, h2⟩ | ⟨f, h1, h2, hpins, hun, huc⟩
  · left
    rcases ha : m.allocPage with ⟨o, m₁⟩
    rw [ha] at h1 h2 hmem
    cases h1
    exact ⟨rfl, h2, .of_mem hmem, .of_mem hmem⟩
  · right
    rcases ha : m.allocPage with ⟨o, m₁⟩
    rw [ha] at h1 h2 hun huc hmem
    cases h1
    have hz : ∀ {r p}, Node R (m₁.incRef f) r p f → p.length = 4 := fun hn => absurd hn (hun _ _)
    have hl₁ : Leaves R E m (m₁.incRef f) := .of_mem hmem
    refine ⟨f, rfl, ⟨h2.setPage hz, fun r p hn => ?_, huc, hpins, fun j => ?_⟩, ?_, hl₁.trans (.of_tablesEq (tablesEq_setPage hz))⟩
    · exact hun r p ((TablesEq.node_iff (tablesEq_setPage hz)).1 hn)
    · simp [Machine.zeroPage, Machine.setPage]
    · have hk₁ : Keeps R D m (m₁.incRef f) := .of_mem hmem
      have hk₂ : Keeps R D (m₁.incRef f) ((m₁.incRef f).zeroPage f) := keeps_setPage fun hn => absurd hn (hun _ _)
      exact hk₁.trans hk₂

theorem frame_table (h : Inv R pins m) (hf : f < m.pmm.totalPages) : frame (Pte.table f) = f :=
  frame_make _ _ (hf.trans_le h.total)

theorem FreshTable.link (hf : FreshTable R pins m f) (ht : Node R m r p t) (hlen : p.length < 3)
    (hslot : UserPath (p ++ [i])) (habs : isPresent (m.mem t i) = false) :
    Inv R pins (m.setWord t i (Pte.table f)) ∧
      Keeps R (fun r' p' => r' = r ∧ p' = p ++ [i]) m (m.setWord t i (Pte.table f)) ∧
      Leaves R E m (m.setWord t i (Pte.table f)) ∧
      Node R (m.setWord t i (Pte.table f)) r (p ++ [i]) f ∧
      ∀ j s, UserPath (p ++ [i] ++ j :: s) →
        walk (Vmm.follow (m.setWord t i (Pte.table f))) r (p ++ [i] ++ j :: s) = none := by
  have hfr := hf.inv.pin_inRange
  have hframe := frame_table hf.inv hfr.2
  have hpres : isPresent (Pte.table f) = true := by simp [Pte.table]
  have htar : isPresent (Pte.table f) = true → Target R m r p i (Pte.table f) := by
    intro _
    refine ⟨by rw [hframe]; exact hfr, ?_, fun _ => ?_, fun _ => by simp [Pte.table], by omega, by omega⟩
    · intro r' p' hn
      rw [hframe] at hn
      exact absurd hn (hf.unlinked _ _)
    · rw [hframe]
      exact ⟨hf.empty, hf.unlinked, hf.uncached⟩
  have hrel := relinked hf.inv ht hlen.le hslot htar
  have hkeep := keeps_setWord hf.inv ht hlen.le hslot htar
  -- below the slot there was nothing, and there is nothing below the new table
  have hnone : walk (Vmm.follow m) r (p ++ [i]) = none := by
    rw [walk_concat, ht.2.2]
    exact follow_absent habs
  have hbelow : ∀ s, walk (Vmm.follow m) r (p ++ [i] ++ s) = none := by
    intro s
    rw [walk_append, hnone]
    rfl
  have hleaf : Leaves R E m (m.setWord t i (Pte.table f)) :=
    (leaves_relink hf.inv ht hlen.le hslot htar).mono fun r' p' hl hp => by
      rw [hp.2, List.length_append, List.length_singleton] at hl
      omega
  refine ⟨?_, ⟨fun {r' p'} hr hp hd => ?_, fun {r' p' g} hn hl hd => ?_⟩, hleaf, ?_,
    fun j s hp => hrel.walk_below j s hp⟩
  · refine hf.inv.relink ht hlen.le hslot htar (fun hp => hf.inv.pinned (by simp only [Pi.add_apply]; omega)) fun g => ?_
    have h1 : hits (m.mem t i) g = 0 := by simp [hits, habs]
    have h2 : hits (Pte.table f) g = pin f g := by
      simp only [hits, hpres, hframe, pin_apply, true_and, eq_comm (a := g)]
    rw [h1, h2, slotWeight, if_pos hlen]
    simp only [Pi.add_apply]
    omega
  · by_cases hs : Under r (p ++ [i]) r' p'
    · obtain ⟨rfl, s, rfl⟩ := hs
      cases s with
      | nil => exact absurd ⟨rfl, by simp⟩ hd
      | cons j s => rw [hrel.walk_below j s hp, hbelow]
    · exact hkeep.walk hr hp hs
  · refine hkeep.data hn hl fun hs => ?_
    obtain ⟨rfl, s, rfl⟩ := hs
    have := hn.2.2
    rw [hbelow] at this
    cases this
  · exact (node_setWord_iff hf.inv ht hlen.le hslot htar).2 (.inr ⟨rfl, rfl, hpres, hframe⟩)

theorem Inv.clear (h : Inv R pins m) (pins' : Nat → Nat) (ht : Node R m r p t) (hlen : p.length ≤ 3)
    (hslot : UserPath (p ++ [i])) (hpres : isPresent (m.mem t i) = true)
    (hpins : ∀ g, pins' g = pins g + slotWeight p.length * pin (frame (m.mem t i)) g) :
    Inv R pins' (m.setWord t i 0) ∧ Keeps R (Under r (p ++ [i])) m (m.setWord t i 0) ∧
      Leaves R (fun r' p' => r' = r ∧ p' = p ++ [i]) m (m.setWord t i 0) ∧
      walk (Vmm.follow (m.setWord t i 0)) r (p ++ [i]) = none := by
  have htar : isPresent (0 : Word) = true → Target R m r p i 0 := by
    intro h0
    cases h0
  have hnode : Node R m r (p ++ [i]) (frame (m.mem t i)) := ht.concat hslot (follow_some.2 ⟨hpres, rfl⟩)
  refine ⟨h.relink ht hlen hslot htar (fun {f} hf => ?_) fun g => ?_, keeps_setWord h ht hlen hslot htar,
    leaves_relink h ht hlen hslot htar, ?_⟩
  · rw [hpins, pin_apply] at hf
    by_cases hg : f = frame (m.mem t i)
    · rw [hg]
      exact h.inRange hnode
    · rw [if_neg hg] at hf
      exact h.pinned hf
  · have h1 : hits (0 : Word) g = 0 := rfl
    have h2 : hits (m.mem t i) g = pin (frame (m.mem t i)) g := by
      simp only [hits, hpres, pin_apply, true_and, eq_comm (a := g)]
    rw [hpins, h1, h2]
    omega
  · exact (relinked h ht hlen hslot htar).walk_slot

theorem Inv.releaseTable (h : Inv R (pins + pin f + pin f) m) : Inv R pins (Vmm.releaseTable m f) := by
  have hpos : 0 < m.getRef f := by
    unfold Machine.getRef Pmm.getRef
    rw [mul_div_pageSize, if_neg (by have := h.pin_inRange; omega)]
    exact h.ref_pos_of_pin
  have h1 := h.freePage
  have hpos' : 0 < (m.freePage f).getRef f := by
    unfold Machine.getRef Pmm.getRef
    rw [mul_div_pageSize, if_neg (by have := h1.pin_inRange; omega)]
    exact h1.ref_pos_of_pin
  unfold Vmm.releaseTable
  rw [if_pos hpos]
  dsimp only
  rw [if_pos hpos']
  exact h1.freePage

theorem mem_releaseTable (m : Machine) (f : Nat) : (Vmm.releaseTable m f).mem = m.mem := by
  unfold Vmm.releaseTable
  split
  · dsimp only
    split <;> rfl
  · rfl

theorem releaseTable_setWord (m : Machine) (f t i : Nat) (w : Word) :
    (Vmm.releaseTable m f).setWord t i w = Vmm.releaseTable (m.setWord t i w) f := by
  have h1 : ∀ g, (m.setWord t i w).getRef g = m.getRef g := fun _ => rfl
  have h2 : ((m.setWord t i w).freePage f).getRef f = (m.freePage f).getRef f := rfl
  unfold Vmm.releaseTable
  rw [h1]
  split
  · dsimp only
    rw [h2]
    split <;> rfl
  · rfl

/-! ## Roots -/

theorem node_addRoot_iff (hempty : ∀ j, j < 256 → isPresent (m.mem f j) = false) {r' g : Nat} {p' : List Nat} :
    Node (insert f R) m r' p' g ↔ Node R m r' p' g ∨ (r' = f ∧ p' = [] ∧ g = f) := by
  constructor
  · rintro ⟨rfl | hr, hp, hw⟩
    · cases p' with
      | nil => exact .inr ⟨rfl, rfl, (Option.some.inj hw).symm⟩
      | cons i s =>
        rw [walk_cons, follow_absent (hempty i (hp.2.2 i rfl))] at hw
        cases hw
    · exact .inl ⟨hr, hp, hw⟩
  · rintro (⟨hr, hp, hw⟩ | ⟨rfl, rfl, rfl⟩)
    · exact ⟨.inr hr, hp, hw⟩
    · exact ⟨.inl rfl, ⟨by simp, by simp, by simp⟩, rfl⟩

def rootRefs (r g : Nat) : Set (Nat × List Nat × Bool) := {x | g = r ∧ x.1 = r ∧ x.2.1 = []}

theorem encard_rootRefs_le (r g : Nat) : (rootRefs r g).encard ≤ ((pin r g + pin r g : ℕ) : ℕ∞) := by
  by_cases hg : g = r
  · have hsub : rootRefs r g ⊆ {(r, [], false), (r, [], true)} := by
      rintro ⟨r', p', b⟩ ⟨-, h1, h2⟩
      simp only at h1 h2
      subst h1 h2
      cases b <;> simp
    calc (rootRefs r g).encard ≤ _ := Set.encard_le_encard hsub
      _ ≤ 1 + 1 := (Set.encard_insert_le _ _).trans (by rw [Set.encard_singleton])
      _ = ((pin r g + pin r g : ℕ) : ℕ∞) := by rw [pin_apply, if_pos hg]; rfl
  · have : rootRefs r g = ∅ := by ext x; simp [rootRefs, hg]
    simp [this]

theorem Inv.addRoot (h : Inv R (pins + pin f + pin f) m) (hun : ∀ r p, ¬ Node R m r p f)
    (huc : ∀ e ∈ m.cache, e.frame ≠ f) (hempty : ∀ j, j < 256 → isPresent (m.mem f j) = false) :
    Inv (insert f R) pins m := by
  have hnode : ∀ {r' g p'}, Node (insert f R) m r' p' g ↔ _ := node_addRoot_iff hempty
  refine ⟨h.pmm, h.total, h.highest, ?_, ?_, fun hp => h.pinned (by simp only [Pi.add_apply]; omega), ?_, ?_,
    h.cachedRange, ?_, ?_⟩
  · intro r₁ p₁ g r₂ p₂ h₁ h₂ hl
    rcases hnode.1 h₁ with o₁ | ⟨rfl, rfl, rfl⟩ <;> rcases hnode.1 h₂ with o₂ | ⟨rfl, rfl, he⟩
    · exact h.separated o₁ o₂ hl
    · exact absurd (he ▸ o₁) (hun _ _)
    · exact absurd o₂ (hun _ _)
    · exact ⟨rfl, rfl⟩
  · intro r' p' g hn
    rcases hnode.1 hn with hn | ⟨rfl, rfl, rfl⟩
    · exact h.inRange hn
    · exact h.pin_inRange
  · intro r' p' t' j hn hl hj hp
    rcases hnode.1 hn with hn | ⟨rfl, rfl, rfl⟩
    · exact h.noHuge hn hl hj hp
    · simp at hl
  · intro r' q t' j hn hl hj hp hw r'' p'' hn''
    rcases hnode.1 hn with hn | ⟨rfl, rfl, rfl⟩
    · rcases hnode.1 hn'' with hn'' | ⟨-, -, hf⟩
      · exact h.exclusive hn hl hj hp hw hn''
      · have hq : UserPath (q ++ [j]) := hn.2.1.concat (by omega) hj (by rintro rfl; simp at hl)
        exact absurd (hn.concat hq (follow_some.2 ⟨hp, hf⟩)) (hun _ _)
    · simp at hl
  · intro e he r' p' hn
    rcases hnode.1 hn with hn | ⟨-, -, hf⟩
    · exact h.cachedLeaf e he hn
    · exact absurd hf (huc e he)
  · refine h.sound.exchange fun g => ?_
    have hsub : nodes (insert f R) m g ⊆ nodes R m g ∪ rootRefs f g := by
      rintro ⟨r', p', b⟩ ⟨hn, hb⟩
      rcases hnode.1 hn with hn | ⟨h1, h2, h3⟩
      · exact .inl ⟨hn, hb⟩
      · exact .inr ⟨h3, h1, h2⟩
    have h1 : (nodes (insert f R) m g).encard + ((0 : ℕ) : ℕ∞) ≤
        (nodes R m g).encard + ((pin f g + pin f g : ℕ) : ℕ∞) := by
      rw [Nat.cast_zero, add_zero]
      exact ((Set.encard_le_encard hsub).trans (Set.encard_union_le _ _)).trans
        (add_le_add le_rfl (encard_rootRefs_le f g))
    refine RefCount.add_le_add_of_exchange h1 ?_
    simp only [Pi.add_apply]
    omega

/-- An address space is given up; the references of its PML4 become the caller's. -/
theorem Inv.dropRoot (h : Inv R pins m) (hr : r ∈ R) : Inv (R \ {r}) (pins + pin r + pin r) m := by
  have hnode : ∀ {r' p' g}, Node (R \ {r}) m r' p' g → Node R m r' p' g := fun hn => ⟨hn.1.1, hn.2⟩
  have hroot : Node R m r [] r := ⟨hr, ⟨by simp, by simp, by simp⟩, rfl⟩
  refine ⟨h.pmm, h.total, h.highest, fun h₁ h₂ hl => h.separated (hnode h₁) (hnode h₂) hl,
    fun hn => h.inRange (hnode hn), fun {g} hp => ?_, fun hn => h.noHuge (hnode hn),
    fun hn hl hj hp hw _ _ hn' => h.exclusive (hnode hn) hl hj hp hw (hnode hn'), h.cachedRange,
    fun e he _ _ hn => h.cachedLeaf e he (hnode hn), ?_⟩
  · simp only [Pi.add_apply, pin_apply] at hp
    by_cases hg : g = r
    · rw [hg]
      exact h.inRange hroot
    · simp only [hg, if_false] at hp
      exact h.pinned (by omega)
  · refine h.sound.exchange fun g => ?_
    let x : Nat × List Nat × Bool := (r, [], false)
    let y : Nat × List Nat × Bool := (r, [], true)
    have hsub : nodes (R \ {r}) m g ⊆ (nodes R m g \ {x}) \ {y} := by
      rintro ⟨r', p', b⟩ ⟨hn, hb⟩
      refine ⟨⟨⟨hnode hn, hb⟩, fun he => ?_⟩, fun he => ?_⟩
      · simp only [x, Set.mem_singleton_iff, Prod.mk.injEq] at he
        exact hn.1.2 he.1
      · simp only [y, Set.mem_singleton_iff, Prod.mk.injEq] at he
        exact hn.1.2 he.1
    have hpin : pin r g = 0 ∨ pin r g = 1 ∧ g = r := by
      rw [pin_apply]
      split <;> simp_all
    have h1 := encard_diff_add (nodes R m g) x (pin r g)
      (hpin.imp_right fun hg => ⟨hg.1, by rw [hg.2]; exact node_mem hroot⟩)
    have h2 := encard_diff_add (nodes R m g \ {x}) y (pin r g)
      (hpin.imp_right fun hg => ⟨hg.1, ⟨by rw [hg.2]; exact hroot, fun _ => by simp [y]⟩, by simp [x, y]⟩)
    have h3 : (nodes (R \ {r}) m g).encard + ((pin r g + pin r g : ℕ) : ℕ∞) ≤ (nodes R m g).encard + ((0 : ℕ) : ℕ∞) := by
      rw [Nat.cast_zero, add_zero, Nat.cast_add, ← add_assoc]
      exact (add_le_add ((add_le_add (Set.encard_le_encard hsub) le_rfl).trans h2) le_rfl).trans h1
    refine RefCount.add_le_add_of_exchange h3 ?_
    simp only [Pi.add_apply]
    omega

end Updates

end Zigix.Space
