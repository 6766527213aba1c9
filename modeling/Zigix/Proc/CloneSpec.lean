import Zigix.Mm.SpaceOps
import Zigix.Proc.Clone

/-!
# What `cowCopyUserPages` establishes

* `shareLeaf_spec`, `copyTable_spec` : a copy loop keeps the invariant and every page of every address space but the
  child's, and gives the child the parent's leaves;
* `pinPml4_spec`, `unpinPml4_spec` : the pins taken before the copy are those dropped after it;
* `cowCopyUserPages_spec` : after success parent and child map the same contents as the parent did before.
-/

namespace Zigix.Clone

open Forest Pmm Pte Vmm Space

section Copy
variable {R : Set Nat} {pins : Nat → Nat} {m : Machine} {rp rc t c i : Nat} {q : List Nat}

theorem descends_iff {skipHuge : Bool} {r : Nat} (h : Inv R pins m) (ht : Node R m r q t)
    (hskip : skipHuge = true → q.length = 1 ∨ q.length = 2) (hi : i < 512) (hslot : UserPath (q ++ [i])) :
    descends m skipHuge t i = isPresent (m.mem t i) := by
  unfold descends
  cases hp : isPresent (m.mem t i) with
  | false => rfl
  | true =>
    have hn : Node R m r (q ++ [i]) (frame (m.mem t i)) := ht.concat hslot (follow_some.2 ⟨hp, rfl⟩)
    rw [h.not_badFrame hn]
    cases skipHuge with
    | false => rfl
    | true => rw [h.noHuge ht (hskip rfl) hi hp]; rfl

theorem absent_of_walk {r : Nat} (ht : Node R m r q t) (h : walk (follow m) r (q ++ [i]) = none) :
    isPresent (m.mem t i) = false := by
  cases hp : isPresent (m.mem t i) with
  | false => rfl
  | true => simp [walk_concat, ht.2.2, follow, hp] at h

/-- The address spaces whose leaves a fork writes. -/
def Either (rp rc r : Nat) (_ : List Nat) : Prop := r = rp ∨ r = rc

/-- **One shared leaf.** The parent keeps its page, the child gets it, and nothing else changes. -/
theorem share_spec (h : Inv R pins m) (ht : Node R m rp q t) (hc : Node R m rc q c) (hl : q.length = 3)
    (hne : rp ≠ rc) (hslot : UserPath (q ++ [i])) (hp : isPresent (m.mem t i) = true)
    (habs : walk (follow m) rc (q ++ [i]) = none) :
    let w := markCow (m.mem t i)
    let m' := ((m.setWord t i w).setWord c i w).incRef (frame (m.mem t i))
    Inv R pins m' ∧ Keeps R (Under rc (q ++ [i])) m m' ∧ Leaves R (Either rp rc) m m' ∧
      walk (follow m') rc (q ++ [i]) = some (frame (m.mem t i)) := by
  intro w m'
  let a := frame (m.mem t i)
  have ha : Node R m rp (q ++ [i]) a := ht.concat hslot (follow_some.2 ⟨hp, rfl⟩)
  have hwp : isPresent w = true := by simp [w, hp]
  have hwf : frame w = a := by simp [w, a]
  have hww : isWritable w = false := by simp [w]
  -- the new reference is taken first; the writes to the tables do not touch the allocator
  have h₁ : Inv R (pins + pin a) (m.incRef a) :=
    h.incRef (h.inRange ha) (h.sound.pos (by decide) (weight_pos_of_node ha))
  obtain ⟨h₂, hk₂, hl₂⟩ := h₁.reflag (D := Under rc (q ++ [i])) (w := w) ht hl hslot (by simp [w, Machine.incRef])
    (by simp [w, Machine.incRef]) (by simp [hww])
  have hfol : follow ((m.incRef a).setWord t i w) = follow m :=
    follow_reflag (m := m.incRef a) (by simp [w, Machine.incRef]) (by simp [w, Machine.incRef])
  have hnode : ∀ {r' p' f'}, Node R ((m.incRef a).setWord t i w) r' p' f' ↔ Node R m r' p' f' := by
    intro r' p' f'
    unfold Node
    rw [hfol]
  have hcne : ¬ (c = t ∧ i = i) := by
    rintro ⟨rfl, -⟩
    exact hne (h.separated ht hc (by omega)).1
  have hold := absent_of_walk hc habs
  have htar : isPresent w = true → Target R ((m.incRef a).setWord t i w) rc q i w := by
    intro _
    refine ⟨by rw [hwf]; exact h₂.inRange (hnode.2 ha), ?_, by omega, by omega, by simp [hww], ?_⟩
    · intro r' p' hn
      rw [hwf] at hn
      exact h.leaf_of_leaf ha (by simp [hl]) (hnode.1 hn)
    · -- the only leaf of `a` that could have been writable is the parent's, which now is not
      intro _ r' q' t' j hn hq hj hpj hwj hf
      rw [hwf] at hf
      obtain ⟨h1, h2⟩ := h₂.exclusive hn hq hj hpj hwj (by rw [hf]; exact hnode.2 ha)
      obtain ⟨h3, h4⟩ := List.append_inj' h2 rfl
      obtain rfl := h1
      obtain rfl := h3
      obtain rfl := (List.cons.inj h4).1
      obtain rfl := (hnode.1 hn).unique ht
      rw [mem_setWord_same, hww] at hwj
      cases hwj
  have h₃ : Inv R pins (((m.incRef a).setWord t i w).setWord c i w) := by
    refine h₂.relink (hnode.2 hc) (by omega) hslot htar (fun hg => h₂.pinned (by rw [Pi.add_apply]; omega)) fun g => ?_
    have h0 : hits (((m.incRef a).setWord t i w).mem c i) g = 0 := by
      rw [mem_setWord_of_ne hcne]
      simp [hits, Machine.incRef, hold]
    have h1 : hits w g = pin a g := by simp only [hits, hwp, hwf, pin_apply, true_and, eq_comm (a := g)]
    rw [h0, h1, slotWeight, if_neg (by omega), Pi.add_apply]
    omega
  have hk₃ := keeps_setWord h₂ (hnode.2 hc) (by omega) hslot htar
  have hk₁ : Keeps R (Under rc (q ++ [i])) m (m.incRef a) := .of_mem rfl
  have hl₁ : Leaves R (Either rp rc) m (m.incRef a) := .of_mem rfl
  have hl₃ := leaves_relink h₂ (hnode.2 hc) (by omega) hslot htar
  have hleaf := (hl₁.trans (hl₂.mono fun _ _ _ he => .inl he.1)).trans (hl₃.mono fun _ _ _ he => .inr he.1)
  refine ⟨h₃, (hk₁.trans hk₂).trans hk₃, hleaf, ?_⟩
  have := (relinked h₂ (hnode.2 hc) (by omega) hslot htar).walk_slot
  rw [if_pos hwp, hwf] at this
  exact this

/-- The child's subtrees below the first `k` slots of its table at `q` are copies of the parent's. -/
structure Copied (R : Set Nat) (pins : Nat → Nat) (rp rc : Nat) (q : List Nat) (k : Nat) (m m' : Machine) : Prop where
  inv : Inv R pins m'
  keeps : Keeps R (Below rc q) m m'
  leaves : Leaves R (Either rp rc) m m'
  done : ∀ i, i < k → ∀ s, UserPath (q ++ i :: s) → (q ++ i :: s).length = 4 →
    walk (follow m') rc (q ++ i :: s) = walk (follow m) rp (q ++ i :: s)
  todo : ∀ j, k ≤ j → UserPath (q ++ [j]) → walk (follow m') rc (q ++ [j]) = none

/-- What remains true when memory runs out. -/
def Failed (R : Set Nat) (pins : Nat → Nat) (rp rc : Nat) (q : List Nat) (m m' : Machine) : Prop :=
  Inv R pins m' ∧ Keeps R (Below rc q) m m' ∧ Leaves R (Either rp rc) m m'

theorem Copied.extend {k : Nat} {m₁ m₂ : Machine} (h : Copied R pins rp rc q k m m₁) (hrc : rc ∈ R)
    (hinv : Inv R pins m₂) (hkeep : Keeps R (Under rc (q ++ [k])) m₁ m₂) (hleaf : Leaves R (Either rp rc) m₁ m₂)
    (hslot : ∀ s, UserPath (q ++ k :: s) → (q ++ k :: s).length = 4 →
      walk (follow m₂) rc (q ++ k :: s) = walk (follow m) rp (q ++ k :: s)) : Copied R pins rp rc q (k + 1) m m₂ := by
  refine ⟨hinv, h.keeps.trans (hkeep.mono fun _ _ => Under.below), h.leaves.trans hleaf, fun i hi s hu hl => ?_,
    fun j hj hu => ?_⟩
  · rcases Nat.lt_succ_iff_lt_or_eq.1 hi with hi | rfl
    · rw [hkeep.walk hrc hu (not_under_of_ne (by omega))]
      exact h.done i hi s hu hl
    · exact hslot s hu hl
  · rw [hkeep.walk hrc hu (not_under_of_ne (s := []) (by omega))]
    exact h.todo j (by omega) hu

/-- Below an absent entry of the parent there is nothing, as in the child. -/
theorem Copied.skip {k : Nat} {m₁ : Machine} (h : Copied R pins rp rc q k m m₁) (hrc : rc ∈ R) (hrp : rp ∈ R)
    (hne : rp ≠ rc) (ht : Node R m₁ rp q t) (hslot : UserPath (q ++ [k])) (habs : isPresent (m₁.mem t k) = false) :
    Copied R pins rp rc q (k + 1) m m₁ := by
  refine h.extend hrc h.inv (.refl m₁) (.refl m₁) fun s hu _ => ?_
  have hsplit : q ++ k :: s = (q ++ [k]) ++ s := by simp
  have hoff : ¬ Below rc q rp (q ++ k :: s) := fun hb => hne hb.1
  rw [← h.keeps.walk hrp hu hoff, hsplit, walk_append _ _ (q ++ [k]), walk_append _ _ (q ++ [k]),
    h.todo k le_rfl hslot, walk_slot_absent ht habs]

def CopySpec (n : Nat) (sub : Nat → Nat → Machine → Bool × Machine) : Prop :=
  ∀ R pins m rp rc q t c, Inv R pins m → Node R m rp q t → Node R m rc q c → q.length = n → rp ≠ rc →
    (∀ j, UserPath (q ++ [j]) → walk (follow m) rc (q ++ [j]) = none) →
    Loop.Result (Copied R pins rp rc q (entriesAt n) m) (Failed R pins rp rc q m) (sub t c m)

theorem copyPt_spec : CopySpec 3 copyPt := by
  intro R pins m rp rc q t c h ht hc hl hne hempty
  have hstart : Copied R pins rp rc q 0 m m := ⟨h, .refl m, .refl m, fun i hi => absurd hi (by omega), fun j _ => hempty j⟩
  refine Loop.loop_range (Copied R pins rp rc q · m) _ 512 hstart fun i m₁ hi hm₁ => ?_
  have hslot : UserPath (q ++ [i]) := slot_ok ht (by omega) hi (by rintro rfl; simp at hl)
  have ht₁ : Node R m₁ rp q t := hm₁.keeps.node ht (not_below_self rc q)
  have hc₁ : Node R m₁ rc q c := hm₁.keeps.node hc (not_below_self rc q)
  unfold shareLeaf
  rw [descends_iff hm₁.inv ht₁ (by simp) hi hslot]
  cases hp : isPresent (m₁.mem t i) with
  | false => exact .ofTrue (hm₁.skip hc.1 ht.1 hne ht₁ hslot hp)
  | true =>
    obtain ⟨hinv, hkeep, hleaf, hwalk⟩ := share_spec hm₁.inv ht₁ hc₁ hl hne hslot hp (hm₁.todo i le_rfl hslot)
    simp only [if_true, mem_setWord_same]
    refine .ofTrue (hm₁.extend hc.1 hinv hkeep hleaf fun s hu hlen => ?_)
    rw [List.length_append, List.length_cons, hl] at hlen
    obtain rfl : s = [] := List.length_eq_zero_iff.1 (by omega)
    have hoff : ¬ Below rc q rp (q ++ [i]) := fun hb => hne hb.1
    rw [hwalk, ← hm₁.keeps.walk ht.1 hslot hoff, walk_concat, ht₁.2.2]
    exact (follow_some.2 ⟨hp, rfl⟩).symm

theorem copyTable_spec {n : Nat} {skipHuge : Bool} {sub : Nat → Nat → Machine → Bool × Machine}
    (hsub : CopySpec (n + 1) sub) (hn : n < 3) (hskip : skipHuge = true → 0 < n) :
    CopySpec n (copyTable (entriesAt n) skipHuge sub) := by
  intro R pins m rp rc q t c h ht hc hl hne hempty
  subst hl
  have hstart : Copied R pins rp rc q 0 m m := ⟨h, .refl m, .refl m, fun i hi => absurd hi (by omega), fun j _ => hempty j⟩
  refine Loop.loop_range (Copied R pins rp rc q · m) _ _ hstart fun i m₁ hi hm₁ => ?_
  have hslot : UserPath (q ++ [i]) := slots_of_depth ht hn.le i hi
  have hi' : i < 512 := by unfold entriesAt at hi; split at hi <;> omega
  have ht₁ : Node R m₁ rp q t := hm₁.keeps.node ht (not_below_self rc q)
  have hc₁ : Node R m₁ rc q c := hm₁.keeps.node hc (not_below_self rc q)
  unfold copyEntry
  rw [descends_iff hm₁.inv ht₁ (fun hs => by have := hskip hs; omega) hi' hslot]
  cases hp : isPresent (m₁.mem t i) with
  | false => exact .ofTrue (hm₁.skip hc.1 ht.1 hne ht₁ hslot hp)
  | true =>
    rw [if_pos rfl]
    have hoff : ∀ s, ¬ Below rc q rp s := fun s hb => hne hb.1
    rcases hm₁.inv.newTable (D := fun _ _ => False) (E := Either rp rc) with
      ⟨hnone, hinv, hkeep, hleaf⟩ | ⟨f, hsome, hfresh, hkeep, hleaf⟩
    · rcases hnt : newTable m₁ with ⟨o, m₂⟩
      rw [hnt] at hnone hinv hkeep hleaf
      cases hnone
      exact .ofFalse ⟨hinv, hm₁.keeps.trans (hkeep.mono fun _ _ => False.elim), hm₁.leaves.trans hleaf⟩
    · rcases hnt : newTable m₁ with ⟨o, m₂⟩
      rw [hnt] at hsome hfresh hkeep hleaf
      cases hsome
      have hc₂ : Node R m₂ rc q c := hkeep.node hc₁ id
      have habs : walk (follow m₂) rc (q ++ [i]) = none :=
        (hkeep.walk hc.1 hslot id).trans (hm₁.todo i le_rfl hslot)
      obtain ⟨hinv₃, hkeep₃, hleaf₃, hc₃, hbelow₃⟩ := hfresh.link hc₂ hn hslot (absent_of_walk hc₂ habs)
      have hleaf₁₃ := hleaf.trans hleaf₃
      have hkeep₁₃ : Keeps R (Under rc (q ++ [i])) m₁ _ := (hkeep.mono fun _ _ => False.elim).trans
        (hkeep₃.mono fun _ _ hd => ⟨hd.1, [], by simp [hd.2]⟩)
      have hother : ∀ s, ¬ Under rc (q ++ [i]) rp s := fun s hu => hne hu.1
      have ht₃ : Node R (m₂.setWord c i (Pte.table f)) rp (q ++ [i]) (frame (m₁.mem t i)) :=
        hkeep₁₃.node (ht₁.concat hslot (follow_some.2 ⟨hp, rfl⟩)) (hother _)
      have hres := hsub R pins _ rp rc (q ++ [i]) _ f hinv₃ ht₃ hc₃ (by simp) hne fun j hu => hbelow₃ j [] hu
      refine hres.mono (fun m₄ h₄ => ?_) fun m₄ h₄ => ?_
      · refine hm₁.extend hc.1 h₄.inv (hkeep₁₃.trans (h₄.keeps.mono fun _ _ => Below.under))
          (hleaf₁₃.trans h₄.leaves) fun s hu hlen => ?_
        cases s with
        | nil => simp at hlen; omega
        | cons j s =>
          have hsplit : q ++ i :: j :: s = (q ++ [i]) ++ j :: s := by simp
          have hj : j < entriesAt (q.length + 1) := hu.2.1 j (by simp)
          rw [hsplit] at hu hlen ⊢
          rw [h₄.done j hj s hu hlen, hkeep₁₃.walk ht.1 hu (hother _), hm₁.keeps.walk ht.1 hu (hoff _)]
      · exact ⟨h₄.1,
          hm₁.keeps.trans ((hkeep₁₃.trans (h₄.2.1.mono fun _ _ => Below.under)).mono fun _ _ => Under.below),
          hm₁.leaves.trans (hleaf₁₃.trans h₄.2.2)⟩

theorem copyPml4_spec : CopySpec 0 copyPml4 := by
  have h2 : CopySpec 2 copyPd := copyTable_spec copyPt_spec (by decide) (by simp)
  have h1 : CopySpec 1 copyPdpt := copyTable_spec h2 (by decide) (by simp)
  exact copyTable_spec h1 (by decide) (by simp)

end Copy

/-! ## Pins -/

section Pins

/-- One turn of a pin loop: the table and those below it. -/
def visit (skipHuge : Bool) (sub : Machine → Nat → List Nat) (t : Nat) (m : Machine) (i : Nat) : List Nat :=
  if descends m skipHuge t i then frame (m.mem t i) :: sub m (frame (m.mem t i)) else []

/-- One turn of an unpin loop: the same tables, each after those below it. -/
def visitPost (skipHuge : Bool) (sub : Machine → Nat → List Nat) (t : Nat) (m : Machine) (i : Nat) : List Nat :=
  if descends m skipHuge t i then sub m (frame (m.mem t i)) ++ [frame (m.mem t i)] else []

/-- A list computed from the tables in memory and `highest_phys` only. -/
def FromTables (sub : Machine → Nat → List Nat) : Prop :=
  ∀ m m' t, m'.mem = m.mem → m'.pmm.highestPhys = m.pmm.highestPhys → sub m' t = sub m t

theorem descends_congr {m m' : Machine} (hmem : m'.mem = m.mem) (hhigh : m'.pmm.highestPhys = m.pmm.highestPhys)
    (skipHuge : Bool) (t i : Nat) : descends m' skipHuge t i = descends m skipHuge t i := by
  unfold descends badFrame
  rw [hmem, hhigh]

theorem visit_congr {sub : Machine → Nat → List Nat} (h : FromTables sub) {m m' : Machine} (hmem : m'.mem = m.mem)
    (hhigh : m'.pmm.highestPhys = m.pmm.highestPhys) (skipHuge : Bool) (t i : Nat) :
    visit skipHuge sub t m' i = visit skipHuge sub t m i ∧ visitPost skipHuge sub t m' i = visitPost skipHuge sub t m i := by
  unfold visit visitPost
  rw [descends_congr hmem hhigh, hmem, h m m' _ hmem hhigh]
  exact ⟨rfl, rfl⟩

/-- The tables visited below `t`. -/
def visited (entries : Nat) (skipHuge : Bool) (sub : Machine → Nat → List Nat) (m : Machine) (t : Nat) : List Nat :=
  (List.range entries).flatMap (visit skipHuge sub t m)

def visitedPost (entries : Nat) (skipHuge : Bool) (sub : Machine → Nat → List Nat) (m : Machine) (t : Nat) : List Nat :=
  (List.range entries).flatMap (visitPost skipHuge sub t m)

theorem fromTables_visited (entries : Nat) (skipHuge : Bool) {sub : Machine → Nat → List Nat} (h : FromTables sub) :
    FromTables (visited entries skipHuge sub) := by
  intro m m' t hmem hhigh
  unfold visited
  congr 1
  funext i
  exact (visit_congr h hmem hhigh skipHuge t i).1

theorem fromTables_visitedPost (entries : Nat) (skipHuge : Bool) {sub : Machine → Nat → List Nat} (h : FromTables sub) :
    FromTables (visitedPost entries skipHuge sub) := by
  intro m m' t hmem hhigh
  unfold visitedPost
  congr 1
  funext i
  exact (visit_congr h hmem hhigh skipHuge t i).2

/-- A loop over indices whose turns fold an operation over lists that do not depend on it. -/
theorem foldl_flatMap_eq (body op : Machine → Nat → Machine) (sub : Machine → Nat → List Nat)
    (hsub : ∀ m i, body m i = (sub m i).foldl op m) (hop : ∀ m f i, sub (op m f) i = sub m i) (is : List Nat)
    (m : Machine) : is.foldl body m = (is.flatMap (sub m)).foldl op m := by
  have hfold : ∀ (fs : List Nat) (m : Machine) i, sub (fs.foldl op m) i = sub m i := by
    intro fs
    induction fs with
    | nil => exact fun _ _ => rfl
    | cons f fs ih => exact fun m i => (ih (op m f) i).trans (hop m f i)
  induction is generalizing m with
  | nil => rfl
  | cons i is ih =>
    rw [List.foldl_cons, ih, List.flatMap_cons, List.foldl_append, hsub]
    congr 2
    funext j
    exact hfold _ _ _

theorem highestPhys_incRef (m : Machine) (f : Nat) : (m.incRef f).pmm.highestPhys = m.pmm.highestPhys := by
  change (Pmm.incRef m.pmm (f * pageSize)).highestPhys = _
  unfold Pmm.incRef
  dsimp only
  split
  · rfl
  split
  · rfl
  split <;> rfl

theorem highestPhys_decRef (m : Machine) (f : Nat) : (m.decRef f).pmm.highestPhys = m.pmm.highestPhys :=
  (decRef_moves _ _).highest

theorem mem_incRef (m : Machine) (f : Nat) : (m.incRef f).mem = m.mem := rfl

theorem mem_decRef (m : Machine) (f : Nat) : (m.decRef f).mem = m.mem := rfl

section Loops
variable {entries : Nat} {skipHuge : Bool} {loop : Machine → Nat → Machine} {sub : Machine → Nat → List Nat}

theorem pinTable_eq (hsub : ∀ m f, loop m f = (sub m f).foldl Machine.incRef m) (hfrom : FromTables sub) (m : Machine)
    (t : Nat) : pinTable entries skipHuge loop m t = (visited entries skipHuge sub m t).foldl Machine.incRef m := by
  refine foldl_flatMap_eq _ _ (visit skipHuge sub t) (fun m i => ?_) (fun m f i => ?_) _ m
  · unfold visit
    split
    · rw [List.foldl_cons, hsub, hfrom m _ _ (mem_incRef m _) (highestPhys_incRef _ _)]
    · rfl
  · exact (visit_congr hfrom (mem_incRef m f) (highestPhys_incRef m f) skipHuge t i).1

theorem unpinTable_eq (hsub : ∀ m f, loop m f = (sub m f).foldl Machine.decRef m) (hfrom : FromTables sub) (m : Machine)
    (t : Nat) : unpinTable entries skipHuge loop m t = (visitedPost entries skipHuge sub m t).foldl Machine.decRef m := by
  refine foldl_flatMap_eq _ _ (visitPost skipHuge sub t) (fun m i => ?_) (fun m f i => ?_) _ m
  · unfold visitPost
    split
    · rw [List.foldl_append, hsub]
      rfl
    · rfl
  · exact (visit_congr hfrom (mem_decRef m f) (highestPhys_decRef m f) skipHuge t i).2

end Loops

def pinnedPd : Machine → Nat → List Nat := visited 512 true fun _ _ => []

def pinnedPdpt : Machine → Nat → List Nat := visited 512 true pinnedPd

/-- The tables of an address space below its PML4. -/
def pinnedPml4 : Machine → Nat → List Nat := visited 256 false pinnedPdpt

def unpinnedPd : Machine → Nat → List Nat := visitedPost 512 true fun _ _ => []

def unpinnedPdpt : Machine → Nat → List Nat := visitedPost 512 true unpinnedPd

def unpinnedPml4 : Machine → Nat → List Nat := visitedPost 256 false unpinnedPdpt

theorem pinPml4_eq (m : Machine) (t : Nat) : pinPml4 m t = (pinnedPml4 m t).foldl Machine.incRef m := by
  have hnil : FromTables fun _ _ => [] := fun _ _ _ _ _ => rfl
  have h1 : ∀ m t, pinPd m t = (pinnedPd m t).foldl Machine.incRef m := pinTable_eq (fun _ _ => rfl) hnil
  have hf1 : FromTables pinnedPd := fromTables_visited _ _ hnil
  have h2 : ∀ m t, pinPdpt m t = (pinnedPdpt m t).foldl Machine.incRef m := pinTable_eq h1 hf1
  exact pinTable_eq h2 (fromTables_visited _ _ hf1) m t

theorem unpinPml4_eq (m : Machine) (t : Nat) : unpinPml4 m t = (unpinnedPml4 m t).foldl Machine.decRef m := by
  have hnil : FromTables fun _ _ => [] := fun _ _ _ _ _ => rfl
  have h1 : ∀ m t, unpinPd m t = (unpinnedPd m t).foldl Machine.decRef m := unpinTable_eq (fun _ _ => rfl) hnil
  have hf1 : FromTables unpinnedPd := fromTables_visitedPost _ _ hnil
  have h2 : ∀ m t, unpinPdpt m t = (unpinnedPdpt m t).foldl Machine.decRef m := unpinTable_eq h1 hf1
  exact unpinTable_eq h2 (fromTables_visitedPost _ _ hf1) m t

theorem visitedPost_perm {entries : Nat} {skipHuge : Bool} {sub sub' : Machine → Nat → List Nat} {m : Machine}
    (h : ∀ t, (sub' m t).Perm (sub m t)) (t : Nat) :
    (visitedPost entries skipHuge sub' m t).Perm (visited entries skipHuge sub m t) := by
  refine List.Perm.flatMap_left _ fun i _ => ?_
  unfold visit visitPost
  split
  · exact (List.perm_append_singleton _ _).trans ((h _).cons _)
  · exact .refl _

theorem unpinnedPml4_perm (m : Machine) (t : Nat) : (unpinnedPml4 m t).Perm (pinnedPml4 m t) :=
  visitedPost_perm (fun t => visitedPost_perm (fun t => visitedPost_perm (fun _ => .refl _) t) t) t

def pinsOf (fs : List Nat) : Nat → Nat := fun g => fs.count g

theorem pinsOf_cons (f : Nat) (fs : List Nat) : pinsOf (f :: fs) = pin f + pinsOf fs := by
  funext g
  rw [pinsOf, List.count_cons, Pi.add_apply, pin_apply, pinsOf]
  simp only [beq_iff_eq, eq_comm (a := g)]
  omega

theorem pinAll {R : Set Nat} {pins : Nat → Nat} {m : Machine} (fs : List Nat) (h : Inv R pins m)
    (hfs : ∀ f ∈ fs, ∃ r p, Node R m r p f) : Inv R (pins + pinsOf fs) (fs.foldl Machine.incRef m) := by
  induction fs generalizing pins m with
  | nil => exact h
  | cons f fs ih =>
    obtain ⟨r, p, hn⟩ := hfs f List.mem_cons_self
    have h₁ := h.incRef (h.inRange hn) (h.sound.pos (by decide) (weight_pos_of_node hn))
    rw [pinsOf_cons, ← add_assoc]
    exact ih h₁ fun g hg => hfs g (List.mem_cons_of_mem _ hg)

theorem unpinAll {R : Set Nat} {pins : Nat → Nat} {m : Machine} (fs : List Nat) (h : Inv R (pins + pinsOf fs) m) :
    Inv R pins (fs.foldl Machine.decRef m) := by
  induction fs generalizing m with
  | nil => exact h
  | cons f fs ih =>
    rw [pinsOf_cons, add_comm (pin f), ← add_assoc] at h
    exact ih h.decRef

theorem forgetPins {R : Set Nat} {pins : Nat → Nat} {m : Machine} (fs : List Nat) (h : Inv R (pins + pinsOf fs) m) :
    Inv R pins m := by
  induction fs with
  | nil => exact h
  | cons f fs ih =>
    rw [pinsOf_cons, add_comm (pin f), ← add_assoc] at h
    exact ih h.weaken

theorem mem_foldl (op : Machine → Nat → Machine) (hop : ∀ m f, (op m f).mem = m.mem) (fs : List Nat) (m : Machine) :
    (fs.foldl op m).mem = m.mem := by
  induction fs generalizing m with
  | nil => rfl
  | cons f fs ih => exact (ih _).trans (hop m f)

def VisitSpec (n : Nat) (sub : Machine → Nat → List Nat) : Prop :=
  ∀ R pins pins' m m' r q t D, Inv R pins m → Inv R pins' m' → Keeps R D m m' → (∀ p, ¬ D r p) → Node R m r q t →
    q.length = n → sub m' t = sub m t ∧ ∀ f ∈ sub m t, ∃ p, Node R m r p f

theorem visited_spec {n : Nat} {skipHuge : Bool} {sub : Machine → Nat → List Nat} (hsub : VisitSpec (n + 1) sub)
    (hn : n < 3) (hskip : skipHuge = true → 0 < n) : VisitSpec n (visited (entriesAt n) skipHuge sub) := by
  intro R pins pins' m m' r q t D h h' hkeep hD ht hl
  subst hl
  have ht' : Node R m' r q t := hkeep.node ht (hD q)
  have hturn : ∀ i, i < entriesAt q.length → visit skipHuge sub t m' i = visit skipHuge sub t m i ∧
      ∀ f ∈ visit skipHuge sub t m i, ∃ p, Node R m r p f := by
    intro i hi
    have hslot : UserPath (q ++ [i]) := slots_of_depth ht hn.le i hi
    have hi' : i < 512 := by unfold entriesAt at hi; split at hi <;> omega
    have hskip' : skipHuge = true → q.length = 1 ∨ q.length = 2 := fun hs => by have := hskip hs; omega
    have hfol : follow m' t i = follow m t i := by
      have := hkeep.walk ht.1 hslot (hD _)
      rwa [walk_concat, walk_concat, ht'.2.2, ht.2.2] at this
    unfold visit
    rw [descends_iff h ht hskip' hi' hslot, descends_iff h' ht' hskip' hi' hslot]
    cases hp : isPresent (m.mem t i) with
    | false =>
      rw [follow_absent hp] at hfol
      cases hp' : isPresent (m'.mem t i) with
      | false => exact ⟨rfl, by simp⟩
      | true => rw [follow_some.2 ⟨hp', rfl⟩] at hfol; cases hfol
    | true =>
      rw [follow_some.2 ⟨hp, rfl⟩] at hfol
      obtain ⟨hp', hf'⟩ := follow_some.1 hfol
      have hnode : Node R m r (q ++ [i]) (frame (m.mem t i)) := ht.concat hslot (follow_some.2 ⟨hp, rfl⟩)
      obtain ⟨heq, hmem⟩ := hsub R pins pins' m m' r (q ++ [i]) _ D h h' hkeep hD hnode (by simp)
      rw [hp', hf', heq]
      refine ⟨rfl, fun f hf => ?_⟩
      rcases List.mem_cons.1 hf with rfl | hf
      · exact ⟨_, hnode⟩
      · exact hmem f hf
  constructor
  · unfold visited
    exact List.flatMap_congr fun i hi => (hturn i (List.mem_range.1 hi)).1
  · intro f hf
    obtain ⟨i, hi, hf⟩ := List.mem_flatMap.1 hf
    exact (hturn i (List.mem_range.1 hi)).2 f hf

theorem pinnedPml4_spec : VisitSpec 0 pinnedPml4 := by
  have h3 : VisitSpec 3 fun _ _ => [] := fun _ _ _ _ _ _ _ _ _ _ _ _ _ _ _ => ⟨rfl, by simp⟩
  have h2 : VisitSpec 2 pinnedPd := visited_spec h3 (by decide) (by simp)
  have h1 : VisitSpec 1 pinnedPdpt := visited_spec h2 (by decide) (by simp)
  exact visited_spec h1 (by decide) (by simp)

end Pins

/-- What a successful copy establishes. -/
structure Forked (R : Set Nat) (pins : Nat → Nat) (parent child : Nat) (m m' : Machine) : Prop where
  inv : Inv R pins m'
  keeps : Keeps R (Below child []) m m'
  leaves : Leaves R (Either parent child) m m'
  same : ∀ p, UserPath p → p.length = 4 → walk (follow m') child p = walk (follow m) parent p

theorem Forked.page {R : Set Nat} {pins : Nat → Nat} {parent child : Nat} {m m' : Machine} {p : List Nat}
    (h : Forked R pins parent child m m') (hp : parent ∈ R) (hne : parent ≠ child) (hu : UserPath p)
    (hl : p.length = 4) : page m' child p = page m parent p := by
  unfold Space.page
  rw [h.same p hu hl]
  cases hw : walk (follow m) parent p with
  | none => rfl
  | some f => exact congrArg some (h.keeps.data ⟨hp, hu, hw⟩ hl fun hb => hne hb.1)

/-- **The copy.** Every page of every other address space is kept, and after success the child maps the parent's. -/
theorem cowCopyUserPages_spec {R : Set Nat} {pins : Nat → Nat} {m : Machine} {parent child : Nat} (h : Inv R pins m)
    (hp : parent ∈ R) (hc : child ∈ R) (hne : parent ≠ child)
    (hempty : ∀ i, i < 256 → walk (follow m) child [i] = none) :
    Loop.Result (Forked R pins parent child m) (Failed R pins parent child [] m) (cowCopyUserPages parent child m) := by
  have hlist := fun {pins' : Nat → Nat} {m' : Machine} {D : Nat → List Nat → Prop} (h' : Inv R pins' m')
    (hkeep : Keeps R D m m') (hD : ∀ p, ¬ D parent p) =>
      pinnedPml4_spec R pins pins' m m' parent [] parent D h h' hkeep hD (node_root hp) rfl
  have hnodes := (hlist h (.refl (D := fun _ _ => False) m) fun _ => id).2
  have hmem₁ : (pinPml4 m parent).mem = m.mem := by
    rw [pinPml4_eq]
    exact mem_foldl _ mem_incRef _ _
  have h₁ : Inv R (pins + pinsOf (pinnedPml4 m parent)) (pinPml4 m parent) := by
    rw [pinPml4_eq]
    exact pinAll _ h fun f hf => (hnodes f hf).elim fun p hn => ⟨parent, p, hn⟩
  have hk₁ : Keeps R (Below child []) m (pinPml4 m parent) := .of_mem hmem₁
  have hempty₁ : ∀ j, UserPath ([] ++ [j]) → walk (follow (pinPml4 m parent)) child ([] ++ [j]) = none := by
    intro j hj
    have hk : Keeps R (fun _ _ => False) m (pinPml4 m parent) := .of_mem hmem₁
    rw [hk.walk hc hj id]
    exact hempty j (hj.2.2 j rfl)
  have hoff : ∀ p, ¬ Below child [] parent p := fun p hb => hne hb.1
  have hl₁ : Leaves R (Either parent child) m (pinPml4 m parent) := .of_mem hmem₁
  have hres := copyPml4_spec R _ _ parent child [] parent child h₁ (node_root hp) (node_root hc) rfl hne hempty₁
  unfold cowCopyUserPages
  rcases hcopy : copyPml4 parent child (pinPml4 m parent) with ⟨ok, m₂⟩
  rw [hcopy] at hres
  cases ok with
  | false =>
    obtain ⟨hinv, hkeep, hleaf⟩ := hres.fail rfl
    exact .ofFalse ⟨forgetPins _ hinv, hk₁.trans hkeep, hl₁.trans hleaf⟩
  | true =>
    have hcop := hres.ok rfl
    have hk₂ := hk₁.trans hcop.keeps
    have hperm : (unpinnedPml4 m₂ parent).Perm (pinnedPml4 m parent) := by
      rw [← (hlist hcop.inv hk₂ hoff).1]
      exact unpinnedPml4_perm m₂ parent
    have hpins : pinsOf (pinnedPml4 m parent) = pinsOf (unpinnedPml4 m₂ parent) := by
      funext g
      exact (hperm.count_eq g).symm
    have hinv := hcop.inv
    rw [hpins] at hinv
    have hmem₃ : (unpinPml4 m₂ parent).mem = m₂.mem := by
      rw [unpinPml4_eq]
      exact mem_foldl _ mem_decRef _ _
    have hk₃ : Keeps R (fun _ _ => False) m₂ (unpinPml4 m₂ parent) := .of_mem hmem₃
    refine .ofTrue ⟨?_, hk₂.trans (hk₃.mono fun _ _ => False.elim),
      (hl₁.trans hcop.leaves).trans (.of_mem hmem₃), fun p hp' hl => ?_⟩
    · rw [unpinPml4_eq]
      exact unpinAll _ hinv
    · cases p with
      | nil => simp at hl
      | cons i p =>
        have hi : i < entriesAt 0 := hp'.2.2 i rfl
        have hk : Keeps R (fun _ _ => False) m (pinPml4 m parent) := .of_mem hmem₁
        calc walk (follow (unpinPml4 m₂ parent)) child (i :: p)
            = walk (follow m₂) child (i :: p) := hk₃.walk hc hp' id
          _ = walk (follow (pinPml4 m parent)) parent (i :: p) := hcop.done i hi p hp' hl
          _ = walk (follow m) parent (i :: p) := hk.walk hp hp' id

end Zigix.Clone
