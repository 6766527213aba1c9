import Zigix.Mm.Slab

/-!
# The lists of slabs

* `Shelved s L` : every list `L c w` is threaded, and no slab is on two of them (`Shelved.add`, `Shelved.remove`,
  `Shelved.congr`).
-/

namespace Zigix.SlabAlloc

open Chains (Threaded)

variable {s s' : State} {L : Nat → Shelf → List Nat} {c i j : Nat} {w : Shelf}

/-! ## What the edits leave alone -/

structure SameButLinks (s s' : State) : Prop where
  pool : ∀ i, ∃ n p, s'.pool i = { s.pool i with next := n, prev := p }
  caches : ∀ c, ∃ h, s'.caches c = { s.caches c with heads := h }
  mem : s'.mem = s.mem
  free : s'.free = s.free

theorem SameButLinks.refl (s : State) : SameButLinks s s := ⟨fun _ => ⟨_, _, rfl⟩, fun _ => ⟨_, rfl⟩, rfl, rfl⟩

theorem SameButLinks.trans {t : State} (h : SameButLinks s s') (h' : SameButLinks s' t) : SameButLinks s t := by
  refine ⟨fun i => ?_, fun c => ?_, h'.mem.trans h.mem, h'.free.trans h.free⟩
  · obtain ⟨n, p, hp⟩ := h.pool i
    obtain ⟨n', p', hp'⟩ := h'.pool i
    exact ⟨n', p', by rw [hp', hp]⟩
  · obtain ⟨k, hk⟩ := h.caches c
    obtain ⟨k', hk'⟩ := h'.caches c
    exact ⟨k', by rw [hk', hk]⟩

theorem SameButLinks.modify (s : State) (i : Nat) {f : Slab → Slab}
    (hf : ∀ b, ∃ n p, f b = { b with next := n, prev := p }) : SameButLinks s (s.modify i f) := by
  refine ⟨fun j => ?_, fun c => ⟨_, rfl⟩, rfl, rfl⟩
  rw [State.pool_modify]
  split
  · next he =>
    rw [he]
    exact hf _
  · exact ⟨_, _, rfl⟩

theorem SameButLinks.setHead (s : State) (c : Nat) (w : Shelf) (idx : Nat) : SameButLinks s (s.setHead c w idx) := by
  refine ⟨fun j => ⟨_, _, rfl⟩, fun k => ?_, rfl, rfl⟩
  rw [State.setHead, State.caches_modifyCache]
  split
  · next he =>
    rw [he]
    exact ⟨_, rfl⟩
  · exact ⟨_, rfl⟩

theorem addToList_same (s : State) (c : Nat) (w : Shelf) (i : Nat) : SameButLinks s (addToList s c w i) := by
  have hset : SameButLinks s (s.modify i fun b => { b with prev := nullSlab, next := s.head c w }) :=
    .modify s i fun _ => ⟨_, _, rfl⟩
  unfold addToList
  dsimp only
  refine SameButLinks.trans ?_ (.setHead _ c w i)
  split
  · exact hset.trans (.modify _ _ fun _ => ⟨_, _, rfl⟩)
  · exact hset

theorem removeFromList_same (s : State) (c : Nat) (w : Shelf) (i : Nat) : SameButLinks s (removeFromList s c w i) := by
  unfold removeFromList
  dsimp only
  refine SameButLinks.trans ?_ (.modify _ i fun _ => ⟨_, _, rfl⟩)
  have hfst : SameButLinks s (linkNext s c w (s.prev i) (s.next i)) := by
    unfold linkNext
    split
    · exact .modify _ _ fun _ => ⟨_, _, rfl⟩
    · exact .setHead _ _ _ _
  refine hfst.trans ?_
  unfold linkPrev
  split
  · exact .modify _ _ fun _ => ⟨_, _, rfl⟩
  · exact .refl _

/-! ## The links after an edit -/

theorem head_setHead (s : State) (c c' : Nat) (w w' : Shelf) (idx : Nat) :
    (s.setHead c w idx).head c' w' = if c' = c ∧ w' = w then idx else s.head c' w' := by
  unfold State.head State.setHead
  rw [State.caches_modifyCache]
  by_cases hc : c' = c
  · subst hc
    simp [Function.update_apply]
  · simp [hc]

theorem head_addToList (s : State) (c c' : Nat) (w w' : Shelf) (i : Nat) :
    (addToList s c w i).head c' w' = if c' = c ∧ w' = w then i else s.head c' w' := by
  unfold addToList
  dsimp only
  rw [head_setHead]
  congr 1
  split <;> rfl

theorem next_addToList (s : State) (c : Nat) (w : Shelf) (i j : Nat) :
    (addToList s c w i).next j = if j = i then s.head c w else s.next j := by
  unfold addToList State.next State.setHead
  dsimp only
  generalize s.head c w = h
  by_cases hh : h = nullSlab <;> by_cases hj : j = i <;> by_cases hjh : j = h <;> simp_all

theorem prev_addToList (s : State) (hi : i ≠ s.head c w) (hj : j ≠ nullSlab) :
    (addToList s c w i).prev j = if j = i then nullSlab else if j = s.head c w then i else s.prev j := by
  unfold addToList State.prev State.setHead
  dsimp only
  generalize s.head c w = h at hi
  by_cases hh : h = nullSlab <;> by_cases hji : j = i <;> by_cases hjh : j = h <;> simp_all

theorem next_linkNext (s : State) (c : Nat) (w : Shelf) (p n : Nat) (hj : j ≠ nullSlab) :
    (linkNext s c w p n).next j = if j = p then n else s.next j := by
  unfold linkNext State.next
  split
  · rw [State.pool_modify]
    split <;> rfl
  · next hp =>
    have hne : j ≠ p := fun he => hp fun hn => hj (he.trans hn)
    rw [if_neg hne]
    rfl

theorem prev_linkNext (s : State) (c : Nat) (w : Shelf) (p n j : Nat) : (linkNext s c w p n).prev j = s.prev j := by
  unfold linkNext State.prev
  split
  · rw [State.pool_modify]
    split
    · next he => rw [he]
    · rfl
  · rfl

theorem head_linkNext (s : State) (c c' : Nat) (w w' : Shelf) (p n : Nat) :
    (linkNext s c w p n).head c' w' = if p = nullSlab ∧ c' = c ∧ w' = w then n else s.head c' w' := by
  unfold linkNext
  split
  · next hp =>
    rw [if_neg fun h => hp h.1]
    rfl
  · next hp =>
    rw [Decidable.not_not] at hp
    rw [head_setHead]
    simp only [hp, true_and]

theorem prev_linkPrev (s : State) (p n : Nat) (hj : j ≠ nullSlab) :
    (linkPrev s p n).prev j = if j = n then p else s.prev j := by
  unfold linkPrev State.prev
  split
  · rw [State.pool_modify]
    split <;> rfl
  · next hn =>
    have hne : j ≠ n := fun he => hn fun h => hj (he.trans h)
    rw [if_neg hne]

theorem next_linkPrev (s : State) (p n j : Nat) : (linkPrev s p n).next j = s.next j := by
  unfold linkPrev State.next
  split
  · rw [State.pool_modify]
    split
    · next he => rw [he]
    · rfl
  · rfl

theorem head_linkPrev (s : State) (p n c : Nat) (w : Shelf) : (linkPrev s p n).head c w = s.head c w := by
  unfold linkPrev
  split <;> rfl

theorem next_removeFromList (s : State) (c : Nat) (w : Shelf) (hj : j ≠ i) (hjn : j ≠ nullSlab) :
    (removeFromList s c w i).next j = if j = s.prev i then s.next i else s.next j := by
  have h := next_linkPrev (linkNext s c w (s.prev i) (s.next i)) (s.prev i) (s.next i) j
  rw [next_linkNext s c w _ _ hjn] at h
  rw [← h, removeFromList, State.next, State.pool_modify, if_neg hj]
  rfl

theorem prev_removeFromList (s : State) (c : Nat) (w : Shelf) (hj : j ≠ i) (hjn : j ≠ nullSlab) :
    (removeFromList s c w i).prev j = if j = s.next i then s.prev i else s.prev j := by
  have h := prev_linkPrev (linkNext s c w (s.prev i) (s.next i)) (s.prev i) (s.next i) hjn
  rw [prev_linkNext] at h
  rw [← h, removeFromList, State.prev, State.pool_modify, if_neg hj]
  rfl

theorem head_removeFromList (s : State) (c c' : Nat) (w w' : Shelf) (i : Nat) :
    (removeFromList s c w i).head c' w' =
      if s.prev i = nullSlab ∧ c' = c ∧ w' = w then s.next i else s.head c' w' :=
  (head_linkPrev _ _ _ c' w').trans (head_linkNext s c c' w w' _ _)

/-! ## All lists together -/

structure Shelved (s : State) (L : Nat → Shelf → List Nat) : Prop where
  threaded : ∀ c w, Threaded s.next s.prev nullSlab (s.head c w) (L c w)
  apart : ∀ {c w c' w' i}, i ∈ L c w → i ∈ L c' w' → c' = c ∧ w' = w

def setList (L : Nat → Shelf → List Nat) (c : Nat) (w : Shelf) (l : List Nat) : Nat → Shelf → List Nat :=
  fun c' w' => if c' = c ∧ w' = w then l else L c' w'

@[simp] theorem setList_self (L : Nat → Shelf → List Nat) (c : Nat) (w : Shelf) (l : List Nat) :
    setList L c w l c w = l := if_pos ⟨rfl, rfl⟩

theorem setList_of_ne {l : List Nat} {c' : Nat} {w' : Shelf} (h : ¬ (c' = c ∧ w' = w)) :
    setList L c w l c' w' = L c' w' := if_neg h

theorem Shelved.ne_null (h : Shelved s L) (hi : i ∈ L c w) : i ≠ nullSlab := fun he =>
  (h.threaded c w).no_null (he ▸ hi)

theorem Shelved.congr (h : Shelved s L) (hn : ∀ i c w, i ∈ L c w → s'.next i = s.next i)
    (hp : ∀ i c w, i ∈ L c w → s'.prev i = s.prev i) (hh : ∀ c w, s'.head c w = s.head c w) : Shelved s' L := by
  refine ⟨fun c w => ?_, h.apart⟩
  rw [hh]
  exact (h.threaded c w).congr (fun i hi => hn i c w hi) fun i hi => hp i c w hi

theorem Shelved.head_mem (h : Shelved s L) : s.head c w = nullSlab ∨ s.head c w ∈ L c w := by
  by_cases hl : L c w = []
  · exact .inl ((h.threaded c w).head_eq_null_iff.2 hl)
  · exact .inr ((h.threaded c w).head_eq ▸ Chains.headD_mem hl)

theorem Shelved.add (h : Shelved s L) (hi : ∀ c w, i ∉ L c w) (hin : i ≠ nullSlab) (c : Nat) (w : Shelf) :
    Shelved (addToList s c w i) (setList L c w (i :: L c w)) := by
  have hne : ∀ c' w' j, j ∈ L c' w' → j ≠ i := fun c' w' j hj he => hi c' w' (he ▸ hj)
  have hhead : i ≠ s.head c w := by
    rcases h.head_mem (c := c) (w := w) with hm | hm
    · rw [hm]
      exact hin
    · exact (hne c w _ hm).symm
  constructor
  · intro c' w'
    rw [head_addToList]
    by_cases hcw : c' = c ∧ w' = w
    · obtain ⟨rfl, rfl⟩ := hcw
      rw [if_pos ⟨rfl, rfl⟩, setList_self]
      refine (h.threaded c' w').push (hi c' w') hin ?_ ?_ (fun j hj => ?_) fun j hj => ?_
      · rw [next_addToList, if_pos rfl]
      · rw [prev_addToList s hhead hin, if_pos rfl]
      · rw [next_addToList, if_neg (hne _ _ _ hj)]
      · rw [prev_addToList s hhead (h.ne_null hj), if_neg (hne _ _ _ hj)]
    · rw [if_neg hcw, setList_of_ne hcw]
      refine (h.threaded c' w').congr (fun j hj => ?_) fun j hj => ?_
      · rw [next_addToList, if_neg (hne _ _ _ hj)]
      · have hjh : j ≠ s.head c w := fun he => by
          rcases h.head_mem (c := c) (w := w) with hm | hm
          · exact h.ne_null hj (he.trans hm)
          · exact hcw (h.apart hm (he ▸ hj))
        rw [prev_addToList s hhead (h.ne_null hj), if_neg (hne _ _ _ hj), if_neg hjh]
  · intro c₁ w₁ c₂ w₂ j h₁ h₂
    unfold setList at h₁ h₂
    split at h₁ <;> split at h₂
    · next hc₁ hc₂ => exact ⟨hc₂.1.trans hc₁.1.symm, hc₂.2.trans hc₁.2.symm⟩
    · next hc₁ hc₂ =>
      rcases List.mem_cons.1 h₁ with rfl | h₁
      · exact absurd h₂ (hi _ _)
      · exact absurd (h.apart h₁ h₂) hc₂
    · next hc₁ hc₂ =>
      rcases List.mem_cons.1 h₂ with rfl | h₂
      · exact absurd h₁ (hi _ _)
      · exact absurd (h.apart h₂ h₁) hc₁
    · exact h.apart h₁ h₂

theorem Shelved.remove (h : Shelved s L) (hi : i ∈ L c w) :
    Shelved (removeFromList s c w i) (setList L c w ((L c w).erase i)) := by
  have hthr := h.threaded c w
  constructor
  · intro c' w'
    rw [head_removeFromList]
    by_cases hcw : c' = c ∧ w' = w
    · obtain ⟨rfl, rfl⟩ := hcw
      have hmem : ∀ j ∈ (L c' w').erase i, j ≠ i ∧ j ≠ nullSlab := fun j hj =>
        ⟨fun he => hthr.nodup.not_mem_erase (he ▸ hj), h.ne_null (List.mem_of_mem_erase hj)⟩
      rw [setList_self]
      refine hthr.remove hi (fun j hj => ?_) (fun j hj => ?_) ?_
      · exact next_removeFromList s c' w' (hmem j hj).1 (hmem j hj).2
      · exact prev_removeFromList s c' w' (hmem j hj).1 (hmem j hj).2
      · simp
    · rw [if_neg fun h => hcw h.2, setList_of_ne hcw]
      have hout : ∀ j ∈ L c' w', j ∉ L c w := fun j hj hm => hcw (h.apart hm hj)
      refine (h.threaded c' w').congr (fun j hj => ?_) fun j hj => ?_
      · have hji : j ≠ i := fun he => hout j hj (he ▸ hi)
        have hjp : j ≠ s.prev i := fun he => by
          rcases hthr.prev_mem hi with hm | hm
          · exact h.ne_null hj (he.trans hm)
          · exact hout j hj (he ▸ hm)
        rw [next_removeFromList s c w hji (h.ne_null hj), if_neg hjp]
      · have hji : j ≠ i := fun he => hout j hj (he ▸ hi)
        have hjn : j ≠ s.next i := fun he => by
          rcases hthr.next_mem hi with hm | hm
          · exact h.ne_null hj (he.trans hm)
          · exact hout j hj (he ▸ hm)
        rw [prev_removeFromList s c w hji (h.ne_null hj), if_neg hjn]
  · have hsub : ∀ c' w' j, j ∈ setList L c w ((L c w).erase i) c' w' → j ∈ L c' w' := by
      intro c' w' j hj
      unfold setList at hj
      split at hj
      · next he =>
        rw [he.1, he.2]
        exact List.mem_of_mem_erase hj
      · exact hj
    intro c₁ w₁ c₂ w₂ j h₁ h₂
    exact h.apart (hsub _ _ _ h₁) (hsub _ _ _ h₂)

end Zigix.SlabAlloc
