import Zigix.Lib.Chains

/-!
# Lists threaded through a table

Two tables of links, `nx` and `pv`, with a null value that ends a list.

* `Linked nx pv p l n` : the nodes of `l` are linked forwards and backwards between `p` and `n`;
* `Threaded` : a whole list, from its head; `Threaded.remove` and `Threaded.push` are the two edits, stated for any
  tables that agree with the edited ones at the nodes that remain;
* `search`, `predecessor` : the walks along one table, with their results on a chain;
* `Seg.unlink` : a node taken out of a singly linked chain.
-/

namespace Chains

variable {α : Type*} {nx pv nx' pv' : α → α} {p p' n n' x null head head' tail d : α} {l l₁ l₂ : List α}

/-- The nodes of `l` linked in both directions, between `p` and `n`. -/
def Linked (nx pv : α → α) : α → List α → α → Prop
  | _, [], _ => True
  | p, x :: l, n => pv x = p ∧ nx x = l.headD n ∧ Linked nx pv x l n

theorem linked_append : Linked nx pv p (l₁ ++ l₂) n ↔
    Linked nx pv p l₁ (l₂.headD n) ∧ Linked nx pv (l₁.getLastD p) l₂ n := by
  induction l₁ generalizing p with
  | nil => simp [Linked]
  | cons x l₁ ih =>
    have hhead : (l₁ ++ l₂).headD n = l₁.headD (l₂.headD n) := by cases l₁ <;> rfl
    simp only [List.cons_append, Linked, ih, hhead, List.getLastD_cons, and_assoc]

theorem Linked.congr (h : Linked nx pv p l n) (hn : ∀ y ∈ l, nx' y = nx y) (hp : ∀ y ∈ l, pv' y = pv y) :
    Linked nx' pv' p l n := by
  induction l generalizing p with
  | nil => trivial
  | cons x l ih =>
    obtain ⟨h1, h2, h3⟩ := h
    have hmem : ∀ y ∈ l, y ∈ x :: l := fun y hy => List.mem_cons_of_mem x hy
    refine ⟨?_, ?_, ih h3 (fun y hy => hn y (hmem y hy)) (fun y hy => hp y (hmem y hy))⟩
    · rw [hp x List.mem_cons_self, h1]
    · rw [hn x List.mem_cons_self, h2]

theorem getLastD_mem (hl : l ≠ []) : l.getLastD d ∈ l := by
  rw [List.getLastD_eq_getLast?, List.getLast?_eq_some_getLast hl]
  exact List.getLast_mem hl

theorem headD_mem (hl : l ≠ []) : l.headD d ∈ l := by
  cases l with
  | nil => exact absurd rfl hl
  | cons x l => exact List.mem_cons_self

/-- The last node of a list leads elsewhere. -/
theorem Linked.setLast [DecidableEq α] (h : Linked nx pv p l n) (hnd : l.Nodup) (hp : ∀ y ∈ l, pv' y = pv y)
    (hn : ∀ y ∈ l, nx' y = if y = l.getLastD d then n' else nx y) : Linked nx' pv' p l n' := by
  induction l generalizing p d with
  | nil => trivial
  | cons x l ih =>
    obtain ⟨h1, h2, h3⟩ := h
    obtain ⟨hx, hnd⟩ := List.nodup_cons.1 hnd
    have hmem : ∀ y ∈ l, y ∈ x :: l := fun y hy => List.mem_cons_of_mem x hy
    rw [List.getLastD_cons] at hn
    refine ⟨by rw [hp x List.mem_cons_self, h1], ?_,
      ih h3 hnd (fun y hy => hp y (hmem y hy)) (fun y hy => hn y (hmem y hy))⟩
    rw [hn x List.mem_cons_self]
    cases l with
    | nil => exact if_pos rfl
    | cons y l =>
      have hne : x ≠ (y :: l).getLastD x := fun he => hx (he ▸ getLastD_mem (List.cons_ne_nil y l))
      rw [if_neg hne]
      exact h2

/-- The first node of a list is reached from elsewhere. -/
theorem Linked.setFirst [DecidableEq α] (h : Linked nx pv p l n) (hnd : l.Nodup) (hn : ∀ y ∈ l, nx' y = nx y)
    (hp : ∀ y ∈ l, pv' y = if y = l.headD d then p' else pv y) : Linked nx' pv' p' l n := by
  cases l with
  | nil => trivial
  | cons x l =>
    obtain ⟨h1, h2, h3⟩ := h
    obtain ⟨hx, hnd⟩ := List.nodup_cons.1 hnd
    have hmem : ∀ y ∈ l, y ∈ x :: l := fun y hy => List.mem_cons_of_mem x hy
    refine ⟨?_, ?_, h3.congr (fun y hy => hn y (hmem y hy)) fun y hy => ?_⟩
    · rw [hp x List.mem_cons_self]
      exact if_pos rfl
    · rw [hn x List.mem_cons_self, h2]
    · have hne : y ≠ x := fun he => hx (he ▸ hy)
      rw [hp y (hmem y hy)]
      exact if_neg hne

/-- The forward links alone. -/
theorem Linked.seg (h : Linked nx pv p l n) : Seg nx (l.headD n) l n := by
  induction l generalizing p with
  | nil => rfl
  | cons x l ih =>
    obtain ⟨_, h2, h3⟩ := h
    refine ⟨rfl, ?_⟩
    rw [h2]
    exact ih h3

/-- The backward links alone. -/
theorem Linked.seg_reverse (h : Linked nx pv p l n) : Seg pv (l.getLastD p) l.reverse p := by
  induction l generalizing p with
  | nil => rfl
  | cons x l ih =>
    obtain ⟨h1, _, h3⟩ := h
    rw [List.reverse_cons, List.getLastD_cons]
    exact seg_append.2 ⟨x, ih h3, rfl, h1⟩

/-! ## Whole lists -/

/-- `l` is the list that starts at `head`. -/
structure Threaded (nx pv : α → α) (null head : α) (l : List α) : Prop where
  head_eq : head = l.headD null
  links : Linked nx pv null l null
  nodup : l.Nodup
  no_null : null ∉ l

theorem Threaded.nil (nx pv : α → α) (null : α) : Threaded nx pv null null [] :=
  ⟨rfl, trivial, List.nodup_nil, List.not_mem_nil⟩

theorem Threaded.congr (h : Threaded nx pv null head l) (hn : ∀ y ∈ l, nx' y = nx y) (hp : ∀ y ∈ l, pv' y = pv y) :
    Threaded nx' pv' null head l := ⟨h.head_eq, h.links.congr hn hp, h.nodup, h.no_null⟩

theorem Threaded.head_eq_null_iff (h : Threaded nx pv null head l) : head = null ↔ l = [] := by
  rw [h.head_eq]
  constructor
  · intro he
    by_contra hl
    exact h.no_null (he ▸ headD_mem hl)
  · rintro rfl
    rfl

/-- The two neighbours of a node. -/
theorem Threaded.split (h : Threaded nx pv null head (l₁ ++ x :: l₂)) :
    pv x = l₁.getLastD null ∧ nx x = l₂.headD null ∧ Linked nx pv null l₁ x ∧ Linked nx pv x l₂ null := by
  obtain ⟨h1, h2, h3, h4⟩ := linked_append.1 h.links
  exact ⟨h2, h3, h1, h4⟩

/-- A neighbour of a node is a node, or there is none. -/
theorem Threaded.prev_mem (h : Threaded nx pv null head l) (hx : x ∈ l) : pv x = null ∨ pv x ∈ l := by
  obtain ⟨l₁, l₂, rfl⟩ := List.append_of_mem hx
  rw [h.split.1]
  by_cases hl : l₁ = []
  · exact .inl (by rw [hl]; rfl)
  · exact .inr (List.mem_append_left _ (getLastD_mem hl))

theorem Threaded.next_mem (h : Threaded nx pv null head l) (hx : x ∈ l) : nx x = null ∨ nx x ∈ l := by
  obtain ⟨l₁, l₂, rfl⟩ := List.append_of_mem hx
  rw [h.split.2.1]
  by_cases hl : l₂ = []
  · exact .inl (by rw [hl]; rfl)
  · exact .inr (List.mem_append_right _ (List.mem_cons_of_mem x (headD_mem hl)))

/-- A node without a predecessor is the head. -/
theorem Threaded.head_eq_of_prev (h : Threaded nx pv null head l) (hx : x ∈ l) (hp : pv x = null) : head = x := by
  obtain ⟨l₁, l₂, rfl⟩ := List.append_of_mem hx
  have hl : l₁ = [] := by
    by_contra hne
    exact h.no_null (List.mem_append_left _ (hp ▸ h.split.1 ▸ getLastD_mem hne))
  subst hl
  exact h.head_eq

theorem erase_middle [BEq α] [LawfulBEq α] (hnd : (l₁ ++ x :: l₂).Nodup) : (l₁ ++ x :: l₂).erase x = l₁ ++ l₂ := by
  have hx : x ∉ l₁ := fun hx => (List.nodup_append.1 hnd).2.2 x hx x List.mem_cons_self rfl
  rw [List.erase_append_right _ hx, List.erase_cons_head]

/-- A node taken out: its neighbours are linked to each other. -/
theorem Threaded.remove [DecidableEq α] (h : Threaded nx pv null head l) (hx : x ∈ l)
    (hn : ∀ y ∈ l.erase x, nx' y = if y = pv x then nx x else nx y)
    (hp : ∀ y ∈ l.erase x, pv' y = if y = nx x then pv x else pv y)
    (hh : head' = if pv x = null then nx x else head) : Threaded nx' pv' null head' (l.erase x) := by
  obtain ⟨l₁, l₂, rfl⟩ := List.append_of_mem hx
  obtain ⟨hpx, hnx, hl₁, hl₂⟩ := h.split
  rw [erase_middle h.nodup] at hn hp ⊢
  have hnd := List.nodup_append.1 h.nodup
  have hnd₂ := List.nodup_cons.1 hnd.2.1
  have hdisj : ∀ y, y ∈ l₁ → y ∉ l₂ := fun y h1 h2 => hnd.2.2 y h1 y (List.mem_cons_of_mem x h2) rfl
  have hnull : null ∉ l₁ ++ l₂ := fun hm => h.no_null <| by
    rcases List.mem_append.1 hm with hm | hm
    · exact List.mem_append_left _ hm
    · exact List.mem_append_right _ (List.mem_cons_of_mem x hm)
  -- a node of one half is no neighbour on the other side
  have hfst : ∀ y ∈ l₁, y ≠ nx x := fun y hy he => by
    rw [hnx] at he
    by_cases hl : l₂ = []
    · subst hl
      exact hnull (List.mem_append_left _ ((show y = null from he) ▸ hy))
    · exact hdisj y hy (he ▸ headD_mem hl)
  have hsnd : ∀ y ∈ l₂, y ≠ pv x := fun y hy he => by
    rw [hpx] at he
    by_cases hl : l₁ = []
    · subst hl
      exact hnull (List.mem_append_right _ ((show y = null from he) ▸ hy))
    · exact hdisj y (he ▸ getLastD_mem hl) hy
  refine ⟨?_, linked_append.2 ⟨?_, ?_⟩, ?_, hnull⟩
  · rw [hh, hpx, hnx]
    by_cases hl : l₁ = []
    · subst hl
      exact if_pos rfl
    · have hne : l₁.getLastD null ≠ null := fun he => hnull (List.mem_append_left _ (he ▸ getLastD_mem hl))
      rw [if_neg hne, h.head_eq]
      cases l₁ with
      | nil => exact absurd rfl hl
      | cons y l₁ => rfl
  · refine hl₁.setLast (d := null) hnd.1 (fun y hy => ?_) fun y hy => ?_
    · rw [hp y (List.mem_append_left _ hy), if_neg (hfst y hy)]
    · rw [hn y (List.mem_append_left _ hy), hpx, hnx]
  · refine hl₂.setFirst (d := null) hnd₂.2 (fun y hy => ?_) fun y hy => ?_
    · rw [hn y (List.mem_append_right _ hy), if_neg (hsnd y hy)]
    · rw [hp y (List.mem_append_right _ hy), hpx, hnx]
  · exact List.nodup_append.2 ⟨hnd.1, hnd₂.2, fun a ha b hb he => hdisj a ha (he ▸ hb)⟩

/-- The last node after a node was taken out. -/
theorem Threaded.remove_tail [DecidableEq α] (h : Threaded nx pv null head l) (hx : x ∈ l)
    (ht : tail = l.getLastD null) : (if nx x = null then pv x else tail) = (l.erase x).getLastD null := by
  obtain ⟨l₁, l₂, rfl⟩ := List.append_of_mem hx
  obtain ⟨hpx, hnx, _, _⟩ := h.split
  rw [erase_middle h.nodup, ht, hpx, hnx]
  by_cases hl : l₂ = []
  · subst hl
    simp
  · have hne : l₂.headD null ≠ null := fun he =>
      h.no_null (List.mem_append_right _ (List.mem_cons_of_mem x (he ▸ headD_mem hl)))
    rw [if_neg hne, List.getLastD_eq_getLast?, List.getLastD_eq_getLast?, List.getLast?_append_of_ne_nil _ hl,
      List.getLast?_append_of_ne_nil _ (List.cons_ne_nil x l₂), List.getLast?_cons_of_ne_nil hl]

/-- A node added in front. -/
theorem Threaded.push [DecidableEq α] (h : Threaded nx pv null head l) (hx : x ∉ l) (hxn : x ≠ null)
    (hnx : nx' x = head) (hpx : pv' x = null) (hn : ∀ y ∈ l, nx' y = nx y)
    (hp : ∀ y ∈ l, pv' y = if y = head then x else pv y) : Threaded nx' pv' null x (x :: l) := by
  refine ⟨rfl, ⟨hpx, hnx.trans h.head_eq, h.links.setFirst (d := null) h.nodup hn fun y hy => ?_⟩,
    List.nodup_cons.2 ⟨hx, h.nodup⟩, fun hm => ?_⟩
  · rw [hp y hy, h.head_eq]
  · rcases List.mem_cons.1 hm with he | hm
    · exact hxn he.symm
    · exact h.no_null hm

theorem Threaded.seg (h : Threaded nx pv null head l) : Seg nx head l null := by
  rw [h.head_eq]
  exact h.links.seg

/-! ## Walks -/

section Walks
variable [DecidableEq α]

/-- The first node with a property on the way from `a` to the end; `none` if the fuel runs out. -/
def search (nx : α → α) (null : α) (P : α → Bool) : Nat → α → Option (Option α)
  | 0, _ => none
  | fuel + 1, a => if a = null then some none else if P a then some (some a) else search nx null P fuel (nx a)

theorem search_seg {P : α → Bool} {fuel : Nat} {a : α} (h : Seg nx a l null) (hnull : null ∉ l)
    (hf : l.length < fuel) : search nx null P fuel a = some (l.find? P) := by
  induction l generalizing a fuel with
  | nil =>
    obtain ⟨fuel, rfl⟩ := Nat.exists_eq_succ_of_ne_zero (Nat.ne_of_gt hf)
    have ha : a = null := h
    rw [search, if_pos ha]
    rfl
  | cons x l ih =>
    obtain ⟨fuel, rfl⟩ := Nat.exists_eq_succ_of_ne_zero (Nat.ne_of_gt (Nat.zero_lt_of_lt hf))
    obtain ⟨rfl, h⟩ := h
    have hne : a ≠ null := fun he => hnull (he ▸ List.mem_cons_self)
    rw [search, if_neg hne, List.find?_cons]
    cases hP : P a with
    | true => rfl
    | false =>
      rw [List.length_cons] at hf
      exact ih h (fun hm => hnull (List.mem_cons_of_mem a hm)) (Nat.lt_of_succ_lt_succ hf)

/-- The node before `x` on the way from `cur` to the end, `prev` if there is none before it; `some none` if `x` is not
on the way. -/
def predecessor (nx : α → α) (null x : α) : Nat → α → α → Option (Option α)
  | 0, _, _ => none
  | fuel + 1, prev, cur =>
    if cur = null then some none
    else if cur = x then some (some prev)
    else predecessor nx null x fuel cur (nx cur)

theorem predecessor_seg {fuel : Nat} {prev cur : α} (h : Seg nx cur (l₁ ++ x :: l₂) null)
    (hnull : null ∉ l₁ ++ x :: l₂) (hx : x ∉ l₁) (hf : l₁.length < fuel) :
    predecessor nx null x fuel prev cur = some (some (l₁.getLastD prev)) := by
  induction l₁ generalizing cur prev fuel with
  | nil =>
    obtain ⟨fuel, rfl⟩ := Nat.exists_eq_succ_of_ne_zero (Nat.ne_of_gt (Nat.zero_lt_of_lt hf))
    obtain ⟨rfl, _⟩ := h
    have hne : cur ≠ null := fun he => hnull (he ▸ List.mem_cons_self)
    rw [predecessor, if_neg hne, if_pos rfl]
    rfl
  | cons y l₁ ih =>
    obtain ⟨fuel, rfl⟩ := Nat.exists_eq_succ_of_ne_zero (Nat.ne_of_gt (Nat.zero_lt_of_lt hf))
    obtain ⟨rfl, h⟩ := h
    have hne : cur ≠ null := fun he => hnull (he ▸ List.mem_cons_self)
    have hcx : cur ≠ x := fun he => hx (he ▸ List.mem_cons_self)
    rw [predecessor, if_neg hne, if_neg hcx, List.getLastD_cons]
    rw [List.length_cons] at hf
    exact ih h (fun hm => hnull (List.mem_cons_of_mem cur hm)) (fun hm => hx (List.mem_cons_of_mem cur hm))
      (Nat.lt_of_succ_lt_succ hf)

/-- The walk past every node finds nothing. -/
theorem predecessor_none {fuel : Nat} {prev cur : α} (h : Seg nx cur l null) (hnull : null ∉ l) (hx : x ∉ l)
    (hf : l.length < fuel) : predecessor nx null x fuel prev cur = some none := by
  induction l generalizing cur prev fuel with
  | nil =>
    obtain ⟨fuel, rfl⟩ := Nat.exists_eq_succ_of_ne_zero (Nat.ne_of_gt hf)
    rw [predecessor, if_pos (show cur = null from h)]
  | cons y l ih =>
    obtain ⟨fuel, rfl⟩ := Nat.exists_eq_succ_of_ne_zero (Nat.ne_of_gt (Nat.zero_lt_of_lt hf))
    obtain ⟨rfl, h⟩ := h
    have hne : cur ≠ null := fun he => hnull (he ▸ List.mem_cons_self)
    have hcx : cur ≠ x := fun he => hx (he ▸ List.mem_cons_self)
    rw [predecessor, if_neg hne, if_neg hcx]
    rw [List.length_cons] at hf
    exact ih h (fun hm => hnull (List.mem_cons_of_mem cur hm)) (fun hm => hx (List.mem_cons_of_mem cur hm))
      (Nat.lt_of_succ_lt_succ hf)

/-- A node taken out of a singly linked chain: the node before it, or the head, leads to its successor. -/
theorem Seg.unlink {a a' : α} (h : Seg nx a (l₁ ++ x :: l₂) null) (hnull : null ∉ l₁ ++ x :: l₂)
    (hnd : (l₁ ++ x :: l₂).Nodup)
    (hn : ∀ y ∈ l₁ ++ l₂, nx' y = if y = l₁.getLastD null then nx x else nx y)
    (ha : a' = if l₁.getLastD null = null then nx x else a) : Seg nx' a' (l₁ ++ l₂) null := by
  obtain ⟨b, hb, rfl, hrest⟩ := seg_append.1 h
  have hdisj : ∀ y, y ∈ l₁ → y ∉ l₂ := fun y h1 h2 =>
    (List.nodup_append.1 hnd).2.2 y h1 y (List.mem_cons_of_mem b h2) rfl
  have hsnd : ∀ y ∈ l₂, nx' y = nx y := fun y hy => by
    have hne : y ≠ l₁.getLastD null := fun he => by
      by_cases hl : l₁ = []
      · subst hl
        exact hnull (List.mem_append_right _ (List.mem_cons_of_mem b ((show y = null from he) ▸ hy)))
      · exact hdisj y (he ▸ getLastD_mem hl) hy
    rw [hn y (List.mem_append_right _ hy), if_neg hne]
  rcases List.eq_nil_or_concat l₁ with rfl | ⟨l, q, rfl⟩
  · rw [ha, List.getLastD_nil, if_pos rfl]
    exact hrest.congr hsnd
  · have hlast : (l.concat q).getLastD null = q := by simp
    have hq : q ∉ l := fun hq => by
      rw [List.concat_eq_append] at hnd
      exact (List.nodup_append.1 (List.nodup_append.1 hnd).1).2.2 q hq q (List.mem_singleton_self q) rfl
    have hqn : q ≠ null := fun he => hnull (by simp [he])
    rw [hlast] at hn ha
    rw [if_neg hqn] at ha
    subst ha
    rw [List.concat_eq_append] at hb hn ⊢
    refine seg_append.2 ⟨nx b, hb.redirect (fun y hy => ?_) ?_, hrest.congr hsnd⟩
    · have hne : y ≠ q := fun he => hq (he ▸ hy)
      rw [hn y (by simp [hy]), if_neg hne]
    · rw [hn q (by simp), if_pos rfl]

end Walks

end Chains
