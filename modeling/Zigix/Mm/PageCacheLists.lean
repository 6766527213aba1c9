import Mathlib.Data.List.Find
import Zigix.Mm.PageCacheTable

/-!
# What the page cache's tables thread

* `page_cache_structure` : every run keeps that, and `lookup` finds what is there.
-/

namespace Zigix.PageCacheTable

open Chains (Seg Threaded search predecessor)
open PageCache (maxCachedPages)
open Pmm (PhysAddr)

variable {s s' : Table} {l : List Nat} {i j : Nat}

/-! ## The LRU list -/

/-- `l` is the LRU list. -/
structure Lru (s : Table) (l : List Nat) : Prop where
  threaded : Threaded s.next s.prev noIndex s.lruHead l
  tail : s.lruTail = l.getLastD noIndex

structure SameButLru (s s' : Table) : Prop where
  inodeNum : ∀ i, (s'.entries i).inodeNum = (s.entries i).inodeNum
  pageIndex : ∀ i, (s'.entries i).pageIndex = (s.entries i).pageIndex
  phys : ∀ i, (s'.entries i).phys = (s.entries i).phys
  dirty : ∀ i, (s'.entries i).dirty = (s.entries i).dirty
  inUse : ∀ i, (s'.entries i).inUse = (s.entries i).inUse
  hashNext : ∀ i, s'.hashNext i = s.hashNext i
  hashTable : s'.hashTable = s.hashTable
  cacheUsed : s'.cacheUsed = s.cacheUsed

theorem SameButLru.refl (s : Table) : SameButLru s s :=
  ⟨fun _ => rfl, fun _ => rfl, fun _ => rfl, fun _ => rfl, fun _ => rfl, fun _ => rfl, rfl, rfl⟩

theorem SameButLru.trans {t : Table} (h : SameButLru s s') (h' : SameButLru s' t) : SameButLru s t where
  inodeNum i := (h'.inodeNum i).trans (h.inodeNum i)
  pageIndex i := (h'.pageIndex i).trans (h.pageIndex i)
  phys i := (h'.phys i).trans (h.phys i)
  dirty i := (h'.dirty i).trans (h.dirty i)
  inUse i := (h'.inUse i).trans (h.inUse i)
  hashNext i := (h'.hashNext i).trans (h.hashNext i)
  hashTable := h'.hashTable.trans h.hashTable
  cacheUsed := h'.cacheUsed.trans h.cacheUsed

theorem SameButLru.setNext (s : Table) (i v : Nat) : SameButLru s (s.modify i fun e => { e with lruNext := v }) := by
  refine ⟨?_, ?_, ?_, ?_, ?_, ?_, rfl, rfl⟩ <;> intro j <;>
    simp only [Table.hashNext, Table.entries_modify] <;> split <;> simp_all

theorem SameButLru.setPrev (s : Table) (i v : Nat) : SameButLru s (s.modify i fun e => { e with lruPrev := v }) := by
  refine ⟨?_, ?_, ?_, ?_, ?_, ?_, rfl, rfl⟩ <;> intro j <;>
    simp only [Table.hashNext, Table.entries_modify] <;> split <;> simp_all

theorem SameButLru.setBoth (s : Table) (i v w : Nat) :
    SameButLru s (s.modify i fun e => { e with lruPrev := v, lruNext := w }) := by
  refine ⟨?_, ?_, ?_, ?_, ?_, ?_, rfl, rfl⟩ <;> intro j <;>
    simp only [Table.hashNext, Table.entries_modify] <;> split <;> simp_all

theorem SameButLru.ends (s : Table) (head tail : Nat) : SameButLru s { s with lruHead := head, lruTail := tail } :=
  ⟨fun _ => rfl, fun _ => rfl, fun _ => rfl, fun _ => rfl, fun _ => rfl, fun _ => rfl, rfl, rfl⟩

theorem linkNext_same (s : Table) (e : CacheEntry) (i : Nat) : SameButLru s (linkNext s e i) := by
  unfold linkNext
  split
  · exact .setNext s _ _
  · split
    · exact .ends s _ _
    · exact .refl s

theorem linkPrev_same (s : Table) (e : CacheEntry) (i : Nat) : SameButLru s (linkPrev s e i) := by
  unfold linkPrev
  split
  · exact .setPrev s _ _
  · split
    · exact .ends s _ _
    · exact .refl s

theorem lruRemove_same (s : Table) (i : Nat) : SameButLru s (lruRemove s i) :=
  ((linkNext_same s _ i).trans (linkPrev_same _ _ i)).trans (.setBoth _ i noIndex noIndex)

theorem pushHead_same (s : Table) (i : Nat) : SameButLru s (pushHead s i) := by
  have hset := SameButLru.setBoth s i noIndex s.lruHead
  unfold pushHead
  dsimp only
  split
  · exact (hset.trans (.setPrev _ _ _)).trans (.ends _ _ _)
  · exact hset.trans (.ends _ _ _)

theorem lruTouch_same (s : Table) (i : Nat) : SameButLru s (lruTouch s i) := by
  unfold lruTouch
  split
  · exact .refl s
  · exact (lruRemove_same s i).trans (pushHead_same _ i)

/-! The links after each half. -/

theorem next_linkNext (s : Table) (e : CacheEntry) (hj : j ≠ noIndex) :
    (linkNext s e i).next j = if j = e.lruPrev then e.lruNext else s.next j := by
  unfold linkNext Table.next
  split
  · rw [Table.entries_modify]
    split <;> rfl
  · next hp =>
    have hne : j ≠ e.lruPrev := fun he => hp fun hn => hj (he.trans hn)
    rw [if_neg hne]
    split <;> rfl

theorem prev_linkNext (s : Table) (e : CacheEntry) : (linkNext s e i).prev j = s.prev j := by
  unfold linkNext Table.prev
  split
  · rw [Table.entries_modify]
    split
    · next he => rw [he]
    · rfl
  · split <;> rfl

theorem lruHead_linkNext (s : Table) (e : CacheEntry) (i : Nat) :
    (linkNext s e i).lruHead = if e.lruPrev = noIndex ∧ s.lruHead = i then e.lruNext else s.lruHead := by
  unfold linkNext
  by_cases hp : e.lruPrev = noIndex <;> by_cases hh : s.lruHead = i <;> simp [hp, hh, Table.modify]

theorem lruTail_linkNext (s : Table) (e : CacheEntry) (i : Nat) : (linkNext s e i).lruTail = s.lruTail := by
  unfold linkNext
  split
  · rfl
  · split <;> rfl

theorem prev_linkPrev (s : Table) (e : CacheEntry) (hj : j ≠ noIndex) :
    (linkPrev s e i).prev j = if j = e.lruNext then e.lruPrev else s.prev j := by
  unfold linkPrev Table.prev
  split
  · rw [Table.entries_modify]
    split <;> rfl
  · next hn =>
    have hne : j ≠ e.lruNext := fun he => hn fun hn => hj (he.trans hn)
    rw [if_neg hne]
    split <;> rfl

theorem next_linkPrev (s : Table) (e : CacheEntry) : (linkPrev s e i).next j = s.next j := by
  unfold linkPrev Table.next
  split
  · rw [Table.entries_modify]
    split
    · next he => rw [he]
    · rfl
  · split <;> rfl

theorem lruTail_linkPrev (s : Table) (e : CacheEntry) (i : Nat) :
    (linkPrev s e i).lruTail = if e.lruNext = noIndex ∧ s.lruTail = i then e.lruPrev else s.lruTail := by
  unfold linkPrev
  by_cases hp : e.lruNext = noIndex <;> by_cases hh : s.lruTail = i <;> simp [hp, hh, Table.modify]

theorem lruHead_linkPrev (s : Table) (e : CacheEntry) (i : Nat) : (linkPrev s e i).lruHead = s.lruHead := by
  unfold linkPrev
  split
  · rfl
  · split <;> rfl

theorem next_lruRemove (s : Table) (hj : j ≠ i) (hjn : j ≠ noIndex) :
    (lruRemove s i).next j = if j = s.prev i then s.next i else s.next j := by
  have h := next_linkPrev (i := i) (j := j) (linkNext s (s.entries i) i) (s.entries i)
  rw [next_linkNext s _ hjn] at h
  unfold lruRemove Table.next at *
  rw [Table.entries_modify, if_neg hj, h]
  rfl

theorem prev_lruRemove (s : Table) (hj : j ≠ i) (hjn : j ≠ noIndex) :
    (lruRemove s i).prev j = if j = s.next i then s.prev i else s.prev j := by
  have h := prev_linkPrev (i := i) (linkNext s (s.entries i) i) (s.entries i) hjn
  rw [prev_linkNext] at h
  unfold lruRemove Table.prev at *
  rw [Table.entries_modify, if_neg hj, h]
  rfl

theorem lruHead_lruRemove (s : Table) (i : Nat) :
    (lruRemove s i).lruHead = if s.prev i = noIndex ∧ s.lruHead = i then s.next i else s.lruHead :=
  (lruHead_linkPrev _ _ i).trans (lruHead_linkNext s _ i)

theorem lruTail_lruRemove (s : Table) (i : Nat) :
    (lruRemove s i).lruTail = if s.next i = noIndex ∧ s.lruTail = i then s.prev i else s.lruTail := by
  refine (lruTail_linkPrev _ _ i).trans ?_
  rw [lruTail_linkNext]
  rfl

theorem Lru.ne_noIndex (h : Lru s l) (hi : i ∈ l) : i ≠ noIndex := fun he => h.threaded.no_null (he ▸ hi)

theorem Lru.prev_eq (h : Lru s l) (hi : i ∈ l) (hp : s.prev i = noIndex) : s.lruHead = i :=
  h.threaded.head_eq_of_prev hi hp

theorem Lru.next_eq (h : Lru s l) (hi : i ∈ l) (hn : s.next i = noIndex) : s.lruTail = i := by
  obtain ⟨l₁, l₂, rfl⟩ := List.append_of_mem hi
  have hni := h.threaded.split.2.1
  rw [hn] at hni
  have hl : l₂ = [] := by
    by_contra hne
    exact h.threaded.no_null (List.mem_append_right _ (List.mem_cons_of_mem i (hni ▸ Chains.headD_mem hne)))
  subst hl
  rw [h.tail]
  simp

theorem Lru.remove (h : Lru s l) (hi : i ∈ l) : Lru (lruRemove s i) (l.erase i) := by
  have hmem : ∀ y ∈ l.erase i, y ≠ i ∧ y ≠ noIndex := fun y hy =>
    ⟨fun he => h.threaded.nodup.not_mem_erase (he ▸ hy), h.ne_noIndex (List.mem_of_mem_erase hy)⟩
  constructor
  · refine h.threaded.remove hi (fun y hy => ?_) (fun y hy => ?_) ?_
    · exact next_lruRemove s (hmem y hy).1 (hmem y hy).2
    · exact prev_lruRemove s (hmem y hy).1 (hmem y hy).2
    · rw [lruHead_lruRemove]
      by_cases hp : s.prev i = noIndex
      · rw [if_pos hp, if_pos ⟨hp, h.prev_eq hi hp⟩]
      · rw [if_neg hp, if_neg fun hc => hp hc.1]
  · rw [lruTail_lruRemove, ← h.threaded.remove_tail hi h.tail]
    by_cases hn : s.next i = noIndex
    · rw [if_pos hn, if_pos ⟨hn, h.next_eq hi hn⟩]
    · rw [if_neg hn, if_neg fun hc => hn hc.1]

/-! The links after `pushHead`. -/

theorem next_pushHead (s : Table) (i j : Nat) : (pushHead s i).next j = if j = i then s.lruHead else s.next j := by
  unfold pushHead Table.next
  dsimp only
  by_cases hh : s.lruHead = noIndex <;> by_cases hj : j = i <;> by_cases hjh : j = s.lruHead <;>
    simp_all

theorem prev_pushHead (s : Table) (hi : i ≠ s.lruHead) (hj : j ≠ noIndex) :
    (pushHead s i).prev j = if j = i then noIndex else if j = s.lruHead then i else s.prev j := by
  unfold pushHead Table.prev
  dsimp only
  by_cases hh : s.lruHead = noIndex <;> by_cases hji : j = i <;> by_cases hjh : j = s.lruHead <;>
    simp_all

theorem lruTail_pushHead (s : Table) (i : Nat) :
    (pushHead s i).lruTail = if s.lruTail = noIndex then i else s.lruTail := by
  unfold pushHead
  dsimp only
  split <;> rfl

theorem Lru.head_mem (h : Lru s l) (hl : l ≠ []) : s.lruHead ∈ l := by
  rw [h.threaded.head_eq]
  exact Chains.headD_mem hl

theorem Lru.ne_head (h : Lru s l) (hi : i ∉ l) (hin : i ≠ noIndex) : i ≠ s.lruHead := by
  intro he
  by_cases hl : l = []
  · exact hin (he.trans (h.threaded.head_eq_null_iff.2 hl))
  · exact hi (he ▸ h.head_mem hl)

theorem Lru.pushHead (h : Lru s l) (hi : i ∉ l) (hin : i ≠ noIndex) : Lru (pushHead s i) (i :: l) := by
  have hih := h.ne_head hi hin
  have hmem : ∀ y ∈ l, y ≠ i := fun y hy he => hi (he ▸ hy)
  have hhead : (PageCacheTable.pushHead s i).lruHead = i := rfl
  constructor
  · rw [hhead]
    refine h.threaded.push hi hin ?_ ?_ (fun y hy => ?_) fun y hy => ?_
    · rw [next_pushHead, if_pos rfl]
    · rw [prev_pushHead s hih hin, if_pos rfl]
    · rw [next_pushHead, if_neg (hmem y hy)]
    · rw [prev_pushHead s hih (h.ne_noIndex hy), if_neg (hmem y hy)]
  · rw [lruTail_pushHead, h.tail, List.getLastD_cons]
    cases l with
    | nil => exact if_pos rfl
    | cons y l =>
      have hne : (y :: l).getLastD noIndex ≠ noIndex := fun he =>
        h.threaded.no_null (he ▸ Chains.getLastD_mem (List.cons_ne_nil y l))
      rw [if_neg hne, List.getLastD_cons, List.getLastD_cons]

theorem Lru.touch (h : Lru s l) (hi : i ∈ l) : Lru (lruTouch s i) (i :: l.erase i) := by
  unfold lruTouch
  split
  · next hh =>
    cases l with
    | nil => exact absurd hi List.not_mem_nil
    | cons y l =>
      have hy : y = i := h.threaded.head_eq.symm.trans hh
      subst hy
      rwa [List.erase_cons_head]
  · exact (h.remove hi).pushHead (h.threaded.nodup.not_mem_erase) (h.ne_noIndex hi)

theorem Lru.touch_new (h : Lru s l) (hi : i ∉ l) (hin : i ≠ noIndex) (hn : s.next i = noIndex)
    (hp : s.prev i = noIndex) : Lru (lruTouch s i) (i :: l) := by
  have hih := h.ne_head hi hin
  have hmem : ∀ y ∈ l, y ≠ i ∧ y ≠ noIndex := fun y hy => ⟨fun he => hi (he ▸ hy), h.ne_noIndex hy⟩
  rw [lruTouch, if_neg (Ne.symm hih)]
  refine Lru.pushHead ⟨?_, ?_⟩ hi hin
  · have hhead : (lruRemove s i).lruHead = s.lruHead := by
      rw [lruHead_lruRemove, if_neg fun hc => hih hc.2.symm]
    rw [hhead]
    refine h.threaded.congr (fun y hy => ?_) fun y hy => ?_
    · rw [next_lruRemove s (hmem y hy).1 (hmem y hy).2, hp, if_neg (hmem y hy).2]
    · rw [prev_lruRemove s (hmem y hy).1 (hmem y hy).2, hn, if_neg (hmem y hy).2]
  · rw [lruTail_lruRemove, if_neg, h.tail]
    rintro ⟨-, ht⟩
    by_cases hl : l = []
    · subst hl
      exact hin (ht.symm.trans h.tail)
    · exact hi (ht ▸ h.tail ▸ Chains.getLastD_mem hl)

/-! ## The hash chains -/

/-- The chains together thread `l`, each entry in the chain of its key's bucket. -/
def Hashed (s : Table) (l : List Nat) : Prop :=
  ∀ b, ∃ c, Seg s.hashNext (s.hashTable b) c noIndex ∧ c.Nodup ∧ ∀ i, i ∈ c ↔ i ∈ l ∧ s.bucket i = b

structure SameButHash (s s' : Table) : Prop where
  entries : ∀ i, ∃ v, s'.entries i = { s.entries i with hashNext := v }
  lruHead : s'.lruHead = s.lruHead
  lruTail : s'.lruTail = s.lruTail
  cacheUsed : s'.cacheUsed = s.cacheUsed

theorem SameButHash.next (h : SameButHash s s') (i : Nat) : s'.next i = s.next i := by
  obtain ⟨v, hv⟩ := h.entries i
  rw [Table.next, hv]
  rfl

theorem SameButHash.prev (h : SameButHash s s') (i : Nat) : s'.prev i = s.prev i := by
  obtain ⟨v, hv⟩ := h.entries i
  rw [Table.prev, hv]
  rfl

theorem SameButHash.bucket (h : SameButHash s s') (i : Nat) : s'.bucket i = s.bucket i := by
  obtain ⟨v, hv⟩ := h.entries i
  rw [Table.bucket, hv]
  rfl

theorem SameButHash.lru (h : SameButHash s s') (hl : Lru s l) : Lru s' l := by
  refine ⟨?_, h.lruTail.trans hl.tail⟩
  rw [h.lruHead]
  exact hl.threaded.congr (fun y _ => h.next y) fun y _ => h.prev y

theorem Hashed.congr (h : Hashed s l) (hn : ∀ i ∈ l, s'.hashNext i = s.hashNext i) (ht : s'.hashTable = s.hashTable)
    (hb : ∀ i ∈ l, s'.bucket i = s.bucket i) : Hashed s' l := by
  intro b
  obtain ⟨c, hseg, hnd, hmem⟩ := h b
  refine ⟨c, ?_, hnd, fun i => ?_⟩
  · rw [ht]
    exact hseg.congr fun i hi => hn i ((hmem i).1 hi).1
  · rw [hmem]
    constructor
    · rintro ⟨hi, hbi⟩
      exact ⟨hi, (hb i hi).trans hbi⟩
    · rintro ⟨hi, hbi⟩
      exact ⟨hi, (hb i hi).symm.trans hbi⟩

theorem length_lt_fuel {c : List Nat} (hnd : c.Nodup) (hsub : ∀ i ∈ c, i ∈ l) (hlen : l.length ≤ maxCachedPages) :
    c.length < fuel :=
  Nat.lt_succ_of_le ((hnd.subperm hsub).length_le.trans hlen)

theorem Hashed.relink {c₁ c₂ : List Nat} (h : Hashed s l) (hnd : l.Nodup) (hno : noIndex ∉ l)
    (hseg : Seg s.hashNext (s.hashTable (s.bucket i)) (c₁ ++ i :: c₂) noIndex) (hcnd : (c₁ ++ i :: c₂).Nodup)
    (hmem : ∀ j, j ∈ c₁ ++ i :: c₂ ↔ j ∈ l ∧ s.bucket j = s.bucket i)
    (hn : ∀ j, j ≠ noIndex → s'.hashNext j = if j = c₁.getLastD noIndex then s.hashNext i else s.hashNext j)
    (ht : ∀ b, s'.hashTable b =
      if b = s.bucket i ∧ c₁.getLastD noIndex = noIndex then s.hashNext i else s.hashTable b)
    (hb : ∀ j, s'.bucket j = s.bucket j) : Hashed s' (l.erase i) := by
  have hnoc : noIndex ∉ c₁ ++ i :: c₂ := fun hm => hno ((hmem _).1 hm).1
  have hne : ∀ j ∈ l, j ≠ noIndex := fun j hj he => hno (he ▸ hj)
  intro b
  by_cases hbi : b = s.bucket i
  · subst hbi
    refine ⟨c₁ ++ c₂, ?_, ?_, fun j => ?_⟩
    · refine hseg.unlink hnoc hcnd (fun y hy => hn y fun he => ?_) ?_
      · exact hnoc (by rw [← he]; rcases List.mem_append.1 hy with hy | hy <;> simp [hy])
      · rw [ht]
        simp
    · rw [← Chains.erase_middle hcnd]
      exact hcnd.erase i
    · rw [← Chains.erase_middle hcnd, hcnd.mem_erase_iff, hmem, hnd.mem_erase_iff, hb, and_assoc]
  · obtain ⟨c, hc, hcnd', hcmem⟩ := h b
    refine ⟨c, ?_, hcnd', fun j => ?_⟩
    · rw [ht, if_neg fun hand => hbi hand.1]
      refine hc.congr fun j hj => ?_
      -- the node before `i` is in the chain of `i`
      have hjb := (hcmem j).1 hj
      rw [hn j (hne j hjb.1), if_neg]
      intro he
      have hc₁ : c₁ ≠ [] := by
        rintro rfl
        exact hne j hjb.1 he
      have hin := (hmem j).1 (List.mem_append_left _ (he ▸ Chains.getLastD_mem hc₁))
      exact hbi (hjb.2.symm.trans hin.2)
    · rw [hcmem, hnd.mem_erase_iff, hb]
      constructor
      · rintro ⟨hj, hjb⟩
        exact ⟨⟨fun he => hbi (he ▸ hjb.symm), hj⟩, hjb⟩
      · rintro ⟨⟨_, hj⟩, hjb⟩
        exact ⟨hj, hjb⟩

theorem Hashed.unhash (h : Hashed s l) (hi : i ∈ l) (hnd : l.Nodup) (hno : noIndex ∉ l)
    (hlen : l.length ≤ maxCachedPages) :
    ∃ s', PageCacheTable.unhash s i = some s' ∧ Hashed s' (l.erase i) ∧ SameButHash s s' := by
  obtain ⟨c, hseg, hcnd, hmem⟩ := h (s.bucket i)
  have hnoc : noIndex ∉ c := fun hm => hno ((hmem _).1 hm).1
  have hfuel := length_lt_fuel hcnd (fun j hj => ((hmem j).1 hj).1) hlen
  obtain ⟨c₁, c₂, rfl⟩ := List.append_of_mem ((hmem i).2 ⟨hi, rfl⟩)
  have hic : i ∉ c₁ := fun hm => (List.nodup_append.1 hcnd).2.2 i hm i List.mem_cons_self rfl
  have hpred : predecessor s.hashNext noIndex i fuel noIndex (s.hashTable (s.bucket i)) =
      some (some (c₁.getLastD noIndex)) := by
    refine Chains.predecessor_seg hseg hnoc hic (Nat.lt_of_le_of_lt ?_ hfuel)
    rw [List.length_append]
    exact Nat.le_add_right _ _
  unfold PageCacheTable.unhash
  rw [hpred]
  dsimp only [Option.bind_eq_bind, Option.bind_some, Option.pure_def]
  split
  · next hp =>
    refine ⟨_, rfl, h.relink hnd hno hseg hcnd hmem (fun j hj => ?_) (fun b => ?_) fun j => rfl, fun j => ⟨_, rfl⟩,
      rfl, rfl, rfl⟩
    · rw [hp, if_neg hj]
      rfl
    · simp only [Function.update_apply, hp, and_true]
  · next hp =>
    have hentry : ∀ j, (s.modify (c₁.getLastD noIndex) fun p => { p with hashNext := s.hashNext i }).entries j =
        { s.entries j with
          hashNext := if j = c₁.getLastD noIndex then s.hashNext i else (s.entries j).hashNext } := by
      intro j
      rw [Table.entries_modify]
      split
      · next he => rw [he]
      · rfl
    refine ⟨_, rfl, h.relink hnd hno hseg hcnd hmem (fun j _ => ?_) (fun b => ?_) fun j => ?_, fun j => ⟨_, hentry j⟩,
      rfl, rfl, rfl⟩
    · rw [Table.hashNext, hentry]
      rfl
    · rw [if_neg fun hand => hp hand.2]
      rfl
    · rw [Table.bucket, hentry]
      rfl

theorem Hashed.add (h : Hashed s l) (hi : i ∉ l) (hn : ∀ j ∈ l, s'.hashNext j = s.hashNext j)
    (hb : ∀ j ∈ l, s'.bucket j = s.bucket j) (hni : s'.hashNext i = s.hashTable (s'.bucket i))
    (ht : s'.hashTable = Function.update s.hashTable (s'.bucket i) i) : Hashed s' (i :: l) := by
  intro b
  obtain ⟨c, hseg, hnd, hmem⟩ := h b
  have hmem' : ∀ j, j ∈ c ↔ j ∈ l ∧ s'.bucket j = b := fun j => by
    rw [hmem]
    constructor
    · exact fun hj => ⟨hj.1, (hb j hj.1).trans hj.2⟩
    · exact fun hj => ⟨hj.1, (hb j hj.1).symm.trans hj.2⟩
  have hseg' : Seg s'.hashNext (s.hashTable b) c noIndex := hseg.congr fun j hj => hn j ((hmem j).1 hj).1
  by_cases hbi : b = s'.bucket i
  · subst hbi
    refine ⟨i :: c, ?_, List.nodup_cons.2 ⟨fun hc => hi ((hmem i).1 hc).1, hnd⟩, fun j => ?_⟩
    · rw [ht, Function.update_self]
      refine ⟨rfl, ?_⟩
      rwa [hni]
    · rw [List.mem_cons, List.mem_cons, hmem']
      constructor
      · rintro (rfl | hj)
        · exact ⟨.inl rfl, rfl⟩
        · exact ⟨.inr hj.1, hj.2⟩
      · rintro ⟨rfl | hj, hjb⟩
        · exact .inl rfl
        · exact .inr ⟨hj, hjb⟩
  · refine ⟨c, ?_, hnd, fun j => ?_⟩
    · rw [ht, Function.update_of_ne hbi]
      exact hseg'
    · rw [List.mem_cons, hmem']
      constructor
      · exact fun hj => ⟨.inr hj.1, hj.2⟩
      · rintro ⟨rfl | hj, hjb⟩
        · exact absurd hjb.symm hbi
        · exact ⟨hj, hjb⟩

/-! ## The invariant -/

/-- `l` are the entries in use, in LRU order; they are threaded by the LRU links and by the hash chains, and no two
have the same key. -/
structure Holds (s : Table) (l : List Nat) : Prop where
  lru : Lru s l
  hashed : Hashed s l
  mem : ∀ i, i ∈ l ↔ i < maxCachedPages ∧ (s.entries i).inUse = true
  keys : ∀ i ∈ l, ∀ j ∈ l, (s.entries i).inodeNum = (s.entries j).inodeNum →
    (s.entries i).pageIndex = (s.entries j).pageIndex → i = j
  used : s.cacheUsed ≤ l.length

theorem Holds.nodup (h : Holds s l) : l.Nodup := h.lru.threaded.nodup

theorem Holds.no_null (h : Holds s l) : noIndex ∉ l := h.lru.threaded.no_null

theorem Holds.length_le (h : Holds s l) : l.length ≤ maxCachedPages := by
  have hsub := h.nodup.subperm fun i hi => List.mem_range.2 ((h.mem i).1 hi).1
  have hlen := hsub.length_le
  rwa [List.length_range] at hlen

theorem Holds.init : Holds init [] :=
  ⟨⟨Threaded.nil _ _ _, rfl⟩, fun b => ⟨[], rfl, List.nodup_nil, fun i => by simp⟩,
    fun i => by simp [PageCacheTable.init], fun i hi => absurd hi List.not_mem_nil, Nat.le_refl 0⟩

theorem Holds.relinked {l' : List Nat} (h : Holds s l) (hs : SameButLru s s') (hl : Lru s' l') (hp : l'.Perm l) :
    Holds s' l' := by
  have hbucket : ∀ i, s'.bucket i = s.bucket i := fun i => by rw [Table.bucket, hs.inodeNum, hs.pageIndex]; rfl
  have hhash : Hashed s' l := h.hashed.congr (fun i _ => hs.hashNext i) hs.hashTable fun i _ => hbucket i
  refine ⟨hl, fun b => ?_, fun i => ?_, fun i hi j hj => ?_, ?_⟩
  · obtain ⟨c, hseg, hnd, hmem⟩ := hhash b
    exact ⟨c, hseg, hnd, fun i => by rw [hmem, hp.mem_iff]⟩
  · rw [hp.mem_iff, h.mem, hs.inUse]
  · rw [hs.inodeNum, hs.inodeNum, hs.pageIndex, hs.pageIndex]
    exact h.keys i (hp.mem_iff.1 hi) j (hp.mem_iff.1 hj)
  · rw [hs.cacheUsed, hp.length_eq]
    exact h.used

theorem Table.hasKey_iff {ino idx : Nat} : s.hasKey i ino idx = true ↔
    (s.entries i).inUse = true ∧ (s.entries i).inodeNum = ino ∧ (s.entries i).pageIndex = idx := by
  simp [Table.hasKey, and_assoc]

theorem Holds.findEntry (h : Holds s l) (ino idx : Nat) :
    (∃ i ∈ l, s.hasKey i ino idx = true ∧ findEntry s ino idx = some (some i)) ∨
      (∀ i ∈ l, s.hasKey i ino idx ≠ true) ∧ findEntry s ino idx = some none := by
  obtain ⟨c, hseg, hnd, hmem⟩ := h.hashed (cacheHash ino idx)
  have hfuel := length_lt_fuel hnd (fun j hj => ((hmem j).1 hj).1) h.length_le
  have hfind := Chains.search_seg (P := fun i => s.hasKey i ino idx) hseg
    (fun hm => h.no_null ((hmem _).1 hm).1) hfuel
  unfold PageCacheTable.findEntry
  rw [hfind]
  cases hc : c.find? fun i => s.hasKey i ino idx with
  | some i =>
    have hk := List.find?_some hc
    exact .inl ⟨i, ((hmem i).1 (List.mem_of_find?_eq_some hc)).1, hk, rfl⟩
  | none =>
    refine .inr ⟨fun i hi hk => ?_, rfl⟩
    obtain ⟨_, hino, hidx⟩ := Table.hasKey_iff.1 hk
    have hb : s.bucket i = cacheHash ino idx := by rw [Table.bucket, hino, hidx]
    exact List.find?_eq_none.1 hc i ((hmem i).2 ⟨hi, hb⟩) hk

theorem Holds.lookup (h : Holds s l) (ino idx : Nat) :
    (∃ i ∈ l, s.hasKey i ino idx = true ∧ lookup s ino idx = some (some (s.entries i).phys, lruTouch s i) ∧
        Holds (lruTouch s i) (i :: l.erase i)) ∨
      (∀ i ∈ l, s.hasKey i ino idx ≠ true) ∧ lookup s ino idx = some (none, s) := by
  unfold PageCacheTable.lookup
  rcases h.findEntry ino idx with ⟨i, hi, hk, hf⟩ | ⟨hnone, hf⟩
  · refine .inl ⟨i, hi, hk, by rw [hf]; rfl, ?_⟩
    exact h.relinked (lruTouch_same s i) (h.lru.touch hi) (List.perm_cons_erase hi).symm
  · exact .inr ⟨hnone, by rw [hf]; rfl⟩

def Table.content (s : Table) (i : Nat) : PageCache.Entry where
  inodeNum := (s.entries i).inodeNum
  pageIndex := (s.entries i).pageIndex
  frame := (s.entries i).phys / Pmm.pageSize
  dirty := (s.entries i).dirty

theorem SameButLru.content (h : SameButLru s s') (i : Nat) : s'.content i = s.content i := by
  simp only [Table.content, h.inodeNum, h.pageIndex, h.phys, h.dirty]

theorem SameButHash.content (h : SameButHash s s') (i : Nat) : s'.content i = s.content i := by
  obtain ⟨v, hv⟩ := h.entries i
  rw [Table.content, hv]
  rfl

theorem SameButHash.inUse (h : SameButHash s s') (i : Nat) : (s'.entries i).inUse = (s.entries i).inUse := by
  obtain ⟨v, hv⟩ := h.entries i
  rw [hv]

theorem key_of_content (h : s'.content i = s.content j) :
    (s'.entries i).inodeNum = (s.entries j).inodeNum ∧ (s'.entries i).pageIndex = (s.entries j).pageIndex :=
  ⟨congrArg PageCache.Entry.inodeNum h, congrArg PageCache.Entry.pageIndex h⟩

theorem entries_vacate (s : Table) (hj : j ≠ i) : (vacate s i).entries j = s.entries j := by
  rw [vacate]
  dsimp only
  rw [Table.entries_modify, if_neg hj]

theorem inUse_vacate (s : Table) (i : Nat) : ((vacate s i).entries i).inUse = false := by
  rw [vacate]
  dsimp only
  rw [Table.entries_modify, if_pos rfl]

theorem Holds.drop (h : Holds s l) (hi : i ∈ l) :
    ∃ s', drop s i = some s' ∧ Holds s' (l.erase i) ∧ ∀ j ∈ l.erase i, s'.content j = s.content j := by
  obtain ⟨t, ht, hhash, hsame⟩ := h.hashed.unhash hi h.nodup h.no_null h.length_le
  have hrem := lruRemove_same t i
  have hne : ∀ j ∈ l.erase i, j ≠ i := fun j hj => ((h.nodup.mem_erase_iff).1 hj).1
  have hlru := (hsame.lru h.lru).remove hi
  have hcontent : ∀ j ∈ l.erase i, (vacate (lruRemove t i) i).content j = s.content j := fun j hj => by
    rw [← hsame.content, ← hrem.content, Table.content, entries_vacate _ (hne j hj)]
    rfl
  have hkey := fun j hj => key_of_content (hcontent j hj)
  refine ⟨vacate (lruRemove t i) i, ?_, ⟨⟨?_, hlru.tail⟩, ?_, fun j => ?_, fun a ha b hb => ?_, ?_⟩, hcontent⟩
  · unfold PageCacheTable.drop
    rw [ht]
    rfl
  · refine hlru.threaded.congr (fun j hj => ?_) fun j hj => ?_
    · rw [Table.next, entries_vacate _ (hne j hj)]
      rfl
    · rw [Table.prev, entries_vacate _ (hne j hj)]
      rfl
  · refine hhash.congr (fun j hj => ?_) hrem.hashTable fun j hj => ?_
    · rw [← hrem.hashNext, Table.hashNext, entries_vacate _ (hne j hj)]
      rfl
    · rw [hsame.bucket, Table.bucket, (hkey j hj).1, (hkey j hj).2]
      rfl
  · rw [h.nodup.mem_erase_iff, h.mem]
    by_cases hj : j = i
    · simp [hj, inUse_vacate]
    · rw [entries_vacate _ hj, hrem.inUse, hsame.inUse]
      simp [hj]
  · intro hino hidx
    rw [(hkey a ha).1, (hkey b hb).1] at hino
    rw [(hkey a ha).2, (hkey b hb).2] at hidx
    exact h.keys a (List.mem_of_mem_erase ha) b (List.mem_of_mem_erase hb) hino hidx
  · have hlen := List.length_erase_of_mem hi
    have hused : (lruRemove t i).cacheUsed = s.cacheUsed := hrem.cacheUsed.trans hsame.cacheUsed
    have hle := h.used
    change (lruRemove t i).cacheUsed - 1 ≤ (l.erase i).length
    omega

section Place
variable {ino idx : Nat} {phys : PhysAddr}

theorem entries_fill (s : Table) (hj : j ≠ i) : (fill s i ino idx phys).entries j = s.entries j :=
  Function.update_of_ne hj _ _

theorem entries_fill_self (s : Table) (i ino idx : Nat) (phys : PhysAddr) : (fill s i ino idx phys).entries i =
    { inodeNum := ino, pageIndex := idx, phys, dirty := false, inUse := true, lruPrev := noIndex, lruNext := noIndex,
      hashNext := s.hashTable (cacheHash ino idx) } := Function.update_self _ _ _

theorem Holds.place (h : Holds s l) (hi : i ∉ l) (hlt : i < maxCachedPages) (phys : PhysAddr)
    (hkey : ∀ j ∈ l, s.hasKey j ino idx ≠ true) {used : Nat} (hused : used ≤ l.length + 1) :
    Holds (place { s with cacheUsed := used } i ino idx phys) (i :: l) ∧
      (∀ j ∈ l, (place { s with cacheUsed := used } i ino idx phys).content j = s.content j) ∧
      (place { s with cacheUsed := used } i ino idx phys).content i = ⟨ino, idx, phys / Pmm.pageSize, false⟩ := by
  have hin : i ≠ noIndex := fun he => absurd hlt (he ▸ by decide)
  have hne : ∀ j ∈ l, j ≠ i := fun j hj he => hi (he ▸ hj)
  unfold PageCacheTable.place
  generalize ht : fill { s with cacheUsed := used } i ino idx phys = t
  have hself := entries_fill_self { s with cacheUsed := used } i ino idx phys
  rw [ht] at hself
  have hother : ∀ j, j ≠ i → t.entries j = s.entries j := fun j hj => by rw [← ht, entries_fill _ hj]
  have hends : t.lruHead = s.lruHead ∧ t.lruTail = s.lruTail ∧ t.cacheUsed = used ∧
      t.hashTable = Function.update s.hashTable (cacheHash ino idx) i := by
    subst ht
    exact ⟨rfl, rfl, rfl, rfl⟩
  have hbucket : t.bucket i = cacheHash ino idx := by rw [Table.bucket, hself]
  have hsame := lruTouch_same t i
  have hcontent : ∀ j ∈ l, (lruTouch t i).content j = s.content j := fun j hj => by
    rw [hsame.content, Table.content, hother j (hne j hj)]
    rfl
  have hcontent_self : (lruTouch t i).content i = ⟨ino, idx, phys / Pmm.pageSize, false⟩ := by
    rw [hsame.content, Table.content, hself]
  have hlru : Lru t l := by
    refine ⟨?_, hends.2.1.trans h.lru.tail⟩
    rw [hends.1]
    refine h.lru.threaded.congr (fun j hj => ?_) fun j hj => ?_
    · rw [Table.next, hother j (hne j hj)]
      rfl
    · rw [Table.prev, hother j (hne j hj)]
      rfl
  have hhash : Hashed t (i :: l) := by
    refine h.hashed.add hi (fun j hj => ?_) (fun j hj => ?_) ?_ ?_
    · rw [Table.hashNext, hother j (hne j hj)]
      rfl
    · rw [Table.bucket, hother j (hne j hj)]
      rfl
    · rw [hbucket, Table.hashNext, hself]
    · rw [hbucket, hends.2.2.2]
  have htouch := hlru.touch_new hi hin (by rw [Table.next, hself]) (by rw [Table.prev, hself])
  -- the new key is not among the old ones
  have hfresh : ∀ j ∈ l, ¬ ((s.entries j).inodeNum = ino ∧ (s.entries j).pageIndex = idx) := fun j hj he =>
    hkey j hj (Table.hasKey_iff.2 ⟨((h.mem j).1 hj).2, he⟩)
  refine ⟨⟨htouch, ?_, fun j => ?_, fun a ha b hb hino hidx => ?_, ?_⟩, hcontent, hcontent_self⟩
  · refine hhash.congr (fun j _ => hsame.hashNext j) hsame.hashTable fun j _ => ?_
    rw [Table.bucket, hsame.inodeNum, hsame.pageIndex]
    rfl
  · rw [List.mem_cons, h.mem, hsame.inUse]
    by_cases hj : j = i
    · simp [hj, hself, hlt]
    · simp [hj, hother j hj]
  · rw [hsame.inodeNum, hsame.inodeNum] at hino
    rw [hsame.pageIndex, hsame.pageIndex] at hidx
    rcases List.mem_cons.1 ha with hai | ha' <;> rcases List.mem_cons.1 hb with hbi | hb'
    · rw [hai, hbi]
    · rw [hai, hself, hother b (hne b hb')] at hino hidx
      exact absurd ⟨hino.symm, hidx.symm⟩ (hfresh b hb')
    · rw [hbi, hself, hother a (hne a ha')] at hino hidx
      exact absurd ⟨hino, hidx⟩ (hfresh a ha')
    · rw [hother a (hne a ha'), hother b (hne b hb')] at hino hidx
      exact h.keys a ha' b hb' hino hidx
  · rw [hsame.cacheUsed, hends.2.2.1]
    exact hused

end Place

/-! ## The operations keep it -/

theorem Holds.evictEntry (h : Holds s l) (hi : i ∈ l) :
    ∃ freed s', evictEntry s i = some (freed, s') ∧
      freed = (if (s.entries i).phys ≠ 0 then [(s.entries i).phys] else []) ∧ Holds s' (l.erase i) ∧
      ∀ j ∈ l.erase i, s'.content j = s.content j := by
  obtain ⟨s', hs', hh, hc⟩ := h.drop hi
  refine ⟨_, s', ?_, rfl, hh, hc⟩
  unfold PageCacheTable.evictEntry
  dsimp only
  rw [((h.mem i).1 hi).2, hs']
  rfl

/-- The least recently used clean entry. -/
def Table.victim (s : Table) (l : List Nat) : Option Nat := l.reverse.find? fun i => !(s.entries i).dirty

theorem Holds.evictOne (h : Holds s l) :
    (∃ i ∈ l, ∃ s', s.victim l = some i ∧ evictOne s = some (some (s.entries i).phys, s') ∧ Holds s' (l.erase i) ∧
        ∀ j ∈ l.erase i, s'.content j = s.content j) ∨
      s.victim l = none ∧ evictOne s = some (none, s) := by
  have hseg : Seg s.prev s.lruTail l.reverse noIndex := by
    rw [h.lru.tail]
    exact h.lru.threaded.links.seg_reverse
  have hfind := Chains.search_seg (P := fun i => (s.entries i).inUse && !(s.entries i).dirty) hseg
    (fun hm => h.no_null (List.mem_reverse.1 hm))
    (show l.reverse.length < fuel by rw [List.length_reverse]; exact Nat.lt_succ_of_le h.length_le)
  have hvictim : l.reverse.find? (fun i => (s.entries i).inUse && !(s.entries i).dirty) = s.victim l :=
    List.find?_congr fun i hi => by rw [((h.mem i).1 (List.mem_reverse.1 hi)).2, Bool.true_and]
  unfold PageCacheTable.evictOne
  rw [hfind, hvictim]
  cases hc : s.victim l with
  | some i =>
    have hi := List.mem_reverse.1 (List.mem_of_find?_eq_some hc)
    obtain ⟨s', hs', hh, hc'⟩ := h.drop hi
    exact .inl ⟨i, hi, s', rfl, by simp [hs'], hh, hc'⟩
  | none => exact .inr ⟨rfl, rfl⟩

theorem freeSlot_some (hf : freeSlot s = some i) : i < maxCachedPages ∧ (s.entries i).inUse = false := by
  unfold freeSlot at hf
  have hu := List.find?_some hf
  exact ⟨List.mem_range.1 (List.mem_of_find?_eq_some hf), by simpa using hu⟩

theorem Holds.congr (h : Holds s l) (he : ∀ j, ∃ d, s'.entries j = { s.entries j with dirty := d })
    (ht : s'.hashTable = s.hashTable) (hh : s'.lruHead = s.lruHead) (hl : s'.lruTail = s.lruTail)
    (hu : s'.cacheUsed = s.cacheUsed) : Holds s' l := by
  have hkeep : ∀ j, s'.next j = s.next j ∧ s'.prev j = s.prev j ∧ s'.hashNext j = s.hashNext j ∧
      (s'.entries j).inUse = (s.entries j).inUse ∧ (s'.entries j).inodeNum = (s.entries j).inodeNum ∧
      (s'.entries j).pageIndex = (s.entries j).pageIndex := by
    intro j
    obtain ⟨d, hd⟩ := he j
    simp only [Table.next, Table.prev, Table.hashNext, hd, and_self]
  have hlru : Lru s' l := by
    refine ⟨?_, hl.trans h.lru.tail⟩
    rw [hh]
    exact h.lru.threaded.congr (fun j _ => (hkeep j).1) fun j _ => (hkeep j).2.1
  refine ⟨hlru, h.hashed.congr (fun j _ => (hkeep j).2.2.1) ht fun j _ => ?_, fun j => ?_, fun a ha b hb => ?_, ?_⟩
  · rw [Table.bucket, (hkeep j).2.2.2.2.1, (hkeep j).2.2.2.2.2]
    rfl
  · rw [h.mem, (hkeep j).2.2.2.1]
  · rw [(hkeep a).2.2.2.2.1, (hkeep b).2.2.2.2.1, (hkeep a).2.2.2.2.2, (hkeep b).2.2.2.2.2]
    exact h.keys a ha b hb
  · rw [hu]
    exact h.used

theorem Holds.trackSequential {ino idx : Nat} (h : Holds s l) (ht : trackSequential s ino idx = some s') :
    Holds s' l ∧ ∀ j, s'.content j = s.content j := by
  unfold PageCacheTable.trackSequential at ht
  obtain ⟨b, -, hs'⟩ := Option.bind_eq_some_iff.1 ht
  cases hs'
  exact ⟨h.congr (fun j => ⟨_, rfl⟩) rfl rfl rfl rfl, fun _ => rfl⟩

theorem Holds.absent_of_erase {ino idx : Nat} (h : Holds s l) (hnone : ∀ j ∈ l, s.hasKey j ino idx ≠ true)
    (hc : ∀ j ∈ l.erase i, s'.content j = s.content j) : ∀ j ∈ l.erase i, s'.hasKey j ino idx ≠ true := by
  intro j hj hk
  obtain ⟨_, hino, hidx⟩ := Table.hasKey_iff.1 hk
  have hjl := List.mem_of_mem_erase hj
  obtain ⟨h1, h2⟩ := key_of_content (hc j hj)
  exact hnone j hjl (Table.hasKey_iff.2 ⟨((h.mem j).1 hjl).2, h1.symm.trans hino, h2.symm.trans hidx⟩)

/-- What `insert` can do: touch the entry that is there, fill a free slot, or fill the slot of the least recently used
entry of a full table. -/
inductive Inserts (s s' : Table) (l : List Nat) (ino idx : Nat) (phys : PhysAddr) (out : Inserted) : Prop
  | present (i : Nat) (hi : i ∈ l) (hk : s.hasKey i ino idx = true) (hout : out = .present) (hs : s' = lruTouch s i)
      (hh : Holds s' (i :: l.erase i))
  | added (i : Nat) (habsent : ∀ j ∈ l, s.hasKey j ino idx ≠ true) (hroom : l.length < maxCachedPages)
      (hout : out = .added []) (hh : Holds s' (i :: l)) (hc : ∀ j ∈ l, s'.content j = s.content j)
      (hi : s'.content i = ⟨ino, idx, phys / Pmm.pageSize, false⟩)
  | replaced (i : Nat) (habsent : ∀ j ∈ l, s.hasKey j ino idx ≠ true) (hfull : l.length = maxCachedPages)
      (hlast : l.getLast? = some i)
      (hout : out = .added (if (s.entries i).phys ≠ 0 then [(s.entries i).phys] else []))
      (hh : Holds s' (i :: l.erase i)) (hc : ∀ j ∈ l.erase i, s'.content j = s.content j)
      (hi : s'.content i = ⟨ino, idx, phys / Pmm.pageSize, false⟩)

theorem Holds.full (h : Holds s l) (hf : (if s.cacheUsed < maxCachedPages then freeSlot s else none) = none) :
    l.length = maxCachedPages := by
  refine Nat.le_antisymm h.length_le ?_
  split at hf
  · have hall : ∀ i ∈ List.range maxCachedPages, i ∈ l := fun i hi => by
      have hu := List.find?_eq_none.1 hf i hi
      exact (h.mem i).2 ⟨List.mem_range.1 hi, by simpa using hu⟩
    have hlen := (List.nodup_range.subperm hall).length_le
    rwa [List.length_range] at hlen
  · have := h.used
    omega

theorem Holds.insert {ino idx : Nat} {phys : PhysAddr} {out : Inserted} (h : Holds s l)
    (hins : insert s ino idx phys = some (out, s')) : Inserts s s' l ino idx phys out := by
  unfold PageCacheTable.insert at hins
  rcases h.lookup ino idx with ⟨i, hi, hk, hlook, hh⟩ | ⟨hnone, hlook⟩
  · rw [hlook] at hins
    cases hins
    exact .present i hi hk rfl rfl hh
  rw [hlook] at hins
  dsimp only [Option.bind_eq_bind, Option.bind_some, Option.isSome_none] at hins
  rw [if_neg (by decide)] at hins
  split at hins
  · next slot hslot =>
    obtain ⟨hlt, hfree⟩ := freeSlot_some (s := s) (i := slot) (by
      split at hslot
      · exact hslot
      · cases hslot)
    have hni : slot ∉ l := fun hi => by
      have := ((h.mem slot).1 hi).2
      rw [hfree] at this
      cases this
    obtain ⟨t, ht, hins⟩ := Option.bind_eq_some_iff.1 hins
    cases hins
    obtain ⟨hp, hc, hself⟩ := h.place hni hlt phys hnone (Nat.succ_le_succ h.used)
    obtain ⟨hh, hsame⟩ := hp.trackSequential ht
    exact .added slot hnone hh.length_le rfl hh (fun j hj => (hsame j).trans (hc j hj)) ((hsame slot).trans hself)
  · next hslot =>
    have hfull := h.full hslot
    have hl : l ≠ [] := by
      rintro rfl
      exact absurd hfull (by decide)
    have hmem : s.lruTail ∈ l := h.lru.tail ▸ Chains.getLastD_mem hl
    rw [if_neg (h.lru.ne_noIndex hmem)] at hins
    have hlast : l.getLast? = some s.lruTail := by
      rw [h.lru.tail, List.getLastD_eq_getLast?, List.getLast?_eq_some_getLast hl]
      rfl
    have hlt := ((h.mem _).1 hmem).1
    obtain ⟨freed, t, het, hfreed, hh, hc⟩ := h.evictEntry hmem
    rw [het] at hins
    dsimp only [Option.bind_some] at hins
    obtain ⟨u, hu, hins⟩ := Option.bind_eq_some_iff.1 hins
    cases hins
    obtain ⟨hp, hc', hself⟩ := hh.place h.nodup.not_mem_erase hlt phys (h.absent_of_erase hnone hc)
      (Nat.le_succ_of_le hh.used)
    obtain ⟨hh', hsame⟩ := hp.trackSequential hu
    exact .replaced s.lruTail hnone hfull hlast (by rw [hfreed]) hh'
      (fun j hj => ((hsame j).trans (hc' j hj)).trans (hc j hj)) ((hsame _).trans hself)

theorem Holds.markDirty (h : Holds s l) (ino idx : Nat) : ∃ s', markDirty s ino idx = some s' ∧ Holds s' l := by
  unfold PageCacheTable.markDirty
  rcases h.findEntry ino idx with ⟨i, -, -, hf⟩ | ⟨-, hf⟩
  · rw [hf]
    refine ⟨_, rfl, h.congr (fun j => ?_) rfl rfl rfl rfl⟩
    rw [Table.entries_modify]
    split
    · next he => exact ⟨true, by rw [he]⟩
    · exact ⟨_, rfl⟩
  · rw [hf]
    exact ⟨s, rfl, h⟩

theorem Holds.invalidatePage (h : Holds s l) (ino idx : Nat) :
    (∃ i ∈ l, s.hasKey i ino idx = true ∧ ∃ freed s', invalidatePage s ino idx = some (freed, s') ∧
        freed = (if (s.entries i).phys ≠ 0 then [(s.entries i).phys] else []) ∧ Holds s' (l.erase i) ∧
        ∀ j ∈ l.erase i, s'.content j = s.content j) ∨
      (∀ i ∈ l, s.hasKey i ino idx ≠ true) ∧ invalidatePage s ino idx = some ([], s) := by
  unfold PageCacheTable.invalidatePage
  rcases h.findEntry ino idx with ⟨i, hi, hk, hf⟩ | ⟨hnone, hf⟩
  · rw [hf]
    exact .inl ⟨i, hi, hk, h.evictEntry hi⟩
  · rw [hf]
    exact .inr ⟨hnone, rfl⟩

theorem Holds.invalidateEntries {ino : Nat} {is : List Nat} (h : Holds s l) (his : ∀ i ∈ is, i < maxCachedPages) :
    ∃ freed s', invalidateEntries ino is s = some (freed, s') ∧ ∃ l', Holds s' l' := by
  induction is generalizing s l with
  | nil => exact ⟨[], s, rfl, l, h⟩
  | cons i rest ih =>
    have hrest : ∀ j ∈ rest, j < maxCachedPages := fun j hj => his j (List.mem_cons_of_mem i hj)
    rw [PageCacheTable.invalidateEntries]
    split
    · next hu =>
      rw [Bool.and_eq_true] at hu
      obtain ⟨freed, t, ht, -, hh, -⟩ := h.evictEntry ((h.mem i).2 ⟨his i List.mem_cons_self, hu.1⟩)
      obtain ⟨more, u, hu, hh'⟩ := ih hh hrest
      exact ⟨freed ++ more, u, by rw [ht]; dsimp only [Option.bind_eq_bind, Option.bind_some]; rw [hu]; rfl, hh'⟩
    · obtain ⟨more, u, hu, hh'⟩ := ih h hrest
      exact ⟨[] ++ more, u, by dsimp only [Option.bind_eq_bind, Option.bind_some]; rw [hu]; rfl, hh'⟩

theorem Holds.invalidateInode (h : Holds s l) (ino : Nat) :
    ∃ freed s', invalidateInode s ino = some (freed, s') ∧ ∃ l', Holds s' l' :=
  h.invalidateEntries fun _ hi => List.mem_range.1 hi

/-! ## Runs -/

inductive Op
  | lookup (inodeNum pageIndex : Nat)
  | insert (inodeNum pageIndex : Nat) (phys : PhysAddr)
  | markDirty (inodeNum pageIndex : Nat)
  | evictOne
  | invalidatePage (inodeNum pageIndex : Nat)
  | invalidateInode (inodeNum : Nat)

def exec (s : Table) : Op → Option Table
  | .lookup ino idx => (lookup s ino idx).map Prod.snd
  | .insert ino idx phys => (insert s ino idx phys).map Prod.snd
  | .markDirty ino idx => markDirty s ino idx
  | .evictOne => (evictOne s).map Prod.snd
  | .invalidatePage ino idx => (invalidatePage s ino idx).map Prod.snd
  | .invalidateInode ino => (invalidateInode s ino).map Prod.snd

theorem exec_holds {op : Op} (h : Holds s l) (he : exec s op = some s') : ∃ l', Holds s' l' := by
  cases op with
  | lookup ino idx =>
    obtain ⟨⟨r, t⟩, hr, rfl⟩ := Option.map_eq_some_iff.1 he
    rcases h.lookup ino idx with ⟨i, _, _, hl, hh⟩ | ⟨_, hl⟩
    · cases hr.symm.trans hl
      exact ⟨_, hh⟩
    · cases hr.symm.trans hl
      exact ⟨l, h⟩
  | insert ino idx phys =>
    obtain ⟨⟨out, t⟩, hr, rfl⟩ := Option.map_eq_some_iff.1 he
    cases h.insert hr with
    | present i _ _ _ _ hh => exact ⟨_, hh⟩
    | added i _ _ _ hh => exact ⟨_, hh⟩
    | replaced i _ _ _ _ hh => exact ⟨_, hh⟩
  | markDirty ino idx =>
    obtain ⟨t, ht, hh⟩ := h.markDirty ino idx
    cases he.symm.trans ht
    exact ⟨l, hh⟩
  | evictOne =>
    obtain ⟨⟨r, t⟩, hr, rfl⟩ := Option.map_eq_some_iff.1 he
    rcases h.evictOne with ⟨i, _, u, _, hu, hh, _⟩ | ⟨_, hu⟩
    · cases hr.symm.trans hu
      exact ⟨_, hh⟩
    · cases hr.symm.trans hu
      exact ⟨l, h⟩
  | invalidatePage ino idx =>
    obtain ⟨⟨r, t⟩, hr, rfl⟩ := Option.map_eq_some_iff.1 he
    rcases h.invalidatePage ino idx with ⟨i, _, _, freed, u, hu, _, hh, _⟩ | ⟨_, hu⟩
    · cases hr.symm.trans hu
      exact ⟨_, hh⟩
    · cases hr.symm.trans hu
      exact ⟨l, h⟩
  | invalidateInode ino =>
    obtain ⟨freed, u, hu, hh⟩ := h.invalidateInode ino
    rw [exec, hu] at he
    cases he
    exact hh

/-- A sequence of calls. -/
def runOps (s : Table) (ops : List Op) : Option Table := ops.foldlM exec s

theorem runOps_holds {ops : List Op} (h : Holds s l) (hr : runOps s ops = some s') : ∃ l', Holds s' l' := by
  induction ops generalizing s l with
  | nil =>
    cases hr
    exact ⟨l, h⟩
  | cons op rest ih =>
    rw [runOps, List.foldlM_cons] at hr
    obtain ⟨t, ht, hr⟩ := Option.bind_eq_some_iff.1 hr
    obtain ⟨l', h'⟩ := exec_holds h ht
    exact ih h' hr

/-- Entry `i` is one of the table and in use. -/
def Table.InUse (s : Table) (i : Nat) : Prop := i < maxCachedPages ∧ (s.entries i).inUse = true

structure Structured (s : Table) : Prop where
  /-- the LRU list has every entry in use exactly once, and no other -/
  lru : ∃ l, Threaded s.next s.prev noIndex s.lruHead l ∧ s.lruTail = l.getLastD noIndex ∧ ∀ i, i ∈ l ↔ s.InUse i
  /-- so have the hash chains together: an entry is in the chain of its key's bucket -/
  chains : ∀ b, ∃ c, Seg s.hashNext (s.hashTable b) c noIndex ∧ c.Nodup ∧ ∀ i, i ∈ c ↔ s.InUse i ∧ s.bucket i = b
  keys : ∀ i j, s.InUse i → s.InUse j → (s.entries i).inodeNum = (s.entries j).inodeNum →
    (s.entries i).pageIndex = (s.entries j).pageIndex → i = j
  /-- `lookup` returns a page exactly when it is the page of an entry in use with the key -/
  lookup : ∀ ino idx, ∃ ret s', lookup s ino idx = some (ret, s') ∧ ∀ phys, ret = some phys ↔
    ∃ i, s.InUse i ∧ (s.entries i).inodeNum = ino ∧ (s.entries i).pageIndex = idx ∧ (s.entries i).phys = phys

theorem Holds.structured (h : Holds s l) : Structured s := by
  have hmem : ∀ i, i ∈ l ↔ s.InUse i := h.mem
  refine ⟨⟨l, h.lru.threaded, h.lru.tail, hmem⟩, fun b => ?_, fun i j hi hj => ?_, fun ino idx => ?_⟩
  · obtain ⟨c, hseg, hnd, hc⟩ := h.hashed b
    exact ⟨c, hseg, hnd, fun i => by rw [hc, hmem]⟩
  · exact h.keys i ((hmem i).2 hi) j ((hmem j).2 hj)
  · rcases h.lookup ino idx with ⟨i, hi, hk, hl, -⟩ | ⟨hnone, hl⟩
    · obtain ⟨_, hino, hidx⟩ := Table.hasKey_iff.1 hk
      refine ⟨_, _, hl, fun phys => ⟨fun he => ?_, ?_⟩⟩
      · exact ⟨i, (hmem i).1 hi, hino, hidx, Option.some.inj he⟩
      · rintro ⟨j, hj, hjo, hjx, rfl⟩
        have hij := h.keys i hi j ((hmem j).2 hj) (hino.trans hjo.symm) (hidx.trans hjx.symm)
        rw [hij]
    · refine ⟨_, _, hl, fun phys => ⟨nofun, ?_⟩⟩
      rintro ⟨j, hj, hjo, hjx, -⟩
      exact absurd (Table.hasKey_iff.2 ⟨hj.2, hjo, hjx⟩) (hnone j ((hmem j).2 hj))

/-- **The page cache's structure.** After every sequence of calls the LRU list and the hash chains each hold every
entry in use exactly once and no other, no two entries in use have the same key, and `lookup` finds what is there. -/
theorem page_cache_structure {ops : List Op} (hr : runOps init ops = some s) : Structured s := by
  obtain ⟨l, h⟩ := runOps_holds Holds.init hr
  exact h.structured

/-- Two keys of one bucket, one of another, and an eviction. -/
theorem page_cache_structure_collision :
    ∃ s, runOps init [.insert 1 0 0x200000, .insert 1 2048 0x201000, .insert 2 5 0x202000, .lookup 1 0, .evictOne] =
      some s ∧ Structured s := by
  have hsome : (runOps init [.insert 1 0 0x200000, .insert 1 2048 0x201000, .insert 2 5 0x202000, .lookup 1 0,
      .evictOne]).isSome = true := by decide +kernel
  obtain ⟨s, hs⟩ := Option.isSome_iff_exists.1 hsome
  exact ⟨s, hs, page_cache_structure hs⟩

end Zigix.PageCacheTable
