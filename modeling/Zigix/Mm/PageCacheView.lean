import Zigix.Mm.PageCacheLists

/-!
# The tables are the page cache

`view s l` reads the list of cached pages off the tables, in LRU order. The calls do to it what the operations of
`PageCache` do to the list.

* `lookup_view`, `insert_view`, …, `invalidateEntries_view` : one lemma for each call;
* `tables_are_page_cache` : every sequence of calls.
-/

namespace Zigix.PageCacheTable

open PageCache (maxCachedPages Cache Entry)
open Pmm (PhysAddr pageSize)
open Chains (Threaded)

variable {s s' : Table} {l l' : List Nat} {i : Nat}

/-- The cached pages, most recently used first. -/
def view (s : Table) (l : List Nat) : Cache := l.map s.content

theorem view_congr (h : ∀ j ∈ l, s'.content j = s.content j) : view s' l = view s l := List.map_congr_left h

theorem Holds.hasKey_content (h : Holds s l) {ino idx : Nat} (hi : i ∈ l) :
    Entry.hasKey ino idx (s.content i) = s.hasKey i ino idx := by
  rw [Table.hasKey, ((h.mem i).1 hi).2, Bool.true_and]
  rfl

/-- The only entry of the list with its key. -/
theorem Holds.hasKey_unique (h : Holds s l) {ino idx : Nat} (hi : i ∈ l) (hk : s.hasKey i ino idx = true) :
    ∀ j ∈ l, (Entry.hasKey ino idx ∘ s.content) j = true → j = i := by
  intro j hj hkj
  rw [Function.comp, h.hasKey_content hj] at hkj
  obtain ⟨_, h1, h2⟩ := Table.hasKey_iff.1 hkj
  obtain ⟨_, h3, h4⟩ := Table.hasKey_iff.1 hk
  exact h.keys j hj i hi (h1.trans h3.symm) (h2.trans h4.symm)

/-- Searching for the only element with a property. -/
theorem find?_of_unique {P : Nat → Bool} (hi : i ∈ l) (hP : P i = true) (hu : ∀ j ∈ l, P j = true → j = i) :
    l.find? P = some i := by
  cases hf : l.find? P with
  | some j => rw [hu j (List.mem_of_find?_eq_some hf) (List.find?_some hf)]
  | none => exact absurd hP (List.find?_eq_none.1 hf i hi)

theorem eraseP_of_find? {P : Nat → Bool} (hf : l.find? P = some i) : l.eraseP P = l.erase i := by
  induction l with
  | nil => rfl
  | cons a l ih =>
    rw [List.find?_cons] at hf
    cases ha : P a with
    | true =>
      rw [ha] at hf
      rw [List.eraseP_cons_of_pos ha, Option.some.inj hf, List.erase_cons_head]
    | false =>
      rw [ha] at hf
      have hne : a ≠ i := fun he => by
        have hi := List.find?_some hf
        rw [← he, ha] at hi
        cases hi
      rw [List.eraseP_cons_of_neg (by simp [ha]), List.erase_cons_tail (by simpa using hne), ih hf]

theorem Holds.find?_key (h : Holds s l) {ino idx : Nat} (hi : i ∈ l) (hk : s.hasKey i ino idx = true) :
    l.find? (Entry.hasKey ino idx ∘ s.content) = some i :=
  find?_of_unique hi ((h.hasKey_content hi).trans hk) (h.hasKey_unique hi hk)

theorem Holds.find?_view (h : Holds s l) {ino idx : Nat} (hi : i ∈ l) (hk : s.hasKey i ino idx = true) :
    (view s l).find? (Entry.hasKey ino idx) = some (s.content i) := by
  rw [view, List.find?_map, h.find?_key hi hk]
  rfl

theorem Holds.find?_view_none (h : Holds s l) {ino idx : Nat} (hnone : ∀ i ∈ l, s.hasKey i ino idx ≠ true) :
    (view s l).find? (Entry.hasKey ino idx) = none := by
  refine List.find?_eq_none.2 fun e he => ?_
  obtain ⟨i, hi, rfl⟩ := List.mem_map.1 he
  rw [h.hasKey_content hi]
  exact hnone i hi

theorem Holds.eraseP_view (h : Holds s l) {ino idx : Nat} (hi : i ∈ l) (hk : s.hasKey i ino idx = true) :
    (view s l).eraseP (Entry.hasKey ino idx) = view s (l.erase i) := by
  rw [view, List.eraseP_map, eraseP_of_find? (h.find?_key hi hk)]
  rfl

/-! ## The operations -/

theorem Holds.lookup_view_hit (h : Holds s l) {ino idx : Nat} (hi : i ∈ l) (hk : s.hasKey i ino idx = true) :
    PageCache.lookup (view s l) ino idx =
      (some ((s.entries i).phys / pageSize), view (lruTouch s i) (i :: l.erase i)) := by
  have hview : view (lruTouch s i) (i :: l.erase i) = s.content i :: view s (l.erase i) :=
    view_congr fun j _ => (lruTouch_same s i).content j
  rw [PageCache.lookup, h.find?_view hi hk, h.eraseP_view hi hk, hview]
  rfl

theorem Holds.lookup_view_miss (h : Holds s l) {ino idx : Nat} (hnone : ∀ i ∈ l, s.hasKey i ino idx ≠ true) :
    PageCache.lookup (view s l) ino idx = (none, view s l) := by
  rw [PageCache.lookup, h.find?_view_none hnone]

theorem lookup_view (h : Holds s l) (ino idx : Nat) : ∃ ret s' l', lookup s ino idx = some (ret, s') ∧ Holds s' l' ∧
    PageCache.lookup (view s l) ino idx = (ret.map (· / pageSize), view s' l') := by
  rcases h.lookup ino idx with ⟨i, hi, hk, hl, hh⟩ | ⟨hnone, hl⟩
  · exact ⟨_, _, _, hl, hh, h.lookup_view_hit hi hk⟩
  · exact ⟨none, s, l, hl, h, h.lookup_view_miss hnone⟩

/-- The last entry of the list. -/
theorem view_last (hnd : l.Nodup) (hlast : l.getLast? = some i) :
    (view s l).getLast? = some (s.content i) ∧ (view s l).dropLast = view s (l.erase i) := by
  obtain ⟨l₁, rfl⟩ := List.getLast?_eq_some_iff.1 hlast
  have herase : (l₁ ++ [i]).erase i = l₁ := by rw [Chains.erase_middle hnd, List.append_nil]
  rw [herase, view, view, List.map_append]
  exact ⟨by simp, by simp⟩

/-- The pages that making room frees: page `0` stands for no page. -/
theorem insert_view {ino idx : Nat} {phys : PhysAddr} {out : Inserted} (h : Holds s l)
    (hins : insert s ino idx phys = some (out, s')) :
    ∃ l', Holds s' l' ∧
      match PageCache.insert (view s l) ino idx (phys / pageSize) with
      | .present c => out = .present ∧ c = view s' l'
      | .added c => out = .added [] ∧ c = view s' l'
      | .replaced victim c => c = view s' l' ∧ ∃ p, victim.frame = p / pageSize ∧
          out = .added (if p ≠ 0 then [p] else []) := by
  cases h.insert hins with
  | present i hi hk hout hs hh =>
    refine ⟨_, hh, ?_⟩
    rw [PageCache.insert, h.lookup_view_hit hi hk, hs]
    exact ⟨hout, rfl⟩
  | added i habsent hroom hout hh hc hi =>
    refine ⟨_, hh, ?_⟩
    have hlen : (view s l).length < maxCachedPages := by rwa [view, List.length_map]
    have hview : view s' (i :: l) = s'.content i :: view s' l := rfl
    rw [PageCache.insert, h.lookup_view_miss habsent]
    dsimp only
    rw [if_pos hlen, hview, hi, view_congr hc]
    exact ⟨hout, rfl⟩
  | replaced i habsent hfull hlast hout hh hc hi =>
    refine ⟨_, hh, ?_⟩
    have hlen : ¬ (view s l).length < maxCachedPages := by rw [view, List.length_map]; omega
    have hview : view s' (i :: l.erase i) = s'.content i :: view s' (l.erase i) := rfl
    obtain ⟨hget, hdrop⟩ := view_last (s := s) h.nodup hlast
    rw [PageCache.insert, h.lookup_view_miss habsent]
    dsimp only
    rw [if_neg hlen, hget, hdrop, hview, hi, view_congr hc]
    exact ⟨rfl, _, rfl, hout⟩

theorem invalidatePage_view (h : Holds s l) (ino idx : Nat) :
    ∃ freed s' l', invalidatePage s ino idx = some (freed, s') ∧ Holds s' l' ∧
      (PageCache.invalidatePage (view s l) ino idx).2 = view s' l' ∧
      match (PageCache.invalidatePage (view s l) ino idx).1 with
      | some victim => ∃ p, victim.frame = p / pageSize ∧ freed = if p ≠ 0 then [p] else []
      | none => freed = [] := by
  unfold PageCache.invalidatePage
  rcases h.invalidatePage ino idx with ⟨i, hi, hk, freed, t, ht, hf, hh, hc⟩ | ⟨hnone, ht⟩
  · refine ⟨freed, t, _, ht, hh, ?_, ?_⟩
    · rw [h.eraseP_view hi hk, view_congr hc]
    · dsimp only
      rw [h.find?_view hi hk]
      exact ⟨_, rfl, hf⟩
  · have hnf := h.find?_view_none hnone
    refine ⟨[], s, l, ht, h, ?_, ?_⟩
    · exact List.eraseP_of_forall_not fun e he => List.find?_eq_none.1 hnf e he
    · dsimp only
      rw [hnf]

/-- The first element with a property from the end, taken out. -/
theorem reverse_eraseP_reverse {P : Nat → Bool} (hnd : l.Nodup) (hf : l.reverse.find? P = some i) :
    (l.reverse.eraseP P).reverse = l.erase i := by
  obtain ⟨l₁, l₂, rfl⟩ := List.append_of_mem (List.mem_reverse.1 (List.mem_of_find?_eq_some hf))
  have hrev : (l₁ ++ i :: l₂).reverse = l₂.reverse ++ i :: l₁.reverse := by simp
  have hnd' := List.nodup_reverse.2 hnd
  rw [hrev] at hnd'
  rw [eraseP_of_find? hf, hrev, Chains.erase_middle hnd, Chains.erase_middle hnd', List.reverse_append,
    List.reverse_reverse, List.reverse_reverse]

theorem evictOne_view (h : Holds s l) :
    ∃ ret s' l', evictOne s = some (ret, s') ∧ Holds s' l' ∧
      PageCache.evictOne (view s l) = ret.map fun phys => (phys / pageSize, view s' l') := by
  have hfind : (view s l).reverse.find? (fun e => !e.dirty) = (s.victim l).map s.content := by
    rw [view, ← List.map_reverse, List.find?_map]
    rfl
  unfold PageCache.evictOne
  rw [hfind]
  rcases h.evictOne with ⟨i, hi, t, hv, ht, hh, hc⟩ | ⟨hv, ht⟩
  · refine ⟨_, t, _, ht, hh, ?_⟩
    have herase : ((view s l).reverse.eraseP fun e => !e.dirty).reverse = view s (l.erase i) := by
      rw [view, ← List.map_reverse, List.eraseP_map, ← List.map_reverse]
      exact congrArg _ (reverse_eraseP_reverse h.nodup hv)
    rw [hv, view_congr hc, herase]
    rfl
  · refine ⟨none, s, l, ht, h, ?_⟩
    rw [hv]
    rfl

theorem markDirty_view (h : Holds s l) (ino idx : Nat) : ∃ s', markDirty s ino idx = some s' ∧ Holds s' l ∧
    view s' l = (view s l).map fun e => if e.hasKey ino idx then { e with dirty := true } else e := by
  obtain ⟨s', hs', hh⟩ := h.markDirty ino idx
  refine ⟨s', hs', hh, ?_⟩
  rw [view, view, List.map_map]
  apply List.map_congr_left
  intro j hj
  rw [Function.comp, h.hasKey_content hj]
  unfold markDirty at hs'
  rcases h.findEntry ino idx with ⟨i, hi, hk, hf⟩ | ⟨hnone, hf⟩
  · rw [hf] at hs'
    obtain rfl := Option.some.inj hs'
    by_cases hji : j = i
    · subst hji
      simp [hk, Table.content]
    · have hne : s.hasKey j ino idx ≠ true := fun hkj =>
        hji (h.hasKey_unique hi hk j hj ((h.hasKey_content hj).trans hkj))
      simp [hne, hji, Table.content]
  · rw [hf] at hs'
    obtain rfl := Option.some.inj hs'
    rw [if_neg (hnone j hj)]

/-- The loop takes out the entries of the inode that it has come to. -/
theorem invalidateEntries_view {is : List Nat} (h : Holds s l) (ino : Nat) (his : ∀ i ∈ is, i < maxCachedPages) :
    ∃ freed s', invalidateEntries ino is s = some (freed, s') ∧
      Holds s' (l.filter fun j => ¬ (j ∈ is ∧ (s.entries j).inodeNum = ino)) ∧
      ∀ j ∈ l, ¬ (j ∈ is ∧ (s.entries j).inodeNum = ino) → s'.content j = s.content j := by
  induction is generalizing s l with
  | nil => exact ⟨[], s, rfl, by simpa using h, fun _ _ _ => rfl⟩
  | cons i rest ih =>
    have hrest : ∀ j ∈ rest, j < maxCachedPages := fun j hj => his j (List.mem_cons_of_mem i hj)
    rw [PageCacheTable.invalidateEntries]
    split
    · next hu =>
      rw [Bool.and_eq_true, beq_iff_eq] at hu
      obtain ⟨freed, t, ht, -, hh, hc⟩ := h.evictEntry ((h.mem i).2 ⟨his i List.mem_cons_self, hu.1⟩)
      obtain ⟨more, u, hmore, hh', hc'⟩ := ih hh hrest
      have hkept : ∀ j ∈ l, j ≠ i → t.content j = s.content j := fun j hj hji => hc j ((List.mem_erase_of_ne hji).2 hj)
      have hino : ∀ j ∈ l, j ≠ i → (t.entries j).inodeNum = (s.entries j).inodeNum := fun j hj hji =>
        congrArg Entry.inodeNum (hkept j hj hji)
      refine ⟨freed ++ more, u, by simp [ht, hmore], ?_, fun j hj hnot => ?_⟩
      · rw [h.nodup.erase_eq_filter, List.filter_filter] at hh'
        rwa [List.filter_congr fun j hj => ?_] at hh'
        by_cases hji : j = i
        · simp [hji, hu.2]
        · simp [hji, hino j hj hji]
      · have hji : j ≠ i := fun he => hnot ⟨he ▸ List.mem_cons_self, he ▸ hu.2⟩
        rw [hc' j ((List.mem_erase_of_ne hji).2 hj) ?_, hkept j hj hji]
        rw [hino j hj hji]
        exact fun hin => hnot ⟨List.mem_cons_of_mem i hin.1, hin.2⟩
    · next hu =>
      obtain ⟨more, u, hmore, hh', hc'⟩ := ih h hrest
      have hother : ∀ j ∈ l, (s.entries j).inodeNum = ino → j ≠ i := by
        rintro j hj hjo rfl
        exact hu (by simp [((h.mem j).1 hj).2, hjo])
      refine ⟨[] ++ more, u, by simp [hmore], ?_, fun j hj hnot => ?_⟩
      · rwa [List.filter_congr fun j hj => ?_] at hh'
        have := hother j hj
        grind
      · exact hc' j hj fun hin => hnot ⟨List.mem_cons_of_mem i hin.1, hin.2⟩

/-! ## Runs -/

/-- What a call does to the list. -/
def apply (c : Cache) : Op → Cache
  | .lookup ino idx => (PageCache.lookup c ino idx).2
  | .insert ino idx phys =>
    match PageCache.insert c ino idx (phys / pageSize) with
    | .present c => c
    | .added c => c
    | .replaced _ c => c
  | .markDirty ino idx => c.map fun e => if e.hasKey ino idx then { e with dirty := true } else e
  | .evictOne => ((PageCache.evictOne c).map Prod.snd).getD c
  | .invalidatePage ino idx => (PageCache.invalidatePage c ino idx).2
  | .invalidateInode ino => c.filter fun e => e.inodeNum ≠ ino

theorem exec_view {op : Op} (h : Holds s l) (he : exec s op = some s') :
    ∃ l', Holds s' l' ∧ view s' l' = apply (view s l) op := by
  cases op with
  | lookup ino idx =>
    obtain ⟨ret, t, l', ht, hh, hview⟩ := lookup_view h ino idx
    rw [exec, ht] at he
    obtain rfl := Option.some.inj he
    exact ⟨l', hh, (congrArg Prod.snd hview).symm⟩
  | insert ino idx phys =>
    obtain ⟨⟨out, t⟩, hr, rfl⟩ := Option.map_eq_some_iff.1 he
    obtain ⟨l', hh, hview⟩ := insert_view h hr
    refine ⟨l', hh, ?_⟩
    unfold apply
    dsimp only
    generalize PageCache.insert (view s l) ino idx (phys / pageSize) = r at hview ⊢
    cases r with
    | present c => exact hview.2.symm
    | added c => exact hview.2.symm
    | replaced victim c => exact hview.1.symm
  | markDirty ino idx =>
    obtain ⟨t, ht, hh, hview⟩ := markDirty_view h ino idx
    obtain rfl := Option.some.inj (ht.symm.trans he)
    exact ⟨l, hh, hview⟩
  | evictOne =>
    obtain ⟨ret, t, l', ht, hh, hview⟩ := evictOne_view h
    rw [exec, ht] at he
    obtain rfl := Option.some.inj he
    unfold apply
    dsimp only
    rw [hview]
    cases ret with
    | some phys => exact ⟨l', hh, rfl⟩
    | none =>
      rcases h.evictOne with ⟨_, _, u, _, hu, -, -⟩ | ⟨-, hu⟩
      · cases ht.symm.trans hu
      · cases ht.symm.trans hu
        exact ⟨l, h, rfl⟩
  | invalidatePage ino idx =>
    obtain ⟨freed, t, l', ht, hh, hview, -⟩ := invalidatePage_view h ino idx
    rw [exec, ht] at he
    obtain rfl := Option.some.inj he
    exact ⟨l', hh, hview.symm⟩
  | invalidateInode ino =>
    obtain ⟨freed, t, ht, hh, hc⟩ := invalidateEntries_view h ino fun _ hi => List.mem_range.1 hi
    rw [exec, invalidateInode, ht] at he
    obtain rfl := Option.some.inj he
    refine ⟨_, hh, ?_⟩
    rw [view_congr fun j hj => ?_, apply, view, view, List.filter_map]
    · refine congrArg _ (List.filter_congr fun j hj => ?_)
      rw [Function.comp, decide_eq_decide]
      simp [Table.content, ((h.mem j).1 hj).1]
    · obtain ⟨hj, hnot⟩ := List.mem_filter.1 hj
      exact hc j hj (of_decide_eq_true hnot)

theorem runOps_view {ops : List Op} (h : Holds s l) (hr : runOps s ops = some s') :
    ∃ l', Holds s' l' ∧ view s' l' = ops.foldl apply (view s l) := by
  induction ops generalizing s l with
  | nil =>
    cases hr
    exact ⟨l, h, rfl⟩
  | cons op rest ih =>
    rw [runOps, List.foldlM_cons] at hr
    obtain ⟨t, ht, hr⟩ := Option.bind_eq_some_iff.1 hr
    obtain ⟨l₁, h₁, hview⟩ := exec_view h ht
    rw [List.foldl_cons, ← hview]
    exact ih h₁ hr

/-- **The tables are the page cache.** After every sequence of calls the LRU list of the tables threads the pages of the list
of `PageCache` after the same calls, and `lookup` and `evictOne` find the pages that they find there. -/
theorem tables_are_page_cache {ops : List Op} (hr : runOps init ops = some s) :
    (∃ l, Threaded s.next s.prev noIndex s.lruHead l ∧ view s l = ops.foldl apply []) ∧
      (∀ ino idx, (lookup s ino idx).map (fun r => r.1.map (· / pageSize)) =
        some (PageCache.lookup (ops.foldl apply []) ino idx).1) ∧
      (evictOne s).map (fun r => r.1.map (· / pageSize)) =
        some ((PageCache.evictOne (ops.foldl apply [])).map Prod.fst) := by
  obtain ⟨l, h, hview⟩ := runOps_view Holds.init hr
  rw [show ([] : Cache) = view init [] from rfl, ← hview]
  refine ⟨⟨l, h.lru.threaded, rfl⟩, fun ino idx => ?_, ?_⟩
  · obtain ⟨ret, t, l', ht, -, hret⟩ := lookup_view h ino idx
    rw [ht, hret]
    rfl
  · obtain ⟨ret, t, l', ht, -, hret⟩ := evictOne_view h
    rw [ht, hret]
    cases ret <;> rfl

/-- Three pages, one of them marked, an eviction, and a page that is invalidated. -/
theorem tables_are_page_cache_three : ∃ s, runOps init [.insert 1 0 0x200000, .insert 1 2048 0x201000, .insert 2 5 0x202000,
      .markDirty 1 0, .evictOne, .invalidatePage 2 5] = some s ∧
    (evictOne s).map (fun r => r.1.map (· / pageSize)) = some none := by
  have hsome : (runOps init [.insert 1 0 0x200000, .insert 1 2048 0x201000, .insert 2 5 0x202000, .markDirty 1 0, .evictOne,
      .invalidatePage 2 5]).isSome = true := by decide +kernel
  obtain ⟨s, hs⟩ := Option.isSome_iff_exists.1 hsome
  exact ⟨s, hs, (tables_are_page_cache hs).2.2.trans (by decide +kernel)⟩

end Zigix.PageCacheTable
