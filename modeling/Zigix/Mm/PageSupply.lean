import Mathlib.Order.Interval.Finset.Nat
import Zigix.Mm.PageMove
import Zigix.Mm.PageSearch

/-!
# Enough free pages

* `roomy n` : a machine with `8 * n` free pages, and an address space without tables on it.
-/

namespace Zigix.Mmap

open Vmm
open PageMap
open Pmm (pageSize minAllocPage)

variable {n k root virt f t i : Nat} {m : Machine} {flags : MapFlags}

/-- At least `n` pages are free. -/
structure Plenty (n : Nat) (m : Machine) : Prop where
  inv : Pmm.Inv m.pmm
  pages : ∃ ps : Finset Nat, n ≤ ps.card ∧ ∀ p ∈ ps, minAllocPage ≤ p ∧ m.pmm.isFree p = true

theorem Plenty.of_pmm {m' : Machine} (h : Plenty n m) (hp : m'.pmm = m.pmm) : Plenty n m' := by
  obtain ⟨hinv, hpages⟩ := h
  rw [← hp] at hinv hpages
  exact ⟨hinv, hpages⟩

theorem Plenty.mono {n' : Nat} (h : Plenty n m) (hn : n' ≤ n) : Plenty n' m := by
  obtain ⟨ps, hcard, hps⟩ := h.pages
  exact ⟨h.inv, ps, hn.trans hcard, hps⟩

theorem plenty_allocPage (h : Plenty (n + 1) m) :
    ∃ f, m.allocPage.1 = some f ∧ Plenty n m.allocPage.2 ∧ 0 < m.allocPage.2.pmm.refCounts f := by
  obtain ⟨hinv, ps, hcard, hps⟩ := h
  have hfinds := Pmm.allocPageInner_finds hinv
  rcases Pmm.allocPageInner_cases m.pmm with hnone | ⟨f, hsome, hfree, hmin⟩
  · obtain ⟨p, hp⟩ := Finset.card_pos.1 (Nat.lt_of_lt_of_le (Nat.succ_pos n) hcard)
    rw [hnone] at hfinds
    exact absurd (hps p hp) (hfinds p)
  · have halloc : ∀ r, Pmm.allocPage m.pmm r = Pmm.takeAt m.pmm f := fun r => by
      rw [Pmm.allocPage, hsome]
      rfl
    have hpmm : m.allocPage.2.pmm = (Pmm.takeAt m.pmm f).2 := by
      unfold Machine.allocPage
      dsimp only
      rw [halloc]
    refine ⟨f, ?_, ⟨?_, ps.erase f, ?_, fun p hp => ?_⟩, ?_⟩
    · unfold Machine.allocPage
      dsimp only
      rw [halloc]
      exact congrArg some (Nat.mul_div_cancel f (by decide))
    · rw [hpmm]
      exact (Pmm.takeAt_moves hfree hmin).inv hinv
    · have := Finset.pred_card_le_card_erase (s := ps) (a := f)
      omega
    · obtain ⟨hpf, hp⟩ := Finset.mem_erase.1 hp
      refine ⟨(hps p hp).1, ?_⟩
      have hfree' : m.allocPage.2.pmm.isFree p = (m.pmm.take f).isFree p := by
        rw [hpmm]
        rfl
      rw [hfree', Pmm.isFree_take, decide_eq_true hpf, (hps p hp).2]
      rfl
    · have href : m.allocPage.2.pmm.refCounts f = (m.pmm.take f).refCounts f := by
        rw [hpmm]
        rfl
      rw [href, Pmm.refCounts_take, if_pos rfl]
      exact Nat.one_pos

theorem plenty_incRef (h : Plenty n m) (hf : 0 < m.pmm.refCounts f) : Plenty n (m.incRef f) := by
  obtain ⟨hinv, ps, hcard, hps⟩ := h
  have hpage : f * pageSize / pageSize = f := Nat.mul_div_cancel f (by decide)
  refine ⟨(Pmm.incRef_moves m.pmm (f * pageSize) (by rw [hpage]; exact hf)).inv hinv, ps, hcard, fun p hp => ?_⟩
  refine ⟨(hps p hp).1, ?_⟩
  have hsame : (m.incRef f).pmm.isFree p = m.pmm.isFree p := by
    unfold Machine.incRef Pmm.incRef
    dsimp only
    split
    · rfl
    split
    · rfl
    split <;> rfl
  rw [hsame]
  exact (hps p hp).2

theorem plenty_newTable (h : Plenty (n + 1) m) : ∃ f, (newTable m).1 = some f ∧ Plenty n (newTable m).2 := by
  obtain ⟨f, hf, hplenty, href⟩ := plenty_allocPage h
  unfold newTable
  rcases ha : m.allocPage with ⟨o, m₁⟩
  rw [ha] at hf hplenty href
  cases hf
  exact ⟨f, rfl, (plenty_incRef hplenty href).of_pmm rfl⟩

theorem plenty_ensureTable (h : Plenty (n + 1) m) (t i : Nat) :
    ∃ f, (ensureTable m t i).1 = some f ∧ Plenty n (ensureTable m t i).2 := by
  unfold ensureTable
  split
  · exact ⟨_, rfl, h.mono (Nat.le_succ n)⟩
  · obtain ⟨f, hf, hplenty⟩ := plenty_newTable h
    rcases hn : newTable m with ⟨o, m₁⟩
    rw [hn] at hf hplenty
    cases hf
    exact ⟨f, rfl, hplenty.of_pmm rfl⟩

theorem plenty_withTable {x : Option Nat × Machine} {cont : Nat → Machine → Bool × Machine}
    (hx : ∃ f, x.1 = some f ∧ Plenty k x.2)
    (hcont : ∀ f m, Plenty k m → (cont f m).1 = true ∧ Plenty n (cont f m).2) :
    (withTable x cont).1 = true ∧ Plenty n (withTable x cont).2 := by
  rcases x with ⟨- | t, m⟩
  · obtain ⟨f, hf, -⟩ := hx
    cases hf
  · obtain ⟨f, -, hplenty⟩ := hx
    exact hcont t m hplenty

theorem plenty_mapPage (h : Plenty (n + 3) m) (root virt f : Nat) (flags : MapFlags) :
    (mapPage m root virt f flags).1 = true ∧ Plenty n (mapPage m root virt f flags).2 := by
  unfold mapPage
  refine plenty_withTable (k := n + 2) (plenty_ensureTable h _ _) fun _ _ h => ?_
  refine plenty_withTable (k := n + 1) (plenty_ensureTable h _ _) fun _ _ h => ?_
  exact plenty_withTable (k := n) (plenty_ensureTable h _ _) fun _ _ h => ⟨rfl, h.of_pmm rfl⟩

/-! ## A machine of any size -/

/-- Pages 512 to `511 + 8 * n` are free. -/
def roomy (n : Nat) : Machine where
  pmm :=
    { bitmap := fun byte => if 64 ≤ byte ∧ byte < 64 + n then 255 else 0
      totalPages := 512 + 8 * n
      freePageCount := 8 * n
      highestPhys := (512 + 8 * n) * pageSize
      refCounts := fun _ => 0
      nextFreeHint := 512 }
  mem := fun _ _ => 0
  cache := []

theorem isFree_roomy (n p : Nat) : (roomy n).pmm.isFree p = decide (512 ≤ p ∧ p < 512 + 8 * n) := by
  have hbits : ∀ j < 8, (255#8).getLsbD j = true := by decide
  have hbitmap : (roomy n).pmm.bitmap (p / 8) = if 64 ≤ p / 8 ∧ p / 8 < 64 + n then 255#8 else 0#8 := rfl
  have hiff : 64 ≤ p / 8 ∧ p / 8 < 64 + n ↔ 512 ≤ p ∧ p < 512 + 8 * n := by omega
  rw [Pmm.State.isFree, Pmm.testBit_eq, hbitmap]
  by_cases hp : 512 ≤ p ∧ p < 512 + 8 * n
  · rw [if_pos (hiff.2 hp), hbits _ (Nat.mod_lt _ (by decide)), decide_eq_true hp]
  · rw [if_neg fun h => hp (hiff.1 h), decide_eq_false hp, BitVec.getLsbD_zero]

theorem count_roomy (n : Nat) : Nat.count (fun p => (roomy n).pmm.isFree p = true) (512 + 8 * n) = 8 * n := by
  have hfilter : (Finset.range (512 + 8 * n)).filter (fun p => (roomy n).pmm.isFree p = true) =
      Finset.Ico 512 (512 + 8 * n) := by
    ext p
    rw [Finset.mem_filter, Finset.mem_range, Finset.mem_Ico, isFree_roomy, decide_eq_true_eq]
    omega
  rw [Nat.count_eq_card_filter_range, hfilter, Nat.card_Ico]
  omega

theorem roomy_inv (hn : 512 + 8 * n ≤ 2 ^ 40) : Space.Inv ∅ 0 (roomy n) := by
  refine Space.inv_of_noRoots ⟨(count_roomy n).symm, fun p hp => ?_, fun _ _ => rfl⟩ hn le_rfl rfl
  rw [isFree_roomy, decide_eq_true_eq] at hp
  exact hp.2

theorem roomy_plenty (hn : 512 + 8 * n ≤ 2 ^ 40) : Plenty (8 * n) (roomy n) := by
  refine ⟨(roomy_inv hn).pmm, Finset.Ico 512 (512 + 8 * n), ?_, fun p hp => ?_⟩
  · rw [Nat.card_Ico]
    omega
  · rw [Finset.mem_Ico] at hp
    rw [isFree_roomy, decide_eq_true_eq]
    exact ⟨hp.1, hp⟩

theorem accounted_newTable {pins : Nat → Nat} (hinv : Space.Inv ∅ pins m) (hsome : (newTable m).1 = some f) :
    (∃ pins, Accounted f pins (newTable m).2) ∧ ∀ v, NoHuge f (newTable m).2 v := by
  obtain ⟨htree, hempty⟩ := newTable_tree hinv hsome
  obtain ⟨pins', hpinned⟩ := htree.pinned
  have hnone : ∀ x, pageMap f (newTable m).2 x = none := fun x => by
    rw [pageMap, Vmm.translate]
    simp [follow, hempty]
  refine ⟨⟨pins', hpinned, fun {x u} hx => ?_, fun u => ?_⟩, fun v q i t hq _ ht => ?_⟩
  · rw [hnone] at hx
    cases hx
  · have hset : {x | pageMap f (newTable m).2 x = some u} = ∅ := Set.eq_empty_of_forall_notMem fun x hx => by
      rw [Set.mem_ofPred_eq, hnone] at hx
      cases hx
    rw [hset, Set.encard_empty]
    exact zero_le
  · exact absurd (table_of_empty hempty ht).1 hq

/-- For every number there is an address space with that many pages free. -/
theorem exists_plenty (hn : 8 * n + 520 ≤ 2 ^ 40) : ∃ root m, (∃ pins, Accounted root pins m) ∧
    (∀ v, NoHuge root m v) ∧ Plenty (8 * n) m := by
  have hsize : 512 + 8 * (n + 1) ≤ 2 ^ 40 := by omega
  have hplenty : Plenty (8 * n + 1) (roomy (n + 1)) := (roomy_plenty hsize).mono (by omega)
  obtain ⟨f, hf, hrest⟩ := plenty_newTable hplenty
  obtain ⟨hacc, hhuge⟩ := accounted_newTable (roomy_inv hsize) hf
  exact ⟨f, _, hacc, hhuge, hrest⟩

end Zigix.Mmap
