import Zigix.Mm.Mprotect
import Zigix.Mm.PageMap

/-!
# Unmapping near huge pages

`unmapPage` does not look at the size bit: below a huge entry it takes the data of the page for tables.

* `SameUpper` : what the loop of `sysMunmap` leaves of the tables, as long as it meets no huge entry;
* `sysMunmap_exact_iff` : the loop unmaps its range and touches nothing else exactly if no page of the range lies in a
  huge mapping.
-/

namespace Zigix.Mmap

open Vma hiding pageSize
open Vmm
open PageMap
open Fault (tablePath)
open Pmm (pageSize)
open Pte (isPresent isHuge frame)

/-! ## The walk of one page -/

/-- The frames that `unmapPage` reads or writes: it follows every present entry, whatever its size bit. -/
def unmapWalk (m : Machine) (pml4 virt : Nat) : List Nat :=
  pml4 :: match follow m pml4 (pml4Idx virt) with
  | none => []
  | some pdpt => pdpt :: match follow m pdpt (pdptIdx virt) with
    | none => []
    | some pd => pd :: match follow m pd (pdIdx virt) with
      | none => []
      | some pt => [pt]

section
variable {root virt : Nat} {m : Machine}

/-- Entry `i` of the table `t` at path `p` maps a huge page. -/
structure HugeEntry (root : Nat) (m : Machine) (p : List Nat) (t i : Nat) : Prop where
  table : Table root m p t
  index : i < 512
  below : p ≠ []
  above : p.length ≤ 2
  present : isPresent (m.mem t i) = true
  huge : isHuge (m.mem t i) = true

theorem unmapWalk_tables (hn : NoHuge root m virt) : ∀ t ∈ unmapWalk m root virt, ∃ p, Table root m p t := by
  intro t ht
  rcases List.mem_cons.1 ht with rfl | ht
  · exact ⟨[], table_root⟩
  cases hpdpt : follow m root (pml4Idx virt) with
  | none =>
    rw [hpdpt] at ht
    cases ht
  | some pdpt =>
  rw [hpdpt] at ht
  have t₁ : Table root m [pml4Idx virt] pdpt := table_of_follow (Nat.mod_lt _ (by decide)) hpdpt
  rcases List.mem_cons.1 ht with rfl | ht
  · exact ⟨_, t₁⟩
  cases hpd : follow m pdpt (pdptIdx virt) with
  | none =>
    rw [hpd] at ht
    cases ht
  | some pd =>
  rw [hpd] at ht
  obtain ⟨-, t₂⟩ := hn.table₂ t₁ hpd
  rcases List.mem_cons.1 ht with rfl | ht
  · exact ⟨_, t₂⟩
  cases hpt : follow m pd (pdIdx virt) with
  | none =>
    rw [hpt] at ht
    cases ht
  | some pt =>
    rw [hpt] at ht
    obtain rfl := List.mem_singleton.1 ht
    exact ⟨_, (hn.table₃ t₂ hpt).2⟩

theorem huge_walk (h : Tree root m) (hn : ¬ NoHuge root m virt) :
    (Vmm.translate m root virt).isSome ∧ ∃ p t i, HugeEntry root m p t i ∧
      frame (m.mem t i) ∈ unmapWalk m root virt := by
  unfold NoHuge at hn
  push Not at hn
  obtain ⟨q, i, t, hq, hpre, ht, hpres, hhuge⟩ := hn
  have hhuge : isHuge (m.mem t i) = true := by simpa using hhuge
  have hnext : follow m t i = some (frame (m.mem t i)) := Space.follow_some.2 ⟨hpres, rfl⟩
  obtain ⟨s, hs⟩ := hpre
  simp only [tablePath] at hs
  rcases q with - | ⟨i₀, - | ⟨i₁, - | ⟨i₂, q⟩⟩⟩
  · exact absurd rfl hq
  · -- a 1 GiB page
    simp only [List.cons_append, List.nil_append, List.cons.injEq] at hs
    obtain ⟨rfl, rfl, -⟩ := hs
    have hidx : pdptIdx virt < 512 := Nat.mod_lt _ (by decide)
    have hf₁ := follow_of_table ht
    refine ⟨?_, _, t, _, ⟨ht, hidx, hq, by simp, hpres, hhuge⟩, ?_⟩
    · unfold Vmm.translate
      simp only [bind, hf₁, hnext, Option.bind_some, hhuge, if_true]
      rfl
    · unfold unmapWalk
      simp only [hf₁, hnext]
      exact List.mem_cons_of_mem _ (List.mem_cons_of_mem _ List.mem_cons_self)
  · -- a 2 MiB page
    simp only [List.cons_append, List.nil_append, List.cons.injEq] at hs
    obtain ⟨rfl, rfl, rfl, -⟩ := hs
    have hidx : pdIdx virt < 512 := Nat.mod_lt _ (by decide)
    obtain ⟨pdpt, -, hf₁, hf₂, hs₂⟩ := h.follow_of_table₂ ht
    refine ⟨?_, _, t, _, ⟨ht, hidx, hq, by simp, hpres, hhuge⟩, ?_⟩
    · unfold Vmm.translate
      simp only [bind, hf₁, hf₂, hnext, Option.bind_some, hs₂, hhuge, Bool.false_eq_true, if_false, if_true]
      rfl
    · unfold unmapWalk
      simp only [hf₁, hf₂, hnext]
      exact List.mem_cons_of_mem _ (List.mem_cons_of_mem _ (List.mem_cons_of_mem _ List.mem_cons_self))
  · have hlen := congrArg List.length hs
    simp only [List.cons_append, List.length_cons, List.length_append, List.length_nil] at hlen
    omega

theorem no_hugeEntry (hn : ∀ virt, NoHuge root m virt) (p : List Nat) (t i : Nat) : ¬ HugeEntry root m p t i := by
  rintro ⟨ht, hi, hbelow, habove, hpres, hhuge⟩
  have hidx : ∀ j ∈ p, j < 512 := ht.2.1.2
  suffices hpath : ∃ virt, p ++ [i] <+: tablePath virt by
    obtain ⟨virt, hpre⟩ := hpath
    have hsmall := hn virt p i t hbelow hpre ht hpres
    rw [hhuge] at hsmall
    cases hsmall
  rcases p with - | ⟨a, - | ⟨b, - | ⟨c, p⟩⟩⟩
  · exact absurd rfl hbelow
  · have ha := hidx a List.mem_cons_self
    refine ⟨a * 2 ^ 39 + i * 2 ^ 30, [0], ?_⟩
    simp only [tablePath, pml4Idx, pdptIdx, pdIdx, List.cons_append, List.nil_append, List.cons.injEq, and_true]
    omega
  · have ha := hidx a List.mem_cons_self
    have hb := hidx b (List.mem_cons_of_mem _ List.mem_cons_self)
    refine ⟨a * 2 ^ 39 + b * 2 ^ 30 + i * 2 ^ 21, [], ?_⟩
    simp only [tablePath, pml4Idx, pdptIdx, pdIdx, List.cons_append, List.nil_append, List.cons.injEq, and_true,
      List.append_nil]
    omega
  · simp only [List.length_cons] at habove
    omega

/-! ## The loop over the pages -/

def Shape (root : Nat) (m : Machine) : Prop := ∃ pmm, Tree root { m with pmm := pmm }

structure Dropped (root : Nat) (pages : List Nat) (m m' : Machine) : Prop where
  shape : Shape root m'
  upper : ∀ q u, Table root m q u → q.length ≤ 2 → ∀ j, m'.mem u j = m.mem u j
  data : ∀ f, (∀ p, ¬ Table root m p f) → m'.mem f = m.mem f
  others : ∀ v, (∀ q ∈ pages, pageNumber v ≠ pageNumber q) → Vmm.translate m' root v = Vmm.translate m root v
  unmapped : ∀ q ∈ pages, ∀ v, pageNumber v = pageNumber q → Vmm.translate m' root v = none

variable {m' m'' : Machine} {pages pages' : List Nat} {p : List Nat} {t : Nat}

theorem Dropped.table_iff (h : Dropped root pages m m') : Table root m' p t ↔ Table root m p t :=
  PageMap.table_iff h.upper

theorem Dropped.noHuge_iff (h : Dropped root pages m m') : NoHuge root m' virt ↔ NoHuge root m virt := by
  have hword : ∀ {q i u}, q ++ [i] <+: tablePath virt → Table root m q u → m'.mem u i = m.mem u i := by
    intro q i u hpre hu
    have hlen := hpre.length_le
    simp only [tablePath, List.length_append, List.length_cons, List.length_nil] at hlen
    exact h.upper q u hu (by omega) i
  constructor
  · intro hn q i u hq hpre hu hpres
    rw [← hword hpre hu] at hpres ⊢
    exact hn q i u hq hpre (h.table_iff.2 hu) hpres
  · intro hn q i u hq hpre hu hpres
    have hu := h.table_iff.1 hu
    rw [hword hpre hu] at hpres ⊢
    exact hn q i u hq hpre hu hpres

theorem Dropped.refl (h : Shape root m) : Dropped root [] m m :=
  ⟨h, fun _ _ _ _ _ => rfl, fun _ _ => rfl, fun _ _ => rfl, nofun⟩

theorem Dropped.append (h : Dropped root pages m m') (h' : Dropped root pages' m' m'') :
    Dropped root (pages ++ pages') m m'' where
  shape := h'.shape
  upper q u hu hlen j := (h'.upper q u (h.table_iff.2 hu) hlen j).trans (h.upper q u hu hlen j)
  data f hf := (h'.data f fun p hp => hf p (h.table_iff.1 hp)).trans (h.data f hf)
  others v hv := by
    rw [h'.others v fun q hq => hv q (List.mem_append_right _ hq)]
    exact h.others v fun q hq => hv q (List.mem_append_left _ hq)
  unmapped q hq v hv := by
    rcases List.mem_append.1 hq with hq | hq
    · by_cases hlater : ∃ q' ∈ pages', pageNumber v = pageNumber q'
      · obtain ⟨q', hq', hv'⟩ := hlater
        exact h'.unmapped q' hq' v hv'
      · push Not at hlater
        rw [h'.others v hlater]
        exact h.unmapped q hq v hv
    · exact h'.unmapped q hq v hv

theorem unmapPage_withPmm (pmm : Pmm.State) :
    unmapPage { m with pmm := pmm } root virt = { unmapPage m root virt with pmm := pmm } := by
  have hsame : ∀ t i, follow { m with pmm := pmm } t i = follow m t i := fun _ _ => rfl
  unfold unmapPage
  simp only [hsame]
  cases (follow m root (pml4Idx virt)).bind fun pdpt => (follow m pdpt (pdptIdx virt)).bind fun pd =>
      follow m pd (pdIdx virt) <;> rfl

theorem unmapPage_other {u : Nat} (hn : NoHuge root m virt) (hu : ∀ p, Table root m p u → p ≠ tablePath virt) :
    (unmapPage m root virt).mem u = m.mem u := by
  unfold unmapPage
  split
  · rfl
  next pt hpt =>
  funext j
  refine Space.mem_setWord_of_ne ?_
  rintro ⟨rfl, -⟩
  exact hu _ ((walk_eq_some hn u).1 hpt) rfl

theorem translate_isSome_congr (root : Nat) (m : Machine) {v w : Nat} (h : pageNumber v = pageNumber w) :
    (Vmm.translate m root v).isSome = (Vmm.translate m root w).isSome := by
  rw [translate_eq_pageMap root m v, translate_eq_pageMap root m w, h, Option.isSome_map, Option.isSome_map]

theorem dropPage_dropped (h : Shape root m) (hn : NoHuge root m virt) : Dropped root [virt] m (dropPage root m virt) := by
  unfold dropPage
  split
  · next hnone =>
    refine ⟨h, fun _ _ _ _ _ => rfl, fun _ _ => rfl, fun _ _ => rfl, fun q hq v hv => ?_⟩
    obtain rfl := List.mem_singleton.1 hq
    have hsome := translate_isSome_congr root m hv
    rw [hnone] at hsome
    exact Option.not_isSome_iff_eq_none.1 (by rw [hsome]; exact Bool.false_ne_true)
  · next phys hphys =>
    obtain ⟨pmm, htree⟩ := h
    have hspec := unmapPage_spec htree (show NoHuge root { m with pmm := pmm } virt from hn)
    rw [unmapPage_withPmm] at hspec
    refine ⟨⟨pmm, hspec.tree⟩, fun q u hu hlen j => congrFun (unmapPage_other hn ?_) j, fun f hf => ?_, fun v hv => ?_,
      fun q hq v hv => ?_⟩
    · rintro p hp rfl
      obtain ⟨-, rfl⟩ := htree.separated hu hp le_rfl
      simp [tablePath] at hlen
    · exact unmapPage_other hn fun p hp => absurd hp (hf p)
    · exact hspec.others v (hv virt List.mem_cons_self)
    · obtain rfl := List.mem_singleton.1 hq
      exact hspec.page v hv

theorem dropPages_dropped (h : Shape root m) (hn : ∀ q ∈ pages, NoHuge root m q) :
    Dropped root pages m (pages.foldl (dropPage root) m) := by
  induction pages generalizing m with
  | nil => exact .refl h
  | cons q pages ih =>
    have hstep := dropPage_dropped h (hn q List.mem_cons_self)
    exact hstep.append (ih hstep.shape fun q' hq' => hstep.noHuge_iff.2 (hn q' (List.mem_cons_of_mem _ hq')))

/-! ## munmap -/

/-- A 48-bit address, sign-extended. -/
def Canonical (x : Nat) : Prop := x < 2 ^ 47 ∨ 2 ^ 64 - 2 ^ 47 ≤ x ∧ x < 2 ^ 64

/-- The call unmaps `[addr, stop)` and leaves the rest alone. -/
structure UnmapsExactly (addr stop : Nat) (s s' : Sys) : Prop where
  /-- every frame that `unmapPage` reads or writes on its way is a table -/
  walks : ∀ done page rest, pagesOf addr stop = done ++ page :: rest →
    (Vmm.translate (done.foldl (dropPage s.proc.pageTable) s.machine) s.proc.pageTable page).isSome →
    ∀ t ∈ unmapWalk (done.foldl (dropPage s.proc.pageTable) s.machine) s.proc.pageTable page,
      ∃ p, Table s.proc.pageTable s.machine p t
  /-- nothing but tables changes -/
  data : ∀ f, (∀ p, ¬ Table s.proc.pageTable s.machine p f) → s'.machine.mem f = s.machine.mem f
  inside : ∀ x, addr ≤ x → x < stop → Vmm.translate s'.machine s'.proc.pageTable x = none
  outside : ∀ x, Canonical x → x < addr ∨ stop ≤ x →
    Vmm.translate s'.machine s'.proc.pageTable x = Vmm.translate s.machine s.proc.pageTable x

theorem page_mem_pagesOf {addr stop x : Nat} (ha : addr % 4096 = 0) (hlow : addr ≤ x) (hhigh : x < stop) :
    x / 4096 * 4096 ∈ pagesOf addr stop := by
  refine List.mem_map.2 ⟨(x - addr) / 4096, List.mem_range.2 ?_, ?_⟩
  · unfold pageSize
    omega
  · unfold pageSize
    omega

theorem pageNumber_page (x : Nat) : pageNumber (x / 4096 * 4096) = pageNumber x := by
  refine Fin.ext ?_
  show x / 4096 * 4096 / 4096 % 2 ^ 36 = x / 4096 % 2 ^ 36
  rw [Nat.mul_div_cancel _ (by decide)]

theorem canonical_inj {x y : Nat} (hx : Canonical x) (hy : Canonical y) (h : pageNumber x = pageNumber y) :
    x / 4096 = y / 4096 := by
  have hval : x / 4096 % 2 ^ 36 = y / 4096 % 2 ^ 36 := congrArg Fin.val h
  unfold Canonical at hx hy
  omega

theorem sysMunmap_outcome {addr length r : Nat} {s s' : Sys} (hr : sysMunmap addr length s = some (.ok r, s')) :
    addr % 4096 = 0 ∧ s'.proc.pageTable = s.proc.pageTable ∧
      s'.machine = (pagesOf addr (protectEnd addr length)).foldl (dropPage s.proc.pageTable) s.machine := by
  unfold sysMunmap at hr
  split at hr
  · cases hr
  next hargs =>
  obtain ⟨len, hlen, hr⟩ := Option.bind_eq_some_iff.1 hr
  obtain ⟨stop, hstop, hr⟩ := Option.bind_eq_some_iff.1 hr
  cases addU64_some hstop
  cases alignUp_some hlen
  obtain ⟨⟨b, vmas⟩, -, hr⟩ := Option.bind_eq_some_iff.1 hr
  cases hr
  exact ⟨by_contra fun h => hargs (.inl h), rfl, rfl⟩

/-- **`munmap` near huge pages**: it unmaps its range, reads and writes nothing but tables on the way and leaves every
other address alone, if and only if no page of the range lies in a huge mapping (and no page of the range is the
non-canonical name of a mapped page outside). -/
theorem sysMunmap_exact_iff {addr length r : Nat} {s s' : Sys} (h : Tree s.proc.pageTable s.machine)
    (hdata : ∀ p t i, HugeEntry s.proc.pageTable s.machine p t i →
      ∀ q, ¬ Table s.proc.pageTable s.machine q (frame (s.machine.mem t i)))
    (hr : sysMunmap addr length s = some (.ok r, s')) :
    UnmapsExactly addr (protectEnd addr length) s s' ↔
      (∀ page ∈ pagesOf addr (protectEnd addr length), NoHuge s.proc.pageTable s.machine page) ∧
      ∀ page ∈ pagesOf addr (protectEnd addr length), ∀ x, Canonical x → x < addr ∨ protectEnd addr length ≤ x →
        pageNumber x = pageNumber page → Vmm.translate s.machine s.proc.pageTable x = none := by
  obtain ⟨haddr, hroot, hmachine⟩ := sysMunmap_outcome hr
  have hshape : Shape s.proc.pageTable s.machine := ⟨s.machine.pmm, h⟩
  constructor
  · intro hex
    refine ⟨?_, fun page hpage x hx hout hnum => ?_⟩
    · -- the first page in a huge mapping would be met with the tables as they were
      have hall : ∀ n done page rest, done.length = n → pagesOf addr (protectEnd addr length) = done ++ page :: rest →
          NoHuge s.proc.pageTable s.machine page := by
        intro n
        induction n using Nat.strong_induction_on with
        | _ n ih =>
          intro done page rest hlen hpages
          by_contra hn
          have hdone : ∀ q ∈ done, NoHuge s.proc.pageTable s.machine q := by
            intro q hq
            obtain ⟨d₁, d₂, rfl⟩ := List.append_of_mem hq
            rw [List.length_append, List.length_cons] at hlen
            refine ih d₁.length (by omega) d₁ q (d₂ ++ page :: rest) rfl ?_
            rw [hpages, List.append_assoc, List.cons_append]
          have hdrop := dropPages_dropped hshape hdone
          obtain ⟨pmm, htree⟩ := hdrop.shape
          obtain ⟨hsome, p, t, i, hentry, hmem⟩ := huge_walk htree fun hn' => hn (hdrop.noHuge_iff.1 hn')
          obtain ⟨q, hq⟩ := hex.walks done page rest hpages hsome _ hmem
          have ht := hdrop.table_iff.1 hentry.table
          have hword := hdrop.upper p t ht hentry.above i
          have hold : HugeEntry s.proc.pageTable s.machine p t i :=
            ⟨ht, hentry.index, hentry.below, hentry.above, hword ▸ hentry.present, hword ▸ hentry.huge⟩
          exact hdata p t i hold q (hword ▸ hq)
      intro page hpage
      obtain ⟨done, rest, hpages⟩ := List.append_of_mem hpage
      exact hall _ done page rest rfl hpages
    · obtain ⟨hlow, hhigh⟩ := mem_pagesOf hpage
      have hgone := translate_isSome_congr s'.proc.pageTable s'.machine hnum
      rw [hex.inside page hlow hhigh, hex.outside x hx hout] at hgone
      exact Option.not_isSome_iff_eq_none.1 (by rw [hgone]; exact Bool.false_ne_true)
  · rintro ⟨hn, halias⟩
    have hall := dropPages_dropped hshape hn
    rw [← hmachine] at hall
    refine ⟨fun done page rest hpages _ t ht => ?_, hall.data, fun x hlow hhigh => ?_, fun x hx hout => ?_⟩
    · have hdone : ∀ q ∈ done, NoHuge s.proc.pageTable s.machine q := fun q hq =>
        hn q (by rw [hpages]; exact List.mem_append_left _ hq)
      have hdrop := dropPages_dropped hshape hdone
      have hpage := hn page (by rw [hpages]; exact List.mem_append_right _ List.mem_cons_self)
      obtain ⟨p, hp⟩ := unmapWalk_tables (hdrop.noHuge_iff.2 hpage) t ht
      exact ⟨p, hdrop.table_iff.1 hp⟩
    · rw [hroot]
      exact hall.unmapped _ (page_mem_pagesOf haddr hlow hhigh) x (pageNumber_page x).symm
    · rw [hroot]
      by_cases hmeets : ∃ q ∈ pagesOf addr (protectEnd addr length), pageNumber x = pageNumber q
      · obtain ⟨q, hq, hnum⟩ := hmeets
        rw [hall.unmapped q hq x hnum, halias q hq x hx hout hnum]
      · push Not at hmeets
        exact hall.others x hmeets

end

def smallPageProcess : Sys :=
  { emptyProcess with
    machine := (mapPage emptySpace 512 0x1000 600 { writable := true, user := true }).2
    proc.pageTable := 512 }

theorem sysMunmap_exact_small : ∃ s', sysMunmap 0x1000 0x1000 smallPageProcess = some (.ok 0, s') ∧
    UnmapsExactly 0x1000 0x2000 smallPageProcess s' := by
  have hdone : (sysMunmap 0x1000 0x1000 smallPageProcess).map Prod.fst = some (.ok 0) := by decide +kernel
  obtain ⟨⟨r, s'⟩, hr, rfl⟩ := Option.map_eq_some_iff.1 hdone
  have hempty : ∀ virt, NoHuge 512 emptySpace virt := fun virt q i t hq _ ht => absurd (walk_emptySpace ht).1 hq
  obtain ⟨htree, hn⟩ : Tree 512 smallPageProcess.machine ∧ ∀ virt, NoHuge 512 smallPageProcess.machine virt := by
    have hmap : Mapping 512 0x1000 600 emptySpace (mapPage emptySpace 512 0x1000 600 { writable := true, user := true }) :=
      mapPage_spec emptySpace_tree (hempty 0x1000) (by decide)
    show Tree 512 (mapPage emptySpace 512 0x1000 600 { writable := true, user := true }).2 ∧ ∀ virt,
      NoHuge 512 (mapPage emptySpace 512 0x1000 600 { writable := true, user := true }).2 virt
    generalize mapPage emptySpace 512 0x1000 600 { writable := true, user := true } = x at hmap
    cases hmap with
    | outOfMemory hext => exact ⟨hext.tree, fun virt => hext.noHuge virt (hempty virt)⟩
    | done hchange => exact ⟨hchange.tree, fun virt => hchange.noHuge virt (hempty virt)⟩
  refine ⟨s', hr, (sysMunmap_exact_iff htree (fun p t i hentry => absurd hentry (no_hugeEntry hn p t i)) hr).2
    ⟨fun page _ => hn page, fun page hpage x hx hout hnum => ?_⟩⟩
  obtain ⟨hlow, hhigh⟩ := mem_pagesOf hpage
  have hhigh : page < 0x2000 := hhigh
  have hout : x < 0x1000 ∨ 0x2000 ≤ x := hout
  have hsame := canonical_inj hx (.inl (by omega)) hnum
  omega

/-- A process with a 2 MiB page at `0x200000` that holds a 7, and a 1 GiB page whose first words look like an entry. -/
def hugePagesProcess : Sys :=
  { emptyProcess with
    machine := (((mapGigaPage (mapHugePage emptySpace 512 0x200000 1024 { writable := true, user := true }).2 512
      0x40000000 262144 { writable := true, user := true }).2.setWord 1024 3 7).setWord 262144 0
        (Pte.table 2000)).setWord 2000 3 7
    proc.pageTable := 512 }

/-- `munmap` of one page of the 2 MiB page clears a word of its data and leaves the page mapped; in the 1 GiB page it
clears a word of a frame that only the data of the page names. -/
theorem sysMunmap_writes_data :
    (sysMunmap 0x203000 0x1000 hugePagesProcess).map (fun r =>
        (r.1, Vmm.translate r.2.machine 512 0x203000, r.2.machine.mem 1024 3)) =
      some (.ok 0, some (1024 * 4096 + 0x3000), 0) ∧
    hugePagesProcess.machine.mem 1024 3 = 7 ∧
    (sysMunmap 0x40003000 0x1000 hugePagesProcess).map (fun r =>
        (r.1, Vmm.translate r.2.machine 512 0x40003000, r.2.machine.mem 2000 3)) =
      some (.ok 0, some (262144 * 4096 + 0x3000), 0) ∧
    hugePagesProcess.machine.mem 2000 3 = 7 := by
  decide +kernel

end Zigix.Mmap
