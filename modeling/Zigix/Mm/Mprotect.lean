import Zigix.Mm.MmapSpec
import Zigix.Mm.Space
import Zigix.Mm.VmaView

/-!
# What `mprotect` changes

* `sysMprotect_outcome` : refused with nothing changed, refused after the areas were split, or done;
* `sysMprotect_atomic_iff` : when a refused call has changed nothing and an accepted one has changed the whole range.
-/

namespace Zigix.Pte

variable {w : Word} {i k : Nat}

theorem getLsbD_setBit (b : Bool) (hi : i < 64) (hk : k < 64) :
    (if b then w ||| BitVec.twoPow 64 k else w &&& ~~~(BitVec.twoPow 64 k)).getLsbD i =
      if i = k then b else w.getLsbD i := by
  by_cases hik : i = k
  · subst hik
    cases b <;> simp [hk]
  · cases b <;> simp [hik, hi]

def isUser (w : Word) : Bool := w.getLsbD 2

end Zigix.Pte

namespace Zigix.Mmap

open Vma hiding pageSize
open Vmm
open Pmm (pageSize addU64)
open Pte (Word isPresent isHuge isWritable noExecute isUser frame)

/-! ## The entry of an address -/

section
variable {m m' : Machine} {pml4 virt t i : Nat} {w : Word} {writable noExec user : Bool}

/-- The table and index of the entry that maps `virt`, in a page of any size. -/
def leafEntry (m : Machine) (pml4 virt : Nat) : Option (Nat × Nat) := do
  let pdpt ← follow m pml4 (pml4Idx virt)
  let pd ← follow m pdpt (pdptIdx virt)
  if isHuge (m.mem pdpt (pdptIdx virt)) then return (pdpt, pdptIdx virt)
  let pt ← follow m pd (pdIdx virt)
  if isHuge (m.mem pd (pdIdx virt)) then return (pd, pdIdx virt)
  let _ ← follow m pt (ptIdx virt)
  return (pt, ptIdx virt)

theorem leafEntry_isSome : (leafEntry m pml4 virt).isSome = (Vmm.translate m pml4 virt).isSome := by
  unfold leafEntry Vmm.translate
  cases follow m pml4 (pml4Idx virt) with
  | none => rfl
  | some pdpt =>
    simp only [Option.bind_eq_bind, Option.bind_some]
    cases follow m pdpt (pdptIdx virt) with
    | none => rfl
    | some pd =>
      simp only [Option.bind_some]
      split
      · rfl
      cases follow m pd (pdIdx virt) with
      | none => rfl
      | some pt =>
        simp only [Option.bind_some]
        split
        · rfl
        cases follow m pt (ptIdx virt) <;> rfl

structure SameWalks (m m' : Machine) : Prop where
  present : ∀ t i, isPresent (m'.mem t i) = isPresent (m.mem t i)
  huge : ∀ t i, isHuge (m'.mem t i) = isHuge (m.mem t i)
  frame : ∀ t i, frame (m'.mem t i) = frame (m.mem t i)

theorem SameWalks.refl (m : Machine) : SameWalks m m := ⟨fun _ _ => rfl, fun _ _ => rfl, fun _ _ => rfl⟩

theorem SameWalks.trans {m'' : Machine} (h : SameWalks m m') (h' : SameWalks m' m'') : SameWalks m m'' where
  present t i := (h'.present t i).trans (h.present t i)
  huge t i := (h'.huge t i).trans (h.huge t i)
  frame t i := (h'.frame t i).trans (h.frame t i)

theorem SameWalks.follow (h : SameWalks m m') (t i : Nat) : Vmm.follow m' t i = Vmm.follow m t i := by
  unfold Vmm.follow
  rw [h.present, h.frame]

theorem SameWalks.getPTE (h : SameWalks m m') (pml4 virt : Nat) : Vmm.getPTE m' pml4 virt = Vmm.getPTE m pml4 virt := by
  unfold Vmm.getPTE
  simp only [h.follow, h.huge]

theorem SameWalks.leafEntry (h : SameWalks m m') (pml4 virt : Nat) :
    Mmap.leafEntry m' pml4 virt = Mmap.leafEntry m pml4 virt := by
  unfold Mmap.leafEntry
  simp only [h.follow, h.huge]

/-! ## The loop over the pages -/

theorem getLsbD_protectEntry (hi : i < 64) : (protectEntry w writable noExec user).getLsbD i =
    if i = 2 then user else if i = 63 then noExec else if i = 1 then writable else w.getLsbD i := by
  have h1 : (2#64) = BitVec.twoPow 64 1 := rfl
  have h63 : (1#64 <<< 63) = BitVec.twoPow 64 63 := rfl
  have h2 : (4#64) = BitVec.twoPow 64 2 := rfl
  unfold protectEntry
  simp only
  rw [h1, h63, h2, Pte.getLsbD_setBit user hi (by decide), Pte.getLsbD_setBit noExec hi (by decide),
    Pte.getLsbD_setBit writable hi (by decide)]

/-- The three bits are set. -/
def HasBits (writable noExec user : Bool) (w : Word) : Prop :=
  isWritable w = writable ∧ noExecute w = noExec ∧ isUser w = user

theorem hasBits_protectEntry : HasBits writable noExec user (protectEntry w writable noExec user) := by
  refine ⟨?_, ?_, ?_⟩
  · rw [isWritable, getLsbD_protectEntry (by decide)]
    rfl
  · rw [noExecute, getLsbD_protectEntry (by decide)]
    rfl
  · rw [isUser, getLsbD_protectEntry (by decide)]
    rfl

theorem protectPage_sameWalks (page : Nat) :
    SameWalks m (protectPage pml4 writable noExec user m page) := by
  unfold protectPage
  split
  · exact .refl m
  next pt j _ =>
  have hword : ∀ (g : Word → Bool) (k : Nat), (∀ w, g w = w.getLsbD k) → k < 64 → k ≠ 1 → k ≠ 2 → k ≠ 63 → ∀ t i,
      g ((m.setWord pt j (protectEntry (m.mem pt j) writable noExec user)).mem t i) = g (m.mem t i) := by
    intro g k hg hk h1 h2 h63 t i
    by_cases hti : t = pt ∧ i = j
    · obtain ⟨rfl, rfl⟩ := hti
      rw [hg, hg, Space.mem_setWord_same, getLsbD_protectEntry hk, if_neg h2, if_neg h63, if_neg h1]
    · rw [Space.mem_setWord_of_ne hti]
  refine ⟨hword isPresent 0 (fun _ => rfl) ?_ ?_ ?_ ?_, hword isHuge 7 (fun _ => rfl) ?_ ?_ ?_ ?_, fun t i => ?_⟩
  · decide
  · decide
  · decide
  · decide
  · decide
  · decide
  · decide
  · decide
  · refine Pte.frame_eq_of_bits fun k hlow hhigh => ?_
    exact hword (·.getLsbD k) k (fun _ => rfl) (by omega) (by omega) (by omega) (by omega) t i

theorem protectPage_entry (page : Nat) : HasBits writable noExec user (m.mem t i) ∨ getPTE m pml4 page = some (t, i) →
    HasBits writable noExec user ((protectPage pml4 writable noExec user m page).mem t i) := by
  intro h
  unfold protectPage
  cases hpte : getPTE m pml4 page with
  | none =>
    rw [hpte] at h
    exact h.resolve_right nofun
  | some e =>
    obtain ⟨pt, j⟩ := e
    by_cases hti : t = pt ∧ i = j
    · obtain ⟨rfl, rfl⟩ := hti
      simp only
      rw [Space.mem_setWord_same]
      exact hasBits_protectEntry
    · simp only
      rw [Space.mem_setWord_of_ne hti]
      rw [hpte] at h
      exact h.resolve_right fun heq => hti (by cases heq; exact ⟨rfl, rfl⟩)

theorem protectPage_other {page : Nat} (h : getPTE m pml4 page ≠ some (t, i)) :
    (protectPage pml4 writable noExec user m page).mem t i = m.mem t i := by
  unfold protectPage
  cases hpte : getPTE m pml4 page with
  | none => rfl
  | some e =>
    obtain ⟨pt, j⟩ := e
    refine Space.mem_setWord_of_ne fun hti => h ?_
    rw [hpte, hti.1, hti.2]

/-- **The loop**: the last-level entries of the pages have the bits, all other words are as they were. -/
theorem protectPages_entries (pages : List Nat) (m : Machine) :
    SameWalks m (pages.foldl (protectPage pml4 writable noExec user) m) ∧
    (∀ t i, (HasBits writable noExec user (m.mem t i) ∨ ∃ page ∈ pages, getPTE m pml4 page = some (t, i)) →
      HasBits writable noExec user ((pages.foldl (protectPage pml4 writable noExec user) m).mem t i)) ∧
    ∀ t i, (∀ page ∈ pages, getPTE m pml4 page ≠ some (t, i)) →
      (pages.foldl (protectPage pml4 writable noExec user) m).mem t i = m.mem t i := by
  induction pages generalizing m with
  | nil =>
    refine ⟨.refl m, fun t i h => h.resolve_right ?_, fun _ _ _ => rfl⟩
    rintro ⟨page, hpage, -⟩
    exact absurd hpage List.not_mem_nil
  | cons page pages ih =>
    have hwalk : SameWalks m (protectPage pml4 writable noExec user m page) := protectPage_sameWalks page
    obtain ⟨hwalks, hbits, hother⟩ := ih (protectPage pml4 writable noExec user m page)
    rw [List.foldl_cons]
    refine ⟨hwalk.trans hwalks, fun t i h => hbits t i ?_, fun t i h => ?_⟩
    · rcases h with h | ⟨q, hq, hpte⟩
      · exact .inl (protectPage_entry page (.inl h))
      · rcases List.mem_cons.1 hq with rfl | hq
        · exact .inl (protectPage_entry q (.inr hpte))
        · exact .inr ⟨q, hq, (hwalk.getPTE pml4 q).trans hpte⟩
    · rw [hother t i fun q hq => ?_, protectPage_other (h page List.mem_cons_self)]
      rw [hwalk.getPTE]
      exact h q (List.mem_cons_of_mem page hq)

end

/-! ## The call -/

def protectEnd (addr length : Nat) : Nat := addr + alignDown pageSize (length + pageSize - 1)

/-- The flags that the call gives to (its part of) area `v`. -/
def newFlags (prot : Nat) (v : Vma) : Flags := { protToVmaFlags prot with anon := v.inode.isNone }

section
variable {addr length prot page : Nat} {s s' : Sys} {r : Except Errno Nat} {i : Fin maxVmas} {list : VmaList}

/-- The call has split area `i`, and the areas are now `list`. -/
structure Accepted (addr length prot : Nat) (p : Process) (i : Fin maxVmas) (list : VmaList) : Prop where
  aligned : addr % pageSize = 0
  nonempty : length ≠ 0
  find : findVma p.vmas addr = some i
  split : splitForProtect p.vmas addr (protectEnd addr length) (newFlags prot (p.vmas i)) = some (true, list)

/-- The call gets so far. -/
def Accepts (addr length : Nat) (p : Process) (i : Fin maxVmas) : Prop :=
  addr % pageSize = 0 ∧ length ≠ 0 ∧ findVma p.vmas addr = some i ∧
    RoomToSplit p.vmas (p.vmas i) addr (protectEnd addr length)

/-- How a call ends. -/
inductive Protecting (addr length prot : Nat) (s : Sys) : Except Errno Nat → Sys → Prop
  | refused {e : Errno} : (∀ i, ¬ Accepts addr length s.proc i) → Protecting addr length prot s (.error e) s
  | late {i : Fin maxVmas} {list : VmaList} : Accepted addr length prot s.proc i list →
      protWrite prot = true ∧ protExec prot = true →
      Protecting addr length prot s (.error .EINVAL) { s with proc.vmas := list }
  | done {i : Fin maxVmas} {list : VmaList} : Accepted addr length prot s.proc i list →
      ¬ (protWrite prot = true ∧ protExec prot = true) →
      Protecting addr length prot s (.ok 0)
        { machine := (pagesOf addr (protectEnd addr length)).foldl
            (protectPage s.proc.pageTable (protWrite prot) (!protExec prot) true) s.machine
          proc := { s.proc with vmas := list } }

theorem sysMprotect_outcome (hr : sysMprotect addr length prot s = some (r, s')) :
    Protecting addr length prot s r s' := by
  unfold sysMprotect at hr
  split at hr
  · next hbad =>
    cases hr
    exact .refused fun i hacc => hbad.elim (· hacc.1) hacc.2.1
  next hgood =>
  rw [not_or, not_not] at hgood
  obtain ⟨len, hlen, hr⟩ := Option.bind_eq_some_iff.1 hr
  obtain ⟨stop, hstop, hr⟩ := Option.bind_eq_some_iff.1 hr
  obtain rfl := addU64_some hstop
  obtain rfl := alignUp_some hlen
  split at hr
  · next hnone =>
    cases hr
    exact .refused fun i hacc => absurd (hnone.symm.trans hacc.2.2.1) nofun
  next i hfind =>
  obtain ⟨⟨b, list⟩, hsplit, hr⟩ := Option.bind_eq_some_iff.1 hr
  simp only at hr
  cases b with
  | false =>
    cases hr
    have hd := splitForProtect_divided hfind hsplit
    have hroom := hd.room.trans roomToSplit_min
    cases hd
    refine .refused fun j hacc => ?_
    cases hfind.symm.trans hacc.2.2.1
    exact absurd (hroom.2 hacc.2.2.2) nofun
  | true =>
    have hacc : Accepted addr length prot s.proc i list := ⟨hgood.1, hgood.2, hfind, hsplit⟩
    rw [Bool.not_true, if_neg Bool.false_ne_true] at hr
    split at hr
    · next hwx =>
      cases hr
      exact .late hacc (by simpa using hwx)
    · next hwx =>
      cases hr
      exact .done hacc (by simpa using hwx)

theorem Accepted.lt (h : Accepted addr length prot s.proc i list) : addr < protectEnd addr length := by
  have hpos : 0 < alignDown pageSize (length + pageSize - 1) :=
    Nat.mul_pos (Nat.div_pos (by have := h.nonempty; omega) (by decide)) (by decide)
  unfold protectEnd
  omega

theorem Accepted.accepts (h : Accepted addr length prot s.proc i list) : Accepts addr length s.proc i :=
  ⟨h.aligned, h.nonempty, h.find, roomToSplit_min.1 ((splitForProtect_divided h.find h.split).room.1 rfl)⟩

theorem mem_pagesOf {start stop : Nat} (h : page ∈ pagesOf start stop) : start ≤ page ∧ page < stop := by
  obtain ⟨k, hk, rfl⟩ := List.mem_map.1 h
  rw [List.mem_range] at hk
  unfold pageSize at *
  omega

/-! ## A refused call -/

/-- A split that succeeds changes the table, unless a whole area has the flags already. -/
theorem Divided.unchanged_iff {a c : Nat} {flags : Flags} {list list' : VmaList}
    (h : Divided a c flags list i true list') (hc : a < c) :
    list' = list ↔ a = (list i).start ∧ c = (list i).stop ∧ (list i).flags = flags := by
  have hne : ∀ v, list' i = v → v.stop < (list i).stop → ¬ list' = list := by
    rintro v rfl hstop rfl
    exact lt_irrefl _ hstop
  cases h with
  | whole hstart hstop =>
    rw [Function.update_eq_self_iff]
    constructor
    · intro heq
      exact ⟨hstart, hstop, (congrArg Vma.flags heq).symm⟩
    · rintro ⟨-, -, rfl⟩
      rfl
  | front hstart hstop _ hji =>
    refine iff_of_false (hne { (list i).left c with flags } ?_ hstop) fun h => by omega
    rw [Function.update_of_ne hji.symm, Function.update_self]
  | back hstart hstop _ hji =>
    have hlt : a < (list i).stop := hc.trans_eq hstop
    refine iff_of_false (hne ((list i).left a) ?_ hlt) fun h => by omega
    rw [Function.update_of_ne hji.symm, Function.update_self]
  | middle hstart hstop _ _ hji hki =>
    refine iff_of_false (hne ((list i).left a) ?_ (hc.trans hstop)) fun h => by omega
    rw [Function.update_of_ne hki.symm, Function.update_of_ne hji.symm, Function.update_self]

/-! ## Protection of a page -/

def FlagsFor (prot : Nat) (fl : Flags) : Prop :=
  fl.read = prot.testBit 0 ∧ fl.write = protWrite prot ∧ fl.exec = protExec prot ∧ fl.user = true

structure Protected (prot : Nat) (s : Sys) (page : Nat) : Prop where
  area : ∃ i, findVma s.proc.vmas page = some i ∧ FlagsFor prot (s.proc.vmas i).flags
  entry : ∀ t i, leafEntry s.machine s.proc.pageTable page = some (t, i) →
    HasBits (protWrite prot) (!protExec prot) true (s.machine.mem t i)

def Atomic (addr length prot : Nat) (s : Sys) : Except Errno Nat → Sys → Prop
  | .error _, s' => s'.proc.vmas = s.proc.vmas ∧ s'.machine = s.machine
  | .ok _, s' => ∀ page ∈ pagesOf addr (protectEnd addr length), Protected prot s' page

/-- Area `i` covers the start of the range. If writing with execution is asked for, the call must find nothing to
change. Otherwise, whatever the range has behind the area, and in larger pages, must have the protection already. -/
structure Uniform (addr length prot : Nat) (s : Sys) (i : Fin maxVmas) : Prop where
  refusal : protWrite prot = true ∧ protExec prot = true →
    addr = (s.proc.vmas i).start ∧ (s.proc.vmas i).stop ≤ protectEnd addr length ∧
      (s.proc.vmas i).flags = newFlags prot (s.proc.vmas i)
  areas : ¬ (protWrite prot = true ∧ protExec prot = true) → ∀ page ∈ pagesOf addr (protectEnd addr length),
    (s.proc.vmas i).stop ≤ page → ∃ k, findVma s.proc.vmas page = some k ∧ FlagsFor prot (s.proc.vmas k).flags
  entries : ¬ (protWrite prot = true ∧ protExec prot = true) → ∀ page ∈ pagesOf addr (protectEnd addr length),
    ∀ t j, leafEntry s.machine s.proc.pageTable page = some (t, j) →
      HasBits (protWrite prot) (!protExec prot) true (s.machine.mem t j) ∨
        ∃ q ∈ pagesOf addr (protectEnd addr length), getPTE s.machine s.proc.pageTable q = some (t, j)

theorem exists_flags_iff {P : Flags → Prop} :
    (∃ k, findVma list page = some k ∧ P (list k).flags) ↔ ∃ x, view backing list page = some x ∧ P x.1 := by
  unfold view
  constructor
  · rintro ⟨k, hk, hP⟩
    rw [hk]
    exact ⟨_, rfl, hP⟩
  · rintro ⟨x, hx, hP⟩
    obtain ⟨k, hk, rfl⟩ := Option.map_eq_some_iff.1 hx
    exact ⟨k, hk, hP⟩

theorem Accepted.areas_iff (h : NoOverlap s.proc.vmas) (hacc : Accepted addr length prot s.proc i list)
    (hpage : page ∈ pagesOf addr (protectEnd addr length)) :
    (∃ k, findVma list page = some k ∧ FlagsFor prot (list k).flags) ↔ ((s.proc.vmas i).stop ≤ page →
      ∃ k, findVma s.proc.vmas page = some k ∧ FlagsFor prot (s.proc.vmas k).flags) := by
  obtain ⟨hlow, hhigh⟩ := mem_pagesOf hpage
  obtain ⟨-, j, hj, hin, hout⟩ := ((splitForProtect_view _ h hacc.lt).2 _ _ hacc.split).2 rfl
  obtain rfl : j = i := by
    have hi := findVma_some hacc.find
    by_contra hne
    exact Set.disjoint_left.1 (h hne) hj hi
  rw [exists_flags_iff]
  by_cases hstop : page < (s.proc.vmas j).stop
  · have hmem : page ∈ (s.proc.vmas j).range := ⟨hj.1, hj.2.1.trans hlow, hstop⟩
    rw [hin page hmem hlow hhigh]
    exact ⟨fun _ hle => absurd hstop (not_lt.2 hle), fun _ => ⟨_, rfl, rfl, rfl, rfl, rfl⟩⟩
  · rw [hout page fun hmem => hstop hmem.1.2.2, ← exists_flags_iff]
    exact ⟨fun hflags _ => hflags, fun hflags => hflags (not_lt.1 hstop)⟩

/-- **`mprotect` is atomic** exactly where it is not asked for writing with execution on areas that it would change, and
where the part of the range that it leaves alone has the protection already. -/
theorem sysMprotect_atomic_iff (h : NoOverlap s.proc.vmas) (hr : sysMprotect addr length prot s = some (r, s')) :
    Atomic addr length prot s r s' ↔ ∀ i, Accepts addr length s.proc i → Uniform addr length prot s i := by
  cases sysMprotect_outcome hr with
  | refused hno => exact ⟨fun _ i hacc => absurd hacc (hno i), fun _ => ⟨rfl, rfl⟩⟩
  | @late i list hacc hwx =>
    have hi := findVma_some hacc.find
    have hd := Divided.unchanged_iff (splitForProtect_divided hacc.find hacc.split) (lt_min hacc.lt hi.2.2)
    have hstop : min (protectEnd addr length) (s.proc.vmas i).stop = (s.proc.vmas i).stop ↔
        (s.proc.vmas i).stop ≤ protectEnd addr length := min_eq_right_iff
    constructor
    · rintro ⟨hlist, -⟩ j hj
      cases hacc.find.symm.trans hj.2.2.1
      obtain ⟨hstart, hend, hflags⟩ := hd.1 hlist
      exact ⟨fun _ => ⟨hstart, hstop.1 hend, hflags⟩, fun hno => absurd hwx hno, fun hno => absurd hwx hno⟩
    · intro hun
      obtain ⟨hstart, hend, hflags⟩ := (hun i hacc.accepts).refusal hwx
      exact ⟨hd.2 ⟨hstart, hstop.2 hend, hflags⟩, rfl⟩
  | @done i list hacc hwx =>
    obtain ⟨hwalks, hbits, hother⟩ := protectPages_entries (pagesOf addr (protectEnd addr length)) s.machine
    constructor
    · intro hall j hj
      cases hacc.find.symm.trans hj.2.2.1
      refine ⟨fun h => absurd h hwx, fun _ page hpage => (hacc.areas_iff h hpage).1 (hall page hpage).area,
        fun _ page hpage t k hleaf => ?_⟩
      by_contra hnot
      rw [not_or] at hnot
      have hentry := (hall page hpage).entry t k ((hwalks.leafEntry ..).trans hleaf)
      refine hnot.1 ?_
      rwa [← hother t k fun q hq hpte => hnot.2 ⟨q, hq, hpte⟩]
    · intro hun page hpage
      have huni := hun i hacc.accepts
      refine ⟨(hacc.areas_iff h hpage).2 (huni.areas hwx page hpage), fun t k hleaf => hbits t k ?_⟩
      exact huni.entries hwx page hpage t k ((hwalks.leafEntry ..).symm.trans hleaf)

end

def fourPagesProcess : Sys := { emptyProcess with proc.vmas := fourPagesTable }

theorem leafEntry_fourPages (page : Nat) :
    leafEntry fourPagesProcess.machine fourPagesProcess.proc.pageTable page = none := by
  have hfollow : follow fourPagesProcess.machine fourPagesProcess.proc.pageTable (pml4Idx page) = none :=
    Space.follow_absent Pte.isPresent_zero
  unfold leafEntry
  rw [hfollow]
  rfl

/-- Two of the four pages become executable. -/
theorem sysMprotect_atomic_fourPages : ∃ s', sysMprotect 0x2000 0x2000 5 fourPagesProcess = some (.ok 0, s') ∧
    ∀ page ∈ pagesOf 0x2000 0x4000, Protected 5 s' page := by
  have hdone : (sysMprotect 0x2000 0x2000 5 fourPagesProcess).map Prod.fst = some (.ok 0) := by decide +kernel
  obtain ⟨⟨r, s'⟩, hr, rfl⟩ := Option.map_eq_some_iff.1 hdone
  have hno : NoOverlap fourPagesProcess.proc.vmas := noOverlap_single fourPages
  refine ⟨s', hr, (sysMprotect_atomic_iff hno hr).2 fun i hacc => ?_⟩
  have hfind : findVma fourPagesTable 0x2000 = some 0 := by decide +kernel
  cases hfind.symm.trans hacc.2.2.1
  refine ⟨fun h => absurd h.1 (by decide), fun _ page hpage hstop => ?_, fun _ page _ t j hleaf => ?_⟩
  · have hlow : page < 0x4000 := (mem_pagesOf hpage).2
    have hhigh : 0x5000 ≤ page := hstop
    omega
  · rw [leafEntry_fourPages] at hleaf
    cases hleaf

/-- A request to write and execute returns `EINVAL` after the area was split; a request that goes on behind the area
returns 0 although the page `0x6000` of the range belongs to no area. -/
theorem sysMprotect_not_atomic :
    (sysMprotect 0x2000 0x1000 7 fourPagesProcess).map (fun r => (r.1, findVma r.2.proc.vmas 0x2000)) =
      some (.error .EINVAL, some 1) ∧
    (sysMprotect 0x2000 0x1000 7 fourPagesProcess).map (fun r => (r.2.proc.vmas 1).flags) =
      some { read := true, write := true, exec := true, user := true } ∧
    findVma fourPagesProcess.proc.vmas 0x2000 = some 0 ∧
    (sysMprotect 0x4000 0x4000 1 fourPagesProcess).map (fun r => (r.1, findVma r.2.proc.vmas 0x6000)) =
      some (.ok 0, none) := by
  decide +kernel

end Zigix.Mmap
