import Mathlib.Logic.Function.Iterate
import Zigix.Lib.Chains
import Zigix.Mm.Cow
import Zigix.Proc.Clone

/-!
# What a failed fork leaves behind (`cloneFork` of `kernel/proc/clone.zig`)

`cloneFork` takes a process slot first, then a kernel stack, an address space and the pages of the parent. The error
returns give back the frames; none of them gives back the slot, and nobody else does.

* `SlotTable` : the free list of `kernel/proc/process.zig`, with `findFreeSlot`, `initSlot` and `clearSlot`;
* `failed_fork_iff` : it leaves that when there was no slot to take, and never otherwise;
* `Lost.run` : a slot that was lost is not found again.
-/

namespace Zigix.ForkFailure

open Chains

/-! ## Process slots -/

def maxProcesses : Nat := 256

structure SlotTable where
  /-- `slot_in_use` -/
  inUse : Nat → Bool
  freeNext : Nat → Option Nat
  freeHead : Option Nat
  /-- `free_list_initialized` -/
  initialized : Bool

/-- The slot `i` put in front of the free list. -/
def pushFree (t : SlotTable) (i : Nat) : SlotTable :=
  { t with freeNext := Function.update t.freeNext i t.freeHead, freeHead := some i }

def initProcessTable (t : SlotTable) : SlotTable :=
  { (List.range maxProcesses).reverse.foldl (fun t i => if t.inUse i then t else pushFree t i) t with
    initialized := true }

def findFreeSlot (t : SlotTable) : Option Nat × SlotTable :=
  let t := if t.initialized then t else initProcessTable t
  match t.freeHead with
  | some idx =>
    (some idx, { t with freeHead := t.freeNext idx, freeNext := Function.update t.freeNext idx none })
  | none => (none, t)

def initSlot (t : SlotTable) (idx : Nat) : SlotTable := { t with inUse := Function.update t.inUse idx true }

def clearSlot (t : SlotTable) (idx : Nat) : SlotTable :=
  if idx < maxProcesses then pushFree { t with inUse := Function.update t.inUse idx false } idx else t

/-! ## `cloneFork` -/

def kernelStackPages : Nat := 64

def stackCanary : Pte.Word := 0xDEADBEEFCAFEBABE#64

structure State where
  machine : Machine
  slots : SlotTable

/-- The loop that frees the kernel stack at frame `kstack`. -/
def freeKernelStack (m : Machine) (kstack : Nat) : Machine :=
  (List.range kernelStackPages).foldl (fun m p => m.freePage (kstack + p)) m

/-- `-ENOMEM`, or the slot and the page table of the child. -/
def cloneFork (kernelPml4 parent : Nat) (s : State) : Option (Nat × Nat) × State :=
  match findFreeSlot s.slots with
  | (none, slots) => (none, { s with slots })
  | (some idx, slots) =>
    match Pmm.allocPages s.machine.pmm kernelStackPages with
    | (none, pmm) => (none, { machine := { s.machine with pmm }, slots })
    | (some phys, pmm) =>
      let kstack := phys / Pmm.pageSize
      let m := ({ s.machine with pmm } : Machine).setWord kstack 0 stackCanary
      match Vmm.createAddressSpace m kernelPml4 with
      | (none, m) => (none, { machine := freeKernelStack m kstack, slots })
      | (some child, m) =>
        match Clone.cowCopyUserPages parent child m with
        | (false, m) => (none, { machine := freeKernelStack (Vmm.destroyAddressSpace m child) kstack, slots })
        | (true, m) => (some (idx, child), { machine := m, slots := initSlot slots idx })

/-- `findFreeSlot` finds the slot, after some number of other calls. -/
def Available (t : SlotTable) (idx : Nat) : Prop := ∃ n, (findFreeSlot ((fun t => (findFreeSlot t).2)^[n] t)).1 = some idx

/-- What a failed fork of the address space `parent` should leave of the state `s`. -/
structure NoTrace (parent : Nat) (s s' : State) : Prop where
  refCounts : s'.machine.pmm.refCounts = s.machine.pmm.refCounts
  free : ∀ p, s'.machine.pmm.isFree p = s.machine.pmm.isFree p
  freeCount : s'.machine.pmm.freePageCount = s.machine.pmm.freePageCount
  writes : ∀ virt b, (Fault.userWrite parent virt b s.machine).1 = true →
    (Fault.userWrite parent virt b s'.machine).1 = true
  slot : ∀ idx, (findFreeSlot s.slots).1 = some idx → Available s'.slots idx

/-! ## Runs of the slot table -/

inductive Event
  /-- a process is created; `kept` tells whether the creator uses the slot that it found -/
  | create (kept : Bool)
  /-- `sysWait4` reaps the process in a slot -/
  | clear (idx : Nat)

def step (t : SlotTable) : Event → Option SlotTable
  | .create kept =>
    match findFreeSlot t with
    | (none, t) => some t
    | (some idx, t) => some (if kept then initSlot t idx else t)
  | .clear idx => if t.inUse idx then some (clearSlot t idx) else none

def blank : SlotTable where
  inUse _ := false
  freeNext _ := none
  freeHead := none
  initialized := false

inductive Run (t : SlotTable) : SlotTable → Prop
  | refl : Run t t
  | step {u v : SlotTable} {e : Event} : Run t u → step u e = some v → Run t v

def Reached : SlotTable → Prop := Run (initProcessTable blank)

/-! ## The free list -/

structure Ok (t : SlotTable) (L : List Nat) : Prop where
  chain : Seg (fun o => o.bind t.freeNext) t.freeHead (L.map some) none
  nodup : L.Nodup
  unused : ∀ i ∈ L, t.inUse i = false

section FreeList
variable {t u : SlotTable} {L : List Nat} {i idx : Nat}

theorem Ok.push (h : Ok t L) (hi : i ∉ L) (huse : t.inUse i = false) : Ok (pushFree t i) (i :: L) where
  chain := by
    have hnext : (pushFree t i).freeNext i = t.freeHead := Function.update_self ..
    refine ⟨rfl, ?_⟩
    dsimp only [Option.bind_some]
    rw [hnext]
    refine h.chain.congr fun o ho => ?_
    obtain ⟨j, hj, rfl⟩ := List.mem_map.1 ho
    exact Function.update_of_ne (ne_of_mem_of_not_mem hj hi) ..
  nodup := List.nodup_cons.2 ⟨hi, h.nodup⟩
  unused j hj := by
    rcases List.mem_cons.1 hj with rfl | hj
    · exact huse
    · exact h.unused j hj

theorem Ok.find (h : Ok t (idx :: L)) (hinit : t.initialized = true) :
    (findFreeSlot t).1 = some idx ∧ Ok (findFreeSlot t).2 L ∧ (findFreeSlot t).2.inUse = t.inUse ∧
      (findFreeSlot t).2.initialized = true := by
  obtain ⟨hhead, hchain⟩ := h.chain
  obtain ⟨hnot, hnd⟩ := List.nodup_cons.1 h.nodup
  have heq : findFreeSlot t = (some idx, { t with
      freeHead := t.freeNext idx, freeNext := Function.update t.freeNext idx none }) := by
    unfold findFreeSlot
    rw [if_pos hinit]
    dsimp only
    rw [hhead]
  rw [heq]
  refine ⟨rfl, ⟨?_, hnd, fun j hj => h.unused j (List.mem_cons_of_mem _ hj)⟩, rfl, hinit⟩
  have hrest : Seg (fun o => o.bind t.freeNext) (t.freeNext idx) (L.map some) none := hchain
  refine hrest.congr fun o ho => ?_
  obtain ⟨j, hj, rfl⟩ := List.mem_map.1 ho
  exact Function.update_of_ne (ne_of_mem_of_not_mem hj hnot) ..

theorem Ok.find_nil (h : Ok t []) (hinit : t.initialized = true) : findFreeSlot t = (none, t) := by
  have hhead : t.freeHead = none := h.chain
  unfold findFreeSlot
  rw [if_pos hinit]
  dsimp only
  rw [hhead]

theorem Ok.head_eq_none_iff (h : Ok t L) : t.freeHead = none ↔ L = [] := by
  cases L with
  | nil => exact iff_of_true h.chain rfl
  | cons i L =>
    refine iff_of_false (fun hnone => ?_) (List.cons_ne_nil i L)
    rw [h.chain.1] at hnone
    cases hnone

theorem Ok.available_iff (h : Ok t L) (hinit : t.initialized = true) : Available t idx ↔ idx ∈ L := by
  induction L generalizing t with
  | nil =>
    have hnil := h.find_nil hinit
    refine iff_of_false ?_ List.not_mem_nil
    rintro ⟨n, hn⟩
    have hfix : (fun t => (findFreeSlot t).2)^[n] t = t := Function.iterate_fixed (congrArg Prod.snd hnil) n
    rw [hfix, hnil] at hn
    cases hn
  | cons i L ih =>
    obtain ⟨hfound, hok, -, hinit'⟩ := h.find hinit
    have hrest := ih hok hinit'
    rw [List.mem_cons, ← hrest]
    constructor
    · rintro ⟨n, hn⟩
      cases n with
      | zero => exact .inl (Option.some.inj (hn.symm.trans hfound))
      | succ n => exact .inr ⟨n, hn⟩
    · rintro (rfl | ⟨n, hn⟩)
      · exact ⟨0, hfound⟩
      · exact ⟨n + 1, hn⟩

/-! ## The invariant -/

theorem push_all {is : List Nat} (h : Ok t L) (hnd : is.Nodup) (hnot : ∀ i ∈ is, i ∉ L)
    (huse : ∀ i, t.inUse i = false) :
    Ok (is.foldl (fun t i => if t.inUse i then t else pushFree t i) t) (is.reverse ++ L) := by
  induction is generalizing t L with
  | nil => exact h
  | cons i is ih =>
    obtain ⟨hi, hnd⟩ := List.nodup_cons.1 hnd
    have hstep := ih (h.push (hnot i List.mem_cons_self) (huse i)) hnd (fun j hj hm => ?_) huse
    · rw [List.foldl_cons, if_neg (by simp [huse i]), List.reverse_cons, List.append_assoc]
      exact hstep
    · rcases List.mem_cons.1 hm with rfl | hm
      · exact hi hj
      · exact hnot j (List.mem_cons_of_mem _ hj) hm

theorem boot_ok : Ok (initProcessTable blank) (List.range maxProcesses) := by
  have hblank : Ok blank [] := ⟨rfl, List.nodup_nil, fun _ hi => absurd hi List.not_mem_nil⟩
  have hnd : (List.range maxProcesses).reverse.Nodup := List.nodup_reverse.2 List.nodup_range
  have h := push_all hblank hnd (fun _ _ => List.not_mem_nil) fun _ => rfl
  rw [List.reverse_reverse, List.append_nil] at h
  unfold initProcessTable
  generalize List.foldl _ blank (List.range maxProcesses).reverse = t at h ⊢
  exact ⟨h.chain, h.nodup, h.unused⟩

theorem Ok.initSlot (h : Ok t L) (hi : i ∉ L) : Ok (initSlot t i) L where
  chain := h.chain
  nodup := h.nodup
  unused j hj := (Function.update_of_ne (ne_of_mem_of_not_mem hj hi) ..).trans (h.unused j hj)

theorem Ok.clearSlot (h : Ok t L) (hi : t.inUse i = true) : ∃ L', Ok (clearSlot t i) L' ∧ ∀ j ∈ L', j = i ∨ j ∈ L := by
  have hnot : i ∉ L := fun hm => Bool.false_ne_true ((h.unused i hm).symm.trans hi)
  unfold ForkFailure.clearSlot
  split
  · have hcleared : Ok { t with inUse := Function.update t.inUse i false } L :=
      ⟨h.chain, h.nodup, fun j hj => (Function.update_of_ne (ne_of_mem_of_not_mem hj hnot) ..).trans (h.unused j hj)⟩
    exact ⟨_, hcleared.push hnot (Function.update_self ..), fun j hj => List.mem_cons.1 hj⟩
  · exact ⟨L, h, fun _ => .inr⟩

theorem Ok.step {e : Event} (h : Ok t L) (hinit : t.initialized = true) (hs : step t e = some u) :
    ∃ L', Ok u L' ∧ u.initialized = true ∧ ∀ j, j ∉ L → t.inUse j = false → j ∉ L' ∧ u.inUse j = false := by
  cases e with
  | create kept =>
    cases L with
    | nil =>
      rw [ForkFailure.step, h.find_nil hinit] at hs
      cases hs
      exact ⟨[], h, hinit, fun j hj huse => ⟨hj, huse⟩⟩
    | cons i L =>
      obtain ⟨hfound, hok, huse, hinit'⟩ := h.find hinit
      have hi : i ∉ L := (List.nodup_cons.1 h.nodup).1
      rw [ForkFailure.step] at hs
      rcases hf : findFreeSlot t with ⟨o, t'⟩
      rw [hf] at hs hfound hok huse hinit'
      cases hfound
      cases hs
      cases kept with
      | false => exact ⟨L, hok, hinit', fun j hj hu => ⟨fun hm => hj (List.mem_cons_of_mem _ hm), huse ▸ hu⟩⟩
      | true =>
        refine ⟨L, hok.initSlot hi, hinit', fun j hj hu => ⟨fun hm => hj (List.mem_cons_of_mem _ hm), ?_⟩⟩
        have hne : j ≠ i := fun he => hj (he ▸ List.mem_cons_self)
        exact (Function.update_of_ne hne ..).trans (huse ▸ hu)
  | clear i =>
    rw [ForkFailure.step] at hs
    split at hs
    · next hi =>
      cases hs
      obtain ⟨L', hok, hsub⟩ := h.clearSlot hi
      refine ⟨L', hok, ?_, fun j hj hu => ?_⟩
      · unfold ForkFailure.clearSlot
        split
        · exact hinit
        · exact hinit
      · have hne : j ≠ i := fun he => Bool.false_ne_true (hu.symm.trans (he ▸ hi))
        refine ⟨fun hm => (hsub j hm).elim hne hj, ?_⟩
        unfold ForkFailure.clearSlot
        split
        · exact (Function.update_of_ne hne ..).trans hu
        · exact hu
    · cases hs

theorem Reached.ok (h : Reached t) : (∃ L, Ok t L) ∧ t.initialized = true := by
  induction h with
  | refl => exact ⟨⟨_, boot_ok⟩, rfl⟩
  | step _ hs ih =>
    obtain ⟨⟨L, hok⟩, hinit⟩ := ih
    obtain ⟨L', hok', hinit', -⟩ := hok.step hinit hs
    exact ⟨⟨L', hok'⟩, hinit'⟩

/-- Neither free nor in use. -/
def Lost (t : SlotTable) (idx : Nat) : Prop := ¬ Available t idx ∧ t.inUse idx = false

/-- A lost slot stays lost, whatever processes are created and reaped. -/
theorem Lost.run (h : Reached t) (hlost : Lost t idx) (hrun : Run t u) : Lost u idx := by
  obtain ⟨⟨L, hok⟩, hinit⟩ := h.ok
  have hrest : ∃ L', Ok u L' ∧ u.initialized = true ∧ idx ∉ L' ∧ u.inUse idx = false := by
    induction hrun with
    | refl => exact ⟨L, hok, hinit, fun hm => hlost.1 ((hok.available_iff hinit).2 hm), hlost.2⟩
    | step _ hs ih =>
      obtain ⟨L₁, hok₁, hinit₁, hnot₁, huse₁⟩ := ih
      obtain ⟨L₂, hok₂, hinit₂, hkeep⟩ := hok₁.step hinit₁ hs
      exact ⟨L₂, hok₂, hinit₂, hkeep idx hnot₁ huse₁⟩
  obtain ⟨L', hok', hinit', hnot, huse⟩ := hrest
  exact ⟨fun ha => hnot ((hok'.available_iff hinit').1 ha), huse⟩

end FreeList

/-! ## The failed call -/

section Fork
variable {kernelPml4 parent : Nat} {s : State}

theorem cloneFork_full (h : (findFreeSlot s.slots).1 = none) :
    cloneFork kernelPml4 parent s = (none, { s with slots := (findFreeSlot s.slots).2 }) := by
  unfold cloneFork
  rcases hf : findFreeSlot s.slots with ⟨o, t⟩
  rw [hf] at h
  cases h
  rfl

theorem slots_of_failed (h : (cloneFork kernelPml4 parent s).1 = none) :
    (cloneFork kernelPml4 parent s).2.slots = (findFreeSlot s.slots).2 := by
  unfold cloneFork at h ⊢
  rcases hf : findFreeSlot s.slots with ⟨- | idx, t⟩
  · rfl
  · rw [hf] at h
    dsimp only at h ⊢
    rcases hk : Pmm.allocPages s.machine.pmm kernelStackPages with ⟨- | phys, pmm⟩
    · rfl
    · rw [hk] at h
      dsimp only at h ⊢
      rcases hc : Vmm.createAddressSpace (({ s.machine with pmm } : Machine).setWord (phys / Pmm.pageSize) 0 stackCanary)
        kernelPml4 with ⟨- | child, m⟩
      · rfl
      · rw [hc] at h
        dsimp only at h ⊢
        rcases hcow : Clone.cowCopyUserPages parent child m with ⟨- | -, m'⟩
        · rfl
        · rw [hcow] at h
          cases h

theorem lost_of_failed {idx : Nat} (hr : Reached s.slots) (h : (cloneFork kernelPml4 parent s).1 = none)
    (hidx : (findFreeSlot s.slots).1 = some idx) : Lost (cloneFork kernelPml4 parent s).2.slots idx := by
  obtain ⟨⟨L, hok⟩, hinit⟩ := hr.ok
  rw [slots_of_failed h]
  cases L with
  | nil =>
    rw [hok.find_nil hinit] at hidx
    cases hidx
  | cons i L =>
    obtain ⟨hfound, hok', huse, hinit'⟩ := hok.find hinit
    obtain rfl := Option.some.inj (hfound.symm.trans hidx)
    refine ⟨fun ha => (List.nodup_cons.1 hok.nodup).1 ((hok'.available_iff hinit').1 ha), ?_⟩
    rw [huse]
    exact hok.unused i List.mem_cons_self

/-- **Failed forks.** A failed call leaves no trace when the table was full, and only then. -/
theorem failed_fork_iff (hr : Reached s.slots) (h : (cloneFork kernelPml4 parent s).1 = none) :
    NoTrace parent s (cloneFork kernelPml4 parent s).2 ↔ s.slots.freeHead = none := by
  obtain ⟨⟨L, hok⟩, hinit⟩ := hr.ok
  rw [hok.head_eq_none_iff]
  constructor
  · intro ht
    cases L with
    | nil => rfl
    | cons i L =>
      have hfound := (hok.find hinit).1
      exact absurd (ht.slot i hfound) (lost_of_failed hr h hfound).1
  · rintro rfl
    have hnil := hok.find_nil hinit
    have hsame : (cloneFork kernelPml4 parent s).2 = s := by
      rw [cloneFork_full (congrArg Prod.fst hnil), hnil]
    rw [hsame]
    refine ⟨rfl, fun _ => rfl, rfl, fun _ _ hw => hw, fun idx hidx => ?_⟩
    rw [hnil] at hidx
    cases hidx

/-- **A failed fork loses its slot** for good: whatever processes are created and reaped afterwards, the slot is not found again. -/
theorem failed_fork_leaks {idx : Nat} {u : SlotTable} (hr : Reached s.slots) (h : (cloneFork kernelPml4 parent s).1 = none)
    (hidx : (findFreeSlot s.slots).1 = some idx) (hrun : Run (cloneFork kernelPml4 parent s).2.slots u) : Lost u idx := by
  have hstep : step s.slots (.create false) = some (cloneFork kernelPml4 parent s).2.slots := by
    rw [slots_of_failed h]
    unfold step
    rcases findFreeSlot s.slots with ⟨- | _, t⟩ <;> rfl
  exact (lost_of_failed hr h hidx).run (hr.step hstep) hrun

end Fork

/-- The booted kernel with sixteen free pages: too few for a kernel stack. -/
def bootState : State := { machine := .boot, slots := initProcessTable blank }

theorem bootState_reached : Reached bootState.slots := Run.refl

theorem bootState_fails : (cloneFork 0 5 bootState).1 = none ∧ (findFreeSlot bootState.slots).1 = some 0 := by
  have hfind : (findFreeSlot bootState.slots).1 = some 0 := (boot_ok.find rfl).1
  refine ⟨?_, hfind⟩
  unfold cloneFork
  rcases hf : findFreeSlot bootState.slots with ⟨o, t⟩
  rw [hf] at hfind
  cases hfind
  rfl

theorem failed_fork_iff_boot : Reached bootState.slots ∧ (cloneFork 0 5 bootState).1 = none ∧
    (NoTrace 5 bootState (cloneFork 0 5 bootState).2 ↔ bootState.slots.freeHead = none) :=
  ⟨bootState_reached, bootState_fails.1, failed_fork_iff bootState_reached bootState_fails.1⟩

theorem failed_fork_leaks_boot : Lost (cloneFork 0 5 bootState).2.slots 0 :=
  failed_fork_leaks bootState_reached bootState_fails.1 bootState_fails.2 .refl

/-- The first fork of that kernel fails and takes slot 0 with it. -/
theorem failed_fork_loses_slot : Reached bootState.slots ∧ (cloneFork 0 5 bootState).1 = none ∧
    ¬ NoTrace 5 bootState (cloneFork 0 5 bootState).2 :=
  ⟨bootState_reached, bootState_fails.1, fun ht =>
    (lost_of_failed bootState_reached bootState_fails.1 bootState_fails.2).1 (ht.slot 0 bootState_fails.2)⟩

end Zigix.ForkFailure
