import Zigix.Mm.Backing
import Zigix.Proc.WriteProtect

/-!
# Threads of one address space (`cloneThread` of `kernel/proc/clone.zig`)

A thread shares the page table of its creator and starts with a copy of the areas and of the placement hint; from then
on the copies are independent.

* `cloneThread`; `Group`, `step` : calls and page faults of the threads in any order;
* `threads_agree` : then every thread resolves every fault with the mapping that is in force.
-/

namespace Zigix.Threads

open Pmm (pageSize)
open Vma hiding pageSize
open Vmm Mmap

/-! ## Creating a thread -/

def kernelStackPages : Nat := 64

def rowhammerGuardPages : Nat := 1

def stackCanary : Pte.Word := 0xDEADBEEFCAFEBABE

structure CloneArgs where
  childStack : Nat
  /-- `process.findFreeSlot` returns a slot -/
  slotFree : Bool
  /-- `process.allocPid` -/
  tid : Nat
  /-- the address in `rdx` when `CLONE_PARENT_SETTID` is set and it is not 0 -/
  parentTid : Option Nat

/-- Write the identifier to user memory, if the page is there; a pointer that is not aligned stops the kernel. -/
def setParentTid (pml4 : Nat) (c : CloneArgs) (m : Machine) : Option Machine :=
  match c.parentTid.bind (translate m pml4) with
  | none => some m
  | some phys =>
    if phys % 4 ≠ 0 then none
    else some (Ext2.storeBytes m (phys / pageSize) (phys % pageSize)
      ((List.range 4).map fun k => BitVec.ofNat 8 (c.tid / 2 ^ (8 * k))))

def cloneThread (c : CloneArgs) (parent : Process) (m : Machine) : Option (Except Errno Process × Machine) :=
  if c.childStack = 0 then some (.error .EINVAL, m)
  else if !c.slotFree then some (.error .ENOMEM, m)
  else do
    let (kstack, pmm) ← Pmm.allocPagesGuarded m.pmm kernelStackPages rowhammerGuardPages
    let m := { m with pmm }
    match kstack with
    | none => some (.error .ENOMEM, m)
    | some kstack => do
      let m := m.setWord (kstack / pageSize) 0 stackCanary
      let child : Process :=
        { pageTable := parent.pageTable, heapStart := parent.heapStart, heapCurrent := parent.heapCurrent,
          mmapHint := parent.mmapHint, fds := parent.fds, vmas := parent.vmas }
      some (.ok child, ← setParentTid parent.pageTable c m)

/-! ## A group of threads -/

structure Group where
  machine : Machine
  threads : List Process

/-- What the thread with index `t` does. -/
inductive Event
  | clone (t : Nat) (c : CloneArgs)
  | mmap (t : Nat) (a : MmapArgs)
  | munmap (t addr length : Nat)
  | fault (t addr : Nat) (err : Fault.ErrorCode)

inductive Outcome
  | returned (r : Except Errno Nat)
  | faulted (resolved : Bool)
  deriving DecidableEq

/-- A call of thread `t` that works on its own record. -/
def call (g : Group) (t : Nat) (f : Sys → Result) : Option (Outcome × Group) := do
  let p ← g.threads[t]?
  let (r, s) ← f { machine := g.machine, proc := p }
  some (.returned r, { machine := s.machine, threads := g.threads.set t s.proc })

def step (fs : Fault.FileSystem) (g : Group) : Event → Option (Outcome × Group)
  | .clone t c => do
    let p ← g.threads[t]?
    match ← cloneThread c p g.machine with
    | (.error e, machine) => some (.returned (.error e), { g with machine })
    | (.ok child, machine) => some (.returned (.ok c.tid), { machine, threads := g.threads ++ [child] })
  | .mmap t a => call g t (sysMmap a)
  | .munmap t addr length => call g t (sysMunmap addr length)
  | .fault t addr err => do
    let p ← g.threads[t]?
    let (resolved, machine) ← Fault.resolve fs p addr err g.machine
    some (.faulted resolved, { g with machine })

/-- The mappings in force after an event: what a successful `mmap` asked for, less what a `munmap` named. -/
def track (g : Group) (maps : Mappings) : Event → Outcome → Mappings
  | .mmap t a, .returned (.ok base) =>
    match g.threads[t]? with
    | some p => maps.add (mapping p a base)
    | none => maps
  | .munmap _ addr length, .returned (.ok _) => maps.remove addr (addr + munmapLength length)
  | _, _ => maps

/-- The states that events admitted by `ok` reach from `g₀`, with the mappings in force. -/
inductive Run (fs : Fault.FileSystem) (ok : Group → Mappings → Event → Prop) (g₀ : Group) : Group → Mappings → Prop
  | start : Run fs ok g₀ g₀ fun _ => none
  | next {g g' : Group} {maps : Mappings} {e : Event} {o : Outcome} (h : Run fs ok g₀ g maps) (hok : ok g maps e)
      (hstep : step fs g e = some (o, g')) : Run fs ok g₀ g' (track g maps e o)

def FaultsAgree (fs : Fault.FileSystem) (g : Group) (maps : Mappings) : Prop :=
  ∀ p ∈ g.threads, ∀ x v, maps x = some v → ∀ err m,
    Fault.resolve fs p x err m = Fault.resolve fs { p with vmas := soleArea v } x err m

/-! ## One thread makes the mappings -/

/-- The rules: `mmap` while there is one thread, at free addresses; `munmap` with a slot for what it cuts off. -/
def Meets (floor : Nat) (g : Group) (maps : Mappings) : Event → Prop
  | .mmap t a => ∀ p, g.threads[t]? = some p → accepted p a →
    g.threads.length = 1 ∧ MmapMeets floor p a ∧
      (mapFixed a.flags = true →
        Unmapped maps a.addr (a.addr + mmapLength a) ∧ Room p.vmas a.addr (a.addr + mmapLength a))
  | .munmap t addr length => ∀ p, g.threads[t]? = some p → addr % pageSize = 0 → length ≠ 0 →
    Room p.vmas addr (addr + munmapLength length)
  | .clone _ _ => True
  | .fault _ _ _ => True

/-- What a thread's own copy has to say about the mappings in force. -/
structure Knows (floor root : Nat) (maps : Mappings) (p : Process) : Prop where
  pageTable : p.pageTable = root
  inv : Inv floor p
  backed : Backed maps p.vmas

structure GroupInv (floor root : Nat) (g : Group) (maps : Mappings) : Prop where
  knows : ∀ p ∈ g.threads, Knows floor root maps p
  within : ∀ x v, maps x = some v → x ∈ v.range

section
variable {fs : Fault.FileSystem} {floor root : Nat} {g g' : Group} {maps : Mappings} {o : Outcome}

theorem cloneThread_ok {c : CloneArgs} {p child : Process} {m m' : Machine}
    (h : cloneThread c p m = some (.ok child, m')) : child = p := by
  unfold cloneThread at h
  split at h
  · cases h
  · split at h
    · cases h
    · obtain ⟨⟨kstack, pmm⟩, -, h⟩ := Option.bind_eq_some_iff.1 h
      simp only at h
      split at h
      · cases h
      · obtain ⟨m₁, -, h⟩ := Option.bind_eq_some_iff.1 h
        cases h
        rfl

theorem call_some {t : Nat} {f : Sys → Result} (h : call g t f = some (o, g')) :
    ∃ p r s, g.threads[t]? = some p ∧ f { machine := g.machine, proc := p } = some (r, s) ∧ o = .returned r ∧
      g' = { machine := s.machine, threads := g.threads.set t s.proc } := by
  unfold call at h
  obtain ⟨p, hp, h⟩ := Option.bind_eq_some_iff.1 h
  obtain ⟨⟨r, s⟩, hf, h⟩ := Option.bind_eq_some_iff.1 h
  cases h
  exact ⟨p, r, s, hp, hf, rfl, rfl⟩

theorem GroupInv.set {maps' : Mappings} {t : Nat} {p : Process} {m : Machine} (h : GroupInv floor root g maps)
    (hp : Knows floor root maps' p) (hothers : ∀ q ∈ g.threads, Knows floor root maps q → Knows floor root maps' q)
    (hwithin : ∀ x v, maps' x = some v → x ∈ v.range) :
    GroupInv floor root { machine := m, threads := g.threads.set t p } maps' := by
  refine ⟨fun q hq => ?_, hwithin⟩
  rcases List.mem_or_eq_of_mem_set hq with hq | rfl
  · exact hothers q hq (h.knows q hq)
  · exact hp

theorem mmap_inv {t : Nat} {a : MmapArgs} (h : GroupInv floor root g maps) (hm : Meets floor g maps (.mmap t a))
    (hs : step fs g (.mmap t a) = some (o, g')) :
    GroupInv floor root g' (track g maps (.mmap t a) o) ∧
      ∀ base, o = .returned (.ok base) → Unmapped maps base (base + mmapLength a) := by
  obtain ⟨p, r, s, hp, hcall, rfl, rfl⟩ := call_some hs
  have hmem : p ∈ g.threads := List.mem_of_getElem? hp
  have hknows := h.knows p hmem
  have hareas := sysMmap_areas hcall
  have hspec := sysMmap_spec hknows.inv (fun hacc => (hm p hp hacc).2.1) hcall
  have hback := hareas.backed hknows.inv.noOverlap hknows.backed fun hacc => (hm p hp hacc).2.2
  cases r with
  | error e =>
    have hroot : s.proc.pageTable = root := by
      rw [← hknows.pageTable]
      cases hareas with
      | rejected _ hrej => rfl
      | failed _ _ hacc hclear hroot => exact hroot
    exact ⟨h.set ⟨hroot, hspec.inv, hback.1 e rfl⟩ (fun _ _ hq => hq) h.within, nofun⟩
  | ok base =>
    have htrack : track g maps (.mmap t a) (.returned (.ok base)) = maps.add (mapping p a base) := by
      simp only [track, hp]
    cases hareas with
    | mapped _ _ list v hacc hclear hplace hrange hmap hfix hroot =>
      obtain ⟨hone, hmeets, hfixed⟩ := hm p hp hacc
      obtain ⟨q, hq⟩ := List.length_eq_one_iff.1 hone
      rw [htrack]
      refine ⟨⟨fun q' hq' => ?_, fun x w hx => ?_⟩, fun b hb => ?_⟩
      · -- the caller is the only thread
        have hq' : q' = s.proc := by
          rcases List.mem_or_eq_of_mem_set hq' with hin | heq
          · have ht : t = 0 := by
              have := (List.getElem?_eq_some_iff.1 hp).1
              omega
            subst ht
            have hset : g.threads.set 0 s.proc = [s.proc] := by
              rw [hq]
              rfl
            have hq' : q' ∈ g.threads.set 0 s.proc := hq'
            rw [hset] at hq'
            exact List.mem_singleton.1 hq'
          · exact heq
        rw [hq']
        exact ⟨hroot.trans hknows.pageTable, hspec.inv, hback.2 base rfl⟩
      · rcases Mappings.add_some hx with ⟨rfl, hlo, hhi⟩ | hx
        · exact ⟨rfl, hlo, hhi⟩
        · exact h.within x w hx
      · cases hb
        by_cases hf : mapFixed a.flags = true
        · rw [hfix hf]
          exact (hfixed hf).1
        · intro x w hx hin
          obtain ⟨i, hi, -⟩ := hknows.backed x w hx
          have hfree := hspec.free (by simpa using hf) base rfl
          exact Set.disjoint_left.1 hfree hin (Slots.mem_covered.2 ⟨i, hi⟩)

theorem munmap_inv {t addr length : Nat} (h : GroupInv floor root g maps)
    (hm : Meets floor g maps (.munmap t addr length)) (hs : step fs g (.munmap t addr length) = some (o, g')) :
    GroupInv floor root g' (track g maps (.munmap t addr length) o) := by
  obtain ⟨p, r, s, hp, hcall, rfl, rfl⟩ := call_some hs
  have hknows := h.knows p (List.mem_of_getElem? hp)
  have hinv := sysMunmap_inv hknows.inv hcall
  rcases sysMunmap_backed hknows.inv.noOverlap hknows.backed (hm p hp) hcall with
    ⟨rfl, rfl⟩ | ⟨rfl, hback, hroot⟩
  · exact h.set hknows (fun _ _ hq => hq) h.within
  · refine h.set ⟨hroot.trans hknows.pageTable, hinv, hback⟩ (fun q _ hq => ?_) fun x v hx => ?_
    · exact ⟨hq.pageTable, hq.inv, hq.backed.mono fun x v => Mappings.remove_le⟩
    · exact h.within x v (Mappings.remove_le hx)

theorem step_inv {e : Event} (h : GroupInv floor root g maps) (hm : Meets floor g maps e)
    (hs : step fs g e = some (o, g')) : GroupInv floor root g' (track g maps e o) := by
  cases e with
  | mmap t a => exact (mmap_inv h hm hs).1
  | munmap t addr length => exact munmap_inv h hm hs
  | clone t c =>
    obtain ⟨p, hp, hs⟩ := Option.bind_eq_some_iff.1 hs
    obtain ⟨⟨r, m⟩, hclone, hs⟩ := Option.bind_eq_some_iff.1 hs
    cases r with
    | error e =>
      cases hs
      exact ⟨h.knows, h.within⟩
    | ok child =>
      cases hs
      obtain rfl := cloneThread_ok hclone
      refine ⟨fun q hq => ?_, h.within⟩
      rcases List.mem_append.1 hq with hq | hq
      · exact h.knows q hq
      · rw [List.mem_singleton.1 hq]
        exact h.knows child (List.mem_of_getElem? hp)
  | fault t addr err =>
    obtain ⟨p, -, hs⟩ := Option.bind_eq_some_iff.1 hs
    obtain ⟨⟨resolved, m⟩, -, hs⟩ := Option.bind_eq_some_iff.1 hs
    cases hs
    exact ⟨h.knows, h.within⟩

theorem run_inv {g₀ : Group} (h₀ : GroupInv floor root g₀ fun _ => none) (hrun : Run fs (Meets floor) g₀ g maps) :
    GroupInv floor root g maps := by
  induction hrun with
  | start => exact h₀
  | next _ hok hstep ih => exact step_inv ih hok hstep

theorem GroupInv.faultsAgree (h : GroupInv floor root g maps) : FaultsAgree fs g maps := by
  intro p hp x v hx err m
  obtain ⟨i, hi, hback⟩ := (h.knows p hp).backed x v hx
  exact resolve_of_backs fs (h.knows p hp).inv.noOverlap hi (h.within x v hx) hback err m

end

/-- **Threads agree** on their address space in every run whose events keep to the rules: every thread resolves a
fault on a mapped address with the mapping made there, and a further `mmap` gets addresses that are not mapped. -/
theorem threads_agree (fs : Fault.FileSystem) {floor : Nat} {p : Process} {m : Machine} (h : Inv floor p) {g : Group}
    {maps : Mappings} (hrun : Run fs (Meets floor) { machine := m, threads := [p] } g maps) :
    (∀ q ∈ g.threads, q.pageTable = p.pageTable) ∧ FaultsAgree fs g maps ∧
      ∀ t a base g', Meets floor g maps (.mmap t a) → step fs g (.mmap t a) = some (.returned (.ok base), g') →
        Unmapped maps base (base + mmapLength a) := by
  have h₀ : GroupInv floor p.pageTable { machine := m, threads := [p] } fun _ => none := by
    refine ⟨fun q hq => ?_, nofun⟩
    rw [List.mem_singleton.1 hq]
    exact ⟨rfl, h, nofun⟩
  have hinv := run_inv h₀ hrun
  refine ⟨fun q hq => (hinv.knows q hq).pageTable, hinv.faultsAgree, fun t a base g' hmeets hs => ?_⟩
  exact (mmap_inv hinv hmeets hs).2 base rfl

/-! ## Two threads -/

def roomy : Machine where
  pmm :=
    { bitmap := fun byte => if 65 ≤ byte ∧ byte < 81 then 255 else 0
      totalPages := 648
      freePageCount := 128
      highestPhys := 648 * pageSize
      refCounts := fun _ => 0
      nextFreeHint := 520 }
  mem := fun _ _ => 0
  cache := []

/-- One thread without areas. -/
def single : Group := { machine := roomy, threads := [emptyProcess.proc] }

def newThread : CloneArgs := { childStack := 0x7fff0000, slotFree := true, tid := 2, parentTid := none }

def readFault : Fault.ErrorCode := { present := false, write := false, user := true }

def runEvents (fs : Fault.FileSystem) : Group → Mappings → List Event → Option (Group × Mappings)
  | g, maps, [] => some (g, maps)
  | g, maps, e :: es => do
    let (o, g') ← step fs g e
    runEvents fs g' (track g maps e o) es

theorem run_of_runEvents {fs : Fault.FileSystem} {g₀ g g' : Group} {maps maps' : Mappings} {es : List Event}
    (h : Run fs (fun _ _ _ => True) g₀ g maps) (hes : runEvents fs g maps es = some (g', maps')) :
    Run fs (fun _ _ _ => True) g₀ g' maps' := by
  induction es generalizing g maps with
  | nil =>
    cases hes
    exact h
  | cons e es ih =>
    obtain ⟨⟨o, g₁⟩, hstep, hes⟩ := Option.bind_eq_some_iff.1 hes
    exact ih (h.next trivial hstep) hes

/-- The page that `anyPage` is given first. -/
def firstPage : Nat := 0x6ffffffff000

/-- Whether thread `t` resolves a fault on `firstPage`. -/
def resolves (g : Group) (t : Nat) : Option Bool :=
  g.threads[t]?.bind fun p => (Fault.resolve System.noFiles p firstPage readFault g.machine).map Prod.fst

theorem single_inv : Inv 0x100000000 emptyProcess.proc := by
  refine ⟨noOverlap_empty, ?_⟩
  rw [covered_empty]
  exact Set.disjoint_empty _

/-- A page mapped first, then the second thread: both resolve a fault on it with the mapping. -/
theorem threads_agree_cloned : ∃ g maps, Run System.noFiles (Meets 0x100000000) single g maps ∧
    g.threads.length = 2 ∧ (maps firstPage).isSome = true ∧ FaultsAgree System.noFiles g maps := by
  have h₁ : (step System.noFiles single (.mmap 0 anyPage)).isSome = true := by decide +kernel
  obtain ⟨⟨o₁, g₁⟩, hs₁⟩ := Option.isSome_iff_exists.1 h₁
  have h₂ : ((step System.noFiles single (.mmap 0 anyPage)).bind fun r =>
      (step System.noFiles r.2 (.clone 0 newThread)).map fun r' => (r.1, r'.2.threads.length)) =
      some (.returned (.ok firstPage), 2) := by decide +kernel
  rw [hs₁, Option.bind_some] at h₂
  obtain ⟨⟨o₂, g₂⟩, hs₂, hobs⟩ := Option.map_eq_some_iff.1 h₂
  obtain ⟨ho₁, hlen⟩ := Prod.mk.inj hobs
  have hmeets : Meets 0x100000000 single (fun _ => none) (.mmap 0 anyPage) := by
    intro p hp _
    have hp : emptyProcess.proc = p := Option.some.inj hp
    subst hp
    exact ⟨rfl, ⟨nofun, nofun, fun _ => by decide⟩, nofun⟩
  have hclone : Meets 0x100000000 g₁ (track single (fun _ => none) (.mmap 0 anyPage) o₁) (.clone 0 newThread) := trivial
  have hrun := (Run.start.next hmeets hs₁).next hclone hs₂
  refine ⟨g₂, _, hrun, hlen, ?_, (threads_agree System.noFiles single_inv hrun).2.1⟩
  have ho₁ : o₁ = .returned (.ok firstPage) := ho₁
  rw [ho₁]
  have hadd : (track single (fun _ => none) (.mmap 0 anyPage) (.returned (.ok firstPage)) firstPage).isSome = true := by
    decide +kernel
  exact hadd

/-- The second thread first, then the page: the second thread is given the same page, and does not resolve a fault on
it. -/
theorem threads_disagree : ∃ g maps, Run System.noFiles (fun _ _ _ => True) single g maps ∧
    (∃ g', step System.noFiles g (.mmap 1 anyPage) = some (.returned (.ok firstPage), g') ∧
      ¬ Unmapped maps firstPage (firstPage + mmapLength anyPage)) ∧
    ¬ FaultsAgree System.noFiles g maps := by
  let v := mapping emptyProcess.proc anyPage firstPage
  have hobs : (runEvents System.noFiles single (fun _ => none) [.clone 0 newThread, .mmap 0 anyPage]).map
      (fun r => (r.2 firstPage, (step System.noFiles r.1 (.mmap 1 anyPage)).map Prod.fst, resolves r.1 1,
        r.1.threads[1]?.bind fun p => (Fault.resolve System.noFiles { p with vmas := soleArea v } firstPage readFault
          r.1.machine).map Prod.fst)) =
      some (some v, some (.returned (.ok firstPage)), some false, some true) := by decide +kernel
  obtain ⟨⟨g, maps⟩, hrun, hr⟩ := Option.map_eq_some_iff.1 hobs
  obtain ⟨hmap, hr⟩ := Prod.mk.inj hr
  obtain ⟨hnext, hr⟩ := Prod.mk.inj hr
  obtain ⟨hfault, hsole⟩ := Prod.mk.inj hr
  obtain ⟨⟨o, g'⟩, hstep, ho⟩ := Option.map_eq_some_iff.1 hnext
  have ho : o = .returned (.ok firstPage) := ho
  subst ho
  refine ⟨g, maps, run_of_runEvents .start hrun, ⟨g', hstep, fun hun => ?_⟩, fun hagree => ?_⟩
  · exact hun firstPage v hmap ⟨le_rfl, by decide +kernel⟩
  · obtain ⟨p, hp, hfault⟩ := Option.bind_eq_some_iff.1 hfault
    rw [hp, Option.bind_some, ← hagree p (List.mem_of_getElem? hp) firstPage v hmap, hfault] at hsole
    cases hsole

end Zigix.Threads
