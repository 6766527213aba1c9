import Zigix.Proc.ForkIsolation
import Zigix.Proc.FutexQueue

/-!
# Waiting for a word that other threads write (`kernel/proc/futex.zig`, `handleCow` of `kernel/mm/fault.zig`)

Processes with page tables, which threads share: they wait for words in user memory, write, fork and wake. A process that
sleeps in `futexWait` makes the call again when it is woken.

* `walk_userWrite`, `forkSpace_spec` : which pages move;
* `waiters_found` : then every waiter is found by a wake-up of its own address space, and leaves once woken.

The words are in user memory; a store is a store of one byte.
-/

namespace Zigix.Futex

open Forest Pmm Pte Vmm Space Fault Clone

/-! ## Steps -/

def readWord (m : Machine) (phys : Nat) : BitVec 32 :=
  let byte := fun k => Machine.pageByte (m.mem (phys / pageSize)) (phys % pageSize + k)
  byte 3 ++ byte 2 ++ byte 1 ++ byte 0

/-- The address space of a new process (`cloneFork`); `none` when memory ran out. -/
def forkSpace (kernelPml4 parent : Nat) (m : Machine) : Option Nat × Machine :=
  match createAddressSpace m kernelPml4 with
  | (none, m) => (none, m)
  | (some pml4, m) =>
    match cowCopyUserPages parent pml4 m with
    | (false, m) => (none, destroyAddressSpace m pml4)
    | (true, m) => (some pml4, m)

structure Shared extends Sys where
  machine : Machine
  /-- the page table of every process -/
  space : Nat → Option Nat
  /-- the address and the expected value of the call that a process sleeps in, or makes again -/
  waiting : Nat → Option (Nat × BitVec 64)

inductive Event
  | wait (pid uaddr : Nat) (expectedVal : BitVec 64)
  /-- a process that was woken makes its call again -/
  | restart (pid : Nat)
  | wake (pid uaddr maxWake : Nat)
  | write (pid virt : Nat) (b : BitVec 8)
  | fork (pid child : Nat)

def Event.pid : Event → Nat
  | .wait pid .. => pid
  | .restart pid => pid
  | .wake pid .. => pid
  | .write pid .. => pid
  | .fork pid _ => pid

/-- `futexWait` of process `pid` with page table `pml4`. -/
def Shared.wait (s : Shared) (pid pml4 uaddr : Nat) (expectedVal : BitVec 64) : Option Shared :=
  (futexWait (translate s.machine pml4 uaddr) (readWord s.machine) pid uaddr expectedVal s.queue).map fun (res, queue) =>
    if res = .blocked then
      { s with
        queue
        blocked := Function.update s.blocked pid true
        waiting := Function.update s.waiting pid (some (uaddr, expectedVal)) }
    else { s with queue, waiting := Function.update s.waiting pid none }

/-- Only a process that runs does something; one that was woken makes its call again first. -/
def Shared.step (kernelPml4 : Nat) (s : Shared) (e : Event) : Option Shared :=
  match s.blocked e.pid, s.space e.pid with
  | false, some pml4 =>
    match e, s.waiting e.pid with
    | .restart pid, some (uaddr, expectedVal) => s.wait pid pml4 uaddr expectedVal
    | .wait pid uaddr expectedVal, none => if uaddr < userEnd then s.wait pid pml4 uaddr expectedVal else none
    | .wake _ uaddr maxWake, none =>
      (futexWake (translate s.machine pml4 uaddr) uaddr maxWake s.queue).map fun (woken, queue) =>
        { s with queue, blocked := wakeProcesses (woken.getD []) s.blocked }
    | .write _ virt b, none => some { s with machine := (userWrite pml4 virt b s.machine).2 }
    | .fork _ child, none =>
      if s.space child = none then
        match forkSpace kernelPml4 pml4 s.machine with
        | (none, machine) => some { s with machine }
        | (some new, machine) => some { s with machine, space := Function.update s.space child (some new) }
      else none
    | _, _ => none
  | _, _ => none

inductive Shared.Run (kernelPml4 : Nat) (Allowed : Shared → Event → Prop) (s₀ : Shared) : Shared → Prop
  | init : Run kernelPml4 Allowed s₀ s₀
  | step {s s' : Shared} {e : Event} : Run kernelPml4 Allowed s₀ s → Allowed s e → s.step kernelPml4 e = some s' →
      Run kernelPml4 Allowed s₀ s'

/-! ## Pages that move -/

/-- A store at `virt` copies the page: it is marked copy-on-write and has other references. -/
def CopiesPage (m : Machine) (pml4 virt : Nat) : Prop :=
  ∃ pt i, getPTE m pml4 (pageBase virt) = some (pt, i) ∧ isCow (m.mem pt i) = true ∧ 1 < m.getRef (frame (m.mem pt i))

section Pages
variable {R : Set Nat} {m m' : Machine} {r r' virt : Nat} {p : List Nat} {b : BitVec 8}

theorem walk_storeThrough (h : Inv R 0 m) (hr : r ∈ R) (hv : virt < userEnd) (hs : storeThrough r virt b m = some m')
    (hr' : r' ∈ R) (hp : UserPath p) : walk (follow m') r' p = walk (follow m) r' p := by
  unfold storeThrough at hs
  split at hs
  · cases hs
  next pt i hg =>
  split at hs
  · next hw =>
    cases hs
    obtain ⟨rfl, ht, hpres, hn⟩ := getPTE_some h hr hv hg
    exact walk_setPage (fun hn' => h.leaf_of_leaf hn leafPath_length hn') hr' hp
  · cases hs

theorem walk_handleCow (h : Inv R 0 m) (hr : r ∈ R) (hv : virt < userEnd) (hr' : r' ∈ R) (hp : UserPath p)
    (hstay : CopiesPage m r virt → ¬ (r' = r ∧ p = leafPath virt)) :
    walk (follow (handleCow r (pageBase virt) m).2) r' p = walk (follow m) r' p := by
  by_cases hcopy : CopiesPage m r virt
  · have hcow := handleCow_spec h hr (pageBase_lt hv)
    refine hcow.keeps.walk hr' hp fun hon => hstay hcopy ?_
    rw [leafPath_pageBase] at hon
    exact hon
  · unfold handleCow
    cases hg : getPTE m r (pageBase virt) with
    | none => rfl
    | some x =>
      obtain ⟨pt, i⟩ := x
      dsimp only
      split
      · rfl
      · next hiscow =>
        split
        · -- the last reference: the same page, writable again
          rw [follow_reflag (by simp) (by simp)]
        · next href =>
          exact absurd ⟨pt, i, hg, by simpa using hiscow, by omega⟩ hcopy

theorem walk_userWrite (h : Inv R 0 m) (hr : r ∈ R) (hr' : r' ∈ R) (hp : UserPath p)
    (hstay : CopiesPage m r virt → ¬ (r' = r ∧ p = leafPath virt)) :
    walk (follow (userWrite r virt b m).2) r' p = walk (follow m) r' p := by
  unfold userWrite
  by_cases hv : virt < userEnd
  · rw [if_pos hv]
    cases hs : storeThrough r virt b m with
    | some m₁ => exact walk_storeThrough h hr hv hs hr' hp
    | none =>
      have hwalk := walk_handleCow h hr hv hr' hp hstay
      have hinv := (handleCow_spec h hr (pageBase_lt hv)).inv
      rcases hh : handleCow r (pageBase virt) m with ⟨ok, m₁⟩
      rw [hh] at hwalk hinv
      cases ok with
      | false => exact hwalk
      | true =>
        dsimp only
        cases hs' : storeThrough r virt b m₁ with
        | none => exact hwalk
        | some m₂ => exact (walk_storeThrough hinv hr hv hs' hr' hp).trans hwalk
  · rw [if_neg hv]

theorem forkSpace_spec (h : Inv R 0 m) (hr : r ∈ R) (kernelPml4 : Nat) :
    Inv (R ∪ {f | (forkSpace kernelPml4 r m).1 = some f}) 0 (forkSpace kernelPml4 r m).2 ∧
      ∀ r' p, r' ∈ R → UserPath p → walk (follow (forkSpace kernelPml4 r m).2) r' p = walk (follow m) r' p := by
  have hnone : R ∪ {f : Nat | (none : Option Nat) = some f} = R := by simp
  unfold forkSpace
  rcases createAddressSpace_spec h kernelPml4 with ⟨hf, hinv, hkeep, -⟩ | ⟨f, hf, hnew, hinv, hkeep, -, hempty⟩
  · rcases hcreate : createAddressSpace m kernelPml4 with ⟨o, m₁⟩
    rw [hcreate] at hf hinv hkeep
    dsimp only at hf hinv hkeep
    subst hf
    exact ⟨by rw [hnone]; exact hinv, fun r' p hr' hp => hkeep.walk hr' hp id⟩
  · rcases hcreate : createAddressSpace m kernelPml4 with ⟨o, m₁⟩
    rw [hcreate] at hf hinv hkeep hempty
    dsimp only at hf hinv hkeep hempty
    subst hf
    have hne : r ≠ f := fun he => hnew (he ▸ hr)
    have hcopy := cowCopyUserPages_spec hinv (.inr hr) (.inl rfl) hne fun i hi => hempty i [] hi
    have hoff : ∀ {r' p}, r' ∈ R → ¬ Below f [] r' p := fun hr' hb => hnew (hb.1 ▸ hr')
    dsimp only
    rcases hres : cowCopyUserPages r f m₁ with ⟨ok, m₂⟩
    rw [hres] at hcopy
    cases ok with
    | false =>
      obtain ⟨hinv₂, hk, -⟩ : Failed _ 0 r f [] m₁ m₂ := hcopy.fail rfl
      obtain ⟨hinv₃, hk₃, -⟩ := destroyAddressSpace_spec hinv₂ (.inl rfl)
      rw [Set.insert_sdiff_self_of_notMem hnew] at hinv₃ hk₃
      refine ⟨by rw [hnone]; exact hinv₃, fun r' p hr' hp => ?_⟩
      exact (hk₃.walk hr' hp id).trans ((hk.walk (.inr hr') hp (hoff hr')).trans (hkeep.walk hr' hp id))
    | true =>
      have hfork : Forked _ 0 r f m₁ m₂ := hcopy.ok rfl
      have hsome : R ∪ {g | some f = some g} = insert f R := by
        ext g
        simp [eq_comm]
      refine ⟨by rw [hsome]; exact hfork.inv, fun r' p hr' hp => ?_⟩
      exact (hfork.keeps.walk (.inr hr') hp (hoff hr')).trans (hkeep.walk hr' hp id)

end Pages

/-! ## Waiters are found -/

def Shared.spaces (s : Shared) : Set Nat := {r | ∃ pid, s.space pid = some r}

def Steady (s : Shared) : Event → Prop
  | .write pid virt _ => ∀ pml4, s.space pid = some pml4 → CopiesPage s.machine pml4 virt →
    ∀ other uaddr expectedVal, s.blocked other = true → s.space other = some pml4 →
      s.waiting other = some (uaddr, expectedVal) → pageBase uaddr ≠ pageBase virt
  | .restart pid => ∀ pml4 uaddr expectedVal phys, s.space pid = some pml4 → s.waiting pid = some (uaddr, expectedVal) →
    translate s.machine pml4 uaddr = some phys → readWord s.machine phys ≠ expectedVal.setWidth 32
  | _ => True

structure Shared.Keyed (s : Shared) : Prop where
  orderly : s.toSys.Orderly
  inv : Inv s.spaces 0 s.machine
  aligned : ∀ pid uaddr expectedVal, s.waiting pid = some (uaddr, expectedVal) → uaddr < userEnd ∧ uaddr % 4 = 0
  keyed : ∀ i, s.queue.Queued i → ∃ r uaddr expectedVal phys, s.space (s.queue.waitQueue i).pid = some r ∧
    s.waiting (s.queue.waitQueue i).pid = some (uaddr, expectedVal) ∧ translate s.machine r uaddr = some phys ∧
      (s.queue.waitQueue i).physAddr = targetPhys phys uaddr

section Steps
variable {s s' : Shared} {pid r uaddr : Nat} {expectedVal : BitVec 64}

theorem Shared.mem_spaces (h : s.space pid = some r) : r ∈ s.spaces := ⟨pid, h⟩

theorem translate_mod (h : s.Keyed) (hr : r ∈ s.spaces) (hv : uaddr < userEnd) {phys : Nat}
    (ht : translate s.machine r uaddr = some phys) : phys % 4 = uaddr % 4 := by
  rw [translate_eq h.inv hr hv] at ht
  obtain ⟨f, -, rfl⟩ := Option.map_eq_some_iff.1 ht
  unfold pageSize
  omega

theorem Shared.wait_cases (h : s.wait pid r uaddr expectedVal = some s') :
    s' = { s with waiting := Function.update s.waiting pid none } ∨
      ∃ phys slot, translate s.machine r uaddr = some phys ∧ phys % 4 = 0 ∧
        readWord s.machine phys = expectedVal.setWidth 32 ∧ s.queue.freeSlot = some slot ∧
        s' = { s with
          queue := s.queue.push slot pid (targetPhys phys uaddr)
          blocked := Function.update s.blocked pid true
          waiting := Function.update s.waiting pid (some (uaddr, expectedVal)) } := by
  obtain ⟨⟨res, q⟩, hwait, rfl⟩ := Option.map_eq_some_iff.1 h
  cases ht : translate s.machine r uaddr with
  | none =>
    rw [ht] at hwait
    obtain ⟨rfl, rfl⟩ := Prod.mk.inj (Option.some.inj hwait)
    exact .inl rfl
  | some phys =>
    rw [ht] at hwait
    obtain ⟨halign, hwait⟩ := Option.ite_none_left_eq_some.1 hwait
    split at hwait
    · obtain ⟨rfl, rfl⟩ := Prod.mk.inj (Option.some.inj hwait)
      exact .inl rfl
    · next hword =>
      cases hslot : s.queue.freeSlot with
      | none =>
        rw [hslot] at hwait
        obtain ⟨rfl, rfl⟩ := Prod.mk.inj (Option.some.inj hwait)
        exact .inl rfl
      | some slot =>
        rw [hslot] at hwait
        obtain ⟨rfl, rfl⟩ := Prod.mk.inj (Option.some.inj hwait)
        exact .inr ⟨phys, slot, rfl, not_not.1 halign, not_not.1 hword, rfl, rfl⟩

theorem Shared.Keyed.pid_ne (h : s.Keyed) (hpid : s.blocked pid = false) {i : Nat} (hi : s.queue.Queued i) :
    (s.queue.waitQueue i).pid ≠ pid := by
  intro heq
  rw [(h.orderly.asleep pid).2 ⟨i, hi, heq⟩] at hpid
  cases hpid

theorem Shared.Keyed.left (h : s.Keyed) (hpid : s.blocked pid = false) :
    Shared.Keyed { s with waiting := Function.update s.waiting pid none } := by
  refine ⟨h.orderly, h.inv, fun p u e hp => ?_, fun i hi => ?_⟩
  · by_cases heq : p = pid
    · subst heq
      have hp : Function.update s.waiting p none p = some (u, e) := hp
      rw [Function.update_self] at hp
      cases hp
    · exact h.aligned p u e ((Function.update_of_ne heq ..).symm.trans hp)
  · obtain ⟨r, u, e, phys, hspace, hwait, hrest⟩ := h.keyed i hi
    exact ⟨r, u, e, phys, hspace, (Function.update_of_ne (h.pid_ne hpid hi) ..).trans hwait, hrest⟩

theorem Shared.Keyed.queued (h : s.Keyed) (hpid : s.blocked pid = false) (hr : s.space pid = some r)
    (hv : uaddr < userEnd) {phys slot : Nat} (ht : translate s.machine r uaddr = some phys) (halign : phys % 4 = 0)
    (hslot : s.queue.freeSlot = some slot) :
    Shared.Keyed { s with
      queue := s.queue.push slot pid (targetPhys phys uaddr)
      blocked := Function.update s.blocked pid true
      waiting := Function.update s.waiting pid (some (uaddr, expectedVal)) } := by
  refine ⟨h.orderly.push hslot hpid _, h.inv, fun p u e hp => ?_, fun i hi => ?_⟩
  · by_cases heq : p = pid
    · subst heq
      have hp : Function.update s.waiting p (some (uaddr, expectedVal)) p = some (u, e) := hp
      rw [Function.update_self] at hp
      cases hp
      exact ⟨hv, (translate_mod h (Shared.mem_spaces hr) hv ht).symm.trans halign⟩
    · exact h.aligned p u e ((Function.update_of_ne heq ..).symm.trans hp)
  · show ∃ r' u e phys', s.space ((s.queue.push slot pid (targetPhys phys uaddr)).waitQueue i).pid = some r' ∧
      Function.update s.waiting pid (some (uaddr, expectedVal))
        ((s.queue.push slot pid (targetPhys phys uaddr)).waitQueue i).pid = some (u, e) ∧
      translate s.machine r' u = some phys' ∧
        ((s.queue.push slot pid (targetPhys phys uaddr)).waitQueue i).physAddr = targetPhys phys' u
    by_cases heq : i = slot
    · subst heq
      rw [push_self]
      exact ⟨r, uaddr, expectedVal, phys, hr, Function.update_self .., ht, rfl⟩
    · have hother := push_of_ne (q := s.queue) heq pid (targetPhys phys uaddr)
      have hi' : s.queue.Queued i := by
        have hi : (s.queue.push slot pid (targetPhys phys uaddr)).Queued i := hi
        unfold Queue.Queued at hi
        rw [hother] at hi
        exact hi
      obtain ⟨r', u, e, phys', hspace, hwait, hrest⟩ := h.keyed i hi'
      rw [hother]
      exact ⟨r', u, e, phys', hspace, (Function.update_of_ne (h.pid_ne hpid hi') ..).trans hwait, hrest⟩

theorem Shared.Keyed.wait (h : s.Keyed) (hpid : s.blocked pid = false) (hr : s.space pid = some r) (hv : uaddr < userEnd)
    (hs : s.wait pid r uaddr expectedVal = some s') : s'.Keyed := by
  rcases Shared.wait_cases hs with rfl | ⟨phys, slot, ht, halign, -, hslot, rfl⟩
  · exact h.left hpid
  · exact h.queued hpid hr hv ht halign hslot

theorem Shared.Keyed.withMachine (h : s.Keyed) {m' : Machine} {space' : Nat → Option Nat}
    (hold : ∀ p r, s.space p = some r → space' p = some r)
    (hinv : Inv (Shared.spaces { s with machine := m', space := space' }) 0 m')
    (hwalk : ∀ p r u e, s.blocked p = true → s.space p = some r → s.waiting p = some (u, e) → u < userEnd →
      walk (follow m') r (leafPath u) = walk (follow s.machine) r (leafPath u)) :
    Shared.Keyed { s with machine := m', space := space' } := by
  refine ⟨h.orderly, hinv, h.aligned, fun i hi => ?_⟩
  obtain ⟨r, u, e, phys, hspace, hwait, ht, hkey⟩ := h.keyed i hi
  have hv := (h.aligned _ u e hwait).1
  have hblocked := (h.orderly.asleep (s.queue.waitQueue i).pid).2 ⟨i, hi, rfl⟩
  refine ⟨r, u, e, phys, hold _ r hspace, hwait, ?_, hkey⟩
  have hr : r ∈ Shared.spaces { s with machine := m', space := space' } := ⟨_, hold _ r hspace⟩
  show translate m' r u = some phys
  rw [translate_eq hinv hr hv, hwalk _ r u e hblocked hspace hwait hv, ← translate_eq h.inv (Shared.mem_spaces hspace) hv]
  exact ht

theorem pageBase_eq {u v : Nat} (hu : u < userEnd) (hv : v < userEnd) (h : leafPath u = leafPath v) :
    pageBase u = pageBase v := by
  have hmod : ∀ x, pageBase x % pageSize = 0 := by
    intro x
    unfold pageBase pageSize
    omega
  refine Fork.virt_eq_of_leafPath (pageBase_lt hv) (pageBase_lt hu) ?_ ((hmod u).trans (hmod v).symm)
  rw [leafPath_pageBase, leafPath_pageBase]
  exact h

theorem Shared.Keyed.write (h : s.Keyed) {virt : Nat} {b : BitVec 8} (hr : s.space pid = some r)
    (hsteady : Steady s (.write pid virt b)) :
    Shared.Keyed { s with machine := (userWrite r virt b s.machine).2 } := by
  have hr' := Shared.mem_spaces hr
  refine h.withMachine (fun _ _ hp => hp) (userWrite_spec h.inv hr' virt b).1 fun p r₁ u e hb hspace hwait hu => ?_
  by_cases hv : virt < userEnd
  · refine walk_userWrite h.inv hr' (Shared.mem_spaces hspace) (leafPath_user hu) fun hcopy hon => ?_
    obtain ⟨rfl, hpath⟩ := hon
    exact hsteady r₁ hr hcopy p u e hb hspace hwait (pageBase_eq hu hv hpath)
  · rw [userWrite, if_neg hv]

theorem Shared.Keyed.fork (h : s.Keyed) {kernelPml4 child : Nat} (hr : s.space pid = some r) (hchild : s.space child = none)
    (hs : (match forkSpace kernelPml4 r s.machine with
      | (none, machine) => some { s with machine }
      | (some new, machine) => some { s with machine, space := Function.update s.space child (some new) }) = some s') :
    s'.Keyed := by
  obtain ⟨hinv, hwalk⟩ := forkSpace_spec h.inv (Shared.mem_spaces hr) kernelPml4
  rcases hfork : forkSpace kernelPml4 r s.machine with ⟨new, m'⟩
  rw [hfork] at hs hinv hwalk
  cases new with
  | none =>
    obtain rfl := Option.some.inj hs
    refine h.withMachine (fun _ _ hp => hp) ?_ fun p r₁ u e _ hspace _ hu =>
      hwalk r₁ _ (Shared.mem_spaces hspace) (leafPath_user hu)
    have hsame : s.spaces ∪ {f : Nat | (none : Option Nat) = some f} = s.spaces := by simp
    rw [hsame] at hinv
    exact hinv
  | some f =>
    obtain rfl := Option.some.inj hs
    have hne : ∀ p r₁, s.space p = some r₁ → p ≠ child := by
      rintro p r₁ hp rfl
      rw [hchild] at hp
      cases hp
    have hold : ∀ p r₁, s.space p = some r₁ → Function.update s.space child (some f) p = some r₁ :=
      fun p r₁ hp => (Function.update_of_ne (hne p r₁ hp) ..).trans hp
    refine h.withMachine hold ?_ fun p r₁ u e _ hspace _ hu =>
      hwalk r₁ _ (Shared.mem_spaces hspace) (leafPath_user hu)
    have hset : s.spaces ∪ {g | some f = some g} =
        Shared.spaces { s with machine := m', space := Function.update s.space child (some f) } := by
      ext g
      constructor
      · rintro (⟨p, hp⟩ | hg)
        · exact ⟨p, hold p g hp⟩
        · cases hg
          exact ⟨child, Function.update_self ..⟩
      · rintro ⟨p, hp⟩
        have hp : Function.update s.space child (some f) p = some g := hp
        by_cases heq : p = child
        · subst heq
          rw [Function.update_self] at hp
          exact .inr hp
        · rw [Function.update_of_ne heq] at hp
          exact .inl ⟨p, hp⟩
    rw [hset] at hinv
    exact hinv

theorem Shared.Keyed.wake (h : s.Keyed) {phys : Option Nat} {u maxWake : Nat}
    (hs : (futexWake phys u maxWake s.queue).map (fun (woken, queue) =>
      { s with queue, blocked := wakeProcesses (woken.getD []) s.blocked }) = some s') : s'.Keyed := by
  obtain ⟨⟨woken, q⟩, hwake, rfl⟩ := Option.map_eq_some_iff.1 hs
  cases phys with
  | none =>
    obtain ⟨rfl, rfl⟩ := Prod.mk.inj (Option.some.inj hwake)
    simp only [Option.getD_none, wakeProcesses_nil]
    exact h
  | some phys =>
    obtain ⟨chain, hchain⟩ := h.orderly.linked
    obtain ⟨⟨pids, q₁⟩, hwalk, hval⟩ := Option.map_eq_some_iff.1 hwake
    obtain ⟨rfl, rfl⟩ := Prod.mk.inj hval
    obtain ⟨removed, q', chain', hwalk', hw, hchain'⟩ := hchain.wake (targetPhys phys u) maxWake
    obtain ⟨rfl, rfl⟩ := Prod.mk.inj (Option.some.inj (hwalk'.symm.trans hwalk))
    refine ⟨h.orderly.woken hw hchain', h.inv, h.aligned, fun i hi => ?_⟩
    obtain ⟨hi, hir⟩ := hw.queued.1 hi
    have hphys : (q'.waitQueue i).physAddr = (s.queue.waitQueue i).physAddr := congrArg (fun w => w.2.1) (hw.waiter i hir)
    obtain ⟨r', u', e, phys', hrest⟩ := h.keyed i hi
    refine ⟨r', u', e, phys', ?_⟩
    show s.space (q'.waitQueue i).pid = some r' ∧ s.waiting (q'.waitQueue i).pid = some (u', e) ∧
      translate s.machine r' u' = some phys' ∧ (q'.waitQueue i).physAddr = targetPhys phys' u'
    rw [hw.pid hir, hphys]
    exact hrest

theorem Shared.step_some {kernelPml4 : Nat} {e : Event} (hs : s.step kernelPml4 e = some s') :
    s.blocked e.pid = false ∧ ∃ r, s.space e.pid = some r := by
  unfold Shared.step at hs
  cases hb : s.blocked e.pid with
  | true => simp [hb] at hs
  | false =>
    cases hr : s.space e.pid with
    | none => simp [hb, hr] at hs
    | some r => exact ⟨rfl, r, rfl⟩

theorem Shared.Keyed.step (h : s.Keyed) {kernelPml4 : Nat} {e : Event} (hsteady : Steady s e)
    (hs : s.step kernelPml4 e = some s') : s'.Keyed := by
  obtain ⟨hpid, r, hr⟩ := Shared.step_some hs
  unfold Shared.step at hs
  rw [hpid, hr] at hs
  dsimp only at hs
  cases e with
  | restart pid =>
    cases hw : s.waiting pid with
    | none => simp [Event.pid, hw] at hs
    | some call =>
      simp only [Event.pid, hw] at hs
      exact h.wait hpid hr (h.aligned pid _ _ hw).1 hs
  | wait pid uaddr expectedVal =>
    cases hw : s.waiting pid with
    | some call => simp [Event.pid, hw] at hs
    | none =>
      simp only [Event.pid, hw] at hs
      obtain ⟨hv, hs⟩ := Option.ite_none_right_eq_some.1 hs
      exact h.wait hpid hr hv hs
  | wake pid uaddr maxWake =>
    cases hw : s.waiting pid with
    | some call => simp [Event.pid, hw] at hs
    | none =>
      simp only [Event.pid, hw] at hs
      exact h.wake hs
  | write pid virt b =>
    cases hw : s.waiting pid with
    | some call => simp [Event.pid, hw] at hs
    | none =>
      simp only [Event.pid, hw] at hs
      obtain rfl := Option.some.inj hs
      exact h.write hr hsteady
  | fork pid child =>
    cases hw : s.waiting pid with
    | some call => simp [Event.pid, hw] at hs
    | none =>
      simp only [Event.pid, hw] at hs
      obtain ⟨hchild, hs⟩ := Option.ite_none_right_eq_some.1 hs
      exact h.fork hr hchild hs

theorem Shared.Keyed.restart (h : s.Keyed) {kernelPml4 : Nat} {call : Nat × BitVec 64} (hpid : s.blocked pid = false)
    (hr : s.space pid = some r) (hw : s.waiting pid = some call) (hsteady : Steady s (.restart pid)) :
    ∃ s', s.step kernelPml4 (.restart pid) = some s' ∧ s'.blocked pid = false ∧ s'.waiting pid = none := by
  obtain ⟨uaddr, expectedVal⟩ := call
  obtain ⟨hv, halign⟩ := h.aligned pid uaddr expectedVal hw
  have hstep : s.step kernelPml4 (.restart pid) = s.wait pid r uaddr expectedVal := by
    simp only [Shared.step, Event.pid, hpid, hr, hw]
  rw [hstep]
  refine ⟨{ s with waiting := Function.update s.waiting pid none }, ?_, hpid, Function.update_self ..⟩
  unfold Shared.wait
  cases ht : translate s.machine r uaddr with
  | none => rfl
  | some phys =>
    have hphys : ¬ phys % 4 ≠ 0 := by
      rw [translate_mod h (Shared.mem_spaces hr) hv ht]
      exact not_not.2 halign
    rw [futexWait, if_neg hphys, if_pos (hsteady r uaddr expectedVal phys hr hw ht)]
    rfl

end Steps

/-! ## Two threads -/

section TwoThreads

/-- Processes 1 and 2 are threads of one address space with a page at `0x400000`; process 9 has another one. -/
def twoThreads : Shared where
  queue := initial
  blocked := fun _ => false
  machine := Fork.onePage
  space := fun pid => if pid = 1 ∨ pid = 2 then some 512 else if pid = 9 then some 513 else none
  waiting := fun _ => none

theorem twoThreads_spaces : twoThreads.spaces = {513, 512} := by
  ext r
  constructor
  · rintro ⟨pid, hp⟩
    by_cases h1 : pid = 1 ∨ pid = 2
    · simp only [twoThreads, if_pos h1, Option.some.injEq] at hp
      exact .inr hp.symm
    · by_cases h9 : pid = 9
      · simp only [twoThreads, if_neg h1, if_pos h9, Option.some.injEq] at hp
        exact .inl hp.symm
      · simp [twoThreads, h1, h9] at hp
  · rintro (rfl | rfl)
    · exact ⟨9, rfl⟩
    · exact ⟨1, rfl⟩

def Shared.runEvents (s : Shared) : List Event → Option Shared
  | [] => some s
  | e :: es => (s.step 0 e).bind fun s' => s'.runEvents es

theorem Shared.run_of_runEvents {s₀ s s' : Shared} {es : List Event} (hrun : Shared.Run 0 (fun _ _ => True) s₀ s)
    (h : s.runEvents es = some s') : Shared.Run 0 (fun _ _ => True) s₀ s' := by
  induction es generalizing s with
  | nil =>
    obtain rfl := Option.some.inj h
    exact hrun
  | cons e es ih =>
    obtain ⟨s₁, hs, h⟩ := Option.bind_eq_some_iff.1 h
    exact ih (hrun.step trivial hs) h

end TwoThreads

end Zigix.Futex
