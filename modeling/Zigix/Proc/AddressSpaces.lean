import Mathlib.Algebra.GroupWithZero.Nat
import Mathlib.Data.Fin.Basic
import Mathlib.Logic.Function.Basic

/-!
# Who destroys a page table (`clone.zig`, `execve.zig`, `sysExit`, `sysWait4`)

Threads share the page table of their group leader. `sysWait4` destroys the table of a process it reaps when that process
is a group leader (`tgid == pid`), whoever still uses it; `sysExecve` gives a process a new table when another slot has the
same one, whoever will destroy the old one. A page table is known by the address of its frame, which is used again.

* `page_tables_owned` : in a run of such steps both hold throughout;
* `page_tables_mishandled` : how they fail.
-/

namespace Zigix.AddressSpaces

def maxProcesses : Nat := 256

instance : NeZero maxProcesses := ⟨by decide⟩

structure Process where
  pid : Nat
  tgid : Nat
  parentPid : Nat
  pageTable : Nat
  zombie : Bool
  /-- not in the source: which of the tables created at this address it is -/
  incarnation : Nat
deriving DecidableEq

def Process.Leader (p : Process) : Prop := p.tgid = p.pid

instance (p : Process) : Decidable p.Leader := inferInstanceAs (Decidable (p.tgid = p.pid))

structure State where
  slots : Fin maxProcesses → Option Process
  nextPid : Nat
  /-- the tables that were created and not destroyed -/
  alive : Nat → Bool
  /-- not in the source: the number of tables created at an address -/
  created : Nat → Nat

/-- `destroyAddressSpace` or `destroyUserPages`, for the process in the slot `owner`. -/
structure Destruction where
  owner : Option (Fin maxProcesses)
  pageTable : Nat

inductive Event
  /-- `cloneFork`; `copied` tells whether the pages could be copied -/
  | cloneFork (parent child : Fin maxProcesses) (pml4 : Nat) (copied : Bool)
  /-- `cloneThread`, which `sysClone` calls for `CLONE_VM | CLONE_THREAD` only -/
  | cloneThread (parent child : Fin maxProcesses)
  | execve (idx : Fin maxProcesses) (pml4 : Nat)
  | exit (idx : Fin maxProcesses)
  /-- `sysWait4` by `parent` finds the zombie `child` -/
  | reap (parent child : Fin maxProcesses)

def State.setSlot (s : State) (i : Fin maxProcesses) (p : Option Process) : State :=
  { s with slots := Function.update s.slots i p }

def State.running (s : State) (i : Fin maxProcesses) : Option Process :=
  (s.slots i).filter fun p => !p.zombie

/-- `createAddressSpace` at a free frame. -/
def createAddressSpace (s : State) (pml4 : Nat) : Option State :=
  if s.alive pml4 then none
  else some { s with
    alive := Function.update s.alive pml4 true
    created := Function.update s.created pml4 (s.created pml4 + 1) }

def destroyAddressSpace (s : State) (pml4 : Nat) : State := { s with alive := Function.update s.alive pml4 false }

def shared (s : State) (idx : Fin maxProcesses) (pt : Nat) : Prop :=
  ∃ j, j ≠ idx ∧ (s.slots j).map Process.pageTable = some pt

instance (s : State) (idx : Fin maxProcesses) (pt : Nat) : Decidable (shared s idx pt) :=
  inferInstanceAs (Decidable (∃ j, j ≠ idx ∧ (s.slots j).map Process.pageTable = some pt))

def reparent (p : Process) (q : Process) : Process :=
  if p.tgid = p.pid ∧ q.parentPid = p.pid ∧ q.pid ≠ p.pid then { q with parentPid := 1 } else q

def State.step (s : State) : Event → Option (State × List (State × Destruction))
  | .cloneFork parent child pml4 copied => do
    let p ← s.running parent
    if (s.slots child).isSome then none
    else
      let s ← createAddressSpace s pml4
      if !copied then some (destroyAddressSpace s pml4, [(s, ⟨none, pml4⟩)])
      else
        let q := ⟨s.nextPid, s.nextPid, p.pid, pml4, false, s.created pml4⟩
        some ({ s.setSlot child (some q) with nextPid := s.nextPid + 1 }, [])
  | .cloneThread parent child => do
    let p ← s.running parent
    if (s.slots child).isSome then none
    else
      let q := { p with pid := s.nextPid, parentPid := p.pid }
      some ({ s.setSlot child (some q) with nextPid := s.nextPid + 1 }, [])
  | .execve idx pml4 => do
    let p ← s.running idx
    if shared s idx p.pageTable then
      let s ← createAddressSpace s pml4
      some (s.setSlot idx (some { p with pageTable := pml4, incarnation := s.created pml4 }), [])
    else some (s, [(s, ⟨some idx, p.pageTable⟩)])
  | .exit idx => do
    let p ← s.running idx
    let s := s.setSlot idx (some { p with zombie := true })
    some ({ s with slots := fun j => (s.slots j).map (reparent p) }, [])
  | .reap parent child => do
    let p ← s.running parent
    let q ← s.slots child
    if q.zombie = true ∧ q.parentPid = p.pid then
      if q.Leader then
        some ((destroyAddressSpace s q.pageTable).setSlot child none, [(s, ⟨some child, q.pageTable⟩)])
      else some (s.setSlot child none, [])
    else none

/-! ## The laws -/

structure Lawful (s : State) (d : Destruction) : Prop where
  unused : ∀ j q, s.slots j = some q → d.owner ≠ some j → q.pageTable = d.pageTable → q.zombie = true
  exists_ : s.alive d.pageTable = true

/-- A table without users has been destroyed. -/
def NoneLost (s : State) : Prop :=
  ∀ pt, s.alive pt = true → ∃ i p, s.slots i = some p ∧ p.pageTable = pt ∧ p.incarnation = s.created pt

def Orderly (s : State) : Event → Prop
  | .reap _ child => ∀ p, s.slots child = some p → p.Leader →
    ∀ j q, j ≠ child → s.slots j = some q → q.pageTable = p.pageTable → q.zombie = true
  | .execve idx _ => ∀ p, s.slots idx = some p → ¬ shared s idx p.pageTable
  | _ => True

inductive Run (Allowed : State → Event → Prop) (s₀ : State) : State → Prop
  | init : Run Allowed s₀ s₀
  | step {s s' : State} {e : Event} {ds : List (State × Destruction)} :
      Run Allowed s₀ s → Allowed s e → s.step e = some (s', ds) → Run Allowed s₀ s'

structure Boot (s : State) : Prop where
  leader : ∀ i p, s.slots i = some p → p.Leader ∧ p.pid < s.nextPid ∧ s.alive p.pageTable = true ∧
    p.incarnation = s.created p.pageTable
  own : ∀ i j p q, s.slots i = some p → s.slots j = some q → p.pageTable = q.pageTable → i = j
  used : ∀ pt, s.alive pt = true → ∃ i p, s.slots i = some p ∧ p.pageTable = pt

/-! ## The invariant -/

structure Inv (s : State) : Prop where
  fresh : ∀ j q, s.slots j = some q → q.pid < s.nextPid
  leader : ∀ j q, s.slots j = some q → q.Leader → s.alive q.pageTable = true ∧ q.incarnation = s.created q.pageTable
  own : ∀ i j p q, s.slots i = some p → s.slots j = some q → p.Leader → q.Leader → p.pageTable = q.pageTable → i = j
  runs : ∀ j q, s.slots j = some q → q.zombie = false →
    ∃ i p, s.slots i = some p ∧ p.Leader ∧ p.pid = q.tgid ∧ p.pageTable = q.pageTable ∧ p.incarnation = q.incarnation
  used : ∀ pt, s.alive pt = true → ∃ i p, s.slots i = some p ∧ p.Leader ∧ p.pageTable = pt

section Steps
variable {s s' : State} {i : Fin maxProcesses} {p : Process}

theorem Boot.inv (h : Boot s) : Inv s where
  fresh j q hq := (h.leader j q hq).2.1
  leader j q hq _ := (h.leader j q hq).2.2
  own i j p q hp hq _ _ heq := h.own i j p q hp hq heq
  runs j q hq _ := ⟨j, q, hq, (h.leader j q hq).1, (h.leader j q hq).1.symm, rfl, rfl⟩
  used pt hpt := by
    obtain ⟨i, p, hp, heq⟩ := h.used pt hpt
    exact ⟨i, p, hp, (h.leader i p hp).1, heq⟩

theorem running_some (h : s.running i = some p) : s.slots i = some p ∧ p.zombie = false := by
  obtain ⟨hp, hz⟩ := Option.filter_eq_some_iff.1 h
  exact ⟨hp, by simpa using hz⟩

theorem slots_setSlot (s : State) (i : Fin maxProcesses) (x : Option Process) (j : Fin maxProcesses) (q : Process) :
    (s.setSlot i x).slots j = some q ↔ (j = i ∧ x = some q) ∨ (j ≠ i ∧ s.slots j = some q) := by
  unfold State.setSlot
  by_cases hj : j = i
  · subst hj
    simp
  · simp [hj]

theorem Inv.noneLost (h : Inv s) : NoneLost s := by
  intro pt hpt
  obtain ⟨i, p, hp, hleader, rfl⟩ := h.used pt hpt
  exact ⟨i, p, hp, rfl, (h.leader i p hp hleader).2⟩

theorem Inv.running_alive (h : Inv s) (hp : s.slots i = some p) (hrun : p.zombie = false) :
    s.alive p.pageTable = true := by
  obtain ⟨k, l, hl, hleader, -, hpt, -⟩ := h.runs i p hp hrun
  rw [← hpt]
  exact (h.leader k l hl hleader).1

theorem Inv.tgid_lt (h : Inv s) (hp : s.slots i = some p) (hrun : p.zombie = false) : p.tgid < s.nextPid := by
  obtain ⟨k, l, hl, -, hpid, -⟩ := h.runs i p hp hrun
  rw [← hpid]
  exact h.fresh k l hl

theorem createAddressSpace_some {pml4 : Nat} (h : createAddressSpace s pml4 = some s') :
    s.alive pml4 = false ∧ s' = { s with
      alive := Function.update s.alive pml4 true
      created := Function.update s.created pml4 (s.created pml4 + 1) } := by
  unfold createAddressSpace at h
  split at h
  · cases h
  case isFalse hdead => exact ⟨by simpa using hdead, (Option.some.inj h).symm⟩

/-! ## What a step keeps -/

theorem Inv.addLeader {child : Fin maxProcesses} {q : Process} (h : Inv s) (hfree : s.slots child = none)
    (hdead : s.alive q.pageTable = false) (hpid : q.pid = s.nextPid) (htgid : q.tgid = s.nextPid)
    (hinc : q.incarnation = s.created q.pageTable + 1) :
    Inv ⟨Function.update s.slots child (some q), s.nextPid + 1, Function.update s.alive q.pageTable true,
      Function.update s.created q.pageTable (s.created q.pageTable + 1)⟩ := by
  have hleader : q.Leader := htgid.trans hpid.symm
  have hslots := slots_setSlot s child (some q)
  have hother : ∀ {j r}, s.slots j = some r → r.Leader → r.pageTable ≠ q.pageTable := by
    intro j r hr hl heq
    have := (h.leader j r hr hl).1
    rw [heq, hdead] at this
    cases this
  have hin : ∀ {j r}, s.slots j = some r → Function.update s.slots child (some q) j = some r := by
    intro j r hr
    refine (hslots j r).2 (.inr ⟨?_, hr⟩)
    rintro rfl
    rw [hfree] at hr
    cases hr
  have hself : Function.update s.slots child (some q) child = some q := Function.update_self ..
  constructor
  case fresh =>
    intro j r hr
    obtain ⟨-, heq⟩ | ⟨-, hr⟩ := (hslots j r).1 hr
    · cases heq
      simp [hpid]
    · have := h.fresh j r hr
      simp only
      omega
  case leader =>
    intro j r hr hl
    obtain ⟨-, heq⟩ | ⟨-, hr⟩ := (hslots j r).1 hr
    · cases heq
      simp [hinc]
    · simpa [Function.update_of_ne (hother hr hl)] using h.leader j r hr hl
  case own =>
    intro j k r t hr ht hlr hlt heq
    obtain ⟨hj, hqr⟩ | ⟨-, hr'⟩ := (hslots j r).1 hr <;> obtain ⟨hk, hqt⟩ | ⟨-, ht'⟩ := (hslots k t).1 ht
    · rw [hj, hk]
    · cases hqr
      exact (hother ht' hlt heq.symm).elim
    · cases hqt
      exact (hother hr' hlr heq).elim
    · exact h.own j k r t hr' ht' hlr hlt heq
  case runs =>
    intro j r hr hrun
    obtain ⟨-, heq⟩ | ⟨-, hr⟩ := (hslots j r).1 hr
    · cases heq
      exact ⟨child, q, hself, hleader, hleader.symm, rfl, rfl⟩
    · obtain ⟨k, l, hl, hrest⟩ := h.runs j r hr hrun
      exact ⟨k, l, hin hl, hrest⟩
  case used =>
    intro pt hpt
    by_cases heq : pt = q.pageTable
    · exact ⟨child, q, hself, hleader, heq.symm⟩
    · obtain ⟨k, l, hl, hrest⟩ := h.used pt (by simpa [Function.update_of_ne heq] using hpt)
      exact ⟨k, l, hin hl, hrest⟩

theorem Inv.discard {pml4 : Nat} (h : Inv s) (hdead : s.alive pml4 = false) (n : Nat) :
    Inv { s with
      alive := Function.update (Function.update s.alive pml4 true) pml4 false
      created := Function.update s.created pml4 n } := by
  have halive : Function.update (Function.update s.alive pml4 true) pml4 false = s.alive := by
    rw [Function.update_idem, ← hdead, Function.update_eq_self]
  rw [halive]
  refine ⟨h.fresh, ?_, h.own, h.runs, h.used⟩
  intro j q hq hl
  obtain ⟨hlive, hinc⟩ := h.leader j q hq hl
  have hne : q.pageTable ≠ pml4 := by
    intro heq
    rw [heq, hdead] at hlive
    cases hlive
  exact ⟨hlive, by simpa [Function.update_of_ne hne] using hinc⟩

theorem Inv.addThread {child : Fin maxProcesses} {q : Process} (h : Inv s) (hp : s.slots i = some p)
    (hrun : p.zombie = false) (hfree : s.slots child = none) (hpid : q.pid = s.nextPid) (htgid : q.tgid = p.tgid)
    (hpt : q.pageTable = p.pageTable) (hinc : q.incarnation = p.incarnation) :
    Inv { s.setSlot child (some q) with nextPid := s.nextPid + 1 } := by
  have hslots := slots_setSlot s child (some q)
  have hthread : ¬ q.Leader := by
    intro hl
    have := h.tgid_lt hp hrun
    rw [← htgid, hl, hpid] at this
    omega
  have hold : ∀ {j r}, (s.setSlot child (some q)).slots j = some r → r.Leader → s.slots j = some r := by
    intro j r hr hl
    obtain ⟨-, heq⟩ | ⟨-, hr⟩ := (hslots j r).1 hr
    · cases heq
      exact (hthread hl).elim
    · exact hr
  have hin : ∀ {j r}, s.slots j = some r → (s.setSlot child (some q)).slots j = some r := by
    intro j r hr
    refine (hslots j r).2 (.inr ⟨?_, hr⟩)
    rintro rfl
    rw [hfree] at hr
    cases hr
  constructor
  case fresh =>
    intro j r hr
    obtain ⟨-, heq⟩ | ⟨-, hr⟩ := (hslots j r).1 hr
    · cases heq
      simp [hpid]
    · have := h.fresh j r hr
      simp only
      omega
  case leader => exact fun j r hr hl => h.leader j r (hold hr hl) hl
  case own => exact fun j k r t hr ht hlr hlt heq => h.own j k r t (hold hr hlr) (hold ht hlt) hlr hlt heq
  case runs =>
    intro j r hr hzombie
    obtain ⟨-, heq⟩ | ⟨-, hr⟩ := (hslots j r).1 hr
    · cases heq
      obtain ⟨k, l, hl, hleader, hlpid, hlpt, hlinc⟩ := h.runs i p hp hrun
      exact ⟨k, l, hin hl, hleader, hlpid.trans htgid.symm, hlpt.trans hpt.symm, hlinc.trans hinc.symm⟩
    · obtain ⟨k, l, hl, hrest⟩ := h.runs j r hr hzombie
      exact ⟨k, l, hin hl, hrest⟩
  case used =>
    intro pt halive
    obtain ⟨k, l, hl, hrest⟩ := h.used pt halive
    exact ⟨k, l, hin hl, hrest⟩

structure Kept (q q' : Process) : Prop where
  pid : q'.pid = q.pid
  tgid : q'.tgid = q.tgid
  pageTable : q'.pageTable = q.pageTable
  incarnation : q'.incarnation = q.incarnation
  running : q'.zombie = false → q.zombie = false

theorem Kept.leader {q q' : Process} (h : Kept q q') : q'.Leader ↔ q.Leader := by
  unfold Process.Leader
  rw [h.pid, h.tgid]

theorem reparent_kept (q : Process) : Kept q (reparent p q) := by
  unfold reparent
  split <;> exact ⟨rfl, rfl, rfl, rfl, id⟩

theorem exit_kept (q : Process) : Kept q (reparent p { q with zombie := true }) := by
  unfold reparent
  split <;> exact ⟨rfl, rfl, rfl, rfl, fun h => by cases h⟩

theorem Inv.kept {slots : Fin maxProcesses → Option Process} {f : Fin maxProcesses → Process → Process} (h : Inv s)
    (hslots : ∀ j, slots j = (s.slots j).map (f j)) (hf : ∀ j q, s.slots j = some q → Kept q (f j q)) :
    Inv { s with slots := slots } := by
  have hold : ∀ {j r}, slots j = some r → ∃ q, s.slots j = some q ∧ r = f j q ∧ Kept q r := by
    intro j r hr
    rw [hslots, Option.map_eq_some_iff] at hr
    obtain ⟨q, hq, rfl⟩ := hr
    exact ⟨q, hq, rfl, hf j q hq⟩
  have hin : ∀ {j q}, s.slots j = some q → slots j = some (f j q) := by
    intro j q hq
    rw [hslots, hq, Option.map_some]
  constructor
  case fresh =>
    intro j r hr
    obtain ⟨q, hq, -, hk⟩ := hold hr
    rw [hk.pid]
    exact h.fresh j q hq
  case leader =>
    intro j r hr hl
    obtain ⟨q, hq, -, hk⟩ := hold hr
    rw [hk.pageTable, hk.incarnation]
    exact h.leader j q hq (hk.leader.1 hl)
  case own =>
    intro j k r t hr ht hlr hlt heq
    obtain ⟨q, hq, -, hk⟩ := hold hr
    obtain ⟨u, hu, -, hk'⟩ := hold ht
    rw [hk.pageTable, hk'.pageTable] at heq
    exact h.own j k q u hq hu (hk.leader.1 hlr) (hk'.leader.1 hlt) heq
  case runs =>
    intro j r hr hrun
    obtain ⟨q, hq, -, hk⟩ := hold hr
    obtain ⟨k, l, hl, hleader, hpid, hpt, hinc⟩ := h.runs j q hq (hk.running hrun)
    have hkl := hf k l hl
    refine ⟨k, f k l, hin hl, hkl.leader.2 hleader, ?_, ?_, ?_⟩
    · rw [hkl.pid, hk.tgid, hpid]
    · rw [hkl.pageTable, hk.pageTable, hpt]
    · rw [hkl.incarnation, hk.incarnation, hinc]
  case used =>
    intro pt halive
    obtain ⟨k, l, hl, hleader, hpt⟩ := h.used pt halive
    have hkl := hf k l hl
    exact ⟨k, f k l, hin hl, hkl.leader.2 hleader, hkl.pageTable.trans hpt⟩

theorem Inv.removeThread (h : Inv s) (hp : s.slots i = some p) (hthread : ¬ p.Leader) : Inv (s.setSlot i none) := by
  have hold : ∀ {j r}, (s.setSlot i none).slots j = some r → s.slots j = some r := by
    intro j r hr
    obtain ⟨-, heq⟩ | ⟨-, hr⟩ := (slots_setSlot s i none j r).1 hr
    · cases heq
    · exact hr
  have hin : ∀ {j r}, s.slots j = some r → r.Leader → (s.setSlot i none).slots j = some r := by
    intro j r hr hl
    refine (slots_setSlot s i none j r).2 (.inr ⟨?_, hr⟩)
    rintro rfl
    cases hp.symm.trans hr
    exact hthread hl
  constructor
  case fresh => exact fun j r hr => h.fresh j r (hold hr)
  case leader => exact fun j r hr hl => h.leader j r (hold hr) hl
  case own => exact fun j k r t hr ht hlr hlt heq => h.own j k r t (hold hr) (hold ht) hlr hlt heq
  case runs =>
    intro j r hr hrun
    obtain ⟨k, l, hl, hleader, hrest⟩ := h.runs j r (hold hr) hrun
    exact ⟨k, l, hin hl hleader, hleader, hrest⟩
  case used =>
    intro pt halive
    obtain ⟨k, l, hl, hleader, hpt⟩ := h.used pt halive
    exact ⟨k, l, hin hl hleader, hleader, hpt⟩

theorem Inv.removeLeader (h : Inv s) (hp : s.slots i = some p) (hleader : p.Leader)
    (hidle : ∀ j q, j ≠ i → s.slots j = some q → q.pageTable = p.pageTable → q.zombie = true) :
    Inv ((destroyAddressSpace s p.pageTable).setSlot i none) := by
  have hold : ∀ {j r}, ((destroyAddressSpace s p.pageTable).setSlot i none).slots j = some r →
      j ≠ i ∧ s.slots j = some r := by
    intro j r hr
    obtain ⟨-, heq⟩ | hr := (slots_setSlot (destroyAddressSpace s p.pageTable) i none j r).1 hr
    · cases heq
    · exact hr
  have hin : ∀ {j r}, j ≠ i → s.slots j = some r →
      ((destroyAddressSpace s p.pageTable).setSlot i none).slots j = some r :=
    fun hj hr => (slots_setSlot (destroyAddressSpace s p.pageTable) i none _ _).2 (.inr ⟨hj, hr⟩)
  constructor
  case fresh => exact fun j r hr => h.fresh j r (hold hr).2
  case leader =>
    intro j r hr hl
    obtain ⟨hj, hr⟩ := hold hr
    have hne : r.pageTable ≠ p.pageTable := fun heq => hj (h.own j i r p hr hp hl hleader heq)
    obtain ⟨halive, hinc⟩ := h.leader j r hr hl
    exact ⟨(Function.update_of_ne hne _ _).trans halive, hinc⟩
  case own =>
    exact fun j k r t hr ht hlr hlt heq => h.own j k r t (hold hr).2 (hold ht).2 hlr hlt heq
  case runs =>
    intro j r hr hrun
    obtain ⟨hj, hr'⟩ := hold hr
    obtain ⟨k, l, hl, hll, hpid, hpt, hinc⟩ := h.runs j r hr' hrun
    refine ⟨k, l, hin ?_ hl, hll, hpid, hpt, hinc⟩
    rintro rfl
    cases hp.symm.trans hl
    have := hidle j r hj hr' hpt.symm
    rw [hrun] at this
    cases this
  case used =>
    intro pt halive
    have hne : pt ≠ p.pageTable := by
      rintro rfl
      have : Function.update s.alive p.pageTable false p.pageTable = true := halive
      rw [Function.update_self] at this
      cases this
    obtain ⟨k, l, hl, hll, hpt⟩ := h.used pt ((Function.update_of_ne hne _ _).symm.trans halive)
    refine ⟨k, l, hin ?_ hl, hll, hpt⟩
    rintro rfl
    cases hp.symm.trans hl
    exact hne hpt.symm

/-- **One step** keeps the invariant and destroys lawfully. -/
theorem Inv.step {e : Event} {ds : List (State × Destruction)} (h : Inv s) (horderly : Orderly s e)
    (hstep : s.step e = some (s', ds)) : Inv s' ∧ ∀ x ∈ ds, Lawful x.1 x.2 := by
  cases e with
  | cloneFork parent child pml4 copied =>
    obtain ⟨p, hp, hstep⟩ := Option.bind_eq_some_iff.1 hstep
    obtain ⟨hp, hrun⟩ := running_some hp
    split at hstep
    · cases hstep
    rename_i hfree
    obtain ⟨s₁, hs₁, hstep⟩ := Option.bind_eq_some_iff.1 hstep
    obtain ⟨hdead, rfl⟩ := createAddressSpace_some hs₁
    have hfree : s.slots child = none := by simpa using hfree
    cases copied with
    | true =>
      cases hstep
      exact ⟨h.addLeader hfree hdead rfl rfl (Function.update_self ..), by simp⟩
    | false =>
      cases hstep
      refine ⟨h.discard hdead _, ?_⟩
      simp only [List.mem_singleton, forall_eq]
      refine ⟨?_, Function.update_self ..⟩
      -- who runs has a table that exists, and this one did not
      intro j q hq _ heq
      by_contra hz
      have := h.running_alive hq (by simpa using hz)
      rw [heq, hdead] at this
      cases this
  | cloneThread parent child =>
    obtain ⟨p, hp, hstep⟩ := Option.bind_eq_some_iff.1 hstep
    obtain ⟨hp, hrun⟩ := running_some hp
    split at hstep
    · cases hstep
    rename_i hfree
    cases hstep
    exact ⟨h.addThread hp hrun (by simpa using hfree) rfl rfl rfl rfl, by simp⟩
  | execve idx pml4 =>
    obtain ⟨p, hp, hstep⟩ := Option.bind_eq_some_iff.1 hstep
    obtain ⟨hp, hrun⟩ := running_some hp
    rw [if_neg (horderly p hp)] at hstep
    cases hstep
    refine ⟨h, ?_⟩
    simp only [List.mem_singleton, forall_eq]
    refine ⟨?_, h.running_alive hp hrun⟩
    intro j q hq hne heq
    refine (horderly p hp ⟨j, fun hj => hne (by rw [hj]), ?_⟩).elim
    rw [hq, Option.map_some, heq]
  | exit idx =>
    obtain ⟨p, hp, hstep⟩ := Option.bind_eq_some_iff.1 hstep
    obtain ⟨hp, hrun⟩ := running_some hp
    cases hstep
    refine ⟨?_, by simp⟩
    have hslots : ∀ j, ((s.setSlot idx (some { p with zombie := true })).slots j).map (reparent p) =
        (s.slots j).map fun q => reparent p (if j = idx then { q with zombie := true } else q) := by
      intro j
      by_cases hj : j = idx
      · subst hj
        simp [State.setSlot, hp]
      · simp [State.setSlot, hj]
    refine Inv.kept (s := s) h hslots fun j q _ => ?_
    by_cases hj : j = idx
    · simpa [hj] using exit_kept q
    · simpa [hj] using reparent_kept q
  | reap parent child =>
    obtain ⟨p, hp, hstep⟩ := Option.bind_eq_some_iff.1 hstep
    obtain ⟨q, hq, hstep⟩ := Option.bind_eq_some_iff.1 hstep
    split at hstep
    · split at hstep <;> rename_i hzombie hleader <;> cases hstep
      · refine ⟨h.removeLeader hq hleader (horderly q hq hleader), ?_⟩
        simp only [List.mem_singleton, forall_eq]
        refine ⟨?_, (h.leader child q hq hleader).1⟩
        exact fun j r hr hne heq => horderly q hq hleader j r (fun hj => hne (by rw [hj])) hr heq
      · exact ⟨h.removeThread hq hleader, by simp⟩
    · cases hstep

theorem Run.inv {s₀ : State} (h₀ : Boot s₀) (hrun : Run Orderly s₀ s) : Inv s := by
  induction hrun with
  | init => exact h₀.inv
  | step _ horderly hstep ih => exact (ih.step horderly hstep).1

end Steps

/-! ## The runs -/

/-- **The life of a page table.** In a run of orderly steps every table has a user until it is destroyed, and a table is
destroyed once, when nobody else runs in it. -/
theorem page_tables_owned {s₀ s : State} (h₀ : Boot s₀) (hrun : Run Orderly s₀ s) :
    NoneLost s ∧ ∀ e s' ds, Orderly s e → s.step e = some (s', ds) → ∀ x ∈ ds, Lawful x.1 x.2 :=
  ⟨(hrun.inv h₀).noneLost, fun _ _ _ horderly hstep => ((hrun.inv h₀).step horderly hstep).2⟩

/-- Process 1 alone, with the page table `0x1000`. -/
def firstProcess : State where
  slots := Function.update (fun _ => none) 0 (some ⟨1, 1, 0, 0x1000, false, 1⟩)
  nextPid := 2
  alive := Function.update (fun _ => false) 0x1000 true
  created := Function.update (fun _ => 0) 0x1000 1

theorem firstProcess_boot : Boot firstProcess := by
  have hslot : ∀ i p, firstProcess.slots i = some p ↔ i = 0 ∧ p = ⟨1, 1, 0, 0x1000, false, 1⟩ := by
    intro i p
    by_cases hi : i = 0
    · subst hi
      simp [firstProcess, eq_comm]
    · simp [firstProcess, hi]
  refine ⟨?_, ?_, ?_⟩
  · intro i p hp
    obtain ⟨-, rfl⟩ := (hslot i p).1 hp
    exact ⟨rfl, by decide, by decide, by decide⟩
  · intro i j p q hp hq _
    exact ((hslot i p).1 hp).1.trans ((hslot j q).1 hq).1.symm
  · intro pt hpt
    refine ⟨0, _, (hslot 0 _).2 ⟨rfl, rfl⟩, ?_⟩
    by_contra hne
    simp [firstProcess, Function.update_of_ne (Ne.symm hne)] at hpt

def runEvents (s : State) : List Event → Option State
  | [] => some s
  | e :: es => (s.step e).bind fun r => runEvents r.1 es

theorem run_of_runEvents {Allowed : State → Event → Prop} {s₀ : State} :
    ∀ {es : List Event} {s s' : State}, Run Allowed s₀ s → (∀ t, ∀ e ∈ es, Allowed t e) →
      runEvents s es = some s' → Run Allowed s₀ s'
  | [], _, _, hrun, _, h => by
    cases h
    exact hrun
  | e :: es, s, s', hrun, hall, h => by
    obtain ⟨r, hr, h⟩ := Option.bind_eq_some_iff.1 h
    exact run_of_runEvents (hrun.step (hall s e (by simp)) hr) (fun t e he => hall t e (by simp [he])) h

/-- A child ends and is reaped: its table is destroyed, and the parent's is not. -/
theorem page_tables_owned_child : ∃ s, Run Orderly firstProcess s ∧ NoneLost s ∧
    s.created 0x2000 = 1 ∧ s.alive 0x2000 = false ∧ s.alive 0x1000 = true := by
  have hruns : ((runEvents firstProcess [.cloneFork 0 1 0x2000 true, .exit 1]).bind fun s =>
      if (s.slots 1).map Process.pageTable = some 0x2000 ∧
        ∀ j, j ≠ 1 → (s.slots j).map Process.pageTable ≠ some 0x2000
      then (s.step (.reap 0 1)).map fun r => (r.1.created 0x2000, r.1.alive 0x2000, r.1.alive 0x1000) else none) =
      some (1, false, true) := by decide +kernel
  obtain ⟨s, hs, hruns⟩ := Option.bind_eq_some_iff.1 hruns
  split at hruns
  case isFalse => cases hruns
  case isTrue hidle =>
    obtain ⟨⟨s', ds⟩, hreap, heq⟩ := Option.map_eq_some_iff.1 hruns
    simp only [Prod.mk.injEq] at heq
    have horderly : Orderly s (.reap 0 1) := by
      intro p hp _ j q hj hq hpt
      have hp' := hidle.1
      rw [hp, Option.map_some] at hp'
      refine (hidle.2 j hj ?_).elim
      rw [hq, Option.map_some, hpt, hp']
    have hrun : Run Orderly firstProcess s' := by
      refine Run.step (run_of_runEvents .init ?_ hs) horderly hreap
      intro t e he
      simp only [List.mem_cons, List.not_mem_nil, or_false] at he
      obtain rfl | rfl := he <;> trivial
    exact ⟨s', hrun, (page_tables_owned firstProcess_boot hrun).1, heq.1, heq.2⟩

/-- **Two failures.** A leader with a thread ends and is reaped: its table is destroyed while the thread runs in it. A
thread that executes a program gets a table that nobody destroys: all its users have been reaped, and it is still there. -/
theorem page_tables_mishandled :
    (∃ s, Run (fun _ _ => True) firstProcess s ∧ ∃ e s' ds, s.step e = some (s', ds) ∧
      ∃ x ∈ ds, ¬ Lawful x.1 x.2) ∧
    ∃ s, Run (fun _ _ => True) firstProcess s ∧ ¬ NoneLost s := by
  constructor
  · have hruns : ((runEvents firstProcess [.cloneFork 0 1 0x2000 true, .cloneThread 1 2, .exit 1]).bind fun s =>
        (s.step (.reap 0 1)).map fun r =>
          (s.slots 2, r.2.map fun x => (x.2.owner, x.2.pageTable, x.1.slots 2))) =
        some (some ⟨3, 2, 1, 0x2000, false, 1⟩, [(some 1, 0x2000, some ⟨3, 2, 1, 0x2000, false, 1⟩)]) := by
      decide +kernel
    obtain ⟨s, hs, hruns⟩ := Option.bind_eq_some_iff.1 hruns
    obtain ⟨⟨s', ds⟩, hreap, heq⟩ := Option.map_eq_some_iff.1 hruns
    obtain ⟨-, hds⟩ := Prod.mk.inj heq
    obtain ⟨x, hx, hxs⟩ : ∃ x ∈ ds, (x.2.owner, x.2.pageTable, x.1.slots 2) =
        (some 1, 0x2000, some ⟨3, 2, 1, 0x2000, false, 1⟩) := List.mem_map.1 (by rw [hds]; simp)
    refine ⟨s, run_of_runEvents .init (fun _ _ _ => trivial) hs, _, s', ds, hreap, x, hx, fun hlawful => ?_⟩
    simp only [Prod.mk.injEq] at hxs
    have := hlawful.unused 2 _ hxs.2.2 (by rw [hxs.1]; decide) hxs.2.1.symm
    cases this
  · have hruns : ((runEvents firstProcess [.cloneFork 0 1 0x2000 true, .cloneThread 1 2, .execve 2 0x3000, .exit 2,
        .reap 1 2, .exit 1, .reap 0 1]).map fun s =>
          (s.alive 0x3000, decide (∀ i, (s.slots i).map Process.pageTable ≠ some 0x3000))) = some (true, true) := by
      decide +kernel
    obtain ⟨s, hs, heq⟩ := Option.map_eq_some_iff.1 hruns
    obtain ⟨halive, hnobody⟩ := Prod.mk.inj heq
    refine ⟨s, run_of_runEvents .init (fun _ _ _ => trivial) hs, fun hnone => ?_⟩
    obtain ⟨i, p, hp, hpt, -⟩ := hnone 0x3000 halive
    exact of_decide_eq_true hnobody i (by rw [hp, Option.map_some, hpt])

end Zigix.AddressSpaces
