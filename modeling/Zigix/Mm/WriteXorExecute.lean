import Zigix.Mm.Mprotect

/-!
# Write and execute apart

* `EveryArea P list` : the flags of every area in use satisfy `P`; kept by removing, and by adding and splitting when
  the new flags satisfy `P`;
* `splitForProtect_split` : an area gets the new flags exactly when there are slots for the pieces (`RoomToSplit`);
* `writeXorExecute_iff` : over a whole run, no area is ever writable and executable if and only if no call is
  `Unchecked`; `mprotect_leaves_wx` : one such call.
-/

namespace Zigix.Vma

variable {P : Flags → Prop} {list list' : VmaList} {i : Fin maxVmas} {v : Vma}

def EveryArea (P : Flags → Prop) (list : VmaList) : Prop := ∀ i, (list i).inUse = true → P (list i).flags

theorem EveryArea.update (h : EveryArea P list) (i : Fin maxVmas) (v : Vma) (hv : v.inUse = true → P v.flags) :
    EveryArea P (Function.update list i v) := by
  intro j hj
  by_cases hji : j = i
  · subst hji
    rw [Function.update_self] at hj ⊢
    exact hv hj
  · rw [Function.update_of_ne hji] at hj ⊢
    exact h j hj

theorem EveryArea.place (h : EveryArea P list) (hv : P v.flags) (hp : place list v = some list') :
    EveryArea P list' := by
  obtain ⟨i, -, rfl⟩ := place_some hp
  exact h.update i v fun _ => hv

/-! ## Removing a range -/

theorem EveryArea.removeFrom (h : EveryArea P list) {s e : Nat} {b : Bool}
    (hr : removeFrom s e list i = some (b, list')) : EveryArea P list' := by
  have hold : (list i).inUse = true → P (list i).flags := h i
  have hleft : EveryArea P (Function.update list i ((list i).left s)) := h.update i _ hold
  cases removeFrom_turn hr with
  | clear => exact h
  | inside => exact h.update i _ fun hu => absurd hu Bool.false_ne_true
  | split hm => exact hleft.update _ _ fun _ => hold hm.inUse
  | full => exact hleft
  | trimEnd => exact hleft
  | trimStart => exact h.update i _ hold

theorem EveryArea.removeLoop {s e : Nat} {b : Bool} (is : List (Fin maxVmas)) (h : EveryArea P list)
    (hr : removeLoop s e is list = some (b, list')) : EveryArea P list' := by
  induction is generalizing list with
  | nil =>
    cases hr
    exact h
  | cons i is ih =>
    rw [Vma.removeLoop] at hr
    rcases hf : Vma.removeFrom s e list i with - | ⟨b₁, list₁⟩
    · rw [hf] at hr
      cases hr
    · rw [hf] at hr
      have hstep := h.removeFrom hf
      cases b₁ with
      | false =>
        cases hr
        exact hstep
      | true => exact ih hstep hr

/-! ## Changing the protection of a range -/

theorem EveryArea.splitForProtect (h : EveryArea P list) {s e : Nat} {flags : Flags} {b : Bool} (hflags : P flags)
    (hs : splitForProtect list s e flags = some (b, list')) : EveryArea P list' := by
  cases hfind : findVma list s with
  | none =>
    unfold Vma.splitForProtect at hs
    rw [hfind] at hs
    cases hs
    exact h
  | some i =>
    have hold : P (list i).flags := h i (findVma_some hfind).1
    have hleft : EveryArea P (Function.update list i ((list i).left s)) := h.update i _ fun _ => hold
    cases splitForProtect_divided hfind hs with
    | full => exact h
    | whole => exact h.update i _ fun _ => hflags
    | front =>
      refine (h.update i _ fun _ => ?_).update _ _ fun _ => ?_
      · exact hflags
      · exact hold
    | back => exact hleft.update _ _ fun _ => hflags
    | middle => exact (hleft.update _ _ fun _ => hflags).update _ _ fun _ => hold

structure Split (list : VmaList) (v : Vma) (s e : Nat) (flags : Flags) (b : Bool) (list' : VmaList) : Prop where
  room : b = true ↔ RoomToSplit list v s e
  done : b = true → ∃ i, (list' i).inUse = true ∧ (list' i).flags = flags
  undone : b = false → list' = list

theorem splitForProtect_split {s e : Nat} {flags : Flags} {b : Bool} (hfind : findVma list s = some i)
    (hs : splitForProtect list s e flags = some (b, list')) : Split list (list i) s e flags b list' := by
  have hu : (list i).inUse = true := (findVma_some hfind).1
  have hdone := splitForProtect_divided hfind hs
  refine ⟨hdone.room.trans roomToSplit_min, ?_, ?_⟩
  · rintro rfl
    cases hdone with
    | whole =>
      refine ⟨i, ?_⟩
      rw [Function.update_self]
      exact ⟨hu, rfl⟩
    | front _ _ _ hji =>
      refine ⟨i, ?_⟩
      rw [Function.update_of_ne hji.symm, Function.update_self]
      exact ⟨hu, rfl⟩
    | @back j _ _ _ _ hji =>
      refine ⟨j, ?_⟩
      rw [Function.update_self]
      exact ⟨rfl, rfl⟩
    | @middle j _ _ _ _ _ _ _ _ _ hkj =>
      refine ⟨j, ?_⟩
      rw [Function.update_of_ne hkj.symm, Function.update_self]
      exact ⟨rfl, rfl⟩
  · rintro rfl
    cases hdone
    rfl

end Zigix.Vma

namespace Zigix.Mmap

open Pmm (pageSize addU64 subU64 mulU64)
open Vma hiding pageSize
open Vmm

/-! ## One call -/

def ApartFlags (f : Flags) : Prop := ¬ (f.write = true ∧ f.exec = true)

def WriteXorExecute (list : VmaList) : Prop := EveryArea ApartFlags list

section
variable {s s' : Sys} {r : Except Errno Nat} {a : MmapArgs} {len base : Nat} {P : Flags → Prop}

theorem mmapAt_everyArea {flags : Flags} {inode : Option Nat} {offset : Nat} (h : EveryArea P s.proc.vmas)
    (hflags : P flags) (hr : mmapAt base len flags inode offset s = some (r, s')) : EveryArea P s'.proc.vmas := by
  rcases mmapAt_cases hr with ⟨-, rfl⟩ | ⟨vmas, -, rfl, hadd⟩
  · exact h
  · unfold addMmapVma addElfVma at hadd
    refine h.place ?_ hadd
    exact hflags

theorem mmapSmall_everyArea {flags : Flags} {inode : Option Nat} {offset : Nat} (h : EveryArea P s.proc.vmas)
    (hflags : P flags) (hr : mmapSmall a len flags inode offset s = some (r, s')) : EveryArea P s'.proc.vmas := by
  unfold mmapSmall at hr
  split at hr
  · split at hr
    · cases hr
      exact h
    · obtain ⟨stop, -, hr⟩ := Option.bind_eq_some_iff.1 hr
      obtain ⟨⟨b, vmas⟩, hrem, hr⟩ := Option.bind_eq_some_iff.1 hr
      have hvmas : EveryArea P vmas := h.removeLoop _ hrem
      exact mmapAt_everyArea hvmas hflags hr
  · obtain ⟨⟨base, proc⟩, halloc, hr⟩ := Option.bind_eq_some_iff.1 hr
    obtain ⟨-, -, rfl⟩ := allocMmapRegion_some halloc
    have hvmas : EveryArea P { s with proc := { s.proc with mmapHint := base } }.proc.vmas := h
    exact mmapAt_everyArea hvmas hflags hr

theorem mmapHugeAt_everyArea (h : EveryArea P s.proc.vmas)
    (hflags : ∀ giga huge, P { protToVmaFlags a.prot with anon := true, gigapage := giga, hugepage := huge })
    (hr : mmapHugeAt a len base s = some (r, s')) : EveryArea P s'.proc.vmas := by
  rcases mmapHugeAt_cases hr with ⟨-, hproc⟩ | ⟨phys, vmas, -, hproc, hadd⟩
  · rw [hproc]
    exact h
  · rw [hproc]
    unfold addMmapVmaHuge at hadd
    refine h.place ?_ hadd
    exact hflags _ _

theorem mmapHuge_everyArea (h : EveryArea P s.proc.vmas)
    (hflags : ∀ giga huge, P { protToVmaFlags a.prot with anon := true, gigapage := giga, hugepage := huge })
    (hr : mmapHuge a s = some (r, s')) : EveryArea P s'.proc.vmas := by
  unfold mmapHuge at hr
  obtain ⟨len, -, hr⟩ := Option.bind_eq_some_iff.1 hr
  split at hr
  · split at hr
    · cases hr
      exact h
    · exact mmapHugeAt_everyArea h hflags hr
  · obtain ⟨⟨base, proc⟩, halloc, hr⟩ := Option.bind_eq_some_iff.1 hr
    obtain ⟨-, -, rfl⟩ := allocMmapRegion_some halloc
    have hvmas : EveryArea P { s with proc := { s.proc with mmapHint := base } }.proc.vmas := h
    exact mmapHugeAt_everyArea hvmas hflags hr

theorem sysMmap_writeXorExecute (h : WriteXorExecute s.proc.vmas) (hr : sysMmap a s = some (r, s')) :
    WriteXorExecute s'.proc.vmas := by
  unfold sysMmap at hr
  split at hr
  · cases hr
    exact h
  obtain ⟨len, -, hr⟩ := Option.bind_eq_some_iff.1 hr
  split at hr
  · cases hr
    exact h
  rename_i hprot
  have hflags : ¬ (protWrite a.prot = true ∧ protExec a.prot = true) := by
    simpa using hprot
  split at hr
  · split at hr
    · exact mmapHuge_everyArea h (fun _ _ => hflags) hr
    · refine mmapSmall_everyArea h ?_ hr
      exact hflags
  split at hr
  · cases hr
    exact h
  split at hr
  · cases hr
    exact h
  · refine mmapSmall_everyArea h ?_ hr
    exact hflags

end

/-- A call of `mprotect` for writing and executing together that is rejected only after the areas are changed: its
arguments pass the other checks, an area covers the address and there are slots for the pieces. -/
def Unchecked (p : Process) : Call → Prop
  | .mprotect addr length prot =>
    protWrite prot = true ∧ protExec prot = true ∧ addr % pageSize = 0 ∧ length ≠ 0 ∧
      ∃ i, findVma p.vmas addr = some i ∧
        RoomToSplit p.vmas (p.vmas i) addr (addr + alignDown pageSize (length + pageSize - 1))
  | _ => False

section
variable {s s' : Sys} {r : Except Errno Nat} {addr length prot : Nat}

theorem sysMprotect_writeXorExecute (h : WriteXorExecute s.proc.vmas)
    (hr : sysMprotect addr length prot s = some (r, s')) :
    WriteXorExecute s'.proc.vmas ↔ ¬ Unchecked s.proc (.mprotect addr length prot) := by
  cases sysMprotect_outcome hr with
  | refused hno =>
    refine ⟨fun _ => ?_, fun _ => h⟩
    rintro ⟨-, -, haddr, hlen, i, hfind, hroom⟩
    exact hno i ⟨haddr, hlen, hfind, hroom⟩
  | @late i list hacc hwx =>
    -- the area with the new flags is there, although the call returns an error
    obtain ⟨j, hj, hflags⟩ := (splitForProtect_split hacc.find hacc.split).done rfl
    have hbad : ¬ WriteXorExecute list := by
      intro hapart
      have hj' := hapart j hj
      rw [hflags] at hj'
      exact hj' hwx
    refine ⟨fun hapart => absurd hapart hbad, fun hun => absurd ?_ hun⟩
    exact ⟨hwx.1, hwx.2, hacc.aligned, hacc.nonempty, i, hacc.find, hacc.accepts.2.2.2⟩
  | done hacc hwx =>
    refine ⟨fun _ hun => hwx ⟨hun.1, hun.2.1⟩, fun _ => ?_⟩
    refine EveryArea.splitForProtect h ?_ hacc.split
    exact hwx

end

/-! ## Runs -/

/-- `P` holds now and in every state that the calls lead to. -/
def Always (P : Sys → Prop) (s : Sys) : List Call → Prop
  | [] => P s
  | c :: cs => P s ∧ ∀ r s', syscall c s = some (r, s') → Always P s' cs

/-- No call of the run is `Unchecked` in the state that it meets. -/
def AllChecked (s : Sys) : List Call → Prop
  | [] => True
  | c :: cs => ∀ r s', syscall c s = some (r, s') → ¬ Unchecked s.proc c ∧ AllChecked s' cs

/-- `mmap` and `mprotect`. -/
def Call.Maps : Call → Prop
  | .mmap _ => True
  | .mprotect _ _ _ => True
  | _ => False

theorem Always.now {P : Sys → Prop} {s : Sys} {cs : List Call} (h : Always P s cs) : P s := by
  cases cs with
  | nil => exact h
  | cons c cs => exact h.1

theorem syscall_writeXorExecute {s s' : Sys} {c : Call} {r : Except Errno Nat} (h : WriteXorExecute s.proc.vmas)
    (hc : c.Maps) (hr : syscall c s = some (r, s')) : WriteXorExecute s'.proc.vmas ↔ ¬ Unchecked s.proc c := by
  cases c with
  | mmap a => exact ⟨fun _ hun => hun, fun _ => sysMmap_writeXorExecute h hr⟩
  | mprotect addr length prot => exact sysMprotect_writeXorExecute h hr
  | munmap addr length => exact hc.elim
  | mremap oldAddr oldSize newSize flags => exact hc.elim
  | brk requested => exact hc.elim

/-- **Write xor execute.** Over any sequence of `mmap` and `mprotect` calls, from areas none of which is writable and
executable, none ever is if and only if no call asks `mprotect` for both on a range that it goes on to split. -/
theorem writeXorExecute_iff {s : Sys} {cs : List Call} (h : WriteXorExecute s.proc.vmas) (hcs : ∀ c ∈ cs, c.Maps) :
    Always (fun t => WriteXorExecute t.proc.vmas) s cs ↔ AllChecked s cs := by
  induction cs generalizing s with
  | nil => exact ⟨fun _ => trivial, fun _ => h⟩
  | cons c cs ih =>
    have hc : c.Maps := hcs c List.mem_cons_self
    have hrest : ∀ d ∈ cs, d.Maps := fun d hd => hcs d (List.mem_cons_of_mem c hd)
    constructor
    · intro hall r s' hr
      have hnext := hall.2 r s' hr
      exact ⟨(syscall_writeXorExecute h hc hr).1 hnext.now, (ih hnext.now hrest).1 hnext⟩
    · intro hall
      refine ⟨h, fun r s' hr => ?_⟩
      obtain ⟨hun, hnext⟩ := hall r s' hr
      exact (ih ((syscall_writeXorExecute h hc hr).2 hun) hrest).2 hnext

theorem writeXorExecute_empty : WriteXorExecute emptyProcess.proc.vmas := nofun

/-- A writable page that is then made executable instead. -/
theorem writeXorExecute_iff_anyPage :
    Always (fun t => WriteXorExecute t.proc.vmas) emptyProcess [.mmap anyPage, .mprotect 0x6ffffffff000 0x1000 5] :=
  (writeXorExecute_iff writeXorExecute_empty (by simp [Call.Maps])).2
    fun _ _ _ => ⟨id, fun _ _ _ => ⟨fun hun => absurd hun.1 (by decide), trivial⟩⟩

/-- `mprotect` for reading, writing and executing a page returns `EINVAL` and leaves the page so. -/
theorem mprotect_leaves_wx : WriteXorExecute emptyProcess.proc.vmas ∧ ∃ s₁ s₂,
    syscall (.mmap anyPage) emptyProcess = some (.ok 0x6ffffffff000, s₁) ∧
      syscall (.mprotect 0x6ffffffff000 0x1000 7) s₁ = some (.error .EINVAL, s₂) ∧
      ¬ WriteXorExecute s₂.proc.vmas := by
  have h₁ : (syscall (.mmap anyPage) emptyProcess).map (·.1) = some (.ok 0x6ffffffff000) := by decide +kernel
  have h₂ : ((syscall (.mmap anyPage) emptyProcess).bind fun x => syscall (.mprotect 0x6ffffffff000 0x1000 7) x.2).map
      (fun x => (x.1, (x.2.proc.vmas 0).inUse, (x.2.proc.vmas 0).flags.write, (x.2.proc.vmas 0).flags.exec)) =
      some (.error .EINVAL, true, true, true) := by decide +kernel
  obtain ⟨⟨r₁, s₁⟩, hs₁, rfl⟩ := Option.map_eq_some_iff.1 h₁
  rw [hs₁, Option.bind_some] at h₂
  obtain ⟨⟨r₂, s₂⟩, hs₂, hv⟩ := Option.map_eq_some_iff.1 h₂
  obtain ⟨rfl, huse, hw, hx⟩ := by simpa only [Prod.mk.injEq] using hv
  exact ⟨writeXorExecute_empty, s₁, s₂, hs₁, hs₂, fun h => h 0 huse ⟨hw, hx⟩⟩

end Zigix.Mmap
