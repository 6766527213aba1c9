import Zigix.Mm.WriteXorExecute
import Zigix.Proc.CopyOut

/-!
# `mprotect` on pages that a fork shares

The writable bit of an entry stands for the permission and, cleared together with the copy-on-write bit set, for a
shared frame. `sysMprotect` writes it from the permission alone.

* `Shared page f s` : the page is mapped to frame `f`, which has further references;
* `mprotect_keeps_shared_iff` : over a run of calls, the page is never writable while it is shared if and only if no
  call of the run opens it; `mprotect_write_reaches_parent` : one call that does.
-/

namespace Zigix.Mmap

open Vma hiding pageSize
open Vmm
open Pte (isWritable frame)
open Fault (userRead userWrite)

section
variable {page f : Nat} {s s' : Sys} {c : Call} {cs : List Call} {r : Except Errno Nat}

def Shared (page f : Nat) (s : Sys) : Prop :=
  1 < s.machine.getRef f ∧
    ∃ t i, getPTE s.machine s.proc.pageTable page = some (t, i) ∧ frame (s.machine.mem t i) = f

def UserWritable (page : Nat) (s : Sys) : Prop :=
  ∃ t i, getPTE s.machine s.proc.pageTable page = some (t, i) ∧ isWritable (s.machine.mem t i) = true

def Opens (page : Nat) (s : Sys) : Call → Prop
  | .mprotect addr length prot =>
    (∃ i, Accepts addr length s.proc i) ∧ protWrite prot = true ∧ protExec prot = false ∧
      ∃ q ∈ pagesOf addr (protectEnd addr length),
        getPTE s.machine s.proc.pageTable q = getPTE s.machine s.proc.pageTable page
  | _ => False

def NeverOpens (page : Nat) (s : Sys) : List Call → Prop
  | [] => True
  | c :: cs => ∀ r s', syscall c s = some (r, s') → ¬ Opens page s c ∧ NeverOpens page s' cs

def Call.Protects : Call → Prop
  | .mprotect _ _ _ => True
  | _ => False

theorem getRef_protectPages (pages : List Nat) (pml4 : Nat) (writable noExec user : Bool) (m : Machine) :
    (pages.foldl (protectPage pml4 writable noExec user) m).getRef f = m.getRef f := by
  induction pages generalizing m with
  | nil => rfl
  | cons p ps ih =>
    rw [List.foldl_cons, ih]
    unfold protectPage
    split <;> rfl

/-- **One call**: the page stays mapped to its frame, and becomes writable exactly if the call opens it. -/
theorem mprotect_shared {addr length prot : Nat} (h : Shared page f s) (hro : ¬ UserWritable page s)
    (hr : sysMprotect addr length prot s = some (r, s')) :
    Shared page f s' ∧ (UserWritable page s' ↔ Opens page s (.mprotect addr length prot)) := by
  obtain ⟨href, t, i, hpte, hframe⟩ := h
  cases sysMprotect_outcome hr with
  | refused hno =>
    refine ⟨⟨href, t, i, hpte, hframe⟩, iff_of_false hro ?_⟩
    rintro ⟨⟨j, hj⟩, -⟩
    exact hno j hj
  | late hacc hwx =>
    refine ⟨⟨href, t, i, hpte, hframe⟩, iff_of_false hro ?_⟩
    rintro ⟨-, -, hexec, -⟩
    rw [hwx.2] at hexec
    cases hexec
  | done hacc hwx =>
    obtain ⟨hwalks, hbits, hother⟩ := protectPages_entries (pagesOf addr (protectEnd addr length)) s.machine
    have hpte' := (hwalks.getPTE s.proc.pageTable page).trans hpte
    refine ⟨⟨?_, t, i, hpte', (hwalks.frame t i).trans hframe⟩, ?_⟩
    · rw [getRef_protectPages]
      exact href
    constructor
    · rintro ⟨t', i', hpte'', hwrite⟩
      cases hpte'.symm.trans hpte''
      -- a word that the loop did not write would be as read-only as before
      have hq : ∃ q ∈ pagesOf addr (protectEnd addr length), getPTE s.machine s.proc.pageTable q = some (t, i) := by
        by_contra hnone
        have hsame := hother t i fun q hq hpteq => hnone ⟨q, hq, hpteq⟩
        rw [hsame] at hwrite
        exact hro ⟨t, i, hpte, hwrite⟩
      have hprot := (hbits t i (.inr hq)).1
      rw [hwrite] at hprot
      have hexec : protExec prot = false := Bool.eq_false_iff.2 fun hexec => hwx ⟨hprot.symm, hexec⟩
      obtain ⟨q, hq, hpteq⟩ := hq
      exact ⟨⟨_, hacc.accepts⟩, hprot.symm, hexec, q, hq, hpteq.trans hpte.symm⟩
    · rintro ⟨-, hprot, -, q, hq, hpteq⟩
      exact ⟨t, i, hpte', (hbits t i (.inr ⟨q, hq, hpteq.trans hpte⟩)).1.trans hprot⟩

/-- **Copy-on-write and `mprotect`.** Over any sequence of `mprotect` calls of a process, a read-only page whose frame
has other references is never writable while it maps that frame, if and only if no call opens it. -/
theorem mprotect_keeps_shared_iff (h : Shared page f s) (hro : ¬ UserWritable page s) (hcs : ∀ c ∈ cs, c.Protects) :
    Always (fun t => ¬ (Shared page f t ∧ UserWritable page t)) s cs ↔ NeverOpens page s cs := by
  induction cs generalizing s with
  | nil => exact ⟨fun _ => trivial, fun _ hw => hro hw.2⟩
  | cons c cs ih =>
    have hc : c.Protects := hcs c List.mem_cons_self
    have hrest : ∀ d ∈ cs, d.Protects := fun d hd => hcs d (List.mem_cons_of_mem c hd)
    cases c with
    | mprotect addr length prot =>
      constructor
      · intro hall r s' hr
        have hcall : sysMprotect addr length prot s = some (r, s') := hr
        obtain ⟨hshared, hopens⟩ := mprotect_shared h hro hcall
        have hnext := hall.2 r s' hr
        have hro' : ¬ UserWritable page s' := fun hw => hnext.now ⟨hshared, hw⟩
        exact ⟨mt hopens.2 hro', (ih hshared hro' hrest).1 hnext⟩
      · intro hall
        refine ⟨fun hw => hro hw.2, fun r s' hr => ?_⟩
        have hcall : sysMprotect addr length prot s = some (r, s') := hr
        obtain ⟨hshared, hopens⟩ := mprotect_shared h hro hcall
        obtain ⟨hno, hnext⟩ := hall r s' hr
        exact (ih hshared (mt hopens.1 hno) hrest).2 hnext
    | mmap => exact hc.elim
    | munmap => exact hc.elim
    | mremap => exact hc.elim
    | brk => exact hc.elim

theorem shared_of_entry (hpte : (getPTE s.machine s.proc.pageTable page).map (fun e =>
      (frame (s.machine.mem e.1 e.2), isWritable (s.machine.mem e.1 e.2))) = some (f, false))
    (href : 1 < s.machine.getRef f) : Shared page f s ∧ ¬ UserWritable page s := by
  obtain ⟨⟨t, i⟩, hget, heq⟩ := Option.map_eq_some_iff.1 hpte
  obtain ⟨hframe, hro⟩ : frame (s.machine.mem t i) = f ∧ isWritable (s.machine.mem t i) = false := by
    simpa only [Prod.mk.injEq] using heq
  refine ⟨⟨href, t, i, hget, hframe⟩, ?_⟩
  rintro ⟨t', i', hget', hw⟩
  cases hget.symm.trans hget'
  exact absurd (hro.symm.trans hw) nofun

end

/-- The parent after a fork that shares its page `0x400000`. -/
def forkedParent : Sys := { machine := Fork.forkedPage, proc := CopyOut.writer 512 }

set_option maxRecDepth 4000 in
theorem forkedParent_facts :
    (getPTE forkedParent.machine forkedParent.proc.pageTable 0x400000).map (fun e =>
      (frame (forkedParent.machine.mem e.1 e.2), isWritable (forkedParent.machine.mem e.1 e.2))) =
      some (514, false) ∧
    1 < forkedParent.machine.getRef 514 ∧
    (sysMprotect 0x400000 0x1000 3 forkedParent).map (fun res => (res.1,
      userRead 513 0x400000 (userWrite 512 0x400000 7 res.2.machine).2)) = some (.ok 0, some 7) := by
  decide +kernel

theorem forkedParent_shared : Shared 0x400000 514 forkedParent ∧ ¬ UserWritable 0x400000 forkedParent :=
  shared_of_entry forkedParent_facts.1 forkedParent_facts.2.1

/-- Two calls for reading only. -/
theorem mprotect_keeps_shared_reading :
    Always (fun t => ¬ (Shared 0x400000 514 t ∧ UserWritable 0x400000 t)) forkedParent
      [.mprotect 0x400000 0x1000 1, .mprotect 0x400000 0x1000 5] := by
  obtain ⟨h, hro⟩ := forkedParent_shared
  refine (mprotect_keeps_shared_iff h hro (by simp [Call.Protects])).2 fun _ _ _ => ⟨fun hopen => ?_, fun _ _ _ => ?_⟩
  · exact absurd hopen.2.1 (by decide)
  · exact ⟨fun hopen => absurd hopen.2.1 (by decide), trivial⟩

/-- After a fork the parent asks for reading and writing, as it had before: its next store is read by the child. -/
theorem mprotect_write_reaches_parent : Shared 0x400000 514 forkedParent ∧
    (sysMprotect 0x400000 0x1000 3 forkedParent).map (fun res => (res.1,
      userRead 513 0x400000 (userWrite 512 0x400000 7 res.2.machine).2)) = some (.ok 0, some 7) :=
  ⟨forkedParent_shared.1, forkedParent_facts.2.2⟩

end Zigix.Mmap
