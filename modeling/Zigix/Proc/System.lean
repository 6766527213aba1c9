import Zigix.Mm.FaultSpec
import Zigix.Proc.CloneSpec

/-!
# Processes and their address spaces

A table of processes, each with its own address space: `cloneFork` and the end of a process
(`kernel/proc/clone.zig`, `kernel/proc/process.zig`), and page faults.

* `Sound` : the address spaces of the processes satisfy the invariant of the page tables;
* `resolve_spec`, `cloneFork_spec`, `exit_spec` : each step keeps it, and where the leaf entries come from.
-/

namespace Zigix

open Forest Pmm Pte Vmm Space Fault Clone

structure System where
  machine : Machine
  procs : Nat → Option Process

namespace System

/-! ## Steps -/

/-- `cloneFork`, without the child's kernel stack: `child` is the new process id. -/
def cloneFork (kernelPml4 : Nat) (s : System) (parent child : Nat) : System :=
  match s.procs parent, s.procs child with
  | some p, none =>
    match createAddressSpace s.machine kernelPml4 with
    | (none, m) => { s with machine := m }
    | (some pml4, m) =>
      match cowCopyUserPages p.pageTable pml4 m with
      | (false, m) => { s with machine := destroyAddressSpace m pml4 }
      | (true, m) => { machine := m, procs := Function.update s.procs child (some { p with pageTable := pml4 }) }
  | _, _ => s

def exit (s : System) (pid : Nat) : System :=
  match s.procs pid with
  | none => s
  | some p => { machine := destroyAddressSpace s.machine p.pageTable, procs := Function.update s.procs pid none }

/-- A page fault of process `pid` at `virt`. -/
def fault (fs : FileSystem) (s : System) (pid virt : Nat) (err : ErrorCode) : Option (Bool × System) :=
  match s.procs pid with
  | none => some (false, s)
  | some p => (resolve fs p virt err s.machine).map fun (ok, m) => (ok, { s with machine := m })

/-! ## The invariant -/

/-- The address spaces in use. -/
def roots (procs : Nat → Option Process) : Set Nat := {r | ∃ pid p, procs pid = some p ∧ p.pageTable = r}

structure Sound (s : System) : Prop where
  inv : Inv (roots s.procs) 0 s.machine
  distinct : ∀ {pid pid' p p'}, s.procs pid = some p → s.procs pid' = some p' → p.pageTable = p'.pageTable → pid = pid'

theorem Sound.of {m : Machine} {procs : Nat → Option Process} (h : Inv (roots procs) 0 m)
    (hd : ∀ {pid pid' p p'}, procs pid = some p → procs pid' = some p' → p.pageTable = p'.pageTable → pid = pid') :
    Sound { machine := m, procs := procs } := ⟨h, hd⟩

theorem mem_roots {procs : Nat → Option Process} {pid : Nat} {p : Process} (h : procs pid = some p) :
    p.pageTable ∈ roots procs := ⟨pid, p, h, rfl⟩

theorem roots_fork {procs : Nat → Option Process} {child : Nat} (h : procs child = none) (p : Process) :
    roots (Function.update procs child (some p)) = insert p.pageTable (roots procs) := by
  ext r
  constructor
  · rintro ⟨pid, p', hp, rfl⟩
    by_cases hpid : pid = child
    · subst hpid
      rw [Function.update_self] at hp
      cases hp
      exact .inl rfl
    · rw [Function.update_of_ne hpid] at hp
      exact .inr ⟨pid, p', hp, rfl⟩
  · rintro (rfl | ⟨pid, p', hp, rfl⟩)
    · exact ⟨child, p, Function.update_self _ _ _, rfl⟩
    · have hpid : pid ≠ child := by
        rintro rfl
        rw [h] at hp
        cases hp
      exact ⟨pid, p', by rw [Function.update_of_ne hpid]; exact hp, rfl⟩

theorem Sound.roots_exit {s : System} (h : Sound s) {pid : Nat} {p : Process} (hp : s.procs pid = some p) :
    roots (Function.update s.procs pid none) = roots s.procs \ {p.pageTable} := by
  ext r
  constructor
  · rintro ⟨pid', p', hp', rfl⟩
    have hne : pid' ≠ pid := by
      rintro rfl
      rw [Function.update_self] at hp'
      cases hp'
    rw [Function.update_of_ne hne] at hp'
    exact ⟨⟨pid', p', hp', rfl⟩, fun he => hne (h.distinct hp' hp he)⟩
  · rintro ⟨⟨pid', p', hp', rfl⟩, hne⟩
    have hpid : pid' ≠ pid := by
      rintro rfl
      rw [hp] at hp'
      cases hp'
      exact hne rfl
    exact ⟨pid', p', by rw [Function.update_of_ne hpid]; exact hp', rfl⟩

/-- The leaf entry of a page of process `p`. -/
def Entry (s : System) (p : Process) (virt : Nat) (w : Word) : Prop :=
  Leaf (roots s.procs) s.machine p.pageTable (leafPath virt) w

theorem entry_iff {m : Machine} {procs : Nat → Option Process} {p : Process} {virt : Nat} {w : Word} :
    Entry { machine := m, procs := procs } p virt w ↔ Leaf (roots procs) m p.pageTable (leafPath virt) w := Iff.rfl

theorem Sound.entry_of_getPTE {s : System} (h : Sound s) {pid virt : Nat} {p : Process} (hp : s.procs pid = some p)
    (hv : virt < userEnd) {pt i : Nat} (hg : getPTE s.machine p.pageTable virt = some (pt, i)) :
    s.Entry p virt (s.machine.mem pt i) := by
  obtain ⟨rfl, ht, hpres, -⟩ := getPTE_some h.inv (mem_roots hp) hv hg
  exact leaf_of_node ht rfl (leafPath_user hv) hpres

theorem Sound.getPTE_of_entry {s : System} (h : Sound s) {pid virt : Nat} {p : Process} {w : Word}
    (hp : s.procs pid = some p) (hv : virt < userEnd) (he : s.Entry p virt w) :
    (getPTE s.machine p.pageTable virt).isSome = true := by
  rw [getPTE_eq h.inv (mem_roots hp) hv]
  obtain ⟨q, t, i, hq, -, -, ht, hw, hpres⟩ := he
  obtain ⟨rfl, hi⟩ := List.append_inj' hq rfl
  cases hi
  rw [ht.2.2, Option.bind_some, follow_some.2 ⟨by rw [hw]; exact hpres, rfl⟩]
  rfl

/-! ## Page faults -/

theorem handleCow_not_cow {m : Machine} {r virt : Nat}
    (h : ∀ pt i, getPTE m r virt = some (pt, i) → isCow (m.mem pt i) = false) : handleCow r virt m = (false, m) := by
  unfold handleCow
  cases hg : getPTE m r virt with
  | none => rfl
  | some x =>
    obtain ⟨pt, i⟩ := x
    simp [h pt i hg]

inductive Origin (s : System) (p : Process) (virt : Nat) (w : Word) : Prop
  | old (h : s.Entry p virt w)
  | paged (i : Fin Vma.maxVmas) (f : Nat) (hi : Vma.findVma p.vmas virt = some i)
      (hw : w = make ((mapFlags (p.vmas i)).entry false) f)
  | cow (w₀ : Word) (h : s.Entry p virt w₀) (hc : isCow w₀ = true)

/-- What a page fault of process `p` at `virt` does. -/
structure Resolved (s : System) (p : Process) (virt : Nat) (m' : Machine) : Prop where
  inv : Inv (roots s.procs) 0 m'
  leaves : Leaves (roots s.procs) (fun r' p' => r' = p.pageTable ∧ p' = leafPath virt) s.machine m'
  origin : ∀ w, Leaf (roots s.procs) m' p.pageTable (leafPath virt) w → Origin s p virt w

theorem Resolved.unchanged {s : System} {p : Process} {virt : Nat} (h : Sound s) : Resolved s p virt s.machine :=
  ⟨h.inv, .refl _, fun _ hw => .old hw⟩

theorem resolve_spec {fs : FileSystem} {s : System} (h : Sound s) {pid virt : Nat} {p : Process}
    (hp : s.procs pid = some p) (hv : virt < userEnd) {err : ErrorCode} {res : Bool × Machine}
    (hres : resolve fs p virt err s.machine = some res) : Resolved s p virt res.2 := by
  have hr := mem_roots hp
  rcases resolve_cases hres with rfl | ⟨i, hfind, -, hdemand⟩ | ⟨-, -, rfl⟩
  · exact .unchanged h
  · have hd := handleDemandPage_spec h.inv hr (pageBase_lt hv) hdemand
    have hleaves := hd.leaves
    rw [leafPath_pageBase] at hleaves
    refine ⟨hd.inv, hleaves, fun w hw => ?_⟩
    cases hok : res.1 with
    | false => exact .old (hd.failed hok _ _ _ hw id)
    | true =>
      cases htr : translate s.machine p.pageTable (pageBase virt) with
      | some phys =>
        have := hd.present (by rw [htr]; rfl)
        rw [this] at hw
        exact .old hw
      | none =>
        obtain ⟨f, hf⟩ := hd.mapped hok htr
        rw [leafPath_pageBase] at hf
        exact .paged i f hfind (hw.unique hf)
  · have hc := handleCow_spec h.inv hr (pageBase_lt hv)
    have hleaves := hc.leaves
    rw [leafPath_pageBase] at hleaves
    refine ⟨hc.inv, hleaves, fun w hw => ?_⟩
    by_cases hcow : ∀ pt i, getPTE s.machine p.pageTable (pageBase virt) = some (pt, i) →
        isCow (s.machine.mem pt i) = false
    · rw [handleCow_not_cow hcow] at hw
      exact .old hw
    · push Not at hcow
      obtain ⟨pt, i', hg, hcw⟩ := hcow
      have he := h.entry_of_getPTE hp (pageBase_lt hv) hg
      rw [Entry, leafPath_pageBase] at he
      exact .cow _ he (by simpa using hcw)

/-! ## Fork and exit -/

/-- Where a leaf entry comes from when `parent` forks: it is as before, or the parent had the page. -/
def Inherited (s : System) (parent pid : Nat) (p : Process) (virt : Nat) (w : Word) : Prop :=
  (s.procs pid = some p ∧ s.Entry p virt w) ∨
    ∃ pp w₀, s.procs parent = some pp ∧ p.vmas = pp.vmas ∧ s.Entry pp virt w₀

theorem procs_cloneFork {s : System} {kernelPml4 parent child pid : Nat} {p : Process}
    (hp : (cloneFork kernelPml4 s parent child).procs pid = some p) :
    ∃ pid' p', s.procs pid' = some p' ∧ p.vmas = p'.vmas := by
  unfold cloneFork at hp
  split at hp
  case h_2 => exact ⟨pid, p, hp, rfl⟩
  case h_1 pp hpp _ =>
  split at hp
  · exact ⟨pid, p, hp, rfl⟩
  split at hp
  · exact ⟨pid, p, hp, rfl⟩
  simp only [Function.update_apply] at hp
  split at hp
  · cases hp
    exact ⟨parent, pp, hpp, rfl⟩
  · exact ⟨pid, p, hp, rfl⟩

theorem procs_cloneFork_of_ne {s : System} {kernelPml4 parent child pid : Nat} (h : pid ≠ child) :
    (cloneFork kernelPml4 s parent child).procs pid = s.procs pid := by
  unfold cloneFork
  split
  · split
    · rfl
    split
    · rfl
    · exact Function.update_of_ne h _ _
  · rfl

section Fork
variable {s : System} {m₁ m₂ : Machine} {parent f : Nat} {pp : Process}

theorem inherited_of_copy (h : Sound s) (hpp : s.procs parent = some pp) (hnew : f ∉ roots s.procs)
    (hkeep : Keeps (roots s.procs) (fun _ _ => False) s.machine m₁)
    (hleaf : Leaves (roots s.procs) (fun _ _ => False) s.machine m₁)
    (hk : Keeps (insert f (roots s.procs)) (Below f []) m₁ m₂)
    (hl : Leaves (insert f (roots s.procs)) (Either pp.pageTable f) m₁ m₂) {pid virt : Nat} {p : Process} {w : Word}
    (hp : s.procs pid = some p) (he : Leaf (insert f (roots s.procs)) m₂ p.pageTable (leafPath virt) w) :
    Inherited s parent pid p virt w := by
  have hpr := mem_roots hp
  have hpf : p.pageTable ≠ f := fun he => hnew (he ▸ hpr)
  by_cases hpid : p.pageTable = pp.pageTable
  · obtain rfl := h.distinct hp hpp hpid
    obtain rfl : p = pp := by
      rw [hp] at hpp
      exact Option.some.inj hpp
    have hn := he.node
    have hw := hn.2.2
    rw [hk.walk hn.1 hn.2.1 fun hb => hpf hb.1, hkeep.walk hpr hn.2.1 id] at hw
    obtain ⟨w₀, hw₀⟩ := leaf_of_walk hpr hn.2.1 leafPath_length hw
    exact .inr ⟨p, w₀, hp, rfl, hw₀⟩
  · refine .inl ⟨hp, hleaf _ _ _ ((hl _ _ _ he ?_).weaken hpr) id⟩
    rintro (he | he)
    · exact hpid he
    · exact hpf he

end Fork

theorem cloneFork_spec {s : System} (h : Sound s) (kernelPml4 parent child : Nat) :
    Sound (cloneFork kernelPml4 s parent child) ∧
      ∀ pid p virt w, (cloneFork kernelPml4 s parent child).procs pid = some p → virt < userEnd →
        (cloneFork kernelPml4 s parent child).Entry p virt w → Inherited s parent pid p virt w := by
  unfold cloneFork
  split
  case h_2 => exact ⟨h, fun pid p virt w hp _ he => .inl ⟨hp, he⟩⟩
  case h_1 pp hpp hchild =>
  have hr := mem_roots hpp
  rcases createAddressSpace_spec h.inv kernelPml4 with ⟨hf, hinv, -, hleaf⟩ | ⟨f, hf, hnew, hinv, hkeep, hleaf, hempty⟩
  · rcases hcreate : createAddressSpace s.machine kernelPml4 with ⟨o, m₁⟩
    rw [hcreate] at hf hinv hleaf
    dsimp only at hf hinv hleaf ⊢
    obtain rfl := hf
    exact ⟨.of hinv h.distinct, fun pid p virt w hp _ he => .inl ⟨hp, hleaf _ _ _ (entry_iff.1 he) id⟩⟩
  rcases hcreate : createAddressSpace s.machine kernelPml4 with ⟨o, m₁⟩
  rw [hcreate] at hf hinv hkeep hleaf hempty
  dsimp only at hf hinv hkeep hleaf hempty
  obtain rfl := hf
  have hne : pp.pageTable ≠ f := fun he => hnew (he ▸ hr)
  have hcopy := cowCopyUserPages_spec hinv (.inr hr) (.inl rfl) hne fun i hi => hempty i [] hi
  have hback := fun {m₂ : Machine} => @inherited_of_copy _ _ m₂ _ _ _ h hpp hnew hkeep hleaf
  dsimp only
  rcases hres : cowCopyUserPages pp.pageTable f m₁ with ⟨ok, m₂⟩
  rw [hres] at hcopy
  cases ok with
  | false =>
    dsimp only
    obtain ⟨hinv₂, hk, hl⟩ : Failed _ 0 pp.pageTable f [] m₁ m₂ := hcopy.fail rfl
    obtain ⟨hinv₃, -, hl₃⟩ := destroyAddressSpace_spec hinv₂ (.inl rfl)
    rw [Set.insert_sdiff_self_of_notMem hnew] at hinv₃ hl₃
    exact ⟨.of hinv₃ h.distinct, fun pid p virt w hp _ he => hback hk hl hp (hl₃ _ _ _ (entry_iff.1 he))⟩
  | true =>
    have hfork : Forked _ 0 pp.pageTable f m₁ m₂ := hcopy.ok rfl
    have hroots := roots_fork hchild { pp with pageTable := f }
    refine ⟨.of (by rw [hroots]; exact hfork.inv) ?_, ?_⟩
    · intro pid pid' p p' hp hp' he
      have hold : ∀ {q : Nat} {p₁ : Process}, s.procs q = some p₁ → p₁.pageTable ≠ f :=
        fun hq he => hnew (he ▸ mem_roots hq)
      simp only [Function.update_apply] at hp hp'
      split at hp <;> split at hp'
      · next h1 h2 => rw [h1, h2]
      · cases hp
        exact absurd he.symm (hold hp')
      · cases hp'
        exact absurd he (hold hp)
      · exact h.distinct hp hp' he
    · intro pid p virt w hp hv he
      rw [entry_iff, hroots] at he
      simp only [Function.update_apply] at hp
      split at hp
      · cases hp
        have hn := he.node
        have hw := hn.2.2
        rw [hfork.same _ hn.2.1 leafPath_length, hkeep.walk hr hn.2.1 id] at hw
        obtain ⟨w₀, hw₀⟩ := leaf_of_walk hr hn.2.1 leafPath_length hw
        exact .inr ⟨pp, w₀, hpp, rfl, hw₀⟩
      · exact hback hfork.keeps hfork.leaves hp he

theorem procs_exit {s : System} {pid q : Nat} {p : Process} (hq : (s.exit pid).procs q = some p) :
    s.procs q = some p := by
  unfold exit at hq
  split at hq
  · exact hq
  · simp only [Function.update_apply] at hq
    split at hq
    · cases hq
    · exact hq

theorem exit_spec {s : System} (h : Sound s) (pid : Nat) :
    Sound (s.exit pid) ∧ ∀ pid' p virt w, (s.exit pid).procs pid' = some p → (s.exit pid).Entry p virt w →
      s.procs pid' = some p ∧ s.Entry p virt w := by
  have hold := fun {q : Nat} {p : Process} (hq : (s.exit pid).procs q = some p) => procs_exit hq
  revert hold
  unfold exit
  cases hp : s.procs pid with
  | none => exact fun _ => ⟨h, fun _ _ _ _ hp he => ⟨hp, he⟩⟩
  | some p =>
    intro hold
    dsimp only at hold ⊢
    obtain ⟨hinv, -, hleaf⟩ := destroyAddressSpace_spec h.inv (mem_roots hp)
    have hroots := h.roots_exit hp
    refine ⟨.of (by rw [hroots]; exact hinv) fun hp hp' he => h.distinct (hold hp) (hold hp') he, ?_⟩
    intro pid' p' virt w hp' he
    rw [entry_iff, hroots] at he
    exact ⟨hold hp', hleaf _ _ _ he⟩

end System

end Zigix
