import Zigix.Proc.ForkIsolation
import Zigix.Proc.System

/-!
# Write protection

Runs of page faults, forks and exits, and what the fault handler does to areas without `VMA_WRITE`:

* `write_fault_not_resolved` : then no write fault on such a page is resolved;
* `readOnly_page_written` : after a fork it is, and the page becomes writable.
-/

namespace Zigix.System

open Forest Pmm Pte Vmm Space Fault
open Vma (VmaList findVma contains)

inductive Event
  | fault (pid virt : Nat) (err : ErrorCode)
  | fork (parent child : Nat)
  | exit (pid : Nat)

/-- One event; `none` is a kernel panic. -/
def step (fs : FileSystem) (kernelPml4 : Nat) (s : System) : Event → Option System
  | .fault pid virt err => (s.fault fs pid virt err).map Prod.snd
  | .fork parent child => some (cloneFork kernelPml4 s parent child)
  | .exit pid => some (s.exit pid)

/-- The area that covers `virt` has no `VMA_WRITE`. -/
def ReadOnly (p : Process) (virt : Nat) : Prop :=
  virt < userEnd ∧ ∃ i, findVma p.vmas virt = some i ∧ (p.vmas i).flags.write = false

def Guarded (s : System) : Event → Prop
  | .fault pid virt err => ∀ p, s.procs pid = some p → virt < userEnd ∧
      (ReadOnly p virt → err.write = true → err.present = true)
  | .fork parent _ => ∀ p virt, s.procs parent = some p → ReadOnly p virt → getPTE s.machine p.pageTable virt = none
  | .exit _ => True

inductive Run (fs : FileSystem) (kernelPml4 : Nat) (s : System) : System → Prop
  | start : Run fs kernelPml4 s s
  | next {s₁ s₂ : System} {e : Event} (hrun : Run fs kernelPml4 s s₁) (hguard : Guarded s₁ e)
      (hstep : step fs kernelPml4 s₁ e = some s₂) : Run fs kernelPml4 s s₂

/-! ## Areas begin and end at page boundaries -/

def Aligned (list : VmaList) : Prop :=
  ∀ i, (list i).inUse = true → (list i).start % pageSize = 0 ∧ (list i).stop % pageSize = 0

theorem page_of_leafPath {v v' : Nat} (hv : v < userEnd) (hv' : v' < userEnd) (hp : leafPath v' = leafPath v) :
    v' / pageSize = v / pageSize := by
  simp only [leafPath, tablePath, List.cons_append, List.nil_append, List.cons.injEq, and_true] at hp
  obtain ⟨h4, h3, h2, h1⟩ := hp
  unfold pml4Idx at h4
  unfold pdptIdx at h3
  unfold pdIdx at h2
  unfold ptIdx at h1
  unfold userEnd at hv hv'
  unfold pageSize
  omega

theorem findVma_page {list : VmaList} (h : Aligned list) {v v' : Nat} (hpage : v' / pageSize = v / pageSize) :
    findVma list v' = findVma list v := by
  unfold findVma
  congr 1
  funext i
  unfold contains
  cases hu : (list i).inUse with
  | false => rfl
  | true =>
    obtain ⟨h1, h2⟩ := h i hu
    unfold pageSize at hpage h1 h2
    have hs : (list i).start ≤ v' ↔ (list i).start ≤ v := by omega
    have he : v' < (list i).stop ↔ v < (list i).stop := by omega
    simp only [hs, he]

/-! ## The invariant -/

structure Sealed (s : System) : Prop where
  sound : Sound s
  aligned : ∀ {pid p}, s.procs pid = some p → Aligned p.vmas
  pages : ∀ {pid p virt w}, s.procs pid = some p → ReadOnly p virt → s.Entry p virt w →
    isWritable w = false ∧ isCow w = false

theorem sealed_paged {v : Vma} {f : Nat} (h : v.flags.write = false) :
    isWritable (make ((mapFlags v).entry false) f) = false ∧ isCow (make ((mapFlags v).entry false) f) = false := by
  simp [mapFlags, MapFlags.entry, h]

section Step
variable {fs : FileSystem} {kernelPml4 : Nat} {s s' : System}

theorem fault_sealed (h : Sealed s) {pid virt : Nat} {err : ErrorCode} {ok : Bool}
    (hg : Guarded s (.fault pid virt err)) (hs : s.fault fs pid virt err = some (ok, s')) : Sealed s' := by
  unfold fault at hs
  cases hp : s.procs pid with
  | none =>
    rw [hp] at hs
    cases hs
    exact h
  | some p =>
    rw [hp] at hs
    obtain ⟨⟨ok', m'⟩, hres, he⟩ := Option.map_eq_some_iff.1 hs
    cases he
    have hv := (hg p hp).1
    have hr := resolve_spec h.sound hp hv hres
    refine ⟨⟨hr.inv, h.sound.distinct⟩, h.aligned, fun {pid' p' virt' w} hp' hro he => ?_⟩
    by_cases hpage : p'.pageTable = p.pageTable ∧ leafPath virt' = leafPath virt
    · -- the page that faulted: its area is the area of `virt`
      obtain rfl := h.sound.distinct hp' hp hpage.1
      obtain rfl : p' = p := by
        rw [hp'] at hp
        exact Option.some.inj hp
      obtain ⟨hv', i, hi, hw⟩ := hro
      rw [findVma_page (h.aligned hp') (page_of_leafPath hv hv' hpage.2)] at hi
      have hro : ReadOnly p' virt := ⟨hv, i, hi, hw⟩
      rw [Entry, hpage.2] at he
      cases hr.origin w he with
      | old ho => exact h.pages hp' hro ho
      | paged j f hj hpaged =>
        obtain rfl : j = i := by
          rw [hi] at hj
          exact (Option.some.inj hj).symm
        rw [hpaged]
        exact sealed_paged hw
      | cow w₀ ho hc =>
        rw [(h.pages hp' hro ho).2] at hc
        cases hc
    · exact h.pages hp' hro (hr.leaves _ _ _ he hpage)

theorem fork_sealed (h : Sealed s) {parent child : Nat} (hg : Guarded s (.fork parent child)) :
    Sealed (cloneFork kernelPml4 s parent child) := by
  obtain ⟨hsound, hold⟩ := cloneFork_spec h.sound kernelPml4 parent child
  have hvmas : ∀ {pid p}, (cloneFork kernelPml4 s parent child).procs pid = some p →
      ∃ pid' p', s.procs pid' = some p' ∧ p.vmas = p'.vmas := procs_cloneFork
  refine ⟨hsound, fun {pid p} hp => ?_, fun {pid p virt w} hp hro he => ?_⟩
  · obtain ⟨pid', p', hp', hv⟩ := hvmas hp
    rw [hv]
    exact h.aligned hp'
  · rcases hold pid p virt w hp hro.1 he with ⟨hp', he'⟩ | ⟨pp, w₀, hpp, hv, he'⟩
    · exact h.pages hp' hro he'
    · have hro' : ReadOnly pp virt := by rwa [ReadOnly, ← hv]
      have hpres := h.sound.getPTE_of_entry hpp hro.1 he'
      rw [hg pp virt hpp hro'] at hpres
      cases hpres

theorem exit_sealed (h : Sealed s) (pid : Nat) : Sealed (s.exit pid) := by
  obtain ⟨hsound, hold⟩ := exit_spec h.sound pid
  refine ⟨hsound, fun hp => h.aligned (procs_exit hp), fun hp hro he => ?_⟩
  obtain ⟨hp', he'⟩ := hold _ _ _ _ hp he
  exact h.pages hp' hro he'

/-- **One event.** -/
theorem step_sealed (h : Sealed s) {e : Event} (hg : Guarded s e) (hs : step fs kernelPml4 s e = some s') :
    Sealed s' := by
  cases e with
  | fault pid virt err =>
    obtain ⟨⟨ok, s₁⟩, hf, rfl⟩ := Option.map_eq_some_iff.1 hs
    exact fault_sealed h hg hf
  | fork parent child =>
    cases hs
    exact fork_sealed h hg
  | exit pid =>
    cases hs
    exact exit_sealed h pid

/-- **A run.** -/
theorem run_sealed (h : Sealed s) (hrun : Run fs kernelPml4 s s') : Sealed s' := by
  induction hrun with
  | start => exact h
  | next _ hg hs ih => exact step_sealed ih hg hs

end Step

/-- **Write protection.** In every state of a guarded run, a write fault on a page of a read-only area is not resolved
and changes nothing, and no such page is writable. -/
theorem write_fault_not_resolved {fs : FileSystem} {kernelPml4 : Nat} {s s' : System} (h : Sealed s)
    (hrun : Run fs kernelPml4 s s') {pid virt : Nat} {p : Process} (hp : s'.procs pid = some p)
    (hro : ReadOnly p virt) :
    (∀ err ok s₁, err.write = true → Guarded s' (.fault pid virt err) → s'.fault fs pid virt err = some (ok, s₁) →
      ok = false ∧ s₁ = s') ∧
    ∀ w, s'.Entry p virt w → isWritable w = false := by
  have hs := run_sealed h hrun
  refine ⟨fun err ok s₁ hw hg hf => ?_, fun w he => (hs.pages hp hro he).1⟩
  have hpres := (hg p hp).2 hro hw
  rw [fault, hp] at hf
  obtain ⟨⟨ok', m'⟩, hres, he⟩ := Option.map_eq_some_iff.1 hf
  cases he
  have hcow : handleCow p.pageTable (pageBase virt) s'.machine = (false, s'.machine) := by
    refine handleCow_not_cow fun pt i hg => ?_
    have he := hs.sound.entry_of_getPTE hp (pageBase_lt hro.1) hg
    rw [Entry, leafPath_pageBase] at he
    exact (hs.pages hp hro he).2
  have hno : (ok, m') = (false, s'.machine) := by
    rcases resolve_cases hres with h | ⟨i, -, habs, -⟩ | ⟨-, -, h⟩
    · exact h
    · rw [hpres] at habs
      cases habs
    · exact h.trans hcow
  cases hno
  exact ⟨rfl, rfl⟩

/-! ## A process with one read-only area -/

def noFiles : FileSystem where
  disk := { blockSize := 4096, readBlock := fun _ => none }
  inode := fun _ => { ino := 0, size := 0, getFileBlock := fun _ => none, hasRead := false }

/-- One readable page at `0x400000`, not mapped yet. -/
def textProcess : Process where
  pageTable := 512
  heapStart := 0x500000
  heapCurrent := 0x500000
  fds := fun _ => none
  vmas := Function.update Vma.emptyVmaList 0
    { start := 0x400000, stop := 0x401000, flags := { read := true, user := true }, inUse := true, inode := none,
      fileOffset := 0, fileSize := 0 }
  mmapHint := 0x700000000000

def text : System := { machine := Fork.oneSpace, procs := Function.update (fun _ => none) 1 (some textProcess) }

def readFault : ErrorCode := { present := false, write := false, user := true }

def writeFault : ErrorCode := { present := true, write := true, user := true }

theorem text_procs {pid : Nat} {p : Process} (h : text.procs pid = some p) : pid = 1 ∧ p = textProcess := by
  simp only [text, Function.update_apply] at h
  split at h
  · exact ⟨‹_›, (Option.some.inj h).symm⟩
  · cases h

theorem text_readOnly : ReadOnly textProcess 0x400000 := ⟨by decide, 0, by decide +kernel, rfl⟩

theorem oneSpace_empty (i : Nat) (p : List Nat) (hi : i < 256) : walk (follow Fork.oneSpace) 512 (i :: p) = none := by
  have hs : (createAddressSpace .boot 0).1 = some 512 := by decide +kernel
  rcases createAddressSpace_spec boot_inv 0 with ⟨hn, -⟩ | ⟨f, hf, -, -, -, -, hempty⟩
  · rw [hs] at hn
    cases hn
  · rw [hs] at hf
    cases hf
    exact hempty i p hi

theorem text_sealed : Sealed text where
  sound := by
    refine ⟨?_, fun hp hp' _ => by rw [(text_procs hp).1, (text_procs hp').1]⟩
    have hroots : roots text.procs = {512} := by
      ext r
      constructor
      · rintro ⟨pid, p, hp, rfl⟩
        rw [(text_procs hp).2]
        rfl
      · rintro rfl
        exact ⟨1, textProcess, rfl, rfl⟩
    rw [hroots]
    exact Fork.oneSpace_inv
  aligned := fun hp i hi => by
    rw [(text_procs hp).2] at hi ⊢
    simp only [textProcess, Function.update_apply] at hi ⊢
    split
    · exact ⟨by decide, by decide⟩
    · rw [if_neg ‹_›] at hi
      exact absurd hi Bool.false_ne_true
  pages := fun hp _ he => by
    obtain ⟨-, rfl⟩ := text_procs hp
    have hn := he.node.2
    have hw : walk (follow Fork.oneSpace) 512 (leafPath _) = some _ := hn.2
    rw [leafPath, tablePath] at hw
    erw [oneSpace_empty _ _ (hn.1.2.2 _ rfl)] at hw
    cases hw

theorem fault_procs {fs : FileSystem} {s s' : System} {pid virt : Nat} {err : ErrorCode} {ok : Bool}
    (h : s.fault fs pid virt err = some (ok, s')) : s'.procs = s.procs := by
  unfold fault at h
  split at h
  · cases h
    rfl
  · obtain ⟨⟨_, _⟩, -, he⟩ := Option.map_eq_some_iff.1 h
    cases he
    rfl

set_option maxRecDepth 4000 in
theorem write_fault_not_resolved_text : ∃ s₁, Run noFiles 0 text s₁ ∧ ∀ ok s₂,
    s₁.fault noFiles 1 0x400000 writeFault = some (ok, s₂) → ok = false ∧ s₂ = s₁ := by
  have hok : (text.fault noFiles 1 0x400000 readFault).map Prod.fst = some true := by decide +kernel
  obtain ⟨⟨ok₁, s₁⟩, hs₁, -⟩ := Option.map_eq_some_iff.1 hok
  have hguard : Guarded text (.fault 1 0x400000 readFault) := fun _ _ => ⟨by decide, fun _ hw => absurd hw Bool.false_ne_true⟩
  have hrun : Run noFiles 0 text s₁ := .next .start hguard (by rw [step, hs₁]; rfl)
  have hp : s₁.procs 1 = some textProcess := by
    rw [fault_procs hs₁]
    rfl
  refine ⟨s₁, hrun, fun ok s₂ hs₂ => ?_⟩
  exact (write_fault_not_resolved text_sealed hrun hp text_readOnly).1 writeFault ok s₂ rfl
    (fun _ _ => ⟨by decide, fun _ _ => rfl⟩) hs₂

set_option maxRecDepth 4000 in
/-- A read fault, a fork and a write: the write fault is resolved and the read-only page is writable. -/
theorem readOnly_page_written :
    Sealed text ∧ ReadOnly textProcess 0x400000 ∧ ∃ s₁ s₂,
      [Event.fault 1 0x400000 readFault, .fork 1 2].foldlM (step noFiles 0) text = some s₁ ∧
      s₁.procs 1 = some textProcess ∧ s₁.fault noFiles 1 0x400000 writeFault = some (true, s₂) ∧
      (getPTE s₂.machine 512 0x400000).map (fun e => isWritable (s₂.machine.mem e.1 e.2)) = some true := by
  have heval : ([Event.fault 1 0x400000 readFault, .fork 1 2].foldlM (step noFiles 0) text).map (fun s₁ =>
      (s₁.fault noFiles 1 0x400000 writeFault).map fun r =>
        (r.1, (getPTE r.2.machine 512 0x400000).map fun e => isWritable (r.2.machine.mem e.1 e.2))) =
      some (some (true, some true)) := by
    decide +kernel
  obtain ⟨s₁, hs₁, hr⟩ := Option.map_eq_some_iff.1 heval
  obtain ⟨⟨ok, s₂⟩, hs₂, hr⟩ := Option.map_eq_some_iff.1 hr
  obtain ⟨rfl, hw⟩ := Prod.mk.inj hr
  refine ⟨text_sealed, text_readOnly, s₁, s₂, hs₁, ?_, hs₂, hw⟩
  simp only [List.foldlM_cons, List.foldlM_nil, step] at hs₁
  obtain ⟨s', hs', hs₁⟩ := Option.bind_eq_some_iff.1 hs₁
  obtain ⟨⟨_, s''⟩, hf, rfl⟩ := Option.map_eq_some_iff.1 hs'
  cases hs₁
  rw [procs_cloneFork_of_ne (by decide), fault_procs hf]
  rfl

end Zigix.System
