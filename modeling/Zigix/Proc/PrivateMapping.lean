import Zigix.Mm.Agree
import Zigix.Proc.WriteProtect

/-!
# Private file mappings

A process writes to the pages of its private mappings; what other processes read from files and see in their own
mappings is compared with the run in which it does not write.

* `private_writes_invisible` : over a run;
* `private_write_visible` : a fault in a hole of a file, after which the writes of one process are seen by another.
-/

namespace Zigix.Private

open Forest Pmm Pte Vmm Space Fault Ext2
open Zigix.System (roots mem_roots)

/-! ## Which frames a fault leaves in the page cache -/

section Cache
variable {R : Set Nat} {pins : Nat → Nat} {m : Machine}

theorem cache_cacheBlock (disk : Disk) (ino fileBlock : Nat) (data : Nat → BitVec 8) (hi : Inv R pins m) :
    ∀ e ∈ (cacheBlock disk ino fileBlock data m).cache, e ∈ m.cache ∨ pins e.frame = 0 := by
  intro e he
  have hsub := cache_allocPage m
  unfold cacheBlock at he
  rcases hx : m.allocPage with ⟨o, m₁⟩
  rw [hx] at he hsub
  rcases owns_allocPage hi with ⟨h1, -⟩ | ⟨g, h1, h2, -⟩
  · rw [hx] at h1
    cases h1
    exact .inl (hsub e he)
  · rw [hx] at h1 h2
    cases h1
    rcases cache_insert _ _ _ _ e he with he | rfl
    · obtain ⟨c, hc⟩ := storeBytes_eq m₁ g 0 ((List.range disk.blockSize).map data)
      rw [hc] at he
      exact .inl (hsub e he)
    · exact .inr h2.unpinned

theorem cache_readChunk (disk : Disk) (inode : Inode) (fileBlock off n : Nat) (hi : Inv R pins m) :
    ∀ e ∈ (readChunk disk inode fileBlock off n m).2.cache, e ∈ m.cache ∨ pins e.frame = 0 := by
  intro e he
  have hsub := cache_lookup m inode.ino fileBlock
  have hinv := (lookup_grown (D := fun _ _ => False) hi inode.ino fileBlock).inv
  unfold readChunk at he
  split at he
  · exact .inl he
  rcases hx : m.lookup inode.ino fileBlock with ⟨o, m₁⟩
  rw [hx] at he hsub hinv
  cases o with
  | some f => exact .inl (hsub e he)
  | none =>
    dsimp only at he
    split at he
    · exact .inl (hsub e he)
    · exact (cache_cacheBlock disk _ _ _ hinv e he).imp_left (hsub e)

theorem cache_readLoop (disk : Disk) (inode : Inode) (fuel offset remaining : Nat) (hi : Inv R pins m) :
    ∀ e ∈ (readLoop disk inode fuel offset remaining m).2.cache, e ∈ m.cache ∨ pins e.frame = 0 := by
  induction fuel generalizing offset remaining m with
  | zero => exact fun e he => .inl he
  | succ fuel ih =>
    rw [readLoop]
    split
    · exact fun e he => .inl he
    dsimp only
    generalize min remaining (disk.blockSize - offset % disk.blockSize) = chunk
    have hinv := (readChunk_grown (D := fun _ _ => False) disk inode (offset / disk.blockSize % 2 ^ 32)
      (offset % disk.blockSize) chunk hi).inv
    have hsub := cache_readChunk disk inode (offset / disk.blockSize % 2 ^ 32) (offset % disk.blockSize) chunk hi
    rcases hx : readChunk disk inode (offset / disk.blockSize % 2 ^ 32) (offset % disk.blockSize) chunk m with ⟨o, m₁⟩
    rw [hx] at hinv hsub
    cases o with
    | none => exact hsub
    | some bytes =>
      intro e he
      rcases ih (offset + chunk) (remaining - chunk) hinv e he with he | he
      · exact hsub e he
      · exact .inr he

theorem cache_ext2Read (disk : Disk) (inode : Inode) (offset count : Nat) (hi : Inv R pins m) :
    ∀ e ∈ (ext2Read disk inode offset count m).2.cache, e ∈ m.cache ∨ pins e.frame = 0 := by
  unfold ext2Read
  split
  · exact fun e he => .inl he
  · exact cache_readLoop disk inode _ _ _ hi

theorem cache_insert_present {ino idx f : Nat} (h : (m.lookup ino idx).1.isSome = true) :
    ∀ e ∈ (m.insert ino idx f).cache, e ∈ m.cache := by
  intro e he
  have hsub := cache_lookup m ino idx
  unfold Machine.lookup at h hsub
  unfold Machine.insert PageCache.insert at he
  rcases hl : PageCache.lookup m.cache ino idx with ⟨o, c⟩
  rw [hl] at h he hsub
  cases o with
  | none => cases h
  | some g => exact hsub e he

end Cache

/-- The page of area `v` at `faultPage` does not enter the page cache with the frame that is mapped: it lies outside
the file data or straddles its end, it is cached already, or reading it from the file caches it. -/
def Sheltered (fs : FileSystem) (v : Vma) (faultPage : Nat) (m : Machine) : Prop :=
  ∀ ptr pageOffset filePos, v.inode = some ptr → subU64 faultPage v.start = some pageOffset →
    addU64 v.fileOffset pageOffset = some filePos →
    (0 < v.fileSize ∧ v.fileSize ≤ pageOffset) ∨ isBssBoundary v pageOffset = true ∨
      (m.lookup ((fs.inode ptr).ino % 2 ^ 32) (pageIndex filePos)).1.isSome = true ∨
      ((ext2Read fs.disk (fs.inode ptr) filePos (readLen v pageOffset)
          (m.lookup ((fs.inode ptr).ino % 2 ^ 32) (pageIndex filePos)).2).2.lookup
        ((fs.inode ptr).ino % 2 ^ 32) (pageIndex filePos)).1.isSome = true

section Demand
variable {R : Set Nat} {pins : Nat → Nat} {m m' : Machine} {r f faultPage : Nat} {fs : FileSystem} {v : Vma}

theorem cache_storeBytes (m : Machine) (f off : Nat) (bs : List (BitVec 8)) :
    (storeBytes m f off bs).cache = m.cache := by
  obtain ⟨c, hc⟩ := storeBytes_eq m f off bs
  rw [hc]
  rfl

theorem read_uncached (inode : Inode) (pos len : Nat) (ho : Owns R pins f m) (huc : ∀ e ∈ m.cache, e.frame ≠ f) :
    ∀ e ∈ (ext2Read fs.disk inode pos len m).2.cache, e.frame ≠ f := by
  intro e he hf
  rcases cache_ext2Read fs.disk inode pos len ho.inv e he with he | he
  · exact huc e he hf
  · rw [hf, Pi.add_apply, pin_apply, if_pos rfl] at he
    omega

theorem fillFromFile_uncached {inode : Inode} {pageOffset filePos : Nat} (ho : Owns R pins f m)
    (huc : ∀ e ∈ m.cache, e.frame ≠ f)
    (hsh : isBssBoundary v pageOffset = true ∨ (m.lookup (inode.ino % 2 ^ 32) (pageIndex filePos)).1.isSome = true ∨
      ((ext2Read fs.disk inode filePos (readLen v pageOffset) (m.lookup (inode.ino % 2 ^ 32) (pageIndex filePos)).2).2.lookup
        (inode.ino % 2 ^ 32) (pageIndex filePos)).1.isSome = true)
    (hfill : fillFromFile fs v inode pageOffset filePos f m = (true, m')) : ∀ e ∈ m'.cache, e.frame ≠ f := by
  unfold fillFromFile at hfill
  dsimp only at hfill
  cases hbss : isBssBoundary v pageOffset with
  | true =>
    simp only [hbss, if_true] at hfill
    split at hfill
    · cases hfill
    · cases hfill
      intro e he
      rw [cache_storeBytes] at he
      exact read_uncached inode _ _ ho huc e he
  | false =>
    simp only [hbss, Bool.false_eq_true, if_false, false_or] at hfill hsh
    have hg := lookup_grown (D := fun _ _ => False) ho.inv (inode.ino % 2 ^ 32) (pageIndex filePos)
    have hsub := cache_lookup m (inode.ino % 2 ^ 32) (pageIndex filePos)
    generalize m.lookup (inode.ino % 2 ^ 32) (pageIndex filePos) = found at hfill hsh hg hsub
    obtain ⟨o, m₁⟩ := found
    have huc₁ : ∀ e ∈ m₁.cache, e.frame ≠ f := fun e he => huc e (hsub e he)
    cases o with
    | some cached =>
      cases hfill
      exact huc₁
    | none =>
      replace hsh := hsh.resolve_left Bool.false_ne_true
      have hread := @read_uncached _ _ _ _ fs inode filePos (readLen v pageOffset) (ho.grown hg) huc₁
      dsimp only at hfill hsh
      split at hfill
      · cases hfill
      · cases hfill
        intro e he
        have hpres := cache_insert_present (m := storeBytes (ext2Read fs.disk inode filePos (readLen v pageOffset) m₁).2 f 0
          (ext2Read fs.disk inode filePos (readLen v pageOffset) m₁).1) (f := f) (by
            unfold Machine.lookup at hsh ⊢
            rw [cache_storeBytes]
            exact hsh) e he
        rw [cache_storeBytes] at hpres
        exact hread e hpres

theorem fillPage_uncached (ho : Owns R pins f m) (hs : Sheltered fs v faultPage m)
    (huc : ∀ e ∈ m.cache, e.frame ≠ f) (hfill : fillPage fs v faultPage f m = some (true, m')) :
    ∀ e ∈ m'.cache, e.frame ≠ f := by
  unfold fillPage at hfill
  split at hfill
  · cases hfill
    exact huc
  next ptr hptr =>
  obtain ⟨pageOffset, hoff, hfill⟩ := Option.bind_eq_some_iff.1 hfill
  split at hfill
  · cases hfill
    exact huc
  next hend =>
  obtain ⟨filePos, hpos, hfill⟩ := Option.bind_eq_some_iff.1 hfill
  have hsh := (hs ptr pageOffset filePos hptr hoff hpos).resolve_left hend
  exact fillFromFile_uncached ho huc hsh (Option.some.inj hfill)

/-- **A sheltered fault** maps a page that is not in the page cache. -/
theorem handleDemandPage_uncached (hi : Inv R pins m) (hr : r ∈ R) (hv : faultPage < userEnd)
    (hno : translate m r faultPage = none)
    (hs : ∀ f, m.allocPage.1 = some f → Sheltered fs v faultPage (m.allocPage.2.zeroPage f))
    (hres : handleDemandPage fs r v faultPage m = some (true, m')) (hn : Node R m' r (leafPath faultPage) f) :
    ∀ e ∈ m'.cache, e.frame ≠ f := by
  unfold handleDemandPage at hres
  rw [hno] at hres
  simp only [Option.isSome_none, Bool.false_eq_true, if_false] at hres
  rcases hx : m.allocPage with ⟨o, m₁⟩
  rw [hx] at hres hs
  rcases owns_allocPage hi with ⟨h1, -⟩ | ⟨g, h1, howns, huc⟩
  · rw [hx] at h1
    cases h1
    cases hres
  · rw [hx] at h1 howns huc
    cases h1
    obtain ⟨⟨ok, m₂⟩, hfill, hres⟩ := Option.bind_eq_some_iff.1 hres
    have ho₁ : Owns R pins g (m₁.zeroPage g) := howns.setPage
    cases ok with
    | false => cases hres
    | true =>
      obtain ⟨-, ho₂⟩ := (fillPage_spec ho₁ hfill).ok rfl
      have hc₂ := fillPage_uncached ho₁ (hs g rfl) huc hfill
      have hmap := @mapPage_spec _ _ _ _ _ _ (mapFlags v) ho₂.inv ho₂.unlinked hr hv
      have hsub := cache_mapPage m₂ r faultPage g (mapFlags v)
      dsimp only at hres
      rcases hx₃ : mapPage m₂ r faultPage g (mapFlags v) with ⟨ok, m₃⟩
      rw [hx₃] at hres hmap hsub
      cases ok with
      | false => cases hres
      | true =>
        cases hres
        obtain rfl := hn.unique (hmap.ok rfl).node
        exact fun e he => hc₂ e (hsub e he)

end Demand

/-! ## Events -/

inductive Event
  /-- the page fault that an access raises, if it raises one -/
  | touch (pid virt : Nat) (write : Bool)
  | load (pid virt : Nat)
  | store (pid virt : Nat) (b : BitVec 8)
  /-- `ext2Read` of the file behind an inode pointer -/
  | read (pid ptr offset count : Nat)

/-- What a process gets to see. -/
abbrev Output := Nat × List (BitVec 8)

def step (fs : FileSystem) (procs : Nat → Option Process) (m : Machine) : Event → Option (List Output × Machine)
  | .touch pid virt write =>
    match procs pid with
    | none => some ([], m)
    | some p =>
      if virt < userEnd then
        match userFault p virt write m with
        | none => some ([], m)
        | some err => (resolve fs p virt err m).map fun res => ([], res.2)
      else some ([], m)
  | .load pid virt =>
    match procs pid with
    | none => some ([], m)
    | some p => some ([(pid, (userRead p.pageTable virt m).toList)], m)
  | .store pid virt b =>
    match procs pid with
    | none => some ([], m)
    | some p => some ([], if virt < userEnd then (storeThrough p.pageTable virt b m).getD m else m)
  | .read pid ptr offset count =>
    some ([(pid, (ext2Read fs.disk (fs.inode ptr) offset count m).1)], (ext2Read fs.disk (fs.inode ptr) offset count m).2)

def run (fs : FileSystem) (procs : Nat → Option Process) : List Event → Machine → Option (List Output × Machine)
  | [], m => some ([], m)
  | e :: es, m => do
    let (out, m) ← step fs procs m e
    let (outs, m) ← run fs procs es m
    return (out ++ outs, m)

/-- The event is a store by `a`. -/
def storesAs (a : Nat) : Event → Bool
  | .store pid _ _ => pid == a
  | _ => false

/-- What the processes other than `a` see. -/
def others (a : Nat) (outs : List Output) : List Output := outs.filter fun out => out.1 != a

/-- The faults of `a` on absent pages of writable areas are sheltered. -/
def Meets (fs : FileSystem) (procs : Nat → Option Process) (a : Nat) (m : Machine) : Event → Prop
  | .touch pid virt _ => pid = a → ∀ p i f, procs a = some p → Vma.findVma p.vmas virt = some i →
      (p.vmas i).flags.write = true → getPTE m p.pageTable virt = none → m.allocPage.1 = some f →
      Sheltered fs (p.vmas i) (pageBase virt) (m.allocPage.2.zeroPage f)
  | _ => True

def AllMeet (fs : FileSystem) (procs : Nat → Option Process) (a : Nat) : Machine → List Event → Prop
  | _, [] => True
  | m, e :: es => Meets fs procs a m e ∧ ∀ out m', step fs procs m e = some (out, m') → AllMeet fs procs a m' es

/-! ## The private pages of a process -/

/-- The frames that the address space `A` maps writable. -/
def priv (R : Set Nat) (A : Nat) (m : Machine) : Set Nat :=
  {f | ∃ p w, Leaf R m A p w ∧ isWritable w = true ∧ frame w = f}

section Priv
variable {R : Set Nat} {A r : Nat} {m m' m₁ : Machine} {E E' : Nat → List Nat → Prop} {f : Nat} {p : List Nat}

theorem priv_subset (hk : Keeps R E m m₁) (hl : Leaves R E' m m₁)
    (hoff : ∀ {p w}, Leaf R m A p w → isWritable w = true → ¬ E A p ∧ ¬ E' A p) : priv R A m ⊆ priv R A m₁ := by
  rintro f ⟨p, w, hleaf, hw, rfl⟩
  obtain ⟨h1, h2⟩ := hoff hleaf hw
  have hn := hleaf.node
  obtain ⟨w', hw'⟩ := leaf_of_walk hn.1 hn.2.1 hleaf.length ((hk.walk hn.1 hn.2.1 h1).trans hn.2.2)
  obtain rfl := (hl A p w' hw' h2).unique hleaf
  exact ⟨p, w', hw', hw, rfl⟩

theorem priv_of_tablesEq (h : TablesEq R m m₁) : priv R A m₁ = priv R A m := by
  have hl : ∀ {p w}, Leaf R m₁ A p w ↔ Leaf R m A p w := by
    intro p w
    refine ⟨fun hl => Leaves.of_tablesEq (E := fun _ _ => False) h A p w hl id, ?_⟩
    rintro ⟨q, t, i, hq, hlen, hu, ht, hw, hp⟩
    exact ⟨q, t, i, hq, hlen, hu, h.node_iff.2 ht, by rw [h ht hlen.le, hw], hp⟩
  ext f
  simp only [priv, Set.mem_ofPred_eq, hl]

theorem exclusive_of_priv (hi : Inv R 0 m) (hf : f ∈ priv R A m) (hn : Node R m r p f) :
    r = A ∧ ∃ w, Leaf R m A p w ∧ isWritable w = true := by
  obtain ⟨q, w, hleaf, hw, rfl⟩ := hf
  have hleaf' := hleaf
  obtain ⟨q, t, i, rfl, hl, hu, ht, rfl, hp⟩ := hleaf'
  obtain ⟨rfl, rfl⟩ := hi.exclusive ht hl (hu.2.1 i (by simp)) hp hw hn
  exact ⟨rfl, _, hleaf, hw⟩

/-- What holds between the machine of the run and that of the run without the stores of `A`. -/
structure Related (R : Set Nat) (A : Nat) (m m' : Machine) : Prop where
  inv : Inv R 0 m
  unshared : ∀ e ∈ m.cache, e.frame ∉ priv R A m
  agree : Agree (priv R A m) m m'

theorem Related.twin (h : Related R A m m') : Twin R (priv R A m) m m' := by
  refine ⟨⟨fun f hf => ?_, h.unshared⟩, h.agree⟩
  obtain ⟨p, w, hleaf, -, rfl⟩ := hf
  exact ⟨A, p, hleaf.node, hleaf.length⟩

theorem Related.advance {m₁' : Machine} {q : List Nat} (hi : Inv R 0 m₁) (hk : Keeps R E m m₁)
    (hl : Leaves R (fun r' p' => r' = r ∧ p' = q) m m₁)
    (hoff : ∀ {p w}, Leaf R m A p w → isWritable w = true → ¬ E A p ∧ ¬ (A = r ∧ p = q))
    (ht : Twin R (priv R A m) m₁ m₁')
    (hnew : A = r → ∀ w, Leaf R m₁ A q w → isWritable w = true → Leaf R m A q w ∨ ∀ e ∈ m₁.cache, e.frame ≠ frame w) :
    Related R A m₁ m₁' := by
  refine ⟨hi, fun e he hf => ?_, ht.agree.mono (priv_subset hk hl hoff)⟩
  obtain ⟨p, w, hleaf, hw, hframe⟩ := hf
  by_cases hat : A = r ∧ p = q
  · obtain ⟨hA, rfl⟩ := hat
    rcases hnew hA w hleaf hw with hold | huc
    · exact ht.hidden.uncached e he ⟨p, w, hold, hw, hframe⟩
    · exact huc e he hframe.symm
  · exact ht.hidden.uncached e he ⟨p, w, hl _ _ _ hleaf hat, hw, hframe⟩

end Priv

section Step
variable {fs : FileSystem} {procs : Nat → Option Process} {a : Nat} {pa : Process} {m m' m₁ : Machine}

/-- The writer's address space. -/
abbrev Rel (procs : Nat → Option Process) (pa : Process) : Machine → Machine → Prop :=
  Related (roots procs) pa.pageTable

theorem load_others {pid virt : Nat} {p : Process} (h : Rel procs pa m m') (hp : procs pid = some p)
    (hne : p.pageTable ≠ pa.pageTable) : userRead p.pageTable virt m' = userRead p.pageTable virt m := by
  have hr := mem_roots hp
  by_cases hv : virt < userEnd
  · rw [userRead_eq (h.twin.inv h.inv) hr hv, userRead_eq h.inv hr hv]
    unfold page
    rw [h.twin.walk h.inv hr (leafPath_user hv)]
    cases hw : walk (follow m) p.pageTable (leafPath virt) with
    | none => rfl
    | some f =>
      have hout : f ∉ priv (roots procs) pa.pageTable m := fun hf =>
        hne (exclusive_of_priv h.inv hf ⟨hr, leafPath_user hv, hw⟩).1
      simp only [Option.map_some, h.agree.mem f hout]
  · unfold userRead
    rw [if_neg hv, if_neg hv]

theorem storeThrough_leaf {R : Set Nat} {r virt : Nat} {b : BitVec 8} (hi : Inv R 0 m) (hr : r ∈ R) (hv : virt < userEnd)
    (hs : storeThrough r virt b m = some m₁) :
    ∃ w, Leaf R m r (leafPath virt) w ∧ isWritable w = true ∧ m₁ = m.storeByte (frame w) (virt % pageSize) b := by
  unfold storeThrough at hs
  cases hg : getPTE m r virt with
  | none => rw [hg] at hs; cases hs
  | some x =>
    obtain ⟨pt, i⟩ := x
    rw [hg] at hs
    obtain ⟨rfl, ht, hp, -⟩ := getPTE_some hi hr hv hg
    dsimp only at hs
    split at hs
    · next hw => exact ⟨_, leaf_of_node ht rfl (leafPath_user hv) hp, hw, (Option.some.inj hs).symm⟩
    · cases hs

theorem Related.setPage {R : Set Nat} {A f : Nat} {c c' : Nat → Word} (h : Related R A m m')
    (hf : ∀ {r p}, Node R m r p f → p.length = 4) (hc : f ∉ priv R A m → c' = c) :
    Related R A (m.setPage f c) (m'.setPage f c') := by
  have hpriv : priv R A (m.setPage f c) = priv R A m := priv_of_tablesEq (tablesEq_setPage hf)
  refine ⟨h.inv.setPage hf, ?_, ?_⟩
  · rw [hpriv]
    exact h.unshared
  · rw [hpriv]
    exact h.agree.setPage hc

theorem leaf_length_of_leaf {R : Set Nat} {r f : Nat} {q : List Nat} {w : Word} (hi : Inv R 0 m) (hl : Leaf R m r q w)
    (hf : frame w = f) {r' : Nat} {p' : List Nat} (hn : Node R m r' p' f) : p'.length = 4 :=
  hi.leaf_of_leaf (hf ▸ hl.node) hl.length hn

theorem store_both {pid virt : Nat} {p : Process} {b : BitVec 8} (h : Rel procs pa m m') (hp : procs pid = some p)
    (hv : virt < userEnd) :
    Rel procs pa ((storeThrough p.pageTable virt b m).getD m) ((storeThrough p.pageTable virt b m').getD m') := by
  have hr := mem_roots hp
  have ht := h.twin
  cases hs : storeThrough p.pageTable virt b m with
  | none =>
    have hs' : storeThrough p.pageTable virt b m' = none := by
      unfold storeThrough at hs ⊢
      rw [ht.getPTE h.inv hr hv]
      cases hg : getPTE m p.pageTable virt with
      | none => rfl
      | some x =>
        obtain ⟨pt, i⟩ := x
        obtain ⟨-, hn, -, -⟩ := getPTE_some h.inv hr hv hg
        rw [hg] at hs
        dsimp only at hs ⊢
        rw [h.agree.mem pt (ht.hidden.not_table h.inv hn le_rfl)]
        split at hs
        · cases hs
        · next hw => rw [if_neg hw]
    rw [hs']
    exact h
  | some m₁ =>
    obtain ⟨w, hleaf, hw, rfl⟩ := storeThrough_leaf h.inv hr hv hs
    have hs' : storeThrough p.pageTable virt b m' = some (m'.storeByte (frame w) (virt % pageSize) b) := by
      unfold storeThrough at hs ⊢
      rw [ht.getPTE h.inv hr hv]
      cases hg : getPTE m p.pageTable virt with
      | none => rw [hg] at hs; cases hs
      | some x =>
        obtain ⟨pt, i⟩ := x
        obtain ⟨rfl, hn, -, -⟩ := getPTE_some h.inv hr hv hg
        dsimp only
        rw [h.agree.mem pt (ht.hidden.not_table h.inv hn le_rfl), (hleaf.entry hn).1, if_pos hw]
    rw [hs']
    exact h.setPage (leaf_length_of_leaf h.inv hleaf rfl) fun hf => by rw [h.agree.mem _ hf]

theorem store_own {virt : Nat} {b : BitVec 8} (h : Rel procs pa m m') (hp : procs a = some pa) (hv : virt < userEnd) :
    Rel procs pa ((storeThrough pa.pageTable virt b m).getD m) m' := by
  cases hs : storeThrough pa.pageTable virt b m with
  | none => exact h
  | some m₁ =>
    obtain ⟨w, hleaf, hw, rfl⟩ := storeThrough_leaf h.inv (mem_roots hp) hv hs
    have hpriv : frame w ∈ priv (roots procs) pa.pageTable m := ⟨_, w, hleaf, hw, rfl⟩
    have hset : Rel procs pa (m.storeByte (frame w) (virt % pageSize) b) (m'.setPage (frame w) (m'.mem (frame w))) :=
      h.setPage (leaf_length_of_leaf h.inv hleaf rfl) fun hf => absurd hpriv hf
    have he : m'.setPage (frame w) (m'.mem (frame w)) = m' := by simp [Machine.setPage]
    rwa [he] at hset

theorem read_both (fs : FileSystem) (ptr offset count : Nat) (h : Rel procs pa m m') :
    (ext2Read fs.disk (fs.inode ptr) offset count m').1 = (ext2Read fs.disk (fs.inode ptr) offset count m).1 ∧
      Rel procs pa (ext2Read fs.disk (fs.inode ptr) offset count m).2
        (ext2Read fs.disk (fs.inode ptr) offset count m').2 := by
  have hg := ext2Read_grown (D := fun _ _ => False) fs.disk (fs.inode ptr) offset count h.inv
  obtain ⟨hb, ht⟩ := ext2Read_twins fs.disk (fs.inode ptr) offset count h.inv h.twin
  refine ⟨hb, hg.inv, fun e he hf => ?_, ht.agree.mono (priv_subset hg.keeps hg.leaves fun _ _ => ⟨id, id⟩)⟩
  obtain ⟨p, w, hleaf, hw, hframe⟩ := hf
  exact ht.hidden.uncached e he ⟨p, w, hg.leaves _ _ _ hleaf id, hw, hframe⟩

theorem userFault_absent {p : Process} {virt : Nat} {write : Bool} {err : ErrorCode}
    (h : userFault p virt write m = some err) (hp : err.present = false) : getPTE m p.pageTable virt = none := by
  unfold userFault at h
  split at h
  · next hg => exact hg
  · split at h
    · cases h
      cases hp
    · cases h

theorem userFault_protected {p : Process} {virt : Nat} {write : Bool} {err : ErrorCode}
    (h : userFault p virt write m = some err) (hp : err.present = true) :
    ∃ pt i, getPTE m p.pageTable virt = some (pt, i) ∧ isWritable (m.mem pt i) = false := by
  unfold userFault at h
  split at h
  · cases h
    cases hp
  · next pt i hg =>
    split at h
    · next hw =>
      rw [Bool.and_eq_true, Bool.not_eq_true'] at hw
      exact ⟨pt, i, hg, hw.2⟩
    · cases h

/-- **A page fault** of any process. -/
theorem touch_both {pid virt : Nat} {write : Bool} {p : Process} {err : ErrorCode} {res : Bool × Machine}
    (hd : ∀ {pid pid' p p'}, procs pid = some p → procs pid' = some p' → p.pageTable = p'.pageTable → pid = pid')
    (h : Rel procs pa m m') (hpa : procs a = some pa) (hp : procs pid = some p) (hv : virt < userEnd)
    (hm : Meets fs procs a m (.touch pid virt write)) (hf : userFault p virt write m = some err)
    (hres : resolve fs p virt err m = some res) :
    ∃ res', resolve fs p virt err m' = some res' ∧ Rel procs pa res.2 res'.2 := by
  have hr := mem_roots hp
  have hbase : leafPath (pageBase virt) = leafPath virt := leafPath_pageBase
  -- the leaf of a write fault on a present page is not writable
  have hro : err.present = true → ∀ {w}, Leaf (roots procs) m p.pageTable (leafPath virt) w → isWritable w = false := by
    intro hpres w hleaf
    obtain ⟨pt, i, hg, hw⟩ := userFault_protected hf hpres
    obtain ⟨rfl, hn, -, -⟩ := getPTE_some h.inv hr hv hg
    rw [(hleaf.entry hn).1] at hw
    exact hw
  have hcow : err.present = true → err.write = true →
      ∀ {f}, Node (roots procs) m p.pageTable (leafPath virt) f → f ∉ priv (roots procs) pa.pageTable m := by
    intro hpres _ f hn hf
    obtain ⟨he, w, hleaf, hw⟩ := exclusive_of_priv h.inv hf hn
    rw [← he] at hleaf
    rw [hro hpres hleaf] at hw
    cases hw
  obtain ⟨res', hres', -, ht⟩ := resolve_twins h.inv h.twin hr hv hcow hres
  refine ⟨res', hres', ?_⟩
  rcases resolve_cases hres with rfl | ⟨i, hi, habs, hdem⟩ | ⟨hpres, hwr, rfl⟩
  · exact ⟨h.inv, h.unshared, ht.agree⟩
  · -- demand paging: the leaf was absent
    have hpte := userFault_absent hf habs
    have hnone : walk (follow m) p.pageTable (leafPath virt) = none := by
      cases hw : walk (follow m) p.pageTable (leafPath virt) with
      | none => rfl
      | some f =>
        obtain ⟨w, q, t, j, hq, -, -, hn, hwd, hpres⟩ := leaf_of_walk hr (leafPath_user hv) leafPath_length hw
        obtain ⟨rfl, hj⟩ := List.append_inj' hq rfl
        cases hj
        rw [getPTE_of_leaf h.inv hr hv hn (by rw [hwd]; exact hpres)] at hpte
        cases hpte
    have htr : translate m p.pageTable (pageBase virt) = none := by
      rw [translate_eq h.inv hr (pageBase_lt hv), hbase, hnone]
      rfl
    have hspec := handleDemandPage_spec h.inv hr (pageBase_lt hv) hdem
    have hnoleaf : ∀ {w}, ¬ Leaf (roots procs) m p.pageTable (leafPath virt) w := by
      intro w hleaf
      have := hleaf.node.2.2
      rw [hnone] at this
      cases this
    refine .advance hspec.inv hspec.keeps hspec.leaves (fun {q w} hleaf _ => ⟨?_, ?_⟩) ht fun hA w hleaf hw => .inr ?_
    · exact hidden_offPath (by rw [hbase]; exact hnone) hleaf.node hleaf.length
    · rintro ⟨he, rfl⟩
      rw [he, hbase] at hleaf
      exact hnoleaf hleaf
    · rw [hA] at hleaf
      obtain rfl := hd hp hpa hA.symm
      obtain rfl : pa = p := by
        rw [hp] at hpa
        exact (Option.some.inj hpa).symm
      cases hok : res.1 with
      | false =>
        have := hspec.failed hok _ _ _ hleaf id
        rw [hbase] at this
        exact absurd this hnoleaf
      | true =>
        obtain ⟨f, hf'⟩ := hspec.mapped hok htr
        obtain rfl := hleaf.unique hf'
        have hwrite : (pa.vmas i).flags.write = true := by simpa [mapFlags, MapFlags.entry] using hw
        have hdem' : handleDemandPage fs pa.pageTable (pa.vmas i) (pageBase virt) m = some (true, res.2) := by
          rw [hdem, ← hok]
        exact handleDemandPage_uncached h.inv hr (pageBase_lt hv) htr
          (fun f hf => hm rfl pa i f hp hi hwrite hpte hf) hdem' hleaf.node
  · -- copy-on-write: the leaf was read-only
    have hspec := handleCow_spec h.inv hr (pageBase_lt hv)
    have hoff : ∀ {q w}, Leaf (roots procs) m pa.pageTable q w → isWritable w = true →
        ¬ (pa.pageTable = p.pageTable ∧ q = leafPath (pageBase virt)) := by
      rintro q w hleaf hw ⟨he, rfl⟩
      rw [he, hbase] at hleaf
      rw [hro hpres hleaf] at hw
      cases hw
    refine .advance hspec.inv hspec.keeps hspec.leaves (fun hleaf hw => ⟨hoff hleaf hw, hoff hleaf hw⟩) ht
      fun hA w hleaf hw => ?_
    rw [hA] at hleaf ⊢
    cases hok : (handleCow p.pageTable (pageBase virt) m).1 with
    | false => exact .inl (hspec.failed hok _ _ _ hleaf id)
    | true => exact .inr (hspec.uncached hok hleaf.node)

/-- **One event**, with the stores of `a` left out on the second machine. -/
theorem step_related
    (hd : ∀ {pid pid' p p'}, procs pid = some p → procs pid' = some p' → p.pageTable = p'.pageTable → pid = pid')
    (hpa : procs a = some pa) (h : Rel procs pa m m') {e : Event} (hm : Meets fs procs a m e) {out : List Output}
    (hs : step fs procs m e = some (out, m₁)) :
    (storesAs a e = true → out = [] ∧ Rel procs pa m₁ m') ∧
      (storesAs a e = false → ∃ out' m₁', step fs procs m' e = some (out', m₁') ∧ others a out' = others a out ∧
        Rel procs pa m₁ m₁') := by
  cases e with
  | touch pid virt write =>
    refine ⟨nofun, fun _ => ?_⟩
    simp only [step] at hs ⊢
    cases hp : procs pid with
    | none =>
      simp only [hp] at hs ⊢
      cases hs
      exact ⟨_, _, rfl, rfl, h⟩
    | some p =>
      simp only [hp] at hs ⊢
      by_cases hv : virt < userEnd
      · rw [if_pos hv] at hs ⊢
        rw [userFault_twin h.inv h.twin (mem_roots hp) hv]
        split at hs
        · cases hs
          exact ⟨_, _, rfl, rfl, h⟩
        next err hf =>
        obtain ⟨res, hres, he⟩ := Option.map_eq_some_iff.1 hs
        cases he
        obtain ⟨res', hres', hrel⟩ := touch_both hd h hpa hp hv hm hf hres
        rw [hres']
        exact ⟨_, _, rfl, rfl, hrel⟩
      · rw [if_neg hv] at hs ⊢
        cases hs
        exact ⟨_, _, rfl, rfl, h⟩
  | load pid virt =>
    refine ⟨nofun, fun _ => ?_⟩
    simp only [step] at hs ⊢
    cases hp : procs pid with
    | none =>
      simp only [hp] at hs ⊢
      cases hs
      exact ⟨_, _, rfl, rfl, h⟩
    | some p =>
      simp only [hp] at hs ⊢
      cases hs
      refine ⟨_, _, rfl, ?_, h⟩
      by_cases hpid : pid = a
      · simp [others, hpid]
      · rw [load_others h hp fun he => hpid (hd hp hpa he)]
  | store pid virt b =>
    simp only [step] at hs ⊢
    constructor
    · intro hst
      obtain rfl : pid = a := by simpa [storesAs] using hst
      simp only [hpa] at hs
      cases hs
      refine ⟨rfl, ?_⟩
      split
      · next hv => exact store_own h hpa hv
      · exact h
    · intro _
      cases hp : procs pid with
      | none =>
        simp only [hp] at hs ⊢
        cases hs
        exact ⟨_, _, rfl, rfl, h⟩
      | some p =>
        simp only [hp] at hs ⊢
        cases hs
        refine ⟨_, _, rfl, rfl, ?_⟩
        by_cases hv : virt < userEnd
        · rw [if_pos hv, if_pos hv]
          exact store_both h hp hv
        · rw [if_neg hv, if_neg hv]
          exact h
  | read pid ptr offset count =>
    refine ⟨nofun, fun _ => ?_⟩
    simp only [step] at hs ⊢
    cases hs
    obtain ⟨hb, hrel⟩ := read_both fs ptr offset count h
    exact ⟨_, _, rfl, by rw [hb], hrel⟩

/-- **A run**, with the stores of `a` left out on the second machine. -/
theorem run_related
    (hd : ∀ {pid pid' p p'}, procs pid = some p → procs pid' = some p' → p.pageTable = p'.pageTable → pid = pid')
    (hpa : procs a = some pa) (es : List Event) (h : Rel procs pa m m') (hm : AllMeet fs procs a m es)
    {outs : List Output} (hrun : run fs procs es m = some (outs, m₁)) :
    ∃ outs' m₁', run fs procs (es.filter fun e => !storesAs a e) m' = some (outs', m₁') ∧
      others a outs' = others a outs := by
  induction es generalizing m m' outs with
  | nil =>
    cases hrun
    exact ⟨_, _, rfl, rfl⟩
  | cons e es ih =>
    obtain ⟨⟨out, m₂⟩, hs, hrest⟩ := Option.bind_eq_some_iff.1 hrun
    obtain ⟨⟨outs₂, m₃⟩, hrun₂, he⟩ := Option.bind_eq_some_iff.1 hrest
    cases he
    obtain ⟨hown, hboth⟩ := step_related hd hpa h hm.1 hs
    cases hst : storesAs a e with
    | true =>
      obtain ⟨rfl, hrel⟩ := hown hst
      obtain ⟨outs', m₁', hrun', hout⟩ := ih hrel (hm.2 _ _ hs) hrun₂
      refine ⟨outs', m₁', ?_, hout⟩
      rw [List.filter_cons_of_neg (by simp [hst])]
      exact hrun'
    | false =>
      obtain ⟨out', m₂', hs', ho, hrel⟩ := hboth hst
      obtain ⟨outs', m₁', hrun', hout⟩ := ih hrel (hm.2 _ _ hs) hrun₂
      refine ⟨out' ++ outs', m₁', ?_, ?_⟩
      · rw [List.filter_cons_of_pos (by simp [hst]), run, hs']
        simp [hrun']
      · unfold others at ho hout ⊢
        rw [List.filter_append, List.filter_append, ho, hout]

end Step

/-- **Private mappings.** If the faults of `a` on writable areas are sheltered, what the other processes read from files
and see in their mappings is the same as if `a` had stored nothing. -/
theorem private_writes_invisible {fs : FileSystem} {s : System} (hs : s.Sound) {a : Nat} {pa : Process}
    (hpa : s.procs a = some pa)
    (hun : ∀ e ∈ s.machine.cache, e.frame ∉ priv (roots s.procs) pa.pageTable s.machine) {es : List Event}
    (hm : AllMeet fs s.procs a s.machine es) {outs : List Output} {m₁ : Machine}
    (hrun : run fs s.procs es s.machine = some (outs, m₁)) :
    ∃ outs' m₁', run fs s.procs (es.filter fun e => !storesAs a e) s.machine = some (outs', m₁') ∧
      others a outs' = others a outs :=
  run_related hs.distinct hpa es ⟨hs.inv, hun, .refl _⟩ hm hrun

/-! ## Two processes that map the same hole of a file -/

def sparse : FileSystem where
  disk := { blockSize := 4096, readBlock := fun _ => none }
  inode := fun _ => { ino := 7, size := 4096, getFileBlock := fun _ => none, hasRead := true }

/-- The file is mapped privately at `0x400000`; `fileSize` is 0 for a mapping made by `mmap`. -/
def mapper (pageTable fileSize : Nat) : Process where
  pageTable := pageTable
  heapStart := 0x500000
  heapCurrent := 0x500000
  fds := fun _ => none
  vmas := Function.update Vma.emptyVmaList 0
    { start := 0x400000, stop := 0x401000, flags := { read := true, write := true, user := true }, inUse := true,
      inode := some 0, fileOffset := 0, fileSize := fileSize }
  mmapHint := 0x700000000000

def mappers (fileSize : Nat) : System where
  machine := Fork.twoSpaces
  procs := Function.update (Function.update (fun _ => none) 1 (some (mapper 512 fileSize))) 2 (some (mapper 513 fileSize))

/-- The first process writes, the second one reads its own mapping. -/
def writeAndLook : List Event :=
  [.touch 1 0x400000 true, .store 1 0x400000 7, .touch 2 0x400000 false, .load 2 0x400000]

theorem mappers_procs {fileSize pid : Nat} {p : Process} (h : (mappers fileSize).procs pid = some p) :
    (pid = 1 ∧ p = mapper 512 fileSize) ∨ (pid = 2 ∧ p = mapper 513 fileSize) := by
  simp only [mappers, Function.update_apply] at h
  split at h
  · exact .inr ⟨‹_›, (Option.some.inj h).symm⟩
  · split at h
    · exact .inl ⟨‹_›, (Option.some.inj h).symm⟩
    · cases h

theorem mappers_sound (fileSize : Nat) : (mappers fileSize).Sound := by
  have hroots : roots (mappers fileSize).procs = {513, 512} := by
    ext r
    constructor
    · rintro ⟨pid, p, hp, rfl⟩
      rcases mappers_procs hp with ⟨-, rfl⟩ | ⟨-, rfl⟩
      · exact .inr rfl
      · exact .inl rfl
    · rintro (rfl | rfl)
      · exact ⟨2, mapper 513 fileSize, rfl, rfl⟩
      · exact ⟨1, mapper 512 fileSize, rfl, rfl⟩
  have hinv : Inv (roots (mappers fileSize).procs) 0 Fork.twoSpaces := by
    rw [hroots]
    exact Fork.twoSpaces_inv
  refine ⟨hinv, fun hp hp' he => ?_⟩
  rcases mappers_procs hp with ⟨rfl, rfl⟩ | ⟨rfl, rfl⟩ <;> rcases mappers_procs hp' with ⟨rfl, rfl⟩ | ⟨rfl, rfl⟩
  · rfl
  · cases he
  · cases he
  · rfl

theorem mappers_uncached (fileSize : Nat) (S : Set Nat) : ∀ e ∈ (mappers fileSize).machine.cache, e.frame ∉ S := by
  have hempty : (mappers fileSize).machine.cache.isEmpty = true := by
    change Fork.twoSpaces.cache.isEmpty = true
    decide +kernel
  intro e he
  rw [List.isEmpty_iff.1 hempty] at he
  cases he

set_option maxRecDepth 4000 in
/-- With one byte of file data the page straddles the end of the data, and is not cached. -/
theorem private_writes_invisible_boundary : ∃ outs outs' m₁ m₁',
    run sparse (mappers 1).procs writeAndLook (mappers 1).machine = some (outs, m₁) ∧
      run sparse (mappers 1).procs (writeAndLook.filter fun e => !storesAs 1 e) (mappers 1).machine =
        some (outs', m₁') ∧ others 1 outs' = others 1 outs := by
  have hok : (run sparse (mappers 1).procs writeAndLook (mappers 1).machine).map Prod.fst = some [(2, [0])] := by
    decide +kernel
  obtain ⟨⟨outs, m₁⟩, hrun, -⟩ := Option.map_eq_some_iff.1 hok
  have hmeets : Meets sparse (mappers 1).procs 1 (mappers 1).machine (.touch 1 0x400000 true) := by
    rintro - p i f hp hi - - -
    rcases mappers_procs hp with ⟨-, rfl⟩ | ⟨h, -⟩
    · have h0 : Vma.findVma (mapper 512 1).vmas 0x400000 = some 0 := by decide +kernel
      rw [h0] at hi
      cases hi
      intro ptr pageOffset filePos _ hoff _
      obtain rfl : pageOffset = 0 := by
        have : subU64 (pageBase 0x400000) 0x400000 = some 0 := by decide +kernel
        exact Option.some.inj (hoff.symm.trans this)
      exact .inr (.inl (by decide +kernel))
    · cases h
  have hall : AllMeet sparse (mappers 1).procs 1 (mappers 1).machine writeAndLook :=
    ⟨hmeets, fun _ _ _ => ⟨trivial, fun _ _ _ => ⟨nofun, fun _ _ _ => ⟨trivial, fun _ _ _ => trivial⟩⟩⟩⟩
  obtain ⟨outs', m₁', hrun', ho⟩ :=
    private_writes_invisible (mappers_sound 1) rfl (mappers_uncached 1 _) hall hrun
  exact ⟨outs, outs', m₁, m₁', hrun, hrun', ho⟩

set_option maxRecDepth 4000 in
/-- In a mapping made by `mmap` the page of the first process is cached, and the second one gets a copy of it. -/
theorem private_write_visible :
    (mappers 0).Sound ∧
      (∀ e ∈ (mappers 0).machine.cache, e.frame ∉ priv (roots (mappers 0).procs) 512 (mappers 0).machine) ∧
      (run sparse (mappers 0).procs writeAndLook (mappers 0).machine).map Prod.fst = some [(2, [7])] ∧
      (run sparse (mappers 0).procs (writeAndLook.filter fun e => !storesAs 1 e) (mappers 0).machine).map Prod.fst =
        some [(2, [0])] := by
  refine ⟨mappers_sound 0, mappers_uncached 0 _, ?_, ?_⟩
  · decide +kernel
  · decide +kernel

end Zigix.Private
