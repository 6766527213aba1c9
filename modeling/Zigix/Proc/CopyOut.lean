import Zigix.Mm.VmaSpec
import Zigix.Proc.WriteProtect

/-!
# Copying out to user memory

The kernel writes to a user buffer through its direct map, one page at a time: `copyToUser` and `sysRead` of
`kernel/proc/syscall.zig`, `writeToUserStack` of `kernel/proc/signal.zig`.

* `copyOut_respects` : a clear buffer is enough, and for a mapped buffer it is also necessary;
* `copyToUser_reaches_child` : after a fork, what is copied out for the parent is read by the child.
-/

namespace Zigix.CopyOut

open Forest Pmm Pte Vmm Space Fault Ext2 Clone
open Zigix.System (roots mem_roots ReadOnly Aligned)

/-! ## The copy loops -/

def pageIn (fs : FileSystem) (p : Process) (addr : Nat) (m : Machine) : Option (Option Nat × Machine) :=
  match translate m p.pageTable addr with
  | some phys => some (some phys, m)
  | none => do
    match ← demandPageUser fs p addr m with
    | (false, m) => some (none, m)
    | (true, m) => some (translate m p.pageTable addr, m)

/-- The loop of `copyToUser` and `writeToUserStack`, which differ in what they do about an absent page. A turn stores
at least one byte, so `data.length` turns suffice. -/
def copyLoop (page : Nat → Machine → Option (Option Nat × Machine)) :
    Nat → Nat → List (BitVec 8) → Machine → Option (Bool × Machine)
  | 0, _, _, m => some (true, m)
  | fuel + 1, addr, data, m =>
    if data.isEmpty then some (true, m)
    else do
      let chunk := min data.length (pageSize - addr % pageSize)
      match ← page addr m with
      | (none, m) => some (false, m)
      | (some phys, m) =>
        let m := storeBytes m (phys / pageSize) (phys % pageSize) (data.take chunk)
        let next ← addU64 addr chunk
        copyLoop page fuel next (data.drop chunk) m

def copyToUser (fs : FileSystem) (p : Process) (userAddr : Nat) (data : List (BitVec 8)) (m : Machine) :
    Option (Bool × Machine) := copyLoop (pageIn fs p) data.length userAddr data m

def writeToUserStack (p : Process) (userAddr : Nat) (data : List (BitVec 8)) (m : Machine) : Option (Bool × Machine) :=
  copyLoop (fun addr m => some (translate m p.pageTable addr, m)) data.length userAddr data m

/-! ## Reading a file into a user buffer -/

/-- What `ops.read` returns: `-EAGAIN`, another error, or the bytes it put into the buffer. -/
inductive ReadResult
  | again
  | error
  | bytes (bs : List (BitVec 8))

/-- `ops.read` of a file description with state `σ`. -/
abbrev ReadFn (σ : Type) := σ → Nat → Machine → ReadResult × σ × Machine

/-- The part of a file description that `sysRead` looks at. -/
structure Description (σ : Type) where
  /-- `flags & O_ACCMODE` -/
  access : Nat
  read : Option (ReadFn σ)

inductive Outcome
  | errno (e : Errno)
  /-- the process sleeps and the call is restarted -/
  | blocked
  | count (n : Nat)

/-- `validateUserBuffer`. -/
def validateUserBuffer (buf len : Nat) : Bool :=
  decide (buf < userEnd) && decide (buf + len < 2 ^ 64) && decide (buf + len ≤ userEnd)

/-- The loop of `sysRead`; both of its branches treat the result of `ops.read` in the same way. -/
def readLoop {σ : Type} (fs : FileSystem) (p : Process) (read : ReadFn σ) :
    Nat → Nat → Nat → Nat → σ → Machine → Option (Outcome × σ × Machine)
  | 0, _, _, total, st, m => some (.count total, st, m)
  | fuel + 1, addr, remaining, total, st, m =>
    if remaining = 0 then some (.count total, st, m)
    else do
      let chunk := min remaining (pageSize - addr % pageSize)
      match ← pageIn fs p addr m with
      | (none, m) => some (.count total, st, m)
      | (some phys, m) =>
        match read st chunk m with
        | (.again, st, m) => some (if total = 0 then .blocked else .count total, st, m)
        | (.error, st, m) => some (.count total, st, m)
        | (.bytes bs, st, m) =>
          let m := storeBytes m (phys / pageSize) (phys % pageSize) bs
          if bs.length < chunk then some (.count (total + bs.length), st, m)
          else do
            let next ← addU64 addr chunk
            readLoop fs p read fuel next (remaining - chunk) (total + bs.length) st m

/-- How much one call of `sysRead` reads. -/
def maxRead : Nat := 1048576

def sysRead {σ : Type} (fs : FileSystem) (p : Process) (desc : Option (Description σ)) (bufAddr len : Nat) (st : σ)
    (m : Machine) : Option (Outcome × σ × Machine) :=
  match desc with
  | none => some (.errno .EBADF, st, m)
  | some desc =>
    if desc.access ≠ 0 ∧ desc.access ≠ 2 then some (.errno .EBADF, st, m)
    else
      match desc.read with
      | none => some (.errno .EBADF, st, m)
      | some read =>
        if !validateUserBuffer bufAddr len then some (.errno .EFAULT, st, m)
        else readLoop fs p read (min len maxRead) bufAddr (min len maxRead) 0 st m

/-- What `sysRead` relies on: the bytes fit the buffer, and apart from them no page of an address space changes. -/
def Lawful {σ : Type} (read : ReadFn σ) : Prop :=
  ∀ (R : Set Nat) (st : σ) (n : Nat) (m : Machine), Inv R 0 m →
    Inv R 0 (read st n m).2.2 ∧ Keeps R (fun _ _ => False) m (read st n m).2.2 ∧
      ∀ bs, (read st n m).1 = .bytes bs → bs.length ≤ n

/-! ## What a copy must respect -/

section Spec
variable (s : System) (pid : Nat) (p : Process)

/-- A byte of frame `f` that process `pid` may write: nobody else reads it, and it is in no read-only area. -/
def Alone (f off : Nat) : Prop :=
  ∀ q pq virt, s.procs q = some pq → virt < userEnd → walk (follow s.machine) pq.pageTable (leafPath virt) = some f →
    virt % pageSize = off → q = pid ∧ ¬ ReadOnly p virt

/-- Every byte of the buffer is in user space, in no read-only area, and in a page that `pid` has for itself. -/
def Clear (addr n : Nat) : Prop :=
  addr + n ≤ userEnd ∧ ∀ x, addr ≤ x → x < addr + n → ¬ ReadOnly p x ∧
    ∀ f, walk (follow s.machine) p.pageTable (leafPath x) = some f → Alone s pid p f (x % pageSize)

structure Respects (m' : Machine) : Prop where
  others : ∀ q pq virt, s.procs q = some pq → q ≠ pid →
    userRead pq.pageTable virt m' = userRead pq.pageTable virt s.machine
  readOnly : ∀ virt, ReadOnly p virt → userRead p.pageTable virt m' = userRead p.pageTable virt s.machine

end Spec

/-! ## During the copy -/

section Copy
variable {s : System} {pid : Nat} {p : Process} {addr n : Nat} {m₁ m₂ : Machine}

/-- A byte of the buffer lies at offset `off` of frame `f`. -/
def Hit (s : System) (p : Process) (addr n f off : Nat) : Prop :=
  ∃ x, addr ≤ x ∧ x < addr + n ∧ walk (follow s.machine) p.pageTable (leafPath x) = some f ∧ x % pageSize = off

def Spanned (p : Process) (addr n r : Nat) (path : List Nat) : Prop :=
  r = p.pageTable ∧ ∃ x, addr ≤ x ∧ x < addr + n ∧ path = leafPath x

/-- What holds of the machine while a buffer is filled. -/
structure Copying (s : System) (p : Process) (addr n : Nat) (m₁ : Machine) : Prop where
  inv : Inv (roots s.procs) 0 m₁
  mapped : ∀ {r path f}, Node (roots s.procs) s.machine r path f → path.length = 4 → Node (roots s.procs) m₁ r path f
  absent : ∀ {r path}, r ∈ roots s.procs → UserPath path → path.length = 4 → walk (follow s.machine) r path = none →
    ¬ Spanned p addr n r path → walk (follow m₁) r path = none
  /-- a page that is new is not one of those mapped before -/
  fresh : ∀ {r path f}, Node (roots s.procs) m₁ r path f → path.length = 4 →
    walk (follow s.machine) r path = none → ∀ {r' path'}, path'.length = 4 → ¬ Node (roots s.procs) s.machine r' path' f
  bytes : ∀ {r path f}, Node (roots s.procs) s.machine r path f → path.length = 4 → ∀ off, ¬ Hit s p addr n f off →
    Machine.pageByte (m₁.mem f) off = Machine.pageByte (s.machine.mem f) off

theorem Copying.start (h : s.Sound) : Copying s p addr n s.machine where
  inv := h.inv
  mapped := fun hn _ => hn
  absent := fun _ _ _ hw _ => hw
  fresh := fun hn _ hw => by
    rw [hn.2.2] at hw
    cases hw
  bytes := fun _ _ _ _ => rfl

theorem Copying.keeps (h : Copying s p addr n m₁) (hi : Inv (roots s.procs) 0 m₂)
    (hk : Keeps (roots s.procs) (fun _ _ => False) m₁ m₂) : Copying s p addr n m₂ where
  inv := hi
  mapped := fun hn hl => hk.node (h.mapped hn hl) id
  absent := fun hr hu hl hw hsp => (hk.walk hr hu id).trans (h.absent hr hu hl hw hsp)
  fresh := fun {r path f} hn hl hw => h.fresh ⟨hn.1, hn.2.1, by rw [← hk.walk hn.1 hn.2.1 id]; exact hn.2.2⟩ hl hw
  bytes := fun hn hl off hh => by
    rw [hk.data (h.mapped hn hl) hl id]
    exact h.bytes hn hl off hh

theorem Copying.paged (h : Copying s p addr n m₁) {x : Nat} (hx : addr ≤ x) (hxn : x < addr + n)
    (hi : Inv (roots s.procs) 0 m₂) (hk : Keeps (roots s.procs) (OnPath p.pageTable x) m₁ m₂)
    (habs : walk (follow m₁) p.pageTable (leafPath x) = none)
    (hnew : ∀ {f}, walk (follow m₂) p.pageTable (leafPath x) = some f →
      ∀ {r path}, Node (roots s.procs) m₂ r path f → r = p.pageTable ∧ path = leafPath x) : Copying s p addr n m₂ := by
  have hoff : ∀ {r path}, path.length = 4 → ¬ (r = p.pageTable ∧ path = leafPath x) → ¬ OnPath p.pageTable x r path := by
    rintro r path hl hne ⟨hr, hpre⟩
    exact hne ⟨hr, hpre.eq_of_length (by rw [hl, leafPath_length])⟩
  have hmapped : ∀ {r path g}, Node (roots s.procs) s.machine r path g → path.length = 4 →
      ¬ OnPath p.pageTable x r path := by
    intro r path g hn hl
    refine hoff hl ?_
    rintro ⟨rfl, rfl⟩
    rw [(h.mapped hn hl).2.2] at habs
    cases habs
  refine ⟨hi, fun hn hl => hk.node (h.mapped hn hl) (hmapped hn hl), fun {r path} hr hu hl hw hsp => ?_,
    fun {r path g} hn hl hw => ?_, fun hn hl off hh => ?_⟩
  · rw [hk.walk hr hu (hoff hl fun he => hsp ⟨he.1, x, hx, hxn, he.2⟩)]
    exact h.absent hr hu hl hw hsp
  · intro r' path' hl' hn'
    by_cases hat : r = p.pageTable ∧ path = leafPath x
    · obtain ⟨rfl, rfl⟩ := hat
      obtain ⟨rfl, rfl⟩ := hnew hn.2.2 (hk.node (h.mapped hn' hl') (hmapped hn' hl'))
      exact hmapped hn' hl' ⟨rfl, List.prefix_rfl⟩
    · have hn₁ : Node (roots s.procs) m₁ r path g := ⟨hn.1, hn.2.1, by rw [← hk.walk hn.1 hn.2.1 (hoff hl hat)]; exact hn.2.2⟩
      exact h.fresh hn₁ hl hw hl' hn'
  · rw [hk.data (h.mapped hn hl) hl (hmapped hn hl)]
    exact h.bytes hn hl off hh

theorem leafPath_add {x k : Nat} (h : x % pageSize + k < pageSize) : leafPath (x + k) = leafPath x := by
  have hbase : pageBase (x + k) = pageBase x := by
    unfold pageBase pageSize at *
    omega
  calc leafPath (x + k) = leafPath (pageBase (x + k)) := leafPath_pageBase.symm
    _ = leafPath (pageBase x) := by rw [hbase]
    _ = leafPath x := leafPath_pageBase

theorem Copying.stored (h : Copying s p addr n m₁) {x f : Nat} {bs : List (BitVec 8)} (hx : addr ≤ x)
    (hxn : x + bs.length ≤ addr + n) (hin : x % pageSize + bs.length ≤ pageSize)
    (hn : Node (roots s.procs) m₁ p.pageTable (leafPath x) f) :
    Copying s p addr n (storeBytes m₁ f (x % pageSize) bs) := by
  have hleaf : ∀ {r path}, Node (roots s.procs) m₁ r path f → path.length = 4 :=
    fun hn' => h.inv.leaf_of_leaf hn leafPath_length hn'
  have hother : ∀ g off, (g = f → x % pageSize ≤ off → off < x % pageSize + bs.length → False) →
      Machine.pageByte ((storeBytes m₁ f (x % pageSize) bs).mem g) off = Machine.pageByte (m₁.mem g) off := by
    intro g off hout
    by_cases hg : g = f
    · subst hg
      rw [pageByte_storeBytes, if_neg fun hr => hout rfl hr.1 hr.2]
    · rw [mem_storeBytes_of_ne hg]
  have hbytes : ∀ {r path g}, Node (roots s.procs) s.machine r path g → path.length = 4 → ∀ off, ¬ Hit s p addr n g off →
      Machine.pageByte ((storeBytes m₁ f (x % pageSize) bs).mem g) off = Machine.pageByte (s.machine.mem g) off := by
    intro r path g hg hl off hh
    rw [hother g off, h.bytes hg hl off hh]
    rintro rfl h1 h2
    -- the byte stored there is one of the buffer
    have hw : walk (follow s.machine) p.pageTable (leafPath x) = some g := by
      cases hc : walk (follow s.machine) p.pageTable (leafPath x) with
      | none => exact absurd hg (h.fresh hn leafPath_length hc hl)
      | some g' =>
        have := (h.mapped ⟨hn.1, hn.2.1, hc⟩ leafPath_length).unique hn
        rw [this]
    obtain ⟨k, rfl⟩ := Nat.exists_eq_add_of_le h1
    have hk : x % pageSize + k < pageSize := by omega
    refine hh ⟨x + k, by omega, by omega, by rw [leafPath_add hk]; exact hw, ?_⟩
    unfold pageSize at hk ⊢
    omega
  obtain ⟨c, hc⟩ := storeBytes_eq m₁ f (x % pageSize) bs
  have hnode : ∀ {r path g}, Node (roots s.procs) (storeBytes m₁ f (x % pageSize) bs) r path g ↔
      Node (roots s.procs) m₁ r path g := by
    intro r path g
    rw [hc]
    exact TablesEq.node_iff (tablesEq_setPage hleaf)
  refine ⟨?_, fun hn' hl => hnode.2 (h.mapped hn' hl), fun hr hu hl hw hsp => ?_,
    fun hn' hl hw => h.fresh (hnode.1 hn') hl hw, hbytes⟩
  · rw [hc]
    exact h.inv.setPage hleaf
  · rw [hc, walk_setPage hleaf hr hu]
    exact h.absent hr hu hl hw hsp

/-- What a copy loop needs of its way to find a page of the buffer. -/
def PageSpec (s : System) (p : Process) (addr n : Nat) (page : Nat → Machine → Option (Option Nat × Machine)) : Prop :=
  ∀ {x m₁ o m₂}, addr ≤ x → x < addr + n → Copying s p addr n m₁ → page x m₁ = some (o, m₂) →
    Copying s p addr n m₂ ∧ ∀ phys, o = some phys →
      ∃ f, Node (roots s.procs) m₂ p.pageTable (leafPath x) f ∧ phys / pageSize = f ∧ phys % pageSize = x % pageSize

theorem translate_node (hp : s.procs pid = some p) {x phys : Nat} (hx : x < userEnd) (h : Copying s p addr n m₁)
    (ht : translate m₁ p.pageTable x = some phys) :
    ∃ f, Node (roots s.procs) m₁ p.pageTable (leafPath x) f ∧ phys / pageSize = f ∧ phys % pageSize = x % pageSize := by
  rw [translate_eq h.inv (mem_roots hp) hx] at ht
  obtain ⟨f, hw, rfl⟩ := Option.map_eq_some_iff.1 ht
  refine ⟨f, ⟨mem_roots hp, leafPath_user hx, hw⟩, ?_, ?_⟩
  · unfold pageSize
    omega
  · unfold pageSize
    omega

theorem translate_spec (hp : s.procs pid = some p) (hend : addr + n ≤ userEnd) :
    PageSpec s p addr n fun x m => some (translate m p.pageTable x, m) := by
  intro x m₁ o m₂ _ hxn h hres
  cases hres
  exact ⟨h, fun phys ht => translate_node hp (by omega) h ht⟩

theorem onPath_pageBase {r x : Nat} : OnPath r (pageBase x) = OnPath r x := by
  funext r' path
  unfold OnPath
  rw [leafPath_pageBase]

theorem pageIn_spec {fs : FileSystem} (hp : s.procs pid = some p) (hend : addr + n ≤ userEnd)
    (hrw : ∀ x, addr ≤ x → x < addr + n → ¬ ReadOnly p x) : PageSpec s p addr n (pageIn fs p) := by
  intro x m₁ o m₂ hx hxn h hres
  have hxe : x < userEnd := by omega
  have hr := mem_roots hp
  unfold pageIn at hres
  split at hres
  · next phys ht =>
    cases hres
    exact ⟨h, fun phys' he => translate_node hp hxe h (ht.trans he)⟩
  next ht =>
  have habs : walk (follow m₁) p.pageTable (leafPath x) = none := by
    rw [translate_eq h.inv hr hxe] at ht
    simpa using ht
  obtain ⟨⟨ok, m₃⟩, hdem, hres⟩ := Option.bind_eq_some_iff.1 hres
  have hcopy : Copying s p addr n m₃ := by
    unfold demandPageUser at hdem
    split at hdem
    · cases hdem
      exact h
    next i hi =>
    obtain ⟨guard, -, hdem⟩ := Option.bind_eq_some_iff.1 hdem
    split at hdem
    · cases hdem
      exact h
    have hd := handleDemandPage_spec h.inv hr (pageBase_lt hxe) hdem
    have hk := hd.keeps
    rw [onPath_pageBase] at hk
    refine h.paged hx hxn hd.inv hk habs fun {f} hw => ?_
    have hn : Node (roots s.procs) m₃ p.pageTable (leafPath x) f := ⟨hr, leafPath_user hxe, hw⟩
    have hnone : ∀ {w}, ¬ Leaf (roots s.procs) m₁ p.pageTable (leafPath x) w := by
      intro w hl
      have := hl.node.2.2
      rw [habs] at this
      cases this
    obtain ⟨w, hleaf⟩ := leaf_of_walk hr (leafPath_user hxe) leafPath_length hw
    cases ok with
    | false =>
      intro r path _
      exact absurd (hd.failed rfl _ _ _ hleaf id) hnone
    | true =>
      -- the area is writable, so the new page is mapped at one place
      obtain ⟨g, hg⟩ := hd.mapped rfl (by rw [translate_eq h.inv hr (pageBase_lt hxe), leafPath_pageBase, habs]; rfl)
      rw [leafPath_pageBase] at hg
      have hwr : (p.vmas i).flags.write = true := by
        by_contra hno
        exact hrw x hx hxn ⟨hxe, i, hi, by simpa using hno⟩
      obtain rfl := hleaf.unique hg
      have hframe := hleaf.node.unique hn
      obtain ⟨q, t, j, hq, hl, hu, hnt, hword, hpres⟩ := hleaf
      intro r path hn'
      rw [hq] at hu ⊢
      exact hd.inv.exclusive hnt hl (hu.2.1 j (by simp)) (by rw [hword]; exact hpres)
        (by rw [hword]; simp [mapFlags, MapFlags.entry, hwr]) (by rw [hword, hframe]; exact hn')
  cases ok with
  | false =>
    cases hres
    exact ⟨hcopy, by simp⟩
  | true =>
    cases hres
    exact ⟨hcopy, fun phys ht => translate_node hp hxe hcopy ht⟩

theorem copyLoop_copying {page : Nat → Machine → Option (Option Nat × Machine)} (hpage : PageSpec s p addr n page)
    (fuel x : Nat) (data : List (BitVec 8)) (hx : addr ≤ x) (hlen : x + data.length ≤ addr + n)
    (h : Copying s p addr n m₁) {res : Bool × Machine} (hres : copyLoop page fuel x data m₁ = some res) :
    Copying s p addr n res.2 := by
  induction fuel generalizing x data m₁ with
  | zero =>
    cases hres
    exact h
  | succ fuel ih =>
    rw [copyLoop] at hres
    split at hres
    · cases hres
      exact h
    next hne =>
    have hpos : 0 < data.length := List.length_pos_iff.2 (by simpa using hne)
    obtain ⟨⟨o, m₂⟩, hpg, hres⟩ := Option.bind_eq_some_iff.1 hres
    obtain ⟨h₂, hphys⟩ := hpage hx (by omega) h hpg
    cases o with
    | none =>
      cases hres
      exact h₂
    | some phys =>
      obtain ⟨f, hn, hf, hoff⟩ := hphys phys rfl
      obtain ⟨next, hnext, hres⟩ := Option.bind_eq_some_iff.1 hres
      cases addU64_some hnext
      have hmod : x % pageSize < pageSize := Nat.mod_lt _ (by decide)
      have hmin := Nat.min_le_right data.length (pageSize - x % pageSize)
      refine ih _ _ (by omega) (by rw [List.length_drop]; omega) ?_ hres
      rw [hf, hoff]
      refine h₂.stored hx ?_ ?_ hn
      · rw [List.length_take]
        omega
      · rw [List.length_take]
        omega

theorem readLoop_copying {σ : Type} {fs : FileSystem} {read : ReadFn σ} (hpage : PageSpec s p addr n (pageIn fs p))
    (hread : Lawful read) (fuel x remaining total : Nat) (st : σ) (hx : addr ≤ x) (hlen : x + remaining ≤ addr + n)
    (h : Copying s p addr n m₁) {res : Outcome × σ × Machine}
    (hres : readLoop fs p read fuel x remaining total st m₁ = some res) : Copying s p addr n res.2.2 := by
  induction fuel generalizing x remaining total st m₁ with
  | zero =>
    cases hres
    exact h
  | succ fuel ih =>
    rw [readLoop] at hres
    split at hres
    · cases hres
      exact h
    next hne =>
    obtain ⟨⟨o, m₂⟩, hpg, hres⟩ := Option.bind_eq_some_iff.1 hres
    obtain ⟨h₂, hphys⟩ := hpage hx (by omega) h hpg
    cases o with
    | none =>
      cases hres
      exact h₂
    | some phys =>
      obtain ⟨f, hn, hf, hoff⟩ := hphys phys rfl
      dsimp only at hres
      obtain ⟨hinv, hk, hbs⟩ := hread (roots s.procs) st (min remaining (pageSize - x % pageSize)) m₂ h₂.inv
      rcases hr : read st (min remaining (pageSize - x % pageSize)) m₂ with ⟨r, st', m₃⟩
      rw [hr] at hres hinv hk hbs
      have h₃ := h₂.keeps hinv hk
      cases r with
      | again =>
        cases hres
        exact h₃
      | error =>
        cases hres
        exact h₃
      | bytes bs =>
        have hlb := hbs bs rfl
        have hmod : x % pageSize < pageSize := Nat.mod_lt _ (by decide)
        have hmin := Nat.min_le_right remaining (pageSize - x % pageSize)
        have hmin' := Nat.min_le_left remaining (pageSize - x % pageSize)
        have h₄ : Copying s p addr n (storeBytes m₃ (phys / pageSize) (phys % pageSize) bs) := by
          rw [hf, hoff]
          exact h₃.stored hx (by omega) (by omega) (hk.node hn id)
        dsimp only at hres
        split at hres
        · cases hres
          exact h₄
        · obtain ⟨next, hnext, hres⟩ := Option.bind_eq_some_iff.1 hres
          cases addU64_some hnext
          exact ih _ _ _ _ (by omega) (by omega) h₄ hres

/-- **A copy into a clear buffer** respects the other processes and the read-only areas. -/
theorem Copying.respects (h : Copying s p addr n m₁) (hs : s.Sound) (hp : s.procs pid = some p) (hal : Aligned p.vmas)
    (hclear : Clear s pid p addr n) : Respects s pid p m₁ := by
  have hread : ∀ q pq virt, s.procs q = some pq → (q ≠ pid ∨ q = pid ∧ ReadOnly p virt) →
      userRead pq.pageTable virt m₁ = userRead pq.pageTable virt s.machine := by
    intro q pq virt hq hcase
    by_cases hv : virt < userEnd
    · have hr := mem_roots hq
      rw [userRead_eq h.inv hr hv, userRead_eq hs.inv hr hv]
      unfold page
      cases hw : walk (follow s.machine) pq.pageTable (leafPath virt) with
      | none =>
        rw [h.absent hr (leafPath_user hv) leafPath_length hw]
        · rfl
        · -- an absent page of the buffer belongs to the process and to no read-only area
          rintro ⟨hroot, x, hx, hxn, hpath⟩
          obtain rfl := hs.distinct hq hp hroot
          have hro := (hcase.resolve_left (· rfl)).2
          obtain ⟨-, i, hi, hwr⟩ := hro
          have hxe : x < userEnd := by
            have := hclear.1
            omega
          rw [System.findVma_page hal (System.page_of_leafPath hxe hv hpath)] at hi
          exact (hclear.2 x hx hxn).1 ⟨hxe, i, hi, hwr⟩
      | some f =>
        have hn : Node (roots s.procs) s.machine pq.pageTable (leafPath virt) f := ⟨hr, leafPath_user hv, hw⟩
        rw [(h.mapped hn leafPath_length).2.2]
        simp only [Option.map_some, Option.some.injEq]
        refine h.bytes hn leafPath_length _ ?_
        rintro ⟨x, hx, hxn, hwx, hoff⟩
        obtain ⟨hqp, hnro⟩ := (hclear.2 x hx hxn).2 f hwx q pq virt hq hv hw hoff.symm
        rcases hcase with hne | ⟨-, hro⟩
        · exact hne hqp
        · exact hnro hro
    · unfold userRead
      rw [if_neg hv, if_neg hv]
  exact ⟨fun q pq virt hq hne => hread q pq virt hq (.inl hne), fun virt hro => hread pid p virt hp (.inr ⟨rfl, hro⟩)⟩

/-! ## A buffer that is mapped -/

def Present (s : System) (p : Process) (addr n : Nat) : Prop :=
  ∀ x, addr ≤ x → x < addr + n → (walk (follow s.machine) p.pageTable (leafPath x)).isSome = true

/-- The bytes `[addr, x)` of the buffer have the value `c`. -/
def FilledTo (s : System) (p : Process) (addr : Nat) (c : BitVec 8) (x : Nat) (m₁ : Machine) : Prop :=
  ∀ y f, addr ≤ y → y < x → walk (follow s.machine) p.pageTable (leafPath y) = some f →
    Machine.pageByte (m₁.mem f) (y % pageSize) = c

theorem FilledTo.store {c : BitVec 8} {x k f : Nat} (h : FilledTo s p addr c x m₁)
    (hin : x % pageSize + k ≤ pageSize) (hw : walk (follow s.machine) p.pageTable (leafPath x) = some f) :
    FilledTo s p addr c (x + k) (storeBytes m₁ f (x % pageSize) (List.replicate k c)) := by
  have hc : ∀ off, x % pageSize ≤ off → off < x % pageSize + k →
      Machine.pageByte ((storeBytes m₁ f (x % pageSize) (List.replicate k c)).mem f) off = c := by
    intro off h1 h2
    rw [pageByte_storeBytes, if_pos ⟨h1, by rw [List.length_replicate]; exact h2⟩,
      List.getD_eq_getElem?_getD, List.getElem?_replicate, if_pos (by omega), Option.getD_some]
  intro y g hy hyk hg
  by_cases hyx : y < x
  · by_cases hat : g = f ∧ x % pageSize ≤ y % pageSize ∧ y % pageSize < x % pageSize + k
    · obtain ⟨rfl, h1, h2⟩ := hat
      exact hc _ h1 h2
    · by_cases hgf : g = f
      · subst hgf
        rw [pageByte_storeBytes, if_neg fun hr => hat ⟨rfl, hr.1, by rw [List.length_replicate] at hr; exact hr.2⟩]
        exact h y g hy hyx hg
      · rw [mem_storeBytes_of_ne hgf]
        exact h y g hy hyx hg
  · obtain ⟨j, rfl⟩ := Nat.exists_eq_add_of_le (Nat.not_lt.1 hyx)
    have hj : x % pageSize + j < pageSize := by omega
    rw [leafPath_add hj, hw] at hg
    cases hg
    have hmod : (x + j) % pageSize = x % pageSize + j := by
      unfold pageSize at hj ⊢
      omega
    rw [hmod]
    exact hc _ (by omega) (by omega)

theorem copyLoop_fills {page : Nat → Machine → Option (Option Nat × Machine)} (hp : s.procs pid = some p)
    (hend : addr + n ≤ userEnd) (hpres : Present s p addr n)
    (hpage : ∀ {x m₁ phys}, translate m₁ p.pageTable x = some phys → page x m₁ = some (some phys, m₁)) (c : BitVec 8)
    (fuel x k : Nat) (hk : k ≤ fuel) (hx : addr ≤ x) (hxk : x + k = addr + n) (h : Copying s p addr n m₁)
    (hfill : FilledTo s p addr c x m₁) :
    ∃ m', copyLoop page fuel x (List.replicate k c) m₁ = some (true, m') ∧ Copying s p addr n m' ∧
      FilledTo s p addr c (addr + n) m' := by
  induction fuel generalizing x k m₁ with
  | zero =>
    obtain rfl : k = 0 := by omega
    obtain rfl : x = addr + n := by omega
    exact ⟨m₁, rfl, h, hfill⟩
  | succ fuel ih =>
    cases k with
    | zero =>
      obtain rfl : x = addr + n := by omega
      exact ⟨m₁, rfl, h, hfill⟩
    | succ k =>
      have hxe : x < userEnd := by omega
      obtain ⟨f, hw⟩ := Option.isSome_iff_exists.1 (hpres x hx (by omega))
      have hn := h.mapped ⟨mem_roots hp, leafPath_user hxe, hw⟩ leafPath_length
      have htr : translate m₁ p.pageTable x = some (f * pageSize + x % pageSize) := by
        rw [translate_eq h.inv (mem_roots hp) hxe, hn.2.2]
        rfl
      have hf : (f * pageSize + x % pageSize) / pageSize = f := by unfold pageSize; omega
      have hoff : (f * pageSize + x % pageSize) % pageSize = x % pageSize := by unfold pageSize; omega
      have hmod : x % pageSize < pageSize := Nat.mod_lt _ (by decide)
      let chunk := min (k + 1) (pageSize - x % pageSize)
      have hchunk : 0 < chunk ∧ chunk ≤ k + 1 ∧ x % pageSize + chunk ≤ pageSize := by omega
      have hnext : addU64 x chunk = some (x + chunk) := by
        unfold addU64
        rw [if_pos (by unfold userEnd at hend; omega)]
      have hstore : Copying s p addr n (storeBytes m₁ f (x % pageSize) (List.replicate chunk c)) :=
        h.stored hx (by rw [List.length_replicate]; omega) (by rw [List.length_replicate]; omega) hn
      obtain ⟨m', hrun, hcopy, hfilled⟩ := ih (x + chunk) (k + 1 - chunk) (by omega) (by omega) (by omega) hstore
        (hfill.store (by omega) hw)
      refine ⟨m', ?_, hcopy, hfilled⟩
      have hne : (List.replicate (k + 1) c).isEmpty = false := rfl
      rw [copyLoop, hne]
      simp only [Bool.false_eq_true, if_false, hpage htr, hf, hoff, List.length_replicate, List.take_replicate,
        List.drop_replicate, Option.bind_eq_bind, Option.bind_some, Nat.min_eq_left hchunk.2.1, chunk] at hrun hnext ⊢
      rw [hnext, Option.bind_some]
      exact hrun

theorem userRead_of_walk (h : Copying s p addr n m₁) {q virt f : Nat} {pq : Process} (hq : s.procs q = some pq)
    (hv : virt < userEnd) (hw : walk (follow s.machine) pq.pageTable (leafPath virt) = some f) :
    userRead pq.pageTable virt m₁ = some (Machine.pageByte (m₁.mem f) (virt % pageSize)) := by
  have hn := h.mapped ⟨mem_roots hq, leafPath_user hv, hw⟩ leafPath_length
  rw [userRead_eq h.inv (mem_roots hq) hv]
  unfold page
  rw [hn.2.2]
  rfl

/-- **A mapped buffer that is not clear** is not respected by some copy. -/
theorem clear_of_respects {page : Nat → Machine → Option (Option Nat × Machine)} (hs : s.Sound)
    (hp : s.procs pid = some p) (hend : addr + n ≤ userEnd) (hpres : Present s p addr n)
    (hpage : ∀ {x m₁ phys}, translate m₁ p.pageTable x = some phys → page x m₁ = some (some phys, m₁))
    (hall : ∀ data : List (BitVec 8), data.length = n → ∀ res, copyLoop page data.length addr data s.machine = some res →
      Respects s pid p res.2) : Clear s pid p addr n := by
  -- a byte of the buffer that somebody else reads, or that a read-only area shows, can be changed
  have hchange : ∀ {x f q virt : Nat} {pq : Process}, addr ≤ x → x < addr + n →
      walk (follow s.machine) p.pageTable (leafPath x) = some f → s.procs q = some pq → virt < userEnd →
      walk (follow s.machine) pq.pageTable (leafPath virt) = some f → virt % pageSize = x % pageSize →
      (q ≠ pid ∨ q = pid ∧ ReadOnly p virt) → False := by
    intro x f q virt pq hx hxn hwx hq hv hw hoff hcase
    let old := Machine.pageByte (s.machine.mem f) (x % pageSize)
    have hne : old + 1 ≠ old := by simp
    obtain ⟨m', hrun, hcopy, hfilled⟩ := @copyLoop_fills s pid p addr n s.machine page hp hend hpres hpage (old + 1) n addr n le_rfl le_rfl
      rfl (.start hs) fun y g h1 h2 => by omega
    have hresp := hall (List.replicate n (old + 1)) List.length_replicate _ (by rw [List.length_replicate]; exact hrun)
    have hnew : userRead pq.pageTable virt m' = some (old + 1) := by
      rw [userRead_of_walk hcopy hq hv hw, hoff, hfilled x f hx hxn hwx]
    have hstart : Copying s p addr n s.machine := .start hs
    have hold : userRead pq.pageTable virt s.machine = some old := by
      rw [userRead_of_walk hstart hq hv hw, hoff]
    have hsame : userRead pq.pageTable virt m' = userRead pq.pageTable virt s.machine := by
      rcases hcase with hqp | ⟨rfl, hro⟩
      · exact hresp.others q pq virt hq hqp
      · obtain rfl : pq = p := by
          rw [hp] at hq
          exact (Option.some.inj hq).symm
        exact hresp.readOnly virt hro
    rw [hnew, hold] at hsame
    exact hne (Option.some.inj hsame)
  refine ⟨hend, fun x hx hxn => ⟨fun hro => ?_, fun f hwx q pq virt hq hv hw hoff => ?_⟩⟩
  · obtain ⟨f, hwx⟩ := Option.isSome_iff_exists.1 (hpres x hx hxn)
    exact hchange hx hxn hwx hp hro.1 hwx rfl (.inr ⟨rfl, hro⟩)
  · by_contra hno
    refine hchange hx hxn hwx hq hv hw hoff ?_
    by_cases hqp : q = pid
    · exact .inr ⟨hqp, by_contra fun hro => hno ⟨hqp, hro⟩⟩
    · exact .inl hqp

end Copy

section Main
variable {fs : FileSystem} {s : System} {pid : Nat} {p : Process} {addr n : Nat}

/-- Every copy of `n` bytes to `addr`, whatever the bytes and by whichever path, respects the others. -/
structure AllRespect (fs : FileSystem) (s : System) (pid : Nat) (p : Process) (addr n : Nat) : Prop where
  copyToUser : ∀ data : List (BitVec 8), data.length = n → ∀ res, copyToUser fs p addr data s.machine = some res →
    Respects s pid p res.2
  writeToUserStack : ∀ data : List (BitVec 8), data.length = n → ∀ res, writeToUserStack p addr data s.machine = some res →
    Respects s pid p res.2
  sysRead : ∀ {σ : Type} (desc : Option (Description σ)) (len : Nat) (st : σ) (res : Outcome × σ × Machine),
    min len maxRead = n → (∀ d read, desc = some d → d.read = some read → Lawful read) →
    sysRead fs p desc addr len st s.machine = some res → Respects s pid p res.2.2

theorem sysRead_respects {σ : Type} {desc : Option (Description σ)} {len : Nat} {st : σ} {res : Outcome × σ × Machine}
    (hs : s.Sound) (hp : s.procs pid = some p) (hal : Aligned p.vmas) (hclear : Clear s pid p addr (min len maxRead))
    (hlaw : ∀ d read, desc = some d → d.read = some read → Lawful read)
    (hres : sysRead fs p desc addr len st s.machine = some res) : Respects s pid p res.2.2 := by
  have hsame : Respects s pid p s.machine := ⟨fun _ _ _ _ _ => rfl, fun _ _ => rfl⟩
  unfold sysRead at hres
  split at hres
  · cases hres
    exact hsame
  next d =>
  split at hres
  · cases hres
    exact hsame
  split at hres
  · cases hres
    exact hsame
  next read hread =>
  split at hres
  · cases hres
    exact hsame
  have hpage : PageSpec s p addr (min len maxRead) (pageIn fs p) :=
    pageIn_spec hp hclear.1 fun x hx hxn => (hclear.2 x hx hxn).1
  exact (readLoop_copying hpage (hlaw d read rfl hread) _ _ _ _ _ le_rfl le_rfl (.start hs) hres).respects hs hp hal hclear

theorem clear_of_writable (hs : s.Sound) (hp : s.procs pid = some p) (hend : addr + n ≤ userEnd)
    (h : ∀ x, addr ≤ x → x < addr + n → ¬ ReadOnly p x ∧
      ∃ w, Leaf (roots s.procs) s.machine p.pageTable (leafPath x) w ∧ isWritable w = true) : Clear s pid p addr n := by
  refine ⟨hend, fun x hx hxn => ?_⟩
  obtain ⟨hro, w, hleaf, hw⟩ := h x hx hxn
  refine ⟨hro, fun f hwx q pq virt hq hv hwv hoff => ?_⟩
  have hf : frame w = f := by
    have := hleaf.node.2.2
    rw [hwx] at this
    exact (Option.some.inj this).symm
  obtain ⟨path, t, i, hpath, hl, hu, ht, hword, hpr⟩ := hleaf
  have hn : Node (roots s.procs) s.machine pq.pageTable (leafPath virt) (frame (s.machine.mem t i)) :=
    ⟨mem_roots hq, leafPath_user hv, by rw [hword, hf]; exact hwv⟩
  obtain ⟨hroot, hvp⟩ := hs.inv.exclusive ht hl ((hpath ▸ hu).2.1 i (by simp)) (by rw [hword]; exact hpr)
    (by rw [hword]; exact hw) hn
  rw [← hpath] at hvp
  obtain rfl := Fork.virt_eq_of_leafPath (by omega) hv hvp hoff
  exact ⟨hs.distinct hq hp hroot, hro⟩

end Main

/-! ## A page shared by a fork -/

/-- A process with a writable page at `0x400000`. -/
def writer (pageTable : Nat) : Process where
  pageTable := pageTable
  heapStart := 0x500000
  heapCurrent := 0x500000
  fds := fun _ => none
  vmas := Function.update Vma.emptyVmaList 0
    { start := 0x400000, stop := 0x401000, flags := { read := true, write := true, user := true }, inUse := true,
      inode := none, fileOffset := 0, fileSize := 0 }
  mmapHint := 0x700000000000

/-- Two processes with the same areas on a given machine. -/
def family (m : Machine) : System where
  machine := m
  procs := Function.update (Function.update (fun _ => none) 1 (some (writer 512))) 2 (some (writer 513))

theorem family_procs {m : Machine} {pid : Nat} {p : Process} (h : (family m).procs pid = some p) :
    (pid = 1 ∧ p = writer 512) ∨ (pid = 2 ∧ p = writer 513) := by
  simp only [family, Function.update_apply] at h
  split at h
  · exact .inr ⟨‹_›, (Option.some.inj h).symm⟩
  · split at h
    · exact .inl ⟨‹_›, (Option.some.inj h).symm⟩
    · cases h

theorem family_sound {m : Machine} (h : Inv {513, 512} 0 m) : (family m).Sound := by
  have hroots : roots (family m).procs = {513, 512} := by
    ext r
    constructor
    · rintro ⟨pid, p, hp, rfl⟩
      rcases family_procs hp with ⟨-, rfl⟩ | ⟨-, rfl⟩
      · exact .inr rfl
      · exact .inl rfl
    · rintro (rfl | rfl)
      · exact ⟨2, writer 513, rfl, rfl⟩
      · exact ⟨1, writer 512, rfl, rfl⟩
  have hinv : Inv (roots (family m).procs) 0 m := by
    rw [hroots]
    exact h
  refine ⟨hinv, fun hp hp' he => ?_⟩
  rcases family_procs hp with ⟨rfl, rfl⟩ | ⟨rfl, rfl⟩ <;> rcases family_procs hp' with ⟨rfl, rfl⟩ | ⟨rfl, rfl⟩
  · rfl
  · cases he
  · cases he
  · rfl

theorem writer_aligned (pageTable : Nat) : Aligned (writer pageTable).vmas := by
  intro i hi
  simp only [writer, Function.update_apply] at hi ⊢
  split
  · exact ⟨by decide, by decide⟩
  · rw [if_neg ‹_›] at hi
    exact absurd hi Bool.false_ne_true

theorem writer_not_readOnly (pageTable virt : Nat) : ¬ ReadOnly (writer pageTable) virt := by
  rintro ⟨-, i, hi, hw⟩
  have hin := (Vma.findVma_some hi).1
  simp only [writer, Function.update_apply] at hin hw
  split at hw
  · cases hw
  · rw [if_neg ‹_›] at hin
    exact Bool.false_ne_true hin

theorem forked_inv : Inv {513, 512} 0 Fork.forkedPage := by
  have hspec := cowCopyUserPages_spec Fork.onePage_inv (.inr rfl) (.inl rfl) (by decide) fun i hi => by
    rw [walk_cons, follow_absent (Fork.onePage_child_empty i hi)]
    rfl
  exact (hspec.of_eq_true Fork.cowCopy_onePage).inv

end Zigix.CopyOut
