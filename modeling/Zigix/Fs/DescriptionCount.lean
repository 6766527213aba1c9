import Zigix.Fs.Description
import Zigix.Lib.Holders

/-!
# The reference counts of open descriptions

The count of a description in use is the number of descriptors that point to it, in every run that keeps to the
rules of `Meets`.

* one lemma for each operation on descriptions and tables, then one for each call;
* `description_counts` : every run; `dup2_same_frees` : the rule for `dup2` is needed.
-/

namespace Zigix.Vfs

open Holders

/-- The descriptors of all processes that point to `d`. -/
def State.slots (s : State) (d : Ptr) : Nat := total s.fds d

def Counted (s : State) : Prop :=
  ∀ i, Exact (s.desc (.pool i)).refCount (s.desc (.pool i)).inUse (s.slots (.pool i))

/-- The counts are exact for `n` references. -/
def Refs (s : State) (n : Fin maxFileDescriptions → Nat) : Prop :=
  ∀ i, Exact (s.desc (.pool i)).refCount (s.desc (.pool i)).inUse (n i)

/-- One reference to `d`. -/
def one (d : Ptr) (i : Fin maxFileDescriptions) : Nat := if d = .pool i then 1 else 0

def held (x : Option Ptr) (i : Fin maxFileDescriptions) : Nat := x.elim 0 fun d => one d i

section
variable {s s' : State} {n n' : Fin maxFileDescriptions → Nat} {p : Fin maxProcesses} {d : Ptr}
  {t : FdTable} {i : Fin maxFileDescriptions}

@[simp] theorem one_self (i : Fin maxFileDescriptions) : one (.pool i) i = 1 := if_pos rfl

theorem one_of_ne {i j : Fin maxFileDescriptions} (h : j ≠ i) : one (.pool i) j = 0 :=
  if_neg fun heq => h (Ptr.pool.inj heq).symm

theorem held_eq_ite (x : Option Ptr) (i : Fin maxFileDescriptions) :
    (if x = some (.pool i) then 1 else 0) = held x i := by
  cases x with
  | none => exact if_neg nofun
  | some d =>
    by_cases h : d = .pool i
    · rw [if_pos (congrArg some h), held, Option.elim_some, one, if_pos h]
    · rw [if_neg fun heq => h (Option.some.inj heq), held, Option.elim_some, one, if_neg h]

@[simp] theorem held_none (i : Fin maxFileDescriptions) : held none i = 0 := rfl

@[simp] theorem held_some (d : Ptr) (i : Fin maxFileDescriptions) : held (some d) i = one d i := rfl

/-! ## Tables -/

@[simp] theorem desc_setDesc_self (s : State) (d : Ptr) (x : FileDescription) : (s.setDesc d x).desc d = x :=
  Function.update_self ..

theorem desc_setDesc_of_ne {e : Ptr} (h : e ≠ d) (s : State) (x : FileDescription) :
    (s.setDesc d x).desc e = s.desc e := Function.update_of_ne h ..

theorem fds_of_procs (h : s'.procs = s.procs) : s'.fds = s.fds := by
  funext q
  simp only [State.fds, h]

theorem slots_of_procs (h : s'.procs = s.procs) : s'.slots = s.slots := by
  funext d
  rw [State.slots, State.slots, fds_of_procs h]

theorem fds_release (s : State) (d : Ptr) : (releaseFileDescription s d).fds = s.fds := fds_of_procs rfl

@[simp] theorem slots_release (s : State) (d : Ptr) : (releaseFileDescription s d).slots = s.slots :=
  slots_of_procs rfl

@[simp] theorem slots_releaseNoClose (s : State) (d : Ptr) : (releaseFileDescriptionNoClose s d).slots = s.slots :=
  slots_of_procs rfl

@[simp] theorem slots_dropRef (s : State) (d : Ptr) : (dropRef s d).slots = s.slots := slots_of_procs rfl

theorem procs_release (s : State) (d : Ptr) : (releaseFileDescription s d).procs = s.procs := rfl

theorem procs_release_setFds (s : State) (d : Ptr) (p : Fin maxProcesses) (t : FdTable) :
    ((releaseFileDescription s d).setFds p t).procs = (s.setFds p t).procs := by
  simp only [State.setFds, procs_release]

theorem fds_setFds (hp : (s.procs p).isSome = true) (t : FdTable) :
    (s.setFds p t).fds = Function.update s.fds p t := by
  obtain ⟨proc, hproc⟩ := Option.isSome_iff_exists.1 hp
  funext q
  by_cases hq : q = p
  · subst hq
    simp only [State.fds, State.setFds, Function.update_self, hproc, Option.map_some]
  · simp only [State.fds, State.setFds, Function.update_of_ne hq]

theorem slots_setFds (hp : (s.procs p).isSome = true) (fd : Fin maxFds) (x : Option Ptr)
    (i : Fin maxFileDescriptions) :
    (s.setFds p (Function.update (s.fds p) fd x)).slots (.pool i) + held (s.fds p fd) i =
      s.slots (.pool i) + held x i := by
  have htotal := total_update s.fds p (Function.update (s.fds p) fd x) (.pool i)
  have hrow := holders_update (s.fds p) fd x (.pool i)
  have hrow' := holders_le_total s.fds p (.pool i)
  rw [held_eq_ite, held_eq_ite] at hrow
  rw [State.slots, State.slots, fds_setFds hp]
  omega

theorem slots_pos {fd : Fin maxFds} (h : s.fds p fd = some d) : 0 < s.slots d :=
  (holders_pos h).trans_le (holders_le_total s.fds p d)

theorem isSome_of_fds {fd : Fin maxFds} (h : s.fds p fd = some d) : (s.procs p).isSome = true := by
  cases hp : s.procs p with
  | none =>
    simp only [State.fds, hp] at h
    cases h
  | some proc => rfl

/-! ## Descriptions -/

theorem Refs.congr (h : Refs s n) (hn : ∀ i, n' i = n i) : Refs s n' := fun i => (hn i).symm ▸ h i

theorem Refs.setFds (h : Refs s n) (t : FdTable) : Refs (s.setFds p t) n := h

theorem Refs.setFile (h : Refs s n) (inode flags offset : Nat) :
    Refs (s.setDesc (.pool i) { s.desc (.pool i) with inode, flags, offset }) n := by
  intro j
  by_cases hj : j = i
  · subst hj
    rw [desc_setDesc_self]
    exact h j
  · rw [desc_setDesc_of_ne fun heq => hj (Ptr.pool.inj heq)]
    exact h j

theorem Refs.setDesc (h : Refs s n) {x : FileDescription} (hother : ∀ i, d ≠ .pool i → n' i = n i)
    (hd : ∀ i, d = .pool i → Exact x.refCount x.inUse (n' i)) : Refs (s.setDesc d x) n' := by
  intro i
  by_cases hi : d = .pool i
  · rw [← hi, desc_setDesc_self]
    exact hd i hi
  · have := h i
    rw [← hother i hi] at this
    rwa [desc_setDesc_of_ne (Ne.symm hi)]

theorem Refs.alloc (h : Refs s n) (ha : allocFileDescription s = some (i, s')) :
    n i = 0 ∧ Refs s' (fun j => n j + one (.pool i) j) ∧ s'.procs = s.procs := by
  unfold allocFileDescription at ha
  obtain ⟨k, hk, heq⟩ := Option.map_eq_some_iff.1 ha
  cases heq
  have hfree : (s.desc (.pool i)).inUse = false := by simpa using Fin.eq_true_of_find?_eq_some hk
  have hzero : n i = 0 := by
    have hi := h i
    rw [hfree] at hi
    exact hi.zero_of_free
  refine ⟨hzero, h.setDesc (fun j hj => ?_) fun j hj => ?_, rfl⟩
  · rw [one, if_neg hj]
    rfl
  · obtain rfl : i = j := Ptr.pool.inj hj
    rw [one_self, hzero]
    exact .first

theorem Refs.release (h : Refs s n) (hd : ∀ i, d = .pool i → 0 < n i) :
    Refs (releaseFileDescription s d) fun i => n i - one d i := by
  refine h.setDesc (fun i hi => ?_) fun i hi => ?_
  · rw [one, if_neg hi]
    rfl
  · have hpos := hd i hi
    rw [one, if_pos hi]
    subst hi
    exact (h i).release hpos

theorem Refs.addRef (h : Refs s n) (hd : ∀ i, d = .pool i → 0 < n i) (ha : addRef s d = some s') :
    Refs s' (fun i => n i + one d i) ∧ s'.procs = s.procs := by
  unfold Vfs.addRef at ha
  split at ha
  · cases ha
    refine ⟨h.setDesc (fun i hi => ?_) fun i hi => ?_, rfl⟩
    · rw [one, if_neg hi]
      rfl
    · have hpos := hd i hi
      rw [one, if_pos hi]
      subst hi
      exact (h i).acquire hpos
  · cases ha

theorem Refs.dropRef (h : Refs s n) (hd : ∀ i, d = .pool i → 1 < n i) :
    Refs (dropRef s d) fun i => n i - one d i := by
  refine h.setDesc (fun i hi => ?_) fun i hi => ?_
  · rw [one, if_neg hi]
    rfl
  · have hpos := hd i hi
    rw [one, if_pos hi]
    subst hi
    have hlive := (h i).live_iff.2 (by omega)
    have hcount := (h i).count_eq hlive
    exact ⟨fun _ => by rw [hcount], ⟨fun _ => by omega, fun _ => hlive⟩⟩

theorem Refs.releaseNoClose (h : Refs s n) (hd : n i = 1) :
    Refs (releaseFileDescriptionNoClose s (.pool i)) fun j => n j - one (.pool i) j := by
  refine h.setDesc (fun j hj => ?_) fun j hj => ?_
  · rw [one, if_neg hj]
    rfl
  · obtain rfl : i = j := Ptr.pool.inj hj
    rw [one_self, hd]
    exact ⟨nofun, ⟨nofun, fun h => absurd h (lt_irrefl _)⟩⟩

/-! ## Attaching and detaching -/

theorem counted_attach {fd : Fin maxFds} (h : Refs s fun i => s.slots (.pool i) + n i + one d i)
    (hp : (s.procs p).isSome = true) (hfd : fdAlloc (s.fds p) d = some (fd, t)) :
    Refs (s.setFds p t) fun i => (s.setFds p t).slots (.pool i) + n i := by
  unfold fdAlloc at hfd
  obtain ⟨k, hk, heq⟩ := Option.map_eq_some_iff.1 hfd
  cases heq
  have hfree : s.fds p fd = none := by simpa using Fin.eq_true_of_find?_eq_some hk
  refine (h.setFds _).congr fun i => ?_
  have hslots := slots_setFds hp fd (some d) i
  rw [hfree, held_none, held_some, Nat.add_zero] at hslots
  omega

theorem counted_attach_only {fd : Fin maxFds} (h : Refs s fun i => s.slots (.pool i) + one d i)
    (hp : (s.procs p).isSome = true) (hfd : fdAlloc (s.fds p) d = some (fd, t)) : Counted (s.setFds p t) := by
  have hheld : Refs s fun i => s.slots (.pool i) + (fun _ => 0) i + one d i := h.congr fun i => by rw [Nat.add_zero]
  exact (counted_attach hheld hp hfd).congr fun i => (Nat.add_zero _).symm

theorem counted_giveBack (h : Refs s fun i => s.slots (.pool i) + one d i) :
    Counted (releaseFileDescription s d) := by
  refine (h.release fun i hi => ?_).congr fun i => ?_
  · rw [one, if_pos hi]
    omega
  · rw [slots_release]
    omega

theorem counted_closeSlot (h : Counted s) (p : Fin maxProcesses) (fd : Fin maxFds) :
    Counted (closeSlot s p fd).2 := by
  unfold closeSlot
  split
  · exact h
  · next d hd =>
    have hp := isSome_of_fds hd
    have hrefs : Refs (s.setFds p (Function.update (s.fds p) fd none)) fun i => s.slots (.pool i) := Refs.setFds h _
    refine (hrefs.release fun i hi => ?_).congr fun i => ?_
    · rw [hi] at hd
      exact slots_pos hd
    · have hslots := slots_setFds hp fd none i
      rw [hd, held_none, held_some, Nat.add_zero] at hslots
      rw [slots_release]
      omega

theorem two_le_slots {fd fd' : Fin maxFds} (hne : fd ≠ fd') (h : s.fds p fd = some d) (h' : s.fds p fd' = some d) :
    2 ≤ s.slots d := by
  have hrow := holders_update (s.fds p) fd none d
  have hleft : Function.update (s.fds p) fd none fd' = some d := by rwa [Function.update_of_ne hne.symm]
  have hpos := holders_pos hleft
  have hle := holders_le_total s.fds p d
  rw [h] at hrow
  simp only [if_true, reduceCtorEq, if_false] at hrow
  unfold State.slots
  omega

/-- The part of `dup2` after the lookup: the source needs a reference that the release does not take. -/
theorem counted_redirect {fd : Fin maxFds} {src : Ptr} (h : Counted s) (hp : (s.procs p).isSome = true)
    (hsrc : ∀ i, src = .pool i → 0 < s.slots (.pool i))
    (hother : ∀ i, src = .pool i → s.fds p fd = some src → 2 ≤ s.slots (.pool i))
    (hr : redirect s p src fd = some s') :
    Counted s' ∧ ∃ t, s'.procs = (s.setFds p t).procs := by
  unfold redirect at hr
  simp only at hr
  cases hold : s.fds p fd with
  | none =>
    rw [hold] at hr
    have hrefs : Refs (s.setFds p (Function.update (s.fds p) fd (some src))) fun i => s.slots (.pool i) :=
      Refs.setFds h _
    obtain ⟨hadd, hprocs⟩ := hrefs.addRef hsrc hr
    refine ⟨hadd.congr fun i => ?_, _, hprocs⟩
    have hslots := slots_setFds hp fd (some src) i
    rw [hold, held_none, held_some, Nat.add_zero] at hslots
    rw [slots_of_procs hprocs]
    exact hslots
  | some existing =>
    rw [hold] at hr
    simp only [fds_release] at hr
    have hexisting : ∀ i, existing = .pool i → 0 < s.slots (.pool i) := by
      intro i hi
      rw [hi] at hold
      exact slots_pos hold
    have hrefs : Refs ((releaseFileDescription s existing).setFds p (Function.update (s.fds p) fd (some src)))
        fun i => s.slots (.pool i) - one existing i := (Refs.release (s := s) h hexisting).setFds _
    have hleft : ∀ i, src = .pool i → 0 < s.slots (.pool i) - one existing i := by
      intro i hi
      by_cases he : existing = src
      · have := hother i hi (by rw [hold, he])
        have : one existing i = 1 := by rw [one, he, if_pos hi]
        omega
      · have hne : one existing i = 0 := if_neg fun heq => he (heq.trans hi.symm)
        have := hsrc i hi
        omega
    obtain ⟨hadd, hprocs⟩ := hrefs.addRef hleft hr
    rw [procs_release_setFds] at hprocs
    refine ⟨hadd.congr fun i => ?_, _, hprocs⟩
    have hslots := slots_setFds hp fd (some src) i
    rw [hold, held_some, held_some] at hslots
    have hsame : s'.slots = (s.setFds p (Function.update (s.fds p) fd (some src))).slots := slots_of_procs hprocs
    have hpos : one existing i ≤ s.slots (.pool i) := by
      by_cases he : existing = .pool i
      · have := hexisting i he
        rw [one, if_pos he]
        omega
      · rw [one, if_neg he]
        omega
    rw [hsame]
    omega

end

/-! ## Inherited descriptors -/

/-- The descriptors of the list `is` that point to `i`. -/
def hits (t : FdTable) (is : List (Fin maxFds)) (i : Fin maxFileDescriptions) : Nat :=
  (is.map fun fd => held (t fd) i).sum

theorem hits_finRange (t : FdTable) (i : Fin maxFileDescriptions) :
    hits t (List.finRange maxFds) i = holders t (.pool i) := by
  rw [holders, Fin.sum_univ_def, hits]
  simp only [held_eq_ite]

section
variable {s : State} {n : Fin maxFileDescriptions → Nat} {t : FdTable}

theorem inheritSlot_procs (t : FdTable) (s : State) (fd : Fin maxFds) : (inheritSlot t s fd).procs = s.procs := by
  unfold inheritSlot
  split
  · rfl
  · split <;> rfl

theorem refs_inheritSlot {fd : Fin maxFds} (h : Refs s n)
    (hlimit : ∀ i, t fd = some (.pool i) → 0 < n i ∧ n i < 255) :
    Refs (inheritSlot t s fd) fun i => n i + held (t fd) i := by
  unfold inheritSlot
  split
  · next hnone => exact h.congr fun i => by rw [hnone, held_none, Nat.add_zero]
  · next d hd =>
    simp only [hd, held_some]
    cases d with
    | serial k =>
      have hserial : ∀ i, n i + one (.serial k) i = n i := by
        intro i
        have hne : Ptr.serial k ≠ .pool i := nofun
        rw [one, if_neg hne]
        rfl
      split
      · exact h.setDesc (fun i _ => hserial i) nofun
      · exact h.congr hserial
    | pool k =>
      obtain ⟨hpos, hlt⟩ := hlimit k hd
      have hcount := (h k).count_eq ((h k).live_iff.2 hpos)
      rw [if_pos (by omega)]
      refine h.setDesc (fun i hi => ?_) fun i hi => ?_
      · rw [one, if_neg hi]
        rfl
      · obtain rfl : k = i := Ptr.pool.inj hi
        rw [one_self]
        exact (h k).acquire hpos

theorem refs_inheritLoop (is : List (Fin maxFds)) (h : Refs s n)
    (hlimit : ∀ i, 0 < hits t is i → 0 < n i ∧ n i + hits t is i ≤ 255) :
    Refs (is.foldl (inheritSlot t) s) (fun i => n i + hits t is i) ∧ (is.foldl (inheritSlot t) s).procs = s.procs := by
  induction is generalizing s n with
  | nil => exact ⟨h, rfl⟩
  | cons fd is ih =>
    have hcons : ∀ i, hits t (fd :: is) i = held (t fd) i + hits t is i := fun i => List.sum_cons
    have hfirst : ∀ i, t fd = some (.pool i) → 0 < n i ∧ n i < 255 := by
      intro i hi
      have := hlimit i
      rw [hcons, hi, held_some, one_self] at this
      omega
    obtain ⟨hrefs, hprocs⟩ := ih (refs_inheritSlot h hfirst) fun i hi => by
      have := hlimit i
      rw [hcons] at this
      omega
    refine ⟨hrefs.congr fun i => ?_, hprocs.trans (inheritSlot_procs t s fd)⟩
    rw [hcons]
    omega

end

/-! ## Calls -/

def ZombiesEmpty (s : State) : Prop :=
  ∀ p proc, s.procs p = some proc → proc.zombie = true → ∀ fd i, proc.fds fd ≠ some (.pool i)

structure Inv (s : State) : Prop where
  counted : Counted s
  zombies : ZombiesEmpty s

/-- The rules. -/
def Meets (s : State) : Event → Prop
  -- a new FIFO finds a descriptor, if it finds its two descriptions
  | .openFifo p (.created (some _)) _ =>
    (∃ i j, i ≠ j ∧ (s.desc (.pool i)).inUse = false ∧ (s.desc (.pool j)).inUse = false) → ∃ fd, s.fds p fd = none
  -- the only descriptor of a description is not redirected to itself
  | .dup2 p oldfd newfd =>
    oldfd = newfd → ∀ i, fdGet (s.fds p) oldfd = some (.pool i) → 1 < (s.desc (.pool i)).refCount
  -- no count passes 255 when descriptors are inherited
  | .fork p _ | .thread p _ => ∀ i, 0 < holders (s.fds p) (.pool i) →
    (s.desc (.pool i)).refCount + holders (s.fds p) (.pool i) ≤ 255
  -- an image that cannot be loaded is started without open descriptions
  | .execve p loaded => loaded = false → ∀ fd i, s.fds p fd ≠ some (.pool i)
  | _ => True

section
variable {s s' : State} {p : Fin maxProcesses}

theorem isSome_of_running (h : s.running p = true) : (s.procs p).isSome = true := by
  unfold State.running at h
  cases hp : s.procs p with
  | none =>
    rw [hp] at h
    cases h
  | some proc => rfl

theorem ZombiesEmpty.setFds (h : ZombiesEmpty s) (hrun : s.running p = true) {t : FdTable}
    (hprocs : s'.procs = (s.setFds p t).procs) : ZombiesEmpty s' := by
  intro q proc hq hz
  rw [hprocs] at hq
  by_cases hqp : q = p
  · subst hqp
    obtain ⟨proc₀, hproc₀⟩ := Option.isSome_iff_exists.1 (isSome_of_running hrun)
    simp only [State.setFds, Function.update_self, hproc₀, Option.map_some, Option.some.injEq] at hq
    simp only [State.running, hproc₀] at hrun
    subst hq
    simp only at hz
    rw [hz] at hrun
    cases hrun
  · simp only [State.setFds, Function.update_of_ne hqp] at hq
    exact h q proc hq hz

theorem ZombiesEmpty.of_procs (h : ZombiesEmpty s) (hprocs : s'.procs = s.procs) : ZombiesEmpty s' := by
  intro q proc hq
  rw [hprocs] at hq
  exact h q proc hq

theorem inv_attachOrGiveBack {i : Fin maxFileDescriptions} (hinv : Inv s) (hrun : s.running p = true)
    (s₁ : State) (hprocs : s₁.procs = s.procs) (hrefs : Refs s₁ fun j => s.slots (.pool j) + one (.pool i) j) :
    Inv (releaseFileDescription s₁ (.pool i)) ∧
      ∀ fd t, fdAlloc (s₁.fds p) (.pool i) = some (fd, t) → Inv (s₁.setFds p t) := by
  have hslots : s₁.slots = s.slots := slots_of_procs hprocs
  rw [← hslots] at hrefs
  have hsome : (s₁.procs p).isSome = true := by
    rw [hprocs]
    exact isSome_of_running hrun
  refine ⟨⟨counted_giveBack hrefs, hinv.zombies.of_procs hprocs⟩, fun fd t hfd => ⟨?_, ?_⟩⟩
  · exact counted_attach_only hrefs hsome hfd
  · refine hinv.zombies.setFds (t := t) hrun ?_
    simp only [State.setFds, hprocs]

theorem sysOpen_inv {inode flags : Nat} {mayMutate : Bool} (hinv : Inv s) (hrun : s.running p = true) :
    Inv (sysOpen p inode flags mayMutate s).2 := by
  unfold sysOpen
  split
  · exact hinv
  · next i s₁ halloc =>
    obtain ⟨-, hrefs, hprocs⟩ := Refs.alloc hinv.counted halloc
    obtain ⟨hback, hattach⟩ := inv_attachOrGiveBack hinv hrun
      (s₁.setDesc (.pool i) { s₁.desc (.pool i) with inode, flags, offset := 0 }) hprocs
      (hrefs.setFile inode flags 0)
    simp only
    split
    · exact hback
    · split
      · exact hback
      · next fd t hfd => exact hattach fd t hfd

theorem createPipe_spec (h : Counted s) (inode : Nat) :
    (createPipe s inode).2.procs = s.procs ∧
      ((createPipe s inode).1 = none → Counted (createPipe s inode).2) ∧
      ∀ r w, (createPipe s inode).1 = some (r, w) →
        r ≠ w ∧ s.slots (.pool r) = 0 ∧ s.slots (.pool w) = 0 ∧
          (s.desc (.pool r)).inUse = false ∧ (s.desc (.pool w)).inUse = false ∧
          Refs (createPipe s inode).2 fun j => s.slots (.pool j) + one (.pool r) j + one (.pool w) j := by
  unfold createPipe
  split
  · exact ⟨rfl, fun _ => h, nofun⟩
  · next r s₁ halloc =>
    obtain ⟨hr, hrefs, hprocs⟩ := Refs.alloc (s := s) h halloc
    have hfile := hrefs.setFile (i := r) inode 0 0
    have hrfree : (s.desc (.pool r)).inUse = false := by
      have := (h r).live_iff
      rw [hr] at this
      simpa using this
    simp only
    split
    · refine ⟨hprocs, fun _ => ?_, nofun⟩
      have hslots : s₁.slots = s.slots := slots_of_procs hprocs
      rw [← hslots] at hfile
      exact counted_giveBack hfile
    · next w s₂ halloc₂ =>
      obtain ⟨hw, hrefs₂, hprocs₂⟩ := hfile.alloc halloc₂
      refine ⟨hprocs₂.trans hprocs, nofun, fun r' w' hrw => ?_⟩
      obtain ⟨rfl, rfl⟩ := Prod.mk.inj (Option.some.inj hrw)
      have hne : r ≠ w := by
        intro heq
        rw [heq, one_self] at hw
        omega
      have hwzero : s.slots (.pool w) = 0 := by omega
      have hwfree : (s.desc (.pool w)).inUse = false := by
        have := (h w).live_iff
        rw [hwzero] at this
        simpa using this
      exact ⟨hne, hr, hwzero, hrfree, hwfree, hrefs₂.setFile inode 1 0⟩

theorem fdAlloc_isSome {t : FdTable} {d : Ptr} (h : ∃ fd, t fd = none) : fdAlloc t d ≠ none := by
  obtain ⟨fd, hfd⟩ := h
  intro hnone
  have hfind := Option.map_eq_none_iff.1 hnone
  have := Fin.eq_false_of_find?_eq_none hfind fd
  rw [hfd] at this
  cases this

theorem openFifo_inv {pipe : FifoPipe} {flags : Nat} (hinv : Inv s) (hrun : s.running p = true)
    (hm : Meets s (.openFifo p pipe flags)) : Inv (openFifo p pipe flags s).2 := by
  unfold openFifo
  simp only
  split
  · exact hinv
  · exact hinv
  · next inode =>
    split
    · exact hinv
    · next i s₁ halloc =>
      obtain ⟨-, hrefs, hprocs⟩ := Refs.alloc hinv.counted halloc
      obtain ⟨hback, hattach⟩ := inv_attachOrGiveBack hinv hrun
        (s₁.setDesc (.pool i) { s₁.desc (.pool i) with inode, flags := flags % 4, offset := 0 }) hprocs
        (hrefs.setFile inode (flags % 4) 0)
      split
      · exact hback
      · next fd t hfd => exact hattach fd t hfd
  · next inode =>
    obtain ⟨hprocs, hnone, hsome⟩ := createPipe_spec hinv.counted inode
    split
    · next s₁ hpipe =>
      rw [hpipe] at hprocs hnone
      exact ⟨hnone rfl, hinv.zombies.of_procs hprocs⟩
    · next r w s₁ hpipe =>
      rw [hpipe] at hprocs hsome
      have hprocs : s₁.procs = s.procs := hprocs
      obtain ⟨hne, hr, hw, hrfree, hwfree, hrefs⟩ := hsome r w rfl
      have hslots : s₁.slots = s.slots := slots_of_procs hprocs
      -- which end is used does not matter from here on
      have hends : ∃ used unused, used ≠ unused ∧ (if flags % 4 = 1 then w else r) = used ∧
          (if flags % 4 = 1 then r else w) = unused ∧ s.slots (.pool unused) = 0 ∧
          Refs s₁ fun j => s.slots (.pool j) + one (.pool unused) j + one (.pool used) j := by
        by_cases hmode : flags % 4 = 1
        · exact ⟨w, r, hne.symm, if_pos hmode, if_pos hmode, hr, hrefs⟩
        · exact ⟨r, w, hne, if_neg hmode, if_neg hmode, hw, hrefs.congr fun j => by omega⟩
      obtain ⟨used, unused, hdiff, hu, hun, hzero, hrefs⟩ := hends
      simp only [hu, hun]
      split
      · next hfull =>
        refine absurd hfull (fdAlloc_isSome ?_)
        rw [fds_of_procs hprocs]
        exact hm ⟨r, w, hne, hrfree, hwfree⟩
      · next fd t hfd =>
        have hlive : (s₁.procs p).isSome = true := by
          rw [hprocs]
          exact isSome_of_running hrun
        rw [← hslots] at hrefs
        have hattach := counted_attach hrefs hlive hfd
        have hunused : (s₁.setFds p t).slots (.pool unused) = 0 := by
          obtain ⟨k, hk, heq⟩ := Option.map_eq_some_iff.1 hfd
          cases heq
          have hfree : s₁.fds p fd = none := by simpa using Fin.eq_true_of_find?_eq_some hk
          have := slots_setFds hlive fd (some (.pool used)) unused
          rw [hfree, hslots, hzero, held_none, held_some, one_of_ne hdiff.symm, Nat.add_zero] at this
          exact this
        refine ⟨?_, hinv.zombies.setFds hrun (t := t) ?_⟩
        · refine (hattach.releaseNoClose ?_).congr fun j => ?_
          · rw [hunused, one_self]
          · rw [slots_releaseNoClose]
            omega
        · show (s₁.setFds p t).procs = (s.setFds p t).procs
          simp only [State.setFds, hprocs]

theorem sysDup_inv {oldfd : Nat} {r : Except Error Nat} (hinv : Inv s) (hrun : s.running p = true)
    (hr : sysDup p oldfd s = some (r, s')) : Inv s' := by
  unfold sysDup at hr
  split at hr
  · cases hr
    exact hinv
  · next d hget =>
    obtain ⟨s₁, hadd, hr⟩ := Option.bind_eq_some_iff.1 hr
    have hd : ∀ i, d = .pool i → 0 < s.slots (.pool i) := by
      intro i hi
      unfold fdGet at hget
      split at hget
      · rw [hi] at hget
        exact slots_pos hget
      · cases hget
    obtain ⟨hrefs, hprocs⟩ := Refs.addRef (s := s) hinv.counted hd hadd
    have hslots : s₁.slots = s.slots := slots_of_procs hprocs
    split at hr
    · cases hr
      refine ⟨(hrefs.dropRef fun i hi => ?_).congr fun i => ?_, hinv.zombies.of_procs hprocs⟩
      · have := hd i hi
        rw [one, if_pos hi]
        omega
      · rw [slots_dropRef, hslots]
        omega
    · next fd t hfd =>
      cases hr
      rw [← hslots] at hrefs
      have hlive : (s₁.procs p).isSome = true := by
        rw [hprocs]
        exact isSome_of_running hrun
      refine ⟨counted_attach_only hrefs hlive hfd, hinv.zombies.setFds hrun (t := t) ?_⟩
      simp only [State.setFds, hprocs]

theorem sysDup2_inv {oldfd newfd : Nat} {r : Except Error Nat} (hinv : Inv s) (hrun : s.running p = true)
    (hm : Meets s (.dup2 p oldfd newfd)) (hr : sysDup2 p oldfd newfd s = some (r, s')) : Inv s' := by
  unfold sysDup2 fdDup2 at hr
  obtain ⟨⟨done, s₁⟩, hdup, heq⟩ := Option.map_eq_some_iff.1 hr
  cases heq
  split at hdup
  · next hlt =>
    split at hdup
    · cases hdup
      exact hinv
    · next src hsrc =>
      obtain ⟨s₂, hred, heq⟩ := Option.map_eq_some_iff.1 hdup
      cases heq
      have hpos : ∀ i, src = .pool i → 0 < s.slots (.pool i) := by
        intro i hi
        rw [hi] at hsrc
        exact slots_pos hsrc
      have hother : ∀ i, src = .pool i → s.fds p ⟨newfd, hlt.2⟩ = some src → 2 ≤ s.slots (.pool i) := by
        intro i hi hnew
        subst hi
        by_cases hsame : oldfd = newfd
        · have hcount := hm hsame i (by rw [fdGet, dif_pos hlt.1, hsrc])
          have := (hinv.counted i).count_eq ((hinv.counted i).live_iff.2 (hpos i rfl))
          omega
        · exact two_le_slots (fun heq => hsame (Fin.mk.inj heq)) hsrc hnew
      obtain ⟨hcounted, t, hprocs⟩ := counted_redirect hinv.counted (isSome_of_running hrun) hpos hother hred
      exact ⟨hcounted, hinv.zombies.setFds hrun hprocs⟩
  · cases hdup
    exact hinv

theorem closeSlot_procs (s : State) (p : Fin maxProcesses) (fd : Fin maxFds) :
    (closeSlot s p fd).2.procs = (s.setFds p (Function.update (s.fds p) fd none)).procs := by
  unfold closeSlot
  split
  · next hnone =>
    -- the slot was empty already
    have hsame : Function.update (s.fds p) fd none = s.fds p := by
      rw [← hnone]
      exact Function.update_eq_self fd _
    rw [hsame]
    funext q
    by_cases hq : q = p
    · subst hq
      cases hproc : s.procs q with
      | none => simp only [State.setFds, Function.update_self, hproc, Option.map_none]
      | some proc => simp only [State.setFds, Function.update_self, hproc, Option.map_some, State.fds]
    · simp only [State.setFds, Function.update_of_ne hq]
  · rfl

theorem running_setFds (hrun : s.running p = true) {t : FdTable} (hprocs : s'.procs = (s.setFds p t).procs) :
    s'.running p = true := by
  obtain ⟨proc, hproc⟩ := Option.isSome_iff_exists.1 (isSome_of_running hrun)
  simp only [State.running, hprocs, State.setFds, Function.update_self, hproc, Option.map_some] at hrun ⊢
  exact hrun

theorem closeSlot_inv (hinv : Inv s) (hrun : s.running p = true) (fd : Fin maxFds) : Inv (closeSlot s p fd).2 :=
  ⟨counted_closeSlot hinv.counted p fd, hinv.zombies.setFds hrun (closeSlot_procs s p fd)⟩

theorem fdClose_inv (hinv : Inv s) (hrun : s.running p = true) (fd : Nat) : Inv (fdClose s p fd).2 := by
  unfold fdClose
  split
  · exact closeSlot_inv hinv hrun _
  · exact hinv

theorem closeLoop_spec (is : List (Fin maxFds)) (hinv : Inv s) (hrun : s.running p = true) :
    Inv (is.foldl (fun s fd => (closeSlot s p fd).2) s) ∧
      (is.foldl (fun s fd => (closeSlot s p fd).2) s).running p = true ∧
      ∀ fd, fd ∈ is ∨ s.fds p fd = none → (is.foldl (fun s fd => (closeSlot s p fd).2) s).fds p fd = none := by
  induction is generalizing s with
  | nil => exact ⟨hinv, hrun, fun fd hfd => hfd.resolve_left List.not_mem_nil⟩
  | cons i is ih =>
    have hprocs := closeSlot_procs s p i
    have hfds : (closeSlot s p i).2.fds p = Function.update (s.fds p) i none := by
      rw [fds_of_procs hprocs, fds_setFds (isSome_of_running hrun), Function.update_self]
    obtain ⟨hinv', hrun', hclosed⟩ := ih (closeSlot_inv hinv hrun i) (running_setFds hrun hprocs)
    refine ⟨hinv', hrun', fun fd hfd => hclosed fd ?_⟩
    by_cases hi : fd = i
    · exact .inr (by rw [hfds, hi, Function.update_self])
    · rcases hfd with hmem | hnone
      · exact .inl ((List.mem_cons.1 hmem).resolve_left hi)
      · exact .inr (by rw [hfds, Function.update_of_ne hi, hnone])

theorem setZombie_inv (hinv : Inv s) (hempty : ∀ fd i, s.fds p fd ≠ some (.pool i)) : Inv (setZombie p s) := by
  have hfds : (setZombie p s).fds = s.fds := by
    funext q
    by_cases hq : q = p
    · subst hq
      cases hproc : s.procs q with
      | none => simp only [State.fds, setZombie, Function.update_self, hproc, Option.map_none]
      | some proc => simp only [State.fds, setZombie, Function.update_self, hproc, Option.map_some]
    · simp only [State.fds, setZombie, Function.update_of_ne hq]
  refine ⟨fun i => ?_, fun q proc hq hz => ?_⟩
  · rw [State.slots, hfds]
    exact hinv.counted i
  · have htable : proc.fds = s.fds q := by
      rw [← hfds]
      simp only [State.fds, hq]
    by_cases hqp : q = p
    · subst hqp
      rw [htable]
      exact hempty
    · simp only [setZombie, Function.update_of_ne hqp] at hq
      exact hinv.zombies q proc hq hz

theorem sysExecve_inv {loaded : Bool} (hinv : Inv s) (hm : loaded = false → ∀ fd i, s.fds p fd ≠ some (.pool i)) :
    Inv (sysExecve p loaded s) := by
  unfold sysExecve
  split
  · exact hinv
  · next hno => exact setZombie_inv hinv (hm (by simpa using hno))

theorem sysExit_inv (hinv : Inv s) (hrun : s.running p = true) : Inv (sysExit p s) := by
  obtain ⟨hinv', -, hclosed⟩ := closeLoop_spec (List.finRange maxFds) hinv hrun
  refine setZombie_inv hinv' fun fd i h => ?_
  rw [hclosed fd (.inl (List.mem_finRange fd))] at h
  cases h

theorem counted_inheritLoop {child : Fin maxProcesses} {t : FdTable} {s₁ s₂ : State} (hcounted : Counted s)
    (hfree : s.procs child = none) (hdesc : s₁.desc = s.desc)
    (hprocs : s₁.procs = Function.update s.procs child (some { fds := t })) (hcopy : t = s.fds p)
    (hm : ∀ i, 0 < holders t (.pool i) → (s.desc (.pool i)).refCount + holders t (.pool i) ≤ 255)
    (hloop : s₂ = (List.finRange maxFds).foldl (inheritSlot t) s₁) : Counted s₂ ∧ s₂.procs = s₁.procs := by
  have hfds : s₁.fds = Function.update s.fds child t := by
    funext q
    by_cases hq : q = child
    · subst hq
      simp only [State.fds, hprocs, Function.update_self]
    · simp only [State.fds, hprocs, Function.update_of_ne hq]
  have hslots : ∀ d, s₁.slots d = s.slots d + holders t d := by
    intro d
    have htotal := total_update s.fds child t d
    have hempty : holders (s.fds child) d = 0 := holders_eq_zero fun fd => by
      simp only [State.fds, hfree]
      exact nofun
    rw [State.slots, State.slots, hfds]
    omega
  have hlimit : ∀ i, 0 < hits t (List.finRange maxFds) i →
      0 < s.slots (.pool i) ∧ s.slots (.pool i) + hits t (List.finRange maxFds) i ≤ 255 := by
    intro i hi
    rw [hits_finRange] at hi ⊢
    have hle : holders t (.pool i) ≤ s.slots (.pool i) := hcopy ▸ holders_le_total s.fds p (.pool i)
    have hcount := (hcounted i).count_eq ((hcounted i).live_iff.2 (by omega))
    have := hm i hi
    omega
  have hrefs : Refs s₁ fun i => s.slots (.pool i) := by
    intro i
    rw [hdesc]
    exact hcounted i
  obtain ⟨hafter, hsame⟩ := refs_inheritLoop (List.finRange maxFds) hrefs hlimit
  rw [← hloop] at hafter hsame
  refine ⟨hafter.congr fun i => ?_, hsame⟩
  rw [slots_of_procs hsame, hslots, hits_finRange]

theorem inheritFds_inv {child : Fin maxProcesses} (hinv : Inv s) (hchild : (s.procs child).isNone = true)
    (hm : ∀ i, 0 < holders (s.fds p) (.pool i) →
      (s.desc (.pool i)).refCount + holders (s.fds p) (.pool i) ≤ 255) : Inv (inheritFds p child s) := by
  have hfree : s.procs child = none := Option.isNone_iff_eq_none.1 hchild
  generalize hs₂ : inheritFds p child s = s₂
  unfold inheritFds at hs₂
  simp only at hs₂
  generalize hs₁ : ({ s with procs := Function.update s.procs child (some { fds := s.fds p }) } : State) = s₁ at hs₂
  have hdesc : s₁.desc = s.desc := by rw [← hs₁]
  have hupdate : s₁.procs = Function.update s.procs child (some { fds := s.fds p }) := by rw [← hs₁]
  obtain ⟨hcounted, hprocs⟩ := counted_inheritLoop hinv.counted hfree hdesc hupdate rfl hm hs₂.symm
  refine ⟨hcounted, fun q proc hq hz => ?_⟩
  rw [hprocs, hupdate] at hq
  by_cases hqc : q = child
  · subst hqc
    rw [Function.update_self] at hq
    cases hq
    cases hz
  · rw [Function.update_of_ne hqc] at hq
    exact hinv.zombies q proc hq hz

theorem sysWait4_inv {child : Fin maxProcesses} (hinv : Inv s) : Inv (sysWait4 child s) := by
  unfold sysWait4
  split
  · exact hinv
  · next proc hproc =>
    split
    · next hz =>
      let s₁ : State := { s with procs := Function.update s.procs child none }
      have hfds : s₁.fds = Function.update s.fds child fun _ => none := by
        funext q
        by_cases hq : q = child
        · subst hq
          simp only [s₁, State.fds, Function.update_self]
        · simp only [s₁, State.fds, Function.update_of_ne hq]
      refine ⟨fun i => ?_, fun q proc' hq hz' => ?_⟩
      · -- the table that goes away has no description of the pool
        have htotal := total_update s.fds child (fun _ => none) (.pool i)
        have hgone : holders (s.fds child) (.pool i) = 0 := holders_eq_zero fun fd => by
          simp only [State.fds, hproc]
          exact hinv.zombies child proc hproc hz fd i
        have hnew : holders (fun _ : Fin maxFds => (none : Option Ptr)) (.pool i) = 0 := holders_eq_zero fun _ => nofun
        have hslots : s₁.slots (.pool i) = s.slots (.pool i) := by
          rw [State.slots, State.slots, hfds]
          omega
        have := hinv.counted i
        rw [← hslots] at this
        exact this
      · by_cases hqc : q = child
        · subst hqc
          simp only [Function.update_self] at hq
          cases hq
        · simp only [Function.update_of_ne hqc] at hq
          exact hinv.zombies q proc' hq hz'
    · exact hinv

/-- **One call** that keeps to the rules keeps the invariant. -/
theorem step_inv {e : Event} (hinv : Inv s) (hm : Meets s e) (hs : step s e = some s') : Inv s' := by
  unfold step at hs
  split at hs
  · next hrun =>
    cases e with
    | «open» p inode flags mayMutate => exact Option.some.inj hs ▸ sysOpen_inv hinv hrun
    | openFifo p pipe flags => exact Option.some.inj hs ▸ openFifo_inv hinv hrun hm
    | dup p oldfd =>
      obtain ⟨⟨r, s₁⟩, hr, rfl⟩ := Option.map_eq_some_iff.1 hs
      exact sysDup_inv hinv hrun hr
    | dup2 p oldfd newfd =>
      obtain ⟨⟨r, s₁⟩, hr, rfl⟩ := Option.map_eq_some_iff.1 hs
      exact sysDup2_inv hinv hrun hm hr
    | close p fd => exact Option.some.inj hs ▸ fdClose_inv hinv hrun fd
    | fork p child =>
      obtain ⟨hfree, hs⟩ := Option.ite_none_right_eq_some.1 hs
      exact Option.some.inj hs ▸ inheritFds_inv hinv hfree hm
    | thread p child =>
      obtain ⟨hfree, hs⟩ := Option.ite_none_right_eq_some.1 hs
      exact Option.some.inj hs ▸ inheritFds_inv hinv hfree hm
    | execve p loaded => exact Option.some.inj hs ▸ sysExecve_inv hinv hm
    | exit p => exact Option.some.inj hs ▸ sysExit_inv hinv hrun
    | wait p child => exact Option.some.inj hs ▸ sysWait4_inv hinv
  · cases hs

end

theorem boot_inv : Inv boot := by
  have hnone : ∀ p fd i, boot.fds p fd ≠ some (.pool i) := by
    intro p fd i
    have hinit : initStdio fd ≠ some (.pool i) := by
      unfold initStdio
      split
      · exact fun h => Ptr.noConfusion (Option.some.inj h)
      · exact nofun
    by_cases hp : p.val = 0
    · simpa only [State.fds, boot, hp, if_true] using hinit
    · simp only [State.fds, boot, hp, if_false]
      exact nofun
  have hslots : ∀ i, boot.slots (.pool i) = 0 := by
    intro i
    rw [State.slots]
    exact total_eq_zero fun p fd => hnone p fd i
  refine ⟨fun i => ?_, fun p proc hp hz => ?_⟩
  · have hfree : (boot.desc (.pool i)).inUse = false := rfl
    rw [hslots, hfree]
    exact ⟨nofun, ⟨nofun, fun h => absurd h (lt_irrefl _)⟩⟩
  · simp only [boot] at hp
    split at hp
    · cases hp
      cases hz
    · cases hp

/-- **Reference counts** in every run that keeps to the rules: a description in use has the number of descriptors
that point to it as its count, it is in use exactly as long as there is one, and the next one that is allocated has
none. -/
theorem description_counts {s : State} (hrun : Run Meets boot s) :
    (∀ i, (s.desc (.pool i)).inUse = true → (s.desc (.pool i)).refCount = s.slots (.pool i)) ∧
      (∀ i, (s.desc (.pool i)).inUse = true ↔ 0 < s.slots (.pool i)) ∧
      (∀ p fd i, s.fds p fd = some (.pool i) → (s.desc (.pool i)).inUse = true) ∧
      ∀ i s', allocFileDescription s = some (i, s') → s.slots (.pool i) = 0 := by
  have hinv : Inv s := by
    induction hrun with
    | start => exact boot_inv
    | next _ hok hstep ih => exact step_inv ih hok hstep
  refine ⟨fun i => (hinv.counted i).count_eq, fun i => (hinv.counted i).live_iff, fun p fd i h => ?_,
    fun i s' h => ?_⟩
  · exact (hinv.counted i).live_iff.2 (slots_pos h)
  · exact (Refs.alloc (s := s) hinv.counted h).1

def init : Fin maxProcesses := ⟨0, by decide⟩

def fd3 : Fin maxFds := ⟨3, by decide⟩

def first : Ptr := .pool ⟨0, by decide⟩

/-- A file is opened and its descriptor duplicated. -/
theorem description_counts_dup : ∃ s, Run Meets boot s ∧ s.fds init fd3 = some first ∧
    (s.desc first).refCount = s.slots first := by
  have hobs : ((step boot (.open init 7 0 true)).bind fun s => step s (.dup init 3)).map
      (fun s => (s.fds init fd3, (s.desc first).inUse)) = some (some first, true) := by decide +kernel
  obtain ⟨s, hs, heq⟩ := Option.map_eq_some_iff.1 hobs
  obtain ⟨s₁, h₁, h₂⟩ := Option.bind_eq_some_iff.1 hs
  obtain ⟨hfd, huse⟩ := Prod.mk.inj heq
  have hopen : Meets boot (.open init 7 0 true) := trivial
  have hdup : Meets s₁ (.dup init 3) := trivial
  have hrun : Run Meets boot s := (Run.start.next hopen h₁).next hdup h₂
  exact ⟨s, hrun, hfd, (description_counts hrun).1 _ huse⟩

/-- The only descriptor of a file is redirected to itself: it points to a free description, which the next `open`
takes. -/
theorem dup2_same_frees : ∃ s s', Run (fun _ _ => True) boot s ∧ s.fds init fd3 = some first ∧
    (s.desc first).inUse = false ∧ step s (.open init 8 0 true) = some s' ∧
    s'.fds init fd3 = some first ∧ (s'.desc first).inode = 8 := by
  have hobs : ((step boot (.open init 7 0 true)).bind fun s => step s (.dup2 init 3 3)).map
      (fun s => (s.fds init fd3, (s.desc first).inUse,
        (step s (.open init 8 0 true)).map fun s' => (s'.fds init fd3, (s'.desc first).inode))) =
      some (some first, false, some (some first, 8)) := by decide +kernel
  obtain ⟨s, hs, heq⟩ := Option.map_eq_some_iff.1 hobs
  obtain ⟨s₁, h₁, h₂⟩ := Option.bind_eq_some_iff.1 hs
  obtain ⟨hfd, heq⟩ := Prod.mk.inj heq
  obtain ⟨huse, hnext⟩ := Prod.mk.inj heq
  obtain ⟨s', hs', heq'⟩ := Option.map_eq_some_iff.1 hnext
  obtain ⟨hfd', hinode⟩ := Prod.mk.inj heq'
  have hrun : Run (fun _ _ => True) boot s := (Run.start.next trivial h₁).next trivial h₂
  exact ⟨s, s', hrun, hfd, huse, hs', hfd', hinode⟩

end Zigix.Vfs
