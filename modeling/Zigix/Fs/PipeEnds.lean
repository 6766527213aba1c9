import Zigix.Fs.Pipe
import Zigix.Lib.Holders

/-!
# The ends of pipes (`kernel/fs/pipe.zig`, descriptions of `kernel/fs/vfs.zig`)

* `newPipe`, `openExistingPipe`, `openFifo` : descriptions of the ends of pipes;
* `ends_counted` : they are so in every run that opens no existing pipe with `O_RDWR`.

`held` is the number of descriptors that refer to a description.
-/

namespace Zigix.Pipes

open Holders

def maxPipes : Nat := 32

def maxFileDescriptions : Nat := 2048

instance : NeZero maxPipes := ⟨by decide⟩

instance : NeZero maxFileDescriptions := ⟨by decide⟩

/-- A description; `pipe` is `getPipeIndex` of its inode. -/
structure Desc where
  pipe : Option (Fin maxPipes)
  access : Access
  refCount : Nat
  inUse : Bool

structure State where
  descs : Fin maxFileDescriptions → Desc
  held : Fin maxFileDescriptions → Nat
  pipes : Fin maxPipes → Pipe

def State.setDesc (s : State) (d : Fin maxFileDescriptions) (x : Desc) : State :=
  { s with descs := Function.update s.descs d x }

def State.setPipe (s : State) (i : Fin maxPipes) (p : Pipe) : State := { s with pipes := Function.update s.pipes i p }

/-! ## Descriptions -/

/-- `allocFileDescription`, with its first descriptor; the caller fills in what it is for. -/
def alloc (s : State) (pipe : Option (Fin maxPipes)) (access : Access) : Option (Fin maxFileDescriptions × State) :=
  (Fin.find? fun d => !(s.descs d).inUse).map fun d =>
    (d, { s.setDesc d { pipe, access, refCount := 1, inUse := true } with
      held := Function.update s.held d (s.held d + 1) })

/-- `releaseFileDescription` by one descriptor. -/
def release (d : Fin maxFileDescriptions) (s : State) : State :=
  let x := s.descs d
  let s := { s with held := Function.update s.held d (s.held d - 1) }
  if x.refCount - 1 = 0 then
    let s := match x.pipe with
      | none => s
      | some i => s.setPipe i (pipeClose x.access (s.pipes i)).1
    s.setDesc d { x with refCount := 0, inUse := false }
  else s.setDesc d { x with refCount := x.refCount - 1 }

/-- `createPipe`: the reading end and the writing end. -/
def newPipe (s : State) : Option (Fin maxFileDescriptions × Fin maxFileDescriptions) × State :=
  match Fin.find? fun i => !(s.pipes i).inUse with
  | none => (none, s)
  | some i =>
    let s := s.setPipe i (createPipe (s.pipes i))
    match alloc s (some i) .rdonly with
    | none => (none, s.setPipe i { s.pipes i with inUse := false })
    | some (r, s) =>
      match alloc s (some i) .wronly with
      | none =>
        let s := release r s
        (none, s.setPipe i { s.pipes i with inUse := false })
      | some (w, s) => (some (r, w), s)

def openExistingPipe (i : Fin maxPipes) (access : Access) (s : State) : Option State :=
  if !(s.pipes i).inUse then some s
  else
    match alloc s (some i) access with
    | none => some s
    | some (_, s) => (openPipe access (s.pipes i)).map (s.setPipe i)

/-- The first opening of a FIFO: the end that is not asked for is dropped by `releaseFileDescriptionNoClose`. -/
def openFifo (access : Access) (s : State) : State :=
  match newPipe s with
  | (none, s) => s
  | (some (r, w), s) =>
    let unused := if access = .wronly then r else w
    { s.setDesc unused { s.descs unused with inUse := false } with held := Function.update s.held unused 0 }

/-- `ref_count += 1` of `dup`. -/
def dup (d : Fin maxFileDescriptions) (s : State) : Option State :=
  if (s.descs d).refCount + 1 < 2 ^ 32 then
    some { s.setDesc d { s.descs d with refCount := (s.descs d).refCount + 1 } with
      held := Function.update s.held d (s.held d + 1) }
  else none

def fork (d : Fin maxFileDescriptions) (s : State) : State :=
  let refCount := if (s.descs d).refCount < 255 then (s.descs d).refCount + 1 else (s.descs d).refCount
  { s.setDesc d { s.descs d with refCount } with held := Function.update s.held d (s.held d + 1) }

/-! ## Runs -/

inductive Op
  | newPipe
  | openExistingPipe (i : Fin maxPipes) (access : Access)
  | openFifo (access : Access)
  /-- another file is opened -/
  | openOther (access : Access)
  | dup (d : Fin maxFileDescriptions)
  | fork (d : Fin maxFileDescriptions)
  | release (d : Fin maxFileDescriptions)

/-- Sharing and closing need a descriptor. -/
def State.step (s : State) : Op → Option State
  | .newPipe => some (Pipes.newPipe s).2
  | .openExistingPipe i access => Pipes.openExistingPipe i access s
  | .openFifo access => some (Pipes.openFifo access s)
  | .openOther access => some (((alloc s none access).map (·.2)).getD s)
  | .dup d => if s.held d = 0 then none else Pipes.dup d s
  | .fork d => if s.held d = 0 then none else some (Pipes.fork d s)
  | .release d => if s.held d = 0 then none else some (Pipes.release d s)

inductive Run (Allowed : State → Op → Prop) (s₀ : State) : State → Prop
  | init : Run Allowed s₀ s₀
  | step {s s' : State} {op : Op} : Run Allowed s₀ s → Allowed s op → s.step op = some s' → Run Allowed s₀ s'

/-- No existing pipe is opened with `O_RDWR`, no FIFO is opened for the first time, and no description with 255
descriptors is inherited. -/
def OneWay (s : State) : Op → Prop
  | .openExistingPipe _ access => access ≠ .rdwr
  | .openFifo _ => False
  | .fork d => (s.descs d).refCount < 255
  | _ => True

inductive Side
  | read
  | write
  deriving DecidableEq

def Access.opens : Access → Side → Bool
  | .rdonly, .read => true
  | .wronly, .write => true
  | .rdwr, _ => true
  | _, _ => false

/-- `readers` and `writers`. -/
def Pipe.ends (p : Pipe) : Side → Nat
  | .read => p.readers
  | .write => p.writers

def Desc.uses (side : Side) (x : Desc) : Option (Fin maxPipes) :=
  if x.inUse = true ∧ x.access.opens side = true then x.pipe else none

/-- The number of live descriptions that can read or write pipe `i`. -/
def State.liveEnds (s : State) (side : Side) (i : Fin maxPipes) : Nat := holders (Desc.uses side ∘ s.descs) i

/-- Before the first pipe: nothing is in use. -/
structure Boot (s₀ : State) : Prop where
  descs : ∀ d, (s₀.descs d).inUse = false
  held : ∀ d, s₀.held d = 0
  pipes : ∀ i, (s₀.pipes i).inUse = false

/-! ## The counts -/

/-- The counts of the pipes are right, but for `owed` descriptions that are still to come. -/
structure Owed (owed : Side → Fin maxPipes → Nat) (s : State) : Prop where
  refs : ∀ d, Exact (s.descs d).refCount (s.descs d).inUse (s.held d)
  live : ∀ d i, (s.descs d).inUse = true → (s.descs d).pipe = some i →
    (s.pipes i).inUse = true ∧ (s.descs d).access ≠ .rdwr
  ends : ∀ side i, (s.pipes i).inUse = true → (s.pipes i).ends side = s.liveEnds side i + owed side i
  used : ∀ i, (s.pipes i).inUse = true → (s.pipes i).readers ≠ 0 ∨ (s.pipes i).writers ≠ 0

def Counted (s : State) : Prop := Owed (fun _ _ => 0) s

section Steps
variable {s s' : State} {owed : Side → Fin maxPipes → Nat}

theorem liveEnds_setDesc (s : State) (side : Side) (d : Fin maxFileDescriptions) (x : Desc) (i : Fin maxPipes) :
    (s.setDesc d x).liveEnds side i + (if (s.descs d).uses side = some i then 1 else 0) =
      s.liveEnds side i + if x.uses side = some i then 1 else 0 := by
  unfold State.liveEnds State.setDesc
  rw [Function.comp_update]
  exact holders_update _ d (x.uses side) i

theorem Owed.no_ends (h : Owed owed s) {i : Fin maxPipes} (hfree : (s.pipes i).inUse = false) (side : Side) :
    s.liveEnds side i = 0 := by
  refine holders_eq_zero fun d heq => ?_
  unfold Function.comp Desc.uses at heq
  split at heq
  · next hlive =>
    rw [(h.live d i hlive.1 heq).1] at hfree
    cases hfree
  · cases heq

theorem opens_some_side (access : Access) : ∃ side, access.opens side = true := by
  cases access with
  | rdonly => exact ⟨.read, rfl⟩
  | wronly => exact ⟨.write, rfl⟩
  | rdwr => exact ⟨.read, rfl⟩

theorem no_desc {i : Fin maxPipes} (hnone : ∀ side, s.liveEnds side i = 0) {d : Fin maxFileDescriptions}
    (hd : (s.descs d).inUse = true) : (s.descs d).pipe ≠ some i := by
  intro hpipe
  obtain ⟨side, hside⟩ := opens_some_side (s.descs d).access
  have huses : (Desc.uses side ∘ s.descs) d = some i := (if_pos ⟨hd, hside⟩).trans hpipe
  have := holders_pos huses
  rw [show holders (Desc.uses side ∘ s.descs) i = 0 from hnone side] at this
  exact absurd this (lt_irrefl 0)

def Desc.share (x : Desc) (side : Side) (i : Fin maxPipes) : Nat := if x.uses side = some i then 1 else 0

theorem Owed.setDesc (h : Owed owed s) {owed' : Side → Fin maxPipes → Nat} {d : Fin maxFileDescriptions} {x : Desc} {k : Nat}
    (hexact : Exact x.refCount x.inUse k)
    (hlive : ∀ i, x.inUse = true → x.pipe = some i → (s.pipes i).inUse = true ∧ x.access ≠ .rdwr)
    (hpay : ∀ side i, (s.pipes i).inUse = true →
      owed' side i + x.share side i = owed side i + (s.descs d).share side i) :
    Owed owed' { s.setDesc d x with held := Function.update s.held d k } := by
  have hself : (s.setDesc d x).descs d = x := Function.update_self _ _ _
  have hother : ∀ d', d' ≠ d → (s.setDesc d x).descs d' = s.descs d' := fun d' hd => Function.update_of_ne hd _ _
  refine ⟨fun d' => ?_, fun d' i => ?_, fun side i hi => ?_, h.used⟩
  · show Exact ((s.setDesc d x).descs d').refCount ((s.setDesc d x).descs d').inUse (Function.update s.held d k d')
    by_cases hd : d' = d
    · rw [hd, hself, Function.update_self]
      exact hexact
    · rw [hother d' hd, Function.update_of_ne hd]
      exact h.refs d'
  · show ((s.setDesc d x).descs d').inUse = true → ((s.setDesc d x).descs d').pipe = some i →
      (s.pipes i).inUse = true ∧ ((s.setDesc d x).descs d').access ≠ .rdwr
    by_cases hd : d' = d
    · rw [hd, hself]
      exact hlive i
    · rw [hother d' hd]
      exact h.live d' i
  · have hcount := liveEnds_setDesc s side d x i
    have hpay := hpay side i hi
    have hends := h.ends side i hi
    unfold Desc.share at hpay
    show (s.pipes i).ends side = (s.setDesc d x).liveEnds side i + owed' side i
    omega

theorem Owed.setPipe (h : Owed owed s) {owed' : Side → Fin maxPipes → Nat} {i : Fin maxPipes} {p : Pipe}
    (hlive : p.inUse = true ∨ ∀ side, s.liveEnds side i = 0)
    (hends : ∀ side, p.inUse = true → p.ends side = s.liveEnds side i + owed' side i)
    (hused : p.inUse = true → p.readers ≠ 0 ∨ p.writers ≠ 0)
    (hsame : ∀ side i', i' ≠ i → owed' side i' = owed side i') : Owed owed' (s.setPipe i p) := by
  have hself : (s.setPipe i p).pipes i = p := Function.update_self _ _ _
  have hother : ∀ i', i' ≠ i → (s.setPipe i p).pipes i' = s.pipes i' := fun i' hi => Function.update_of_ne hi _ _
  refine ⟨h.refs, fun d i' hd hpipe => ?_, fun side i' hi' => ?_, fun i' hi' => ?_⟩
  · obtain ⟨hin, haccess⟩ := h.live d i' hd hpipe
    refine ⟨?_, haccess⟩
    by_cases hi : i' = i
    · rw [hi, hself]
      rcases hlive with hp | hnone
      · exact hp
      · -- the description counts on one side of the pipe
        exact absurd (hi ▸ hpipe) (no_desc hnone hd)
    · rw [hother i' hi]
      exact hin
  · by_cases hi : i' = i
    · subst hi
      rw [hself] at hi' ⊢
      exact hends side hi'
    · rw [hother i' hi] at hi' ⊢
      rw [hsame side i' hi]
      exact h.ends side i' hi'
  · by_cases hi : i' = i
    · rw [hi, hself] at hi' ⊢
      exact hused hi'
    · rw [hother i' hi] at hi' ⊢
      exact h.used i' hi'

theorem Owed.unheld (h : Owed owed s) {d : Fin maxFileDescriptions} (hd : (s.descs d).inUse = false) : s.held d = 0 := by
  have := h.refs d
  rw [hd] at this
  exact this.zero_of_free

theorem share_of_dead {x : Desc} (hx : x.inUse = false) (side : Side) (i : Fin maxPipes) : x.share side i = 0 := by
  simp [Desc.share, Desc.uses, hx]

theorem share_none {x : Desc} (hx : x.pipe = none) (side : Side) (i : Fin maxPipes) : x.share side i = 0 := by
  simp [Desc.share, Desc.uses, hx]

theorem share_of_live {x : Desc} {i : Fin maxPipes} (hx : x.inUse = true) (hpipe : x.pipe = some i) (side : Side) :
    x.share side i = if x.access.opens side then 1 else 0 := by
  cases hopens : x.access.opens side <;> simp [Desc.share, Desc.uses, hx, hpipe, hopens]

theorem share_other {x : Desc} {i i' : Fin maxPipes} (hpipe : x.pipe = some i) (hi : i' ≠ i) (side : Side) :
    x.share side i' = 0 := by
  have hne : x.uses side ≠ some i' := by
    unfold Desc.uses
    split
    · rw [hpipe]
      exact fun heq => hi (Option.some.inj heq).symm
    · exact nofun
  exact if_neg hne

theorem Owed.alloc (h : Owed owed s) (owed' : Side → Fin maxPipes → Nat) {pipe : Option (Fin maxPipes)} {access : Access}
    {d : Fin maxFileDescriptions} (hpipe : ∀ i, pipe = some i → (s.pipes i).inUse = true ∧ access ≠ .rdwr)
    (hpay : ∀ side i, owed' side i + ({ pipe, access, refCount := 1, inUse := true } : Desc).share side i = owed side i)
    (ha : alloc s pipe access = some (d, s')) :
    Owed owed' s' ∧ s'.pipes = s.pipes ∧ s'.descs d = { pipe, access, refCount := 1, inUse := true } ∧ s'.held d = 1 := by
  obtain ⟨d', hd, heq⟩ := Option.map_eq_some_iff.1 ha
  obtain ⟨rfl, rfl⟩ := Prod.mk.inj heq
  have hfree : (s.descs d').inUse = false := by simpa using Fin.eq_true_of_find?_eq_some hd
  have hheld : s.held d' + 1 = 1 := by rw [h.unheld hfree]
  rw [hheld]
  refine ⟨h.setDesc Exact.first (fun i _ => hpipe i) fun side i _ => ?_, rfl, Function.update_self _ _ _,
    Function.update_self _ _ _⟩
  rw [hpay, share_of_dead hfree]
  rfl

theorem pipeClose_ends {access : Access} (haccess : access ≠ .rdwr) (p : Pipe) (side : Side) :
    (pipeClose access p).1.ends side = p.ends side - if access.opens side then 1 else 0 := by
  unfold pipeClose
  cases access with
  | rdonly => cases side <;> (simp only; split <;> rfl)
  | wronly => cases side <;> (simp only; split <;> rfl)
  | rdwr => exact absurd rfl haccess

theorem pipeClose_inUse (access : Access) (p : Pipe) :
    (pipeClose access p).1.inUse = true ↔ p.inUse = true ∧
      ((pipeClose access p).1.readers ≠ 0 ∨ (pipeClose access p).1.writers ≠ 0) := by
  unfold pipeClose
  cases access <;> (simp only; split <;> simp_all [imp_iff_not_or])

/-- The state without the description `d`. -/
def State.drop (s : State) (d : Fin maxFileDescriptions) : State :=
  { s.setDesc d { s.descs d with refCount := 0, inUse := false } with held := Function.update s.held d 0 }

theorem Owed.drop (h : Owed owed s) (d : Fin maxFileDescriptions) :
    Owed (fun side i => owed side i + (s.descs d).share side i) (s.drop d) := by
  refine h.setDesc ⟨nofun, by simp⟩ nofun fun side i _ => ?_
  have hdead : ({ s.descs d with refCount := 0, inUse := false } : Desc).share side i = 0 := share_of_dead rfl side i
  rw [hdead, Nat.add_zero]

theorem Owed.closeLast (h : Owed owed s) {d : Fin maxFileDescriptions} {i : Fin maxPipes}
    (hlive : (s.descs d).inUse = true) (hpipe : (s.descs d).pipe = some i) :
    Owed owed ((s.drop d).setPipe i (pipeClose (s.descs d).access (s.pipes i)).1) := by
  obtain ⟨hin, haccess⟩ := h.live d i hlive hpipe
  have hdead := h.drop d
  have hends : ∀ side, (pipeClose (s.descs d).access (s.pipes i)).1.ends side =
      (s.drop d).liveEnds side i + owed side i := by
    intro side
    have hbefore : (s.pipes i).ends side = _ := hdead.ends side i hin
    rw [share_of_live hlive hpipe] at hbefore
    rw [pipeClose_ends haccess, hbefore]
    split <;> omega
  have hclosed := pipeClose_inUse (s.descs d).access (s.pipes i)
  refine hdead.setPipe ?_ (fun side _ => hends side) (fun hopen => (hclosed.1 hopen).2) fun side i' hi => ?_
  · by_cases hopen : (pipeClose (s.descs d).access (s.pipes i)).1.inUse = true
    · exact .inl hopen
    · -- a pipe that is freed has no end left
      have hzero : (pipeClose (s.descs d).access (s.pipes i)).1.readers = 0 ∧
          (pipeClose (s.descs d).access (s.pipes i)).1.writers = 0 := by
        by_contra hne
        exact hopen (hclosed.2 ⟨hin, by omega⟩)
      refine .inr fun side => ?_
      have hside := hends side
      cases side with
      | read => exact (Nat.add_eq_zero_iff.1 (hside.symm.trans hzero.1)).1
      | write => exact (Nat.add_eq_zero_iff.1 (hside.symm.trans hzero.2)).1
  · show owed side i' = owed side i' + (s.descs d).share side i'
    rw [share_other hpipe hi, Nat.add_zero]

theorem Owed.release (h : Owed owed s) {d : Fin maxFileDescriptions} (hd : s.held d ≠ 0) : Owed owed (release d s) := by
  have hpos : 0 < s.held d := Nat.pos_of_ne_zero hd
  have hlive := (h.refs d).live_iff.2 hpos
  have hcount := (h.refs d).count_eq hlive
  unfold Pipes.release
  simp only
  by_cases hlast : (s.descs d).refCount - 1 = 0
  · have hheld : s.held d - 1 = 0 := by omega
    rw [if_pos hlast, hheld]
    split
    · next hpipe =>
      have hdrop := h.drop d
      simp only [share_none hpipe, Nat.add_zero] at hdrop
      exact hdrop
    · next i hpipe => exact h.closeLast hlive hpipe
  · rw [if_neg hlast]
    have hexact := (h.refs d).release hpos
    rw [if_neg hlast] at hexact
    exact h.setDesc hexact (fun i => h.live d i) fun _ _ _ => rfl

theorem release_last {d : Fin maxFileDescriptions} {i : Fin maxPipes} (hcount : (s.descs d).refCount = 1)
    (hpipe : (s.descs d).pipe = some i) :
    (release d s).pipes i = (pipeClose (s.descs d).access (s.pipes i)).1 := by
  unfold Pipes.release
  simp only [hcount, hpipe, Nat.sub_self, if_true]
  exact Function.update_self _ _ _

/-! ### Opening -/

/-- One end of pipe `i`. -/
def oneEnd (i : Fin maxPipes) (access : Access) (side : Side) (i' : Fin maxPipes) : Nat :=
  if i' = i ∧ access.opens side = true then 1 else 0

theorem share_new (i : Fin maxPipes) (access : Access) (side : Side) (i' : Fin maxPipes) :
    ({ pipe := some i, access, refCount := 1, inUse := true } : Desc).share side i' = oneEnd i access side i' := by
  unfold oneEnd
  by_cases hi : i' = i
  · rw [hi, share_of_live rfl rfl]
    simp
  · rw [share_other rfl hi, if_neg fun hn => hi hn.1]

theorem oneEnd_other {i i' : Fin maxPipes} (hi : i' ≠ i) (access : Access) (side : Side) : oneEnd i access side i' = 0 :=
  if_neg fun hn => hi hn.1

theorem setPipe_self (s : State) (i : Fin maxPipes) (p : Pipe) : (s.setPipe i p).pipes i = p := Function.update_self _ _ _

theorem Owed.create (h : Owed owed s) {i : Fin maxPipes} (hfree : (s.pipes i).inUse = false)
    (hzero : ∀ side, owed side i = 0) :
    Owed (fun side i' => owed side i' + oneEnd i .rdwr side i') (s.setPipe i (createPipe (s.pipes i))) := by
  refine h.setPipe (.inl rfl) (fun side _ => ?_) (fun _ => .inl Nat.one_ne_zero) fun side i' hi => ?_
  · rw [h.no_ends hfree, hzero, oneEnd, if_pos ⟨rfl, rfl⟩]
    cases side with
    | read => rfl
    | write => rfl
  · simp only [oneEnd_other hi, Nat.add_zero]

theorem Owed.giveUp {i : Fin maxPipes} {access : Access} (h : Owed (fun side i' => owed side i' + oneEnd i access side i') s)
    (hnone : ∀ side, s.liveEnds side i = 0) : Owed owed (s.setPipe i { s.pipes i with inUse := false }) :=
  h.setPipe (.inr hnone) (fun _ => nofun) nofun fun side i' hi => by
    simp only [oneEnd_other hi, Nat.add_zero]

theorem Counted.ends_eq (h : Counted s) (side : Side) {i : Fin maxPipes} (hin : (s.pipes i).inUse = true) :
    (s.pipes i).ends side = s.liveEnds side i := (Owed.ends h side i hin).trans (Nat.add_zero _)

theorem Owed.newPipe (h : Owed owed s) (hzero : ∀ i, (s.pipes i).inUse = false → ∀ side, owed side i = 0) :
    Owed owed (newPipe s).2 := by
  unfold Pipes.newPipe
  split
  · exact h
  · next i hi =>
    have hfree : (s.pipes i).inUse = false := by simpa using Fin.eq_true_of_find?_eq_some hi
    have hnew := h.create hfree (hzero i hfree)
    have hpipe : (s.setPipe i (createPipe (s.pipes i))).pipes i = createPipe (s.pipes i) := setPipe_self _ _ _
    have hnone : ∀ side, (s.setPipe i (createPipe (s.pipes i))).liveEnds side i = 0 := h.no_ends hfree
    generalize s.setPipe i (createPipe (s.pipes i)) = s₁ at hnew hpipe hnone ⊢
    have hin : ∀ access : Access, access ≠ .rdwr → ∀ i', some i = some i' →
        (s₁.pipes i').inUse = true ∧ access ≠ .rdwr := by
      intro access haccess i' heq
      rw [← Option.some.inj heq, hpipe]
      exact ⟨rfl, haccess⟩
    have hboth : ∀ side i', oneEnd i .wronly side i' + oneEnd i .rdonly side i' = oneEnd i .rdwr side i' := by
      intro side i'
      unfold oneEnd
      cases side <;> by_cases hi : i' = i <;> simp [hi, Access.opens]
    simp only
    split
    · exact hnew.giveUp hnone
    · next r s₂ hr =>
      obtain ⟨hread, hpipes, hdesc, hheld⟩ := hnew.alloc (fun side i' => owed side i' + oneEnd i .wronly side i')
        (hin .rdonly (by decide)) (fun side i' => by rw [share_new, Nat.add_assoc, hboth]) hr
      have hpipe₂ : s₂.pipes i = createPipe (s.pipes i) := by rw [hpipes, hpipe]
      split
      · -- no description for the writing end
        have hrel := hread.release (d := r) (by rw [hheld]; decide)
        have hafter : (Pipes.release r s₂).pipes i = (pipeClose .rdonly (createPipe (s.pipes i))).1 := by
          rw [release_last (by rw [hdesc]) (by rw [hdesc]), hdesc, hpipe₂]
        refine hrel.giveUp fun side => ?_
        have hends := hrel.ends side i (by rw [hafter]; rfl)
        rw [hafter] at hends
        cases side with
        | read => exact (Nat.add_eq_zero_iff.1 hends.symm).1
        | write =>
          have hone : 1 = (Pipes.release r s₂).liveEnds .write i + (owed .write i + oneEnd i .wronly .write i) := hends
          rw [oneEnd, if_pos ⟨rfl, rfl⟩] at hone
          omega
      · next w s₃ hw =>
        obtain ⟨hdone, -⟩ := hread.alloc owed
          (fun i' heq => by rw [hpipes]; exact hin .wronly (by decide) i' heq)
          (fun side i' => by rw [share_new]) hw
        exact hdone

theorem openPipe_ends {access : Access} (haccess : access ≠ .rdwr) {p p' : Pipe} (h : openPipe access p = some p') :
    p'.inUse = p.inUse ∧ ∀ side, p'.ends side = p.ends side + if access.opens side then 1 else 0 := by
  cases access with
  | rdonly =>
    obtain ⟨-, heq⟩ := Option.ite_none_right_eq_some.1 h
    obtain rfl := Option.some.inj heq
    exact ⟨rfl, fun side => by cases side <;> rfl⟩
  | wronly =>
    obtain ⟨-, heq⟩ := Option.ite_none_right_eq_some.1 h
    obtain rfl := Option.some.inj heq
    exact ⟨rfl, fun side => by cases side <;> rfl⟩
  | rdwr => exact absurd rfl haccess

theorem Owed.attach (h : Owed owed s) {i : Fin maxPipes} {access : Access} {p : Pipe} {d : Fin maxFileDescriptions}
    {s₁ : State} (haccess : access ≠ .rdwr) (hin : (s.pipes i).inUse = true) (ha : Pipes.alloc s (some i) access = some (d, s₁))
    (hp : openPipe access (s.pipes i) = some p) : Owed owed (s₁.setPipe i p) := by
  obtain ⟨hinp, hends⟩ := openPipe_ends haccess hp
  -- as if the count came first, and then the description
  have howed : Owed (fun side i' => owed side i' + oneEnd i access side i') (s.setPipe i p) := by
    have hends' : ∀ side, p.ends side = s.liveEnds side i + (owed side i + oneEnd i access side i) := by
      intro side
      have hbefore := h.ends side i hin
      rw [hends, hbefore, oneEnd]
      simp [Nat.add_assoc]
    refine h.setPipe (.inl (hinp.trans hin)) (fun side _ => hends' side) (fun _ => ?_)
      fun side i' hi => by simp only [oneEnd_other hi, Nat.add_zero]
    obtain ⟨side, hside⟩ := opens_some_side access
    have hpos := hends side
    rw [if_pos hside] at hpos
    cases side with
    | read => exact .inl (by rw [show p.readers = _ from hpos]; exact Nat.succ_ne_zero _)
    | write => exact .inr (by rw [show p.writers = _ from hpos]; exact Nat.succ_ne_zero _)
  have halloc : Pipes.alloc (s.setPipe i p) (some i) access = some (d, s₁.setPipe i p) := by
    obtain ⟨d', hd', heq⟩ := Option.map_eq_some_iff.1 ha
    obtain ⟨rfl, rfl⟩ := Prod.mk.inj heq
    exact Option.map_eq_some_iff.2 ⟨d', hd', rfl⟩
  obtain ⟨hdone, -⟩ := howed.alloc owed
    (fun i' heq => by
      rw [← Option.some.inj heq, setPipe_self]
      exact ⟨hinp.trans hin, haccess⟩)
    (fun side i' => by rw [share_new]) halloc
  exact hdone

theorem alloc_pipes {pipe : Option (Fin maxPipes)} {access : Access} {d : Fin maxFileDescriptions}
    (h : alloc s pipe access = some (d, s')) : s'.pipes = s.pipes := by
  obtain ⟨d', -, heq⟩ := Option.map_eq_some_iff.1 h
  rw [← (Prod.mk.inj heq).2]
  rfl

theorem Owed.openExistingPipe (h : Owed owed s) {i : Fin maxPipes} {access : Access} (haccess : access ≠ .rdwr)
    (hs : openExistingPipe i access s = some s') : Owed owed s' := by
  unfold Pipes.openExistingPipe at hs
  split at hs
  · obtain rfl := Option.some.inj hs
    exact h
  · next hin =>
    split at hs
    · obtain rfl := Option.some.inj hs
      exact h
    · next d s₁ ha =>
      obtain ⟨p, hp, rfl⟩ := Option.map_eq_some_iff.1 hs
      rw [alloc_pipes ha] at hp
      exact h.attach haccess (by simpa using hin) ha hp

theorem Counted.step (h : Counted s) {op : Op} (ha : OneWay s op) (hs : s.step op = some s') : Counted s' := by
  cases op with
  | newPipe =>
    obtain rfl := Option.some.inj hs
    exact Owed.newPipe h fun _ _ _ => rfl
  | openExistingPipe i access =>
    have haccess : access ≠ .rdwr := ha
    have hopen : Pipes.openExistingPipe i access s = some s' := hs
    exact Owed.openExistingPipe h haccess hopen
  | openFifo access => exact ha.elim
  | openOther access =>
    obtain rfl := Option.some.inj hs
    cases hd : alloc s none access with
    | none => exact h
    | some r =>
      obtain ⟨hdone, -⟩ := Owed.alloc h (fun _ _ => 0) (by simp)
        (fun side i => by rw [share_none rfl]) hd
      exact hdone
  | dup d =>
    obtain ⟨hd, hs⟩ := Option.ite_none_left_eq_some.1 hs
    obtain ⟨-, hs⟩ := Option.ite_none_right_eq_some.1 hs
    obtain rfl := Option.some.inj hs
    exact h.setDesc ((h.refs d).acquire (Nat.pos_of_ne_zero hd)) (fun i => h.live d i) fun _ _ _ => rfl
  | fork d =>
    obtain ⟨hd, hs⟩ := Option.ite_none_left_eq_some.1 hs
    obtain rfl := Option.some.inj hs
    unfold Pipes.fork
    simp only [if_pos (show (s.descs d).refCount < 255 from ha)]
    exact h.setDesc ((h.refs d).acquire (Nat.pos_of_ne_zero hd)) (fun i => h.live d i) fun _ _ _ => rfl
  | release d =>
    obtain ⟨hd, hs⟩ := Option.ite_none_left_eq_some.1 hs
    obtain rfl := Option.some.inj hs
    exact Owed.release h hd

theorem Boot.counted {s₀ : State} (h : Boot s₀) : Counted s₀ := by
  have hdead : ∀ d, ¬ (s₀.descs d).inUse = true := fun d => by rw [h.descs d]; decide
  have hfree : ∀ i, ¬ (s₀.pipes i).inUse = true := fun i => by rw [h.pipes i]; decide
  refine ⟨fun d => ?_, fun d i hd => absurd hd (hdead d), fun side i hi => absurd hi (hfree i), fun i hi => absurd hi (hfree i)⟩
  rw [h.descs d, h.held d]
  exact ⟨nofun, by decide⟩

/-- **The ends of pipes are counted** in every run of one-way openings: `readers` and `writers` are the numbers of live
descriptions that can read and write, a pipe is in use exactly while it has one, and a read of an empty pipe finds the
end of file exactly when no description can write. -/
theorem ends_counted {s₀ : State} (h₀ : Boot s₀) (hrun : Run OneWay s₀ s) (i : Fin maxPipes) :
    ((s.pipes i).inUse = true ↔ 0 < s.liveEnds .read i + s.liveEnds .write i) ∧
      ((s.pipes i).inUse = true →
        (s.pipes i).readers = s.liveEnds .read i ∧ (s.pipes i).writers = s.liveEnds .write i ∧
        ∀ pid count, (s.pipes i).count = 0 →
          ((pipeRead pid count (s.pipes i)).1 = .eof ↔ s.liveEnds .write i = 0)) := by
  have hc : Counted s := by
    induction hrun with
    | init => exact h₀.counted
    | step _ ha hs ih => exact ih.step ha hs
  have hends : (s.pipes i).inUse = true →
      (s.pipes i).readers = s.liveEnds .read i ∧ (s.pipes i).writers = s.liveEnds .write i :=
    fun hin => ⟨hc.ends_eq .read hin, hc.ends_eq .write hin⟩
  refine ⟨⟨fun hin => ?_, fun hpos => ?_⟩, fun hin => ⟨(hends hin).1, (hends hin).2, fun pid count hempty => ?_⟩⟩
  · have hused := hc.used i hin
    obtain ⟨hr, hw⟩ := hends hin
    omega
  · by_contra hnot
    have hfree : (s.pipes i).inUse = false := by simpa using hnot
    rw [hc.no_ends hfree .read, hc.no_ends hfree .write] at hpos
    exact absurd hpos (lt_irrefl 0)
  · rw [← (hends hin).2]
    rcases pipeRead_cases (s.pipes i) pid count with ⟨-, hw, heq⟩ | ⟨-, hw, heq⟩ | ⟨hne, -⟩
    · rw [heq]
      exact ⟨fun _ => hw, fun _ => rfl⟩
    · rw [heq]
      exact ⟨nofun, fun hzero => absurd hzero hw⟩
    · exact absurd hempty hne

end Steps

/-! ### A pipe that is opened with `O_RDWR` -/

section TwoWay

def State.runOps (s : State) : List Op → Option State
  | [] => some s
  | op :: ops => (s.step op).bind fun s' => s'.runOps ops

theorem run_of_runOps {Allowed : State → Op → Prop} {s₀ s s' : State} {ops : List Op} (hall : ∀ s, ∀ op ∈ ops, Allowed s op)
    (hrun : Run Allowed s₀ s) (h : s.runOps ops = some s') : Run Allowed s₀ s' := by
  induction ops generalizing s with
  | nil =>
    obtain rfl := Option.some.inj h
    exact hrun
  | cons op ops ih =>
    obtain ⟨s₁, hs, h⟩ := Option.bind_eq_some_iff.1 h
    exact ih (fun s op hop => hall s op (List.mem_cons_of_mem _ hop)) (hrun.step (hall s op List.mem_cons_self) hs) h

def bootState : State where
  descs := fun _ => { pipe := none, access := .rdonly, refCount := 0, inUse := false }
  held := fun _ => 0
  pipes := fun _ =>
    { buffer := fun _ => 0, readPos := 0, writePos := 0, count := 0, readers := 0, writers := 0, blockedReaderPid := 0
      blockedWriterPid := 0, inUse := false }

theorem bootState_boot : Boot bootState := ⟨fun _ => rfl, fun _ => rfl, fun _ => rfl⟩

/-- The pipe is opened with `O_RDWR` and its first writing end is closed: a reader finds the end of file while a
description that can write is open. -/
theorem rdwr_not_counted :
    ∃ s, Run (fun _ _ => True) bootState s ∧ (s.pipes 0).inUse = true ∧ (s.pipes 0).count = 0 ∧
      (s.pipes 0).writers ≠ s.liveEnds .write 0 ∧ ∀ pid count, (pipeRead pid count (s.pipes 0)).1 = .eof := by
  have hrun : (bootState.runOps [.newPipe, .openExistingPipe 0 .rdwr, .release 1]).map (fun s =>
      decide ((s.pipes 0).inUse = true ∧ (s.pipes 0).count = 0 ∧ (s.pipes 0).writers = 0 ∧
        (s.descs 2).inUse = true ∧ (s.descs 2).access = .rdwr ∧ (s.descs 2).pipe = some 0)) = some true := by
    decide +kernel
  obtain ⟨s, hops, hval⟩ := Option.map_eq_some_iff.1 hrun
  simp only [decide_eq_true_eq] at hval
  obtain ⟨hin, hcount, hwriters, hlive, haccess, hpipe⟩ := hval
  have huses : (Desc.uses .write ∘ s.descs) 2 = some 0 := by
    refine (if_pos ⟨hlive, ?_⟩).trans hpipe
    rw [haccess]
    rfl
  have hpos : 0 < s.liveEnds .write 0 := holders_pos huses
  refine ⟨s, run_of_runOps (fun _ _ _ => trivial) .init hops, hin, hcount, ?_, fun pid count => ?_⟩
  · rw [hwriters]
    exact Nat.ne_of_lt hpos
  · unfold pipeRead
    rw [if_pos hcount, if_pos hwriters]

theorem ends_counted_new :
    ∃ s : State, (s.pipes 0).inUse = true ∧ (s.pipes 0).readers = s.liveEnds .read 0 ∧
      (s.pipes 0).writers = s.liveEnds .write 0 := by
  have hrun : (bootState.runOps [.newPipe, .openExistingPipe 0 .wronly, .release 1]).map (fun s => (s.pipes 0).inUse) =
      some true := by decide +kernel
  obtain ⟨s, hops, hin⟩ := Option.map_eq_some_iff.1 hrun
  have hreach : Run OneWay bootState s := by
    refine run_of_runOps (fun s op hop => ?_) .init hops
    simp only [List.mem_cons, List.not_mem_nil, or_false] at hop
    rcases hop with rfl | rfl | rfl
    · trivial
    · exact (by decide : Access.wronly ≠ .rdwr)
    · trivial
  obtain ⟨hr, hw, -⟩ := (ends_counted bootState_boot hreach 0).2 hin
  exact ⟨s, hin, hr, hw⟩

end TwoWay

end Zigix.Pipes
