import Zigix.Fs.PipeEnds

/-!
# Named pipes (`openFifo` of `kernel/proc/syscall_table.zig`)

The first opening of a FIFO creates a pipe, remembers it in `fifo_map` under the number of the inode and drops the
description of the end that was not asked for without closing that end (`releaseFileDescriptionNoClose`). The end stays
counted for good: the pipe is never freed, and when the dropped end is the writing one no reader ever finds the end of
file. A FIFO is known by the number of its inode, as in the map.

* `fifos_stay_themselves` : in a run of such openings FIFOs stay themselves;
* `fifo_reader_never_ends` : after a first opening for reading they do not.
-/

namespace Zigix.Fifo

open Pipes Holders

def maxFifos : Nat := 16

structure FifoEntry where
  ino : Nat
  pipe : Fin maxPipes
  active : Bool

/-- What was asked for: an opening of the FIFO `fifo`, or an end of `pipe()`. -/
structure Opener where
  fifo : Option Nat
  access : Access
  deriving DecidableEq

structure State where
  base : Pipes.State
  map : Fin maxFifos → FifoEntry
  /-- not in the source: what the descriptor of a description was opened for -/
  opener : Fin maxFileDescriptions → Option Opener
  /-- not in the source: the FIFO that a pipe was allocated for -/
  origin : Fin maxPipes → Option Nat
  /-- not in the source: what was attached to a pipe since it was allocated -/
  attached : Fin maxPipes → List (Option Nat)

/-! ## The calls -/

def findEntry (s : State) (ino : Nat) : Option (Fin maxFifos) :=
  Fin.find? fun e => (s.map e).active && (s.map e).ino == ino

def closeDesc (d : Fin maxFileDescriptions) (s : State) : State :=
  { s with base := release d s.base, opener := Function.update s.opener d none }

/-- `releaseFileDescriptionNoClose`. -/
def dropNoClose (d : Fin maxFileDescriptions) (s : State) : State :=
  { s with
    base := { s.base.setDesc d { s.base.descs d with inUse := false } with held := Function.update s.base.held d 0 } }

/-- `openExistingPipe` for a FIFO. -/
def attach (ino : Nat) (i : Fin maxPipes) (access : Access) (s : State) : Option (Option (Fin maxFileDescriptions) × State) :=
  if !(s.base.pipes i).inUse then some (none, s)
  else
    match alloc s.base (some i) access with
    | none => some (none, s)
    | some (d, b) => do
      let p ← openPipe access (b.pipes i)
      return (some d, { s with
        base := b.setPipe i p
        opener := Function.update s.opener d (some ⟨some ino, access⟩)
        attached := Function.update s.attached i (some ino :: s.attached i) })

/-- The new pipe is put into the map, if there is room. -/
def register (ino : Nat) (i : Fin maxPipes) (s : State) : State :=
  match Fin.find? fun e => !(s.map e).active with
  | some e => { s with map := Function.update s.map e ⟨ino, i, true⟩ }
  | none => s

def pipeOf (s : State) (d : Fin maxFileDescriptions) : Fin maxPipes := ((s.base.descs d).pipe).getD 0

/-- A new pipe for a FIFO or for `pipe()`; `owner` tells which. -/
def allocate (owner : Option Nat) (s : State) : Option (Fin maxFileDescriptions × Fin maxFileDescriptions) × State :=
  match newPipe s.base with
  | (none, b) => (none, { s with base := b })
  | (some (r, w), b) =>
    let i := ((b.descs r).pipe).getD 0
    (some (r, w), { s with
      base := b, origin := Function.update s.origin i owner, attached := Function.update s.attached i [owner] })

def setOpener (d : Fin maxFileDescriptions) (o : Opener) (s : State) : State :=
  { s with opener := Function.update s.opener d (some o) }

/-- `openFifo`; `fdFree` tells whether `fdAlloc` finds a descriptor. -/
def openFifo (ino : Nat) (access : Access) (fdFree : Bool) (s : State) : Option State :=
  match findEntry s ino with
  | some e => do
    match ← attach ino (s.map e).pipe access s with
    | (none, s) => some s
    | (some d, s) => some (if fdFree then s else closeDesc d s)
  | none =>
    match allocate (some ino) s with
    | (none, s) => some s
    | (some (r, w), s) =>
      let s := register ino (pipeOf s r) s
      let used := if access = .wronly then w else r
      let unused := if access = .wronly then r else w
      let s := setOpener used ⟨some ino, access⟩ s
      some (if fdFree then dropNoClose unused s else closeDesc used s)

/-- `sysPipe`; `fdFree` tells whether there are two descriptors. -/
def sysPipe (fdFree : Bool) (s : State) : State :=
  match allocate none s with
  | (none, s) => s
  | (some (r, w), s) =>
    let s := setOpener w ⟨none, .wronly⟩ (setOpener r ⟨none, .rdonly⟩ s)
    if fdFree then s else closeDesc w (closeDesc r s)

/-! ## Runs -/

inductive Op
  | openFifo (ino : Nat) (access : Access) (fdFree : Bool)
  | pipe (fdFree : Bool)
  | read (d : Fin maxFileDescriptions) (pid count : Nat)
  | write (d : Fin maxFileDescriptions) (pid : Nat) (data : List (BitVec 8))
  | close (d : Fin maxFileDescriptions)

/-- Reading, writing and closing need a descriptor. `none` is a trap: more than 255 ends. -/
def State.step (s : State) : Op → Option State
  | .openFifo ino access fdFree => Fifo.openFifo ino access fdFree s
  | .pipe fdFree => some (sysPipe fdFree s)
  | .read d pid count =>
    if s.opener d = none then none
    else
      let i := pipeOf s d
      some { s with base := s.base.setPipe i (pipeRead pid count (s.base.pipes i)).2.1 }
  | .write d pid data =>
    if s.opener d = none then none
    else
      let i := pipeOf s d
      some { s with base := s.base.setPipe i (pipeWrite pid data (s.base.pipes i)).2.1 }
  | .close d => if s.opener d = none then none else some (closeDesc d s)

inductive Run (Allowed : State → Op → Prop) (s₀ : State) : State → Prop
  | init : Run Allowed s₀ s₀
  | step {s s' : State} {op : Op} : Run Allowed s₀ s → Allowed s op → s.step op = some s' → Run Allowed s₀ s'

/-- Before the first pipe. -/
structure Boot (s₀ : State) : Prop where
  base : Pipes.Boot s₀.base
  map : ∀ e, (s₀.map e).active = false
  opener : ∀ d, s₀.opener d = none
  origin : ∀ i, s₀.origin i = none
  attached : ∀ i, s₀.attached i = []

def FirstForWriting (s : State) : Op → Prop
  | .openFifo ino access _ => access ≠ .rdwr ∧ (findEntry s ino = none → access = .wronly)
  | _ => True

structure StaysItself (s : State) : Prop where
  own : ∀ d o ino i, s.opener d = some o → o.fifo = some ino → (s.base.descs d).pipe = some i →
    ∀ x ∈ s.attached i, x = some ino
  ends : ∀ d o ino i, s.opener d = some o → o.fifo = some ino → o.access ≠ .wronly → (s.base.descs d).pipe = some i →
    ∀ pid count, (s.base.pipes i).count = 0 →
      ((pipeRead pid count (s.base.pipes i)).1 = .eof ↔
        ∀ d' o', s.opener d' = some o' → o'.fifo = some ino → o'.access = .rdonly)

/-! ## What the pool does -/

section Pool
variable {b b' : Pipes.State} {owed : Side → Fin maxPipes → Nat} {d : Fin maxFileDescriptions} {i : Fin maxPipes}

structure Taken (b : Pipes.State) (d : Fin maxFileDescriptions) (x : Desc) (b' : Pipes.State) : Prop where
  free : (b.descs d).inUse = false
  descs : b'.descs = Function.update b.descs d x
  held : b'.held = Function.update b.held d 1
  pipes : b'.pipes = b.pipes

theorem alloc_taken {pipe : Option (Fin maxPipes)} {access : Access} (h : Owed owed b)
    (ha : alloc b pipe access = some (d, b')) : Taken b d ⟨pipe, access, 1, true⟩ b' := by
  obtain ⟨d', hd, heq⟩ := Option.map_eq_some_iff.1 ha
  obtain ⟨rfl, rfl⟩ := Prod.mk.inj heq
  have hfree : (b.descs d').inUse = false := by simpa using Fin.eq_true_of_find?_eq_some hd
  refine ⟨hfree, rfl, ?_, rfl⟩
  show Function.update b.held d' (b.held d' + 1) = _
  rw [h.unheld hfree]

theorem release_eq (h : Owed owed b) (hlive : (b.descs d).inUse = true) (hheld : b.held d = 1)
    (hpipe : (b.descs d).pipe = some i) :
    release d b = (b.drop d).setPipe i (pipeClose (b.descs d).access (b.pipes i)).1 := by
  have hcount : (b.descs d).refCount = 1 := ((h.refs d).count_eq hlive).trans hheld
  unfold release
  simp only [hcount, Nat.sub_self, if_true, hpipe, hheld, State.drop]
  rfl

theorem newPipe_some (h : Owed owed b) (hzero : ∀ i, (b.pipes i).inUse = false → ∀ side, owed side i = 0)
    {r w : Fin maxFileDescriptions} (hn : newPipe b = (some (r, w), b')) :
    Owed owed b' ∧ ∃ i, (b.pipes i).inUse = false ∧ b'.pipes = Function.update b.pipes i (createPipe (b.pipes i)) ∧
      r ≠ w ∧ (b.descs r).inUse = false ∧ (b.descs w).inUse = false ∧
      b'.descs = Function.update (Function.update b.descs r ⟨some i, .rdonly, 1, true⟩) w ⟨some i, .wronly, 1, true⟩ ∧
      b'.held = Function.update (Function.update b.held r 1) w 1 := by
  have howed : Owed owed (newPipe b).2 := h.newPipe hzero
  rw [hn] at howed
  refine ⟨howed, ?_⟩
  unfold newPipe at hn
  split at hn
  · cases hn
  · next i hi =>
    have hfree : (b.pipes i).inUse = false := by simpa using Fin.eq_true_of_find?_eq_some hi
    simp only at hn
    split at hn
    · cases hn
    · next r' b₁ hr =>
      split at hn
      · cases hn
      · next w' b₂ hw =>
        cases hn
        have hcreate := h.create hfree (hzero i hfree)
        have hread := alloc_taken hcreate hr
        obtain ⟨d', hd', heq⟩ := Option.map_eq_some_iff.1 hw
        obtain ⟨rfl, rfl⟩ := Prod.mk.inj heq
        have hwfree : (b₁.descs d').inUse = false := by simpa using Fin.eq_true_of_find?_eq_some hd'
        have hne : r ≠ d' := by
          rintro rfl
          rw [hread.descs, Function.update_self] at hwfree
          cases hwfree
        rw [hread.descs, Function.update_of_ne hne.symm] at hwfree
        have hheld : b₁.held d' = 0 := by
          rw [hread.held, Function.update_of_ne hne.symm]
          exact h.unheld hwfree
        refine ⟨i, hfree, hread.pipes, hne, hread.free, hwfree, ?_, ?_⟩
        · show Function.update b₁.descs d' _ = _
          rw [hread.descs]
          rfl
        · show Function.update b₁.held d' (b₁.held d' + 1) = _
          rw [hheld, hread.held]
          rfl

theorem newPipe_none (h : Owed owed b) (hzero : ∀ i, (b.pipes i).inUse = false → ∀ side, owed side i = 0)
    (hn : newPipe b = (none, b')) :
    Owed owed b' ∧ (∀ i, (b'.pipes i).inUse = (b.pipes i).inUse) ∧
      (∀ d, (b.descs d).inUse = true → b'.descs d = b.descs d) ∧ (∀ d, (b'.descs d).inUse = (b.descs d).inUse) ∧
      ∀ d, b'.held d ≤ b.held d := by
  have howed : Owed owed (newPipe b).2 := h.newPipe hzero
  rw [hn] at howed
  refine ⟨howed, ?_⟩
  unfold newPipe at hn
  split at hn
  · cases hn
    exact ⟨fun _ => rfl, fun _ _ => rfl, fun _ => rfl, fun _ => le_rfl⟩
  · next i hi =>
    have hfree : (b.pipes i).inUse = false := by simpa using Fin.eq_true_of_find?_eq_some hi
    have hcreate := h.create hfree (hzero i hfree)
    have hother : ∀ (p p' : Pipe) j, p'.inUse = false →
        (Function.update (Function.update b.pipes i p) i p' j).inUse = (b.pipes j).inUse := by
      intro p p' j hp'
      by_cases hj : j = i
      · rw [hj, Function.update_self, hp', hfree]
      · rw [Function.update_of_ne hj, Function.update_of_ne hj]
    simp only at hn
    split at hn
    · cases hn
      exact ⟨fun j => hother _ _ j rfl, fun _ _ => rfl, fun _ => rfl, fun _ => le_rfl⟩
    · next r b₁ hr =>
      have hread := alloc_taken hcreate hr
      split at hn
      · cases hn
        -- the reading end is released again
        have hself : b₁.descs r = ⟨some i, .rdonly, 1, true⟩ := by rw [hread.descs, Function.update_self]
        have hrel : release r b₁ = (b₁.drop r).setPipe i (pipeClose (b₁.descs r).access (b₁.pipes i)).1 := by
          unfold release
          simp only [hself, Nat.sub_self, if_true, hread.held, Function.update_self]
          unfold State.drop
          rw [hself, hread.held]
          rfl
        rw [hrel]
        refine ⟨fun j => ?_, fun d hd => ?_, fun d => ?_, fun d => ?_⟩
        · by_cases hj : j = i
          · rw [hj]
            rw [setPipe_self]
            exact hfree.symm
          · show (Function.update (Function.update b₁.pipes i _) i _ j).inUse = _
            rw [Function.update_of_ne hj, Function.update_of_ne hj, hread.pipes]
            show (Function.update b.pipes i _ j).inUse = _
            rw [Function.update_of_ne hj]
        · have hne : d ≠ r := by
            rintro rfl
            rw [show (b.descs d).inUse = false from hread.free] at hd
            cases hd
          show Function.update b₁.descs r _ d = _
          rw [Function.update_of_ne hne, hread.descs, Function.update_of_ne hne]
          rfl
        · show (Function.update b₁.descs r _ d).inUse = _
          by_cases hne : d = r
          · rw [hne, Function.update_self]
            exact (show (b.descs r).inUse = false from hread.free).symm
          · rw [Function.update_of_ne hne, hread.descs, Function.update_of_ne hne]
            rfl
        · show Function.update b₁.held r 0 d ≤ _
          by_cases hne : d = r
          · rw [hne, Function.update_self]
            exact Nat.zero_le _
          · rw [Function.update_of_ne hne, hread.held, Function.update_of_ne hne]
            exact le_rfl
      · cases hn

end Pool

/-! ## The invariant -/

/-- What is counted beyond the live descriptions: the reading ends that were dropped. -/
def owedBy (ghost : Fin maxPipes → Nat) : Side → Fin maxPipes → Nat
  | .read, i => ghost i
  | .write, _ => 0

structure Leaked (s : State) (i : Fin maxPipes) (d : Fin maxFileDescriptions) : Prop where
  live : (s.base.descs d).inUse = true
  pipe : (s.base.descs d).pipe = some i
  access : (s.base.descs d).access = .rdonly
  opener : s.opener d = none

/-- The FIFO has the entry `e`. -/
def Registered (s : State) (e : Fin maxFifos) (ino : Nat) : Prop := (s.map e).active = true ∧ (s.map e).ino = ino

def Opened (s : State) (d : Fin maxFileDescriptions) (o : Opener) : Prop :=
  (s.base.descs d).inUse = true ∧ (s.base.descs d).access = o.access ∧
    ∃ i, (s.base.descs d).pipe = some i ∧ s.origin i = o.fifo

def Placed (s : State) (d : Fin maxFileDescriptions) (o : Opener) (ino : Nat) : Prop :=
  (∃ e, Registered s e ino ∧ (s.base.descs d).pipe = some (s.map e).pipe) ∨
    (o.access = .wronly ∧ (∀ e, (s.map e).active = true) ∧ ∀ e, (s.map e).ino ≠ ino)

/-- The counts are right, with `ghost` reading ends dropped, and every FIFO has kept a reading end. -/
structure Good (ghost : Fin maxPipes → Nat) (s : State) : Prop where
  counted : Owed (owedBy ghost) s.base
  single : ∀ d, s.base.held d ≤ 1
  ghosts : ∀ i, ghost i ≠ 0 → (s.origin i).isSome
  pinned : ∀ i, (s.origin i).isSome → (s.base.pipes i).inUse = true ∧ (ghost i ≠ 0 ∨ ∃ d, Leaked s i d)
  history : ∀ i, ∀ x ∈ s.attached i, x = s.origin i
  openers : ∀ d o, s.opener d = some o → Opened s d o
  leaks : ∀ d, (s.base.descs d).inUse = true → s.opener d = none → (s.base.descs d).access = .rdonly
  entries : ∀ e, (s.map e).active = true → s.origin (s.map e).pipe = some (s.map e).ino
  distinct : ∀ e e' ino, Registered s e ino → Registered s e' ino → e = e'
  placed : ∀ d o ino, s.opener d = some o → o.fifo = some ino → Placed s d o ino

section Good
variable {ghost ghost' : Fin maxPipes → Nat} {s s' : State} {d : Fin maxFileDescriptions} {i : Fin maxPipes}

theorem Leaked.congr (h : Leaked s i d) (hdesc : s'.base.descs d = s.base.descs d) (hopener : s'.opener d = s.opener d) :
    Leaked s' i d :=
  ⟨(congrArg Desc.inUse hdesc).trans h.live, (congrArg Desc.pipe hdesc).trans h.pipe,
    (congrArg Desc.access hdesc).trans h.access, hopener.trans h.opener⟩

theorem single_update {held : Fin maxFileDescriptions → Nat} (h : ∀ d, held d ≤ 1) {k : Nat} (hk : k ≤ 1)
    (d d' : Fin maxFileDescriptions) : Function.update held d k d' ≤ 1 := by
  by_cases hd : d' = d
  · rw [hd, Function.update_self]
    exact hk
  · rw [Function.update_of_ne hd]
    exact h d'

theorem Good.update (h : Good ghost s) (d : Fin maxFileDescriptions) (hcounted : Owed (owedBy ghost') s'.base)
    (hsingle : ∀ d, s'.base.held d ≤ 1) (hmap : s'.map = s.map) (horigin : s'.origin = s.origin)
    (hghosts : ∀ i, ghost' i ≠ 0 → (s.origin i).isSome)
    (hpinned : ∀ i, (s.origin i).isSome → (s'.base.pipes i).inUse = true ∧ (ghost' i ≠ 0 ∨ ∃ d, Leaked s' i d))
    (hhistory : ∀ i, ∀ x ∈ s'.attached i, x = s.origin i)
    (hother : ∀ d', d' ≠ d → s'.base.descs d' = s.base.descs d' ∧ s'.opener d' = s.opener d')
    (hopener : ∀ o, s'.opener d = some o → Opened s' d o ∧ ∀ ino, o.fifo = some ino → Placed s' d o ino)
    (hleak : (s'.base.descs d).inUse = true → s'.opener d = none → (s'.base.descs d).access = .rdonly) :
    Good ghost' s' := by
  refine ⟨hcounted, hsingle, horigin ▸ hghosts, horigin ▸ hpinned, horigin ▸ hhistory, fun d' o ho => ?_, fun d' hlive ho => ?_,
    ?_, ?_, fun d' o ino ho hfifo => ?_⟩
  · by_cases hd : d' = d
    · subst hd
      exact (hopener o ho).1
    · obtain ⟨hdesc, hop⟩ := hother d' hd
      unfold Opened
      rw [hdesc, horigin]
      exact h.openers d' o (hop ▸ ho)
  · by_cases hd : d' = d
    · subst hd
      exact hleak hlive ho
    · obtain ⟨hdesc, hop⟩ := hother d' hd
      rw [hdesc] at hlive ⊢
      exact h.leaks d' hlive (hop ▸ ho)
  · rw [hmap, horigin]
    exact h.entries
  · unfold Registered
    rw [hmap]
    exact h.distinct
  · by_cases hd : d' = d
    · subst hd
      exact (hopener o ho).2 ino hfifo
    · obtain ⟨hdesc, hop⟩ := hother d' hd
      unfold Placed Registered
      rw [hdesc, hmap]
      exact h.placed d' o ino (hop ▸ ho) hfifo

theorem Good.free_zero (h : Good ghost s) {i : Fin maxPipes} (hfree : (s.base.pipes i).inUse = false) (side : Side) :
    owedBy ghost side i = 0 := by
  cases side with
  | write => rfl
  | read =>
    refine Decidable.byContradiction fun hne => ?_
    rw [(h.pinned i (h.ghosts i hne)).1] at hfree
    cases hfree

theorem Good.unopened (h : Good ghost s) (hfree : (s.base.descs d).inUse = false) : s.opener d = none := by
  cases ho : s.opener d with
  | none => rfl
  | some o =>
    rw [(h.openers d o ho).1] at hfree
    cases hfree

theorem Good.keeps_reader (h : Good ghost s) (horigin : (s.origin i).isSome)
    (hleak : ∀ d', Leaked s i d' → d' ≠ d) : 0 < (s.base.drop d).liveEnds .read i + ghost i := by
  obtain hghost | ⟨d', hd'⟩ := (h.pinned i horigin).2
  · omega
  · have huses : (Desc.uses .read ∘ (s.base.drop d).descs) d' = some i := by
      have hsame : (s.base.drop d).descs d' = s.base.descs d' := Function.update_of_ne (hleak d' hd') _ _
      show Desc.uses .read ((s.base.drop d).descs d') = some i
      rw [hsame]
      exact (if_pos ⟨hd'.live, by rw [hd'.access]; rfl⟩).trans hd'.pipe
    exact Nat.add_pos_left (holders_pos huses) _

theorem Good.close (h : Good ghost s) {o : Opener} (ho : s.opener d = some o) : Good ghost (closeDesc d s) := by
  obtain ⟨hlive, haccess, i, hpipe, horigin⟩ := h.openers d o ho
  have hpos : 0 < s.base.held d := (h.counted.refs d).live_iff.1 hlive
  have hheld : s.base.held d = 1 := Nat.le_antisymm (h.single d) hpos
  have heq : release d s.base = (s.base.drop d).setPipe i (pipeClose (s.base.descs d).access (s.base.pipes i)).1 :=
    release_eq h.counted hlive hheld hpipe
  have hself : (closeDesc d s).opener d = none := Function.update_self _ _ _
  refine h.update d (h.counted.release (by omega)) (fun d' => ?_) rfl rfl h.ghosts (fun i' hi' => ?_) h.history
    (fun d' hd' => ⟨?_, Function.update_of_ne hd' _ _⟩) (fun o' ho' => ?_) fun hin => ?_
  · show (release d s.base).held d' ≤ 1
    rw [heq]
    exact single_update h.single (Nat.zero_le 1) d d'
  · have hleaked : ∀ d', Leaked s i' d' → d' ≠ d := by
      rintro d' hd' rfl
      rw [hd'.opener] at ho
      cases ho
    refine ⟨?_, ?_⟩
    · show ((release d s.base).pipes i').inUse = true
      rw [heq]
      by_cases hi : i' = i
      · subst hi
        rw [setPipe_self]
        refine (pipeClose_inUse _ _).2 ⟨(h.pinned i' hi').1, .inl ?_⟩
        have hends := (h.counted.drop d).ends .read i' (h.pinned i' hi').1
        have hclose := pipeClose_ends (h.counted.live d i' hlive hpipe).2 (s.base.pipes i') .read
        have hkeep := h.keeps_reader hi' hleaked
        rw [share_of_live hlive hpipe] at hends
        have hbefore : (s.base.pipes i').ends .read = _ := hends
        have hafter : (pipeClose (s.base.descs d).access (s.base.pipes i')).1.readers = _ := hclose
        rw [hafter, hbefore]
        show _ + (ghost i' + _) - _ ≠ 0
        omega
      · show (Function.update s.base.pipes i _ i').inUse = true
        rw [Function.update_of_ne hi]
        exact (h.pinned i' hi').1
    · obtain hghost | ⟨d', hd'⟩ := (h.pinned i' hi').2
      · exact .inl hghost
      · have hne := hleaked d' hd'
        have hsame : (closeDesc d s).base.descs d' = s.base.descs d' := by
          show (release d s.base).descs d' = _
          rw [heq]
          exact Function.update_of_ne hne _ _
        exact .inr ⟨d', hd'.congr hsame (Function.update_of_ne hne _ _)⟩
  · show (release d s.base).descs d' = _
    rw [heq]
    exact Function.update_of_ne hd' _ _
  · rw [hself] at ho'
    cases ho'
  · -- the description is free now
    have hdead : ((release d s.base).descs d).inUse = false := by
      rw [heq]
      show (Function.update s.base.descs d _ d).inUse = false
      rw [Function.update_self]
    rw [show ((closeDesc d s).base.descs d).inUse = false from hdead] at hin
    cases hin

theorem Good.dropNoClose (h : Good ghost s) (hleak : Leaked s i d) (horigin : (s.origin i).isSome) :
    Good (Function.update ghost i (ghost i + 1)) (dropNoClose d s) := by
  have hself : (Fifo.dropNoClose d s).base.descs d = { s.base.descs d with inUse := false } := Function.update_self _ _ _
  refine h.update d ?_ (fun d' => ?_) rfl rfl (fun i' hi' => ?_) (fun i' hi' => ?_) h.history
    (fun d' hd' => ⟨Function.update_of_ne hd' _ _, rfl⟩) (fun o ho => ?_) fun hin => ?_
  · refine h.counted.setDesc ⟨fun hin => (by cases hin), by simp⟩ (fun _ hin => by cases hin) fun side i' _ => ?_
    have hdead : ({ s.base.descs d with inUse := false } : Desc).share side i' = 0 := share_of_dead rfl side i'
    rw [hdead, Nat.add_zero]
    by_cases hi : i' = i
    · subst hi
      rw [share_of_live hleak.live hleak.pipe, hleak.access]
      cases side with
      | read =>
        show Function.update ghost i' (ghost i' + 1) i' = _
        rw [Function.update_self]
        rfl
      | write => rfl
    · rw [share_other hleak.pipe hi, Nat.add_zero]
      cases side with
      | read =>
        show Function.update ghost i (ghost i + 1) i' = _
        rw [Function.update_of_ne hi]
        rfl
      | write => rfl
  · exact single_update h.single (Nat.zero_le 1) d d'
  · by_cases hi : i' = i
    · rw [hi]
      exact horigin
    · rw [Function.update_of_ne hi] at hi'
      exact h.ghosts i' hi'
  · refine ⟨(h.pinned i' hi').1, ?_⟩
    by_cases hi : i' = i
    · rw [hi, Function.update_self]
      exact .inl (Nat.succ_ne_zero _)
    · rw [Function.update_of_ne hi]
      obtain hghost | ⟨d', hd'⟩ := (h.pinned i' hi').2
      · exact .inl hghost
      · have hne : d' ≠ d := by
          rintro rfl
          exact hi (Option.some.inj (hd'.pipe.symm.trans hleak.pipe))
        exact .inr ⟨d', hd'.congr (Function.update_of_ne hne _ _) rfl⟩
  · have ho : s.opener d = some o := ho
    rw [hleak.opener] at ho
    cases ho
  · rw [hself] at hin
    cases hin

theorem Good.setPipe (h : Good ghost s) {p : Pipe} (hreaders : p.readers = (s.base.pipes i).readers)
    (hwriters : p.writers = (s.base.pipes i).writers) (hin : p.inUse = (s.base.pipes i).inUse) :
    Good ghost { s with base := s.base.setPipe i p } := by
  have hends : ∀ side, p.ends side = (s.base.pipes i).ends side := by
    intro side
    cases side with
    | read => exact hreaders
    | write => exact hwriters
  have hinUse : ∀ i', ((s.base.setPipe i p).pipes i').inUse = (s.base.pipes i').inUse := by
    intro i'
    by_cases hi : i' = i
    · rw [hi, setPipe_self, hin]
    · show (Function.update s.base.pipes i p i').inUse = _
      rw [Function.update_of_ne hi]
  have hcounted : Owed (owedBy ghost) (s.base.setPipe i p) := by
    refine h.counted.setPipe ?_ (fun side hp => ?_) (fun hp => ?_) fun _ _ _ => rfl
    · cases hp : p.inUse with
      | true => exact .inl rfl
      | false => exact .inr (h.counted.no_ends (hin ▸ hp))
    · rw [hends]
      exact h.counted.ends side i (hin ▸ hp)
    · rw [hreaders, hwriters]
      exact h.counted.used i (hin ▸ hp)
  exact ⟨hcounted, h.single, h.ghosts, fun i' hi' => ⟨(hinUse i').trans (h.pinned i' hi').1,
    (h.pinned i' hi').2.imp_right fun ⟨d, hd⟩ => ⟨d, hd.live, hd.pipe, hd.access, hd.opener⟩⟩, h.history, h.openers, h.leaks,
    h.entries, h.distinct, h.placed⟩

theorem Good.attach (h : Good ghost s) {e : Fin maxFifos} {ino : Nat} {access : Access}
    {r : Option (Fin maxFileDescriptions)} (he : Registered s e ino) (haccess : access ≠ .rdwr)
    (ha : attach ino (s.map e).pipe access s = some (r, s')) :
    Good ghost s' ∧ ∀ d, r = some d → s'.opener d = some ⟨some ino, access⟩ := by
  unfold Fifo.attach at ha
  split at ha
  · cases ha
    exact ⟨h, fun _ hr => by cases hr⟩
  · rename_i hin
    split at ha
    · cases ha
      exact ⟨h, fun _ hr => by cases hr⟩
    · rename_i d b halloc
      obtain ⟨p, hp, ha⟩ := Option.bind_eq_some_iff.1 ha
      cases ha
      have htaken := alloc_taken h.counted halloc
      have hin : (s.base.pipes (s.map e).pipe).inUse = true := by simpa using hin
      have hp : openPipe access (s.base.pipes (s.map e).pipe) = some p := by rw [← htaken.pipes]; exact hp
      have hinp := (openPipe_ends haccess hp).1.trans hin
      have horigin : s.origin (s.map e).pipe = some ino := he.2 ▸ h.entries e he.1
      have hnone := h.unopened htaken.free
      have hself : b.descs d = ⟨some (s.map e).pipe, access, 1, true⟩ := by rw [htaken.descs, Function.update_self]
      refine ⟨h.update d (h.counted.attach haccess hin halloc hp) (fun d' => ?_) rfl rfl h.ghosts (fun i hi => ?_)
        (fun i x hx => ?_) (fun d' hd' => ⟨?_, Function.update_of_ne hd' _ _⟩) (fun o ho => ?_) (fun _ ho => ?_),
        fun d' hr => ?_⟩
      · show b.held d' ≤ 1
        rw [htaken.held]
        exact single_update h.single (Nat.le_refl 1) d d'
      · refine ⟨?_, (h.pinned i hi).2.imp_right fun ⟨d', hd'⟩ => ⟨d', ?_⟩⟩
        · show (Function.update b.pipes (s.map e).pipe p i).inUse = true
          by_cases heq : i = (s.map e).pipe
          · rw [heq, Function.update_self]
            exact hinp
          · rw [Function.update_of_ne heq, htaken.pipes]
            exact (h.pinned i hi).1
        · have hne : d' ≠ d := by
            rintro rfl
            exact absurd (hd'.live.symm.trans htaken.free) (by simp)
          have hsame : b.descs d' = s.base.descs d' := by rw [htaken.descs, Function.update_of_ne hne]
          exact hd'.congr hsame (Function.update_of_ne hne _ _)
      · have hx : x ∈ Function.update s.attached (s.map e).pipe (some ino :: s.attached (s.map e).pipe) i := hx
        by_cases heq : i = (s.map e).pipe
        · subst heq
          rw [Function.update_self] at hx
          rcases List.mem_cons.1 hx with rfl | hx
          · exact horigin.symm
          · exact h.history _ x hx
        · rw [Function.update_of_ne heq] at hx
          exact h.history i x hx
      · show b.descs d' = _
        rw [htaken.descs, Function.update_of_ne hd']
      · have ho : o = ⟨some ino, access⟩ := by
          have ho : Function.update s.opener d (some ⟨some ino, access⟩) d = some o := ho
          rw [Function.update_self] at ho
          exact (Option.some.inj ho).symm
        subst ho
        refine ⟨⟨congrArg Desc.inUse hself, congrArg Desc.access hself, (s.map e).pipe, congrArg Desc.pipe hself, horigin⟩,
          fun ino' hino => .inl ⟨e, ?_, congrArg Desc.pipe hself⟩⟩
        cases hino
        exact he
      · have ho : Function.update s.opener d (some ⟨some ino, access⟩) d = none := ho
        rw [Function.update_self] at ho
        cases ho
      · cases hr
        exact Function.update_self _ _ _

theorem Good.made (h : Good ghost s) {b : Pipes.State} {r w : Fin maxFileDescriptions} (owner : Option Nat)
    (orr : Option Opener) (map : Fin maxFifos → FifoEntry) (hcounted : Owed (owedBy ghost) b)
    (hfree : (s.base.pipes i).inUse = false) (hpipes : b.pipes = Function.update s.base.pipes i (createPipe (s.base.pipes i)))
    (hne : r ≠ w) (hr : (s.base.descs r).inUse = false) (hw : (s.base.descs w).inUse = false)
    (hdescs : b.descs =
      Function.update (Function.update s.base.descs r ⟨some i, .rdonly, 1, true⟩) w ⟨some i, .wronly, 1, true⟩)
    (hheld : b.held = Function.update (Function.update s.base.held r 1) w 1)
    (horr : orr = if owner.isSome then none else some ⟨none, .rdonly⟩)
    (hentries : ∀ e, (map e).active = true → map e = s.map e ∨ ((map e).pipe = i ∧ owner = some (map e).ino))
    (hdistinct : ∀ e e', (map e).active = true → (map e').active = true → (map e).ino = (map e').ino → e = e')
    (hold : ∀ d o ino, s.opener d = some o → o.fifo = some ino →
      (∃ e, ((map e).active = true ∧ (map e).ino = ino) ∧ (s.base.descs d).pipe = some (map e).pipe) ∨
        (o.access = .wronly ∧ (∀ e, (map e).active = true) ∧ ∀ e, (map e).ino ≠ ino))
    (hnew : ∀ ino, owner = some ino → (∃ e, ((map e).active = true ∧ (map e).ino = ino) ∧ (map e).pipe = i) ∨
      ((∀ e, (map e).active = true) ∧ ∀ e, (map e).ino ≠ ino)) :
    Good ghost
      { base := b, map := map, opener := Function.update (Function.update s.opener r orr) w (some ⟨owner, .wronly⟩)
        origin := Function.update s.origin i owner, attached := Function.update s.attached i [owner] } := by
  have hdr : b.descs r = ⟨some i, .rdonly, 1, true⟩ := by
    rw [hdescs, Function.update_of_ne hne, Function.update_self]
  have hdw : b.descs w = ⟨some i, .wronly, 1, true⟩ := by rw [hdescs, Function.update_self]
  have hdo : ∀ d, d ≠ r → d ≠ w → b.descs d = s.base.descs d := fun d h₁ h₂ => by
    rw [hdescs, Function.update_of_ne h₂, Function.update_of_ne h₁]
  have hopw : Function.update (Function.update s.opener r orr) w (some ⟨owner, .wronly⟩) w = some ⟨owner, .wronly⟩ :=
    Function.update_self _ _ _
  have hopr : Function.update (Function.update s.opener r orr) w (some ⟨owner, .wronly⟩) r = orr := by
    rw [Function.update_of_ne hne, Function.update_self]
  have hopo : ∀ d, d ≠ r → d ≠ w →
      Function.update (Function.update s.opener r orr) w (some ⟨owner, .wronly⟩) d = s.opener d := fun d h₁ h₂ => by
    rw [Function.update_of_ne h₂, Function.update_of_ne h₁]
  have horigin : Function.update s.origin i owner i = owner := Function.update_self _ _ _
  -- the slot of the new pipe belonged to nobody
  have hnotFifo : ∀ i', (s.origin i').isSome → i' ≠ i := by
    rintro i' hi' rfl
    rw [(h.pinned i' hi').1] at hfree
    cases hfree
  have hlivePipe : ∀ d i', (s.base.descs d).inUse = true → (s.base.descs d).pipe = some i' → i' ≠ i := by
    rintro d i' hlive hpipe rfl
    rw [(h.counted.live d i' hlive hpipe).1] at hfree
    cases hfree
  have hlive : ∀ d, (s.base.descs d).inUse = true → d ≠ r ∧ d ≠ w := by
    intro d hd
    refine ⟨?_, ?_⟩
    · rintro rfl
      rw [hr] at hd
      cases hd
    · rintro rfl
      rw [hw] at hd
      cases hd
  refine ⟨hcounted, fun d => ?_, fun i' hi' => ?_, fun i' hi' => ?_, fun i' x hx => ?_, fun d o ho => ?_, fun d hin ho => ?_,
    fun e he => ?_, fun e e' ino he he' => hdistinct e e' he.1 he'.1 (he.2.trans he'.2.symm), fun d o ino ho hfifo => ?_⟩
  · show b.held d ≤ 1
    rw [hheld]
    exact single_update (single_update h.single (Nat.le_refl 1) r) (Nat.le_refl 1) w d
  · have hsome := h.ghosts i' hi'
    show (Function.update s.origin i owner i').isSome
    rw [Function.update_of_ne (hnotFifo i' hsome)]
    exact hsome
  · have hi' : (Function.update s.origin i owner i').isSome := hi'
    by_cases hi : i' = i
    · subst hi
      rw [horigin] at hi'
      refine ⟨?_, .inr ⟨r, congrArg Desc.inUse hdr, congrArg Desc.pipe hdr, congrArg Desc.access hdr, ?_⟩⟩
      · show (b.pipes i').inUse = true
        rw [hpipes, Function.update_self]
        rfl
      · exact hopr.trans (by rw [horr, if_pos hi'])
    · rw [Function.update_of_ne hi] at hi'
      refine ⟨?_, (h.pinned i' hi').2.imp_right fun ⟨d, hd⟩ => ⟨d, ?_⟩⟩
      · show (b.pipes i').inUse = true
        rw [hpipes, Function.update_of_ne hi]
        exact (h.pinned i' hi').1
      · obtain ⟨h₁, h₂⟩ := hlive d hd.live
        exact hd.congr (hdo d h₁ h₂) (hopo d h₁ h₂)
  · have hx : x ∈ Function.update s.attached i [owner] i' := hx
    show x = Function.update s.origin i owner i'
    by_cases hi : i' = i
    · subst hi
      rw [Function.update_self] at hx ⊢
      exact List.mem_singleton.1 hx
    · rw [Function.update_of_ne hi] at hx ⊢
      exact h.history i' x hx
  · by_cases hdw' : d = w
    · subst hdw'
      have ho : o = ⟨owner, .wronly⟩ := (Option.some.inj (hopw.symm.trans ho)).symm
      subst ho
      exact ⟨congrArg Desc.inUse hdw, congrArg Desc.access hdw, i, congrArg Desc.pipe hdw, horigin⟩
    · by_cases hdr' : d = r
      · subst hdr'
        have ho := hopr.symm.trans ho
        rw [horr] at ho
        split at ho
        · cases ho
        · rename_i hnone
          cases ho
          have hnone : owner = none := by simpa using hnone
          exact ⟨congrArg Desc.inUse hdr, congrArg Desc.access hdr, i, congrArg Desc.pipe hdr, horigin.trans hnone⟩
      · obtain ⟨hlv, haccess, i', hpipe, hor⟩ := h.openers d o ((hopo d hdr' hdw').symm.trans ho)
        have hsame := hdo d hdr' hdw'
        refine ⟨(congrArg Desc.inUse hsame).trans hlv, (congrArg Desc.access hsame).trans haccess, i',
          (congrArg Desc.pipe hsame).trans hpipe, ?_⟩
        exact (Function.update_of_ne (hlivePipe d i' hlv hpipe) _ _).trans hor
  · by_cases hdw' : d = w
    · subst hdw'
      have ho := hopw.symm.trans ho
      cases ho
    · by_cases hdr' : d = r
      · subst hdr'
        exact congrArg Desc.access hdr
      · have hsame := hdo d hdr' hdw'
        exact (congrArg Desc.access hsame).trans
          (h.leaks d ((congrArg Desc.inUse hsame).symm.trans hin) ((hopo d hdr' hdw').symm.trans ho))
  · have he : (map e).active = true := he
    show Function.update s.origin i owner (map e).pipe = some (map e).ino
    obtain hsame | ⟨hpipe, howner⟩ := hentries e he
    · rw [hsame] at he ⊢
      have hor := h.entries e he
      rw [Function.update_of_ne (hnotFifo _ (by rw [hor]; rfl))]
      exact hor
    · rw [hpipe, horigin, howner]
  · by_cases hdw' : d = w
    · subst hdw'
      have ho : o = ⟨owner, .wronly⟩ := (Option.some.inj (hopw.symm.trans ho)).symm
      subst ho
      obtain ⟨e, he, hpipe⟩ | hfull := hnew ino hfifo
      · exact .inl ⟨e, he, (congrArg Desc.pipe hdw).trans (congrArg some hpipe.symm)⟩
      · exact .inr ⟨rfl, hfull⟩
    · by_cases hdr' : d = r
      · subst hdr'
        have ho := hopr.symm.trans ho
        rw [horr] at ho
        split at ho
        · cases ho
        · cases ho
          cases hfifo
      · obtain ⟨e, he, hpipe⟩ | hfull := hold d o ino ((hopo d hdr' hdw').symm.trans ho) hfifo
        · exact .inl ⟨e, he, (congrArg Desc.pipe (hdo d hdr' hdw')).trans hpipe⟩
        · exact .inr hfull

theorem Good.notMade (h : Good ghost s) {b : Pipes.State} (hn : newPipe s.base = (none, b)) :
    Good ghost { s with base := b } := by
  obtain ⟨hcounted, hpipes, hdescs, hlive, hheld⟩ := newPipe_none h.counted (fun i hi side => h.free_zero hi side) hn
  refine ⟨hcounted, fun d => (hheld d).trans (h.single d), h.ghosts, fun i hi => ?_, h.history, fun d o ho => ?_,
    fun d hin ho => ?_, h.entries, h.distinct, fun d o ino ho hfifo => ?_⟩
  · refine ⟨(hpipes i).trans (h.pinned i hi).1, (h.pinned i hi).2.imp_right fun ⟨d, hd⟩ => ⟨d, ?_⟩⟩
    exact hd.congr (hdescs d hd.live) rfl
  · have hop := h.openers d o ho
    have hsame := hdescs d hop.1
    unfold Opened
    rw [show b.descs d = s.base.descs d from hsame]
    exact hop
  · have hin : (s.base.descs d).inUse = true := (hlive d).symm.trans hin
    exact (congrArg Desc.access (hdescs d hin)).trans (h.leaks d hin ho)
  · have hsame := hdescs d (h.openers d o ho).1
    unfold Placed
    rw [show b.descs d = s.base.descs d from hsame]
    exact h.placed d o ino ho hfifo

theorem findEntry_some {e : Fin maxFifos} {ino : Nat} (h : findEntry s ino = some e) : Registered s e ino := by
  have htrue := Fin.eq_true_of_find?_eq_some h
  simpa [Registered] using htrue

theorem findEntry_none {ino : Nat} (h : findEntry s ino = none) (e : Fin maxFifos) : ¬ Registered s e ino := by
  have hfalse := Fin.eq_false_of_find?_eq_none h e
  simpa [Registered] using hfalse

/-- The state between the allocation of a pipe for a FIFO and `fdAlloc`: the reading end is leaked. -/
def madeFor (s : State) (b : Pipes.State) (i : Fin maxPipes) (w : Fin maxFileDescriptions) (ino : Nat) : State :=
  setOpener w ⟨some ino, .wronly⟩ (register ino i
    { s with base := b, origin := Function.update s.origin i (some ino)
             attached := Function.update s.attached i [some ino] })

theorem madeFor_good (h : Good ghost s) {b : Pipes.State} {r w : Fin maxFileDescriptions} {ino : Nat}
    (hnone : findEntry s ino = none) (hcounted : Owed (owedBy ghost) b) (hfree : (s.base.pipes i).inUse = false)
    (hpipes : b.pipes = Function.update s.base.pipes i (createPipe (s.base.pipes i)))
    (hne : r ≠ w) (hr : (s.base.descs r).inUse = false) (hw : (s.base.descs w).inUse = false)
    (hdescs : b.descs =
      Function.update (Function.update s.base.descs r ⟨some i, .rdonly, 1, true⟩) w ⟨some i, .wronly, 1, true⟩)
    (hheld : b.held = Function.update (Function.update s.base.held r 1) w 1) : Good ghost (madeFor s b i w ino) := by
  have hopener : Function.update s.opener r none = s.opener := by
    rw [← h.unopened hr]
    exact Function.update_eq_self _ _
  have hmine : ∀ e, (s.map e).active = true → (s.map e).ino ≠ ino := fun e he heq => findEntry_none hnone e ⟨he, heq⟩
  unfold madeFor register
  simp only
  split
  · rename_i e he
    have hinactive : (s.map e).active = false := by simpa using Fin.eq_true_of_find?_eq_some he
    have hother : ∀ e', (Function.update s.map e ⟨ino, i, true⟩ e').active = true → e' ≠ e →
        (s.map e').active = true ∧ Function.update s.map e ⟨ino, i, true⟩ e' = s.map e' := by
      intro e' he' hee
      rw [Function.update_of_ne hee] at he' ⊢
      exact ⟨he', rfl⟩
    have hself : Function.update s.map e ⟨ino, i, true⟩ e = ⟨ino, i, true⟩ := Function.update_self _ _ _
    have hmade := h.made (some ino) none (Function.update s.map e ⟨ino, i, true⟩) hcounted
      hfree hpipes hne hr hw hdescs hheld rfl (fun e' he' => ?_) (fun e₁ e₂ h₁ h₂ heq => ?_)
      (fun d o ino' hd hfifo => ?_) (fun ino' hino => ?_)
    · rw [hopener] at hmade
      exact hmade
    · by_cases hee : e' = e
      · subst hee
        rw [hself]
        exact .inr ⟨rfl, rfl⟩
      · exact .inl (hother e' he' hee).2
    · by_cases h₁e : e₁ = e
      · by_cases h₂e : e₂ = e
        · rw [h₁e, h₂e]
        · obtain ⟨hact, hsame⟩ := hother e₂ h₂ h₂e
          rw [h₁e, hself, hsame] at heq
          exact absurd heq.symm (hmine e₂ hact)
      · obtain ⟨hact, hsame⟩ := hother e₁ h₁ h₁e
        by_cases h₂e : e₂ = e
        · rw [h₂e, hself, hsame] at heq
          exact absurd heq (hmine e₁ hact)
        · obtain ⟨hact₂, hsame₂⟩ := hother e₂ h₂ h₂e
          rw [hsame, hsame₂] at heq
          exact h.distinct e₁ e₂ _ ⟨hact, heq⟩ ⟨hact₂, rfl⟩
    · obtain ⟨e', he', hpipe'⟩ | ⟨-, hfull, -⟩ := h.placed d o ino' hd hfifo
      · have hee : e' ≠ e := by
          rintro rfl
          rw [he'.1] at hinactive
          cases hinactive
        refine .inl ⟨e', ?_⟩
        rw [Function.update_of_ne hee]
        exact ⟨he', hpipe'⟩
      · rw [hfull e] at hinactive
        cases hinactive
    · cases hino
      refine .inl ⟨e, ?_⟩
      rw [hself]
      exact ⟨⟨rfl, rfl⟩, rfl⟩
  · rename_i hfull
    -- the map is full, and stays so
    have hfull : ∀ e, (s.map e).active = true := fun e => by
      simpa using Fin.eq_false_of_find?_eq_none hfull e
    have hmade := h.made (some ino) none s.map hcounted hfree hpipes hne hr hw hdescs hheld
      rfl (fun _ _ => .inl rfl) (fun e₁ e₂ h₁ h₂ heq => h.distinct e₁ e₂ _ ⟨h₁, heq⟩ ⟨h₂, rfl⟩)
      (fun d o ino' hd hfifo => h.placed d o ino' hd hfifo) (fun ino' hino => ?_)
    · rw [hopener] at hmade
      exact hmade
    · cases hino
      exact .inr ⟨hfull, fun e heq => hmine e (hfull e) heq⟩

theorem Good.create (h : Good ghost s) {ino : Nat} {fdFree : Bool} (hnone : findEntry s ino = none)
    (ho : openFifo ino .wronly fdFree s = some s') : ∃ ghost', Good ghost' s' := by
  unfold openFifo allocate at ho
  rw [hnone] at ho
  simp only at ho
  cases hn : newPipe s.base with
  | mk res b =>
    rw [hn] at ho
    cases res with
    | none =>
      cases ho
      exact ⟨ghost, h.notMade hn⟩
    | some ends =>
      obtain ⟨r, w⟩ := ends
      obtain ⟨hcounted, i, hfree, hpipes, hne, hr, hw, hdescs, hheld⟩ :=
        newPipe_some h.counted (fun i hi side => h.free_zero hi side) hn
      have hdr : b.descs r = ⟨some i, .rdonly, 1, true⟩ := by
        rw [hdescs, Function.update_of_ne hne, Function.update_self]
      have hpipe : ((b.descs r).pipe).getD 0 = i := by rw [hdr]; rfl
      have hgood := madeFor_good h hnone hcounted hfree hpipes hne hr hw hdescs hheld
      have hregister : ∀ t : State, (register ino i t).base = t.base ∧ (register ino i t).opener = t.opener ∧
          (register ino i t).origin = t.origin := by
        intro t
        unfold register
        split <;> exact ⟨rfl, rfl, rfl⟩
      obtain ⟨hbase, hopener, horigin⟩ := hregister { s with
        base := b, origin := Function.update s.origin i (some ino), attached := Function.update s.attached i [some ino] }
      simp only [pipeOf, hpipe, if_true] at ho
      change some (if fdFree then Fifo.dropNoClose r (madeFor s b i w ino) else closeDesc w (madeFor s b i w ino)) = _ at ho
      cases fdFree with
      | true =>
        cases ho
        have hdesc : (madeFor s b i w ino).base.descs r = ⟨some i, .rdonly, 1, true⟩ :=
          (congrFun (congrArg Pipes.State.descs hbase) r).trans hdr
        refine ⟨_, hgood.dropNoClose (i := i) ⟨congrArg Desc.inUse hdesc, congrArg Desc.pipe hdesc,
          congrArg Desc.access hdesc, ?_⟩ ?_⟩
        · exact (Function.update_of_ne hne _ _).trans ((congrFun hopener r).trans (h.unopened hr))
        · have hsome : (madeFor s b i w ino).origin i = some ino := (congrFun horigin i).trans (Function.update_self _ _ _)
          rw [hsome]
          rfl
      | false =>
        cases ho
        exact ⟨ghost, hgood.close (o := ⟨some ino, .wronly⟩) (Function.update_self _ _ _)⟩

theorem Good.sysPipe (h : Good ghost s) (fdFree : Bool) : Good ghost (sysPipe fdFree s) := by
  unfold Fifo.sysPipe allocate
  cases hn : newPipe s.base with
  | mk res b =>
    cases res with
    | none => exact h.notMade hn
    | some ends =>
      obtain ⟨r, w⟩ := ends
      obtain ⟨hcounted, i, hfree, hpipes, hne, hr, hw, hdescs, hheld⟩ :=
        newPipe_some h.counted (fun i hi side => h.free_zero hi side) hn
      have hdr : b.descs r = ⟨some i, .rdonly, 1, true⟩ := by
        rw [hdescs, Function.update_of_ne hne, Function.update_self]
      have hpipe : ((b.descs r).pipe).getD 0 = i := by rw [hdr]; rfl
      have hmade := h.made none (some ⟨none, .rdonly⟩) s.map hcounted hfree hpipes hne hr hw
        hdescs hheld rfl (fun _ _ => .inl rfl) (fun e₁ e₂ h₁ h₂ heq => h.distinct e₁ e₂ _ ⟨h₁, heq⟩ ⟨h₂, rfl⟩)
        (fun d o ino' hd hfifo => h.placed d o ino' hd hfifo) (fun _ hino => by cases hino)
      simp only [hpipe, setOpener]
      cases fdFree with
      | true => exact hmade
      | false =>
        have hread := hmade.close (d := r) (o := ⟨none, .rdonly⟩) (by
          show Function.update (Function.update s.opener r _) w _ r = _
          rw [Function.update_of_ne hne, Function.update_self])
        refine hread.close (o := ⟨none, .wronly⟩) ?_
        show Function.update (Function.update (Function.update s.opener r _) w _) r none w = _
        rw [Function.update_of_ne hne.symm, Function.update_self]

theorem pipeRead_ends (pid count : Nat) (p : Pipe) : (pipeRead pid count p).2.1.readers = p.readers ∧
    (pipeRead pid count p).2.1.writers = p.writers ∧ (pipeRead pid count p).2.1.inUse = p.inUse := by
  obtain ⟨-, -, heq⟩ | ⟨-, -, heq⟩ | ⟨-, n, -, heq⟩ := pipeRead_cases p pid count <;> rw [heq] <;> exact ⟨rfl, rfl, rfl⟩

theorem pipeWrite_ends (pid : Nat) (data : List (BitVec 8)) (p : Pipe) :
    (pipeWrite pid data p).2.1.readers = p.readers ∧ (pipeWrite pid data p).2.1.writers = p.writers ∧
      (pipeWrite pid data p).2.1.inUse = p.inUse := by
  obtain ⟨-, heq⟩ | ⟨-, -, heq⟩ | ⟨-, -, n, -, -, heq⟩ := pipeWrite_cases p pid data <;> rw [heq] <;> exact ⟨rfl, rfl, rfl⟩

theorem Good.step (h : Good ghost s) {op : Op} (ha : FirstForWriting s op) (hs : s.step op = some s') :
    ∃ ghost', Good ghost' s' := by
  cases op with
  | openFifo ino access fdFree =>
    have hs : openFifo ino access fdFree s = some s' := hs
    obtain ⟨haccess, hfirst⟩ := ha
    cases hfind : findEntry s ino with
    | none =>
      obtain rfl := hfirst hfind
      exact h.create hfind hs
    | some e =>
      unfold openFifo at hs
      rw [hfind] at hs
      obtain ⟨⟨r, t⟩, hattach, hs⟩ := Option.bind_eq_some_iff.1 hs
      obtain ⟨hgood, hopener⟩ := h.attach (findEntry_some hfind) haccess hattach
      cases r with
      | none =>
        cases hs
        exact ⟨ghost, hgood⟩
      | some d =>
        cases hs
        cases fdFree with
        | true => exact ⟨ghost, hgood⟩
        | false => exact ⟨ghost, hgood.close (hopener d rfl)⟩
  | pipe fdFree =>
    cases hs
    exact ⟨ghost, h.sysPipe fdFree⟩
  | read d pid count =>
    obtain ⟨-, hs⟩ := Option.ite_none_left_eq_some.1 hs
    cases hs
    obtain ⟨hr, hw, hin⟩ := pipeRead_ends pid count (s.base.pipes (pipeOf s d))
    exact ⟨ghost, h.setPipe hr hw hin⟩
  | write d pid data =>
    obtain ⟨-, hs⟩ := Option.ite_none_left_eq_some.1 hs
    cases hs
    obtain ⟨hr, hw, hin⟩ := pipeWrite_ends pid data (s.base.pipes (pipeOf s d))
    exact ⟨ghost, h.setPipe hr hw hin⟩
  | close d =>
    obtain ⟨hne, hs⟩ := Option.ite_none_left_eq_some.1 hs
    cases hs
    obtain ⟨o, ho⟩ := Option.ne_none_iff_exists'.1 hne
    exact ⟨ghost, h.close ho⟩

theorem Boot.good {s₀ : State} (h : Fifo.Boot s₀) : Good (fun _ => 0) s₀ := by
  have hdead : ∀ d, ¬ (s₀.base.descs d).inUse = true := fun d => by rw [h.base.descs d]; decide
  have hnone : ∀ i, ¬ (s₀.origin i).isSome := fun i => by rw [h.origin i]; decide
  have hinactive : ∀ e, ¬ (s₀.map e).active = true := fun e => by rw [h.map e]; decide
  have hzero : owedBy (fun _ => 0) = fun _ _ => 0 := by
    funext side i
    cases side <;> rfl
  exact
    { counted := hzero ▸ h.base.counted
      single := fun d => (h.base.held d).trans_le (Nat.zero_le 1)
      ghosts := fun i hi => absurd rfl hi
      pinned := fun i hi => absurd hi (hnone i)
      history := fun i x hx => absurd ((h.attached i) ▸ hx) List.not_mem_nil
      openers := fun d o ho => absurd ((h.opener d).symm.trans ho) (by simp)
      leaks := fun d hd => absurd hd (hdead d)
      entries := fun e he => absurd he (hinactive e)
      distinct := fun e _ _ he => absurd he.1 (hinactive e)
      placed := fun d o _ ho => absurd ((h.opener d).symm.trans ho) (by simp) }

theorem Good.staysItself (h : Good ghost s) : StaysItself s := by
  refine ⟨fun d o ino i ho hfifo hpipe x hx => ?_, fun d o ino i ho hfifo hread hpipe pid count hempty => ?_⟩
  · obtain ⟨-, -, i', hpipe', horigin⟩ := h.openers d o ho
    obtain rfl : i = i' := Option.some.inj (hpipe.symm.trans hpipe')
    rw [h.history i x hx, horigin, hfifo]
  · obtain ⟨hlive, haccess, i', hpipe', horigin⟩ := h.openers d o ho
    obtain rfl : i = i' := Option.some.inj (hpipe.symm.trans hpipe')
    obtain ⟨e, he, hat⟩ | ⟨hwrite, -⟩ := h.placed d o ino ho hfifo
    · obtain rfl : i = (s.map e).pipe := Option.some.inj (hpipe.symm.trans hat)
      have hin := (h.counted.live d _ hlive hpipe).1
      have hends : (s.base.pipes (s.map e).pipe).writers = s.base.liveEnds .write (s.map e).pipe :=
        (h.counted.ends .write _ hin).trans (Nat.add_zero _)
      have heof : (pipeRead pid count (s.base.pipes (s.map e).pipe)).1 = .eof ↔
          s.base.liveEnds .write (s.map e).pipe = 0 := by
        rw [← hends]
        obtain ⟨-, hzero, heq⟩ | ⟨-, hne, heq⟩ | ⟨hne, -⟩ := pipeRead_cases (s.base.pipes (s.map e).pipe) pid count
        · rw [heq]
          exact ⟨fun _ => hzero, fun _ => rfl⟩
        · rw [heq]
          exact ⟨fun hagain => (by cases hagain), fun hzero => absurd hzero hne⟩
        · exact absurd hempty hne
      rw [heof]
      refine ⟨fun hzero d' o' ho' hfifo' => ?_, fun hall => holders_eq_zero fun d' huses => ?_⟩
      · -- an opener of the writing end has a live description of this pipe
        obtain ⟨hlive', haccess', i', hpipe', -⟩ := h.openers d' o' ho'
        refine Decidable.byContradiction fun hne => ?_
        obtain ⟨e', he', hat'⟩ | ⟨-, -, hnoentry⟩ := h.placed d' o' ino ho' hfifo'
        · obtain rfl := h.distinct e e' ino he he'
          have hopens : (s.base.descs d').access.opens .write = true := by
            rw [haccess']
            cases hacc : o'.access with
            | rdonly => exact absurd hacc hne
            | wronly => rfl
            | rdwr => rfl
          have hpos := holders_pos (show (Desc.uses .write ∘ s.base.descs) d' = some (s.map e).pipe from
            (if_pos ⟨hlive', hopens⟩).trans hat')
          exact absurd hzero (Nat.pos_iff_ne_zero.1 hpos)
        · exact hnoentry e he.2
      · have huses : Desc.uses .write (s.base.descs d') = some (s.map e).pipe := huses
        unfold Desc.uses at huses
        split at huses
        · rename_i hwrites
          cases ho' : s.opener d' with
          | none =>
            rw [h.leaks d' hwrites.1 ho'] at hwrites
            exact absurd hwrites.2 (by decide)
          | some o' =>
            obtain ⟨-, haccess', i', hpipe', horigin'⟩ := h.openers d' o' ho'
            obtain rfl : (s.map e).pipe = i' := Option.some.inj (huses.symm.trans hpipe')
            have hread' := hall d' o' ho' (by rw [← horigin', horigin, hfifo])
            rw [haccess', hread'] at hwrites
            exact absurd hwrites.2 (by decide)
        · cases huses
    · exact absurd hwrite hread

end Good

/-- **FIFOs stay themselves** in every run in which the opening that finds no pipe is for writing and none is for reading
and writing. -/
theorem fifos_stay_themselves {s₀ s : State} (h₀ : Boot s₀) (hrun : Run FirstForWriting s₀ s) : StaysItself s := by
  have hgood : ∃ ghost, Good ghost s := by
    induction hrun with
    | init => exact ⟨_, h₀.good⟩
    | step _ ha hs ih =>
      obtain ⟨ghost, h⟩ := ih
      exact h.step ha hs
  obtain ⟨ghost, h⟩ := hgood
  exact h.staysItself

/-! ### The first opening -/

def bootState : State where
  base := Pipes.bootState
  map _ := ⟨0, 0, false⟩
  opener _ := none
  origin _ := none
  attached _ := []

theorem bootState_boot : Boot bootState :=
  ⟨Pipes.bootState_boot, fun _ => rfl, fun _ => rfl, fun _ => rfl, fun _ => rfl⟩

theorem newPipe_boot : ∃ b, newPipe Pipes.bootState = (some (0, 1), b) ∧ (b.descs 0).pipe = some 0 ∧
    (b.pipes 0).count = 0 ∧ (b.pipes 0).writers = 1 := by
  have hval : (newPipe Pipes.bootState).1 = some (0, 1) ∧ ((newPipe Pipes.bootState).2.descs 0).pipe = some 0 ∧
      ((newPipe Pipes.bootState).2.pipes 0).count = 0 ∧ ((newPipe Pipes.bootState).2.pipes 0).writers = 1 := by
    decide +kernel
  generalize newPipe Pipes.bootState = made at hval
  obtain ⟨ends, b⟩ := made
  obtain ⟨rfl, hb⟩ := hval
  exact ⟨b, rfl, hb⟩

theorem findEntry_boot (ino : Nat) : findEntry bootState ino = none := by
  refine Fin.find?_eq_none_iff.2 fun e => ?_
  rfl

/-- A FIFO that is opened for writing first, by one process. -/
theorem fifos_stay_themselves_writer : ∃ s, bootState.step (.openFifo 7 .wronly true) = some s ∧ StaysItself s := by
  have hsome : (bootState.step (.openFifo 7 .wronly true)).isSome := by
    show (openFifo 7 .wronly true bootState).isSome
    obtain ⟨b, hn, -⟩ := newPipe_boot
    have hbase : newPipe bootState.base = (some (0, 1), b) := hn
    unfold openFifo allocate
    rw [findEntry_boot, hbase]
    rfl
  obtain ⟨s, hs⟩ := Option.isSome_iff_exists.1 hsome
  refine ⟨s, hs, fifos_stay_themselves bootState_boot (Run.step .init ?_ hs)⟩
  exact ⟨by decide, fun _ => rfl⟩

/-- A FIFO that is opened for reading first: nobody has its writing end, and the reader does not find the end of file. -/
theorem fifo_reader_never_ends : ¬ ∀ s₀ s : State, Boot s₀ → Run (fun _ _ => True) s₀ s → StaysItself s := by
  intro h
  obtain ⟨b, hn, hpipe, hcount, hwriters⟩ := newPipe_boot
  have hbase : newPipe bootState.base = (some (0, 1), b) := hn
  have hopen : ∃ s, openFifo 7 .rdonly true bootState = some s ∧
      s.opener = Function.update bootState.opener 0 (some ⟨some 7, .rdonly⟩) ∧ (s.base.descs 0).pipe = some 0 ∧
      s.base.pipes 0 = b.pipes 0 := by
    obtain ⟨t, hbaset, hopenert, hs⟩ : ∃ t : State, t.base = b ∧ t.opener = bootState.opener ∧
        openFifo 7 .rdonly true bootState = some (dropNoClose 1 (setOpener 0 ⟨some 7, .rdonly⟩ t)) := by
      unfold openFifo allocate
      rw [findEntry_boot, hbase]
      refine ⟨_, ?_, ?_, rfl⟩
      · unfold register
        split <;> rfl
      · unfold register
        split <;> rfl
    refine ⟨_, hs, congrArg (fun f => Function.update f 0 _) hopenert, ?_, congrFun (congrArg Pipes.State.pipes hbaset) 0⟩
    have hsame : (dropNoClose 1 (setOpener 0 ⟨some 7, .rdonly⟩ t)).base.descs 0 = t.base.descs 0 := rfl
    rw [hsame, hbaset]
    exact hpipe
  obtain ⟨s, hs, hopener, hdesc, hpipes⟩ := hopen
  have hstays := h bootState s bootState_boot (Run.step .init trivial (show bootState.step (.openFifo 7 .rdonly true) = _ from hs))
  have hmine : s.opener 0 = some ⟨some 7, .rdonly⟩ := by rw [hopener, Function.update_self]
  have heof := (hstays.ends 0 ⟨some 7, .rdonly⟩ 7 0 hmine rfl (by decide) hdesc 1 1 (by rw [hpipes]; exact hcount)).2
    (fun d' o' ho' hfifo => by
      rw [hopener] at ho'
      by_cases hd : d' = 0
      · rw [hd, Function.update_self] at ho'
        cases ho'
        rfl
      · rw [Function.update_of_ne hd] at ho'
        cases ho')
  rw [hpipes, pipeRead, if_pos hcount, if_neg (by rw [hwriters]; decide)] at heof
  cases heof

end Zigix.Fifo
