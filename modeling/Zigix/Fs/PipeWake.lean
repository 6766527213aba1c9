import Zigix.Fs.Pipe

/-!
# Sleeping on a pipe (`kernel/fs/pipe.zig`, `sysRead` and `sysWrite` of `kernel/proc/syscall.zig`)

A call that gets `EAGAIN` for its first bytes puts the process to sleep; the call is made again when it wakes up. The pipe
records one sleeper for each end.

* `sleepers_recorded` : this holds in every run in which no process goes to sleep, or finds nothing to do, at an end where
  another one sleeps.

A call of `pipeRead` or `pipeWrite` and the decision to sleep are one step.
-/

namespace Zigix.Pipes

inductive Status
  | ready
  | reading
  | writing
  deriving DecidableEq

structure Sys where
  pipe : Pipe
  status : Nat → Status

/-- `scheduler.wakeProcess`. -/
def wakeProcess (pid : Option Nat) (status : Nat → Status) : Nat → Status :=
  match pid with
  | none => status
  | some pid => Function.update status pid .ready

inductive Event
  /-- a part of `sysRead` for one page; `first` when nothing was read before -/
  | read (pid count : Nat) (first : Bool)
  | write (pid : Nat) (data : List (BitVec 8)) (first : Bool)
  | close (access : Access)
  | open (access : Access)
  /-- another subsystem wakes the process -/
  | wake (pid : Nat)

def Sys.step (s : Sys) : Event → Option Sys
  | .read pid count first =>
    if pid = 0 ∨ s.status pid ≠ .ready then none
    else
      let (res, pipe, woken) := pipeRead pid count s.pipe
      let status := wakeProcess woken s.status
      match res with
      | .again => some { pipe, status := if first then Function.update status pid .reading else status }
      | _ => some { pipe, status }
  | .write pid data first =>
    if pid = 0 ∨ s.status pid ≠ .ready then none
    else
      let (res, pipe, woken) := pipeWrite pid data s.pipe
      let status := wakeProcess woken s.status
      match res with
      | .again => some { pipe, status := if first then Function.update status pid .writing else status }
      | _ => some { pipe, status }
  | .close access =>
    let (pipe, woken) := pipeClose access s.pipe
    some { pipe, status := wakeProcess woken s.status }
  | .open access => (openPipe access s.pipe).map fun pipe => { s with pipe }
  | .wake pid => some { s with status := wakeProcess (some pid) s.status }

inductive Traces (Allowed : Sys → Event → Prop) (s₀ : Sys) : Sys → Prop
  | init : Traces Allowed s₀ s₀
  | step {s s' : Sys} {e : Event} : Traces Allowed s₀ s → Allowed s e → s.step e = some s' → Traces Allowed s₀ s'

def Alone (s : Sys) : Event → Prop
  | .read pid _ _ => s.pipe.count = 0 → s.pipe.writers ≠ 0 → ∀ other, s.status other = .reading → other = pid
  | .write pid _ _ => pipeBufSize ≤ s.pipe.count → s.pipe.readers ≠ 0 → ∀ other, s.status other = .writing → other = pid
  | _ => True

/-- Sleepers are recorded, and there is nothing for them to do. -/
structure Sys.Awaited (s : Sys) : Prop where
  reading : ∀ pid, s.status pid = .reading →
    pid ≠ 0 ∧ s.pipe.blockedReaderPid = pid ∧ s.pipe.count = 0 ∧ s.pipe.writers ≠ 0
  writing : ∀ pid, s.status pid = .writing →
    pid ≠ 0 ∧ s.pipe.blockedWriterPid = pid ∧ pipeBufSize ≤ s.pipe.count ∧ s.pipe.readers ≠ 0

section Steps
variable {s s' : Sys}

theorem wakeProcess_eq {status : Nat → Status} {other : Nat} {x : Status} (pid : Option Nat) (hx : x ≠ .ready)
    (h : wakeProcess pid status other = x) : status other = x ∧ pid ≠ some other := by
  cases pid with
  | none => exact ⟨h, nofun⟩
  | some pid =>
    by_cases heq : other = pid
    · rw [wakeProcess, heq, Function.update_self] at h
      exact absurd h.symm hx
    · rw [wakeProcess, Function.update_of_ne heq] at h
      exact ⟨h, fun hn => heq (Option.some.inj hn).symm⟩

theorem recorded_ne {pid other : Nat} (h : recorded pid ≠ some other) (hother : other ≠ 0) : pid ≠ other := by
  rintro rfl
  exact h (if_neg hother)

theorem Sys.Awaited.no_reader (h : s.Awaited) {pid : Nat}
    (hst : wakeProcess (recorded s.pipe.blockedReaderPid) s.status pid = .reading) : False := by
  obtain ⟨hst, hne⟩ := wakeProcess_eq _ (by decide) hst
  obtain ⟨hpid, hrec, -⟩ := h.reading pid hst
  exact recorded_ne hne hpid hrec

theorem Sys.Awaited.no_writer (h : s.Awaited) {pid : Nat}
    (hst : wakeProcess (recorded s.pipe.blockedWriterPid) s.status pid = .writing) : False := by
  obtain ⟨hst, hne⟩ := wakeProcess_eq _ (by decide) hst
  obtain ⟨hpid, hrec, -⟩ := h.writing pid hst
  exact recorded_ne hne hpid hrec

theorem status_again {status : Nat → Status} {pid other : Nat} {first : Bool} {x y : Status}
    (h : (if first then Function.update status pid x else status) other = y) :
    (other = pid ∧ y = x) ∨ status other = y := by
  cases first with
  | false => exact .inr h
  | true =>
    by_cases heq : other = pid
    · rw [if_pos rfl, heq, Function.update_self] at h
      exact .inl ⟨heq, h.symm⟩
    · rw [if_pos rfl, Function.update_of_ne heq] at h
      exact .inr h

theorem pipeBufSize_ne : ¬ pipeBufSize ≤ 0 := by decide

theorem Sys.Awaited.read (h : s.Awaited) {pid count : Nat} {first : Bool} (ha : Alone s (.read pid count first))
    (hs : s.step (.read pid count first) = some s') : s'.Awaited := by
  unfold Sys.step at hs
  obtain ⟨hok, hs⟩ := Option.ite_none_left_eq_some.1 hs
  have hpid : pid ≠ 0 ∧ s.status pid = .ready := by simpa [not_or] using hok
  rcases pipeRead_cases s.pipe pid count with ⟨-, -, heq⟩ | ⟨hempty, hwriters, heq⟩ | ⟨hne, toCopy, -, heq⟩
  · simp only [heq] at hs
    obtain rfl := Option.some.inj hs
    exact h
  · -- the process goes to sleep, or at least is recorded
    simp only [heq] at hs
    obtain rfl := Option.some.inj hs
    refine ⟨fun other hother => ?_, fun other hother => ?_⟩
    · rcases status_again hother with ⟨rfl, -⟩ | hst
      · exact ⟨hpid.1, rfl, hempty, hwriters⟩
      · have hst : s.status other = .reading := hst
        obtain rfl := ha hempty hwriters other hst
        rw [hpid.2] at hst
        cases hst
    · rcases status_again hother with ⟨-, hx⟩ | hother
      · cases hx
      · obtain ⟨-, -, hfull, -⟩ := h.writing other hother
        rw [hempty] at hfull
        exact absurd hfull pipeBufSize_ne
  · -- there is space now, and the sleeping writer wakes up
    simp only [heq] at hs
    obtain rfl := Option.some.inj hs
    refine ⟨fun other hother => ?_, fun other hother => (h.no_writer hother).elim⟩
    obtain ⟨hother, -⟩ := wakeProcess_eq _ (by decide) hother
    exact absurd (h.reading other hother).2.2.1 hne

theorem Sys.Awaited.write (h : s.Awaited) {pid : Nat} {data : List (BitVec 8)} {first : Bool}
    (ha : Alone s (.write pid data first)) (hs : s.step (.write pid data first) = some s') : s'.Awaited := by
  unfold Sys.step at hs
  obtain ⟨hok, hs⟩ := Option.ite_none_left_eq_some.1 hs
  have hpid : pid ≠ 0 ∧ s.status pid = .ready := by simpa [not_or] using hok
  rcases pipeWrite_cases s.pipe pid data with ⟨-, heq⟩ | ⟨hreaders, hfull, heq⟩ | ⟨-, hspace, toCopy, -, -, heq⟩
  · simp only [heq] at hs
    obtain rfl := Option.some.inj hs
    exact h
  · simp only [heq] at hs
    obtain rfl := Option.some.inj hs
    refine ⟨fun other hother => ?_, fun other hother => ?_⟩
    · rcases status_again hother with ⟨-, hx⟩ | hother
      · cases hx
      · obtain ⟨-, -, hempty, -⟩ := h.reading other hother
        rw [hempty] at hfull
        exact absurd hfull pipeBufSize_ne
    · rcases status_again hother with ⟨rfl, -⟩ | hst
      · exact ⟨hpid.1, rfl, hfull, hreaders⟩
      · have hst : s.status other = .writing := hst
        obtain rfl := ha hfull hreaders other hst
        rw [hpid.2] at hst
        cases hst
  · -- there are bytes now, and the sleeping reader wakes up
    simp only [heq] at hs
    obtain rfl := Option.some.inj hs
    refine ⟨fun other hother => (h.no_reader hother).elim, fun other hother => ?_⟩
    obtain ⟨hother, -⟩ := wakeProcess_eq _ (by decide) hother
    exact absurd (h.writing other hother).2.2.1 (by omega)

theorem Sys.Awaited.freed {p : Pipe} {status : Nat → Status} (h : Sys.Awaited { pipe := p, status }) :
    Sys.Awaited { pipe := if p.readers = 0 ∧ p.writers = 0 then { p with inUse := false } else p, status } := by
  split
  · exact ⟨h.reading, h.writing⟩
  · exact h

theorem Sys.Awaited.close (h : s.Awaited) (access : Access) (hs : s.step (.close access) = some s') : s'.Awaited := by
  obtain rfl := Option.some.inj hs
  cases access with
  | rdonly =>
    refine Sys.Awaited.freed ⟨fun pid hst => ?_, fun pid hst => (h.no_writer hst).elim⟩
    exact h.reading pid (wakeProcess_eq _ (by decide) hst).1
  | wronly =>
    refine Sys.Awaited.freed ⟨fun pid hst => (h.no_reader hst).elim, fun pid hst => ?_⟩
    exact h.writing pid (wakeProcess_eq _ (by decide) hst).1
  | rdwr => exact h.freed

theorem Sys.Awaited.open (h : s.Awaited) (access : Access) (hs : s.step (.open access) = some s') : s'.Awaited := by
  obtain ⟨p, hp, rfl⟩ := Option.map_eq_some_iff.1 hs
  cases access with
  | wronly =>
    obtain ⟨-, heq⟩ := Option.ite_none_right_eq_some.1 hp
    obtain rfl := Option.some.inj heq
    refine ⟨fun pid hst => ?_, h.writing⟩
    obtain ⟨hpid, hrec, hempty, -⟩ := h.reading pid hst
    exact ⟨hpid, hrec, hempty, Nat.succ_ne_zero _⟩
  | rdonly =>
    obtain ⟨-, heq⟩ := Option.ite_none_right_eq_some.1 hp
    obtain rfl := Option.some.inj heq
    refine ⟨h.reading, fun pid hst => ?_⟩
    obtain ⟨hpid, hrec, hfull, -⟩ := h.writing pid hst
    exact ⟨hpid, hrec, hfull, Nat.succ_ne_zero _⟩
  | rdwr =>
    obtain ⟨-, heq⟩ := Option.ite_none_right_eq_some.1 hp
    obtain rfl := Option.some.inj heq
    refine ⟨h.reading, fun pid hst => ?_⟩
    obtain ⟨hpid, hrec, hfull, -⟩ := h.writing pid hst
    exact ⟨hpid, hrec, hfull, Nat.succ_ne_zero _⟩

theorem Sys.Awaited.step (h : s.Awaited) {e : Event} (ha : Alone s e) (hs : s.step e = some s') : s'.Awaited := by
  cases e with
  | read pid count first => exact h.read ha hs
  | write pid data first => exact h.write ha hs
  | close access => exact h.close access hs
  | «open» access => exact h.open access hs
  | wake pid =>
    obtain rfl := Option.some.inj hs
    refine ⟨fun other hst => ?_, fun other hst => ?_⟩
    · exact h.reading other (wakeProcess_eq (some pid) (by decide) hst).1
    · exact h.writing other (wakeProcess_eq (some pid) (by decide) hst).1

/-- **No wake-up is lost** as long as every end has one sleeper at most: a process that sleeps is recorded, and when there
are bytes or the end of file for a reader, space or no reader left for a writer, none of them sleeps. -/
theorem sleepers_recorded {s₀ : Sys} (h₀ : ∀ pid, s₀.status pid = .ready) (hrun : Traces Alone s₀ s) :
    (∀ pid, s.status pid = .reading → s.pipe.blockedReaderPid = pid) ∧
      (∀ pid, s.status pid = .writing → s.pipe.blockedWriterPid = pid) ∧
      (s.pipe.count ≠ 0 ∨ s.pipe.writers = 0 → ∀ pid, s.status pid ≠ .reading) ∧
      (s.pipe.count < pipeBufSize ∨ s.pipe.readers = 0 → ∀ pid, s.status pid ≠ .writing) := by
  have h : s.Awaited := by
    induction hrun with
    | init =>
      refine ⟨fun pid hst => ?_, fun pid hst => ?_⟩
      · rw [h₀ pid] at hst
        cases hst
      · rw [h₀ pid] at hst
        cases hst
    | step _ ha hs ih => exact ih.step ha hs
  refine ⟨fun pid hst => (h.reading pid hst).2.1, fun pid hst => (h.writing pid hst).2.1, fun hready pid hst => ?_,
    fun hready pid hst => ?_⟩
  · obtain ⟨-, -, hempty, hwriters⟩ := h.reading pid hst
    exact hready.elim (fun hne => hne hempty) hwriters
  · obtain ⟨-, -, hfull, hreaders⟩ := h.writing pid hst
    exact hready.elim (fun hlt => by omega) hreaders

end Steps

/-! ### Two readers -/

section TwoReaders

def Sys.runEvents (s : Sys) : List Event → Option Sys
  | [] => some s
  | e :: es => (s.step e).bind fun s' => s'.runEvents es

theorem traces_of_runEvents {Allowed : Sys → Event → Prop} {s₀ s s' : Sys} {es : List Event} (hall : ∀ s, ∀ e ∈ es, Allowed s e)
    (hrun : Traces Allowed s₀ s) (h : s.runEvents es = some s') : Traces Allowed s₀ s' := by
  induction es generalizing s with
  | nil =>
    obtain rfl := Option.some.inj h
    exact hrun
  | cons e es ih =>
    obtain ⟨s₁, hs, h⟩ := Option.bind_eq_some_iff.1 h
    exact ih (fun s e he => hall s e (List.mem_cons_of_mem _ he)) (hrun.step (hall s e List.mem_cons_self) hs) h

def newSys : Sys where
  pipe := createPipe
    { buffer := fun _ => 0, readPos := 0, writePos := 0, count := 0, readers := 0, writers := 0, blockedReaderPid := 0
      blockedWriterPid := 0, inUse := false }
  status := fun _ => .ready

/-- Processes 1 and 2 sleep reading; a write of one byte wakes process 2 only, and process 1 sleeps on, recorded nowhere,
while there is a byte to read. -/
theorem second_reader_hides_first :
    ∃ s, Traces (fun _ _ => True) newSys s ∧ s.pipe.count = 1 ∧ s.status 1 = .reading ∧ s.pipe.blockedReaderPid ≠ 1 := by
  have hrun : (newSys.runEvents [.read 1 1 true, .read 2 1 true, .write 3 [7] true]).map (fun s =>
      (s.pipe.count, s.status 1, s.pipe.blockedReaderPid)) = some (1, .reading, 0) := by decide +kernel
  obtain ⟨s, hops, hval⟩ := Option.map_eq_some_iff.1 hrun
  simp only [Prod.mk.injEq] at hval
  obtain ⟨hcount, hst, hrec⟩ := hval
  refine ⟨s, traces_of_runEvents (fun _ _ _ => trivial) .init hops, hcount, hst, ?_⟩
  rw [hrec]
  decide

/-- With one reader, a write wakes it. -/
theorem sleepers_recorded_one :
    ∃ s s' : Sys, s.status 1 = .reading ∧ s.pipe.blockedReaderPid = 1 ∧ s.step (.write 3 [7] true) = some s' ∧
      s'.pipe.count = 1 ∧ ∀ pid, s'.status pid ≠ .reading := by
  have hrun : (newSys.step (.read 1 1 true)).bind (fun s => (s.step (.write 3 [7] true)).map fun s' =>
      (s.status 1, s.pipe.count, s'.pipe.count)) = some (.reading, 0, 1) := by decide +kernel
  obtain ⟨s, hs, hval⟩ := Option.bind_eq_some_iff.1 hrun
  obtain ⟨s', hs', hval⟩ := Option.map_eq_some_iff.1 hval
  simp only [Prod.mk.injEq] at hval
  obtain ⟨hst, hempty, hcount⟩ := hval
  have hready : ∀ pid, newSys.status pid = .ready := fun _ => rfl
  have hfirst : Alone newSys (.read 1 1 true) := by
    intro _ _ other hother
    rw [hready other] at hother
    cases hother
  have hone : Traces Alone newSys s := Traces.init.step hfirst hs
  have hfull : ¬ pipeBufSize ≤ s.pipe.count := by
    rw [hempty]
    exact pipeBufSize_ne
  have hsecond : Alone s (.write 3 [7] true) := fun hle => absurd hle hfull
  have htwo : Traces Alone newSys s' := hone.step hsecond hs'
  obtain ⟨hrec, -⟩ := sleepers_recorded hready hone
  obtain ⟨-, -, hawake, -⟩ := sleepers_recorded hready htwo
  exact ⟨s, s', hst, hrec 1 hst, hs', hcount, hawake (.inl (by rw [hcount]; decide))⟩

end TwoReaders

end Zigix.Pipes
