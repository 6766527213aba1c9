import Mathlib.Data.List.Basic
import Mathlib.Logic.Function.Basic
import Zigix.Mm.Pmm

/-!
# Sleepers and the timer (`timerTick`, `blockAndSchedule`, `wakeProcess` of `kernel/proc/scheduler.zig`)

A call that waits for a time sets `wake_tick`, moves `rip` back to the system-call instruction and blocks. Whatever else
wakes the process leaves `wake_tick` set; the timer, when it comes, zeroes `rax` of the saved context of whichever call
the process is in by then. The calls are `sysNanosleep` and `sysEpollWait`; the other calls that block, and what wakes
processes, are events of the run.

* `timer_touches_sleepers` : in a run of such steps every tick touches sleepers only and sleepers in `nanosleep` resume
  as they should; in any run a process that slept in `nanosleep` resumes at the system-call instruction;
* `nanosleep_resumes_as_read`, `stale_wake_tick` : how the two laws fail.
-/

namespace Zigix.TimerTick

open Pmm (addU64 mulU64)

inductive ProcessState
  | ready
  | running
  | blocked
  | blockedOnPipe
  | blockedOnWait
  | blockedOnFutex
  | blockedOnNet
  | stopped
  | zombie
deriving DecidableEq

/-- A register file; `others` are the registers besides `rip` and `rax`. -/
structure Context where
  rip : Nat
  rax : Nat
  others : Nat → Nat

/-- The call in which a process is blocked. `ret` is the address behind the system-call instruction. -/
inductive Call
  | nanosleep (ret : Nat)
  | timedEpollWait
  | other
deriving DecidableEq

structure Process where
  pid : Nat
  state : ProcessState
  context : Context
  vforkBlocked : Bool
  wakeTick : Nat
  /-- not in the source: the call in which the process was blocked when it last ran -/
  call : Option Call

structure Epoll where
  deadlineTick : Nat
  waitingPid : Nat

structure Kernel where
  procs : Nat → Option Process
  /-- `cpu.current_idx` -/
  cur : Option Nat
  /-- the process whose `blockAndSchedule` found nothing else to run -/
  idleIn : Option Nat
  /-- the interrupt frame -/
  frame : Context
  sliceRemaining : Nat
  dedicatedPid : Nat
  tick : Nat
  epolls : Nat → Epoll

def maxProcesses : Nat := 256

def timesliceTicks : Nat := 10

/-- `-EFAULT` in `rax`. -/
def efault : Nat := 2 ^ 64 - 14

def Kernel.setProc (k : Kernel) (i : Nat) (p : Process) : Kernel :=
  { k with procs := Function.update k.procs i (some p) }

@[simp] theorem Kernel.setProc_self (k : Kernel) (i : Nat) (p : Process) : (k.setProc i p).procs i = some p := by
  simp [Kernel.setProc]

theorem Kernel.setProc_of_ne (k : Kernel) {i j : Nat} (p : Process) (h : j ≠ i) : (k.setProc i p).procs j = k.procs j := by
  simp [Kernel.setProc, h]

def Kernel.setRax (k : Kernel) (v : Nat) : Kernel := { k with frame := { k.frame with rax := v } }

/-! ## The scheduler -/

/-- `pickNextUnlocked` : the first ready process behind the current one. -/
def pickNext (k : Kernel) : Option Nat :=
  (List.range maxProcesses).findSome? fun i =>
    let idx := (k.cur.getD 0 + (i + 1)) % maxProcesses
    match k.procs idx with
    | some p => if p.state = .ready then some idx else none
    | none => none

def switchTo (k : Kernel) (idx : Nat) : Kernel :=
  match k.procs idx with
  | none => k
  | some p =>
    { k.setProc idx { p with state := .running, call := none } with
      frame := p.context, cur := some idx, idleIn := none, sliceRemaining := timesliceTicks }

/-- `blockAndSchedule`, after the caller has set `state` and the frame. -/
def blockAndSchedule (k : Kernel) (state : ProcessState) (call : Call) : Kernel :=
  match k.cur with
  | none => k
  | some idx =>
    match k.procs idx with
    | none => k
    | some p =>
      let k := k.setProc idx { p with state := state, context := k.frame, call := some call }
      match pickNext k with
      | some next => switchTo k next
      | none => { k with cur := none, idleIn := some idx }

/-- What the loop of `timerTick` does with a process. -/
def wakeExpired (now : Nat) (p : Process) : Process :=
  if p.wakeTick > 0 ∧ now ≥ p.wakeTick then
    { p with
      wakeTick := 0
      context := { p.context with rax := 0 }
      state := if p.state = .blocked then .ready else p.state }
  else p

/-- The end of the time slice: another process runs, if one is ready. -/
def preempt (k : Kernel) : Kernel :=
  match k.cur with
  | none =>
    match pickNext k with
    | some next => switchTo k next
    | none => k
  | some idx =>
    match k.procs idx with
    | none => k
    | some old =>
      match pickNext k with
      | none => if old.state = .zombie then { k with cur := none } else k
      | some next =>
        if next = idx then k
        else
          let old := { old with context := k.frame, state := if old.state = .running then .ready else old.state }
          switchTo (k.setProc idx old) next

/-- `timerTick`. -/
def timerTick (k : Kernel) : Kernel :=
  let k := { k with tick := k.tick + 1 }
  let k := { k with procs := fun i => (k.procs i).map (wakeExpired k.tick) }
  let k := { k with sliceRemaining := k.sliceRemaining - 1 }
  if k.sliceRemaining > 0 then k
  else
    let k := { k with sliceRemaining := timesliceTicks }
    let dedicated := k.dedicatedPid ≠ 0 ∧ ((k.cur.bind k.procs).map Process.pid) = some k.dedicatedPid
    if dedicated then k else preempt k

/-- The states from which `wakeProcess` wakes. -/
def wakeable (st : ProcessState) : Bool :=
  st = .blockedOnPipe || st = .blockedOnWait || st = .blocked || st = .blockedOnFutex || st = .blockedOnNet

/-- `wakeProcess`, for the process in the slot `idx`. -/
def wakeProcess (k : Kernel) (idx : Nat) : Kernel :=
  match k.procs idx with
  | some p => if wakeable p.state then k.setProc idx { p with state := .ready } else k
  | none => k

/-- The end of a `vfork` child wakes its parent. -/
def wakeVforkParent (k : Kernel) (idx : Nat) : Kernel :=
  match k.procs idx with
  | some p => if p.vforkBlocked then k.setProc idx { p with vforkBlocked := false, state := .ready } else k
  | none => k

/-- `postSignal` with `SIGCONT` or `SIGKILL`. -/
def continueProcess (k : Kernel) (idx : Nat) : Kernel :=
  match k.procs idx with
  | some p => if p.state = .stopped then k.setProc idx { p with state := .ready } else k
  | none => k

/-! ## The calls -/

/-- `sysNanosleep`; `req` is the `timespec`, if it could be read. -/
def sysNanosleep (k : Kernel) (req : Option (Nat × Nat)) : Option Kernel :=
  match req, k.cur with
  | none, _ => some (k.setRax efault)
  | some _, none => some k
  | some (sec, nsec), some idx =>
    match k.procs idx with
    | none => some k
    | some p => do
      let ticks ← mulU64 sec 100
      let totalTicks ← addU64 ticks (nsec / 10000000)
      if totalTicks = 0 then some (k.setRax 0)
      else
        let wakeTick ← addU64 k.tick totalTicks
        let k := k.setProc idx { p with wakeTick := wakeTick }
        let ret := k.frame.rip
        if ret < 2 then none
        else
          let k := { k with frame := { k.frame with rip := ret - 2 } }
          some (blockAndSchedule k .blocked (.nanosleep ret))

/-- `sysEpollWait` behind the scan: `ready` descriptors are ready, and `copied` tells whether the events could be
copied. -/
def sysEpollWait (k : Kernel) (ep : Nat) (timeout : Int) (ready : Nat) (copied : Bool) : Option Kernel :=
  match k.cur with
  | none => some k
  | some idx =>
    match k.procs idx with
    | none => some k
    | some p =>
      let e := k.epolls ep
      if ready > 0 then
        if copied then
          some ({ k with epolls := Function.update k.epolls ep { e with deadlineTick := 0 } }.setRax ready)
        else some (k.setRax efault)
      else if timeout = 0 then some (k.setRax 0)
      else if e.deadlineTick ≠ 0 ∧ k.tick ≥ e.deadlineTick then
        some ({ k with epolls := Function.update k.epolls ep { e with deadlineTick := 0, waitingPid := 0 } }.setRax 0)
      else if k.frame.rip < 2 then none
      else do
        let deadline ← (if e.deadlineTick ≠ 0 then some e.deadlineTick
          else if timeout > 0 then addU64 k.tick ((timeout.toNat + 9) / 10)
          else some 0)
        let timed := deadline ≠ 0
        let k := if timed then k.setProc idx { p with wakeTick := deadline } else k
        let k := { k with
          epolls := Function.update k.epolls ep ⟨deadline, p.pid⟩
          frame := { k.frame with rip := k.frame.rip - 2 } }
        some (blockAndSchedule k .blocked (if timed then .timedEpollWait else .other))

/-- The frame moves back to the system-call instruction. -/
def rewind (k : Kernel) : Kernel := { k with frame := { k.frame with rip := k.frame.rip - 2 } }

inductive Event
  /-- the current process runs; the kernel changes registers of the frame -/
  | user (regs : Context)
  | timer
  /-- another interrupt, while the processor idles -/
  | interrupt
  | nanosleep (req : Option (Nat × Nat))
  | epollWait (ep : Nat) (timeout : Int) (ready : Nat) (copied : Bool)
  /-- a call that waits for a pipe, a child, a futex or the network -/
  | sleepOn (state : ProcessState)
  | vforkBlock
  | stop
  | exit
  | wake (idx : Nat)
  | wakeVfork (idx : Nat)
  | cont (idx : Nat)
  | clone (idx pid : Nat)
  | reap (idx : Nat)
  | setDedicated (pid : Nat)

/-- The current process ends, and another one runs. -/
def exitAndSchedule (k : Kernel) : Kernel :=
  match k.cur with
  | none => k
  | some idx =>
    match k.procs idx with
    | none => k
    | some p =>
      let k := k.setProc idx { p with state := .zombie }
      match pickNext k with
      | some next => switchTo k next
      | none => { k with cur := none, idleIn := none }

/-- An interrupt returns to the idle loop of `blockAndSchedule` or of `schedule`. -/
def idleTurn (k : Kernel) : Kernel :=
  if k.cur.isSome then k
  else
    let woken := match k.idleIn.bind k.procs with
      | some p => decide (p.state = .ready ∨ p.state = .running)
      | none => false
    match woken, k.idleIn, pickNext k with
    | true, some idx, _ => switchTo k idx
    | _, _, some next => switchTo k next
    | _, _, none => k

/-- `cloneFork` and `cloneThread`, as far as the slot of the child goes. -/
def clone (k : Kernel) (idx pid : Nat) : Kernel :=
  if k.cur.isSome ∧ (k.procs idx).isNone then
    (k.setProc idx ⟨pid, .ready, { k.frame with rax := 0 }, false, 0, none⟩).setRax pid
  else k

def waiting (st : ProcessState) : Bool :=
  st = .blockedOnPipe || st = .blockedOnWait || st = .blockedOnFutex || st = .blockedOnNet

/-- One event. `none` is a trap of checked arithmetic. -/
def step (k : Kernel) : Event → Option Kernel
  | .user regs => if k.cur.isSome then some { k with frame := regs } else some k
  | .timer => some (timerTick k)
  | .interrupt => some (idleTurn k)
  | .nanosleep req => sysNanosleep k req
  | .epollWait ep timeout ready copied => sysEpollWait k ep timeout ready copied
  | .sleepOn st => if waiting st then some (blockAndSchedule (rewind k) st .other) else some k
  | .vforkBlock =>
    match k.cur.bind fun idx => (k.procs idx).map fun p => (idx, p) with
    | some (idx, p) => some (blockAndSchedule (k.setProc idx { p with vforkBlocked := true }) .blocked .other)
    | none => some k
  | .stop => some (blockAndSchedule k .stopped .other)
  | .exit => some (exitAndSchedule k)
  | .wake idx => some (wakeProcess k idx)
  | .wakeVfork idx => some (wakeVforkParent k idx)
  | .cont idx => some (continueProcess k idx)
  | .clone idx pid => some (clone k idx pid)
  | .reap idx =>
    if ((k.procs idx).map Process.state) = some .zombie ∧ k.cur ≠ some idx then
      some { k with procs := Function.update k.procs idx none }
    else some k
  | .setDedicated pid => some { k with dedicatedPid := pid }

def run (k : Kernel) (es : List Event) : Option Kernel := es.foldlM step k

/-! ## The laws -/

/-- The process is blocked in a call that set `wake_tick`. -/
def Process.Sleeps (p : Process) : Prop :=
  p.state = .blocked ∧ ((∃ ret, p.call = some (.nanosleep ret)) ∨ p.call = some .timedEpollWait)

def TouchesSleepers (k : Kernel) : Prop :=
  ∀ i p, k.procs i = some p → ∀ now, (wakeExpired now p).context ≠ p.context → p.Sleeps

/-- A process that goes on after `nanosleep` does so behind the system-call instruction and with the result 0. -/
def ResumesAfterSleep (k k' : Kernel) : Prop :=
  ∀ i p ret, k.procs i = some p → p.call = some (.nanosleep ret) → k'.cur = some i →
    k'.frame.rip = ret ∧ k'.frame.rax = 0

structure Boot (k : Kernel) : Prop where
  procs : ∀ i p, k.procs i = some p → p.wakeTick = 0 ∧ p.call = none
  current : ∀ i p, k.cur = some i → k.procs i = some p → p.state ≠ .blocked

/-- The step lets no `nanosleep` sleep and wakes no process whose `wake_tick` is set. -/
def Calm (k : Kernel) : Event → Prop
  | .nanosleep (some (sec, nsec)) => sec * 100 + nsec / 10000000 = 0
  | .wake idx => ∀ p, k.procs idx = some p → p.wakeTick = 0
  | .wakeVfork idx => ∀ p, k.procs idx = some p → p.wakeTick = 0
  | _ => True

def CalmRun : Kernel → List Event → Prop
  | _, [] => True
  | k, e :: es => Calm k e ∧ ∀ k', step k e = some k' → CalmRun k' es

/-! ## What the steps do to the processes -/

/-- `P` of every process; the current one is neither blocked nor in a call. -/
structure Inv (P : Process → Prop) (k : Kernel) : Prop where
  procs : ∀ i p, k.procs i = some p → P p
  current : ∀ i p, k.cur = some i → k.procs i = some p → p.state ≠ .blocked ∧ p.call = none

/-- `P` survives what the steps do to a process, apart from a wake-up and `nanosleep`. -/
structure Kept (P : Process → Prop) : Prop where
  run : ∀ p, P p → p.state = .ready ∨ p.state = .running → P { p with state := .running, call := none }
  expire : ∀ p now, P p → P (wakeExpired now p)
  leave : ∀ p p', P p → p.state ≠ .blocked → p'.wakeTick = p.wakeTick → p'.call = none ∨ p'.call = some .other → P p'
  sleep : ∀ p c w, P p → P { p with wakeTick := w, state := .blocked, context := c, call := some .timedEpollWait }
  cont : ∀ p, P p → p.state = .stopped → P { p with state := .ready }
  new : ∀ pid c, P ⟨pid, .ready, c, false, 0, none⟩

section Steps
variable {P : Process → Prop} {k k' : Kernel} {idx : Nat} {p : Process}

theorem procs_setProc (h : ∀ i q, i ≠ idx → k.procs i = some q → P q) (hp : P p) :
    ∀ i q, (k.setProc idx p).procs i = some q → P q := by
  intro i q hq
  by_cases hi : i = idx
  · subst hi
    rw [Kernel.setProc_self] at hq
    cases hq
    exact hp
  · rw [Kernel.setProc_of_ne _ _ hi] at hq
    exact h i q hi hq

theorem pickNext_ready (h : pickNext k = some idx) : ∃ p, k.procs idx = some p ∧ p.state = .ready := by
  obtain ⟨i, -, hi⟩ := List.exists_of_findSome?_eq_some h
  dsimp only at hi
  split at hi
  · rename_i p hp
    split at hi
    · rename_i hready
      cases hi
      exact ⟨p, hp, hready⟩
    · cases hi
  · cases hi

theorem switchTo_inv (hk : Kept P) (h : ∀ i q, k.procs i = some q → P q) (hp : k.procs idx = some p)
    (hstate : p.state = .ready ∨ p.state = .running) : Inv P (switchTo k idx) := by
  unfold switchTo
  rw [hp]
  refine ⟨procs_setProc (fun i q _ hq => h i q hq) (hk.run p (h idx p hp) hstate), fun i q hcur hq => ?_⟩
  obtain rfl : idx = i := Option.some.inj hcur
  have hq := (Kernel.setProc_self k idx _).symm.trans hq
  cases hq
  exact ⟨by simp, rfl⟩

theorem pickNext_inv (hk : Kept P) (h : ∀ i q, k.procs i = some q → P q) (idle : Option Nat) :
    Inv P (match pickNext k with
      | some next => switchTo k next
      | none => { k with cur := none, idleIn := idle }) := by
  split
  · rename_i next hnext
    obtain ⟨p, hp, hready⟩ := pickNext_ready hnext
    exact switchTo_inv hk h hp (.inl hready)
  · exact ⟨h, fun _ _ hcur => by cases hcur⟩

theorem blockAndSchedule_inv {st : ProcessState} {call : Call} (hk : Kept P) (hcur : k.cur = some idx)
    (hp : k.procs idx = some p) (h : ∀ i q, i ≠ idx → k.procs i = some q → P q)
    (hnew : P { p with state := st, context := k.frame, call := some call }) :
    Inv P (blockAndSchedule k st call) := by
  unfold blockAndSchedule
  simp only [hcur, hp]
  exact pickNext_inv hk (procs_setProc h hnew) _

theorem Inv.congr (h : Inv P k) (hprocs : k'.procs = k.procs) (hcur : k'.cur = k.cur ∨ k'.cur = none) : Inv P k' := by
  refine ⟨fun i q hq => h.procs i q (hprocs ▸ hq), fun i q hi hq => ?_⟩
  obtain heq | hnone := hcur
  · exact h.current i q (heq ▸ hi) (hprocs ▸ hq)
  · rw [hnone] at hi
    cases hi

theorem Inv.block {st : ProcessState} (hk : Kept P) (h : Inv P k) : Inv P (blockAndSchedule k st .other) := by
  cases hcur : k.cur with
  | none =>
    unfold blockAndSchedule
    rw [hcur]
    exact h
  | some idx =>
    cases hp : k.procs idx with
    | none =>
      unfold blockAndSchedule
      rw [hcur]
      simp only
      rw [hp]
      exact h
    | some p =>
      refine blockAndSchedule_inv hk hcur hp (fun i q _ hq => h.procs i q hq) ?_
      exact hk.leave p _ (h.procs idx p hp) (h.current idx p hcur hp).1 rfl (.inr rfl)

theorem Inv.setProc (h : Inv P k) (hp : P p) (hcur : k.cur = some idx → p.state ≠ .blocked ∧ p.call = none) :
    Inv P (k.setProc idx p) := by
  refine ⟨procs_setProc (fun i q _ hq => h.procs i q hq) hp, fun i q hi hq => ?_⟩
  by_cases hidx : i = idx
  · subst hidx
    rw [Kernel.setProc_self] at hq
    cases hq
    exact hcur hi
  · rw [Kernel.setProc_of_ne _ _ hidx] at hq
    exact h.current i q hi hq

theorem preempt_inv (hk : Kept P) (h : Inv P k) : Inv P (preempt k) := by
  unfold preempt
  split
  · rename_i hcur
    split
    · rename_i next hnext
      obtain ⟨p, hp, hready⟩ := pickNext_ready hnext
      exact switchTo_inv hk h.procs hp (.inl hready)
    · exact h
  · rename_i idx hcur
    split
    · exact h
    · rename_i old hold
      split
      · split
        · exact h.congr rfl (.inr rfl)
        · exact h
      · rename_i next hnext
        split
        · exact h
        · rename_i hne
          obtain ⟨p, hp, hready⟩ := pickNext_ready hnext
          obtain ⟨hstate, hcall⟩ := h.current idx old hcur hold
          refine switchTo_inv (p := p) hk (procs_setProc (fun i q _ hq => h.procs i q hq) ?_) ?_ (.inl hready)
          · exact hk.leave old _ (h.procs idx old hold) hstate rfl (.inl hcall)
          · rw [Kernel.setProc_of_ne _ _ hne]
            exact hp

theorem wakeExpired_current {now : Nat} (h : p.state ≠ .blocked ∧ p.call = none) :
    (wakeExpired now p).state ≠ .blocked ∧ (wakeExpired now p).call = none := by
  unfold wakeExpired
  split
  · simp only [if_neg h.1]
    exact h
  · exact h

theorem timerTick_inv (hk : Kept P) (h : Inv P k) : Inv P (timerTick k) := by
  have hwoken : Inv P { k with tick := k.tick + 1, procs := fun i => (k.procs i).map (wakeExpired (k.tick + 1)) } := by
    refine ⟨fun i q hq => ?_, fun i q hcur hq => ?_⟩
    · obtain ⟨p, hp, rfl⟩ := Option.map_eq_some_iff.1 hq
      exact hk.expire p _ (h.procs i p hp)
    · obtain ⟨p, hp, rfl⟩ := Option.map_eq_some_iff.1 hq
      exact wakeExpired_current (h.current i p hcur hp)
  unfold timerTick
  dsimp only
  split
  · exact hwoken.congr rfl (.inl rfl)
  · split
    · exact hwoken.congr rfl (.inl rfl)
    · exact preempt_inv hk (hwoken.congr rfl (.inl rfl))

theorem idleTurn_inv (hk : Kept P) (h : Inv P k) : Inv P (idleTurn k) := by
  unfold idleTurn
  split
  · exact h
  · dsimp only
    split
    · rename_i idx hwoken hidle
      split at hwoken
      · rename_i p hp
        rw [hidle] at hp
        exact switchTo_inv hk h.procs hp (by simpa using hwoken)
      · cases hwoken
    · rename_i next hnext _
      obtain ⟨p, hp, hready⟩ := pickNext_ready hnext
      exact switchTo_inv hk h.procs hp (.inl hready)
    · exact h

theorem exitAndSchedule_inv (hk : Kept P) (h : Inv P k) : Inv P (exitAndSchedule k) := by
  unfold exitAndSchedule
  split
  · exact h
  · rename_i idx hcur
    split
    · exact h
    · rename_i p hp
      obtain ⟨hstate, hcall⟩ := h.current idx p hcur hp
      have hzombie : P { p with state := .zombie } := hk.leave p _ (h.procs idx p hp) hstate rfl (.inl hcall)
      exact pickNext_inv hk (procs_setProc (fun i q _ hq => h.procs i q hq) hzombie) _

theorem sysNanosleep_inv {req : Option (Nat × Nat)} (hk : Kept P) (h : Inv P k) (hstep : sysNanosleep k req = some k')
    (hsleep : ∀ sec nsec, req = some (sec, nsec) → sec * 100 + nsec / 10000000 ≠ 0 → ∀ p w c ret, P p → c.rip + 2 = ret →
      P { p with wakeTick := w, state := .blocked, context := c, call := some (.nanosleep ret) }) : Inv P k' := by
  unfold sysNanosleep at hstep
  split at hstep
  · cases hstep
    exact h.congr rfl (.inl rfl)
  · cases hstep
    exact h
  · rename_i sec nsec idx hcur
    split at hstep
    · cases hstep
      exact h
    · rename_i p hp
      obtain ⟨ticks, hticks, hstep⟩ := Option.bind_eq_some_iff.1 hstep
      obtain ⟨total, htotal, hstep⟩ := Option.bind_eq_some_iff.1 hstep
      have hvalue : total = sec * 100 + nsec / 10000000 := by
        unfold mulU64 at hticks
        unfold addU64 at htotal
        split at hticks <;> cases hticks
        split at htotal <;> cases htotal
        rfl
      split at hstep
      · cases hstep
        exact h.congr rfl (.inl rfl)
      · rename_i hne
        obtain ⟨w, -, hstep⟩ := Option.bind_eq_some_iff.1 hstep
        dsimp only at hstep
        split at hstep
        · cases hstep
        · rename_i hrip
          cases hstep
          have hrip : (k.frame.rip - 2) + 2 = k.frame.rip := Nat.sub_add_cancel (Nat.le_of_not_lt hrip)
          refine blockAndSchedule_inv (p := { p with wakeTick := w }) hk hcur (by simp) ?_ ?_
          · intro i q hi hq
            exact h.procs i q ((Kernel.setProc_of_ne k _ hi).symm.trans hq)
          · exact hsleep sec nsec rfl (hvalue ▸ hne) p w _ _ (h.procs idx p hp) hrip

theorem sysEpollWait_inv {ep ready : Nat} {timeout : Int} {copied : Bool} (hk : Kept P) (h : Inv P k)
    (hstep : sysEpollWait k ep timeout ready copied = some k') : Inv P k' := by
  unfold sysEpollWait at hstep
  split at hstep
  · cases hstep
    exact h
  · rename_i idx hcur
    split at hstep
    · cases hstep
      exact h
    · rename_i p hp
      dsimp only at hstep
      split at hstep
      · split at hstep <;> cases hstep <;> exact h.congr rfl (.inl rfl)
      split at hstep
      · cases hstep
        exact h.congr rfl (.inl rfl)
      split at hstep
      · cases hstep
        exact h.congr rfl (.inl rfl)
      split at hstep
      · cases hstep
      · obtain ⟨deadline, -, hstep⟩ := Option.bind_eq_some_iff.1 hstep
        cases hstep
        by_cases htimed : deadline = 0
        · -- without a deadline `wake_tick` is not touched
          simp only [htimed, ne_eq, not_true_eq_false, if_false]
          exact Inv.block hk (h.congr rfl (.inl rfl))
        · simp only [ne_eq, htimed, not_false_eq_true, if_true]
          refine blockAndSchedule_inv (p := { p with wakeTick := deadline }) hk hcur (by simp) ?_ ?_
          · intro i q hi hq
            exact h.procs i q ((Kernel.setProc_of_ne k _ hi).symm.trans hq)
          · exact hk.sleep p _ deadline (h.procs idx p hp)

theorem step_inv {e : Event} (hk : Kept P) (h : Inv P k) (hstep : step k e = some k')
    (hwake : ∀ idx, e = .wake idx ∨ e = .wakeVfork idx → ∀ p, k.procs idx = some p →
      ∀ b, P { p with state := .ready, vforkBlocked := b })
    (hsleep : ∀ sec nsec, e = .nanosleep (some (sec, nsec)) → sec * 100 + nsec / 10000000 ≠ 0 → ∀ p w c ret, P p →
      c.rip + 2 = ret → P { p with wakeTick := w, state := .blocked, context := c, call := some (.nanosleep ret) }) :
    Inv P k' := by
  cases e with
  | user regs =>
    simp only [step] at hstep
    split at hstep
    · cases hstep
      exact h.congr rfl (.inl rfl)
    · cases hstep
      exact h
  | timer =>
    cases hstep
    exact timerTick_inv hk h
  | interrupt =>
    cases hstep
    exact idleTurn_inv hk h
  | nanosleep req => exact sysNanosleep_inv hk h hstep fun sec nsec hreq => hsleep sec nsec (by rw [hreq])
  | epollWait ep timeout ready copied => exact sysEpollWait_inv hk h hstep
  | sleepOn st =>
    simp only [step] at hstep
    split at hstep
    · cases hstep
      exact Inv.block hk (h.congr rfl (.inl rfl))
    · cases hstep
      exact h
  | vforkBlock =>
    simp only [step] at hstep
    split at hstep
    · rename_i idx p hcur
      cases hstep
      obtain ⟨i, hi, hmap⟩ := Option.bind_eq_some_iff.1 hcur
      obtain ⟨q, hq, heq⟩ := Option.map_eq_some_iff.1 hmap
      cases heq
      obtain ⟨hstate, hcall⟩ := h.current idx p hi hq
      refine Inv.block hk (h.setProc ?_ fun _ => ⟨hstate, hcall⟩)
      exact hk.leave p _ (h.procs idx p hq) hstate rfl (.inl hcall)
    · cases hstep
      exact h
  | stop =>
    cases hstep
    exact Inv.block hk h
  | exit =>
    cases hstep
    exact exitAndSchedule_inv hk h
  | wake idx =>
    cases hstep
    unfold wakeProcess
    split
    · rename_i p hp
      split
      · refine h.setProc (hwake idx (.inl rfl) p hp p.vforkBlocked) fun hcur => ⟨by simp, (h.current idx p hcur hp).2⟩
      · exact h
    · exact h
  | wakeVfork idx =>
    cases hstep
    unfold wakeVforkParent
    split
    · rename_i p hp
      split
      · exact h.setProc (hwake idx (.inr rfl) p hp false) fun hcur => ⟨by simp, (h.current idx p hcur hp).2⟩
      · exact h
    · exact h
  | cont idx =>
    cases hstep
    unfold continueProcess
    split
    · rename_i p hp
      split
      · rename_i hstopped
        exact h.setProc (hk.cont p (h.procs idx p hp) hstopped) fun hcur => ⟨by simp, (h.current idx p hcur hp).2⟩
      · exact h
    · exact h
  | clone idx pid =>
    cases hstep
    unfold clone
    split
    · exact (h.setProc (hk.new pid _) fun _ => ⟨by simp, rfl⟩).congr rfl (.inl rfl)
    · exact h
  | reap idx =>
    simp only [step] at hstep
    split at hstep
    · cases hstep
      have hsub : ∀ i q, Function.update k.procs idx none i = some q → k.procs i = some q := by
        intro i q hq
        by_cases hi : i = idx
        · subst hi
          simp at hq
        · simpa [hi] using hq
      exact ⟨fun i q hq => h.procs i q (hsub i q hq), fun i q hcur hq => h.current i q hcur (hsub i q hq)⟩
    · cases hstep
      exact h
  | setDedicated pid =>
    cases hstep
    exact h.congr rfl (.inl rfl)

end Steps

/-! ## Who goes on, and where -/

/-- Whoever is on the processor was there before, or has the saved `rip`. -/
def Resumes (k k' : Kernel) : Prop :=
  ∀ i, k'.cur = some i → k.cur = some i ∨ ∃ q, k.procs i = some q ∧ k'.frame.rip = q.context.rip

section Resume
variable {k k' k₁ : Kernel} {idx : Nat}

theorem Resumes.of_cur (h : k'.cur = k.cur) : Resumes k k' := fun _ hi => .inl (h ▸ hi)

theorem switchTo_resumes {q : Process} (hq : k₁.procs idx = some q)
    (h : k.cur = some idx ∨ ∃ q', k.procs idx = some q' ∧ q.context.rip = q'.context.rip) :
    Resumes k (switchTo k₁ idx) := by
  intro i hi
  unfold switchTo at hi ⊢
  rw [hq] at hi ⊢
  obtain rfl : idx = i := Option.some.inj hi
  exact h

theorem pickNext_resumes {idle : Option Nat} (h : ∀ i q, k₁.procs i = some q →
      k.cur = some i ∨ ∃ q', k.procs i = some q' ∧ q.context.rip = q'.context.rip) :
    Resumes k (match pickNext k₁ with
      | some next => switchTo k₁ next
      | none => { k₁ with cur := none, idleIn := idle }) := by
  split
  · rename_i next hnext
    obtain ⟨q, hq, -⟩ := pickNext_ready hnext
    exact switchTo_resumes hq (h next q hq)
  · intro i hi
    cases hi

theorem setProc_same {p : Process} (hcur : k.cur = some idx) (hprocs : ∀ i, i ≠ idx → k₁.procs i = k.procs i) :
    ∀ i q, (k₁.setProc idx p).procs i = some q →
      k.cur = some i ∨ ∃ q', k.procs i = some q' ∧ q.context.rip = q'.context.rip := by
  intro i q hq
  by_cases hi : i = idx
  · exact .inl (hi ▸ hcur)
  · rw [Kernel.setProc_of_ne _ _ hi, hprocs i hi] at hq
    exact .inr ⟨q, hq, rfl⟩

theorem blockAndSchedule_resumes {st : ProcessState} {call : Call} (hcur : k₁.cur = k.cur)
    (hprocs : ∀ i, k.cur ≠ some i → k₁.procs i = k.procs i) : Resumes k (blockAndSchedule k₁ st call) := by
  unfold blockAndSchedule
  split
  · exact .of_cur hcur
  · rename_i idx hidx
    split
    · exact .of_cur hcur
    · have hk : k.cur = some idx := hcur ▸ hidx
      refine pickNext_resumes (setProc_same hk fun i hi => hprocs i ?_)
      rw [hk]
      exact fun heq => hi (Option.some.inj heq).symm

theorem preempt_resumes {k : Kernel} (hcur : k₁.cur = k.cur)
    (hprocs : ∀ i q, k₁.procs i = some q → ∃ q', k.procs i = some q' ∧ q.context.rip = q'.context.rip) :
    Resumes k (preempt k₁) := by
  unfold preempt
  split
  · split
    · rename_i next hnext
      obtain ⟨q, hq, -⟩ := pickNext_ready hnext
      exact switchTo_resumes hq (.inr (hprocs next q hq))
    · exact .of_cur hcur
  · rename_i idx hidx
    split
    · exact .of_cur hcur
    · split
      · split
        · intro i hi
          cases hi
        · exact .of_cur hcur
      · rename_i next hnext
        split
        · exact .of_cur hcur
        · rename_i hne
          obtain ⟨q, hq, -⟩ := pickNext_ready hnext
          exact switchTo_resumes ((Kernel.setProc_of_ne k₁ _ hne).trans hq) (.inr (hprocs next q hq))

theorem timerTick_resumes : Resumes k (timerTick k) := by
  unfold timerTick
  dsimp only
  split
  · exact .of_cur rfl
  · split
    · exact .of_cur rfl
    · refine preempt_resumes rfl fun i q hq => ?_
      obtain ⟨q', hq', rfl⟩ := Option.map_eq_some_iff.1 hq
      refine ⟨q', hq', ?_⟩
      unfold wakeExpired
      split <;> rfl

theorem idleTurn_resumes : Resumes k (idleTurn k) := by
  unfold idleTurn
  split
  · exact .of_cur rfl
  · dsimp only
    split
    · rename_i idx hwoken hidle
      split at hwoken
      · rename_i p hp
        rw [hidle] at hp
        exact switchTo_resumes hp (.inr ⟨p, hp, rfl⟩)
      · cases hwoken
    · rename_i next hnext _
      obtain ⟨q, hq, -⟩ := pickNext_ready hnext
      exact switchTo_resumes hq (.inr ⟨q, hq, rfl⟩)
    · exact .of_cur rfl

theorem sysNanosleep_resumes {req : Option (Nat × Nat)} (h : sysNanosleep k req = some k') : Resumes k k' := by
  unfold sysNanosleep at h
  split at h
  · cases h
    exact .of_cur rfl
  · cases h
    exact .of_cur rfl
  · rename_i sec nsec idx hcur
    split at h
    · cases h
      exact .of_cur rfl
    · obtain ⟨_, -, h⟩ := Option.bind_eq_some_iff.1 h
      obtain ⟨_, -, h⟩ := Option.bind_eq_some_iff.1 h
      split at h
      · cases h
        exact .of_cur rfl
      · obtain ⟨_, -, h⟩ := Option.bind_eq_some_iff.1 h
        dsimp only at h
        split at h
        · cases h
        · cases h
          refine blockAndSchedule_resumes rfl fun i hi => Kernel.setProc_of_ne k _ ?_
          rintro rfl
          exact hi hcur

theorem sysEpollWait_resumes {ep ready : Nat} {timeout : Int} {copied : Bool}
    (h : sysEpollWait k ep timeout ready copied = some k') : Resumes k k' := by
  unfold sysEpollWait at h
  split at h
  · cases h
    exact .of_cur rfl
  · rename_i idx hcur
    split at h
    · cases h
      exact .of_cur rfl
    · dsimp only at h
      split at h
      · split at h <;> cases h <;> exact .of_cur rfl
      split at h
      · cases h
        exact .of_cur rfl
      split at h
      · cases h
        exact .of_cur rfl
      split at h
      · cases h
      · obtain ⟨deadline, -, h⟩ := Option.bind_eq_some_iff.1 h
        cases h
        refine blockAndSchedule_resumes (by dsimp only; split <;> rfl) fun i hi => ?_
        dsimp only
        split
        · refine Kernel.setProc_of_ne k _ ?_
          rintro rfl
          exact hi hcur
        · rfl

theorem step_resumes {e : Event} (h : step k e = some k') : Resumes k k' := by
  cases e with
  | user regs =>
    simp only [step] at h
    split at h <;> cases h <;> exact .of_cur rfl
  | timer =>
    cases h
    exact timerTick_resumes
  | interrupt =>
    cases h
    exact idleTurn_resumes
  | nanosleep req => exact sysNanosleep_resumes h
  | epollWait ep timeout ready copied => exact sysEpollWait_resumes h
  | sleepOn st =>
    simp only [step] at h
    split at h
    · cases h
      exact blockAndSchedule_resumes rfl fun _ _ => rfl
    · cases h
      exact .of_cur rfl
  | vforkBlock =>
    simp only [step] at h
    split at h
    · rename_i idx p hcur
      cases h
      obtain ⟨i, hi, hmap⟩ := Option.bind_eq_some_iff.1 hcur
      obtain ⟨q, hq, heq⟩ := Option.map_eq_some_iff.1 hmap
      cases heq
      refine blockAndSchedule_resumes rfl fun j hj => Kernel.setProc_of_ne k _ ?_
      rintro rfl
      exact hj hi
    · cases h
      exact .of_cur rfl
  | stop =>
    cases h
    exact blockAndSchedule_resumes rfl fun _ _ => rfl
  | exit =>
    cases h
    unfold exitAndSchedule
    split
    · exact .of_cur rfl
    · rename_i idx hcur
      split
      · exact .of_cur rfl
      · exact pickNext_resumes (setProc_same hcur fun _ _ => rfl)
  | wake idx =>
    cases h
    unfold wakeProcess
    split
    · split <;> exact .of_cur rfl
    · exact .of_cur rfl
  | wakeVfork idx =>
    cases h
    unfold wakeVforkParent
    split
    · split <;> exact .of_cur rfl
    · exact .of_cur rfl
  | cont idx =>
    cases h
    unfold continueProcess
    split
    · split <;> exact .of_cur rfl
    · exact .of_cur rfl
  | clone idx pid =>
    cases h
    unfold clone
    split <;> exact .of_cur rfl
  | reap idx =>
    simp only [step] at h
    split at h <;> cases h <;> exact .of_cur rfl
  | setDedicated pid =>
    cases h
    exact .of_cur rfl

end Resume

/-! ## Whole runs -/

/-- A process asleep in `nanosleep` is saved at its system-call instruction. -/
def SavedAtCall (p : Process) : Prop := ∀ ret, p.call = some (.nanosleep ret) → p.context.rip + 2 = ret

/-- `wake_tick` is set in sleepers only, and no process sleeps in `nanosleep`. -/
def Quiet (p : Process) : Prop := (p.wakeTick ≠ 0 → p.Sleeps) ∧ ∀ ret, p.call ≠ some (.nanosleep ret)

theorem Quiet.wakeTick_eq_zero {p : Process} (h : Quiet p) (hstate : p.state ≠ .blocked) : p.wakeTick = 0 :=
  Decidable.byContradiction fun hne => hstate (h.1 hne).1

theorem wakeExpired_call (now : Nat) (p : Process) :
    (wakeExpired now p).call = p.call ∧ (wakeExpired now p).context.rip = p.context.rip := by
  unfold wakeExpired
  split <;> exact ⟨rfl, rfl⟩

theorem savedAtCall_kept : Kept SavedAtCall where
  run _ _ _ _ hcall := by cases hcall
  expire p now h ret hcall := by
    obtain ⟨hsame, hrip⟩ := wakeExpired_call now p
    rw [hrip]
    exact h ret (hsame ▸ hcall)
  leave _ _ _ _ _ hother ret hcall := by
    rw [hcall] at hother
    obtain hother | hother := hother <;> cases hother
  sleep _ _ _ _ _ hcall := by cases hcall
  cont _ h _ ret hcall := h ret hcall
  new _ _ _ hcall := by cases hcall

theorem quiet_kept : Kept Quiet where
  run p h hstate := by
    have hzero : p.wakeTick = 0 := h.wakeTick_eq_zero (by
      obtain hstate | hstate := hstate <;> rw [hstate] <;> decide)
    exact ⟨fun hne => absurd hzero hne, fun _ => by simp⟩
  expire p now h := by
    refine ⟨fun hne => ?_, fun ret => ?_⟩
    · unfold wakeExpired at hne ⊢
      split at hne
      · exact absurd rfl hne
      · rename_i hnot
        rw [if_neg hnot]
        exact h.1 hne
    · rw [(wakeExpired_call now p).1]
      exact h.2 ret
  leave p p' h hstate hwake hother := by
    refine ⟨fun hne => absurd (hwake.trans (h.wakeTick_eq_zero hstate)) hne, fun ret hcall => ?_⟩
    rw [hcall] at hother
    obtain hother | hother := hother <;> cases hother
  sleep _ _ _ _ := ⟨fun _ => ⟨rfl, .inr rfl⟩, fun _ => by simp⟩
  cont p h hstopped := by
    have hzero : p.wakeTick = 0 := h.wakeTick_eq_zero (by rw [hstopped]; decide)
    exact ⟨fun hne => absurd hzero hne, h.2⟩
  new _ _ := ⟨fun hne => absurd rfl hne, fun _ => by simp⟩

section Runs
variable {k₀ k k' : Kernel} {es : List Event} {e : Event}

theorem Boot.inv {P : Process → Prop} (h : Boot k₀) (hP : ∀ p : Process, p.wakeTick = 0 → p.call = none → P p) :
    Inv P k₀ where
  procs i p hp := hP p (h.procs i p hp).1 (h.procs i p hp).2
  current i p hcur hp := ⟨h.current i p hcur hp, (h.procs i p hp).2⟩

theorem savedAtCall_step (h : Inv SavedAtCall k) (hstep : step k e = some k') : Inv SavedAtCall k' := by
  refine step_inv savedAtCall_kept h hstep (fun idx _ p hp _ => h.procs idx p hp) ?_
  intro _ _ _ _ p w c ret _ hrip ret' hcall
  cases hcall
  exact hrip

theorem savedAtCall_run (h : Inv SavedAtCall k₀) (hrun : run k₀ es = some k) : Inv SavedAtCall k := by
  induction es generalizing k₀ with
  | nil =>
    cases hrun
    exact h
  | cons e es ih =>
    obtain ⟨k₁, hstep, hrest⟩ := Option.bind_eq_some_iff.1 hrun
    exact ih (savedAtCall_step h hstep) hrest

theorem quiet_step (h : Inv Quiet k) (hcalm : Calm k e) (hstep : step k e = some k') : Inv Quiet k' := by
  refine step_inv quiet_kept h hstep ?_ ?_
  · intro idx he p hp b
    have hzero : p.wakeTick = 0 := by
      obtain rfl | rfl := he
      · exact hcalm p hp
      · exact hcalm p hp
    exact ⟨fun hne => absurd hzero hne, (h.procs idx p hp).2⟩
  · intro sec nsec he hne
    subst he
    exact absurd hcalm hne

theorem quiet_run (h : Inv Quiet k₀) (hcalm : CalmRun k₀ es) (hrun : run k₀ es = some k) : Inv Quiet k := by
  induction es generalizing k₀ with
  | nil =>
    cases hrun
    exact h
  | cons e es ih =>
    obtain ⟨k₁, hstep, hrest⟩ := Option.bind_eq_some_iff.1 hrun
    exact ih (quiet_step h hcalm.1 hstep) (hcalm.2 k₁ hstep) hrest

/-- **In a run of calm steps the timer touches sleepers only, and whoever slept in `nanosleep` resumes behind its call.**
In any run whatsoever, a process that slept in `nanosleep` resumes at the system-call instruction instead. -/
theorem timer_touches_sleepers (k₀ : Kernel) (hboot : Boot k₀) (es : List Event) (k : Kernel) (hrun : run k₀ es = some k) :
    (CalmRun k₀ es → TouchesSleepers k ∧ ∀ e k', Calm k e → step k e = some k' → ResumesAfterSleep k k') ∧
    ∀ e k', step k e = some k' → ∀ i p ret, k.procs i = some p → p.call = some (.nanosleep ret) → k'.cur = some i →
      k'.frame.rip + 2 = ret := by
  refine ⟨fun hcalm => ?_, ?_⟩
  · have hinv : Inv Quiet k := quiet_run (hboot.inv fun p hzero hcall =>
      ⟨fun hne => absurd hzero hne, fun ret => by rw [hcall]; simp⟩) hcalm hrun
    refine ⟨fun i p hp now hchanged => ?_, fun e k' _ _ i p ret hp hcall => absurd hcall ((hinv.procs i p hp).2 ret)⟩
    refine (hinv.procs i p hp).1 fun hzero => hchanged ?_
    unfold wakeExpired
    rw [if_neg (by omega)]
  · intro e k' hstep i p ret hp hcall hcur
    have hinv : Inv SavedAtCall k := savedAtCall_run (hboot.inv fun p _ hnone ret hcall => by
      rw [hnone] at hcall
      cases hcall) hrun
    obtain hsame | ⟨q, hq, hrip⟩ := step_resumes hstep i hcur
    · -- the current process is in no call
      rw [(hinv.current i p hsame hp).2] at hcall
      cases hcall
    · rw [hp] at hq
      cases hq
      rw [hrip]
      exact hinv.procs i p hp ret hcall

end Runs

/-! ## One process -/

def oneProcess (nr : Nat) : Kernel where
  procs i := if i = 0 then some ⟨1, .running, ⟨0, 0, fun _ => 0⟩, false, 0, none⟩ else none
  cur := some 0
  idleIn := none
  frame := ⟨0x1002, nr, fun _ => 0⟩
  sliceRemaining := timesliceTicks
  dedicatedPid := 0
  tick := 0
  epolls _ := ⟨0, 0⟩

theorem oneProcess_boot (nr : Nat) : Boot (oneProcess nr) := by
  have hproc : ∀ i p, (oneProcess nr).procs i = some p → p.wakeTick = 0 ∧ p.call = none ∧ p.state ≠ .blocked := by
    intro i p hp
    simp only [oneProcess] at hp
    split at hp
    · cases hp
      exact ⟨rfl, rfl, by simp⟩
    · cases hp
  exact ⟨fun i p hp => ⟨(hproc i p hp).1, (hproc i p hp).2.1⟩, fun i p _ hp => (hproc i p hp).2.2⟩

/-- A timed `epoll_wait` that the timer ends. -/
theorem timer_touches_sleepers_epoll :
    ∃ k, run (oneProcess 232) [.epollWait 0 20 0 true, .timer] = some k ∧ TouchesSleepers k := by
  have hsome : (run (oneProcess 232) [.epollWait 0 20 0 true, .timer]).isSome := by decide +kernel
  obtain ⟨k, hk⟩ := Option.isSome_iff_exists.1 hsome
  refine ⟨k, hk, ((timer_touches_sleepers _ (oneProcess_boot 232) _ k hk).1 ?_).1⟩
  exact ⟨trivial, fun _ _ => ⟨trivial, fun _ _ => trivial⟩⟩

theorem nanosleep_resumes_as_read : ∃ k k', run (oneProcess 35) [.nanosleep (some (0, 10000000)), .timer] = some k ∧
    step k .interrupt = some k' ∧ (∃ p, k.procs 0 = some p ∧ p.call = some (.nanosleep 0x1002)) ∧ k'.cur = some 0 ∧
    k'.frame.rip = 0x1000 ∧ k'.frame.rax = 0 := by
  have hrun : (run (oneProcess 35) [.nanosleep (some (0, 10000000)), .timer]).map
      (fun k => ((k.procs 0).map Process.call, (idleTurn k).cur, (idleTurn k).frame.rip, (idleTurn k).frame.rax))
      = some (some (some (.nanosleep 0x1002)), some 0, 0x1000, 0) := by decide +kernel
  obtain ⟨k, hk, heq⟩ := Option.map_eq_some_iff.1 hrun
  simp only [Prod.mk.injEq] at heq
  obtain ⟨hcall, hcur, hrip, hrax⟩ := heq
  obtain ⟨p, hp, hcall⟩ := Option.map_eq_some_iff.1 hcall
  exact ⟨k, idleTurn k, hk, rfl, ⟨p, hp, hcall⟩, hcur, hrip, hrax⟩

theorem stale_wake_tick : ∃ k p, run (oneProcess 232) [.epollWait 0 20 0 true, .wake 0] = some k ∧ k.procs 0 = some p ∧
    p.state = .ready ∧ p.context.rax = 232 ∧ (wakeExpired 2 p).context.rax = 0 := by
  have hrun : (run (oneProcess 232) [.epollWait 0 20 0 true, .wake 0]).bind (fun k => (k.procs 0).map fun p =>
      (p.state, p.context.rax, (wakeExpired 2 p).context.rax)) = some (.ready, 232, 0) := by decide +kernel
  obtain ⟨k, hk, heq⟩ := Option.bind_eq_some_iff.1 hrun
  obtain ⟨p, hp, heq⟩ := Option.map_eq_some_iff.1 heq
  simp only [Prod.mk.injEq] at heq
  exact ⟨k, p, hk, hp, heq⟩

/-- Both laws fail in runs from a start without sleepers. -/
theorem timer_wakes_wrongly :
    (¬ ∀ k₀ es k, Boot k₀ → run k₀ es = some k → TouchesSleepers k) ∧
    ¬ ∀ k₀ es k e k', Boot k₀ → run k₀ es = some k → step k e = some k' → ResumesAfterSleep k k' := by
  refine ⟨fun h => ?_, fun h => ?_⟩
  · obtain ⟨k, p, hrun, hp, hstate, hrax, hzero⟩ := stale_wake_tick
    have hsleeps := h _ _ k (oneProcess_boot 232) hrun 0 p hp 2 (fun heq => by
      rw [heq, hrax] at hzero
      cases hzero)
    rw [Process.Sleeps, hstate] at hsleeps
    exact absurd hsleeps.1 (by decide)
  · obtain ⟨k, k', hrun, hstep, ⟨p, hp, hcall⟩, hcur, hrip, -⟩ := nanosleep_resumes_as_read
    have hresume := h _ _ k .interrupt k' (oneProcess_boot 35) hrun hstep 0 p 0x1002 hp hcall hcur
    rw [hrip] at hresume
    exact absurd hresume.1 (by decide)

end Zigix.TimerTick
