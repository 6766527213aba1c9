import Zigix.Proc.Signal

/-!
# The signal mask (`kernel/proc/signal.zig`)

* `postSignal`, `sysRtSigaction`, `sysRtSigprocmask` : the other operations on the signal state of a process;
* `Op`, `Task.step`, `Run` : any sequence of them, with user code in between;
* `unmaskable` : `SIGKILL` and `SIGSTOP` stay unmasked as long as no handler is entered whose action mask holds them.

A handler is entered with the mask of its action, which `sysRtSigaction` takes as user code gives it.
-/

namespace Zigix.Signal

open Bytes
open Vmm
open Zigix.CopyOut (writeToUserStack)

/-! ## The system calls -/

inductive Life
  | running
  | stopped
  | zombie
  deriving DecidableEq

structure Task where
  p : Process
  life : Life
  frame : InterruptFrame
  st : SignalState
  m : Machine

def sigcont : Fin 64 := 18

def sigtstp : Fin 64 := 20

def postSignal (sig : Fin 64) (t : Task) : Task :=
  if sig = 0 then t
  else
    let pending := t.st.sigPending ||| bit sig
    if sig = sigcont ∧ t.life = .stopped then
      { t with life := .running, st := { t.st with sigPending := pending &&& ~~~bit sigstop &&& ~~~bit sigtstp } }
    else if sig = sigkill ∧ t.life = .stopped then
      { t with life := .running, st := { t.st with sigPending := pending } }
    else { t with st := { t.st with sigPending := pending } }

def einval : Word := -22#64

def efault : Word := -14#64

/-- The result of a system call. -/
def InterruptFrame.ret (frame : InterruptFrame) (rax : Word) : InterruptFrame :=
  { frame with reg := Function.update frame.reg .rax rax }

/-- `struct sigaction`: handler, flags, restorer, mask. -/
def actionBytes (action : SignalAction) : List (BitVec 8) :=
  let b := putLE (fun _ => 0) 0 8 action.handler.toNat
  let b := putLE b 8 8 action.flags.toNat
  let b := putLE b 16 8 action.restorer.toNat
  (List.range 32).map (putLE b 24 8 action.mask.toNat)

def readAction (bytes : List (BitVec 8)) : SignalAction :=
  let b : Buf := fun i => bytes.getD i 0
  { handler := readU64LE b 0, flags := readU64LE b 8, restorer := readU64LE b 16, mask := readU64LE b 24 }

/-- The old value goes to user memory, if the caller asks for it. -/
def putOld (p : Process) (addr : Word) (bytes : List (BitVec 8)) (m : Machine) : Option (Bool × Machine) :=
  if addr = 0 then some (true, m) else writeToUserStack p addr.toNat bytes m

def setAction (st : SignalState) (sig : Fin 64) (action : SignalAction) : SignalState :=
  { st with sigActions := Function.update st.sigActions sig action }

def sysRtSigaction (t : Task) : Option Task :=
  let sigNum := (t.frame.reg .rdi).toNat
  let actAddr := t.frame.reg .rsi
  if hsig : sigNum = 0 ∨ 64 ≤ sigNum then some { t with frame := t.frame.ret einval }
  else
    let sig : Fin 64 := ⟨sigNum, by omega⟩
    if sig = sigkill ∨ sig = sigstop then some { t with frame := t.frame.ret einval }
    else do
      let (ok, m) ← putOld t.p (t.frame.reg .rdx) (actionBytes (t.st.sigActions sig)) t.m
      if !ok then return { t with frame := t.frame.ret efault, m }
      if actAddr = 0 then return { t with frame := t.frame.ret 0, m }
      match ← readFromUserStack m t.p.pageTable actAddr.toNat 32 with
      | none => return { t with frame := t.frame.ret efault, m }
      | some bytes => return { t with frame := t.frame.ret 0, m, st := setAction t.st sig (readAction bytes) }

/-- `SIG_BLOCK`, `SIG_UNBLOCK`, `SIG_SETMASK`. -/
def applyHow (how : Nat) (mask set : Word) : Option Word :=
  match how with
  | 0 => some (mask ||| set)
  | 1 => some (mask &&& ~~~set)
  | 2 => some set
  | _ => none

def sysRtSigprocmask (t : Task) : Option Task := do
  let setAddr := t.frame.reg .rsi
  let old := (List.range 8).map (putLE (fun _ => 0) 0 8 t.st.sigMask.toNat)
  let (ok, m) ← putOld t.p (t.frame.reg .rdx) old t.m
  if !ok then return { t with frame := t.frame.ret efault, m }
  if setAddr = 0 then return { t with frame := t.frame.ret 0, m }
  match ← readFromUserStack m t.p.pageTable setAddr.toNat 8 with
  | none => return { t with frame := t.frame.ret efault, m }
  | some bytes =>
    match applyHow (t.frame.reg .rdi).toNat t.st.sigMask (readU64LE (fun i => bytes.getD i 0) 0) with
    | none => return { t with frame := t.frame.ret einval, m }
    | some mask =>
      -- neither of the two can be blocked
      let mask := mask &&& ~~~bit sigkill &&& ~~~bit sigstop
      return { t with frame := t.frame.ret 0, m, st := { t.st with sigMask := mask } }

/-! ## Runs -/

inductive Op
  | rtSigaction
  | rtSigprocmask
  | postSignal (sig : Fin 64)
  | checkAndDeliver
  | rtSigreturn
  /-- user code, and whatever else the kernel does, with any registers and any memory -/
  | user (p : Process) (frame : InterruptFrame) (m : Machine)

def Task.deliver (t : Task) : Delivery → Task
  | .resumes frame st m => { t with frame, st, m }
  | .terminated _ => { t with life := .zombie }
  | .stopped sig => { t with life := .stopped, st := { t.st with sigPending := t.st.sigPending &&& ~~~bit sig } }

def Task.step (t : Task) : Op → Option Task
  | .postSignal sig => some (Signal.postSignal sig t)
  | .rtSigaction => if t.life = .running then sysRtSigaction t else none
  | .rtSigprocmask => if t.life = .running then sysRtSigprocmask t else none
  | .checkAndDeliver =>
    if t.life = .running then (Signal.checkAndDeliver t.p t.frame t.st t.m).map t.deliver else none
  | .rtSigreturn =>
    if t.life = .running then
      (sysRtSigreturn t.p t.frame t.st t.m).map fun r => { t with frame := r.1, st := r.2 }
    else none
  | .user p frame m => if t.life = .running then some { t with p, frame, m } else none

inductive Run (Allowed : Task → Op → Prop) (t₀ : Task) : Task → Prop
  | init : Run Allowed t₀ t₀
  | step {t t' : Task} {op : Op} : Run Allowed t₀ t → Allowed t op → t.step op = some t' → Run Allowed t₀ t'

/-- Neither `SIGKILL` nor `SIGSTOP` is in the mask. -/
def Unmasked (mask : Word) : Prop := mask.getLsbD sigkill = false ∧ mask.getLsbD sigstop = false

instance (mask : Word) : Decidable (Unmasked mask) := inferInstanceAs (Decidable (_ ∧ _))

/-- No handler is entered whose action mask holds `SIGKILL` or `SIGSTOP`. -/
def Careful (t : Task) : Op → Prop
  | .checkAndDeliver => ∀ sig, deliverable t.st = some sig → UserHandler (t.st.sigActions sig) →
    Unmasked (t.st.sigActions sig).mask
  | _ => True

/-- No pending signal before `SIGKILL` has a handler or is ignored. -/
def KillFirst (st : SignalState) : Prop :=
  ∀ sig, sig < sigkill → (st.sigPending &&& ~~~st.sigMask).getLsbD sig = true → (st.sigActions sig).handler = 0

/-! ## The mask -/

section Mask
variable {t t' : Task} {mask : Word}

theorem unmasked_clear (mask : Word) : Unmasked (mask &&& ~~~bit sigkill &&& ~~~bit sigstop) := by
  unfold Unmasked
  simp only [BitVec.getLsbD_and, BitVec.getLsbD_not, getLsbD_bit]
  simp

theorem Unmasked.enter {sig : Fin 64} {set : Word} (h : Unmasked mask) (hkill : sig ≠ sigkill) (hstop : sig ≠ sigstop)
    (hset : Unmasked set) : Unmasked (mask ||| bit sig ||| set) := by
  unfold Unmasked
  simp only [BitVec.getLsbD_or, getLsbD_bit]
  rw [h.1, h.2, hset.1, hset.2, decide_eq_false hkill.symm, decide_eq_false hstop.symm]
  exact ⟨rfl, rfl⟩

theorem checkAndDeliver_mask {p : Process} {frame frame' : InterruptFrame} {st st' : SignalState} {m m' : Machine}
    (h : checkAndDeliver p frame st m = some (.resumes frame' st' m')) :
    st'.sigMask = st.sigMask ∨ ∃ sig, deliverable st = some sig ∧ sig ≠ sigkill ∧ sig ≠ sigstop ∧
      UserHandler (st.sigActions sig) ∧ st'.sigMask = st.sigMask ||| bit sig ||| (st.sigActions sig).mask := by
  by_cases hcs : frame.cs &&& 3#64 = 0
  · rw [checkAndDeliver, if_pos hcs] at h
    cases h
    exact .inl rfl
  · have hfold := h
    rw [checkAndDeliver, if_neg hcs] at h
    split at h
    · cases h
    · split at h
      · cases h
        exact .inl rfl
      · next sig hsig =>
        simp only at h
        split at h
        · cases h
        · next hkill =>
          split at h
          · cases h
          · next hstop =>
            split at h
            · cases h
              exact .inl rfl
            · next hign =>
              split at h
              · -- the default actions
                split at h
                · cases h
                  exact .inl rfl
                · split at h
                  · cases h
                  · cases h
              · next hdfl =>
                have hh : UserHandler (st.sigActions sig) := ⟨hdfl, hign⟩
                have hmask := deliverToHandler_mask (checkAndDeliver_handler hcs hsig hh hfold)
                exact .inr ⟨sig, hsig, hkill, hstop, hh, hmask⟩

theorem sysRtSigaction_mask (h : sysRtSigaction t = some t') : t'.st.sigMask = t.st.sigMask := by
  unfold sysRtSigaction at h
  simp only at h
  split at h
  · cases h
    rfl
  · split at h
    · cases h
      rfl
    · obtain ⟨⟨ok, m⟩, -, h⟩ := Option.bind_eq_some_iff.1 h
      simp only at h
      split at h
      · cases h
        rfl
      · split at h
        · cases h
          rfl
        · obtain ⟨bytes, -, h⟩ := Option.bind_eq_some_iff.1 h
          split at h
          · cases h
            rfl
          · cases h
            rfl

theorem sysRtSigprocmask_mask (h : sysRtSigprocmask t = some t') :
    t'.st.sigMask = t.st.sigMask ∨ Unmasked t'.st.sigMask := by
  unfold sysRtSigprocmask at h
  obtain ⟨⟨ok, m⟩, -, h⟩ := Option.bind_eq_some_iff.1 h
  simp only at h
  split at h
  · cases h
    exact .inl rfl
  · split at h
    · cases h
      exact .inl rfl
    · obtain ⟨bytes, -, h⟩ := Option.bind_eq_some_iff.1 h
      split at h
      · cases h
        exact .inl rfl
      · split at h
        · cases h
          exact .inl rfl
        · cases h
          exact .inr (unmasked_clear _)

theorem postSignal_mask (sig : Fin 64) (t : Task) : (postSignal sig t).st.sigMask = t.st.sigMask := by
  unfold postSignal
  split
  · rfl
  · simp only
    split
    · rfl
    · split
      · rfl
      · rfl

theorem Unmasked.step {op : Op} (h : Unmasked t.st.sigMask) (ha : Careful t op) (hs : t.step op = some t') :
    Unmasked t'.st.sigMask := by
  cases op with
  | postSignal sig =>
    cases hs
    rw [postSignal_mask]
    exact h
  | rtSigaction =>
    obtain ⟨-, hs⟩ := Option.ite_none_right_eq_some.1 hs
    rw [sysRtSigaction_mask hs]
    exact h
  | rtSigprocmask =>
    obtain ⟨-, hs⟩ := Option.ite_none_right_eq_some.1 hs
    rcases sysRtSigprocmask_mask hs with heq | hclear
    · rw [heq]
      exact h
    · exact hclear
  | checkAndDeliver =>
    obtain ⟨-, hs⟩ := Option.ite_none_right_eq_some.1 hs
    obtain ⟨d, hd, rfl⟩ := Option.map_eq_some_iff.1 hs
    cases d with
    | resumes frame st m =>
      show Unmasked st.sigMask
      rcases checkAndDeliver_mask hd with heq | ⟨sig, hsig, hkill, hstop, hh, heq⟩
      · rw [heq]
        exact h
      · rw [heq]
        exact h.enter hkill hstop (ha sig hsig hh)
    | terminated sig => exact h
    | stopped sig => exact h
  | rtSigreturn =>
    obtain ⟨-, hs⟩ := Option.ite_none_right_eq_some.1 hs
    obtain ⟨⟨frame, st⟩, hr, rfl⟩ := Option.map_eq_some_iff.1 hs
    show Unmasked st.sigMask
    rw [sigreturn_state hr]
    exact h
  | user p frame m =>
    obtain ⟨-, hs⟩ := Option.ite_none_right_eq_some.1 hs
    cases hs
    exact h

theorem lowest_eq_none {w : Word} (h : lowest w = none) (i : Fin 64) : w.getLsbD i = false :=
  Fin.eq_false_of_find?_eq_none h i

theorem lowest_min {w : Word} {sig i : Fin 64} (h : lowest w = some sig) (hi : i < sig) : w.getLsbD i = false :=
  Fin.eq_false_of_find?_eq_some_of_lt h i hi

theorem kill_terminates {p : Process} {frame : InterruptFrame} {st : SignalState} {m : Machine}
    (h : Unmasked st.sigMask) (hpending : st.sigPending.getLsbD sigkill = true) (hcs : frame.cs &&& 3#64 ≠ 0)
    (hfirst : KillFirst st) : ∃ sig, checkAndDeliver p frame st m = some (.terminated sig) := by
  unfold checkAndDeliver
  rw [if_neg hcs]
  cases hfatal : lowest (st.sigPending &&& st.sigMask &&& fatalSignals) with
  | some sig => exact ⟨sig, rfl⟩
  | none =>
    have hline : (st.sigPending &&& ~~~st.sigMask).getLsbD sigkill = true := by
      rw [BitVec.getLsbD_and, BitVec.getLsbD_not, hpending, h.1]
      decide
    cases hsig : deliverable st with
    | none =>
      rw [lowest_eq_none hsig sigkill] at hline
      cases hline
    | some sig =>
      simp only
      by_cases hkill : sig = sigkill
      · rw [if_pos hkill]
        exact ⟨sig, rfl⟩
      · -- a signal before `SIGKILL`, with its default action
        have hlt : sig < sigkill := by
          by_contra hnot
          have hgt : sigkill < sig := lt_of_le_of_ne (not_lt.1 hnot) (Ne.symm hkill)
          rw [lowest_min hsig hgt] at hline
          cases hline
        have hdefault : (st.sigActions sig).handler = 0 := hfirst sig hlt (lowest_eq_some hsig)
        have hterm : sig ≠ sigstop ∧ isDefaultIgnore sig = false ∧ isDefaultStop sig = false := by
          revert hlt
          generalize sig = i
          revert i
          decide
        refine ⟨sig, ?_⟩
        rw [if_neg hkill, if_neg hterm.1, hdefault, if_neg (by decide), if_pos rfl, hterm.2.1, hterm.2.2]
        rfl

/-- **Unmaskable signals.** As long as no handler is entered whose action mask holds them, `SIGKILL` and `SIGSTOP` are never
masked, and a `SIGKILL` that is first in line ends the process at its next delivery. -/
theorem unmaskable {t₀ : Task} (h₀ : Unmasked t₀.st.sigMask) (hrun : Run Careful t₀ t) :
    Unmasked t.st.sigMask ∧
      (t.life = .running → t.st.sigPending.getLsbD sigkill = true → t.frame.cs &&& 3#64 ≠ 0 → KillFirst t.st →
        ∃ t', t.step .checkAndDeliver = some t' ∧ t'.life = .zombie) := by
  have hmask : Unmasked t.st.sigMask := by
    induction hrun with
    | init => exact h₀
    | step _ ha hs ih => exact ih.step ha hs
  refine ⟨hmask, fun hlife hpending hcs hfirst => ?_⟩
  obtain ⟨sig, hd⟩ := kill_terminates (p := t.p) (m := t.m) hmask hpending hcs hfirst
  refine ⟨t.deliver (.terminated sig), ?_, rfl⟩
  rw [Task.step, if_pos hlife, hd]
  rfl

end Mask

/-! ### A handler that masks `SIGKILL` -/

section Masked

def Task.runOps (t : Task) : List Op → Option Task
  | [] => some t
  | op :: ops => (t.step op).bind fun t' => t'.runOps ops

theorem run_of_runOps {Allowed : Task → Op → Prop} {t₀ t t' : Task} {ops : List Op} (hall : ∀ t, ∀ op ∈ ops, Allowed t op)
    (hrun : Run Allowed t₀ t) (h : t.runOps ops = some t') : Run Allowed t₀ t' := by
  induction ops generalizing t with
  | nil =>
    obtain rfl := Option.some.inj h
    exact hrun
  | cons op ops ih =>
    obtain ⟨t₁, hs, h⟩ := Option.bind_eq_some_iff.1 h
    exact ih (fun t op hop => hall t op (List.mem_cons_of_mem _ hop)) (hrun.step (hall t op List.mem_cons_self) hs) h

/-- `rt_sigaction(SIGINT, 0x400000, NULL)` of a program that installed nothing yet. At `0x400000` it has a handler
`0x400800` with `SIGKILL` in its mask. -/
def maskKill : Task where
  p := CopyOut.writer 512
  life := .running
  frame := { interrupted with reg := fun r =>
    if r = .rdi then 2 else if r = .rsi then 0x400000 else if r = .rsp then 0x400200 else 0 }
  st :=
    { sigPending := 0, sigMask := 0, sigActions := fun _ => { handler := 0, flags := 0, mask := 0, restorer := 0 }
      inSignalHandler := false }
  m := [(0x400001, 0x08#8), (0x400002, 0x40#8), (0x400019, 0x02#8)].foldl
    (fun m w => (Fault.userWrite 512 w.1 w.2 m).2) Fork.onePage

set_option maxRecDepth 4000 in
/-- In the handler `SIGKILL` is masked, and one that is posted then does not end the process. -/
theorem handler_masks_kill :
    ∃ t t', Run (fun _ _ => True) maskKill t ∧ ¬ Unmasked t.st.sigMask ∧ t.life = .running ∧
      t.st.sigPending.getLsbD sigkill = true ∧ t.step .checkAndDeliver = some t' ∧ t'.life = .running := by
  have hrun : (maskKill.runOps [.rtSigaction, .postSignal 2, .checkAndDeliver, .postSignal 9]).bind (fun t =>
      (t.step .checkAndDeliver).map fun t' => (decide (Unmasked t.st.sigMask), decide (t.life = .running),
        t.st.sigPending.getLsbD sigkill, decide (t'.life = .running))) = some (false, true, true, true) := by
    decide +kernel
  obtain ⟨t, hops, hval⟩ := Option.bind_eq_some_iff.1 hrun
  obtain ⟨t', hstep, hval⟩ := Option.map_eq_some_iff.1 hval
  simp only [Prod.mk.injEq, decide_eq_false_iff_not, decide_eq_true_eq] at hval
  obtain ⟨hmask, hlife, hpending, hlife'⟩ := hval
  exact ⟨t, t', run_of_runOps (fun _ _ _ => trivial) .init hops, hmask, hlife, hpending, hstep, hlife'⟩

set_option maxRecDepth 4000 in
/-- Before the handler is entered, `SIGKILL` ends the process. -/
theorem unmaskable_posted :
    ∃ t t' : Task, t.st.sigPending.getLsbD sigkill = true ∧ t.step .checkAndDeliver = some t' ∧ t'.life = .zombie := by
  have hrun : (maskKill.runOps [.rtSigaction, .postSignal 9]).map (fun t => (decide (t.life = .running),
      t.st.sigPending, t.frame.cs)) = some (true, 0x200#64, userCs) := by
    decide +kernel
  obtain ⟨t, hops, hval⟩ := Option.map_eq_some_iff.1 hrun
  simp only [Prod.mk.injEq, decide_eq_true_eq] at hval
  obtain ⟨hlife, hpending, hcs⟩ := hval
  have hreach : Run Careful maskKill t := by
    refine run_of_runOps (fun t op hop => ?_) .init hops
    rcases List.mem_cons.1 hop with rfl | hop
    · trivial
    · rw [List.mem_singleton.1 hop]
      trivial
  have hkill : t.st.sigPending.getLsbD sigkill = true := by
    rw [hpending]
    decide
  have hnone : ∀ sig : Fin 64, sig < sigkill → ¬ (0x200#64).getLsbD sig = true := by decide
  have hfirst : KillFirst t.st := by
    intro sig hlt hbit
    rw [BitVec.getLsbD_and, hpending, Bool.and_eq_true] at hbit
    exact absurd hbit.1 (hnone sig hlt)
  have hclear : Unmasked maskKill.st.sigMask := by decide
  obtain ⟨-, hdie⟩ := unmaskable hclear hreach
  obtain ⟨t', hstep, hzombie⟩ := hdie hlife hkill (by rw [hcs]; decide) hfirst
  exact ⟨t, t', hkill, hstep, hzombie⟩

end Masked

end Zigix.Signal
