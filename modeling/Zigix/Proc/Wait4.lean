import Mathlib.Data.List.Basic
import Zigix.Proc.ForkFailure
import Zigix.Proc.Traps

/-!
# Waiting for a child (`sysWait4` in `kernel/proc/syscall_table.zig`)

One pass over the process table is kept in three variables, which the rest of the call looks at.

* `isMatch`, `visit`, `scan`, `sysWait4` : the call; `none` where the negation of the pid argument overflows;
* `wait_exact_iff` : when the call is exact;
* `waits_for_others` : a caller that waits for a process that is not its child.
-/

namespace Zigix.Wait4

open ForkFailure (SlotTable clearSlot maxProcesses)

inductive ProcessState
  | ready | running | blocked | blockedOnPipe | blockedOnWait | blockedOnFutex | blockedOnNet | stopped | zombie
  deriving DecidableEq

/-- The fields of a process that the call uses. `allocPid` starts with 1. -/
structure Process where
  pid : BitVec 32
  tgid : BitVec 32
  pgid : BitVec 32
  state : ProcessState
  pageTable : Nat
  kernelStackPhys : Nat
  kernelStackGuard : Nat
  parentPid : BitVec 64
  exitStatus : BitVec 64
  pid_ne : pid ≠ 0

structure Table where
  slots : SlotTable
  processes : Nat → Process

def Table.getProcess (t : Table) (idx : Nat) : Option Process :=
  if idx < maxProcesses ∧ t.slots.inUse idx then some (t.processes idx) else none

structure Args where
  rdi : BitVec 64
  rsi : Nat
  rdx : BitVec 64

def Args.waitPid (a : Args) : Int := a.rdi.toInt

def WNOHANG : BitVec 64 := 1
def WUNTRACED : BitVec 64 := 2

/-- The child is named by the argument. -/
def isMatch (waitPid : Int) (current p : Process) : Option Bool :=
  if 0 < waitPid then some (decide ((p.pid.toNat : Int) = waitPid))
  else if waitPid = -1 then some true
  else if waitPid = 0 then some (p.pgid == current.pgid)
  else if waitPid = -2 ^ 63 then none
  else some (decide ((p.pgid.toNat : Int) = -waitPid))

structure Scan where
  foundZombie : Option Nat
  foundStopped : Option Nat
  hasLiveChildren : Bool

def visit (t : Table) (current : Process) (a : Args) (s : Scan) (i : Nat) : Option Scan :=
  match t.getProcess i with
  | none => some s
  | some p =>
    if p.parentPid = current.pid.setWidth 64 then
      match isMatch a.waitPid current p with
      | none => none
      | some false => some { s with hasLiveChildren := true }
      | some true =>
        if p.state = .zombie then some { s with foundZombie := s.foundZombie <|> some i }
        else if p.state = .stopped ∧ a.rdx &&& WUNTRACED ≠ 0 then
          some { s with foundStopped := s.foundStopped <|> some i, hasLiveChildren := true }
        else some { s with hasLiveChildren := true }
    else some s

/-- The loop over the first `n` slots. -/
def scan (t : Table) (current : Process) (a : Args) (n : Nat) : Option Scan :=
  (List.range n).foldlM (visit t current a) ⟨none, none, false⟩

/-- The value of the call, or the caller waits and makes the call again. -/
inductive Ret
  | rax (value : Int)
  | block
  deriving DecidableEq

/-- What goes back to the allocators. -/
inductive Freed
  | addressSpace (pageTable : Nat)
  | guardedStack (phys guard : Nat)
  | page (phys : Nat)

structure Outcome where
  ret : Ret
  table : Table
  status : Option (BitVec 32)
  freed : List Freed

/-- The status word goes to the user if there is an address for it; `mapped` : four bytes can be written there. -/
def putStatus (mapped : Nat → Bool) (addr : Nat) (wstatus : BitVec 32) : Option (Option (BitVec 32)) :=
  if addr ≠ 0 ∧ Traps.validateUserBuffer addr 4 then if mapped addr then some (some wstatus) else none
  else some none

def kernelStackPages : Nat := 64

def freeMemory (child : Process) : List Freed :=
  (if child.tgid = child.pid then [.addressSpace child.pageTable] else []) ++
    if 0 < child.kernelStackGuard then [.guardedStack child.kernelStackPhys child.kernelStackGuard]
    else (List.range kernelStackPages).map fun kp => .page (child.kernelStackPhys + kp * 4096)

def EFAULT : Int := 14
def ECHILD : Int := 10

/-- The call of the process in slot `cur`. -/
def sysWait4 (mapped : Nat → Bool) (t : Table) (cur : Nat) (a : Args) : Option Outcome := do
  let s ← scan t (t.processes cur) a maxProcesses
  match s.foundZombie, s.foundStopped with
  | some idx, _ =>
    let child := t.processes idx
    match putStatus mapped a.rsi ((child.exitStatus <<< 8).setWidth 32) with
    | none => some ⟨.rax (-EFAULT), t, none, []⟩
    | some status =>
      some ⟨.rax child.pid.toNat, { t with slots := clearSlot t.slots idx }, status, freeMemory child⟩
  | none, some idx =>
    let child := t.processes idx
    match putStatus mapped a.rsi (child.exitStatus.setWidth 32) with
    | none => some ⟨.rax (-EFAULT), t, none, []⟩
    | some status => some ⟨.rax child.pid.toNat, t, status, []⟩
  | none, none =>
    if s.hasLiveChildren then
      if a.rdx &&& WNOHANG ≠ 0 then some ⟨.rax 0, t, none, []⟩
      else
        let current := { t.processes cur with state := .blockedOnWait }
        some ⟨.block, { t with processes := Function.update t.processes cur current }, none, []⟩
    else some ⟨.rax (-ECHILD), t, none, []⟩

/-! ## What the argument names -/

section
variable {mapped : Nat → Bool} {t : Table} {cur i n : Nat} {a : Args} {s : Scan}

/-- A child of `current` is in slot `i`. -/
def IsChild (t : Table) (current : Process) (i : Nat) : Prop :=
  i < maxProcesses ∧ t.slots.inUse i = true ∧ (t.processes i).parentPid = current.pid.setWidth 64

def Named (waitPid : Int) (current p : Process) : Prop :=
  0 < waitPid ∧ (p.pid.toNat : Int) = waitPid ∨ waitPid = -1 ∨ waitPid = 0 ∧ p.pgid = current.pgid ∨
    waitPid < -1 ∧ (p.pgid.toNat : Int) = -waitPid

/-- A child that the argument names is in slot `i`. -/
def Matches (t : Table) (current : Process) (a : Args) (i : Nat) : Prop :=
  IsChild t current i ∧ Named a.waitPid current (t.processes i)

theorem isMatch_iff {current p : Process} {waitPid : Int} {b : Bool} (h : isMatch waitPid current p = some b) :
    b = true ↔ Named waitPid current p := by
  unfold isMatch at h
  unfold Named
  split at h
  · next hpos =>
    obtain rfl := Option.some.inj h
    rw [decide_eq_true_iff]
    omega
  split at h
  · next hneg =>
    obtain rfl := Option.some.inj h
    simp [hneg]
  split at h
  · next hzero =>
    obtain rfl := Option.some.inj h
    simp [hzero]
  split at h
  · cases h
  · obtain rfl := Option.some.inj h
    rw [decide_eq_true_iff]
    omega

theorem isMatch_none {current p q : Process} {waitPid : Int} (h : isMatch waitPid current p = none) : ¬ Named waitPid current q := by
  unfold isMatch at h
  split at h
  · cases h
  split at h
  · cases h
  split at h
  · cases h
  split at h
  · next hmin =>
    have := q.pgid.isLt
    unfold Named
    omega
  · cases h

/-! ## The scan -/

/-- What the three variables say about the first `n` slots. -/
structure Seen (t : Table) (current : Process) (a : Args) (n : Nat) (s : Scan) : Prop where
  zombie : ∀ i, s.foundZombie = some i → i < n ∧ Matches t current a i ∧ (t.processes i).state = .zombie
  noZombie : s.foundZombie = none → ∀ i < n, Matches t current a i → (t.processes i).state ≠ .zombie
  stopped : ∀ i, s.foundStopped = some i → i < n ∧ Matches t current a i ∧ (t.processes i).state ≠ .zombie
  live : s.hasLiveChildren = true ↔ ∃ i < n, IsChild t current i ∧ ¬ (Matches t current a i ∧ (t.processes i).state = .zombie)

theorem getProcess_eq (t : Table) (hi : i < maxProcesses) :
    t.getProcess i = if t.slots.inUse i = true then some (t.processes i) else none := by
  unfold Table.getProcess
  simp only [hi, true_and]

theorem visit_cases {current : Process} {s' : Scan} (hi : i < maxProcesses) (h : visit t current a s i = some s') :
    ¬ IsChild t current i ∧ s' = s ∨
    (IsChild t current i ∧ ¬ Matches t current a i ∧ s' = { s with hasLiveChildren := true }) ∨
    (Matches t current a i ∧ (t.processes i).state = .zombie ∧ s' = { s with foundZombie := s.foundZombie <|> some i }) ∨
    Matches t current a i ∧ (t.processes i).state ≠ .zombie ∧
      ∃ found, s' = { s with foundStopped := found, hasLiveChildren := true } ∧ (found = s.foundStopped ∨ found = some i) := by
  unfold visit at h
  rw [getProcess_eq t hi] at h
  by_cases huse : t.slots.inUse i = true
  · rw [if_pos huse] at h
    dsimp only at h
    split at h
    · next hparent =>
      have hchild : IsChild t current i := ⟨hi, huse, hparent⟩
      split at h
      · cases h
      · next hmatch =>
        obtain rfl := Option.some.inj h
        refine .inr (.inl ⟨hchild, fun hm => ?_, rfl⟩)
        cases (isMatch_iff hmatch).2 hm.2
      · next hmatch =>
        have hmatches : Matches t current a i := ⟨hchild, (isMatch_iff hmatch).1 rfl⟩
        split at h
        · next hzombie =>
          obtain rfl := Option.some.inj h
          exact .inr (.inr (.inl ⟨hmatches, hzombie, rfl⟩))
        · next hzombie =>
          refine .inr (.inr (.inr ⟨hmatches, hzombie, ?_⟩))
          split at h
          · obtain rfl := Option.some.inj h
            refine ⟨s.foundStopped <|> some i, rfl, ?_⟩
            cases s.foundStopped
            · exact .inr rfl
            · exact .inl rfl
          · obtain rfl := Option.some.inj h
            exact ⟨s.foundStopped, rfl, .inl rfl⟩
    · next hparent =>
      obtain rfl := Option.some.inj h
      exact .inl ⟨fun hchild => hparent hchild.2.2, rfl⟩
  · rw [if_neg huse] at h
    obtain rfl := Option.some.inj h
    exact .inl ⟨fun hchild => huse hchild.2.1, rfl⟩

theorem Seen.visit {current : Process} {s' : Scan} (hn : n < maxProcesses) (hs : Seen t current a n s)
    (h : visit t current a s n = some s') : Seen t current a (n + 1) s' := by
  have hgrow : ∀ i, i < n → i < n + 1 := fun i h => Nat.lt_succ_of_lt h
  have hfirst : ∀ i, s.foundZombie = some i → i < n + 1 ∧ Matches t current a i ∧ (t.processes i).state = .zombie :=
    fun i hi => ⟨hgrow i (hs.zombie i hi).1, (hs.zombie i hi).2⟩
  have hstopped : ∀ i, s.foundStopped = some i → i < n + 1 ∧ Matches t current a i ∧ (t.processes i).state ≠ .zombie :=
    fun i hi => ⟨hgrow i (hs.stopped i hi).1, (hs.stopped i hi).2⟩
  have hnoZombie : (Matches t current a n → (t.processes n).state ≠ .zombie) → s.foundZombie = none →
      ∀ i < n + 1, Matches t current a i → (t.processes i).state ≠ .zombie := by
    intro hlast hnone i hi hm
    rcases Nat.lt_succ_iff_lt_or_eq.1 hi with hlt | rfl
    · exact hs.noZombie hnone i hlt hm
    · exact hlast hm
  have hlive : (∃ i < n, IsChild t current i ∧ ¬ (Matches t current a i ∧ (t.processes i).state = .zombie)) →
      ∃ i < n + 1, IsChild t current i ∧ ¬ (Matches t current a i ∧ (t.processes i).state = .zombie) :=
    fun ⟨i, hi, hrest⟩ => ⟨i, hgrow i hi, hrest⟩
  have hlive' : ¬ (IsChild t current n ∧ ¬ (Matches t current a n ∧ (t.processes n).state = .zombie)) →
      (∃ i < n + 1, IsChild t current i ∧ ¬ (Matches t current a i ∧ (t.processes i).state = .zombie)) →
      ∃ i < n, IsChild t current i ∧ ¬ (Matches t current a i ∧ (t.processes i).state = .zombie) := by
    rintro hnot ⟨i, hi, hrest⟩
    rcases Nat.lt_succ_iff_lt_or_eq.1 hi with hlt | rfl
    · exact ⟨i, hlt, hrest⟩
    · exact absurd hrest hnot
  rcases visit_cases hn h with ⟨hchild, rfl⟩ | ⟨hchild, hmatch, rfl⟩ | ⟨hmatch, hzombie, rfl⟩ | ⟨hmatch, hzombie, found, rfl, hfound⟩
  · exact ⟨hfirst, hnoZombie fun hm => absurd hm.1 hchild, hstopped, hs.live.trans ⟨hlive, hlive' fun h => hchild h.1⟩⟩
  · exact ⟨hfirst, hnoZombie fun hm => absurd hm hmatch, hstopped,
      fun _ => ⟨n, Nat.lt_succ_self n, hchild, fun h => hmatch h.1⟩, fun _ => rfl⟩
  · refine ⟨fun i hi => ?_, fun hnone => ?_, hstopped, hs.live.trans ⟨hlive, hlive' fun h => h.2 ⟨hmatch, hzombie⟩⟩⟩
    · dsimp only at hi
      cases hfound : s.foundZombie with
      | none =>
        rw [hfound] at hi
        obtain rfl : n = i := Option.some.inj hi
        exact ⟨Nat.lt_succ_self n, hmatch, hzombie⟩
      | some j =>
        rw [hfound] at hi
        obtain rfl : j = i := Option.some.inj hi
        exact hfirst j hfound
    · dsimp only at hnone
      cases hfound : s.foundZombie with
      | none => rw [hfound] at hnone; cases hnone
      | some j => rw [hfound] at hnone; cases hnone
  · refine ⟨hfirst, hnoZombie fun _ => hzombie, fun i hi => ?_,
      fun _ => ⟨n, Nat.lt_succ_self n, hmatch.1, fun h => hzombie h.2⟩, fun _ => rfl⟩
    dsimp only at hi
    rcases hfound with rfl | rfl
    · exact hstopped i hi
    · obtain rfl := Option.some.inj hi
      exact ⟨Nat.lt_succ_self n, hmatch, hzombie⟩

theorem scan_succ (t : Table) (current : Process) (a : Args) (n : Nat) :
    scan t current a (n + 1) = (scan t current a n).bind fun s => visit t current a s n := by
  unfold scan
  rw [List.range_succ, List.foldlM_append]
  cases (List.range n).foldlM (visit t current a) ⟨none, none, false⟩ with
  | none => rfl
  | some s =>
    show List.foldlM (visit t current a) s [n] = visit t current a s n
    rw [List.foldlM_cons]
    cases visit t current a s n <;> rfl

theorem scan_spec {current : Process} (hn : n ≤ maxProcesses) :
    (∃ s, scan t current a n = some s ∧ Seen t current a n s) ∨
      scan t current a n = none ∧ ∃ i, IsChild t current i ∧ isMatch a.waitPid current (t.processes i) = none := by
  induction n with
  | zero =>
    refine .inl ⟨_, rfl, nofun, fun _ i hi => absurd hi (Nat.not_lt_zero i), nofun, ?_⟩
    exact ⟨nofun, fun ⟨i, hi, _⟩ => absurd hi (Nat.not_lt_zero i)⟩
  | succ n ih =>
    rw [scan_succ]
    rcases ih (by omega) with ⟨s, hscan, hseen⟩ | ⟨hscan, hover⟩
    · rw [hscan, Option.bind_some]
      cases hvisit : visit t current a s n with
      | some s' => exact .inl ⟨s', rfl, hseen.visit (by omega) hvisit⟩
      | none =>
        refine .inr ⟨rfl, n, ?_⟩
        unfold Wait4.visit at hvisit
        rw [getProcess_eq t (by omega)] at hvisit
        by_cases huse : t.slots.inUse n = true
        · rw [if_pos huse] at hvisit
          dsimp only at hvisit
          split at hvisit
          · next hparent =>
            split at hvisit
            · next hnone => exact ⟨⟨by omega, huse, hparent⟩, hnone⟩
            · cases hvisit
            · split at hvisit
              · cases hvisit
              · split at hvisit <;> cases hvisit
          · cases hvisit
        · rw [if_neg huse] at hvisit
          cases hvisit
    · rw [hscan]
      exact .inr ⟨rfl, hover⟩

/-! ## The call -/

structure Exact (t : Table) (cur : Nat) (a : Args) (o : Outcome) : Prop where
  /-- one zombie that the argument names is reaped, if there is one -/
  reaps : (∃ i, Matches t (t.processes cur) a i ∧ (t.processes i).state = .zombie) →
    ∃ i, Matches t (t.processes cur) a i ∧ (t.processes i).state = .zombie ∧
      o.table = { t with slots := clearSlot t.slots i } ∧ o.ret = .rax (t.processes i).pid.toNat
  /-- nothing changes if there is none; a caller that waits is marked so -/
  keeps : (¬ ∃ i, Matches t (t.processes cur) a i ∧ (t.processes i).state = .zombie) →
    o.table.slots = t.slots ∧ ∀ i, o.table.processes i = t.processes i ∨ i = cur ∧ o.ret = .block
  waits : o.ret = .block ∨ o.ret = .rax 0 → ∃ i, Matches t (t.processes cur) a i ∧ (t.processes i).state ≠ .zombie
  echild : o.ret = .rax (-ECHILD) ↔ ¬ ∃ i, Matches t (t.processes cur) a i

def StatusOk (mapped : Nat → Bool) (a : Args) : Prop :=
  a.rsi = 0 ∨ Traps.validateUserBuffer a.rsi 4 = false ∨ mapped a.rsi = true

theorem putStatus_none {wstatus : BitVec 32} : putStatus mapped a.rsi wstatus = none ↔ ¬ StatusOk mapped a := by
  unfold putStatus StatusOk
  by_cases h : a.rsi = 0 <;> cases Traps.validateUserBuffer a.rsi 4 <;> cases mapped a.rsi <;> simp [h]

theorem pid_ret (p : Process) : Ret.rax (p.pid.toNat : Int) ≠ .rax 0 ∧ Ret.rax (p.pid.toNat : Int) ≠ .rax (-ECHILD) ∧
    Ret.rax (p.pid.toNat : Int) ≠ .rax (-EFAULT) := by
  refine ⟨fun h => p.pid_ne ?_, fun h => ?_, fun h => ?_⟩ <;> injection h with h
  · exact BitVec.eq_of_toNat_eq (Int.natCast_eq_zero.1 h)
  · unfold ECHILD at h
    omega
  · unfold EFAULT at h
    omega

theorem exact_of_zombie {idx : Nat} {s : Scan} (hscan : scan t (t.processes cur) a maxProcesses = some s)
    (hfound : s.foundZombie = some idx) (hmatch : Matches t (t.processes cur) a idx) (hzombie : (t.processes idx).state = .zombie) :
    (∃ o, sysWait4 mapped t cur a = some o ∧ Exact t cur a o) ↔ StatusOk mapped a := by
  obtain ⟨hzero, hchild, hfault⟩ := pid_ret (t.processes idx)
  unfold sysWait4
  rw [hscan, Option.bind_eq_bind, Option.bind_some]
  dsimp only
  rw [hfound]
  dsimp only
  cases hput : putStatus mapped a.rsi (((t.processes idx).exitStatus <<< 8).setWidth 32) with
  | none =>
    refine iff_of_false (fun ⟨o, ho, hexact⟩ => ?_) (putStatus_none.1 hput)
    obtain rfl := Option.some.inj ho
    obtain ⟨i, -, -, -, hret⟩ := hexact.reaps ⟨idx, hmatch, hzombie⟩
    exact (pid_ret (t.processes i)).2.2 hret.symm
  | some status =>
    have hok : StatusOk mapped a := by
      by_contra hbad
      rw [putStatus_none.2 hbad] at hput
      cases hput
    refine iff_of_true ⟨_, rfl, ?_⟩ hok
    refine ⟨fun _ => ⟨idx, hmatch, hzombie, rfl, rfl⟩, fun hnone => absurd ⟨idx, hmatch, hzombie⟩ hnone, ?_, ?_⟩
    · rintro (hblock | hret)
      · cases hblock
      · exact absurd hret hzero
    · exact iff_of_false hchild fun hnone => hnone ⟨idx, hmatch⟩

theorem exact_of_rax {value : Int} {status : Option (BitVec 32)}
    (hnone : ¬ ∃ i, Matches t (t.processes cur) a i ∧ (t.processes i).state = .zombie)
    (hzero : value = 0 → ∃ i, Matches t (t.processes cur) a i)
    (hchild : value = -ECHILD ↔ ¬ ∃ i, Matches t (t.processes cur) a i) : Exact t cur a ⟨.rax value, t, status, []⟩ where
  reaps h := absurd h hnone
  keeps _ := ⟨rfl, fun _ => .inl rfl⟩
  waits h := by
    rcases h with h | h
    · cases h
    · obtain ⟨i, hi⟩ := hzero (Ret.rax.inj h)
      exact ⟨i, hi, fun hz => hnone ⟨i, hi, hz⟩⟩
  echild := ⟨fun h => hchild.1 (Ret.rax.inj h), fun h => congrArg Ret.rax (hchild.2 h)⟩

theorem exact_of_stopped {idx : Nat} {s : Scan} (hscan : scan t (t.processes cur) a maxProcesses = some s)
    (hfound : s.foundZombie = none) (hstopped : s.foundStopped = some idx) (hmatch : Matches t (t.processes cur) a idx)
    (hnone : ¬ ∃ i, Matches t (t.processes cur) a i ∧ (t.processes i).state = .zombie) :
    ∃ o, sysWait4 mapped t cur a = some o ∧ Exact t cur a o := by
  obtain ⟨-, hchild, -⟩ := pid_ret (t.processes idx)
  unfold sysWait4
  rw [hscan, Option.bind_eq_bind, Option.bind_some]
  dsimp only
  rw [hfound, hstopped]
  dsimp only
  cases putStatus mapped a.rsi ((t.processes idx).exitStatus.setWidth 32) with
  | none =>
    exact ⟨_, rfl, exact_of_rax hnone (fun h => absurd h (by decide)) (iff_of_false (by decide) fun h => h ⟨idx, hmatch⟩)⟩
  | some status =>
    exact ⟨_, rfl, exact_of_rax hnone (fun _ => ⟨idx, hmatch⟩)
      (iff_of_false (fun h => hchild (congrArg Ret.rax h)) fun h => h ⟨idx, hmatch⟩)⟩

theorem exact_of_live {s : Scan} (hscan : scan t (t.processes cur) a maxProcesses = some s)
    (hfound : s.foundZombie = none) (hstopped : s.foundStopped = none) (hlive : s.hasLiveChildren = true)
    (hnone : ¬ ∃ i, Matches t (t.processes cur) a i ∧ (t.processes i).state = .zombie) :
    (∃ o, sysWait4 mapped t cur a = some o ∧ Exact t cur a o) ↔ ∃ i, Matches t (t.processes cur) a i := by
  unfold sysWait4
  rw [hscan, Option.bind_eq_bind, Option.bind_some]
  dsimp only
  rw [hfound, hstopped]
  dsimp only
  rw [if_pos hlive]
  constructor
  · rintro ⟨o, ho, hexact⟩
    have hret : o.ret = .block ∨ o.ret = .rax 0 := by
      split at ho
      · obtain rfl := Option.some.inj ho
        exact .inr rfl
      · obtain rfl := Option.some.inj ho
        exact .inl rfl
    obtain ⟨i, hi, -⟩ := hexact.waits hret
    exact ⟨i, hi⟩
  · rintro ⟨idx, hmatch⟩
    split
    · exact ⟨_, rfl, exact_of_rax hnone (fun _ => ⟨idx, hmatch⟩) (iff_of_false (by decide) fun h => h ⟨idx, hmatch⟩)⟩
    · refine ⟨_, rfl, fun h => absurd h hnone, fun _ => ⟨rfl, fun i => ?_⟩, fun _ => ⟨idx, hmatch, fun hz => hnone ⟨idx, hmatch, hz⟩⟩,
        iff_of_false nofun fun h => h ⟨idx, hmatch⟩⟩
      by_cases hi : i = cur
      · exact .inr ⟨hi, rfl⟩
      · exact .inl (Function.update_of_ne hi ..)

/-- **wait4.** The call is exact if and only if one of the caller's children is named by the argument or it has no children at
all, and the status word of a zombie does not fault. -/
theorem wait_exact_iff (mapped : Nat → Bool) (t : Table) (cur : Nat) (a : Args) :
    (∃ o, sysWait4 mapped t cur a = some o ∧ Exact t cur a o) ↔
      ((∃ i, IsChild t (t.processes cur) i) → ∃ i, Matches t (t.processes cur) a i) ∧
      ((∃ i, Matches t (t.processes cur) a i ∧ (t.processes i).state = .zombie) → StatusOk mapped a) := by
  obtain ⟨s, hscan, hseen⟩ | ⟨hscan, i, hchild, hover⟩ :
      (∃ s, scan t (t.processes cur) a maxProcesses = some s ∧ Seen t (t.processes cur) a maxProcesses s) ∨ _ := scan_spec le_rfl
  · cases hz : s.foundZombie with
    | some idx =>
      obtain ⟨-, hmatch, hzombie⟩ := hseen.zombie idx hz
      rw [exact_of_zombie hscan hz hmatch hzombie]
      exact ⟨fun h => ⟨fun _ => ⟨idx, hmatch⟩, fun _ => h⟩, fun h => h.2 ⟨idx, hmatch, hzombie⟩⟩
    | none =>
      have hnone : ¬ ∃ i, Matches t (t.processes cur) a i ∧ (t.processes i).state = .zombie :=
        fun ⟨i, hi, hzombie⟩ => hseen.noZombie hz i hi.1.1 hi hzombie
      cases hs : s.foundStopped with
      | some idx =>
        obtain ⟨-, hmatch, -⟩ := hseen.stopped idx hs
        exact iff_of_true (exact_of_stopped hscan hz hs hmatch hnone) ⟨fun _ => ⟨idx, hmatch⟩, fun h => absurd h hnone⟩
      | none =>
        cases hl : s.hasLiveChildren with
        | true =>
          obtain ⟨i, -, hchild, -⟩ := hseen.live.1 hl
          rw [exact_of_live hscan hz hs hl hnone]
          exact ⟨fun h => ⟨fun _ => h, fun hzombie => absurd hzombie hnone⟩, fun h => h.1 ⟨i, hchild⟩⟩
        | false =>
          have hempty : ¬ ∃ i, IsChild t (t.processes cur) i := by
            rintro ⟨i, hi⟩
            rw [hseen.live.2 ⟨i, hi.1, hi, fun h => hnone ⟨i, h⟩⟩] at hl
            cases hl
          have hunmatched : ¬ ∃ i, Matches t (t.processes cur) a i := fun ⟨i, hi⟩ => hempty ⟨i, hi.1⟩
          refine iff_of_true ⟨⟨.rax (-ECHILD), t, none, []⟩, ?_, ?_⟩ ⟨fun h => absurd h hempty, fun h => absurd h hnone⟩
          · unfold sysWait4
            rw [hscan, Option.bind_eq_bind, Option.bind_some]
            dsimp only
            rw [hz, hs, hl]
            rfl
          · exact exact_of_rax hnone (fun h => absurd h (by decide)) (iff_of_true rfl hunmatched)
  · have hresult : sysWait4 mapped t cur a = none := by
      unfold sysWait4
      rw [hscan]
      rfl
    rw [hresult]
    refine iff_of_false (fun ⟨o, ho, _⟩ => by cases ho) fun h => ?_
    obtain ⟨j, hj⟩ := h.1 ⟨i, hchild⟩
    exact isMatch_none hover hj.2

end

/-! ## A caller that waits for a process that is not its child -/

def process (pid parentPid : Nat) (h : BitVec.ofNat 32 pid ≠ 0) : Process where
  pid := pid
  tgid := pid
  pgid := pid
  state := .running
  pageTable := 0
  kernelStackPhys := 0
  kernelStackGuard := 0
  parentPid := parentPid
  exitStatus := 0
  pid_ne := h

def family : Table where
  slots := { ForkFailure.blank with inUse := fun i => i < 2 }
  processes := fun i => if i = 0 then process 1 0 (by decide) else process 2 1 (by decide)

/-- It asks for process 7, which is not its child, and waits. -/
theorem waits_for_others : ¬ ∃ o, sysWait4 (fun _ => true) family 0 ⟨7, 0, 0⟩ = some o ∧ Exact family 0 ⟨7, 0, 0⟩ o := by
  rintro ⟨o, ho, hexact⟩
  have hret : (sysWait4 (fun _ => true) family 0 ⟨7, 0, 0⟩).map (·.ret) = some .block := by decide +kernel
  rw [ho] at hret
  obtain ⟨i, ⟨hchild, hnamed⟩, -⟩ := hexact.waits (.inl (Option.some.inj hret))
  have hi : i < 2 := of_decide_eq_true hchild.2.1
  have hpid : (family.processes i).pid ≠ 7 := by
    rcases Nat.lt_succ_iff_lt_or_eq.1 hi with h | rfl
    · obtain rfl : i = 0 := by omega
      decide
    · decide
  rcases hnamed with ⟨-, h⟩ | h | ⟨h, -⟩ | ⟨h, -⟩
  · exact hpid (BitVec.eq_of_toNat_eq (Int.ofNat.inj h))
  · exact absurd h (by decide)
  · exact absurd h (by decide)
  · exact absurd h (by decide)

end Zigix.Wait4
