import Zigix.Lib.Bytes
import Zigix.Proc.CopyOut

/-!
# Signal delivery (`kernel/proc/signal.zig`)

* `checkAndDeliver`, `deliverToHandler` : the lowest deliverable signal, and the frame for its handler on the user stack;
* `sysRtSigreturn` : the registers are read back from that frame;
* `sigreturn_leaves_blocked` : the signal mask stays as the delivery left it;
* `sigreturn_unprivileged_iff` : the program counter and the flags are those of the frame, whatever they are.

`none` is a kernel panic: a stack pointer too low for the frame.
-/

namespace Zigix.Signal

open Bytes
open Pmm (pageSize addU64 subU64)
open Vmm
open Zigix.CopyOut (writeToUserStack)
open Fault (userEnd userRead)

abbrev Word := BitVec 64

/-- The registers that a signal frame saves. -/
inductive Reg
  | rax | rbx | rcx | rdx | rsi | rdi | rbp
  | r8 | r9 | r10 | r11 | r12 | r13 | r14 | r15
  | rip | rflags | rsp
  deriving DecidableEq

structure InterruptFrame where
  reg : Reg → Word
  cs : Word
  ss : Word

structure SignalAction where
  /-- `SIG_DFL`, `SIG_IGN` or an address -/
  handler : Word
  flags : Word
  mask : Word
  restorer : Word

structure SignalState where
  sigPending : Word
  sigMask : Word
  sigActions : Fin 64 → SignalAction
  inSignalHandler : Bool

def userSpaceEnd : Nat := 0x800000000000

def signalFrameSize : Nat := 0xA8

def bit (sig : Fin 64) : Word := 1#64 <<< sig.val

/-! ## The frame on the user stack -/

/-- Where a register lies in the frame. -/
def Reg.offset : Reg → Nat
  | .rax => 0x08
  | .rbx => 0x10
  | .rcx => 0x18
  | .rdx => 0x20
  | .rsi => 0x28
  | .rdi => 0x30
  | .rbp => 0x38
  | .r8 => 0x40
  | .r9 => 0x48
  | .r10 => 0x50
  | .r11 => 0x58
  | .r12 => 0x60
  | .r13 => 0x68
  | .r14 => 0x70
  | .r15 => 0x78
  | .rip => 0x80
  | .rflags => 0x88
  | .rsp => 0x90

def savedRegs : List Reg :=
  [.rax, .rbx, .rcx, .rdx, .rsi, .rdi, .rbp, .r8, .r9, .r10, .r11, .r12, .r13, .r14, .r15, .rip, .rflags, .rsp]

/-- `mov rax, 15; int 0x80`. -/
def trampoline : List (BitVec 8) := [0x48, 0xc7, 0xc0, 0x0f, 0x00, 0x00, 0x00, 0xcd, 0x80]

def sigFrame (frame : InterruptFrame) (returnAddr : Nat) : Buf :=
  let b := putLE (fun _ => 0) 0 8 returnAddr
  let b := savedRegs.foldl (fun b r => putLE b r.offset 8 (frame.reg r).toNat) b
  fun i => if 0x98 ≤ i ∧ i < 0xA1 then trampoline.getD (i - 0x98) 0 else b i

def readU64LE (b : Buf) (off : Nat) : Word := BitVec.ofNat 64 (getLE b off 8)

/-- The loop of `readFromUserStack`; a turn reads at least one byte. -/
def readLoop (m : Machine) (pml4 : Nat) : Nat → Nat → Nat → Option (Option (List (BitVec 8)))
  | 0, _, _ => some (some [])
  | fuel + 1, addr, remaining =>
    if remaining = 0 then some (some [])
    else
      let chunk := min remaining (pageSize - addr % pageSize)
      match translate m pml4 addr with
      | none => some none
      | some phys => do
        let bytes := Ext2.pageBytes (m.mem (phys / pageSize)) (phys % pageSize) chunk
        let rest ← readLoop m pml4 fuel (← addU64 addr chunk) (remaining - chunk)
        return rest.map (bytes ++ ·)

/-- The `n` bytes at `addr`, if they are mapped. -/
def readFromUserStack (m : Machine) (pml4 addr n : Nat) : Option (Option (List (BitVec 8))) :=
  readLoop m pml4 n addr n

/-! ## Delivery -/

inductive Delivery
  | resumes (frame : InterruptFrame) (st : SignalState) (m : Machine)
  | terminated (sig : Fin 64)
  | stopped (sig : Fin 64)

/-- `SA_RESTORER`. -/
def hasRestorer (action : SignalAction) : Bool := action.flags.getLsbD 26 && action.restorer != 0

def deliverToHandler (p : Process) (frame : InterruptFrame) (st : SignalState) (sig : Fin 64) (action : SignalAction)
    (m : Machine) : Option Delivery := do
  let newRsp ← subU64 ((frame.reg .rsp).toNat / 16 * 16) signalFrameSize
  let returnAddr := if hasRestorer action then action.restorer.toNat else newRsp + 0x98
  let data := (List.range signalFrameSize).map (sigFrame frame returnAddr)
  match ← writeToUserStack p newRsp data m with
  | (false, _) => return .terminated sig
  | (true, m) =>
    let st := { st with sigMask := st.sigMask ||| bit sig ||| action.mask }
    let reg := Function.update frame.reg .rsp (BitVec.ofNat 64 newRsp)
    let reg := Function.update reg .rip action.handler
    let reg := Function.update reg .rdi (BitVec.ofNat 64 sig.val)
    return .resumes { frame with reg } st m

/-- `@ctz`, for a word that is not 0. -/
def lowest (w : Word) : Option (Fin 64) := Fin.find? fun i => w.getLsbD i

/-- Signal numbers are numerals of `Fin 64`. -/
instance neZero_signals : NeZero 64 := ⟨by decide⟩

def sigkill : Fin 64 := 9

def sigstop : Fin 64 := 19

/-- `SIGSEGV`, `SIGBUS`, `SIGFPE`, `SIGILL`. -/
def isFatal (sig : Fin 64) : Bool := sig == 11 || sig == 7 || sig == 8 || sig == 4

def fatalSignals : Word := bit 11 ||| bit 7 ||| bit 8 ||| bit 4

/-- `SIGCHLD`, `SIGCONT`. -/
def isDefaultIgnore (sig : Fin 64) : Bool := sig == 17 || sig == 18

/-- `SIGTSTP`. -/
def isDefaultStop (sig : Fin 64) : Bool := sig == 20

/-- The signal that `checkAndDeliver` takes from the pending ones. -/
def deliverable (st : SignalState) : Option (Fin 64) := lowest (st.sigPending &&& ~~~st.sigMask)

def checkAndDeliver (p : Process) (frame : InterruptFrame) (st : SignalState) (m : Machine) : Option Delivery :=
  if frame.cs &&& 3#64 = 0 then some (.resumes frame st m)
  else
    match lowest (st.sigPending &&& st.sigMask &&& fatalSignals) with
    | some sig => some (.terminated sig)
    | none =>
      match deliverable st with
      | none => some (.resumes frame st m)
      | some sig =>
        let st := { st with sigPending := st.sigPending &&& ~~~bit sig }
        if sig = sigkill then some (.terminated sig)
        else if sig = sigstop then some (.stopped sig)
        else
          let action := st.sigActions sig
          if action.handler = 1 then some (.resumes frame st m)
          else if action.handler = 0 then
            if isDefaultIgnore sig then some (.resumes frame st m)
            else if isDefaultStop sig then some (.stopped sig)
            else some (.terminated sig)
          else if isFatal sig then
            if st.inSignalHandler then some (.terminated sig)
            else deliverToHandler p frame { st with inSignalHandler := true } sig action m
          else deliverToHandler p frame st sig action m

/-! ## Return -/

/-- `gdt.USER_CS`. -/
def userCs : Word := 0x1b

/-- `gdt.USER_DS`. -/
def userDs : Word := 0x23

/-- The frame whose registers `sysRtSigreturn` takes: the 168 bytes below the return address that was popped. -/
def savedFrame (p : Process) (frame : InterruptFrame) (m : Machine) : Option (Option Buf) := do
  let addr ← subU64 (frame.reg .rsp).toNat 8
  if userSpaceEnd ≤ addr then return none
  let bytes ← readFromUserStack m p.pageTable addr signalFrameSize
  return bytes.map fun bs i => bs.getD i 0

def sysRtSigreturn (p : Process) (frame : InterruptFrame) (st : SignalState) (m : Machine) :
    Option (InterruptFrame × SignalState) := do
  match ← savedFrame p frame m with
  | none => return (frame, st)
  | some b => return ({ reg := fun r => readU64LE b r.offset, cs := userCs, ss := userDs }, st)

/-! ## Reading the frame back -/

theorem Reg.offset_mod (r : Reg) : r.offset % 8 = 0 := by cases r <;> rfl

theorem Reg.offset_injective : Function.Injective Reg.offset := by
  intro r q h
  cases r <;> cases q <;> first | rfl | (exact absurd h (by decide))

theorem Reg.offset_lt (r : Reg) : r.offset + 8 ≤ 0x98 := by cases r <;> decide

theorem Reg.mem_savedRegs (r : Reg) : r ∈ savedRegs := by cases r <;> decide

theorem getLE_saved_of_notMem {v : Reg → Nat} {regs : List Reg} {r : Reg} (h : r ∉ regs) (b : Buf) :
    getLE (regs.foldl (fun b q => putLE b q.offset 8 (v q)) b) r.offset 8 = getLE b r.offset 8 := by
  induction regs generalizing b with
  | nil => rfl
  | cons q regs ih =>
    have hne : r.offset ≠ q.offset := fun heq => h (List.mem_cons.2 (.inl (Reg.offset_injective heq)))
    have hr := r.offset_mod
    have hq := q.offset_mod
    rw [List.foldl_cons, ih fun hmem => h (List.mem_cons_of_mem _ hmem), getLE_putLE_of_disjoint (by omega)]

theorem getLE_saved {v : Reg → Nat} {regs : List Reg} {r : Reg} (h : r ∈ regs) (b : Buf) :
    getLE (regs.foldl (fun b q => putLE b q.offset 8 (v q)) b) r.offset 8 = v r % 256 ^ 8 := by
  induction regs generalizing b with
  | nil => cases h
  | cons q regs ih =>
    rw [List.foldl_cons]
    by_cases hmem : r ∈ regs
    · exact ih hmem _
    · obtain rfl : r = q := (List.mem_cons.1 h).resolve_right hmem
      rw [getLE_saved_of_notMem hmem, getLE_putLE]

theorem readU64LE_sigFrame (frame : InterruptFrame) (returnAddr : Nat) (r : Reg) :
    readU64LE (sigFrame frame returnAddr) r.offset = frame.reg r := by
  have hlt := r.offset_lt
  have hregs : getLE (sigFrame frame returnAddr) r.offset 8 = (frame.reg r).toNat % 256 ^ 8 := by
    have hsaved := getLE_saved (v := fun q => (frame.reg q).toNat) r.mem_savedRegs (putLE (fun _ => 0) 0 8 returnAddr)
    rw [← hsaved]
    exact getLE_congr fun k hk => if_neg (by omega)
  rw [readU64LE, hregs]
  apply BitVec.eq_of_toNat_eq
  rw [BitVec.toNat_ofNat]
  have := (frame.reg r).isLt
  omega

/-- Within a page the physical address moves along with the virtual one. -/
theorem translate_add {m : Machine} {pml4 x k : Nat} (h : x % pageSize + k < pageSize) :
    translate m pml4 (x + k) = (translate m pml4 x).map (· + k) := by
  unfold pageSize at h
  have h4 : pml4Idx (x + k) = pml4Idx x := by unfold pml4Idx; omega
  have h3 : pdptIdx (x + k) = pdptIdx x := by unfold pdptIdx; omega
  have h2 : pdIdx (x + k) = pdIdx x := by unfold pdIdx; omega
  have h1 : ptIdx (x + k) = ptIdx x := by unfold ptIdx; omega
  have hgiga : (x + k) % 2 ^ 30 = x % 2 ^ 30 + k := by omega
  have hhuge : (x + k) % 2 ^ 21 = x % 2 ^ 21 + k := by omega
  have hpage : (x + k) % 2 ^ 12 = x % 2 ^ 12 + k := by omega
  unfold Vmm.translate
  rw [h4, h3, h2, h1, hgiga, hhuge, hpage]
  cases follow m pml4 (pml4Idx x) with
  | none => rfl
  | some pdpt =>
    simp only [Option.bind_eq_bind, Option.bind_some]
    cases follow m pdpt (pdptIdx x) with
    | none => rfl
    | some pd =>
      simp only [Option.bind_some]
      split
      · simp [Nat.add_assoc]
      · cases follow m pd (pdIdx x) with
        | none => rfl
        | some pt =>
          simp only [Option.bind_some]
          split
          · simp [Nat.add_assoc]
          · cases follow m pt (ptIdx x) with
            | none => rfl
            | some page => simp [Nat.add_assoc]

theorem translate_mod {m : Machine} {pml4 x phys : Nat} (h : translate m pml4 x = some phys) :
    phys % pageSize = x % pageSize := by
  unfold Vmm.translate at h
  obtain ⟨pdpt, -, h⟩ := Option.bind_eq_some_iff.1 h
  obtain ⟨pd, -, h⟩ := Option.bind_eq_some_iff.1 h
  unfold pageSize at h ⊢
  split at h
  · cases h
    omega
  · obtain ⟨pt, -, h⟩ := Option.bind_eq_some_iff.1 h
    split at h
    · cases h
      omega
    · obtain ⟨page, -, h⟩ := Option.bind_eq_some_iff.1 h
      cases h
      omega

theorem readLoop_of_userRead {m : Machine} {pml4 : Nat} {byte : Nat → BitVec 8} (fuel addr n : Nat) (hn : n ≤ fuel)
    (h : ∀ k, k < n → userRead pml4 (addr + k) m = some (byte k)) :
    readLoop m pml4 fuel addr n = some (some ((List.range n).map byte)) := by
  induction fuel generalizing addr n byte with
  | zero =>
    obtain rfl : n = 0 := by omega
    rfl
  | succ fuel ih =>
    rw [readLoop]
    split
    · next hzero =>
      subst hzero
      rfl
    · next hpos =>
      have hfirst := h 0 (by omega)
      unfold userRead at hfirst
      split at hfirst
      · next hlt =>
        obtain ⟨phys, hphys, -⟩ := Option.map_eq_some_iff.1 hfirst
        have hphys : translate m pml4 addr = some phys := hphys
        have hmod := translate_mod hphys
        have hoff : addr % pageSize < pageSize := Nat.mod_lt _ (by decide)
        generalize hc : min n (pageSize - addr % pageSize) = chunk
        have hchunk : 0 < chunk ∧ chunk ≤ n ∧ addr % pageSize + chunk ≤ pageSize := by omega
        -- the bytes of this page
        have hbytes : Ext2.pageBytes (m.mem (phys / pageSize)) (phys % pageSize) chunk = (List.range chunk).map byte := by
          refine List.map_congr_left fun k hk => ?_
          have hk : k < chunk := List.mem_range.1 hk
          have hread := h k (by omega)
          unfold userRead at hread
          split at hread
          · rw [translate_add (by omega), hphys] at hread
            have hval : Machine.pageByte (m.mem ((phys + k) / pageSize)) ((phys + k) % pageSize) = byte k :=
              Option.some.inj hread
            have hdiv : (phys + k) / pageSize = phys / pageSize := by unfold pageSize at *; omega
            have hrem : (phys + k) % pageSize = phys % pageSize + k := by unfold pageSize at *; omega
            rw [hdiv, hrem] at hval
            exact hval
          · cases hread
        have hnext : addU64 addr chunk = some (addr + chunk) := by
          unfold addU64
          unfold userEnd at hlt
          unfold pageSize at hchunk
          rw [if_pos (by omega)]
        have htail : ∀ k, k < n - chunk → userRead pml4 (addr + chunk + k) m = some (byte (chunk + k)) := by
          intro k hk
          rw [Nat.add_assoc]
          exact h (chunk + k) (by omega)
        have hrest := ih (addr + chunk) (n - chunk) (by omega) htail
        have hsplit : (List.range n).map byte =
            (List.range chunk).map byte ++ (List.range (n - chunk)).map fun k => byte (chunk + k) := by
          have hsum : n = chunk + (n - chunk) := by omega
          conv_lhs => rw [hsum, List.range_add, List.map_append, List.map_map]
          rfl
        simp only [hphys, hnext, hrest, hbytes, hsplit, Option.bind_eq_bind, Option.bind_some, Option.map_some,
          Option.pure_def]
      · cases hfirst

theorem sigreturn_registers {p : Process} {frame handler : InterruptFrame} {m : Machine} {base returnAddr : Nat}
    (hframe : ∀ k, k < signalFrameSize →
      userRead p.pageTable (base + k) m = some (sigFrame frame returnAddr k))
    (hrsp : (handler.reg .rsp).toNat = base + 8) (st : SignalState) :
    sysRtSigreturn p handler st m = some ({ reg := frame.reg, cs := userCs, ss := userDs }, st) := by
  have hbase : base < userSpaceEnd := by
    have hread := hframe 0 (by decide)
    unfold userRead at hread
    split at hread
    · next hlt => exact hlt
    · cases hread
  have hsub : subU64 (handler.reg .rsp).toNat 8 = some base := by
    rw [hrsp, subU64, if_pos (by omega), Nat.add_sub_cancel]
  have hread : readFromUserStack m p.pageTable base signalFrameSize =
      some (some ((List.range signalFrameSize).map (sigFrame frame returnAddr))) :=
    readLoop_of_userRead _ _ _ le_rfl hframe
  have hsaved : savedFrame p handler m =
      some (some fun i => ((List.range signalFrameSize).map (sigFrame frame returnAddr)).getD i 0) := by
    simp only [savedFrame, hsub, Option.bind_eq_bind, Option.bind_some, if_neg (Nat.not_le.2 hbase), hread,
      Option.map_some, Option.pure_def]
  have hregs : (fun r : Reg => readU64LE (fun i => ((List.range signalFrameSize).map (sigFrame frame returnAddr)).getD i 0)
      r.offset) = frame.reg := by
    funext r
    have hlt := r.offset_lt
    rw [← readU64LE_sigFrame frame returnAddr r]
    show BitVec.ofNat 64 (getLE _ _ _) = BitVec.ofNat 64 (getLE _ _ _)
    refine congrArg _ (getLE_congr fun k hk => ?_)
    have hin : r.offset + k < signalFrameSize := by
      unfold signalFrameSize
      omega
    simp [List.getD_eq_getElem?_getD, hin]
  simp only [sysRtSigreturn, hsaved, Option.bind_eq_bind, Option.bind_some, hregs, Option.pure_def]

/-! ## The frame on the stack -/

section Stack
open Forest Pmm Pte Vmm Space Fault Ext2 Clone Zigix.CopyOut
open Zigix.System (roots mem_roots)

variable {s : System} {pid : Nat} {p : Process} {addr n : Nat} {m : Machine}

theorem userRead_storeBytes (hi : Inv (roots s.procs) 0 m) (hp : s.procs pid = some p) {x y f : Nat}
    (bs : List (BitVec 8)) (hnode : Node (roots s.procs) m p.pageTable (leafPath x) f) (hy : y < userEnd) :
    userRead p.pageTable y (storeBytes m f (x % pageSize) bs) =
      (walk (follow m) p.pageTable (leafPath y)).map fun g =>
        if g = f ∧ x % pageSize ≤ y % pageSize ∧ y % pageSize < x % pageSize + bs.length
        then bs.getD (y % pageSize - x % pageSize) 0 else Machine.pageByte (m.mem g) (y % pageSize) := by
  have hleaf : ∀ {r path}, Node (roots s.procs) m r path f → path.length = 4 :=
    fun hn' => hi.leaf_of_leaf hnode leafPath_length hn'
  have hr := mem_roots hp
  obtain ⟨c, hc⟩ := storeBytes_eq m f (x % pageSize) bs
  have hinv : Inv (roots s.procs) 0 (storeBytes m f (x % pageSize) bs) := by
    rw [hc]
    exact hi.setPage hleaf
  have hwalk : walk (follow (storeBytes m f (x % pageSize) bs)) p.pageTable (leafPath y) =
      walk (follow m) p.pageTable (leafPath y) := by
    rw [hc]
    exact walk_setPage hleaf hr (leafPath_user hy)
  rw [userRead_eq hinv hr hy, page, hwalk, Option.map_map]
  refine congrArg (Option.map · _) (funext fun g => ?_)
  show Machine.pageByte ((storeBytes m f (x % pageSize) bs).mem g) (y % pageSize) = _
  by_cases hg : g = f
  · subst hg
    rw [pageByte_storeBytes]
    simp
  · rw [mem_storeBytes_of_ne hg, if_neg fun h => hg h.1]

/-- The bytes `[addr, x)` read as `byte`. -/
def ReadsTo (p : Process) (addr : Nat) (byte : Nat → BitVec 8) (x : Nat) (m : Machine) : Prop :=
  ∀ k, addr + k < x → userRead p.pageTable (addr + k) m = some (byte k)

theorem ReadsTo.store {byte : Nat → BitVec 8} {x f : Nat} {bs : List (BitVec 8)} (h : ReadsTo p addr byte x m)
    (hi : Inv (roots s.procs) 0 m) (hp : s.procs pid = some p) (hend : addr + n ≤ userEnd) (hn : n ≤ pageSize)
    (hx : addr ≤ x) (hxn : x + bs.length ≤ addr + n) (hin : x % pageSize + bs.length ≤ pageSize)
    (hnode : Node (roots s.procs) m p.pageTable (leafPath x) f)
    (hbs : ∀ j, j < bs.length → bs.getD j 0 = byte (x - addr + j)) :
    ReadsTo p addr byte (x + bs.length) (storeBytes m f (x % pageSize) bs) := by
  intro k hk
  rw [userRead_storeBytes hi hp bs hnode (by omega)]
  by_cases hold : addr + k < x
  · have hread := h k hold
    rw [userRead_eq hi (mem_roots hp) (by omega), page, Option.map_map] at hread
    obtain ⟨g, hg, hval⟩ := Option.map_eq_some_iff.1 hread
    have hne : ¬ (x % pageSize ≤ (addr + k) % pageSize ∧ (addr + k) % pageSize < x % pageSize + bs.length) := by
      unfold pageSize at *
      omega
    rw [hg, Option.map_some, if_neg fun hc => hne hc.2]
    exact congrArg some hval
  · obtain ⟨j, hj⟩ := Nat.exists_eq_add_of_le (Nat.not_lt.1 hold)
    have hjlt : x % pageSize + j < pageSize := by omega
    have hmod : (x + j) % pageSize = x % pageSize + j := by
      unfold pageSize at hjlt ⊢
      omega
    have hkj : k = x - addr + j := by omega
    rw [hj, leafPath_add hjlt, hnode.2.2, Option.map_some, hmod, if_pos ⟨rfl, by omega, by omega⟩,
      Nat.add_sub_cancel_left, hbs j (by omega), hkj]

/-- **The write loop.** When it succeeds, the buffer reads as the data. -/
theorem copyLoop_reads {byte : Nat → BitVec 8} (hp : s.procs pid = some p) (hend : addr + n ≤ userEnd) (hn : n ≤ pageSize)
    (fuel x : Nat) (data : List (BitVec 8)) (hfuel : data.length ≤ fuel) (hx : addr ≤ x) (hlen : x + data.length = addr + n)
    (hdata : ∀ j, j < data.length → data.getD j 0 = byte (x - addr + j)) (h : Copying s p addr n m)
    (hreads : ReadsTo p addr byte x m) {m' : Machine}
    (hres : copyLoop (fun addr m => some (translate m p.pageTable addr, m)) fuel x data m = some (true, m')) :
    ReadsTo p addr byte (addr + n) m' := by
  induction fuel generalizing x data m with
  | zero =>
    cases hres
    rw [← hlen, Nat.le_zero.1 hfuel]
    exact hreads
  | succ fuel ih =>
    rw [copyLoop] at hres
    split at hres
    · next hempty =>
      cases hres
      rw [← hlen, List.isEmpty_iff.1 hempty]
      exact hreads
    next hne =>
    have hpos : 0 < data.length := List.length_pos_iff.2 (by simpa using hne)
    obtain ⟨⟨o, m₂⟩, hpg, hres⟩ := Option.bind_eq_some_iff.1 hres
    obtain ⟨ho, rfl⟩ := Prod.mk.inj (Option.some.inj hpg)
    cases o with
    | none => exact absurd (congrArg Prod.fst (Option.some.inj hres)) Bool.false_ne_true
    | some phys =>
      obtain ⟨f, hnode, hf, hoff⟩ := translate_node hp (by omega) h ho
      obtain ⟨next, hnext, hres⟩ := Option.bind_eq_some_iff.1 hres
      cases addU64_some hnext
      have hmod : x % pageSize < pageSize := Nat.mod_lt _ (by decide)
      generalize hc : min data.length (pageSize - x % pageSize) = chunk at hres hnext
      have hchunk : 0 < chunk ∧ chunk ≤ data.length ∧ x % pageSize + chunk ≤ pageSize := by omega
      have htake : (data.take chunk).length = chunk := by
        rw [List.length_take]
        omega
      rw [hf, hoff] at hres
      have hstore := h.stored hx (by rw [htake]; omega) (by rw [htake]; exact hchunk.2.2) hnode
      have hread' := hreads.store h.inv hp hend hn hx (by rw [htake]; omega) (by rw [htake]; exact hchunk.2.2) hnode
        fun j hj => by
          rw [htake] at hj
          rw [← hdata j (by omega), List.getD_eq_getElem?_getD, List.getD_eq_getElem?_getD, List.getElem?_take_of_lt hj]
      rw [htake] at hread'
      refine ih _ _ (by rw [List.length_drop]; omega) (by omega) (by rw [List.length_drop]; omega) (fun j hj => ?_) hstore
        hread' hres
      rw [List.length_drop] at hj
      rw [List.getD_eq_getElem?_getD, List.getElem?_drop, ← List.getD_eq_getElem?_getD, hdata _ (by omega)]
      congr 1
      omega

theorem deliverToHandler_frame {frame frame₁ : InterruptFrame} {st st₁ : SignalState} {sig : Fin 64}
    {action : SignalAction} {m₁ : Machine} (hs : s.Sound) (hp : s.procs pid = some p)
    (hd : deliverToHandler p frame st sig action s.machine = some (.resumes frame₁ st₁ m₁))
    (hend : (frame₁.reg .rsp).toNat + signalFrameSize ≤ userEnd) :
    ∃ returnAddr, ∀ k, k < signalFrameSize →
      userRead p.pageTable ((frame₁.reg .rsp).toNat + k) m₁ = some (sigFrame frame returnAddr k) := by
  unfold deliverToHandler at hd
  obtain ⟨newRsp, hrsp, hd⟩ := Option.bind_eq_some_iff.1 hd
  obtain ⟨⟨ok, m'⟩, hw, hd⟩ := Option.bind_eq_some_iff.1 hd
  cases ok with
  | false => exact nomatch hd
  | true =>
    obtain ⟨rfl, -, rfl⟩ := Delivery.resumes.inj (Option.some.inj hd)
    have hlt : newRsp < 2 ^ 64 := by
      have := (frame.reg .rsp).isLt
      unfold subU64 at hrsp
      split at hrsp
      · have hsub := Option.some.inj hrsp
        omega
      · exact nomatch hrsp
    have hval : (Function.update (Function.update (Function.update frame.reg .rsp (BitVec.ofNat 64 newRsp)) .rip
        action.handler) .rdi (BitVec.ofNat 64 sig.val) .rsp).toNat = newRsp := by
      rw [Function.update_of_ne (by decide), Function.update_of_ne (by decide), Function.update_self, BitVec.toNat_ofNat,
        Nat.mod_eq_of_lt hlt]
    rw [hval] at hend ⊢
    refine ⟨if hasRestorer action then action.restorer.toNat else newRsp + 0x98, fun k hk => copyLoop_reads hp hend (by decide) _ newRsp _ le_rfl le_rfl (by simp) (fun j hj => ?_)
      (.start hs) (fun k hk => absurd hk (by omega)) hw k (by omega)⟩
    rw [List.length_map, List.length_range] at hj
    simp [List.getD_eq_getElem?_getD, hj]

end Stack

/-! ## The round trip -/

section RoundTrip
variable {p : Process} {frame frame₁ : InterruptFrame} {st st₁ : SignalState} {sig : Fin 64} {m m₁ : Machine}

/-- An address: neither `SIG_DFL` nor `SIG_IGN`. -/
def UserHandler (action : SignalAction) : Prop := action.handler ≠ 0 ∧ action.handler ≠ 1

/-- `sig`, when it is pending alone, is taken. -/
def Takes (st : SignalState) (sig : Fin 64) : Prop := deliverable { st with sigPending := bit sig } = some sig

structure RoundTrip (frame : InterruptFrame) (st : SignalState) (frame' : InterruptFrame) (st' : SignalState) : Prop where
  regs : frame'.reg = frame.reg
  mask : st'.sigMask = st.sigMask
  takes : ∀ sig, Takes st sig → Takes st' sig

theorem getLsbD_bit (sig i : Fin 64) : (bit sig).getLsbD i = decide (i = sig) := by
  revert sig i
  decide +kernel

theorem lowest_eq_some {w : Word} (h : lowest w = some sig) : w.getLsbD sig = true := Fin.eq_true_of_find?_eq_some h

theorem unblocked_of_deliverable (h : deliverable st = some sig) : st.sigMask.getLsbD sig = false := by
  have hbit := lowest_eq_some h
  rw [BitVec.getLsbD_and, BitVec.getLsbD_not, Bool.and_eq_true, Bool.and_eq_true] at hbit
  exact Bool.not_eq_true' _ ▸ hbit.2.2

theorem takes_iff : Takes st sig ↔ st.sigMask.getLsbD sig = false := by
  constructor
  · intro h
    have hmask := unblocked_of_deliverable (h : deliverable { st with sigPending := bit sig } = some sig)
    exact hmask
  · intro h
    show Fin.find? _ = some sig
    refine Fin.find?_eq_some_iff.2 ⟨?_, fun j hj => ?_⟩
    · rw [BitVec.getLsbD_and, BitVec.getLsbD_not, getLsbD_bit, h]
      simp
    · rw [BitVec.getLsbD_and, getLsbD_bit, decide_eq_false (Fin.ne_of_lt hj), Bool.false_and]

theorem deliverToHandler_mask {action : SignalAction}
    (hd : deliverToHandler p frame st sig action m = some (.resumes frame₁ st₁ m₁)) :
    st₁.sigMask = st.sigMask ||| bit sig ||| action.mask := by
  unfold deliverToHandler at hd
  obtain ⟨newRsp, -, hd⟩ := Option.bind_eq_some_iff.1 hd
  obtain ⟨⟨ok, m'⟩, -, hd⟩ := Option.bind_eq_some_iff.1 hd
  cases ok with
  | false => exact nomatch hd
  | true =>
    obtain ⟨-, rfl, -⟩ := Delivery.resumes.inj (Option.some.inj hd)
    rfl

theorem checkAndDeliver_handler (hcs : frame.cs &&& 3#64 ≠ 0) (hsig : deliverable st = some sig)
    (hh : UserHandler (st.sigActions sig)) (hd : checkAndDeliver p frame st m = some (.resumes frame₁ st₁ m₁)) :
    deliverToHandler p frame { st with
      sigPending := st.sigPending &&& ~~~bit sig, inSignalHandler := st.inSignalHandler || isFatal sig } sig
      (st.sigActions sig) m = some (.resumes frame₁ st₁ m₁) := by
  unfold checkAndDeliver at hd
  rw [if_neg hcs, hsig] at hd
  split at hd
  · cases hd
  · simp only [if_neg hh.1, if_neg hh.2] at hd
    split at hd
    · cases hd
    · split at hd
      · cases hd
      · split at hd
        · next hfatal =>
          split at hd
          · cases hd
          · rw [hfatal, Bool.or_true]
            exact hd
        · next hfatal =>
          rw [eq_false_of_ne_true hfatal, Bool.or_false]
          exact hd

theorem sigreturn_state {frame' : InterruptFrame} {st' : SignalState}
    (hr : sysRtSigreturn p frame st m = some (frame', st')) : st' = st := by
  unfold sysRtSigreturn at hr
  obtain ⟨o, -, hr⟩ := Option.bind_eq_some_iff.1 hr
  cases o with
  | none =>
    obtain ⟨-, rfl⟩ := Prod.mk.inj (Option.some.inj hr)
    rfl
  | some b =>
    obtain ⟨-, rfl⟩ := Prod.mk.inj (Option.some.inj hr)
    rfl

/-- **The round trip.** A delivery and the return from its handler give the registers back, and never the mask: the
signal that was delivered stays blocked, so it is not taken again. -/
theorem sigreturn_leaves_blocked {s : System} {pid : Nat} (hs : s.Sound) (hp : s.procs pid = some p)
    (hcs : frame.cs &&& 3#64 ≠ 0) (hsig : deliverable st = some sig) (hh : UserHandler (st.sigActions sig))
    (hd : checkAndDeliver p frame st s.machine = some (.resumes frame₁ st₁ m₁)) :
    (∀ handler m₂ frame' st', sysRtSigreturn p handler st₁ m₂ = some (frame', st') →
      Takes st sig ∧ ¬ Takes st' sig ∧ ¬ RoundTrip frame st frame' st') ∧
    (∀ handler m₂, (handler.reg .rsp).toNat = (frame₁.reg .rsp).toNat + 8 →
      (frame₁.reg .rsp).toNat + signalFrameSize ≤ userEnd →
      (∀ k, k < signalFrameSize → userRead p.pageTable ((frame₁.reg .rsp).toNat + k) m₂ =
        userRead p.pageTable ((frame₁.reg .rsp).toNat + k) m₁) →
      ∃ frame', sysRtSigreturn p handler st₁ m₂ = some (frame', st₁) ∧ frame'.reg = frame.reg) := by
  have hdel := checkAndDeliver_handler hcs hsig hh hd
  refine ⟨fun handler m₂ frame' st' hr => ?_, fun handler m₂ hrsp hend hsame => ?_⟩
  · rw [sigreturn_state hr]
    have hbefore : Takes st sig := takes_iff.2 (unblocked_of_deliverable hsig)
    have hblocked : ¬ Takes st₁ sig := by
      rw [takes_iff, deliverToHandler_mask hdel]
      simp [getLsbD_bit]
    exact ⟨hbefore, hblocked, fun hround => hblocked (hround.takes sig hbefore)⟩
  · obtain ⟨returnAddr, hframe⟩ := deliverToHandler_frame hs hp hdel hend
    exact ⟨_, sigreturn_registers (fun k hk => (hsame k hk).trans (hframe k hk)) hrsp st₁, rfl⟩

end RoundTrip

/-- User code with its stack pointer in the page at `0x400000`. -/
def interrupted : InterruptFrame where
  reg := fun r => if r = .rsp then 0x400200 else if r = .rflags then 0x202 else 0x400000
  cs := userCs
  ss := userDs

/-- `SIGINT` is pending and has a handler. -/
def sigintPending : SignalState where
  sigPending := bit 2
  sigMask := 0
  sigActions := fun _ => { handler := 0x400800, flags := 0, mask := 0, restorer := 0 }
  inSignalHandler := false

def returnAtOnce (p : Process) : Delivery → Option (InterruptFrame × SignalState)
  | .resumes frame st m =>
    sysRtSigreturn p { frame with reg := Function.update frame.reg .rsp (frame.reg .rsp + 8) } st m
  | _ => none

set_option maxRecDepth 4000 in
/-- After one `SIGINT` the next one is not taken. -/
theorem sigint_stays_blocked :
    ∃ d frame' st', checkAndDeliver (CopyOut.writer 512) interrupted sigintPending Fork.onePage = some d ∧
      returnAtOnce (CopyOut.writer 512) d = some (frame', st') ∧
      Takes sigintPending 2 ∧ ¬ Takes st' 2 ∧ ¬ RoundTrip interrupted sigintPending frame' st' := by
  have hrun : ((checkAndDeliver (CopyOut.writer 512) interrupted sigintPending Fork.onePage).bind
      (returnAtOnce (CopyOut.writer 512))).map (fun r => r.2.sigMask) = some 4 := by decide +kernel
  obtain ⟨⟨frame', st'⟩, hrun, hmask⟩ := Option.map_eq_some_iff.1 hrun
  obtain ⟨d, hd, hret⟩ := Option.bind_eq_some_iff.1 hrun
  have hbefore : Takes sigintPending 2 := takes_iff.2 rfl
  have hafter : ¬ Takes st' 2 := by
    rw [takes_iff, hmask]
    decide
  exact ⟨d, frame', st', hd, hret, hbefore, hafter, fun hround => hafter (hround.takes 2 hbefore)⟩

set_option maxRecDepth 4000 in
theorem sigreturn_leaves_blocked_sigint :
    ∃ frame₁ st₁ m₁,
      checkAndDeliver (CopyOut.writer 512) interrupted sigintPending Fork.onePage = some (.resumes frame₁ st₁ m₁) ∧
      ∀ handler m₂ frame' st', sysRtSigreturn (CopyOut.writer 512) handler st₁ m₂ = some (frame', st') →
        ¬ RoundTrip interrupted sigintPending frame' st' := by
  have hrun : ((checkAndDeliver (CopyOut.writer 512) interrupted sigintPending Fork.onePage).bind
      (returnAtOnce (CopyOut.writer 512))).isSome = true := by decide +kernel
  obtain ⟨r, hrun⟩ := Option.isSome_iff_exists.1 hrun
  obtain ⟨d, hd, hret⟩ := Option.bind_eq_some_iff.1 hrun
  cases d with
  | resumes frame₁ st₁ m₁ =>
    refine ⟨frame₁, st₁, m₁, hd, fun handler m₂ frame' st' hr => ?_⟩
    have hs := CopyOut.family_sound Fork.onePage_inv
    have hp : (CopyOut.family Fork.onePage).procs 1 = some (CopyOut.writer 512) := rfl
    have hround := sigreturn_leaves_blocked hs hp (by decide) (by decide : deliverable sigintPending = some 2) ⟨by decide, by decide⟩ hd
    exact (hround.1 handler m₂ frame' st' hr).2.2
  | terminated sig => exact nomatch hret
  | stopped sig => exact nomatch hret

/-! ## Privilege -/

/-- A program counter in user space, interrupts enabled, I/O privilege level 0. -/
def UserWords (rip rflags : Word) : Prop :=
  rip.toNat < userSpaceEnd ∧ rflags.getLsbD 9 = true ∧ rflags.getLsbD 12 = false ∧ rflags.getLsbD 13 = false

instance (rip rflags : Word) : Decidable (UserWords rip rflags) := inferInstanceAs (Decidable (_ ∧ _))

/-- **The privilege of a return.** When the frame can be read, user code resumes with the program counter and the flags
that the frame holds, so it is unprivileged exactly when the frame says so; otherwise nothing changes. -/
theorem sigreturn_unprivileged_iff {p : Process} {frame frame' : InterruptFrame} {st st' : SignalState} {m : Machine}
    (hr : sysRtSigreturn p frame st m = some (frame', st')) :
    UserWords (frame'.reg .rip) (frame'.reg .rflags) ↔
      match savedFrame p frame m with
      | some (some b) => UserWords (readU64LE b 0x80) (readU64LE b 0x88)
      | _ => UserWords (frame.reg .rip) (frame.reg .rflags) := by
  unfold sysRtSigreturn at hr
  obtain ⟨o, hsaved, hr⟩ := Option.bind_eq_some_iff.1 hr
  rw [hsaved]
  cases o with
  | none =>
    obtain ⟨rfl, -⟩ := Prod.mk.inj (Option.some.inj hr)
    rfl
  | some b =>
    obtain ⟨rfl, -⟩ := Prod.mk.inj (Option.some.inj hr)
    rfl

/-- A frame that the program wrote itself: a kernel address, interrupts off and I/O privilege level 3. -/
def forgedStack : Machine :=
  [(0x400085, 0x80#8), (0x400086, 0xff#8), (0x400087, 0xff#8), (0x400089, 0x30#8)].foldl
    (fun m w => (Fault.userWrite 512 w.1 w.2 m).2) Fork.onePage

/-- `rt_sigreturn` with the stack pointer just past the first word of that frame. -/
def forger : InterruptFrame := { interrupted with reg := Function.update interrupted.reg .rsp 0x400008 }

set_option maxRecDepth 4000 in
/-- The program resumes in the kernel half with I/O privilege and interrupts disabled. -/
theorem forged_frame_privileged :
    ∃ frame' st', sysRtSigreturn (CopyOut.writer 512) forger sigintPending forgedStack = some (frame', st') ∧
      frame'.reg .rip = 0xffff800000000000 ∧ frame'.reg .rflags = 0x3000 ∧
      ¬ UserWords (frame'.reg .rip) (frame'.reg .rflags) := by
  have hrun : (sysRtSigreturn (CopyOut.writer 512) forger sigintPending forgedStack).map
      (fun r => (r.1.reg .rip, r.1.reg .rflags)) = some (0xffff800000000000, 0x3000) := by decide +kernel
  obtain ⟨⟨frame', st'⟩, hrun, hwords⟩ := Option.map_eq_some_iff.1 hrun
  obtain ⟨hrip, hflags⟩ := Prod.mk.inj hwords
  refine ⟨frame', st', hrun, hrip, hflags, ?_⟩
  rw [hrip, hflags]
  decide

set_option maxRecDepth 4000 in
theorem sigreturn_unprivileged_iff_forged :
    ∃ frame' st', sysRtSigreturn (CopyOut.writer 512) forger sigintPending forgedStack = some (frame', st') ∧
      (UserWords (frame'.reg .rip) (frame'.reg .rflags) ↔
        match savedFrame (CopyOut.writer 512) forger forgedStack with
        | some (some b) => UserWords (readU64LE b 0x80) (readU64LE b 0x88)
        | _ => UserWords (forger.reg .rip) (forger.reg .rflags)) := by
  have hrun : (sysRtSigreturn (CopyOut.writer 512) forger sigintPending forgedStack).isSome = true := by decide +kernel
  obtain ⟨⟨frame', st'⟩, hrun⟩ := Option.isSome_iff_exists.1 hrun
  exact ⟨frame', st', hrun, sigreturn_unprivileged_iff hrun⟩

end Zigix.Signal
