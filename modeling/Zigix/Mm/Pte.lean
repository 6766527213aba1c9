import Mathlib.Data.BitVec

/-!
# Page table entries (`PTE` of `kernel/mm/vmm.zig`)

A `packed struct(u64)`: the fields are bit ranges of one 64-bit word, so raw `u64` updates and field accesses see
the same bits. `make` is a struct literal followed by `setPhysAddr`; `markCow` and `clearCow` are the raw updates
of `cowCopyUserPages` and `handleCow`.
-/

namespace Zigix.Pte

abbrev Word := BitVec 64

/-- The flags a struct literal can set. -/
structure Flags where
  present : Bool := false
  writable : Bool := false
  user : Bool := false
  writeThrough : Bool := false
  cacheDisable : Bool := false
  accessed : Bool := false
  dirty : Bool := false
  hugePage : Bool := false
  global : Bool := false
  osBits : BitVec 3 := 0
  noExecute : Bool := false

/-- Bits 0 to 11. -/
def Flags.low (fl : Flags) : BitVec 12 :=
  fl.osBits ++ BitVec.ofBool fl.global ++ BitVec.ofBool fl.hugePage ++ BitVec.ofBool fl.dirty
    ++ BitVec.ofBool fl.accessed ++ BitVec.ofBool fl.cacheDisable ++ BitVec.ofBool fl.writeThrough
    ++ BitVec.ofBool fl.user ++ BitVec.ofBool fl.writable ++ BitVec.ofBool fl.present

/-- Bits 52 to 63: the reserved bits and `no_execute`. -/
def Flags.high (fl : Flags) : BitVec 12 := BitVec.ofBool fl.noExecute ++ 0#11

/-- The entry with the given flags and `phys_frame`, which keeps the low 40 bits of the frame number. -/
def make (fl : Flags) (frame : Nat) : Word := fl.high ++ BitVec.ofNat 40 frame ++ fl.low

def isPresent (w : Word) : Bool := w.getLsbD 0

def isWritable (w : Word) : Bool := w.getLsbD 1

def isHuge (w : Word) : Bool := w.getLsbD 7

/-- `os_bits & PTE_COW != 0`. -/
def isCow (w : Word) : Bool := w.getLsbD 9

def noExecute (w : Word) : Bool := w.getLsbD 63

/-- `phys_frame`; `getPhysAddr` is this times the page size. -/
def frame (w : Word) : Nat := (w.extractLsb' 12 40).toNat

/-- `raw &= ~2; raw |= 1 << 9`: read-only and copy-on-write. -/
def markCow (w : Word) : Word := (w &&& ~~~(2#64)) ||| (1#64 <<< 9)

/-- `raw |= 2; raw &= ~(1 << 9)`: writable and no longer copy-on-write. -/
def clearCow (w : Word) : Word := (w ||| 2#64) &&& ~~~(1#64 <<< 9)

def table (f : Nat) : Word := make { present := true, writable := true, user := true } f

section Fields
variable (fl : Flags) (f : Nat) (w : Word)

theorem getLsbD_make_low (i : Nat) (hi : i < 12) : (make fl f).getLsbD i = fl.low.getLsbD i := by
  rw [make, BitVec.getLsbD_append]
  simp [hi]

@[simp] theorem isPresent_zero : isPresent 0#64 = false := rfl

@[simp] theorem isPresent_make : isPresent (make fl f) = fl.present := by
  rw [isPresent, getLsbD_make_low _ _ _ (by decide), Flags.low]
  simp only [BitVec.getLsbD_append]
  simp

@[simp] theorem isWritable_make : isWritable (make fl f) = fl.writable := by
  rw [isWritable, getLsbD_make_low _ _ _ (by decide), Flags.low]
  simp only [BitVec.getLsbD_append]
  simp

@[simp] theorem isHuge_make : isHuge (make fl f) = fl.hugePage := by
  rw [isHuge, getLsbD_make_low _ _ _ (by decide), Flags.low]
  simp only [BitVec.getLsbD_append]
  simp

@[simp] theorem isCow_make : isCow (make fl f) = fl.osBits.getLsbD 0 := by
  rw [isCow, getLsbD_make_low _ _ _ (by decide), Flags.low]
  simp only [BitVec.getLsbD_append]
  simp

theorem frame_make (hf : f < 2 ^ 40) : frame (make fl f) = f := by
  have h : (make fl f).extractLsb' 12 40 = BitVec.ofNat 40 f := by
    apply BitVec.eq_of_getLsbD_eq
    intro i hi
    have h1 : ¬ 12 + i < 12 := by omega
    have h2 : 12 + i - 12 = i := by omega
    rw [BitVec.getLsbD_extractLsb', make, BitVec.getLsbD_append, if_neg h1, h2, BitVec.getLsbD_append, if_pos hi]
    simp [hi]
  rw [frame, h, BitVec.toNat_ofNat, Nat.mod_eq_of_lt hf]

theorem frame_eq_of_bits {w w' : Word} (h : ∀ i, 12 ≤ i → i < 52 → w'.getLsbD i = w.getLsbD i) :
    frame w' = frame w := by
  unfold frame
  congr 1
  apply BitVec.eq_of_getLsbD_eq
  intro i hi
  simp only [BitVec.getLsbD_extractLsb', h (12 + i) (by omega) (by omega)]

theorem getLsbD_two (i : Nat) : (2#64).getLsbD i = decide (i = 1) := by
  have h : (2#64) = BitVec.twoPow 64 1 := rfl
  rw [h, BitVec.getLsbD_twoPow]
  simp [eq_comm]

theorem getLsbD_cowBit (i : Nat) : (1#64 <<< 9).getLsbD i = decide (i = 9) := by
  have h : (1#64 <<< 9) = BitVec.twoPow 64 9 := rfl
  rw [h, BitVec.getLsbD_twoPow]
  simp [eq_comm]

theorem getLsbD_markCow (i : Nat) (hi : i < 64) :
    (markCow w).getLsbD i = (decide (i = 9) || (decide (i ≠ 1) && w.getLsbD i)) := by
  rw [markCow, BitVec.getLsbD_or, BitVec.getLsbD_and, BitVec.getLsbD_not, getLsbD_two, getLsbD_cowBit, Bool.or_comm,
    Bool.and_comm (w.getLsbD i)]
  simp [hi]

theorem getLsbD_clearCow (i : Nat) (hi : i < 64) :
    (clearCow w).getLsbD i = (decide (i ≠ 9) && (decide (i = 1) || w.getLsbD i)) := by
  rw [clearCow, BitVec.getLsbD_and, BitVec.getLsbD_or, BitVec.getLsbD_not, getLsbD_two, getLsbD_cowBit, Bool.and_comm,
    Bool.or_comm (w.getLsbD i)]
  simp [hi]

@[simp] theorem isPresent_markCow : isPresent (markCow w) = isPresent w := by
  rw [isPresent, getLsbD_markCow _ _ (by decide)]
  simp [isPresent]

@[simp] theorem isWritable_markCow : isWritable (markCow w) = false := by
  rw [isWritable, getLsbD_markCow _ _ (by decide)]
  simp

@[simp] theorem isCow_markCow : isCow (markCow w) = true := by
  rw [isCow, getLsbD_markCow _ _ (by decide)]
  simp

@[simp] theorem frame_markCow : frame (markCow w) = frame w := by
  refine frame_eq_of_bits fun i h1 h2 => ?_
  rw [getLsbD_markCow _ _ (by omega)]
  simp [show i ≠ 9 by omega, show i ≠ 1 by omega]

@[simp] theorem isPresent_clearCow : isPresent (clearCow w) = isPresent w := by
  rw [isPresent, getLsbD_clearCow _ _ (by decide)]
  simp [isPresent]

@[simp] theorem isWritable_clearCow : isWritable (clearCow w) = true := by
  rw [isWritable, getLsbD_clearCow _ _ (by decide)]
  simp

@[simp] theorem isCow_clearCow : isCow (clearCow w) = false := by
  rw [isCow, getLsbD_clearCow _ _ (by decide)]
  simp

@[simp] theorem frame_clearCow : frame (clearCow w) = frame w := by
  refine frame_eq_of_bits fun i h1 h2 => ?_
  rw [getLsbD_clearCow _ _ (by omega)]
  simp [show i ≠ 9 by omega, show i ≠ 1 by omega]

end Fields

end Zigix.Pte
