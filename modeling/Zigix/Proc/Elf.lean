import Zigix.Mm.Fault

/-!
# The ELF loader (`kernel/proc/elf.zig`)

* `getHeader`, `checkPhdr` : what is read from the image and checked; the header is validated once, each program header
  before its segment is loaded;
* `loadSegment` : new zeroed pages for the whole segment, then the file data on top of them;
* `loadPhdrs`, `loadElf` : the loop over the program headers.

`none` is the panic of a checked `u64` addition.
-/

namespace Zigix.Elf

open Pmm (pageSize addU64)
open Vmm (MapFlags mapPage translate)
open Ext2 (storeBytes)

abbrev Byte := BitVec 8

/-- `ET_EXEC`. -/
def etExec : Nat := 2

/-- `EM_X86_64`. -/
def emX86_64 : Nat := 62

/-- `PT_LOAD`. -/
def ptLoad : Nat := 1

/-- `USER_SPACE_END`. -/
def userSpaceEnd : Nat := 0x0000800000000000

/-- `@sizeOf(Elf64Header)`. -/
def headerSize : Nat := 64

/-- `@sizeOf(Elf64Phdr)`. -/
def phdrSize : Nat := 56

/-- The little-endian number in `n` bytes at `off`. -/
def le (data : List Byte) (off : Nat) : Nat → Nat
  | 0 => 0
  | n + 1 => (data.getD off 0).toNat + 256 * le data (off + 1) n

/-! ## Headers -/

/-- The fields of `Elf64Header` that the loader reads. -/
structure Elf64Header where
  eIdent : List Byte
  eType : Nat
  eMachine : Nat
  eEntry : Nat
  ePhoff : Nat
  ePhentsize : Nat
  ePhnum : Nat
  deriving DecidableEq

structure Elf64Phdr where
  pType : Nat
  pFlags : Nat
  pOffset : Nat
  pVaddr : Nat
  pFilesz : Nat
  pMemsz : Nat
  deriving DecidableEq

inductive LoadError
  | invalidElf
  | outOfMemory
  deriving DecidableEq

structure ElfInfo where
  entry : Nat
  highestAddr : Nat
  segmentsLoaded : Nat
  deriving DecidableEq

def readHeader (data : List Byte) : Elf64Header where
  eIdent := data.take 16
  eType := le data 16 2
  eMachine := le data 18 2
  eEntry := le data 24 8
  ePhoff := le data 32 8
  ePhentsize := le data 54 2
  ePhnum := le data 56 2

def getHeader (data : List Byte) : Option Elf64Header :=
  if data.length < headerSize then none
  else
    let header := readHeader data
    -- magic, class and data encoding
    if header.eIdent.take 6 ≠ [0x7F, 0x45, 0x4C, 0x46, 2, 1] then none
    else if header.eType ≠ etExec then none
    else if header.eMachine ≠ emX86_64 then none
    else if header.ePhentsize < phdrSize then none
    else if header.ePhnum = 0 then none
    else some header

def readPhdr (data : List Byte) (off : Nat) : Elf64Phdr where
  pType := le data off 4
  pFlags := le data (off + 4) 4
  pOffset := le data (off + 8) 8
  pVaddr := le data (off + 16) 8
  pFilesz := le data (off + 32) 8
  pMemsz := le data (off + 40) 8

/-- `phdr.p_flags & PF_W`. -/
def Elf64Phdr.writable (p : Elf64Phdr) : Bool := p.pFlags.testBit 1

/-- `phdr.p_flags & PF_X`. -/
def Elf64Phdr.executable (p : Elf64Phdr) : Bool := p.pFlags.testBit 0

/-- Program header `i` and the checks on it; `.ok none` if it is not `PT_LOAD`. -/
def checkPhdr (data : List Byte) (header : Elf64Header) (i : Nat) : Option (Except LoadError (Option Elf64Phdr)) := do
  let off ← addU64 header.ePhoff (i * header.ePhentsize)
  let stop ← addU64 off phdrSize
  if data.length < stop then return .error .invalidElf
  let phdr := readPhdr data off
  if phdr.pType ≠ ptLoad then return .ok none
  if userSpaceEnd ≤ phdr.pVaddr then return .error .invalidElf
  let memEnd ← addU64 phdr.pVaddr phdr.pMemsz
  if userSpaceEnd < memEnd then return .error .invalidElf
  if phdr.pMemsz < phdr.pFilesz then return .error .invalidElf
  let fileEnd ← addU64 phdr.pOffset phdr.pFilesz
  if data.length < fileEnd then return .error .invalidElf
  return .ok (some phdr)

/-! ## Segments -/

def pageAlignUp (addr : Nat) : Nat := (addr + pageSize - 1) / pageSize * pageSize

/-- `phdr.p_vaddr & ~0xFFF`. -/
def Elf64Phdr.segStart (p : Elf64Phdr) : Nat := p.pVaddr / pageSize * pageSize

def Elf64Phdr.segEnd (p : Elf64Phdr) : Nat := pageAlignUp (p.pVaddr + p.pMemsz)

/-- `n` new zeroed pages from `addr` on; `false` is `error.OutOfMemory`. -/
def mapZeroed (root : Nat) (flags : MapFlags) : Nat → Nat → Machine → Bool × Machine
  | 0, _, m => (true, m)
  | n + 1, addr, m =>
    match m.allocPage with
    | (none, m) => (false, m)
    | (some page, m) =>
      match mapPage (m.zeroPage page) root addr page flags with
      | (false, m) => (false, m)
      | (true, m) => mapZeroed root flags n (addr + pageSize) m

/-- The copy loop; a turn copies at least one byte, so `remaining` turns suffice. -/
def copyFile (root : Nat) (data : List Byte) : Nat → Nat → Nat → Nat → Machine → Bool × Machine
  | 0, _, _, _, m => (true, m)
  | fuel + 1, vaddr, srcOff, remaining, m =>
    if remaining = 0 then (true, m)
    else
      let chunk := min remaining (pageSize - vaddr % pageSize)
      match translate m root vaddr with
      | none => (false, m)
      | some phys =>
        let m := storeBytes m (phys / pageSize) (phys % pageSize) ((data.drop srcOff).take chunk)
        copyFile root data fuel (vaddr + chunk) (srcOff + chunk) (remaining - chunk) m

def loadSegment (root : Nat) (data : List Byte) (phdr : Elf64Phdr) (m : Machine) : Bool × Machine :=
  let flags : MapFlags := { user := true, writable := phdr.writable, noExecute := !phdr.executable }
  match mapZeroed root flags ((phdr.segEnd - phdr.segStart) / pageSize) phdr.segStart m with
  | (false, m) => (false, m)
  | (true, m) => copyFile root data phdr.pFilesz phdr.pVaddr phdr.pOffset phdr.pFilesz m

def ElfInfo.add (info : ElfInfo) (phdr : Elf64Phdr) : ElfInfo :=
  { info with segmentsLoaded := info.segmentsLoaded + 1, highestAddr := max info.highestAddr phdr.segEnd }

/-- The loop of `loadElf` over the program headers with these indices. -/
def loadPhdrs (root : Nat) (data : List Byte) (header : Elf64Header) :
    List Nat → ElfInfo → Machine → Option (Except LoadError ElfInfo × Machine)
  | [], info, m => some (if info.segmentsLoaded = 0 then .error .invalidElf else .ok info, m)
  | i :: rest, info, m => do
    match ← checkPhdr data header i with
    | .error e => return (.error e, m)
    | .ok none => loadPhdrs root data header rest info m
    | .ok (some phdr) =>
      match loadSegment root data phdr m with
      | (false, m) => return (.error .outOfMemory, m)
      | (true, m) => loadPhdrs root data header rest (info.add phdr) m

def loadElf (root : Nat) (data : List Byte) (m : Machine) : Option (Except LoadError ElfInfo × Machine) :=
  match getHeader data with
  | none => some (.error .invalidElf, m)
  | some header => loadPhdrs root data header (List.range header.ePhnum) ⟨header.eEntry, 0, 0⟩ m

end Zigix.Elf
