import Zigix.Lib.Bytes
import Zigix.Lib.Crc

/-!
# CRC-32C and the checksum of an inode (`kernel/fs/common/crc32c.zig`, `kernel/fs/ext4/inode_ext4.zig`)

* `crc32cTable`, `update`, `finalize` : the remainder of a list of bytes, a byte at a time with a table of 256 words;
* `computeChecksum`, `verifyChecksum`, `storeChecksum` : the checksum of the UUID, the inode number, the generation and the
  inode with its two checksum fields zero;
* `update_divide` : the table does eight steps of the division;
* `checksumStream`, `computeChecksum_stream` : the segments in one list of bytes;
* `inode_checksums` : the table and the division agree, what is stored is verified, and no bit can be flipped after that.
-/

namespace Zigix.InodeChecksum

open Bytes (Buf)

/-! ## The remainder -/

def crc32cPoly : BitVec 32 := 0x82F63B78

/-- An entry is its index after eight steps. -/
def crc32cTable (i : BitVec 8) : BitVec 32 :=
  (fun crc : BitVec 32 => if crc &&& 1 ≠ 0 then (crc >>> 1) ^^^ crc32cPoly else crc >>> 1)^[8] (i.setWidth 32)

namespace Crc32c

def update (crc : BitVec 32) (data : List (BitVec 8)) : BitVec 32 :=
  data.foldl (fun c b => crc32cTable (c.setWidth 8 ^^^ b) ^^^ (c >>> 8)) crc

def finalize (crc : BitVec 32) : BitVec 32 := crc ^^^ 0xFFFFFFFF

def seedFromUuid (uuid : Fin 16 → BitVec 8) : BitVec 32 := update 0xFFFFFFFF (List.ofFn uuid)

end Crc32c

open Crc32c

/-! ## Inodes -/

def inodeSize256 : Nat := 256
def checksumLoOffset : Nat := 0x7C
def checksumHiOffset : Nat := 0x82
def generationOffset : Nat := 0x64

def readU16LE (buf : Buf) (off : Nat) : BitVec 16 := (buf off).setWidth 16 ||| (buf (off + 1)).setWidth 16 <<< 8

def readU32LE (buf : Buf) (off : Nat) : BitVec 32 :=
  (buf off).setWidth 32 ||| (buf (off + 1)).setWidth 32 <<< 8 ||| (buf (off + 2)).setWidth 32 <<< 16 |||
    (buf (off + 3)).setWidth 32 <<< 24

def writeU16LE (buf : Buf) (off : Nat) (val : BitVec 16) : Buf :=
  Function.update (Function.update buf off (val.setWidth 8)) (off + 1) ((val >>> 8).setWidth 8)

def bytesLE (x : BitVec 32) : List (BitVec 8) :=
  [x.setWidth 8, (x >>> 8).setWidth 8, (x >>> 16).setWidth 8, (x >>> 24).setWidth 8]

/-- The bytes of a buffer from `off` on. -/
def segment (buf : Buf) (off len : Nat) : List (BitVec 8) := (List.range len).map fun i => buf (off + i)

def computeChecksum (buf : Buf) (size : Nat) (inodeNumber : BitVec 32) (uuid : Fin 16 → BitVec 8) : BitVec 32 :=
  let crc := seedFromUuid uuid
  let crc := update crc (bytesLE inodeNumber)
  let crc := update crc (bytesLE (readU32LE buf generationOffset))
  let crc := update crc (segment buf 0 checksumLoOffset)
  let crc := update crc [0, 0]
  let afterLo := checksumLoOffset + 2
  let crc :=
    if afterLo < size then
      if inodeSize256 ≤ size then
        let crc := update crc (segment buf afterLo (checksumHiOffset - afterLo))
        let crc := update crc [0, 0]
        if checksumHiOffset + 2 < size then
          update crc (segment buf (checksumHiOffset + 2) (size - (checksumHiOffset + 2)))
        else crc
      else update crc (segment buf afterLo (size - afterLo))
    else crc
  finalize crc

def storedChecksum (buf : Buf) (size : Nat) : BitVec 32 :=
  let storedLo := (readU16LE buf checksumLoOffset).setWidth 32
  let storedHi := if inodeSize256 ≤ size then (readU16LE buf checksumHiOffset).setWidth 32 else 0
  storedHi <<< 16 ||| storedLo

def verifyChecksum (buf : Buf) (size : Nat) (inodeNumber : BitVec 32) (uuid : Fin 16 → BitVec 8) : Bool :=
  storedChecksum buf size == computeChecksum buf size inodeNumber uuid

def storeChecksum (buf : Buf) (size : Nat) (inodeNumber : BitVec 32) (uuid : Fin 16 → BitVec 8) : Buf :=
  let csum := computeChecksum buf size inodeNumber uuid
  let buf := writeU16LE buf checksumLoOffset (csum.setWidth 16)
  if inodeSize256 ≤ size then writeU16LE buf checksumHiOffset ((csum >>> 16).setWidth 16) else buf

def flipBit (buf : Buf) (i k : Nat) : Buf := Function.update buf i (buf i ^^^ BitVec.twoPow 8 k)

/-! ## The table -/

theorem crc32cTable_eq (i : BitVec 8) : crc32cTable i = (Crc.step crc32cPoly)^[8] (i.setWidth 32) := by
  have hstep : (fun crc : BitVec 32 => if crc &&& 1 ≠ 0 then (crc >>> 1) ^^^ crc32cPoly else crc >>> 1) =
      Crc.step crc32cPoly := by
    funext crc
    have hbit : crc &&& 1 = (BitVec.ofBool (crc.getLsbD 0)).setWidth 32 := BitVec.and_one_eq_setWidth_ofBool_getLsbD
    unfold Crc.step
    rw [hbit]
    cases crc.getLsbD 0 <;> rfl
  unfold crc32cTable
  rw [hstep]

theorem table_step (c : BitVec 32) (b : BitVec 8) :
    crc32cTable (c.setWidth 8 ^^^ b) ^^^ (c >>> 8) = Crc.divide crc32cPoly c (Crc.bits b) := by
  have hb : b.setWidth 32 >>> 8 = 0#32 := by
    apply BitVec.eq_of_getLsbD_eq
    intro i _
    rw [BitVec.getLsbD_ushiftRight, BitVec.getLsbD_setWidth, BitVec.getLsbD_of_ge b (8 + i) (by omega), Bool.and_false,
      BitVec.getLsbD_zero]
  have hlow : (c ^^^ b.setWidth 32).setWidth 8 = c.setWidth 8 ^^^ b := by
    rw [BitVec.setWidth_xor, BitVec.setWidth_setWidth_of_le _ (by decide), BitVec.setWidth_eq]
  rw [Crc.divide_bits crc32cPoly b (by decide), Crc.iterate_step_split, hlow, BitVec.ushiftRight_xor_distrib, hb,
    BitVec.xor_zero, crc32cTable_eq]

theorem update_append (crc : BitVec 32) (xs ys : List (BitVec 8)) : update crc (xs ++ ys) = update (update crc xs) ys :=
  List.foldl_append

theorem update_divide (crc : BitVec 32) (data : List (BitVec 8)) :
    update crc data = Crc.divide crc32cPoly crc (data.flatMap Crc.bits) := by
  induction data generalizing crc with
  | nil => rfl
  | cons b data ih =>
    rw [List.flatMap_cons, Crc.divide_append, ← table_step, ← ih]
    rfl

theorem update_flatten (crc : BitVec 32) (pieces : List (List (BitVec 8))) :
    pieces.foldl update crc = update crc pieces.flatten := by
  induction pieces generalizing crc with
  | nil => rfl
  | cons piece pieces ih => rw [List.foldl_cons, ih, List.flatten_cons, update_append]

/-! ## Differences -/

variable {x y : BitVec 8} {c : BitVec 32}

theorem update_injective (data : List (BitVec 8)) : Function.Injective fun c => update c data := by
  intro c d h
  dsimp only at h
  rw [update_divide, update_divide] at h
  exact Crc.divide_injective crc32cPoly (by decide) _ h

theorem update_byte (c : BitVec 32) (x : BitVec 8) :
    update c [x] = (Crc.step crc32cPoly)^[8] (c ^^^ x.setWidth 32) := by
  rw [update_divide, List.flatMap_singleton, Crc.divide_bits crc32cPoly x (by decide)]

theorem length_flatMap_bits (data : List (BitVec 8)) : (data.flatMap Crc.bits).length = 8 * data.length := by
  have hbits : ∀ b : BitVec 8, (Crc.bits b).length = 8 := fun b => by simp [Crc.bits]
  induction data with
  | nil => rfl
  | cons b data ih =>
    rw [List.flatMap_cons, List.length_append, hbits, ih, List.length_cons]
    omega

theorem update_xor (c d : BitVec 32) (data : List (BitVec 8)) :
    update (c ^^^ d) data = update c data ^^^ (Crc.step crc32cPoly)^[8 * data.length] d := by
  rw [update_divide, update_divide, Crc.divide_xor, length_flatMap_bits]

theorem update_ne (hne : x ≠ y) (c : BitVec 32) (front back : List (BitVec 8)) :
    update c (front ++ x :: back) ≠ update c (front ++ y :: back) := by
  intro h
  have hbyte : update (update c front) [x] = update (update c front) [y] := by
    apply update_injective back
    dsimp only
    rw [← update_append, ← update_append, ← update_append, ← update_append]
    simpa using h
  rw [update_byte, update_byte] at hbyte
  have hsame := Crc.xor_left_cancel ((Crc.step_injective crc32cPoly (by decide)).iterate 8 hbyte)
  have hback := congrArg (BitVec.setWidth 8) hsame
  rw [BitVec.setWidth_setWidth_of_le _ (by decide), BitVec.setWidth_setWidth_of_le _ (by decide), BitVec.setWidth_eq,
    BitVec.setWidth_eq] at hback
  exact hne hback

theorem lowest_moved : (Crc.step crc32cPoly)^[832] 1#32 ≠ 1#32 := by
  have hhalf : (Crc.step crc32cPoly)^[416] 1#32 = 2758735018#32 := by decide +kernel
  have hrest : (Crc.step crc32cPoly)^[416] 2758735018#32 ≠ 1#32 := by decide +kernel
  rw [show (832 : Nat) = 416 + 416 from rfl, Function.iterate_add_apply, hhalf]
  exact hrest

theorem bit_moved {k : Nat} (hk : k < 8) :
    (Crc.step crc32cPoly)^[832] ((BitVec.twoPow 8 k).setWidth 32) ≠ (BitVec.twoPow 8 k).setWidth 32 := by
  intro h
  have hdown : ∀ k < 8, (Crc.step crc32cPoly)^[k] ((BitVec.twoPow 8 k).setWidth 32) = 1#32 := by decide +kernel
  have hlow := hdown k hk
  have hcomm : (Crc.step crc32cPoly)^[832] ((Crc.step crc32cPoly)^[k] ((BitVec.twoPow 8 k).setWidth 32)) =
      (Crc.step crc32cPoly)^[k] ((BitVec.twoPow 8 k).setWidth 32) := by
    rw [← Function.iterate_add_apply, Nat.add_comm, Function.iterate_add_apply, h]
  rw [hlow] at hcomm
  exact lowest_moved hcomm

/-- Nor does a byte that differs in one bit and does so again 104 bytes later. -/
theorem update_twice_ne {k : Nat} (hk : k < 8) (c : BitVec 32) (x : BitVec 8) (front back : List (BitVec 8))
    {middle : List (BitVec 8)} (hlen : middle.length = 103) :
    update c (front ++ x :: (middle ++ x :: back)) ≠
      update c (front ++ (x ^^^ BitVec.twoPow 8 k) :: (middle ++ (x ^^^ BitVec.twoPow 8 k) :: back)) := by
  intro h
  obtain ⟨e, he⟩ : ∃ e, e = (BitVec.twoPow 8 k).setWidth 32 := ⟨_, rfl⟩
  have hx : (x ^^^ BitVec.twoPow 8 k).setWidth 32 = x.setWidth 32 ^^^ e := by rw [he, BitVec.setWidth_xor]
  -- the register after the first byte, and how much it differs
  obtain ⟨s, hs⟩ : ∃ s, s = update (update c front) [x] := ⟨_, rfl⟩
  have hs' : update (update c front) [x ^^^ BitVec.twoPow 8 k] = s ^^^ (Crc.step crc32cPoly)^[8] e := by
    rw [hs, update_byte, update_byte, hx, ← BitVec.xor_assoc, Crc.iterate_step_xor crc32cPoly 8 (_ ^^^ x.setWidth 32)]
  have hsecond : update (update s middle) [x] =
      update (update (s ^^^ (Crc.step crc32cPoly)^[8] e) middle) [x ^^^ BitVec.twoPow 8 k] := by
    apply update_injective back
    dsimp only
    rw [← hs', hs]
    simp only [← update_append]
    simpa using h
  rw [update_byte, update_byte, update_xor, hlen, hx, ← Function.iterate_add_apply] at hsecond
  have hregister := (Crc.step_injective crc32cPoly (by decide)).iterate 8 hsecond
  rw [Crc.xor_swap] at hregister
  have hmoved : 0#32 = (Crc.step crc32cPoly)^[832] e ^^^ e := by
    apply Crc.xor_left_cancel (a := update s middle ^^^ x.setWidth 32)
    rw [BitVec.xor_zero]
    exact hregister
  rw [he] at hmoved
  exact bit_moved hk (Crc.xor_eq_zero hmoved.symm)

/-! ## The stream -/

section
variable {buf : Buf} {size off len m n i k : Nat} {inodeNumber : BitVec 32} {uuid : Fin 16 → BitVec 8}

def isChecksumByte (i : Nat) : Prop :=
  i = checksumLoOffset ∨ i = checksumLoOffset + 1 ∨ i = checksumHiOffset ∨ i = checksumHiOffset + 1

instance : Decidable (isChecksumByte i) := by unfold isChecksumByte; infer_instance

def zeroed (buf : Buf) : Buf := fun i => if isChecksumByte i then 0 else buf i

def checksumStream (buf : Buf) (size : Nat) (inodeNumber : BitVec 32) (uuid : Fin 16 → BitVec 8) : List (BitVec 8) :=
  List.ofFn uuid ++ bytesLE inodeNumber ++ segment buf generationOffset 4 ++ segment (zeroed buf) 0 size

@[simp] theorem length_segment (buf : Buf) (off len : Nat) : (segment buf off len).length = len := by simp [segment]

theorem segment_add (buf : Buf) (off m n : Nat) : segment buf off (m + n) = segment buf off m ++ segment buf (off + m) n := by
  unfold segment
  rw [List.range_add, List.map_append, List.map_map]
  congr 1
  exact List.map_congr_left fun i _ => congrArg buf (Nat.add_assoc ..).symm

theorem segment_congr {buf' : Buf} (h : ∀ i, off ≤ i → i < off + len → buf i = buf' i) : segment buf off len = segment buf' off len :=
  List.map_congr_left fun i hi => h (off + i) (Nat.le_add_right ..) (by have := List.mem_range.1 hi; omega)

theorem segment_at (buf : Buf) (hlo : off ≤ i) (hhi : i < off + len) :
    segment buf off len = segment buf off (i - off) ++ buf i :: segment buf (i + 1) (off + len - (i + 1)) := by
  have hlen : len = (i - off) + (1 + (off + len - (i + 1))) := by omega
  conv_lhs => rw [hlen]
  rw [segment_add, segment_add buf _ 1, show off + (i - off) = i by omega]
  rfl

theorem bytesLE_readU32LE (buf : Buf) (off : Nat) : bytesLE (readU32LE buf off) = segment buf off 4 := by
  have hover16 : ∀ (b : BitVec 8) (i : Nat), b.getLsbD (16 + i) = false := fun b i => BitVec.getLsbD_of_ge _ _ (by omega)
  have hover24 : ∀ (b : BitVec 8) (i : Nat), b.getLsbD (24 + i) = false := fun b i => BitVec.getLsbD_of_ge _ _ (by omega)
  show _ = [buf off, buf (off + 1), buf (off + 2), buf (off + 3)]
  unfold bytesLE readU32LE
  congr 1
  · apply BitVec.eq_of_getLsbD_eq
    intro i hi
    simp [hi]
  congr 1
  · apply BitVec.eq_of_getLsbD_eq
    intro i hi
    simp [hi, show 8 + i < 16 by omega, show 8 + i < 24 by omega, show 8 + i < 32 by omega]
  congr 1
  · apply BitVec.eq_of_getLsbD_eq
    intro i hi
    simp [hi, hover16, show 16 + i < 24 by omega, show 16 + i < 32 by omega, show 16 + i - 8 = 8 + i by omega]
  congr 1
  apply BitVec.eq_of_getLsbD_eq
  intro i hi
  simp [hi, hover16, hover24, show 24 + i < 32 by omega, show 24 + i - 8 = 16 + i by omega,
    show 24 + i - 16 = 8 + i by omega]

theorem zeroed_of_not (h : ¬ isChecksumByte i) : zeroed buf i = buf i := if_neg h

theorem segment_zeroed (hsize : inodeSize256 ≤ size) :
    segment (zeroed buf) 0 size =
      segment buf 0 checksumLoOffset ++ ([0, 0] ++
        (segment buf (checksumLoOffset + 2) (checksumHiOffset - (checksumLoOffset + 2)) ++
          ([0, 0] ++ segment buf (checksumHiOffset + 2) (size - (checksumHiOffset + 2))))) := by
  unfold inodeSize256 at hsize
  have hsplit : size = 0x7C + (2 + (4 + (2 + (size - 0x84)))) := by omega
  have hsame : ∀ off len, (∀ i, off ≤ i → i < off + len → ¬ isChecksumByte i) →
      segment (zeroed buf) off len = segment buf off len :=
    fun off len h => segment_congr fun i hlo hhi => zeroed_of_not (h i hlo hhi)
  conv_lhs => rw [hsplit, segment_add, segment_add, segment_add, segment_add]
  rw [hsame 0 0x7C fun i _ hhi => by unfold isChecksumByte checksumLoOffset checksumHiOffset; omega,
    hsame _ 4 fun i hlo hhi => by unfold isChecksumByte checksumLoOffset checksumHiOffset; omega,
    hsame _ (size - 0x84) fun i hlo hhi => by unfold isChecksumByte checksumLoOffset checksumHiOffset; omega]
  rfl

theorem computeChecksum_stream (hsize : inodeSize256 ≤ size) :
    computeChecksum buf size inodeNumber uuid = finalize (update 0xFFFFFFFF (checksumStream buf size inodeNumber uuid)) := by
  have hlo : checksumLoOffset + 2 < size := lt_of_lt_of_le (by decide) hsize
  have hhi : checksumHiOffset + 2 < size := lt_of_lt_of_le (by decide) hsize
  unfold computeChecksum checksumStream seedFromUuid
  dsimp only
  rw [if_pos hlo, if_pos hsize, if_pos hhi, segment_zeroed hsize, bytesLE_readU32LE]
  simp only [update_append]

/-! ## What is stored -/

theorem join_halves (x : BitVec (n + n)) :
    (x.setWidth n).setWidth (n + n) ||| ((x >>> n).setWidth n).setWidth (n + n) <<< n = x := by
  apply BitVec.eq_of_getLsbD_eq
  intro i hi
  simp only [BitVec.getLsbD_or, BitVec.getLsbD_setWidth, BitVec.getLsbD_shiftLeft, BitVec.getLsbD_ushiftRight, hi]
  by_cases hin : i < n
  · simp [hin]
  · simp [hin, show i - n < n by omega, show i - n < n + n by omega, show n + (i - n) = i by omega]

theorem join_injective {a b a' b' : BitVec n}
    (h : a.setWidth (n + n) ||| b.setWidth (n + n) <<< n = a'.setWidth (n + n) ||| b'.setWidth (n + n) <<< n) : a = a' ∧ b = b' := by
  have hbits : ∀ i, _ := fun i => congrArg (fun x => x.getLsbD i) h
  simp only [BitVec.getLsbD_or, BitVec.getLsbD_setWidth, BitVec.getLsbD_shiftLeft] at hbits
  constructor <;> apply BitVec.eq_of_getLsbD_eq <;> intro i hi
  · have := hbits i
    simpa [hi, show i < n + n by omega] using this
  · have := hbits (n + i)
    simpa [hi, show i < n + n by omega, BitVec.getLsbD_of_ge a (n + i) (by omega),
      BitVec.getLsbD_of_ge a' (n + i) (by omega)] using this

theorem readU16LE_writeU16LE (buf : Buf) (off : Nat) (val : BitVec 16) : readU16LE (writeU16LE buf off val) off = val := by
  have hlo : writeU16LE buf off val off = val.setWidth 8 := by
    unfold writeU16LE
    rw [Function.update_of_ne (by omega), Function.update_self]
  have hhi : writeU16LE buf off val (off + 1) = (val >>> 8).setWidth 8 := Function.update_self ..
  unfold readU16LE
  rw [hlo, hhi]
  exact join_halves (n := 8) val

theorem writeU16LE_of_ne (h : i ≠ off) (h' : i ≠ off + 1) (val : BitVec 16) : writeU16LE buf off val i = buf i := by
  unfold writeU16LE
  rw [Function.update_of_ne h', Function.update_of_ne h]

theorem readU16LE_of_write {lower : Nat} (h : lower + 1 < off) (val : BitVec 16) :
    readU16LE (writeU16LE buf off val) lower = readU16LE buf lower := by
  unfold readU16LE
  rw [writeU16LE_of_ne (by omega) (by omega), writeU16LE_of_ne (by omega) (by omega)]

theorem storedChecksum_of_le (hsize : inodeSize256 ≤ size) :
    storedChecksum buf size = (readU16LE buf checksumLoOffset).setWidth 32 ||| (readU16LE buf checksumHiOffset).setWidth 32 <<< 16 := by
  unfold storedChecksum
  rw [if_pos hsize]
  exact BitVec.or_comm ..

theorem storeChecksum_of_not (h : ¬ isChecksumByte i) : storeChecksum buf size inodeNumber uuid i = buf i := by
  unfold isChecksumByte at h
  unfold storeChecksum
  split
  · rw [writeU16LE_of_ne (by omega) (by omega), writeU16LE_of_ne (by omega) (by omega)]
  · rw [writeU16LE_of_ne (by omega) (by omega)]

theorem storedChecksum_storeChecksum (hsize : inodeSize256 ≤ size) :
    storedChecksum (storeChecksum buf size inodeNumber uuid) size = computeChecksum buf size inodeNumber uuid := by
  rw [storedChecksum_of_le hsize]
  unfold storeChecksum
  dsimp only
  rw [if_pos hsize, readU16LE_writeU16LE]
  rw [readU16LE_of_write (by decide), readU16LE_writeU16LE]
  exact join_halves (n := 16) _

theorem computeChecksum_congr {buf' : Buf} (hsize : inodeSize256 ≤ size) (h : ∀ i, ¬ isChecksumByte i → buf i = buf' i) :
    computeChecksum buf size inodeNumber uuid = computeChecksum buf' size inodeNumber uuid := by
  have hzeroed : zeroed buf = zeroed buf' := by
    funext i
    unfold zeroed
    split
    · rfl
    · next hi => exact h i hi
  have hgen : segment buf generationOffset 4 = segment buf' generationOffset 4 :=
    segment_congr fun i hlo hhi => h i (by unfold isChecksumByte checksumLoOffset checksumHiOffset; unfold generationOffset at hlo hhi; omega)
  rw [computeChecksum_stream hsize, computeChecksum_stream hsize]
  unfold checksumStream
  rw [hzeroed, hgen]

theorem verifyChecksum_storeChecksum (hsize : inodeSize256 ≤ size) :
    verifyChecksum (storeChecksum buf size inodeNumber uuid) size inodeNumber uuid = true := by
  unfold verifyChecksum
  rw [beq_iff_eq, storedChecksum_storeChecksum hsize]
  exact computeChecksum_congr hsize fun i hi => (storeChecksum_of_not hi).symm

/-! ## Flips -/

theorem flipBit_of_ne {j : Nat} (h : j ≠ i) : flipBit buf i k j = buf j := Function.update_of_ne h ..

theorem flipBit_self : flipBit buf i k i = buf i ^^^ BitVec.twoPow 8 k := Function.update_self ..

theorem flipBit_ne (hk : k < 8) (x : BitVec 8) : x ≠ x ^^^ BitVec.twoPow 8 k := by
  intro h
  have hzero : BitVec.twoPow 8 k = 0#8 := Crc.xor_left_cancel (a := x) (by rw [← h, BitVec.xor_zero])
  have hne : ∀ k < 8, BitVec.twoPow 8 k ≠ 0#8 := by decide
  exact hne k hk hzero

theorem segment_flipBit (hlo : off ≤ i) (hhi : i < off + len) :
    segment (flipBit buf i k) off len =
      segment buf off (i - off) ++ (buf i ^^^ BitVec.twoPow 8 k) :: segment buf (i + 1) (off + len - (i + 1)) := by
  have hfront : segment (flipBit buf i k) off (i - off) = segment buf off (i - off) :=
    segment_congr fun j _ hj => flipBit_of_ne (by omega)
  have hback : segment (flipBit buf i k) (i + 1) (off + len - (i + 1)) = segment buf (i + 1) (off + len - (i + 1)) :=
    segment_congr fun j hj _ => flipBit_of_ne (by omega)
  rw [segment_at _ hlo hhi, hfront, hback, flipBit_self]

theorem zeroed_flipBit (h : ¬ isChecksumByte i) : zeroed (flipBit buf i k) = flipBit (zeroed buf) i k := by
  funext j
  by_cases hj : j = i
  · subst hj
    rw [zeroed_of_not h, flipBit_self, flipBit_self, zeroed_of_not h]
  · rw [flipBit_of_ne hj]
    unfold zeroed
    rw [flipBit_of_ne hj]

theorem computeChecksum_flipBit (hsize : inodeSize256 ≤ size) (hi : i < size) (hk : k < 8) (h : ¬ isChecksumByte i) :
    computeChecksum (flipBit buf i k) size inodeNumber uuid ≠ computeChecksum buf size inodeNumber uuid := by
  rw [computeChecksum_stream hsize, computeChecksum_stream hsize]
  intro hsame
  have hupdate : update 0xFFFFFFFF (checksumStream (flipBit buf i k) size inodeNumber uuid) =
      update 0xFFFFFFFF (checksumStream buf size inodeNumber uuid) := (BitVec.xor_left_inj _).1 hsame
  have hdata := segment_at (zeroed buf) (Nat.zero_le i) (show i < 0 + size by omega)
  have hdata' : segment (flipBit (zeroed buf) i k) 0 size =
      segment (zeroed buf) 0 (i - 0) ++ (zeroed buf i ^^^ BitVec.twoPow 8 k) :: segment (zeroed buf) (i + 1) (0 + size - (i + 1)) :=
    segment_flipBit (Nat.zero_le i) (by omega)
  unfold checksumStream at hupdate
  rw [zeroed_flipBit h, hdata', hdata, zeroed_of_not h] at hupdate
  by_cases hgen : generationOffset ≤ i ∧ i < generationOffset + 4
  · -- the generation comes twice, 104 bytes apart
    rw [segment_flipBit hgen.1 hgen.2, segment_at buf hgen.1 hgen.2] at hupdate
    obtain ⟨front, hfront⟩ : ∃ front, front =
      List.ofFn uuid ++ bytesLE inodeNumber ++ segment buf generationOffset (i - generationOffset) := ⟨_, rfl⟩
    obtain ⟨middle, hmiddle⟩ : ∃ middle, middle =
      segment buf (i + 1) (generationOffset + 4 - (i + 1)) ++ segment (zeroed buf) 0 (i - 0) := ⟨_, rfl⟩
    have hlen : middle.length = 103 := by
      unfold generationOffset at hgen hmiddle
      rw [hmiddle, List.length_append, length_segment, length_segment]
      omega
    apply update_twice_ne hk 0xFFFFFFFF (buf i) front (segment (zeroed buf) (i + 1) (0 + size - (i + 1))) hlen
    rw [hfront, hmiddle]
    simpa only [List.append_assoc, List.cons_append] using hupdate.symm
  · have hsegment : segment (flipBit buf i k) generationOffset 4 = segment buf generationOffset 4 :=
      segment_congr fun j hlo hhi => flipBit_of_ne (by omega)
    rw [hsegment, ← List.append_assoc, ← List.append_assoc] at hupdate
    exact update_ne (flipBit_ne hk (buf i)) _ _ _ hupdate.symm

theorem storedChecksum_congr {buf' : Buf} (h : ∀ i, isChecksumByte i → buf i = buf' i) :
    storedChecksum buf size = storedChecksum buf' size := by
  unfold storedChecksum readU16LE
  rw [h _ (.inl rfl), h _ (.inr (.inl rfl)), h _ (.inr (.inr (.inl rfl))), h _ (.inr (.inr (.inr rfl)))]

theorem storedChecksum_flipBit (hsize : inodeSize256 ≤ size) (hk : k < 8) (h : isChecksumByte i) :
    storedChecksum (flipBit buf i k) size ≠ storedChecksum buf size := by
  rw [storedChecksum_of_le hsize, storedChecksum_of_le hsize]
  intro hsame
  obtain ⟨hlo, hhi⟩ := join_injective (n := 16) hsame
  obtain ⟨h0, h1⟩ := join_injective (n := 8) hlo
  obtain ⟨h2, h3⟩ := join_injective (n := 8) hhi
  have hbyte : flipBit buf i k i = buf i := by
    rcases h with rfl | rfl | rfl | rfl
    · exact h0
    · exact h1
    · exact h2
    · exact h3
  rw [flipBit_self] at hbyte
  exact flipBit_ne hk (buf i) hbyte.symm

theorem verifyChecksum_flipBit (hverify : verifyChecksum buf size inodeNumber uuid = true) (hsize : inodeSize256 ≤ size)
    (hi : i < size) (hk : k < 8) : verifyChecksum (flipBit buf i k) size inodeNumber uuid = false := by
  unfold verifyChecksum at hverify ⊢
  rw [beq_iff_eq] at hverify
  rw [beq_eq_false_iff_ne]
  by_cases hbyte : isChecksumByte i
  · have hcomputed : computeChecksum (flipBit buf i k) size inodeNumber uuid = computeChecksum buf size inodeNumber uuid :=
      computeChecksum_congr hsize fun j hj => flipBit_of_ne fun h => hj (h ▸ hbyte)
    rw [hcomputed, ← hverify]
    exact storedChecksum_flipBit hsize hk hbyte
  · have hstored : storedChecksum (flipBit buf i k) size = storedChecksum buf size :=
      storedChecksum_congr fun j hj => flipBit_of_ne fun h => hbyte (h ▸ hj)
    rw [hstored, hverify]
    exact (computeChecksum_flipBit hsize hi hk hbyte).symm

/-- **CRC-32C and inode checksums.** Chained updates are one update, and that is the division bit by bit. What is stored in an
inode is verified, nothing but the checksum has changed, and no bit can be flipped after that. -/
theorem inode_checksums (buf : Buf) (size : Nat) (inodeNumber : BitVec 32) (uuid : Fin 16 → BitVec 8)
    (hsize : inodeSize256 ≤ size) :
    (∀ (crc : BitVec 32) (pieces : List (List (BitVec 8))), pieces.foldl update crc = update crc pieces.flatten) ∧
    (∀ (crc : BitVec 32) (data : List (BitVec 8)), update crc data = Crc.divide crc32cPoly crc (data.flatMap Crc.bits)) ∧
    verifyChecksum (storeChecksum buf size inodeNumber uuid) size inodeNumber uuid = true ∧
    (∀ i, ¬ isChecksumByte i → storeChecksum buf size inodeNumber uuid i = buf i) ∧
    ∀ i < size, ∀ k < 8, verifyChecksum (flipBit (storeChecksum buf size inodeNumber uuid) i k) size inodeNumber uuid = false :=
  ⟨update_flatten, update_divide, verifyChecksum_storeChecksum hsize, fun _ => storeChecksum_of_not,
    fun _ hi _ hk => verifyChecksum_flipBit (verifyChecksum_storeChecksum hsize) hsize hi hk⟩

theorem inode_checksums_zero :
    verifyChecksum (storeChecksum (fun _ => 0) 256 12 fun _ => 0) 256 12 (fun _ => 0) = true ∧
    verifyChecksum (flipBit (storeChecksum (fun _ => 0) 256 12 fun _ => 0) 0x64 3) 256 12 (fun _ => 0) = false := by
  obtain ⟨-, -, hverify, -, hflip⟩ := inode_checksums (fun _ => 0) 256 12 (fun _ => 0) (by decide)
  exact ⟨hverify, hflip 0x64 (by decide) 3 (by decide)⟩

end

end Zigix.InodeChecksum
