import Mathlib.Algebra.Order.BigOperators.Group.List
import Mathlib.Algebra.Order.Group.Nat
import Zigix.Fs.Directory
import Zigix.Proc.CopyOut

/-!
# Listing a directory (`sysGetdents64` of `kernel/proc/syscall_table.zig`)

An entry that does not fit into the buffer has been read already. The call steps back by one byte (`desc.offset -= 1`),
where `ext2Readdir` has advanced by the length of the record, and the next call looks for a record in the last byte of
that one.

* `getdents_lists` : a sequence of calls that never meets an entry it has no room for does;
* `getdents_loses_entries` : with room for one entry at a time, the second call reports the end.
-/

namespace Zigix.Getdents

open Ext2 CopyOut

/-- A record of the buffer, `linux_dirent64`. -/
structure Dirent64 where
  entry : DirEntry
  off : Nat
  reclen : Nat
deriving DecidableEq, Repr

def direntLen (e : DirEntry) : Nat := (8 + 8 + 2 + 1 + (e.name.length + 1) + 7) / 8 * 8

/-- `scratch.len`. -/
def scratchLen : Nat := 512

/-- What a call returns. -/
inductive Outcome
  | errno (e : Errno)
  | count (n : Nat)
deriving DecidableEq

/-- `copyToUser` : the pages of the buffer can be written. -/
def copies (mapped : Nat → Bool) (addr len : Nat) : Bool := (List.range len).all fun i => mapped (addr + i)

/-- The loop of the call from `total_written = total` on: the result, the records put into the buffer and the new offset.
A turn that goes on has read a record, so `size` turns suffice. -/
def getdentsLoop (d : Dir) (mapped : Nat → Bool) (bufAddr max : Nat) :
    Nat → Nat → Nat → Outcome × List Dirent64 × Nat
  | 0, offset, total => (.count total, [], offset)
  | fuel + 1, offset, total =>
    match ext2Readdir d offset with
    | (none, offset) => (.count total, [], offset)
    | (some entry, offset) =>
      let reclen := direntLen entry
      if total + reclen > max then (.count total, [], offset - 1)
      else if reclen > scratchLen then (.count total, [], offset)
      else if !copies mapped (bufAddr + total) reclen then (.errno .EFAULT, [], offset)
      else
        let (result, records, offset') := getdentsLoop d mapped bufAddr max fuel offset (total + reclen)
        (result, ⟨entry, offset, reclen⟩ :: records, offset')

/-- The call on a description of the directory with the offset `offset`. -/
def sysGetdents64 (d : Dir) (mapped : Nat → Bool) (bufAddr count offset : Nat) : Outcome × List Dirent64 × Nat :=
  if !validateUserBuffer bufAddr count then (.errno .EFAULT, [], offset)
  else getdentsLoop d mapped bufAddr count (d.size + 1) offset 0

/-! ## Sequences of calls -/

structure Call where
  bufAddr : Nat
  count : Nat

def Call.Valid (mapped : Nat → Bool) (c : Call) : Prop :=
  validateUserBuffer c.bufAddr c.count ∧ ∀ i < c.count, mapped (c.bufAddr + i)

def offsetAfter (d : Dir) (mapped : Nat → Bool) : List Call → Nat → Nat
  | [], offset => offset
  | c :: cs, offset => offsetAfter d mapped cs (sysGetdents64 d mapped c.bufAddr c.count offset).2.2

def listed (d : Dir) (mapped : Nat → Bool) : List Call → Nat → List DirEntry
  | [], _ => []
  | c :: cs, offset =>
    let r := sysGetdents64 d mapped c.bufAddr c.count offset
    r.2.1.map Dirent64.entry ++ listed d mapped cs r.2.2

/-- The result of the call `c` that follows the calls `pre`. -/
def resultAfter (d : Dir) (mapped : Nat → Bool) (pre : List Call) (c : Call) : Outcome :=
  (sysGetdents64 d mapped c.bufAddr c.count (offsetAfter d mapped pre 0)).1

def Lists {d : Dir} (w : Listing d) (mapped : Nat → Bool) (calls : List Call) : Prop :=
  ∀ pre c, pre ++ [c] <+: calls →
    listed d mapped (pre ++ [c]) 0 <+: w.live ∧
    if listed d mapped pre 0 = w.live then resultAfter d mapped pre c = .count 0
    else ∃ n, 0 < n ∧ resultAfter d mapped pre c = .count n ∧
      (listed d mapped pre 0).length < (listed d mapped (pre ++ [c]) 0).length

def RoomForNext {d : Dir} (w : Listing d) (mapped : Nat → Bool) (calls : List Call) : Prop :=
  ∀ pre c, pre ++ [c] <+: calls → ∀ e es, w.live = listed d mapped pre 0 ++ e :: es → direntLen e ≤ c.count

def liveFrom {d : Dir} (w : Listing d) (offset : Nat) : List DirEntry :=
  liveEntries (w.records.filter fun r => offset ≤ r.1)

def RoomForRest {d : Dir} (w : Listing d) (mapped : Nat → Bool) (calls : List Call) : Prop :=
  ∀ pre c, pre ++ [c] <+: calls →
    ((liveFrom w (offsetAfter d mapped pre 0)).map direntLen).sum ≤ c.count

/-! ## One call -/

section Loop
variable {d : Dir} {mapped : Nat → Bool} {bufAddr max off : Nat} {rs : List (Nat × DirRecord)}

theorem name_length_lt (h : Tiles d off rs) : ∀ r ∈ rs, r.2.name.length < 256 := by
  induction h with
  | nil => simp
  | cons _ _ _ _ _ _ ih =>
    intro r hr
    rcases List.mem_cons.1 hr with rfl | hr
    · simp only [recordAt, List.length_map, List.length_range]
      exact (BitVec.isLt _)
    · exact ih r hr

theorem direntLen_le (h : Tiles d off rs) : ∀ e ∈ liveEntries rs, direntLen e ≤ scratchLen := by
  intro e he
  obtain ⟨r, hr, rfl⟩ := List.mem_map.1 he
  have hlt := name_length_lt h r (List.mem_filter.1 hr).1
  unfold direntLen scratchLen DirRecord.entry
  dsimp only
  omega

theorem direntLen_pos (e : DirEntry) : 0 < direntLen e := by
  unfold direntLen
  omega

theorem copies_of_mapped {count total len : Nat} (hmap : ∀ i < count, mapped (bufAddr + i)) (h : total + len ≤ count) :
    copies mapped (bufAddr + total) len = true := by
  refine List.all_eq_true.2 fun i hi => ?_
  have hlt := List.mem_range.1 hi
  rw [Nat.add_assoc]
  exact hmap _ (by omega)

theorem getdentsLoop_spec {es : List DirEntry} {fuel total : Nat} (hsize : d.size < 2 ^ 32)
    (hmap : ∀ i < max, mapped (bufAddr + i)) (h : Tiles d off rs) (hlive : liveEntries rs = es)
    (hfuel : d.size - off < fuel) (hroom : total + (es.map direntLen).sum ≤ max) :
    ∃ out, getdentsLoop d mapped bufAddr max fuel off total
        = (.count (total + (es.map direntLen).sum), out, d.size) ∧ out.map Dirent64.entry = es := by
  induction es generalizing fuel off total rs with
  | nil =>
    obtain ⟨fuel, rfl⟩ : ∃ n, fuel = n + 1 := ⟨fuel - 1, by omega⟩
    refine ⟨[], ?_, rfl⟩
    rw [getdentsLoop, ext2Readdir_end hsize h hlive]
    rfl
  | cons e es ih =>
    obtain ⟨fuel, rfl⟩ : ∃ n, fuel = n + 1 := ⟨fuel - 1, by omega⟩
    obtain ⟨off', rs', hrun, hoff, htiles, hrest⟩ := ext2Readdir_live hsize h hlive
    have hle := htiles.le
    have hscratch := direntLen_le h e (by rw [hlive]; exact List.mem_cons_self)
    rw [List.map_cons, List.sum_cons] at hroom ⊢
    obtain ⟨out, hloop, hout⟩ := ih htiles hrest (show d.size - off' < fuel by omega)
      (show total + direntLen e + (es.map direntLen).sum ≤ max by omega)
    refine ⟨⟨e, off', direntLen e⟩ :: out, ?_, by rw [List.map_cons, hout]⟩
    have hcopy : copies mapped (bufAddr + total) (direntLen e) = true := copies_of_mapped hmap (by omega)
    rw [getdentsLoop, hrun]
    simp only
    rw [if_neg (by omega), if_neg (by omega), hcopy, hloop, Nat.add_assoc]
    rfl

theorem sysGetdents64_spec {c : Call} (hsize : d.size < 2 ^ 32) (hvalid : c.Valid mapped) (h : Tiles d off rs)
    (hroom : ((liveEntries rs).map direntLen).sum ≤ c.count) :
    ∃ out, sysGetdents64 d mapped c.bufAddr c.count off = (.count ((liveEntries rs).map direntLen).sum, out, d.size) ∧
      out.map Dirent64.entry = liveEntries rs := by
  obtain ⟨out, hrun, hout⟩ := getdentsLoop_spec hsize hvalid.2 h rfl (show d.size - off < d.size + 1 by omega)
    (show 0 + ((liveEntries rs).map direntLen).sum ≤ c.count by omega)
  refine ⟨out, ?_, hout⟩
  unfold sysGetdents64
  rw [hvalid.1, hrun, Nat.zero_add]
  rfl

end Loop

/-! ## Whole sequences -/

section Run
variable {d : Dir} {mapped : Nat → Bool} {w : Listing d}

theorem sysGetdents64_end {c : Call} (hsize : d.size < 2 ^ 32) (hvalid : c.Valid mapped) :
    sysGetdents64 d mapped c.bufAddr c.count d.size = (.count 0, [], d.size) := by
  obtain ⟨out, hrun, hout⟩ := sysGetdents64_spec hsize hvalid .nil (Nat.zero_le _)
  rw [hrun, List.map_eq_nil_iff.1 hout]
  rfl

theorem run_end {calls : List Call} (hsize : d.size < 2 ^ 32) (hvalid : ∀ c ∈ calls, c.Valid mapped) :
    listed d mapped calls d.size = [] ∧ offsetAfter d mapped calls d.size = d.size := by
  induction calls with
  | nil => exact ⟨rfl, rfl⟩
  | cons c cs ih =>
    rw [listed, offsetAfter, sysGetdents64_end hsize (hvalid c List.mem_cons_self)]
    exact ih fun c hc => hvalid c (List.mem_cons_of_mem _ hc)

theorem run_cons {c : Call} (cs : List Call) (hvalid : ∀ x ∈ c :: cs, x.Valid mapped)
    (hroom : (w.live.map direntLen).sum ≤ c.count) :
    listed d mapped (c :: cs) 0 = w.live ∧ offsetAfter d mapped (c :: cs) 0 = d.size := by
  obtain ⟨out, hrun, hout⟩ := sysGetdents64_spec w.size_lt (hvalid c List.mem_cons_self) w.tiles hroom
  obtain ⟨hlisted, hoff⟩ := run_end w.size_lt fun x hx => hvalid x (List.mem_cons_of_mem c hx)
  rw [listed, offsetAfter, hrun]
  exact ⟨by simp only [hout, hlisted, List.append_nil]; rfl, hoff⟩

/-- **A sequence of calls in which every buffer has room for all the entries that are left lists the directory**: each
live entry once, in the order of the disk, and then the end. -/
theorem getdents_lists (w : Listing d) (mapped : Nat → Bool) (calls : List Call) (hvalid : ∀ c ∈ calls, c.Valid mapped)
    (hroom : RoomForRest w mapped calls) : Lists w mapped calls := by
  intro pre c hpre
  have hmem : ∀ x ∈ pre ++ [c], x.Valid mapped := fun x hx => hvalid x (hpre.subset hx)
  have hc : c.Valid mapped := hmem c (by simp)
  have hfrom : liveFrom w 0 = w.live := by simp [liveFrom, Listing.live]
  cases pre with
  | nil =>
    have hfit : (w.live.map direntLen).sum ≤ c.count := by
      rw [← hfrom]
      exact hroom [] c hpre
    obtain ⟨hlisted, -⟩ := run_cons [] hmem hfit
    obtain ⟨out, hrun, hout⟩ := sysGetdents64_spec w.size_lt hc w.tiles hfit
    have hresult : resultAfter d mapped [] c = .count (w.live.map direntLen).sum := congrArg Prod.fst hrun
    rw [List.nil_append, hlisted, hresult]
    refine ⟨List.prefix_refl _, ?_⟩
    split
    · rename_i hnil
      rw [← hnil]
      rfl
    · rename_i hne
      obtain ⟨e, es, hlive⟩ := List.exists_cons_of_ne_nil (fun h => hne (show listed d mapped [] 0 = w.live from h.symm))
      refine ⟨_, ?_, rfl, ?_⟩
      · rw [hlive, List.map_cons, List.sum_cons]
        exact Nat.add_pos_left (direntLen_pos e) _
      · rw [hlive]
        exact Nat.zero_lt_succ _
  | cons b pre =>
    have hfit : (w.live.map direntLen).sum ≤ b.count := by
      rw [← hfrom]
      exact hroom [] b ((show [] ++ [b] <+: b :: pre ++ [c] from ⟨pre ++ [c], rfl⟩).trans hpre)
    obtain ⟨hlisted, -⟩ := run_cons (pre ++ [c]) hmem hfit
    obtain ⟨hpre', hoff⟩ := run_cons pre (fun x hx => hmem x (List.mem_append_left _ hx)) hfit
    have hresult : resultAfter d mapped (b :: pre) c = .count 0 := by
      rw [resultAfter, hoff, sysGetdents64_end w.size_lt hc]
    rw [List.cons_append, hlisted, if_pos hpre', hresult]
    exact ⟨List.prefix_refl _, rfl⟩

end Run

/-! ## A directory of three entries -/

/-- The block of a directory with the entries `.`, `..` and `a`. -/
def smallBlock : Bytes.Buf := fun i =>
  ([2, 0, 0, 0, 12, 0, 1, 2, 0x2e, 0, 0, 0, 2, 0, 0, 0, 12, 0, 2, 2, 0x2e, 0x2e, 0, 0,
    12, 0, 0, 0, 0xe8, 3, 1, 1, 0x61, 0, 0, 0] : List (BitVec 8)).getD i 0

def smallDir : Dir := ⟨1024, 1024, fun b => if b = 0 then some smallBlock else none⟩

def smallListing : Listing smallDir where
  records := [(0, recordAt smallBlock 0), (12, recordAt smallBlock 12), (24, recordAt smallBlock 24)]
  tiles := by
    have hend : Tiles smallDir (24 + (recordAt smallBlock (24 % smallDir.blockSize)).recLen) [] := .nil
    have hlast := @Tiles.cons smallDir 24 smallBlock _ (by decide) rfl (by decide) (by decide)
      (by decide) hend
    have hmiddle := @Tiles.cons smallDir 12 smallBlock _ (by decide) rfl (by decide) (by decide)
      (by decide) hlast
    exact @Tiles.cons smallDir 0 smallBlock _ (by decide) rfl (by decide) (by decide)
      (by decide) hmiddle
  size_lt := by decide

theorem smallListing_live : smallListing.live = [⟨2, dtDir, [0x2e]⟩, ⟨2, dtDir, [0x2e, 0x2e]⟩, ⟨12, dtReg, [0x61]⟩] := by
  decide +kernel

theorem call_valid {n : Nat} (hn : n ≤ 4096) : Call.Valid (fun _ => true) ⟨0x1000, n⟩ := by
  refine ⟨?_, fun _ _ => rfl⟩
  simp only [validateUserBuffer, Bool.and_eq_true, decide_eq_true_eq]
  have hend : Fault.userEnd = 0x0000800000000000 := rfl
  omega

/-- A buffer for the whole directory lists it. -/
theorem getdents_lists_small : Lists smallListing (fun _ => true) [⟨0x1000, 1024⟩, ⟨0x1000, 1024⟩] := by
  refine getdents_lists smallListing _ _ (fun c hc => ?_) ?_
  · have hc : c = ⟨0x1000, 1024⟩ := by simpa using hc
    rw [hc]
    exact call_valid (by omega)
  · intro pre c hpre
    have hc : c = ⟨0x1000, 1024⟩ := by simpa using hpre.subset (List.mem_append_right pre (List.mem_singleton_self c))
    rw [hc]
    calc ((liveFrom smallListing _).map direntLen).sum ≤ (smallListing.live.map direntLen).sum :=
          (((List.filter_sublist.filter _).map _).map _).sum_le_sum fun _ _ => Nat.zero_le _
      _ ≤ 1024 := by
        rw [smallListing_live]
        decide

/-- Two calls with room for one entry each: the first lists `.`, the second reports the end. -/
theorem getdents_loses_entries :
    ¬ ∀ (d : Dir) (w : Listing d) (mapped : Nat → Bool) (calls : List Call), (∀ c ∈ calls, c.Valid mapped) →
      RoomForNext w mapped calls → Lists w mapped calls := by
  intro h
  have hcalls := h smallDir smallListing (fun _ => true) [⟨0x1000, 24⟩, ⟨0x1000, 24⟩] (fun c hc => by
    have hc : c = ⟨0x1000, 24⟩ := by simpa using hc
    rw [hc]
    exact call_valid (by omega)) (fun pre c hpre e es hlive => by
      have hc : c = ⟨0x1000, 24⟩ := by simpa using hpre.subset (List.mem_append_right pre (List.mem_singleton_self c))
      have he : e ∈ smallListing.live := by
        rw [hlive]
        simp
      have hall : ∀ e ∈ smallListing.live, direntLen e ≤ 24 := by
        rw [smallListing_live]
        decide
      rw [hc]
      exact hall e he)
  obtain ⟨-, hlast⟩ := hcalls [⟨0x1000, 24⟩] ⟨0x1000, 24⟩ (List.prefix_refl _)
  have hlisted : listed smallDir (fun _ => true) [⟨0x1000, 24⟩] 0 ≠ smallListing.live := by
    rw [smallListing_live]
    decide +kernel
  have hresult : resultAfter smallDir (fun _ => true) [⟨0x1000, 24⟩] ⟨0x1000, 24⟩ = .count 0 := by decide +kernel
  rw [if_neg hlisted, hresult] at hlast
  obtain ⟨n, hpos, heq, -⟩ := hlast
  cases heq
  omega

end Zigix.Getdents
