import Zigix.Fs.TmpfsFiles

/-!
# `fallocate` on a file in memory (`sysFallocate` of `kernel/proc/syscall_table.zig`)

* `Grew` : the only memory that a write or a hole changes is in data pages of the file.

The node is found by the inode number and `fs_data`. `none` is a kernel panic, or an access to memory that is no data
page of the file.
-/

namespace Zigix.Tmpfs

open Pmm (pageSize)

/-! ## The call -/

inductive FileInode
  | node (n : Nat)
  | other (ino size : Nat) (hasData : Bool)

/-- The number of pages that the call takes a file to have at most. -/
def fallocatePages : Nat := 4096

/-- `FALLOC_FL_KEEP_SIZE` and `FALLOC_FL_PUNCH_HOLE`. -/
def punches (mode : BitVec 32) : Bool := mode.getLsbD 0 && mode.getLsbD 1

/-- `EOPNOTSUPP`, negative. -/
def notSupported : Int := -95

def punchLoop (n stop : Nat) : (fuel : Nat) → (pos : Nat) → State → Option State
  | 0, _, s => some s
  | fuel + 1, pos, s =>
    if stop ≤ pos then some s
    else
      let chunk := min (stop - pos) (pageSize - pos % pageSize)
      if fallocatePages ≤ pos / pageSize then punchLoop n stop fuel (pos + chunk) s
      else
        match (s.nodes n).dataPages with
        | none => punchLoop n stop fuel (pos + chunk) s
        | some (_, pages) =>
          if maxDataPages ≤ pos / pageSize then none
          else
            match pages (pos / pageSize) with
            | none => punchLoop n stop fuel (pos + chunk) s
            | some f =>
              let machine := Ext2.storeBytes s.machine f (pos % pageSize) (List.replicate chunk 0)
              punchLoop n stop fuel (pos + chunk) { s with machine }

def sysFallocate (inode : FileInode) (mode : BitVec 32) (off len : Nat) (s : State) : Option (Int × State) :=
  if mode = 0 then
    if 2 ^ 64 ≤ off + len then none
    else
      match inode with
      | .node n =>
        if (s.nodes n).inodeSize < off + len then
          let s := s.modify n fun x => { x with inodeSize := off + len }
          if inoBase ≤ (s.nodes n).ino then some (0, s.modify n fun x => { x with size := off + len }) else some (0, s)
        else some (0, s)
      | .other ino size hasData => if size < off + len ∧ inoBase ≤ ino ∧ hasData = true then none else some (0, s)
  else if punches mode then
    if 2 ^ 64 ≤ off + len then none
    else
      match inode with
      | .node n =>
        if inoBase ≤ (s.nodes n).ino then (punchLoop n (off + len) len off s).map fun s => (0, s)
        else some (notSupported, s)
      | .other ino _ hasData =>
        if inoBase ≤ ino ∧ hasData = true then
          -- the first page is looked up in the memory behind `fs_data`
          if 0 < len ∧ off / pageSize < fallocatePages then none else some (0, s)
        else some (notSupported, s)
  else some (notSupported, s)

/-! ## Holes -/

section Spec
variable {s s' s'' : State} {n off len stop pos fuel f : Nat} {bs : List (BitVec 8)}

/-- A range that the loop gets through. -/
def PunchSafe (s : State) (n pos stop : Nat) : Prop :=
  (s.nodes n).dataPages = none ∨ stop ≤ File.limit ∨ fallocatePages * pageSize ≤ pos ∨ stop ≤ pos

structure Grew (n : Nat) (s s' : State) : Prop where
  inodeSize : (s'.nodes n).inodeSize = (s.nodes n).inodeSize
  keeps : ∀ i f, (s.nodes n).page (.data i) = some f → (s'.nodes n).page (.data i) = some f
  others : ∀ n', n' ≠ n → s'.nodes n' = s.nodes n'
  mem : ∀ f, (∀ i, (s'.nodes n).page (.data i) ≠ some f) → s'.machine.mem f = s.machine.mem f

theorem Grew.refl (n : Nat) (s : State) : Grew n s s := ⟨rfl, fun _ _ h => h, fun _ _ => rfl, fun _ _ => rfl⟩

theorem Grew.trans (h : Grew n s s') (h' : Grew n s' s'') : Grew n s s'' where
  inodeSize := h'.inodeSize.trans h.inodeSize
  keeps i f hp := h'.keeps i f (h.keeps i f hp)
  others n' hn := (h'.others n' hn).trans (h.others n' hn)
  mem f hf := (h'.mem f hf).trans (h.mem f fun i hp => hf i (h'.keeps i f hp))

theorem Grew.store {i : Nat} (hp : (s.nodes n).page (.data i) = some f) (off : Nat) (bs : List (BitVec 8)) :
    Grew n s { s with machine := Ext2.storeBytes s.machine f off bs } where
  inodeSize := rfl
  keeps _ _ h := h
  others _ _ := rfl
  mem g hg := by
    refine Fault.mem_storeBytes_of_ne (fun he => hg i ?_) ..
    rw [he]
    exact hp

/-- A range of the file reads as zeros now. -/
structure Punched (n off stop : Nat) (s s' : State) : Prop where
  effect : Effect (some n) s s'
  ino : (s'.nodes n).ino = (s.nodes n).ino
  size : (s'.nodes n).size = (s.nodes n).size
  inUse : (s'.nodes n).inUse = (s.nodes n).inUse
  bytes : ∀ o, o < File.limit → byteAt s' n o = if off ≤ o ∧ o < stop then 0 else byteAt s n o
  tree : s'.tree = s.tree
  nextIno : s'.nextIno = s.nextIno
  grew : Grew n s s'

theorem Punched.nothing (h : s.Owned) (hzero : ∀ o, o < File.limit → off ≤ o → o < stop → byteAt s n o = 0) :
    Punched n off stop s s := by
  refine ⟨.refl h, rfl, rfl, rfl, fun o ho => ?_, rfl, rfl, .refl n s⟩
  by_cases hin : off ≤ o ∧ o < stop
  · rw [if_pos hin, hzero o ho hin.1 hin.2]
  · rw [if_neg hin]

theorem Punched.append {mid : Nat} (h : Punched n off mid s s') (h' : Punched n mid stop s' s'') (hle : off ≤ mid)
    (hle' : mid ≤ stop) : Punched n off stop s s'' := by
  refine ⟨h.effect.trans h'.effect, h'.ino.trans h.ino, h'.size.trans h.size, h'.inUse.trans h.inUse, fun o ho => ?_,
    h'.tree.trans h.tree, h'.nextIno.trans h.nextIno, h.grew.trans h'.grew⟩
  rw [h'.bytes o ho, h.bytes o ho]
  by_cases hsecond : mid ≤ o ∧ o < stop
  · rw [if_pos hsecond, if_pos (by omega)]
  · rw [if_neg hsecond]
    by_cases hfirst : off ≤ o ∧ o < mid
    · rw [if_pos hfirst, if_pos (by omega)]
    · rw [if_neg hfirst, if_neg (by omega)]

theorem byteAt_missing {table : Nat} {pages : Nat → Option Nat} (hd : (s.nodes n).dataPages = some (table, pages))
    (hp : pages (off / pageSize) = none) : byteAt s n off = 0 := by
  unfold byteAt
  rw [hd]
  dsimp only
  rw [hp]

theorem div_of_chunk {o : Nat} (hle : pos ≤ o) (hlt : o < pos + (pageSize - pos % pageSize)) :
    o / pageSize = pos / pageSize := by
  have hdiv := Nat.div_add_mod pos pageSize
  have hmod := Nat.mod_lt pos (show 0 < pageSize by decide)
  refine Nat.le_antisymm (Nat.le_of_lt_succ ((Nat.div_lt_iff_lt_mul (by decide)).2 ?_)) (Nat.div_le_div_right hle)
  have : (pos / pageSize).succ * pageSize = pageSize * (pos / pageSize) + pageSize := by rw [Nat.succ_mul, Nat.mul_comm]
  omega

/-- **A hole** in a range that is safe. -/
theorem punchLoop_spec (fuel pos : Nat) (h : s.Owned) (hfuel : stop - pos ≤ fuel) (hsafe : PunchSafe s n pos stop) :
    ∃ s', punchLoop n stop fuel pos s = some s' ∧ Punched n pos stop s s' := by
  induction fuel generalizing s pos with
  | zero => exact ⟨s, rfl, .nothing h fun o _ _ _ => by omega⟩
  | succ fuel ih =>
    unfold punchLoop
    by_cases hend : stop ≤ pos
    · rw [if_pos hend]
      exact ⟨s, rfl, .nothing h fun o _ _ _ => by omega⟩
    rw [if_neg hend]
    have hmod := Nat.mod_lt pos (show 0 < pageSize by decide)
    dsimp only
    generalize hchunk : min (stop - pos) (pageSize - pos % pageSize) = chunk
    -- one page, and the rest of the loop
    have hrest : ∀ {s₁ : State}, Punched n pos (pos + chunk) s s₁ → (s₁.nodes n).dataPages = (s.nodes n).dataPages →
        ∃ s', punchLoop n stop fuel (pos + chunk) s₁ = some s' ∧ Punched n pos stop s s' := fun {s₁} h₁ hd => by
      obtain ⟨s', hloop, h'⟩ := ih (pos + chunk) h₁.effect.owned (by omega) (by
        unfold PunchSafe at hsafe ⊢
        rw [hd]
        rcases hsafe with hnone | hle | hle | hle
        · exact .inl hnone
        · exact .inr (.inl hle)
        · exact .inr (.inr (.inl (by omega)))
        · exact absurd hle hend)
      exact ⟨s', hloop, h₁.append h' (by omega) (by omega)⟩
    have hsame : ∀ o, pos ≤ o → o < pos + chunk → o / pageSize = pos / pageSize := fun o hle hlt =>
      div_of_chunk hle (by omega)
    by_cases hfar : fallocatePages ≤ pos / pageSize
    · rw [if_pos hfar]
      refine hrest (.nothing h fun o ho hle _ => ?_) rfl
      have : fallocatePages * pageSize ≤ pos := (Nat.le_div_iff_mul_le (by decide)).1 hfar
      unfold File.limit maxDataPages at ho
      unfold fallocatePages at this
      have : 4096 * pageSize ≤ o := by omega
      have : 256 * pageSize < 4096 * pageSize := by decide
      omega
    rw [if_neg hfar]
    cases hd : (s.nodes n).dataPages with
    | none =>
      refine hrest (.nothing h fun o _ _ _ => ?_) rfl
      unfold byteAt
      rw [hd]
    | some d =>
      obtain ⟨table, pages⟩ := d
      have hin : ¬ maxDataPages ≤ pos / pageSize := fun hout => by
        have hlimit : File.limit ≤ pos := (Nat.le_div_iff_mul_le (by decide)).1 hout
        have hnear : ¬ fallocatePages * pageSize ≤ pos := fun hle =>
          hfar ((Nat.le_div_iff_mul_le (by decide)).2 hle)
        rcases hsafe with hnone | hle | hle | hle
        · rw [hd] at hnone
          cases hnone
        · omega
        · exact hnear hle
        · exact hend hle
      dsimp only
      rw [if_neg hin]
      cases hp : pages (pos / pageSize) with
      | none =>
        exact hrest (.nothing h fun o _ hle hlt => byteAt_missing hd (by rw [hsame o hle hlt, hp])) rfl
      | some f =>
        have hfit : pos % pageSize + (List.replicate chunk (0 : BitVec 8)).length ≤ pageSize := by
          rw [List.length_replicate]
          omega
        have hw := storeBytes_wrote h pos hd hp hfit
        have hpage : (s.nodes n).page (.data (pos / pageSize)) = some f := ((page_table hd).2 _).trans hp
        refine hrest ⟨hw.effect, hw.ino, hw.size, hw.inUse, fun o _ => ?_, hw.tree, hw.nextIno, .store hpage _ _⟩ rfl
        rw [hw.bytes o, List.length_replicate]
        by_cases ho : pos ≤ o ∧ o < pos + chunk
        · rw [if_pos ho, if_pos ho, List.getD_replicate _ (by omega)]
        · rw [if_neg ho, if_neg ho]

end Spec

end Zigix.Tmpfs
