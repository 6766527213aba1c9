import Zigix.Lib.Parts
import Zigix.Proc.Traps

/-!
# Vectored and copying I/O (`sysReadv`, `sysWritev`, `sysPwritev`, `sysPwrite64`, `sysSendfile`, `sysCopyFileRange`)

The calls of `kernel/proc/syscall_table.zig` around a read or write operation that can do anything: transfer everything, a part,
nothing, or fail.

* `sysReadv`, `sysWritev`, `sysPwritev`, `sysPwrite64` : the four calls around them;
* `copyLoop`, `sysSendfile`, `sysCopyFileRange` : bytes from one file to another;
* `transfer_laid`, `iovecs_laid` : the pieces stand one behind the other until one is not transferred completely;
* `io_conserved_iff` : when the calls conserve bytes;
* `skips_unmapped` : a buffer that is skipped.
-/

namespace Zigix.VectoredIo

open Parts (Stretch Laid Steady moved)
open Traps (validateUserBuffer)

def pageSize : Nat := 4096

/-- A read or write operation: its answer to a request for so many bytes. -/
structure Op (σ : Type) where
  run : σ → Nat → Int × σ
  run_le : ∀ s n, (run s n).1 ≤ n

abbrev Place := Nat × Nat

def places (i off len : Nat) : List Place := (List.range len).map fun k => (i, off + k)

structure Piece where
  buffer : Nat
  off : Nat
  len : Nat
  pos : Nat
  done : Nat

def Piece.part (p : Piece) : Stretch Place := ⟨places p.buffer p.off p.len, p.done⟩

def Piece.positions (p : Piece) : List Nat := List.range' p.pos p.done

structure Cursor (σ : Type) where
  file : σ
  offset : Nat
  total : Nat

inductive Next
  | go
  | stop
  | ret (rax : Int)

/-- How a loop goes on: `after n total chunk`, where `total` counts `n` when it is positive. -/
abbrev After := Int → Nat → Nat → Next

def ebadf : Int := 9
def efault : Int := 14
def eio : Int := 5
def einval : Int := 22
def espipe : Int := 29

section
variable {σ : Type}

/-! ## Buffers -/

def Op.ask (f : Op σ) (c : Cursor σ) (chunk : Nat) : Int × Cursor σ :=
  let (n, file) := f.run c.file chunk
  (n, ⟨file, c.offset + n.toNat, c.total + n.toNat⟩)

/-- The loop over the pages of buffer `i`. `mapped` : the page of an address can be had. -/
def transfer (f : Op σ) (mapped : Nat → Bool) (after : After) (i : Nat) :
    Nat → Nat → Nat → Nat → Cursor σ → Next × List Piece × Cursor σ
  | 0, _, _, _, c => (.go, [], c)
  | fuel + 1, addr, off, remaining, c =>
    if remaining = 0 then (.go, [], c)
    else
      let chunk := min remaining (pageSize - addr % pageSize)
      if mapped addr = false then (.stop, [⟨i, off, chunk, c.offset, 0⟩], c)
      else
        let piece : Piece := ⟨i, off, chunk, c.offset, (f.ask c chunk).1.toNat⟩
        match after (f.ask c chunk).1 (f.ask c chunk).2.total chunk with
        | .go =>
          let (next, ps, c) := transfer f mapped after i fuel (addr + chunk) (off + chunk) (remaining - chunk) (f.ask c chunk).2
          (next, piece :: ps, c)
        | next => (next, [piece], (f.ask c chunk).2)

/-- An entry of the vector: `none` when it cannot be read. -/
abbrev Entry := Option (Nat × Nat)

def maxBuffer : Nat := 1048576

/-- The loop over the vector from buffer `i` on. What is cut off a long buffer is a piece too. -/
def iovecs (f : Op σ) (mapped : Nat → Bool) (after : After) :
    Nat → List Entry → Cursor σ → Option Int × List Piece × Cursor σ
  | _, [], c => (none, [], c)
  | _, none :: _, c => (none, [], c)
  | i, some (base, len) :: es, c =>
    if len = 0 then iovecs f mapped after (i + 1) es c
    else if validateUserBuffer base len = false then (none, [], c)
    else
      match transfer f mapped after i (min len maxBuffer) base 0 (min len maxBuffer) c with
      | (.ret rax, ps, c) => (some rax, ps, c)
      | (_, ps, c) =>
        let (rax, qs, c') := iovecs f mapped after (i + 1) es c
        (rax, ps ++ ⟨i, maxBuffer, len - maxBuffer, c.offset, 0⟩ :: qs, c')

/-- `rax`, the pieces and the offset of the descriptor. -/
structure Outcome where
  rax : Int
  pieces : List Piece
  offset : Nat

def Outcome.error (e : Int) (offset : Nat) : Outcome := ⟨-e, [], offset⟩

def vectored (f : Op σ) (mapped : Nat → Bool) (after : After) (entries : List Entry) (file : σ) (offset : Nat) : Outcome :=
  let (rax, ps, c) := iovecs f mapped after 0 entries ⟨file, offset, 0⟩
  ⟨rax.getD c.total, ps, c.offset⟩

/-- A read that fails or is short ends the call. -/
def afterReadv : After := fun n total chunk =>
  if n ≤ 0 then .ret (if 0 < total then total else if n = 0 then 0 else -eio)
  else if n < chunk then .ret total
  else .go

/-- A write that fails ends the buffer. -/
def afterWrite : After := fun n _ _ => if n ≤ 0 then .stop else .go

structure Desc (σ : Type) where
  op : Option (Op σ)
  regular : Bool
  file : σ
  offset : Nat

def badCount (iovcnt : Nat) : Bool := iovcnt = 0 || 1024 < iovcnt

def sysReadv (d : Option (Desc σ)) (mapped : Nat → Bool) (entries : List Entry) : Outcome :=
  if badCount entries.length then .error einval 0
  else match d with
    | none => .error ebadf 0
    | some d => match d.op with
      | none => .error ebadf d.offset
      | some f => vectored f mapped afterReadv entries d.file d.offset

def sysWritev (d : Option (Desc σ)) (mapped : Nat → Bool) (entries : List Entry) : Outcome :=
  if badCount entries.length then .error einval 0
  else match d with
    | none => .error ebadf 0
    | some d => match d.op with
      | none => .error ebadf d.offset
      | some f => vectored f mapped afterWrite entries d.file d.offset

/-- The offset is set for the call, and put back. -/
def sysPwritev (d : Option (Desc σ)) (mapped : Nat → Bool) (entries : List Entry) (offset : Nat) : Outcome :=
  if badCount entries.length then .error einval 0
  else match d with
    | none => .error ebadf 0
    | some d =>
      if d.regular = false then .error espipe d.offset
      else match d.op with
        | none => .error ebadf d.offset
        | some f => { vectored f mapped afterWrite entries d.file offset with offset := d.offset }

def sysPwrite64 (d : Option (Desc σ)) (mapped : Nat → Bool) (base count offset : Nat) : Outcome :=
  match d with
  | none => .error ebadf 0
  | some d =>
    if validateUserBuffer base count = false then .error efault d.offset
    else match d.op with
      | none => .error ebadf d.offset
      | some f =>
        let (_, ps, c) := transfer f mapped afterWrite 0 (min count maxBuffer) base 0 (min count maxBuffer) ⟨d.file, offset, 0⟩
        ⟨c.total, ps, d.offset⟩

end

/-! ## From one file to another -/

section
variable {σ τ : Type}

structure Round where
  read : Nat
  written : Nat

/-- The loop of both calls: the total and the turns, with `total` bytes written before. -/
def copyLoop (read : Op σ) (write : Op τ) (max : Nat) : Nat → Nat → σ → τ → Nat × List Round
  | 0, total, _, _ => (total, [])
  | fuel + 1, total, s, t =>
    if total < max then
      let (n, s) := read.run s (min pageSize (max - total))
      if n ≤ 0 then (total, [])
      else
        let (w, t) := write.run t n.toNat
        if w ≤ 0 then (total, [⟨n.toNat, 0⟩])
        else
          let (result, rounds) := copyLoop read write max fuel (total + w.toNat) s t
          (result, ⟨n.toNat, w.toNat⟩ :: rounds)
    else (total, [])

/-- `rax` and the turns; an error comes before any turn. -/
structure Copied where
  rax : Int
  rounds : List Round

/-- What the two calls share. -/
def copy (input : Option (Desc σ)) (output : Option (Desc τ)) (count : Nat) : Copied :=
  match input, output with
  | some i, some o => match i.op, o.op with
    | some read, some write =>
      let (total, rounds) := copyLoop read write (min count 65536) (min count 65536) 0 i.file o.file
      ⟨total, rounds⟩
    | _, _ => ⟨-einval, []⟩
  | _, _ => ⟨-ebadf, []⟩

def sysSendfile (output : Option (Desc τ)) (input : Option (Desc σ)) (count : Nat) : Copied := copy input output count

def sysCopyFileRange (input : Option (Desc σ)) (output : Option (Desc τ)) (len : Nat) : Copied := copy input output len

/-- How far the source and the destination have come. -/
def Copied.advanced (c : Copied) : Nat := (c.rounds.map Round.read).sum

def Copied.written (c : Copied) : Nat := (c.rounds.map Round.written).sum

end

/-! ## What the calls should do -/

/-- The bytes of the buffers, in order. -/
def concat : Nat → List Entry → List Place
  | _, [] => []
  | i, none :: es => concat (i + 1) es
  | i, some (_, len) :: es => places i 0 len ++ concat (i + 1) es

/-- **Bytes are conserved**: the first `rax` bytes, at consecutive positions from `start` on. -/
structure Conserves (bytes : List Place) (start : Nat) (o : Outcome) : Prop where
  places : moved (o.pieces.map Piece.part) = bytes.take o.rax.toNat
  positions : o.pieces.flatMap Piece.positions = List.range' start o.rax.toNat

/-- Behind a piece that is not transferred completely, because the operation is short or fails, its page is not there or the buffer is
too long, nothing is transferred. -/
def Outcome.Steady (o : Outcome) : Prop := Parts.Steady (o.pieces.map Piece.part)

/-- The source has advanced by the bytes that were written to the destination, which `rax` says. -/
structure Copied.Conserves (c : Copied) : Prop where
  source : c.advanced = c.rax.toNat
  destination : c.written = c.rax.toNat

/-! ## The pieces of a buffer -/

section
variable {σ : Type} {f : Op σ} {mapped : Nat → Bool} {after : After} {i off len remaining fuel addr m n : Nat} {c c' : Cursor σ}
  {next : Next} {ps : List Piece} {rax : Int} {es : List Entry} {x : Place}

theorem length_places (i off len : Nat) : (places i off len).length = len := by simp [places]

theorem mem_places : x ∈ places i off len ↔ x.1 = i ∧ off ≤ x.2 ∧ x.2 < off + len := by
  unfold places
  rw [List.mem_map]
  constructor
  · rintro ⟨k, hk, rfl⟩
    rw [List.mem_range] at hk
    exact ⟨rfl, Nat.le_add_right .., Nat.add_lt_add_left hk off⟩
  · rintro ⟨rfl, hlo, hhi⟩
    refine ⟨x.2 - off, List.mem_range.2 (by omega), ?_⟩
    rw [Nat.add_sub_cancel' hlo]

theorem places_add (i off m n : Nat) : places i off (m + n) = places i off m ++ places i (off + m) n := by
  unfold places
  rw [List.range_add, List.map_append, List.map_map]
  congr 1
  exact List.map_congr_left fun k _ => congrArg (Prod.mk i) (Nat.add_assoc off m k).symm

theorem places_split (i off : Nat) (h : m ≤ n) : places i off n = places i off m ++ places i (off + m) (n - m) := by
  rw [← places_add, Nat.add_sub_cancel' h]

/-- How many bytes the pieces have. -/
def count (ps : List Piece) : Nat := Parts.total (ps.map Piece.part)

theorem count_append (ps qs : List Piece) : count (ps ++ qs) = count ps + count qs := by
  unfold count
  rw [List.map_append, Parts.total_append]

/-- A loop has gone from `c` to `c'` through these pieces. -/
structure Moved (c c' : Cursor σ) (ps : List Piece) : Prop where
  offset : c'.offset = c.offset + count ps
  total : c'.total = c.total + count ps
  positions : ps.flatMap Piece.positions = List.range' c.offset (count ps)

theorem Moved.nil (c : Cursor σ) : Moved c c [] := ⟨rfl, rfl, rfl⟩

theorem Moved.append {c'' : Cursor σ} {qs : List Piece} (h : Moved c c' ps) (h' : Moved c' c'' qs) : Moved c c'' (ps ++ qs) where
  offset := by rw [h'.offset, h.offset, count_append, Nat.add_assoc]
  total := by rw [h'.total, h.total, count_append, Nat.add_assoc]
  positions := by
    rw [List.flatMap_append, h.positions, h'.positions, h.offset, count_append, List.range'_append_1]

theorem Moved.ask (f : Op σ) (c : Cursor σ) (chunk i off : Nat) :
    Moved c (f.ask c chunk).2 [⟨i, off, chunk, c.offset, (f.ask c chunk).1.toNat⟩] := by
  have hcount : count [⟨i, off, chunk, c.offset, (f.ask c chunk).1.toNat⟩] = (f.ask c chunk).1.toNat := rfl
  refine ⟨?_, ?_, ?_⟩
  · rw [hcount]
    rfl
  · rw [hcount]
    rfl
  · rw [hcount, List.flatMap_singleton]
    rfl

theorem Moved.zero (c : Cursor σ) (i off len : Nat) : Moved c c [⟨i, off, len, c.offset, 0⟩] := ⟨rfl, rfl, rfl⟩

theorem Piece.part_full (p : Piece) : p.part.full = VectoredIo.places p.buffer p.off p.len := rfl

/-- A piece lies in buffer `i` between `off` and `off + len`. -/
def Piece.Within (p : Piece) (i off len : Nat) : Prop := p.buffer = i ∧ off ≤ p.off ∧ p.off + p.len ≤ off + len ∧ p.done ≤ p.len

theorem Piece.Within.mono {p : Piece} (h : p.Within i off len) (hlo : m ≤ off) (hhi : off + len ≤ m + n) : p.Within i m n :=
  ⟨h.1, hlo.trans h.2.1, h.2.2.1.trans hhi, h.2.2.2⟩

theorem Piece.Within.mem {p : Piece} (h : p.Within i off len) (hx : x ∈ p.part.full) : x.1 = i ∧ off ≤ x.2 ∧ x.2 < off + len := by
  obtain ⟨hi, hlo, hhi⟩ := mem_places.1 hx
  obtain ⟨hbuffer, hoff, hend, -⟩ := h
  exact ⟨hi.trans hbuffer, hoff.trans hlo, lt_of_lt_of_le hhi hend⟩

/-- A part behind the bytes up to `off` of buffer `i`. -/
def Behind (i off : Nat) (q : Stretch Place) : Prop :=
  q.done ≤ q.full.length ∧ ∀ x ∈ q.full, i < x.1 ∨ x.1 = i ∧ off ≤ x.2

theorem Piece.Within.behind {p : Piece} (h : p.Within i off len) : Behind i off p.part := by
  refine ⟨?_, fun x hx => .inr ⟨(h.mem hx).1, (h.mem hx).2.1⟩⟩
  show p.done ≤ (VectoredIo.places p.buffer p.off p.len).length
  rw [length_places]
  exact h.2.2.2

theorem Behind.mono {q : Stretch Place} (h : Behind i off q) (hle : m ≤ off) : Behind i m q :=
  ⟨h.1, fun x hx => (h.2 x hx).imp id fun h => ⟨h.1, hle.trans h.2⟩⟩

theorem laid_gap {xs : List Place} {qs : List (Stretch Place)} {p : Piece} (hdone : p.done < p.len)
    (hpre : places p.buffer p.off p.len <+: xs) (hbehind : ∀ q ∈ qs, Behind p.buffer (p.off + p.len) q) :
    Laid xs (p.part :: qs) := by
  refine .gap ?_ hpre fun q hq => ⟨(hbehind q hq).1, fun x hx hmem => ?_⟩
  · show p.done < (places p.buffer p.off p.len).length
    rwa [length_places]
  · obtain ⟨hi, -, hhi⟩ := mem_places.1 hmem
    rcases (hbehind q hq).2 x hx with h | h <;> omega

theorem laid_whole {rest : List Place} {qs : List (Stretch Place)} {p : Piece} (hdone : p.done = p.len) (h : Laid rest qs) :
    Laid (places p.buffer p.off p.len ++ rest) (p.part :: qs) :=
  Laid.whole (p := p.part) (hdone.trans (length_places ..).symm) h

/-- A call that returns in the middle returns the number of bytes; a loop that does not go on has a gap. -/
structure Sound (after : After) : Prop where
  ret : ∀ n total chunk rax, after n total chunk = .ret rax → rax.toNat = total
  last : ∀ n total chunk, 0 < chunk → after n total chunk ≠ .go → n < (chunk : Int)

theorem sound_readv : Sound afterReadv where
  ret n total chunk rax h := by
    unfold afterReadv at h
    split at h
    · obtain rfl := Next.ret.inj h
      split
      · exact Int.toNat_natCast total
      · split
        · show 0 = total
          omega
        · show 0 = total
          omega
    · split at h
      · obtain rfl := Next.ret.inj h
        exact Int.toNat_natCast total
      · cases h
  last n total chunk hchunk h := by
    unfold afterReadv at h
    split at h
    · omega
    · split at h
      · assumption
      · exact absurd rfl h

theorem sound_write : Sound afterWrite where
  ret n total chunk rax h := by
    unfold afterWrite at h
    split at h <;> cases h
  last n total chunk hchunk h := by
    unfold afterWrite at h
    split at h
    · omega
    · exact absurd rfl h

/-- What the loop over a buffer does. -/
structure Walked (i off remaining : Nat) (c c' : Cursor σ) (next : Next) (ps : List Piece) : Prop where
  moved : Moved c c' ps
  within : ∀ p ∈ ps, p.Within i off remaining
  laid : ∀ rest qs, (next = .go → Laid rest qs) → (∀ q ∈ qs, Behind i (off + remaining) q) →
    Laid (places i off remaining ++ rest) (ps.map Piece.part ++ qs)
  ret : ∀ rax, next = .ret rax → rax.toNat = c'.total

theorem Walked.last {p : Piece} (hmoved : Moved c c' [p]) (hp : p.buffer = i ∧ p.off = off) (hlen : p.len ≤ remaining)
    (hdone : p.done < p.len) (hret : ∀ rax, next = .ret rax → rax.toNat = c'.total) :
    Walked i off remaining c c' next [p] := by
  obtain ⟨rfl, rfl⟩ := hp
  refine ⟨hmoved, fun q hq => ?_, fun rest qs _ hbehind => ?_, hret⟩
  · rw [List.mem_singleton.1 hq]
    exact ⟨rfl, le_rfl, by omega, by omega⟩
  · refine laid_gap hdone ?_ fun q hq => (hbehind q hq).mono (by omega)
    rw [places_split p.buffer p.off hlen, List.append_assoc]
    exact List.prefix_append ..

theorem Walked.cons {p : Piece} {c₁ : Cursor σ} (hmoved : Moved c c₁ [p]) (hp : p.buffer = i ∧ p.off = off)
    (hlen : p.len ≤ remaining) (hdone : p.done ≤ p.len) (h : Walked i (off + p.len) (remaining - p.len) c₁ c' next ps) :
    Walked i off remaining c c' next (p :: ps) := by
  obtain ⟨rfl, rfl⟩ := hp
  refine ⟨hmoved.append h.moved, fun q hq => ?_, fun rest qs hgo hbehind => ?_, h.ret⟩
  · rcases List.mem_cons.1 hq with rfl | hq
    · exact ⟨rfl, le_rfl, by omega, hdone⟩
    · exact (h.within q hq).mono (by omega) (by omega)
  · have hend : p.off + p.len + (remaining - p.len) = p.off + remaining := by omega
    have hrest := h.laid rest qs hgo (by rwa [hend])
    rw [places_split p.buffer p.off hlen, List.append_assoc, List.map_cons, List.cons_append]
    rcases Nat.lt_or_eq_of_le hdone with hlt | heq
    · refine laid_gap hlt (List.prefix_append ..) fun q hq => ?_
      rcases List.mem_append.1 hq with hq | hq
      · obtain ⟨r, hr, rfl⟩ := List.mem_map.1 hq
        exact (h.within r hr).behind
      · exact (hbehind q hq).mono (by omega)
    · exact laid_whole heq hrest

/-- **The loop over a buffer** leaves pieces that stand one behind the other. -/
theorem transfer_walked (hsound : Sound after) (addr : Nat) (hfuel : remaining ≤ fuel) :
    Walked i off remaining c (transfer f mapped after i fuel addr off remaining c).2.2
      (transfer f mapped after i fuel addr off remaining c).1 (transfer f mapped after i fuel addr off remaining c).2.1 := by
  induction fuel generalizing addr off remaining c with
  | zero =>
    obtain rfl := Nat.le_zero.1 hfuel
    exact ⟨.nil c, nofun, fun rest qs h _ => h rfl, nofun⟩
  | succ fuel ih =>
    unfold transfer
    by_cases hzero : remaining = 0
    · subst hzero
      rw [if_pos rfl]
      exact ⟨.nil c, nofun, fun rest qs h _ => h rfl, nofun⟩
    · rw [if_neg hzero]
      have hpage : 0 < pageSize - addr % pageSize := Nat.sub_pos_of_lt (Nat.mod_lt _ (by decide))
      obtain ⟨chunk, hchunk⟩ : ∃ chunk, chunk = min remaining (pageSize - addr % pageSize) := ⟨_, rfl⟩
      have hpos : 0 < chunk := by omega
      have hle : chunk ≤ remaining := by omega
      dsimp only
      rw [← hchunk]
      by_cases hmapped : mapped addr = false
      · rw [if_pos hmapped]
        exact .last (.zero ..) ⟨rfl, rfl⟩ hle hpos nofun
      · rw [if_neg hmapped]
        have hask := Moved.ask f c chunk i off
        have hrun : (f.ask c chunk).1 ≤ chunk := f.run_le ..
        have hlast : after (f.ask c chunk).1 (f.ask c chunk).2.total chunk ≠ .go → (f.ask c chunk).1.toNat < chunk := fun hne => by
          have := hsound.last _ _ chunk hpos hne
          omega
        cases hafter : after (f.ask c chunk).1 (f.ask c chunk).2.total chunk with
        | stop => exact .last hask ⟨rfl, rfl⟩ hle (hlast (by rw [hafter]; exact nofun)) nofun
        | ret rax =>
          refine .last hask ⟨rfl, rfl⟩ hle (hlast (by rw [hafter]; exact nofun)) fun rax' heq => ?_
          obtain rfl := Next.ret.inj heq
          exact hsound.ret _ _ chunk rax hafter
        | go =>
          have hrest : Walked i (off + chunk) (remaining - chunk) (f.ask c chunk).2 _ _ _ :=
            ih (addr + chunk) (show remaining - chunk ≤ fuel by omega)
          exact .cons hask ⟨rfl, rfl⟩ hle (show (f.ask c chunk).1.toNat ≤ chunk by omega) hrest

theorem Behind.of_lt {q : Stretch Place} (h : Behind m 0 q) (hlt : i < m) : Behind i n q :=
  ⟨h.1, fun x hx => .inl (by rcases h.2 x hx with h | h <;> omega)⟩

/-- What the loop over the vector does. -/
structure Gone (i : Nat) (es : List Entry) (c c' : Cursor σ) (rax : Option Int) (ps : List Piece) : Prop where
  moved : Moved c c' ps
  behind : ∀ p ∈ ps, Behind i 0 p.part
  laid : Laid (concat i es) (ps.map Piece.part)
  ret : ∀ r, rax = some r → r.toNat = c'.total

theorem Gone.nil (i : Nat) (es : List Entry) (c : Cursor σ) : Gone i es c c none [] := ⟨.nil c, nofun, .nil _, nofun⟩

theorem Gone.cons {base len : Nat} {qs : List Piece} {c₁ : Cursor σ} (hwalked : Walked i 0 (min len maxBuffer) c c₁ next ps)
    {rax : Option Int} (hrest : Gone (i + 1) es c₁ c' rax qs) :
    Gone i (some (base, len) :: es) c c' rax (ps ++ ⟨i, maxBuffer, len - maxBuffer, c₁.offset, 0⟩ :: qs) := by
  obtain ⟨m, hm⟩ : ∃ m, m = min len maxBuffer := ⟨_, rfl⟩
  rw [← hm] at hwalked
  have hbehind : ∀ q ∈ qs.map Piece.part, Behind (i + 1) 0 q := fun q hq => by
    obtain ⟨p, hp, rfl⟩ := List.mem_map.1 hq
    exact hrest.behind p hp
  have hcutBehind : Behind i m (Piece.part ⟨i, maxBuffer, len - maxBuffer, c₁.offset, 0⟩) := by
    refine ⟨Nat.zero_le _, fun x hx => .inr ?_⟩
    rw [Piece.part_full, mem_places] at hx
    have hle : m ≤ maxBuffer := by omega
    exact ⟨hx.1, hle.trans hx.2.1⟩
  have hcut : Laid (places i m (len - m) ++ concat (i + 1) es)
      (Piece.part ⟨i, maxBuffer, len - maxBuffer, c₁.offset, 0⟩ :: qs.map Piece.part) := by
    rcases Nat.lt_or_ge maxBuffer len with hlong | hshort
    · obtain rfl : m = maxBuffer := by omega
      exact laid_gap (Nat.sub_pos_of_lt hlong) (List.prefix_append ..) fun q hq => (hbehind q hq).of_lt (Nat.lt_succ_self i)
    · obtain rfl : m = len := by omega
      have hnone : m - maxBuffer = 0 := by omega
      rw [hnone, Nat.sub_self]
      have hempty : (Piece.part ⟨i, maxBuffer, 0, c₁.offset, 0⟩).full = [] :=
        List.length_eq_zero_iff.1 (length_places i maxBuffer 0)
      exact Laid.whole (p := Piece.part ⟨i, maxBuffer, 0, c₁.offset, 0⟩) (by rw [hempty]; rfl) hrest.laid
  refine ⟨hwalked.moved.append ((Moved.zero c₁ i maxBuffer (len - maxBuffer)).append hrest.moved), fun p hp => ?_, ?_, hrest.ret⟩
  · rcases List.mem_append.1 hp with hp | hp
    · exact (hwalked.within p hp).behind
    · rcases List.mem_cons.1 hp with rfl | hp
      · exact hcutBehind.mono (Nat.zero_le m)
      · exact (hrest.behind p hp).of_lt (Nat.lt_succ_self i)
  · have hconcat : concat i (some (base, len) :: es) = places i 0 m ++ (places i m (len - m) ++ concat (i + 1) es) := by
      show places i 0 len ++ concat (i + 1) es = _
      rw [places_split i 0 (show m ≤ len by omega), List.append_assoc, Nat.zero_add]
    rw [hconcat, List.map_append, List.map_cons]
    refine hwalked.laid _ _ (fun _ => hcut) fun q hq => ?_
    rw [Nat.zero_add]
    rcases List.mem_cons.1 hq with rfl | hq
    · exact hcutBehind
    · exact (hbehind q hq).of_lt (Nat.lt_succ_self i)

/-- **The loop over the vector** leaves such pieces too. -/
theorem iovecs_gone (hsound : Sound after) :
    Gone i es c (iovecs f mapped after i es c).2.2 (iovecs f mapped after i es c).1 (iovecs f mapped after i es c).2.1 := by
  induction es generalizing i c with
  | nil => exact .nil i [] c
  | cons e es ih =>
    cases e with
    | none => exact .nil i (none :: es) c
    | some e =>
      obtain ⟨base, len⟩ := e
      unfold iovecs
      by_cases hzero : len = 0
      · subst hzero
        rw [if_pos rfl]
        have h := ih (i := i + 1) (c := c)
        exact ⟨h.moved, fun p hp => (h.behind p hp).of_lt (Nat.lt_succ_self i), h.laid, h.ret⟩
      · rw [if_neg hzero]
        by_cases hvalid : validateUserBuffer base len = false
        · rw [if_pos hvalid]
          exact .nil i (some (base, len) :: es) c
        · rw [if_neg hvalid]
          have hwalked : Walked i 0 (min len maxBuffer) c
              (transfer f mapped after i (min len maxBuffer) base 0 (min len maxBuffer) c).2.2 _ _ :=
            transfer_walked hsound base le_rfl
          cases hresult : transfer f mapped after i (min len maxBuffer) base 0 (min len maxBuffer) c with
          | mk next r =>
            obtain ⟨ps, c₁⟩ := r
            rw [hresult] at hwalked
            cases next with
            | ret rax =>
              refine ⟨hwalked.moved, fun p hp => (hwalked.within p hp).behind, ?_, fun r hr => ?_⟩
              · show Laid (places i 0 len ++ concat (i + 1) es) (ps.map Piece.part)
                rw [places_split i 0 (Nat.min_le_left len maxBuffer), List.append_assoc, ← List.append_nil (ps.map Piece.part)]
                exact hwalked.laid _ [] nofun nofun
              · obtain rfl := Option.some.inj hr
                exact hwalked.ret rax rfl
            | go => exact .cons hwalked ih
            | stop => exact .cons hwalked ih

/-! ## The calls -/

theorem conserves_error {e : Int} (he : 0 ≤ e) (bytes : List Place) (start offset : Nat) :
    Conserves bytes start (.error e offset) ∧ (Outcome.error e offset).Steady := by
  have hzero : (-e).toNat = 0 := by omega
  refine ⟨⟨?_, ?_⟩, List.Pairwise.nil⟩
  · show ([] : List Place) = bytes.take (-e).toNat
    rw [hzero, List.take_zero]
  · show ([] : List Nat) = List.range' start (-e).toNat
    rw [hzero]
    rfl

theorem conserves_iff {bytes : List Place} {start offset : Nat} (hlaid : Laid bytes (ps.map Piece.part))
    (hpositions : ps.flatMap Piece.positions = List.range' start (count ps)) (hrax : rax.toNat = count ps) :
    Conserves bytes start ⟨rax, ps, offset⟩ ↔ Outcome.Steady ⟨rax, ps, offset⟩ := by
  refine Iff.trans ⟨fun h => ?_, fun h => ⟨?_, ?_⟩⟩ (Parts.moved_iff hlaid)
  · have := h.places
    rwa [hrax] at this
  · rw [hrax]
    exact h
  · rw [hrax]
    exact hpositions

theorem vectored_iff (hsound : Sound after) (entries : List Entry) (file : σ) (offset : Nat) :
    Conserves (concat 0 entries) offset (vectored f mapped after entries file offset) ↔
      (vectored f mapped after entries file offset).Steady := by
  have h : Gone 0 entries ⟨file, offset, 0⟩ (iovecs f mapped after 0 entries ⟨file, offset, 0⟩).2.2 _ _ := iovecs_gone hsound
  have htotal := h.moved.total
  refine conserves_iff h.laid h.moved.positions ?_
  cases hret : (iovecs f mapped after 0 entries ⟨file, offset, 0⟩).1 with
  | none =>
    rw [Option.getD_none, Int.toNat_natCast, htotal, Nat.zero_add]
  | some r =>
    rw [Option.getD_some, h.ret r hret, htotal, Nat.zero_add]

def startOf (d : Option (Desc σ)) : Nat := match d with
  | none => 0
  | some d => d.offset

theorem error_iff {e : Int} (he : 0 ≤ e) (bytes : List Place) (start offset : Nat) :
    Conserves bytes start (.error e offset) ↔ (Outcome.error e offset).Steady :=
  iff_of_true (conserves_error he bytes start offset).1 (conserves_error he bytes start offset).2

theorem sysReadv_iff (d : Option (Desc σ)) (mapped : Nat → Bool) (entries : List Entry) :
    Conserves (concat 0 entries) (startOf d) (sysReadv d mapped entries) ↔ (sysReadv d mapped entries).Steady := by
  unfold sysReadv
  split
  · exact error_iff (by decide) ..
  · cases d with
    | none => exact error_iff (by decide) ..
    | some d =>
      dsimp only
      split
      · exact error_iff (by decide) ..
      · exact vectored_iff sound_readv ..

theorem sysWritev_iff (d : Option (Desc σ)) (mapped : Nat → Bool) (entries : List Entry) :
    Conserves (concat 0 entries) (startOf d) (sysWritev d mapped entries) ↔ (sysWritev d mapped entries).Steady := by
  unfold sysWritev
  split
  · exact error_iff (by decide) ..
  · cases d with
    | none => exact error_iff (by decide) ..
    | some d =>
      dsimp only
      split
      · exact error_iff (by decide) ..
      · exact vectored_iff sound_write ..

theorem conserves_offset {bytes : List Place} {start offset : Nat} {o : Outcome} (h : Conserves bytes start o ↔ o.Steady) :
    Conserves bytes start { o with offset := offset } ↔ Outcome.Steady { o with offset := offset } :=
  ⟨fun hc => h.1 ⟨hc.places, hc.positions⟩, fun hs => ⟨(h.2 hs).places, (h.2 hs).positions⟩⟩

theorem sysPwritev_iff (d : Option (Desc σ)) (mapped : Nat → Bool) (entries : List Entry) (offset : Nat) :
    Conserves (concat 0 entries) offset (sysPwritev d mapped entries offset) ↔ (sysPwritev d mapped entries offset).Steady := by
  unfold sysPwritev
  split
  · exact error_iff (by decide) ..
  · cases d with
    | none => exact error_iff (by decide) ..
    | some d =>
      dsimp only
      split
      · exact error_iff (by decide) ..
      · split
        · exact error_iff (by decide) ..
        · exact conserves_offset (vectored_iff sound_write ..)

theorem sysPwrite64_iff (d : Option (Desc σ)) (mapped : Nat → Bool) (base count offset : Nat) :
    Conserves (places 0 0 count) offset (sysPwrite64 d mapped base count offset) ↔
      (sysPwrite64 d mapped base count offset).Steady := by
  unfold sysPwrite64
  cases d with
  | none => exact error_iff (by decide) ..
  | some d =>
    dsimp only
    split
    · exact error_iff (by decide) ..
    · split
      · exact error_iff (by decide) ..
      · next f _ =>
        have h : Walked 0 0 (min count maxBuffer) ⟨d.file, offset, 0⟩
            (transfer f mapped afterWrite 0 (min count maxBuffer) base 0 (min count maxBuffer) ⟨d.file, offset, 0⟩).2.2 _ _ :=
          transfer_walked sound_write base le_rfl
        refine conserves_iff ?_ h.moved.positions ?_
        · rw [places_split 0 0 (Nat.min_le_left count maxBuffer), ← List.append_nil (List.map Piece.part _)]
          exact h.laid _ [] (fun _ => .nil _) nofun
        · rw [Int.toNat_natCast, h.moved.total, Nat.zero_add]

end

/-! ## Copies -/

section
variable {σ τ : Type}

theorem copyLoop_spec (read : Op σ) (write : Op τ) (max fuel total : Nat) (s : σ) (t : τ) :
    (copyLoop read write max fuel total s t).1 =
        total + ((copyLoop read write max fuel total s t).2.map Round.written).sum ∧
      ∀ r ∈ (copyLoop read write max fuel total s t).2, r.written ≤ r.read := by
  induction fuel generalizing total s t with
  | zero => exact ⟨rfl, nofun⟩
  | succ fuel ih =>
    unfold copyLoop
    split
    · dsimp only
      split
      · exact ⟨rfl, nofun⟩
      · next hread =>
        split
        · refine ⟨rfl, fun r hr => ?_⟩
          rw [List.mem_singleton.1 hr]
          exact Nat.zero_le _
        · obtain ⟨htotal, hle⟩ := ih (total + (write.run t (read.run s (min pageSize (max - total))).1.toNat).1.toNat) _ _
          refine ⟨?_, fun r hr => ?_⟩
          · rw [htotal, List.map_cons, List.sum_cons, Nat.add_assoc]
          · rcases List.mem_cons.1 hr with rfl | hr
            · have hle' := write.run_le t (read.run s (min pageSize (max - total))).1.toNat
              show (write.run t (read.run s (min pageSize (max - total))).1.toNat).1.toNat ≤
                (read.run s (min pageSize (max - total))).1.toNat
              omega
            · exact hle r hr
    · exact ⟨rfl, nofun⟩

theorem sum_eq_iff {rounds : List Round} (hle : ∀ r ∈ rounds, r.written ≤ r.read) :
    (rounds.map Round.written).sum ≤ (rounds.map Round.read).sum ∧
      ((rounds.map Round.read).sum = (rounds.map Round.written).sum ↔ ∀ r ∈ rounds, r.written = r.read) := by
  induction rounds with
  | nil => exact ⟨le_rfl, iff_of_true rfl nofun⟩
  | cons r rounds ih =>
    obtain ⟨hsum, hiff⟩ := ih fun q hq => hle q (List.mem_cons_of_mem _ hq)
    have hr := hle r List.mem_cons_self
    rw [List.map_cons, List.map_cons, List.sum_cons, List.sum_cons, List.forall_mem_cons, ← hiff]
    omega

theorem copy_iff (input : Option (Desc σ)) (output : Option (Desc τ)) (count : Nat) :
    (copy input output count).Conserves ↔ ∀ r ∈ (copy input output count).rounds, r.written = r.read := by
  have herror : ∀ e : Int, 0 ≤ e → ((⟨-e, []⟩ : Copied).Conserves ↔ ∀ r ∈ (⟨-e, []⟩ : Copied).rounds, r.written = r.read) := by
    intro e he
    have hzero : (-e).toNat = 0 := by omega
    exact iff_of_true ⟨hzero.symm, hzero.symm⟩ nofun
  unfold copy
  cases input with
  | none => exact herror ebadf (by decide)
  | some i =>
    cases output with
    | none => exact herror ebadf (by decide)
    | some o =>
      dsimp only
      split
      · next read write _ _ =>
        obtain ⟨htotal, hle⟩ := copyLoop_spec read write (min count 65536) (min count 65536) 0 i.file o.file
        obtain ⟨-, hsum⟩ := sum_eq_iff hle
        rw [Nat.zero_add] at htotal
        rw [← hsum]
        constructor
        · intro h
          have hsource := h.source
          rw [Int.toNat_natCast, htotal] at hsource
          exact hsource
        · intro h
          exact ⟨by rw [Int.toNat_natCast, htotal]; exact h, by rw [Int.toNat_natCast, htotal]; rfl⟩
      · exact herror einval (by decide)

/-- **Vectored and copying I/O.** The four calls transfer the first `rax` bytes of their buffers if and only if nothing is
transferred behind a piece with a gap; the two others advance the source by the bytes written if and only if every write takes all
that was read. -/
theorem io_conserved_iff (d : Option (Desc σ)) (out : Option (Desc τ)) (mapped : Nat → Bool) (entries : List Entry)
    (base len offset : Nat) :
    (Conserves (concat 0 entries) (startOf d) (sysReadv d mapped entries) ↔ (sysReadv d mapped entries).Steady) ∧
    (Conserves (concat 0 entries) (startOf d) (sysWritev d mapped entries) ↔ (sysWritev d mapped entries).Steady) ∧
    (Conserves (concat 0 entries) offset (sysPwritev d mapped entries offset) ↔ (sysPwritev d mapped entries offset).Steady) ∧
    (Conserves (places 0 0 len) offset (sysPwrite64 d mapped base len offset) ↔
      (sysPwrite64 d mapped base len offset).Steady) ∧
    ((sysSendfile out d len).Conserves ↔ ∀ r ∈ (sysSendfile out d len).rounds, r.written = r.read) ∧
    ((sysCopyFileRange d out len).Conserves ↔ ∀ r ∈ (sysCopyFileRange d out len).rounds, r.written = r.read) :=
  ⟨sysReadv_iff .., sysWritev_iff .., sysPwritev_iff .., sysPwrite64_iff .., copy_iff .., copy_iff ..⟩

end

/-- A file that takes and gives everything. -/
def fullOp : Op Unit := ⟨fun s n => (n, s), fun _ _ => le_rfl⟩

/-- A buffer in a page that is not there, and one behind it: `readv` puts the first bytes of the file into the second one. -/
theorem skips_unmapped :
    let o := sysReadv (some ⟨some fullOp, true, (), 0⟩) (fun addr => addr = 8192) [some (4096, 1), some (8192, 1)]
    o.rax = 1 ∧ ¬ Conserves (concat 0 [some (4096, 1), some (8192, 1)]) 0 o := by
  refine ⟨by decide +kernel, fun h => ?_⟩
  have hplaces := h.places
  revert hplaces
  decide +kernel

end Zigix.VectoredIo
