import Zigix.Lib.Ring

/-!
# Pipes (`kernel/fs/pipe.zig`)

* `pipe_fifo` : over any calls the bytes that were accepted are those that were returned, followed by those in the ring.

The ring has 65535 cells; its positions and its count are 16-bit and stay below that. A call returns the process that it
wakes. The notification of `epoll` waiters is left out. `none` is a kernel panic: a count of ends beyond 255.
-/

namespace Zigix.Pipes

def pipeBufSize : Nat := 65535

structure Pipe where
  buffer : Nat → BitVec 8
  readPos : Nat
  writePos : Nat
  count : Nat
  readers : Nat
  writers : Nat
  blockedReaderPid : Nat
  blockedWriterPid : Nat
  inUse : Bool

/-- `O_ACCMODE` of a description. -/
inductive Access
  | rdonly
  | wronly
  | rdwr
  deriving DecidableEq

inductive ReadResult
  | eof
  | again
  | bytes (bs : List (BitVec 8))

inductive WriteResult
  /-- with `SIGPIPE` -/
  | epipe
  | again
  | wrote (n : Nat)

/-- The process in `pid`, if there is one. -/
def recorded (pid : Nat) : Option Nat := if pid = 0 then none else some pid

/-! ## Calls -/

/-- `to_copy` bytes from `read_pos` on, in two pieces. -/
def takeOut (p : Pipe) (toCopy : Nat) : List (BitVec 8) :=
  let first := min toCopy (pipeBufSize - p.readPos)
  (List.range first).map (fun i => p.buffer (p.readPos + i)) ++ (List.range (toCopy - first)).map p.buffer

/-- `to_copy` bytes to `write_pos` on, in two pieces. -/
def putIn (p : Pipe) (data : Nat → BitVec 8) (toCopy : Nat) : Nat → BitVec 8 :=
  let first := min toCopy (pipeBufSize - p.writePos)
  Ring.store (fun i => i) (fun i => data (first + i)) (toCopy - first)
    (Ring.store (fun i => p.writePos + i) data first p.buffer)

/-- `pipeRead` by process `pid`; the last component is the process that it wakes. -/
def pipeRead (pid count : Nat) (p : Pipe) : ReadResult × Pipe × Option Nat :=
  if p.count = 0 then
    if p.writers = 0 then (.eof, p, none) else (.again, { p with blockedReaderPid := pid }, none)
  else
    let toCopy := if p.count < count then p.count else count
    (.bytes (takeOut p toCopy),
      { p with
        readPos := (p.readPos + toCopy) % pipeBufSize
        count := p.count - toCopy
        blockedWriterPid := 0 },
      recorded p.blockedWriterPid)

/-- `pipeWrite` by process `pid`. -/
def pipeWrite (pid : Nat) (data : List (BitVec 8)) (p : Pipe) : WriteResult × Pipe × Option Nat :=
  if p.readers = 0 then (.epipe, p, none)
  else if pipeBufSize - p.count = 0 then (.again, { p with blockedWriterPid := pid }, none)
  else
    let toCopy := if pipeBufSize - p.count < data.length then pipeBufSize - p.count else data.length
    (.wrote toCopy,
      { p with
        buffer := putIn p (fun i => data.getD i 0) toCopy
        writePos := (p.writePos + toCopy) % pipeBufSize
        count := p.count + toCopy
        blockedReaderPid := 0 },
      recorded p.blockedReaderPid)

/-- `pipeClose` of a description with this access. -/
def pipeClose (access : Access) (p : Pipe) : Pipe × Option Nat :=
  let (p, woken) := match access with
    | .rdonly => ({ p with readers := p.readers - 1, blockedWriterPid := 0 }, recorded p.blockedWriterPid)
    | .wronly => ({ p with writers := p.writers - 1, blockedReaderPid := 0 }, recorded p.blockedReaderPid)
    | .rdwr => (p, none)
  (if p.readers = 0 ∧ p.writers = 0 then { p with inUse := false } else p, woken)

/-- The counts of `openExistingPipe`. -/
def openPipe (access : Access) (p : Pipe) : Option Pipe :=
  match access with
  | .wronly => if p.writers < 255 then some { p with writers := p.writers + 1 } else none
  | _ => if p.readers < 255 then some { p with readers := p.readers + 1 } else none

/-- The pipe as `createPipe` sets it up; the buffer keeps its bytes. -/
def createPipe (p : Pipe) : Pipe :=
  { p with
    readPos := 0, writePos := 0, count := 0, readers := 1, writers := 1, blockedReaderPid := 0, blockedWriterPid := 0
    inUse := true }

section Cases
variable {p : Pipe} {pid count : Nat} {data : List (BitVec 8)}

theorem pipeRead_cases (p : Pipe) (pid count : Nat) :
    (p.count = 0 ∧ p.writers = 0 ∧ pipeRead pid count p = (.eof, p, none)) ∨
      (p.count = 0 ∧ p.writers ≠ 0 ∧ pipeRead pid count p = (.again, { p with blockedReaderPid := pid }, none)) ∨
      (p.count ≠ 0 ∧ ∃ toCopy, toCopy ≤ p.count ∧ pipeRead pid count p = (.bytes (takeOut p toCopy),
        { p with readPos := (p.readPos + toCopy) % pipeBufSize, count := p.count - toCopy, blockedWriterPid := 0 },
        recorded p.blockedWriterPid)) := by
  unfold pipeRead
  by_cases hempty : p.count = 0
  · by_cases hwriters : p.writers = 0
    · rw [if_pos hempty, if_pos hwriters]
      exact .inl ⟨hempty, hwriters, rfl⟩
    · rw [if_pos hempty, if_neg hwriters]
      exact .inr (.inl ⟨hempty, hwriters, rfl⟩)
  · rw [if_neg hempty]
    refine .inr (.inr ⟨hempty, _, ?_, rfl⟩)
    split
    · exact le_rfl
    · omega

theorem pipeWrite_cases (p : Pipe) (pid : Nat) (data : List (BitVec 8)) :
    (p.readers = 0 ∧ pipeWrite pid data p = (.epipe, p, none)) ∨
      (p.readers ≠ 0 ∧ pipeBufSize ≤ p.count ∧
        pipeWrite pid data p = (.again, { p with blockedWriterPid := pid }, none)) ∨
      (p.readers ≠ 0 ∧ p.count < pipeBufSize ∧ ∃ toCopy, p.count + toCopy ≤ pipeBufSize ∧ toCopy ≤ data.length ∧
        pipeWrite pid data p = (.wrote toCopy,
          { p with
            buffer := putIn p (fun i => data.getD i 0) toCopy, writePos := (p.writePos + toCopy) % pipeBufSize
            count := p.count + toCopy, blockedReaderPid := 0 },
          recorded p.blockedReaderPid)) := by
  unfold pipeWrite
  by_cases hreaders : p.readers = 0
  · rw [if_pos hreaders]
    exact .inl ⟨hreaders, rfl⟩
  · by_cases hfull : pipeBufSize - p.count = 0
    · rw [if_neg hreaders, if_pos hfull]
      exact .inr (.inl ⟨hreaders, by omega, rfl⟩)
    · rw [if_neg hreaders, if_neg hfull]
      refine .inr (.inr ⟨hreaders, by omega, _, ?_, ?_, rfl⟩)
      · split
        · omega
        · omega
      · split
        · omega
        · exact le_rfl

end Cases

/-! ## First in, first out -/

/-- What any process does with one pipe: `ends` is any opening and closing of its ends. -/
inductive Call
  | read (pid count : Nat)
  | write (pid : Nat) (data : List (BitVec 8))
  | ends (readers writers : Nat)

structure History where
  pipe : Pipe
  accepted : List (BitVec 8)
  returned : List (BitVec 8)

def ReadResult.data : ReadResult → List (BitVec 8)
  | .bytes bs => bs
  | _ => []

def WriteResult.taken : WriteResult → Nat
  | .wrote n => n
  | _ => 0

def History.step (h : History) : Call → History
  | .read pid count =>
    let r := pipeRead pid count h.pipe
    { h with pipe := r.2.1, returned := h.returned ++ r.1.data }
  | .write pid data =>
    let r := pipeWrite pid data h.pipe
    { h with pipe := r.2.1, accepted := h.accepted ++ data.take r.1.taken }
  | .ends readers writers => { h with pipe := { h.pipe with readers, writers } }

def Pipe.held (p : Pipe) : List (BitVec 8) := Ring.slice pipeBufSize p.buffer p.readPos p.count

/-- The positions are in the ring, `count` cells apart. -/
structure Pipe.Ordered (p : Pipe) : Prop where
  read_lt : p.readPos < pipeBufSize
  count_le : p.count ≤ pipeBufSize
  write_eq : p.writePos = (p.readPos + p.count) % pipeBufSize

section Fifo
variable {p : Pipe}

theorem takeOut_eq {toCopy : Nat} (h : p.Ordered) (hle : toCopy ≤ p.count) :
    takeOut p toCopy = Ring.slice pipeBufSize p.buffer p.readPos toCopy := by
  have hread := h.read_lt
  have hcount := h.count_le
  obtain ⟨first, hfirst⟩ : ∃ first, min toCopy (pipeBufSize - p.readPos) = first := ⟨_, rfl⟩
  obtain ⟨second, rfl⟩ : ∃ second, toCopy = first + second := ⟨toCopy - first, by omega⟩
  unfold takeOut Ring.slice
  simp only [hfirst, Nat.add_sub_cancel_left]
  rw [List.range_add, List.map_append, List.map_map]
  congr 1
  · apply List.map_congr_left
    intro i hi
    have hi := List.mem_range.1 hi
    rw [Nat.mod_eq_of_lt (by omega)]
  · apply List.map_congr_left
    intro i hi
    have hi := List.mem_range.1 hi
    -- the second piece begins at cell 0
    have hwrap : p.readPos + (first + i) = i + pipeBufSize := by omega
    rw [Function.comp_apply, hwrap, Nat.add_mod_right, Nat.mod_eq_of_lt (by omega)]

theorem putIn_eq {data : Nat → BitVec 8} {toCopy : Nat} (hpos : p.writePos < pipeBufSize) (hle : toCopy ≤ pipeBufSize) :
    putIn p data toCopy = Ring.store (fun i => (p.writePos + i) % pipeBufSize) data toCopy p.buffer := by
  obtain ⟨first, hfirst⟩ : ∃ first, min toCopy (pipeBufSize - p.writePos) = first := ⟨_, rfl⟩
  obtain ⟨second, rfl⟩ : ∃ second, toCopy = first + second := ⟨toCopy - first, by omega⟩
  unfold putIn
  simp only [hfirst, Nat.add_sub_cancel_left]
  rw [Ring.store_add]
  have hlow : Ring.store (fun i => p.writePos + i) data first p.buffer =
      Ring.store (fun i => (p.writePos + i) % pipeBufSize) data first p.buffer :=
    Ring.store_congr fun i hi => (Nat.mod_eq_of_lt (by omega)).symm
  rw [hlow]
  refine Ring.store_congr fun i hi => ?_
  have hwrap : p.writePos + (first + i) = i + pipeBufSize := by omega
  rw [hwrap, Nat.add_mod_right, Nat.mod_eq_of_lt (by omega)]

structure History.Fifo (h : History) : Prop where
  ordered : h.pipe.Ordered
  split : h.accepted = h.returned ++ h.pipe.held

theorem pipeBufSize_pos : 0 < pipeBufSize := by decide

theorem History.Fifo.read {h : History} (hf : h.Fifo) (pid count : Nat) : (h.step (.read pid count)).Fifo := by
  unfold History.step
  rcases pipeRead_cases h.pipe pid count with ⟨-, -, heq⟩ | ⟨-, -, heq⟩ | ⟨-, toCopy, hle, heq⟩
  · simp only [heq, ReadResult.data, List.append_nil]
    exact hf
  · simp only [heq, ReadResult.data, List.append_nil]
    exact ⟨⟨hf.ordered.read_lt, hf.ordered.count_le, hf.ordered.write_eq⟩, hf.split⟩
  · simp only [heq, ReadResult.data]
    refine ⟨⟨Nat.mod_lt _ pipeBufSize_pos, (Nat.sub_le _ _).trans hf.ordered.count_le, ?_⟩, ?_⟩
    · show h.pipe.writePos = ((h.pipe.readPos + toCopy) % pipeBufSize + (h.pipe.count - toCopy)) % pipeBufSize
      rw [hf.ordered.write_eq, Nat.mod_add_mod, Nat.add_assoc, Nat.add_sub_cancel' hle]
    · show h.accepted = (h.returned ++ takeOut h.pipe toCopy) ++
        Ring.slice pipeBufSize h.pipe.buffer ((h.pipe.readPos + toCopy) % pipeBufSize) (h.pipe.count - toCopy)
      rw [takeOut_eq hf.ordered hle, List.append_assoc, ← Ring.slice_advance hle]
      exact hf.split

theorem History.Fifo.write {h : History} (hf : h.Fifo) (pid : Nat) (data : List (BitVec 8)) :
    (h.step (.write pid data)).Fifo := by
  unfold History.step
  rcases pipeWrite_cases h.pipe pid data with ⟨-, heq⟩ | ⟨-, -, heq⟩ | ⟨-, -, toCopy, hroom, hdata, heq⟩
  · simp only [heq, WriteResult.taken, List.take_zero, List.append_nil]
    exact hf
  · simp only [heq, WriteResult.taken, List.take_zero, List.append_nil]
    exact ⟨⟨hf.ordered.read_lt, hf.ordered.count_le, hf.ordered.write_eq⟩, hf.split⟩
  · have hwrite : h.pipe.writePos < pipeBufSize := by
      rw [hf.ordered.write_eq]
      exact Nat.mod_lt _ pipeBufSize_pos
    have hcells : ∀ i, (h.pipe.writePos + i) % pipeBufSize = (h.pipe.readPos + h.pipe.count + i) % pipeBufSize := by
      intro i
      rw [hf.ordered.write_eq, Nat.mod_add_mod]
    simp only [heq, WriteResult.taken]
    refine ⟨⟨hf.ordered.read_lt, hroom, ?_⟩, ?_⟩
    · show (h.pipe.writePos + toCopy) % pipeBufSize = (h.pipe.readPos + (h.pipe.count + toCopy)) % pipeBufSize
      rw [hcells, Nat.add_assoc]
    · show h.accepted ++ data.take toCopy = h.returned ++
        Ring.slice pipeBufSize (putIn h.pipe (fun i => data.getD i 0) toCopy) h.pipe.readPos (h.pipe.count + toCopy)
      rw [putIn_eq hwrite (by omega), funext hcells, Ring.slice_store hroom, Ring.map_getD_take data 0 hdata,
        ← List.append_assoc]
      exact congrArg (· ++ _) hf.split

theorem History.Fifo.step {h : History} (hf : h.Fifo) (call : Call) : (h.step call).Fifo := by
  cases call with
  | read pid count => exact hf.read pid count
  | write pid data => exact hf.write pid data
  | ends readers writers =>
    exact ⟨⟨hf.ordered.read_lt, hf.ordered.count_le, hf.ordered.write_eq⟩, hf.split⟩

theorem History.Fifo.run {h : History} (hf : h.Fifo) (calls : List Call) : (calls.foldl History.step h).Fifo := by
  induction calls generalizing h with
  | nil => exact hf
  | cons call calls ih => exact ih (hf.step call)

def History.new (p : Pipe) : History := { pipe := createPipe p, accepted := [], returned := [] }

theorem History.new_fifo (p : Pipe) : (History.new p).Fifo :=
  ⟨⟨pipeBufSize_pos, Nat.zero_le _, rfl⟩, rfl⟩

/-- **First in, first out.** Over any calls by any processes, the bytes that writes accepted are the bytes that reads
returned, followed by the `count` bytes in the ring, which never holds more than its size. -/
theorem pipe_fifo (p : Pipe) (calls : List Call) :
    (calls.foldl History.step (.new p)).returned <+: (calls.foldl History.step (.new p)).accepted ∧
      (calls.foldl History.step (.new p)).accepted =
        (calls.foldl History.step (.new p)).returned ++ (calls.foldl History.step (.new p)).pipe.held ∧
      (calls.foldl History.step (.new p)).pipe.held.length = (calls.foldl History.step (.new p)).pipe.count ∧
      (calls.foldl History.step (.new p)).pipe.count ≤ pipeBufSize := by
  have hf := (History.new_fifo p).run calls
  exact ⟨⟨_, hf.split.symm⟩, hf.split, Ring.length_slice _ _ _ _, hf.ordered.count_le⟩

end Fifo

end Zigix.Pipes
