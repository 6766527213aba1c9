import Zigix.Lib.Chains
import Zigix.Mm.Vmm

/-!
# The futex wait queue (`kernel/proc/futex.zig`)

A waiter takes one of 128 slots, which is put at the head of the chain of its hash bucket. The key of a waiter is the
physical address of the futex word when it began to wait. A wake-up walks the chain of the bucket and takes waiters with
its key out.

`futexWait`, `futexWake` and `wakeAddress` are given what `vmm.translate` says about the address of the word.
`none` is a panic: an address that is not aligned, or an index that is out of bounds.
-/

namespace Zigix.Futex

open Chains

def maxWaiters : Nat := 128
def hashBuckets : Nat := 64

/-- `0xFF`, the end of a chain. -/
def chainEnd : Nat := 255

structure WaitEntry where
  pid : Nat
  physAddr : Nat
  inUse : Bool
  hashNext : Nat
  deriving DecidableEq

structure Queue where
  waitQueue : Nat → WaitEntry
  /-- `hash_buckets`: the first slot of every chain -/
  heads : Nat → Nat

def initial : Queue where
  waitQueue := fun _ => { pid := 0, physAddr := 0, inUse := false, hashNext := chainEnd }
  heads := fun _ => chainEnd

def futexHash (phys : Nat) : Nat := phys / 4 % hashBuckets

/-- `target_phys`. -/
def targetPhys (phys uaddr : Nat) : Nat := phys / 4096 * 4096 + uaddr % 4096

inductive WaitResult
  | fault
  | again
  | noMem
  | blocked
  deriving DecidableEq

def Queue.freeSlot (q : Queue) : Option Nat := (List.range maxWaiters).find? fun i => !(q.waitQueue i).inUse

def Queue.push (q : Queue) (slot pid key : Nat) : Queue where
  waitQueue := Function.update q.waitQueue slot
    { pid, physAddr := key, inUse := true, hashNext := q.heads (futexHash key) }
  heads := Function.update q.heads (futexHash key) slot

/-- `futexWait`: `phys` is the translation of `uaddr`, and `word` the 32-bit word at a physical address. -/
def futexWait (phys : Option Nat) (word : Nat → BitVec 32) (pid uaddr : Nat) (expectedVal : BitVec 64) (q : Queue) :
    Option (WaitResult × Queue) :=
  match phys with
  | none => some (.fault, q)
  | some phys =>
    if phys % 4 ≠ 0 then none
    else if word phys ≠ expectedVal.setWidth 32 then some (.again, q)
    else
      match q.freeSlot with
      | none => some (.noMem, q)
      | some slot => some (.blocked, q.push slot pid (targetPhys phys uaddr))

/-- A slot leaves the chain: the link to it, from `prev` or from the head, leads to the next one. -/
def Queue.unlink (q : Queue) (bucket : Nat) (prev : Option Nat) (cur : Nat) : Queue :=
  let next := (q.waitQueue cur).hashNext
  let q := { q with waitQueue := Function.update q.waitQueue cur { q.waitQueue cur with inUse := false } }
  let q :=
    match prev with
    | some p => { q with waitQueue := Function.update q.waitQueue p { q.waitQueue p with hashNext := next } }
    | none => { q with heads := Function.update q.heads bucket next }
  { q with waitQueue := Function.update q.waitQueue cur { q.waitQueue cur with hashNext := chainEnd } }

/-- The walk of `futexWake` and `wakeAddress`: the processes that it wakes, in order. -/
def wakeChain (key maxWake : Nat) :
    (fuel : Nat) → (prev : Option Nat) → (cur : Nat) → (woken : List Nat) → Queue → Option (List Nat × Queue)
  | 0, _, _, _, _ => none
  | fuel + 1, prev, cur, woken, q =>
    if cur = chainEnd ∨ maxWake ≤ woken.length then some (woken, q)
    else if maxWaiters ≤ cur then none
    else
      let next := (q.waitQueue cur).hashNext
      if (q.waitQueue cur).inUse = true ∧ (q.waitQueue cur).physAddr = key then
        wakeChain key maxWake fuel prev next (woken ++ [(q.waitQueue cur).pid]) (q.unlink (futexHash key) prev cur)
      else wakeChain key maxWake fuel (some cur) next woken q

/-- Enough turns for a chain that visits no slot twice. -/
def walkFuel : Nat := maxWaiters + 1

/-- `futexWake`; `none` for the processes is `EFAULT`. -/
def futexWake (phys : Option Nat) (uaddr maxWake : Nat) (q : Queue) : Option (Option (List Nat) × Queue) :=
  match phys with
  | none => some (none, q)
  | some phys =>
    let key := targetPhys phys uaddr
    (wakeChain key maxWake walkFuel none (q.heads (futexHash key)) [] q).map fun (woken, q) => (some woken, q)

/-- `wakeAddress`, of a process that exits. -/
def wakeAddress (phys : Option Nat) (uaddr maxWake : Nat) (q : Queue) : Option (List Nat × Queue) :=
  match phys with
  | none => some ([], q)
  | some phys =>
    let key := targetPhys phys uaddr
    wakeChain key maxWake walkFuel none (q.heads (futexHash key)) [] q

end Zigix.Futex
