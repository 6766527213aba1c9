import Zigix.Lib.Linked
import Mathlib.Data.List.Perm.Subperm

/-!
# The run queues (`kernel/arch/aarch64/runqueue.zig`)

One queue of ready processes for each CPU, threaded through the processes themselves. Each call holds the lock of the
one queue that it changes, so any calls of any CPUs come one after another.

* `Queues` : the heads, tails and lengths, and the link and the home CPU of every process;
* `Waiting` : the queues as lists; `Op.apply` : what a call does to them;
* `queues_are_lists` : over every sequence of calls the links are those of the lists, and the answers are theirs.

A process is the index of its slot.
-/

namespace Zigix.RunQueues

open Chains (Seg predecessor seg_append)

def maxCpus : Nat := 4

def maxProcesses : Nat := 512

structure RunQueue where
  head : Option Nat
  tail : Option Nat
  len : Nat

structure Queues where
  rqs : Nat → RunQueue
  rqNext : Nat → Option Nat
  homeCpu : Nat → Nat

def Queues.empty : Queues where
  rqs _ := ⟨none, none, 0⟩
  rqNext _ := none
  homeCpu _ := 0

/-- The link of a process; no link from no process. -/
def Queues.next (s : Queues) (p : Option Nat) : Option Nat := p.bind s.rqNext

/-! ## The calls -/

def enqueueUnlocked (s : Queues) (cpu proc : Nat) : Queues :=
  let rq := s.rqs cpu
  let cleared := Function.update s.rqNext proc none
  match rq.tail with
  | some t =>
    { s with
      rqs := Function.update s.rqs cpu { rq with tail := some proc, len := rq.len + 1 }
      rqNext := Function.update cleared t (some proc) }
  | none =>
    { s with
      rqs := Function.update s.rqs cpu ⟨some proc, some proc, rq.len + 1⟩
      rqNext := cleared }

def enqueue (s : Queues) (cpu proc : Nat) : Queues := if maxCpus ≤ cpu then s else enqueueUnlocked s cpu proc

def dequeueUnlocked (s : Queues) (cpu : Nat) : Option Nat × Queues :=
  let rq := s.rqs cpu
  match rq.head with
  | none => (none, s)
  | some proc =>
    let head := s.rqNext proc
    (some proc,
      { s with
        rqs := Function.update s.rqs cpu ⟨head, if head = none then none else rq.tail, rq.len - 1⟩
        rqNext := Function.update s.rqNext proc none })

def dequeue (s : Queues) (cpu : Nat) : Option Nat × Queues :=
  if maxCpus ≤ cpu then (none, s) else dequeueUnlocked s cpu

/-- `proc` unlinked behind `prev`. -/
def unlink (s : Queues) (cpu proc : Nat) (prev : Option Nat) : Queues :=
  let rq := s.rqs cpu
  let after := s.rqNext proc
  let linked := match prev with
    | some p => Function.update s.rqNext p after
    | none => s.rqNext
  { s with
    rqs := Function.update s.rqs cpu
      ⟨if prev = none then after else rq.head, if rq.tail = some proc then prev else rq.tail, rq.len - 1⟩
    rqNext := Function.update linked proc none }

/-- The walk visits `fuel` processes at most; `none` if that is too few. -/
def removeFromQueue (fuel : Nat) (s : Queues) (cpu proc : Nat) : Option Queues :=
  if maxCpus ≤ cpu then some s
  else
    match predecessor s.next none (some proc) fuel none (s.rqs cpu).head with
    | none => none
    | some none => some s
    | some (some prev) => some (unlink s cpu proc prev)

def getLen (s : Queues) (cpu : Nat) : Nat := if maxCpus ≤ cpu then 0 else (s.rqs cpu).len

/-- Where a new process goes. -/
def leastLoadedCpu (s : Queues) (onlineCpus : Nat) : Nat :=
  (List.range' 1 (onlineCpus - 1)).foldl (fun best i => if getLen s i < getLen s best then i else best) 0

/-- The first of the longest queues of the other CPUs, with its length; `my_cpu` and 0 if they are all empty. -/
def busiestCpu (s : Queues) (onlineCpus myCpu : Nat) : Nat × Nat :=
  (List.range onlineCpus).foldl
    (fun best i => if i = myCpu then best else if best.2 < getLen s i then (i, getLen s i) else best) (myCpu, 0)

/-- The part of `trySteal` under the lock of the victim's queue. -/
def stealFrom (s : Queues) (busiest myCpu : Nat) : Option Nat × Queues :=
  if (s.rqs busiest).len < 2 then (none, s)
  else
    match dequeueUnlocked s busiest with
    | (some p, s') => (some p, { s' with homeCpu := Function.update s'.homeCpu p myCpu })
    | (none, s') => (none, s')

def trySteal (s : Queues) (onlineCpus myCpu : Nat) : Option Nat × Queues :=
  let (busiest, busiestLen) := busiestCpu s onlineCpus myCpu
  if busiest = myCpu ∨ busiestLen < 2 then (none, s) else stealFrom s busiest myCpu

/-! ## The choice of a queue -/

theorem leastLoadedCpu_le (s : Queues) {onlineCpus i : Nat} (hi : i < onlineCpus) :
    getLen s (leastLoadedCpu s onlineCpus) ≤ getLen s i := by
  have hfold : ∀ (l : List Nat) (best : Nat), ∀ j ∈ best :: l,
      getLen s (l.foldl (fun best i => if getLen s i < getLen s best then i else best) best) ≤ getLen s j := by
    intro l
    induction l with
    | nil => simp
    | cons x l ih =>
      intro best j hj
      rw [List.foldl_cons]
      have hfirst := ih (if getLen s x < getLen s best then x else best) _ List.mem_cons_self
      have hle : getLen s (if getLen s x < getLen s best then x else best) ≤ min (getLen s x) (getLen s best) := by
        split <;> omega
      rcases List.mem_cons.1 hj with rfl | hj
      · omega
      · rcases List.mem_cons.1 hj with rfl | hj
        · omega
        · exact ih _ j (List.mem_cons_of_mem _ hj)
  apply hfold
  simp
  omega

theorem busiestCpu_cases (s : Queues) (onlineCpus myCpu : Nat) :
    (busiestCpu s onlineCpus myCpu = (myCpu, 0) ∧ ∀ i < onlineCpus, i ≠ myCpu → getLen s i = 0) ∨
      ∃ b < onlineCpus, b ≠ myCpu ∧ busiestCpu s onlineCpus myCpu = (b, getLen s b) ∧
        ∀ i < onlineCpus, i ≠ myCpu → getLen s i ≤ getLen s b := by
  unfold busiestCpu
  induction onlineCpus with
  | zero => simp
  | succ n ih =>
    simp only [List.range_succ, List.foldl_append, List.foldl_cons, List.foldl_nil]
    by_cases hn : n = myCpu
    · rw [if_pos hn]
      refine ih.imp ?_ ?_
      · rintro ⟨hb, hall⟩
        exact ⟨hb, fun i hi hne => hall i (by omega) hne⟩
      · rintro ⟨b, hb, hne, heq, hall⟩
        exact ⟨b, by omega, hne, heq, fun i hi hne => hall i (by omega) hne⟩
    · rw [if_neg hn]
      rcases ih with ⟨heq, hall⟩ | ⟨b, hb, hne, heq, hall⟩
      · rw [heq]
        by_cases hlen : 0 < getLen s n
        · refine Or.inr ⟨n, by omega, hn, if_pos hlen, fun i hi hne => ?_⟩
          rcases Nat.lt_succ_iff_lt_or_eq.1 hi with hi | rfl
          · simp [hall i hi hne]
          · exact Nat.le_refl _
        · refine Or.inl ⟨if_neg hlen, fun i hi hne => ?_⟩
          rcases Nat.lt_succ_iff_lt_or_eq.1 hi with hi | rfl
          · exact hall i hi hne
          · omega
      · rw [heq]
        right
        by_cases hlen : getLen s b < getLen s n
        · refine ⟨n, by omega, hn, if_pos hlen, fun i hi hne => ?_⟩
          rcases Nat.lt_succ_iff_lt_or_eq.1 hi with hi | rfl
          · exact Nat.le_of_lt (Nat.lt_of_le_of_lt (hall i hi hne) hlen)
          · exact Nat.le_refl _
        · refine ⟨b, by omega, hne, if_neg hlen, fun i hi hne => ?_⟩
          rcases Nat.lt_succ_iff_lt_or_eq.1 hi with hi | rfl
          · exact hall i hi hne
          · omega

/-- The victim is a longest queue of the other CPUs, if one of them has two processes. -/
theorem trySteal_cases (s : Queues) (onlineCpus myCpu : Nat) :
    (trySteal s onlineCpus myCpu = (none, s) ∧ ∀ i < onlineCpus, i ≠ myCpu → getLen s i < 2) ∨
      ∃ b < onlineCpus, b ≠ myCpu ∧ trySteal s onlineCpus myCpu = stealFrom s b myCpu ∧
        ∀ i < onlineCpus, i ≠ myCpu → getLen s i ≤ getLen s b := by
  unfold trySteal
  rcases busiestCpu_cases s onlineCpus myCpu with ⟨heq, hall⟩ | ⟨b, hb, hne, heq, hall⟩
  · left
    rw [heq]
    exact ⟨if_pos (Or.inl rfl), fun i hi hne => by rw [hall i hi hne]; decide⟩
  · rw [heq]
    by_cases hshort : getLen s b < 2
    · left
      exact ⟨if_pos (Or.inr hshort), fun i hi hi' => Nat.lt_of_le_of_lt (hall i hi hi') hshort⟩
    · right
      exact ⟨b, hb, hne, if_neg (by simp [hne, hshort]), hall⟩

/-! ## The queues as lists -/

/-- The processes that wait for each CPU, the next one first. -/
abbrev Waiting := Nat → List Nat

/-- A steal names the queue that was the longest when the lengths were read, without a lock: any other CPU's. -/
inductive Op
  | enqueue (cpu proc : Nat)
  | dequeue (cpu : Nat)
  | remove (cpu proc : Nat)
  | steal (busiest myCpu : Nat)

/-- A call on the lists, with the process that it returns. -/
def Op.apply (w : Waiting) : Op → Option Nat × Waiting
  | .enqueue cpu proc => (none, if maxCpus ≤ cpu then w else Function.update w cpu (w cpu ++ [proc]))
  | .dequeue cpu => if maxCpus ≤ cpu then (none, w) else ((w cpu).head?, Function.update w cpu (w cpu).tail)
  | .remove cpu proc => (none, if maxCpus ≤ cpu then w else Function.update w cpu ((w cpu).erase proc))
  | .steal busiest _ =>
    if (w busiest).length < 2 then (none, w) else ((w busiest).head?, Function.update w busiest (w busiest).tail)

/-- What the callers promise: a process is made ready only while it waits nowhere. -/
def Op.Allowed (w : Waiting) : Op → Prop
  | .enqueue _ proc => proc < maxProcesses ∧ ∀ cpu, proc ∉ w cpu
  | _ => True

/-- A call on the tables. -/
def Op.exec (s : Queues) : Op → Option (Option Nat × Queues)
  | .enqueue cpu proc => some (none, RunQueues.enqueue s cpu proc)
  | .dequeue cpu => some (RunQueues.dequeue s cpu)
  | .remove cpu proc => (removeFromQueue (maxProcesses + 1) s cpu proc).map fun s' => (none, s')
  | .steal busiest myCpu => some (stealFrom s busiest myCpu)

/-! ## The links are those of the lists -/

/-- The links from the head on lead through the list, in order and to its end. -/
structure Chained (s : Queues) (rq : RunQueue) (l : List Nat) : Prop where
  chain : Seg s.next rq.head (l.map some) none
  tail : rq.tail = l.getLast?
  len : rq.len = l.length
  nodup : l.Nodup
  slots : ∀ proc ∈ l, proc < maxProcesses

structure Threads (s : Queues) (w : Waiting) : Prop where
  queue : ∀ cpu, Chained s (s.rqs cpu) (w cpu)
  apart : ∀ cpu cpu' proc, proc ∈ w cpu → proc ∈ w cpu' → cpu = cpu'

variable {s s' : Queues} {w : Waiting} {cpu proc : Nat} {l : List Nat}

theorem threads_empty : Threads .empty fun _ => [] :=
  ⟨fun _ => by constructor <;> simp [Queues.empty, Seg], by simp⟩

/-- One queue changed, and no link of the processes of the others. -/
theorem Threads.change (h : Threads s w) {rq : RunQueue} (hrqs : s'.rqs = Function.update s.rqs cpu rq)
    (hnext : ∀ cpu', cpu' ≠ cpu → ∀ p ∈ w cpu', s'.rqNext p = s.rqNext p) (hqueue : Chained s' rq l)
    (hapart : ∀ p ∈ l, ∀ cpu', cpu' ≠ cpu → p ∉ w cpu') : Threads s' (Function.update w cpu l) := by
  refine ⟨?_, ?_⟩
  · intro cpu'
    rw [hrqs]
    by_cases hc : cpu' = cpu
    · subst hc
      rwa [Function.update_self, Function.update_self]
    · rw [Function.update_of_ne hc, Function.update_of_ne hc]
      refine { h.queue cpu' with chain := (h.queue cpu').chain.congr ?_ }
      intro x hx
      obtain ⟨p, hp, rfl⟩ := List.mem_map.1 hx
      exact hnext cpu' hc p hp
  · intro cpu₁ cpu₂ p h₁ h₂
    by_cases hc₁ : cpu₁ = cpu <;> by_cases hc₂ : cpu₂ = cpu
    · rw [hc₁, hc₂]
    · rw [hc₁, Function.update_self] at h₁
      rw [Function.update_of_ne hc₂] at h₂
      exact absurd h₂ (hapart p h₁ cpu₂ hc₂)
    · rw [hc₂, Function.update_self] at h₂
      rw [Function.update_of_ne hc₁] at h₁
      exact absurd h₁ (hapart p h₂ cpu₁ hc₁)
    · rw [Function.update_of_ne hc₁] at h₁
      rw [Function.update_of_ne hc₂] at h₂
      exact h.apart cpu₁ cpu₂ p h₁ h₂

/-- Processes of a queue are in no other. -/
theorem Threads.elsewhere (h : Threads s w) {p cpu' : Nat} (hp : p ∈ w cpu) (hne : cpu' ≠ cpu) : p ∉ w cpu' :=
  fun hp' => hne (h.apart cpu' cpu p hp' hp)

theorem Threads.enqueue (h : Threads s w) (hproc : proc < maxProcesses) (hnew : ∀ cpu, proc ∉ w cpu) :
    Threads (enqueueUnlocked s cpu proc) (Function.update w cpu (w cpu ++ [proc])) := by
  obtain ⟨hchain, htail, hlen, hnd, hslots⟩ := h.queue cpu
  have hnodup : (w cpu ++ [proc]).Nodup := by
    rw [List.nodup_append]
    exact ⟨hnd, List.nodup_singleton proc, by
      intro a ha b hb hab
      rw [List.mem_singleton] at hb
      exact hnew cpu (hb ▸ hab ▸ ha)⟩
  have hslots' : ∀ p ∈ w cpu ++ [proc], p < maxProcesses := by
    intro p hp
    rcases List.mem_append.1 hp with hp | hp
    · exact hslots p hp
    · rwa [List.mem_singleton.1 hp]
  have hapart : ∀ p ∈ w cpu ++ [proc], ∀ cpu', cpu' ≠ cpu → p ∉ w cpu' := by
    intro p hp cpu' hne
    rcases List.mem_append.1 hp with hp | hp
    · exact h.elsewhere hp hne
    · rw [List.mem_singleton.1 hp]
      exact hnew cpu'
  rcases List.eq_nil_or_concat (w cpu) with hnil | ⟨l₀, t, hl⟩
  · rw [hnil] at hlen
    simp only [enqueueUnlocked, show (s.rqs cpu).tail = none by simp [htail, hnil]]
    refine h.change rfl ?_ ⟨?_, ?_, ?_, hnodup, hslots'⟩ hapart
    · intro cpu' _ p hp
      have hpp : p ≠ proc := fun he => hnew cpu' (he ▸ hp)
      exact Function.update_of_ne hpp _ _
    · rw [hnil]
      exact ⟨rfl, Function.update_self ..⟩
    · simp [hnil]
    · simp [hnil, hlen]
  · rw [List.concat_eq_append] at hl
    have ht : t ∈ w cpu := by simp [hl]
    have htp : proc ≠ t := fun he => hnew cpu (he ▸ ht)
    simp only [enqueueUnlocked, show (s.rqs cpu).tail = some t by simp [htail, hl]]
    refine h.change rfl ?_ ⟨?_, ?_, ?_, hnodup, hslots'⟩ hapart
    · intro cpu' hne p hp
      have hpt : p ≠ t := fun he => h.elsewhere ht hne (he ▸ hp)
      have hpp : p ≠ proc := fun he => hnew cpu' (he ▸ hp)
      simp [hpt, hpp]
    · rw [List.map_append]
      refine seg_append.2 ⟨some proc, ?_, rfl, ?_⟩
      · rw [hl, List.map_append] at hchain ⊢
        refine hchain.redirect ?_ ?_
        · intro x hx
          obtain ⟨p, hp, rfl⟩ := List.mem_map.1 hx
          have hpt : p ≠ t := by
            rw [hl, List.nodup_append] at hnd
            exact hnd.2.2 p hp t (List.mem_singleton_self t)
          have hpp : p ≠ proc := fun he => hnew cpu (he ▸ by simp [hl, hp])
          simp [Queues.next, hpt, hpp]
        · simp [Queues.next]
      · simp [Queues.next, htp, Seg]
    · simp
    · simp [hlen]

theorem Threads.dequeue (h : Threads s w) (cpu : Nat) :
    (dequeueUnlocked s cpu).1 = (w cpu).head? ∧
      Threads (dequeueUnlocked s cpu).2 (Function.update w cpu (w cpu).tail) := by
  obtain ⟨hchain, htail, hlen, hnd, hslots⟩ := h.queue cpu
  rcases hw : w cpu with - | ⟨p, rest⟩
  · rw [hw] at hchain
    have hhead : (s.rqs cpu).head = none := hchain
    simp only [dequeueUnlocked, hhead, List.tail_nil]
    refine ⟨rfl, ?_⟩
    rw [← hw, Function.update_eq_self]
    exact h
  · rw [hw] at hchain htail hlen hnd
    obtain ⟨hhead, hrest⟩ := hchain
    obtain ⟨hp, hnd⟩ := List.nodup_cons.1 hnd
    simp only [dequeueUnlocked, show (s.rqs cpu).head = some p from hhead]
    refine ⟨rfl, h.change rfl ?_ ⟨?_, ?_, ?_, hnd, ?_⟩ ?_⟩
    · intro cpu' hne q hq
      have hqp : q ≠ p := fun he => h.elsewhere (show p ∈ w cpu by simp [hw]) hne (he ▸ hq)
      exact Function.update_of_ne hqp _ _
    · refine hrest.congr ?_
      intro x hx
      obtain ⟨q, hq, rfl⟩ := List.mem_map.1 hx
      have hqp : q ≠ p := fun he => hp (he ▸ hq)
      exact Function.update_of_ne hqp _ _
    · rcases rest with - | ⟨q, rest⟩
      · have hnone : s.rqNext p = none := hrest
        simp [hnone]
      · have hsome : s.rqNext p = some q := hrest.1
        simp [hsome, htail]
    · simp [hlen]
    · intro q hq
      exact hslots q (by simp [hw, show q ∈ rest from hq])
    · intro q hq cpu' hne
      exact h.elsewhere (show q ∈ w cpu by simp [hw, show q ∈ rest from hq]) hne

theorem getLastD_map_some (l : List Nat) : (l.map some).getLastD none = l.getLast? := by
  rw [List.getLastD_eq_getLast?, List.getLast?_map]
  rcases l.getLast? with - | p <;> rfl

theorem Threads.unlink (h : Threads s w) {l₁ l₂ : List Nat} (hl : w cpu = l₁ ++ proc :: l₂) :
    Threads (unlink s cpu proc l₁.getLast?) (Function.update w cpu ((w cpu).erase proc)) := by
  obtain ⟨hchain, htail, hlen, hnd, hslots⟩ := h.queue cpu
  have hmem : ∀ p ∈ l₁ ++ l₂, p ∈ w cpu := by
    intro p hp
    rw [hl]
    exact List.mem_append.2 ((List.mem_append.1 hp).imp_right (List.mem_cons_of_mem proc))
  rw [hl] at hchain htail hlen hnd
  have hother : ∀ p ∈ l₁ ++ l₂, p ≠ proc := by
    rintro p hp rfl
    exact (List.nodup_cons.1 (List.nodup_middle.1 hnd)).1 hp
  have hlast : ∀ p, l₁.getLast? = some p → p ∈ w cpu := by
    intro p hp
    exact hmem p (List.mem_append_left _ (List.mem_of_getLast? hp))
  have hlink : ∀ p, p ≠ proc → (RunQueues.unlink s cpu proc l₁.getLast?).rqNext p =
      if l₁.getLast? = some p then s.rqNext proc else s.rqNext p := by
    intro p hp
    rcases hprev : l₁.getLast? with - | q
    · simp [RunQueues.unlink, hp]
    · by_cases hpq : p = q
      · subst hpq
        simp [RunQueues.unlink, hp]
      · simp [RunQueues.unlink, hp, hpq, Ne.symm hpq]
  rw [hl, Chains.erase_middle hnd]
  refine h.change rfl ?_ ⟨?_, ?_, ?_, ?_, ?_⟩ ?_
  · intro cpu' hne p hp
    have hproc : p ≠ proc := fun he => h.elsewhere (show proc ∈ w cpu by simp [hl]) hne (he ▸ hp)
    have hprev : l₁.getLast? ≠ some p := fun he => h.elsewhere (hlast p he) hne hp
    rw [hlink p hproc, if_neg hprev]
  · rw [List.map_append, List.map_cons] at hchain
    rw [List.map_append]
    refine hchain.unlink (by simp) ?_ ?_ ?_
    · rw [← List.map_cons, ← List.map_append]
      exact hnd.map (fun _ _ => Option.some.inj)
    · intro y hy
      rw [← List.map_append] at hy
      obtain ⟨p, hp, rfl⟩ := List.mem_map.1 hy
      rw [getLastD_map_some]
      simp only [eq_comm (a := some p)]
      exact hlink p (hother p hp)
    · rw [getLastD_map_some]
      rfl
  · show (if (s.rqs cpu).tail = some proc then l₁.getLast? else (s.rqs cpu).tail) = (l₁ ++ l₂).getLast?
    rw [htail]
    rcases List.eq_nil_or_concat l₂ with rfl | ⟨rest, q, rfl⟩
    · simp
    · have hq : q ≠ proc := hother q (by simp)
      simp [List.getLast?_cons, hq]
  · simp [hlen]
  · exact (List.nodup_cons.1 (List.nodup_middle.1 hnd)).2
  · intro p hp
    exact hslots p (hmem p hp)
  · intro p hp cpu' hne
    exact h.elsewhere (hmem p hp) hne

theorem Threads.remove (h : Threads s w) (hcpu : cpu < maxCpus) (proc : Nat) :
    ∃ s', removeFromQueue (maxProcesses + 1) s cpu proc = some s' ∧
      Threads s' (Function.update w cpu ((w cpu).erase proc)) := by
  obtain ⟨hchain, htail, hlen, hnd, hslots⟩ := h.queue cpu
  have hshort : (w cpu).length ≤ maxProcesses := by
    have hsub : w cpu ⊆ List.range maxProcesses := fun p hp => List.mem_range.2 (hslots p hp)
    simpa using (hnd.subperm hsub).length_le
  unfold removeFromQueue
  rw [if_neg (by omega)]
  by_cases hmem : proc ∈ w cpu
  · obtain ⟨l₁, l₂, hl⟩ := List.append_of_mem hmem
    have hnot : proc ∉ l₁ := by
      rw [hl, List.nodup_append] at hnd
      exact fun hp => hnd.2.2 proc hp proc List.mem_cons_self rfl
    have hwalk : predecessor s.next none (some proc) (maxProcesses + 1) none (s.rqs cpu).head =
        some (some l₁.getLast?) := by
      rw [hl, List.map_append, List.map_cons] at hchain
      rw [← getLastD_map_some]
      refine Chains.predecessor_seg hchain (by simp) (by simpa using hnot) ?_
      simp [hl] at hshort ⊢
      omega
    rw [hwalk]
    refine ⟨_, rfl, h.unlink hl⟩
  · have hwalk : predecessor s.next none (some proc) (maxProcesses + 1) none (s.rqs cpu).head = some none := by
      refine Chains.predecessor_none hchain (by simp) (by simpa using hmem) ?_
      simpa using Nat.lt_succ_of_le hshort
    rw [hwalk, List.erase_of_not_mem hmem, Function.update_eq_self]
    exact ⟨s, rfl, h⟩

theorem Threads.steal (h : Threads s w) (busiest myCpu : Nat) :
    (stealFrom s busiest myCpu).1 = ((Op.steal busiest myCpu).apply w).1 ∧
      Threads (stealFrom s busiest myCpu).2 ((Op.steal busiest myCpu).apply w).2 := by
  obtain ⟨hres, hthreads⟩ := h.dequeue busiest
  unfold stealFrom
  simp only [Op.apply, (h.queue busiest).len]
  by_cases hshort : (w busiest).length < 2
  · simp only [if_pos hshort]
    exact ⟨trivial, h⟩
  · simp only [if_neg hshort]
    rcases hd : dequeueUnlocked s busiest with ⟨o, s'⟩
    rw [hd] at hres hthreads
    rcases o with - | p
    · exact ⟨hres, hthreads⟩
    · exact ⟨hres, fun cpu => { hthreads.queue cpu with }, hthreads.apart⟩

/-- One call: the tables answer as the lists do, and stay theirs. -/
theorem Threads.exec (h : Threads s w) {op : Op} (hop : op.Allowed w) :
    ∃ s', op.exec s = some ((op.apply w).1, s') ∧ Threads s' (op.apply w).2 := by
  rcases op with ⟨cpu, proc⟩ | cpu | ⟨cpu, proc⟩ | ⟨busiest, myCpu⟩
  · refine ⟨_, rfl, ?_⟩
    simp only [RunQueues.enqueue, Op.apply]
    split
    · exact h
    · exact h.enqueue hop.1 hop.2
  · simp only [Op.exec, RunQueues.dequeue, Op.apply]
    split
    · exact ⟨_, rfl, h⟩
    · obtain ⟨hres, hthreads⟩ := h.dequeue cpu
      exact ⟨_, congrArg some (Prod.ext hres rfl), hthreads⟩
  · simp only [Op.exec, Op.apply]
    by_cases hcpu : maxCpus ≤ cpu
    · simp only [removeFromQueue, if_pos hcpu]
      exact ⟨_, rfl, h⟩
    · obtain ⟨s', hs', hthreads⟩ := h.remove (Nat.lt_of_not_le hcpu) proc
      simp only [hs', if_neg hcpu]
      exact ⟨s', rfl, hthreads⟩
  · obtain ⟨hres, hthreads⟩ := h.steal busiest myCpu
    exact ⟨_, congrArg some (Prod.ext hres rfl), hthreads⟩

/-! ## Runs -/

/-- Calls one after another on the lists, with their answers. -/
def applyAll (w : Waiting) : List Op → List (Option Nat) × Waiting
  | [] => ([], w)
  | op :: ops => ((op.apply w).1 :: (applyAll (op.apply w).2 ops).1, (applyAll (op.apply w).2 ops).2)

def AllAllowed (w : Waiting) : List Op → Prop
  | [] => True
  | op :: ops => op.Allowed w ∧ AllAllowed (op.apply w).2 ops

/-- Calls one after another on the tables, with their answers. -/
def execAll (s : Queues) : List Op → Option (List (Option Nat) × Queues)
  | [] => some ([], s)
  | op :: ops => do
    let (answer, s') ← op.exec s
    let (answers, s'') ← execAll s' ops
    return (answer :: answers, s'')

theorem Threads.execAll (h : Threads s w) {ops : List Op} (hops : AllAllowed w ops) :
    ∃ s', execAll s ops = some ((applyAll w ops).1, s') ∧ Threads s' (applyAll w ops).2 := by
  induction ops generalizing s w with
  | nil => exact ⟨s, rfl, h⟩
  | cons op ops ih =>
    obtain ⟨s₁, h₁, hthreads₁⟩ := h.exec hops.1
    obtain ⟨s₂, h₂, hthreads₂⟩ := ih hthreads₁ hops.2
    refine ⟨s₂, ?_, hthreads₂⟩
    simp [RunQueues.execAll, applyAll, h₁, h₂]

/-- **The run queues are lists.** After any calls of any CPUs, in any order and with any stale choice of a victim, as
long as a process is only made ready while it waits nowhere: every call has returned what it returns on the lists, the
links of each queue lead through its list, in order and to the end, `tail` and `len` are its last element and its
length, and no process waits twice. -/
theorem queues_are_lists {ops : List Op} (hops : AllAllowed (fun _ => []) ops) :
    ∃ s, execAll .empty ops = some ((applyAll (fun _ => []) ops).1, s) ∧ Threads s (applyAll (fun _ => []) ops).2 :=
  threads_empty.execAll hops

theorem queues_are_lists_steal :
    (execAll .empty [.enqueue 0 7, .enqueue 0 3, .enqueue 0 5, .remove 0 3, .steal 0 1, .dequeue 0]).map Prod.fst =
      some [none, none, none, none, some 7, some 5] := by
  have hops : AllAllowed (fun _ => [])
      [.enqueue 0 7, .enqueue 0 3, .enqueue 0 5, .remove 0 3, .steal 0 1, .dequeue 0] := by
    simp [AllAllowed, Op.Allowed, Op.apply, maxCpus, maxProcesses, Function.update_apply]
  obtain ⟨s, hs, -⟩ := queues_are_lists hops
  rw [hs]
  rfl

end Zigix.RunQueues
