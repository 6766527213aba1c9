import Mathlib.Data.Finset.Card
import Mathlib.Data.Finset.Range
import Zigix.Proc.Futex

/-!
# Wake-ups take out the waiters of one key (`kernel/proc/futex.zig`)

* `wakeChain_spec` : what the walk of a chain takes out and what it leaves;
* `wake_exact` : in every reachable state a wake-up takes as many waiters of its key as it may, and no others.
-/

namespace Zigix.Futex

open Chains

/-! ## The chains -/

/-- The slots in use that wait for `key`. -/
def Queue.waiters (q : Queue) (key : Nat) : Finset Nat :=
  {i ∈ Finset.range maxWaiters | (q.waitQueue i).inUse = true ∧ (q.waitQueue i).physAddr = key}

/-- What a slot says about its waiter. -/
def WaitEntry.waiter (e : WaitEntry) : Nat × Nat × Bool := (e.pid, e.physAddr, e.inUse)

/-- The links of the slots. -/
def Queue.next (q : Queue) (i : Nat) : Nat := (q.waitQueue i).hashNext

/-- `chain b` is the chain of bucket `b`. -/
structure Queue.Linked (q : Queue) (chain : Nat → List Nat) : Prop where
  seg : ∀ b, Seg q.next (q.heads b) (chain b) chainEnd
  nodup : ∀ b, (chain b).Nodup
  /-- a chain holds the slots in use whose key has its hash, and no others -/
  mem_iff : ∀ b i, i ∈ chain b ↔ i < maxWaiters ∧ (q.waitQueue i).inUse = true ∧ futexHash (q.waitQueue i).physAddr = b

theorem linked_initial : initial.Linked fun _ => [] where
  seg _ := rfl
  nodup _ := List.nodup_nil
  mem_iff b i := by simp [initial]

section Push
variable {q : Queue} {chain : Nat → List Nat}

theorem freeSlot_some {slot : Nat} (h : q.freeSlot = some slot) : slot < maxWaiters ∧ (q.waitQueue slot).inUse = false := by
  have hlt := List.mem_range.1 (List.mem_of_find?_eq_some h)
  have hfree := List.find?_some h
  exact ⟨hlt, by simpa using hfree⟩

theorem push_self (slot pid key : Nat) : (q.push slot pid key).waitQueue slot =
    { pid, physAddr := key, inUse := true, hashNext := q.heads (futexHash key) } := Function.update_self ..

theorem push_of_ne {slot i : Nat} (hi : i ≠ slot) (pid key : Nat) :
    (q.push slot pid key).waitQueue i = q.waitQueue i := Function.update_of_ne hi ..

theorem Queue.Linked.push (h : q.Linked chain) {slot : Nat} (hslot : q.freeSlot = some slot) (pid key : Nat) :
    (q.push slot pid key).Linked (Function.update chain (futexHash key) (slot :: chain (futexHash key))) := by
  obtain ⟨hlt, hfree⟩ := freeSlot_some hslot
  have hnot : ∀ b, slot ∉ chain b := by
    intro b hmem
    rw [((h.mem_iff b slot).1 hmem).2.1] at hfree
    cases hfree
  have hseg : ∀ b, Seg (q.push slot pid key).next (q.heads b) (chain b) chainEnd := by
    intro b
    refine (h.seg b).congr fun i hi => ?_
    have hne : i ≠ slot := fun heq => hnot b (heq ▸ hi)
    simp only [Queue.next, Queue.push, Function.update_of_ne hne]
  refine ⟨fun b => ?_, fun b => ?_, fun b i => ?_⟩
  · by_cases hb : b = futexHash key
    · subst hb
      simp only [Function.update_self]
      have hnext : (q.push slot pid key).next slot = q.heads (futexHash key) := by
        simp only [Queue.next, Queue.push, Function.update_self]
      have hhead : (q.push slot pid key).heads (futexHash key) = slot := by simp only [Queue.push, Function.update_self]
      rw [hhead]
      refine ⟨rfl, ?_⟩
      rw [hnext]
      exact hseg _
    · have hhead : (q.push slot pid key).heads b = q.heads b := by simp only [Queue.push, Function.update_of_ne hb]
      rw [Function.update_of_ne hb, hhead]
      exact hseg b
  · by_cases hb : b = futexHash key
    · subst hb
      rw [Function.update_self]
      exact List.nodup_cons.2 ⟨hnot _, h.nodup _⟩
    · rw [Function.update_of_ne hb]
      exact h.nodup b
  · by_cases hi : i = slot
    · subst hi
      rw [push_self]
      by_cases hb : b = futexHash key
      · subst hb
        simp [hlt]
      · rw [Function.update_of_ne hb]
        simp [hnot b, Ne.symm hb]
    · rw [push_of_ne hi, ← h.mem_iff b i]
      by_cases hb : b = futexHash key
      · subst hb
        simp [hi]
      · rw [Function.update_of_ne hb]

end Push

/-! ## The walk -/

section Unlink
variable {q : Queue} {bucket cur : Nat}

theorem unlink_cur (prev : Option Nat) :
    (q.unlink bucket prev cur).waitQueue cur =
      { pid := (q.waitQueue cur).pid, physAddr := (q.waitQueue cur).physAddr, inUse := false, hashNext := chainEnd } := by
  cases prev with
  | none => simp [Queue.unlink]
  | some p =>
    by_cases hp : p = cur
    · subst hp
      simp [Queue.unlink]
    · simp [Queue.unlink, Function.update_of_ne (Ne.symm hp)]

theorem unlink_of_ne (prev : Option Nat) {i : Nat} (hi : i ≠ cur) :
    (q.unlink bucket prev cur).waitQueue i =
      if prev = some i then { q.waitQueue i with hashNext := q.next cur } else q.waitQueue i := by
  cases prev with
  | none => simp [Queue.unlink, hi]
  | some p =>
    by_cases hp : p = i
    · subst hp
      simp [Queue.unlink, hi, Queue.next]
    · simp [Queue.unlink, hi, hp, Function.update_of_ne (Ne.symm hp)]

theorem unlink_heads (prev : Option Nat) (b : Nat) :
    (q.unlink bucket prev cur).heads b = if prev = none ∧ b = bucket then q.next cur else q.heads b := by
  cases prev with
  | none =>
    by_cases hb : b = bucket
    · subst hb
      simp [Queue.unlink, Queue.next]
    · simp [Queue.unlink, hb]
  | some p => simp [Queue.unlink]

theorem unlink_waiter (prev : Option Nat) {i : Nat} (hi : i ≠ cur) :
    ((q.unlink bucket prev cur).waitQueue i).waiter = (q.waitQueue i).waiter := by
  rw [unlink_of_ne prev hi]
  split
  · rfl
  · rfl

theorem unlink_next (prev : Option Nat) {i : Nat} (hi : i ≠ cur) (hp : prev ≠ some i) :
    (q.unlink bucket prev cur).next i = q.next i := by
  unfold Queue.next
  rw [unlink_of_ne prev hi, if_neg hp]

theorem unlink_seg {kept : List Nat} (h : Seg q.next (q.heads bucket) kept cur) (hnodup : kept.Nodup) (hcur : cur ∉ kept) :
    Seg (q.unlink bucket kept.getLast? cur).next ((q.unlink bucket kept.getLast? cur).heads bucket) kept (q.next cur) := by
  rw [unlink_heads]
  rcases List.eq_nil_or_concat kept with rfl | ⟨l, p, rfl⟩
  · exact if_pos ⟨rfl, rfl⟩
  · rw [List.concat_eq_append] at *
    rw [List.getLast?_concat, if_neg (by simp)]
    have hpcur : p ≠ cur := fun heq => hcur (by simp [heq])
    refine h.redirect (fun i hi => ?_) ?_
    · have hip : i ≠ p := by
        rintro rfl
        exact (List.nodup_append.1 hnodup).2.2 i hi i (List.mem_singleton.2 rfl) rfl
      exact unlink_next _ (fun heq => hcur (by simp [← heq, hi])) (fun heq => hip (Option.some.inj heq).symm)
    · unfold Queue.next
      rw [unlink_of_ne _ hpcur, if_pos rfl]
      rfl

end Unlink

/-- What a walk leaves when `kept` is behind it and it took `removed` out of `rest`. -/
structure Walked (bucket : Nat) (kept rest removed left : List Nat) (q q' : Queue) : Prop where
  seg : Seg q'.next (q'.heads bucket) (kept ++ left) chainEnd
  freed : ∀ i ∈ removed, (q'.waitQueue i).inUse = false
  waiter : ∀ i, i ∉ removed → (q'.waitQueue i).waiter = (q.waitQueue i).waiter
  outside : ∀ i, i ∉ kept → i ∉ rest → q'.waitQueue i = q.waitQueue i
  heads : ∀ b, b ≠ bucket → q'.heads b = q.heads b

section Walk

theorem Walked.unlink {q q' : Queue} {bucket x : Nat} {kept l removed left : List Nat}
    (h : Walked bucket kept l removed left (q.unlink bucket kept.getLast? x) q') :
    Walked bucket kept (x :: l) (x :: removed) left q q' where
  seg := h.seg
  freed i hi := by
    rcases List.mem_cons.1 hi with rfl | hi
    · by_cases hmem : i ∈ removed
      · exact h.freed i hmem
      · have hw := congrArg (fun w => w.2.2) (h.waiter i hmem)
        rw [unlink_cur] at hw
        exact hw
    · exact h.freed i hi
  waiter i hi := by
    rw [List.mem_cons, not_or] at hi
    exact (h.waiter i hi.2).trans (unlink_waiter _ hi.1)
  outside i hkept hi := by
    rw [List.mem_cons, not_or] at hi
    have hlast : kept.getLast? ≠ some i := fun hl => hkept (List.mem_of_getLast? hl)
    rw [h.outside i hkept hi.2, unlink_of_ne _ hi.1, if_neg hlast]
  heads b hb := by
    rw [h.heads b hb, unlink_heads, if_neg fun hc => hb hc.2]

theorem wakeChain_spec (q₀ : Queue) (key maxWake : Nat) (woken kept : List Nat) {fuel : Nat} {q : Queue} {cur : Nat}
    {rest : List Nat} (hfuel : rest.length < fuel) (hkept : Seg q.next (q.heads (futexHash key)) kept cur)
    (hrest : Seg q.next cur rest chainEnd) (hnodup : (kept ++ rest).Nodup) (hlt : ∀ i ∈ rest, i < maxWaiters)
    (hsame : ∀ i ∈ rest, (q.waitQueue i).waiter = (q₀.waitQueue i).waiter) :
    ∃ q' removed left,
      (removed, left) = removeFirst (fun i => (q₀.waitQueue i).inUse = true ∧ (q₀.waitQueue i).physAddr = key)
        (maxWake - woken.length) rest ∧
      wakeChain key maxWake fuel kept.getLast? cur woken q =
        some (woken ++ removed.map fun i => (q₀.waitQueue i).pid, q') ∧
      Walked (futexHash key) kept rest removed left q q' := by
  induction rest generalizing fuel q cur kept woken with
  | nil =>
    obtain ⟨fuel, rfl⟩ := Nat.exists_eq_succ_of_ne_zero (Nat.ne_of_gt hfuel)
    have hcur : cur = chainEnd := hrest
    refine ⟨q, [], [], removeFirst_nil.symm, ?_, ?_, by simp, by simp, by simp, by simp⟩
    · rw [wakeChain, if_pos (.inl hcur), List.map_nil, List.append_nil]
    · rw [List.append_nil, ← hcur]
      exact hkept
  | cons x l ih =>
    obtain ⟨fuel, rfl⟩ := Nat.exists_eq_succ_of_ne_zero (Nat.ne_of_gt (Nat.zero_lt_of_lt hfuel))
    obtain ⟨rfl, hl⟩ := hrest
    have hcurlt := hlt cur List.mem_cons_self
    have hend : cur ≠ chainEnd := by
      unfold chainEnd maxWaiters at *
      omega
    by_cases hfull : maxWake ≤ woken.length
    · refine ⟨q, [], cur :: l, ?_, ?_, ?_, by simp, by simp, by simp, by simp⟩
      · rw [Nat.sub_eq_zero_of_le hfull, removeFirst]
      · rw [wakeChain, if_pos (.inr hfull), List.map_nil, List.append_nil]
      · exact seg_append.2 ⟨cur, hkept, rfl, hl⟩
    · obtain ⟨n, hn⟩ : ∃ n, maxWake - woken.length = n + 1 := ⟨maxWake - woken.length - 1, by omega⟩
      have hstop : ¬ (cur = chainEnd ∨ maxWake ≤ woken.length) := by simp [hend, hfull]
      have hx := hsame cur List.mem_cons_self
      have hpid : (q.waitQueue cur).pid = (q₀.waitQueue cur).pid := congrArg (fun w => w.1) hx
      have hphys : (q.waitQueue cur).physAddr = (q₀.waitQueue cur).physAddr := congrArg (fun w => w.2.1) hx
      have hinUse : (q.waitQueue cur).inUse = (q₀.waitQueue cur).inUse := congrArg (fun w => w.2.2) hx
      obtain ⟨hkn, hln, hdisj⟩ := List.nodup_append.1 hnodup
      obtain ⟨hxl, hln⟩ := List.nodup_cons.1 hln
      have hxk : cur ∉ kept := fun hmem => hdisj cur hmem cur List.mem_cons_self rfl
      have hlt' : ∀ i ∈ l, i < maxWaiters := fun i hi => hlt i (List.mem_cons_of_mem _ hi)
      rw [wakeChain, if_neg hstop, if_neg (Nat.not_le.2 hcurlt)]
      by_cases hmatch : (q₀.waitQueue cur).inUse = true ∧ (q₀.waitQueue cur).physAddr = key
      · -- the slot is taken out, and `kept` stays as it is
        have hnel : ∀ i ∈ l, i ≠ cur := fun i hi heq => hxl (heq ▸ hi)
        have hprev : ∀ i ∈ l, kept.getLast? ≠ some i := fun i hi hlast =>
          hdisj i (List.mem_of_getLast? hlast) i (List.mem_cons_of_mem _ hi) rfl
        have hseg : Seg (q.unlink (futexHash key) kept.getLast? cur).next (q.next cur) l chainEnd :=
          hl.congr fun i hi => unlink_next _ (hnel i hi) (hprev i hi)
        have hnodup' : (kept ++ l).Nodup :=
          List.nodup_append.2 ⟨hkn, hln, fun a ha b hb => hdisj a ha b (List.mem_cons_of_mem _ hb)⟩
        obtain ⟨q', removed, left, hrem, hwake, hwalked⟩ :=
          ih (woken ++ [(q₀.waitQueue cur).pid]) kept (Nat.lt_of_succ_lt_succ hfuel) (unlink_seg hkept hkn hxk) hseg
            hnodup' hlt' fun i hi => (unlink_waiter _ (hnel i hi)).trans (hsame i (List.mem_cons_of_mem _ hi))
        have hn' : maxWake - (woken ++ [(q₀.waitQueue cur).pid]).length = n := by
          rw [List.length_append, List.length_singleton]
          omega
        rw [hn'] at hrem
        refine ⟨q', cur :: removed, left, ?_, ?_, hwalked.unlink⟩
        · rw [hn, removeFirst, if_pos hmatch, ← hrem]
        · rw [hinUse, hphys, if_pos hmatch, hpid]
          refine hwake.trans ?_
          rw [List.map_cons, List.append_assoc, List.singleton_append]
      · -- the slot stays, and is the previous one of the next turn
        have hkept' : Seg q.next (q.heads (futexHash key)) (kept ++ [cur]) (q.next cur) := seg_append.2 ⟨cur, hkept, rfl, rfl⟩
        have hnodup' : ((kept ++ [cur]) ++ l).Nodup := by simpa using hnodup
        obtain ⟨q', removed, left, hrem, hwake, hwalked⟩ :=
          ih woken (kept ++ [cur]) (Nat.lt_of_succ_lt_succ hfuel) hkept' hl hnodup' hlt' fun i hi =>
            hsame i (List.mem_cons_of_mem _ hi)
        refine ⟨q', removed, cur :: left, ?_, ?_, ?_, hwalked.freed, hwalked.waiter, fun i hk hr => ?_, hwalked.heads⟩
        · rw [hn] at hrem ⊢
          rw [removeFirst, if_neg hmatch, ← hrem]
        · rw [hinUse, hphys, if_neg hmatch]
          rw [List.getLast?_concat] at hwake
          exact hwake
        · have hseg := hwalked.seg
          rw [List.append_assoc, List.singleton_append] at hseg
          exact hseg
        · rw [List.mem_cons, not_or] at hr
          refine hwalked.outside i (fun hmem => ?_) hr.2
          rcases List.mem_append.1 hmem with hmem | hmem
          · exact hk hmem
          · exact hr.1 (List.mem_singleton.1 hmem)

end Walk

/-! ## A wake-up -/

/-- What a wake-up does to the queue: `removed` are the slots it takes out. -/
structure Woken (key maxWake : Nat) (q : Queue) (removed : List Nat) (q' : Queue) : Prop where
  nodup : removed.Nodup
  length : removed.length = min maxWake (q.waiters key).card
  matching : ∀ i ∈ removed, i ∈ q.waiters key
  freed : ∀ i ∈ removed, (q'.waitQueue i).inUse = false
  waiter : ∀ i, i ∉ removed → (q'.waitQueue i).waiter = (q.waitQueue i).waiter

section Wake
variable {q : Queue} {chain : Nat → List Nat}

theorem mem_waiters {key i : Nat} :
    i ∈ q.waiters key ↔ i < maxWaiters ∧ (q.waitQueue i).inUse = true ∧ (q.waitQueue i).physAddr = key := by
  rw [Queue.waiters, Finset.mem_filter, Finset.mem_range]

theorem Queue.Linked.length_lt (h : q.Linked chain) (b : Nat) : (chain b).length < walkFuel := by
  have hsub : chain b ⊆ List.range maxWaiters := fun i hi => List.mem_range.2 ((h.mem_iff b i).1 hi).1
  have hle := (List.subperm_of_subset (h.nodup b) hsub).length_le
  rw [List.length_range] at hle
  exact Nat.lt_succ_of_le hle

theorem Queue.Linked.card_waiters (h : q.Linked chain) (key : Nat) :
    (q.waiters key).card = ((chain (futexHash key)).filter fun i =>
      decide ((q.waitQueue i).inUse = true ∧ (q.waitQueue i).physAddr = key)).length := by
  rw [← List.toFinset_card_of_nodup ((h.nodup _).filter _)]
  congr 1
  ext i
  rw [mem_waiters, List.mem_toFinset, List.mem_filter, h.mem_iff, decide_eq_true_iff]
  constructor
  · rintro ⟨hlt, huse, rfl⟩
    exact ⟨⟨hlt, huse, rfl⟩, huse, rfl⟩
  · rintro ⟨⟨hlt, -, -⟩, huse, hphys⟩
    exact ⟨hlt, huse, hphys⟩

theorem Queue.Linked.wake (h : q.Linked chain) (key maxWake : Nat) :
    ∃ removed q' chain',
      wakeChain key maxWake walkFuel none (q.heads (futexHash key)) [] q =
        some (removed.map fun i => (q.waitQueue i).pid, q') ∧
      Woken key maxWake q removed q' ∧ q'.Linked chain' := by
  let bucket := futexHash key
  have hmem := h.mem_iff bucket
  obtain ⟨q', removed, left, hrem, hwake, hw⟩ :=
    wakeChain_spec q key maxWake [] [] (h.length_lt bucket) rfl (h.seg bucket)
      (h.nodup bucket) (fun i hi => ((hmem i).1 hi).1) fun i _ => rfl
  have hperm : (removed ++ left).Perm (chain bucket) := by
    rw [show removed = _ from congrArg Prod.fst hrem, show left = _ from congrArg Prod.snd hrem]
    exact removeFirst_perm _ _
  obtain ⟨hrn, hln, hdisj⟩ := List.nodup_append.1 (hperm.nodup_iff.2 (h.nodup bucket))
  have hmatch : ∀ i ∈ removed, (q.waitQueue i).inUse = true ∧ (q.waitQueue i).physAddr = key := by
    intro i hi
    rw [show removed = _ from congrArg Prod.fst hrem] at hi
    have hm := of_mem_removeFirst hi
    exact hm
  have hin : ∀ i ∈ removed, i ∈ chain bucket := fun i hi => hperm.subset (List.mem_append_left _ hi)
  have hlen : removed.length = min maxWake (q.waiters key).card := by
    rw [h.card_waiters, show removed = _ from congrArg Prod.fst hrem]
    exact length_removeFirst _ _
  refine ⟨removed, q', Function.update chain bucket left, hwake, ⟨hrn, hlen, ?_, hw.freed, hw.waiter⟩, ?_⟩
  · intro i hi
    exact mem_waiters.2 ⟨((hmem i).1 (hin i hi)).1, hmatch i hi⟩
  · have hother : ∀ b, b ≠ bucket → ∀ i ∈ chain b, i ∉ chain bucket := by
      intro b hb i hi hi'
      exact hb (((h.mem_iff b i).1 hi).2.2.symm.trans ((hmem i).1 hi').2.2)
    refine ⟨fun b => ?_, fun b => ?_, fun b i => ?_⟩
    · by_cases hb : b = bucket
      · subst hb
        rw [Function.update_self]
        exact hw.seg
      · rw [Function.update_of_ne hb, hw.heads b hb]
        refine (h.seg b).congr fun i hi => ?_
        unfold Queue.next
        rw [hw.outside i List.not_mem_nil (hother b hb i hi)]
    · by_cases hb : b = bucket
      · subst hb
        rw [Function.update_self]
        exact hln
      · rw [Function.update_of_ne hb]
        exact h.nodup b
    · have hleft : i ∈ left ↔ i ∈ chain bucket ∧ i ∉ removed := by
        rw [← hperm.mem_iff, List.mem_append]
        constructor
        · exact fun hi => ⟨.inr hi, fun hr => hdisj i hr i hi rfl⟩
        · rintro ⟨hr | hi, hnr⟩
          · exact absurd hr hnr
          · exact hi
      have hupd : i ∈ Function.update chain bucket left b ↔ i ∈ chain b ∧ i ∉ removed := by
        by_cases hb : b = bucket
        · subst hb
          rw [Function.update_self]
          exact hleft
        · rw [Function.update_of_ne hb]
          exact ⟨fun hi => ⟨hi, fun hr => hother b hb i hi (hin i hr)⟩, And.left⟩
      rw [hupd, h.mem_iff]
      by_cases hr : i ∈ removed
      · rw [hw.freed i hr]
        simp [hr]
      · have hphys := congrArg (fun w => w.2.1) (hw.waiter i hr)
        have huse := congrArg (fun w => w.2.2) (hw.waiter i hr)
        simp only [WaitEntry.waiter] at hphys huse
        rw [hphys, huse]
        simp [hr]

end Wake

/-! ## Processes -/

/-- The queue, and which processes are `blocked_on_futex`. -/
structure Sys where
  queue : Queue
  blocked : Nat → Bool

/-- A call of process `pid`. The translation of the address and the words in memory are what they are at the call. -/
inductive Call
  | wait (pid uaddr : Nat) (phys : Option Nat) (word : Nat → BitVec 32) (expectedVal : BitVec 64)
  | wake (pid uaddr : Nat) (phys : Option Nat) (maxWake : Nat)
  | wakeAddress (pid uaddr : Nat) (phys : Option Nat) (maxWake : Nat)

def Call.pid : Call → Nat
  | .wait pid .. => pid
  | .wake pid .. => pid
  | .wakeAddress pid .. => pid

/-- `scheduler.wakeProcess` for every process in the list. -/
def wakeProcesses (pids : List Nat) (blocked : Nat → Bool) : Nat → Bool := fun pid => blocked pid && !pids.contains pid

def Sys.step (s : Sys) (call : Call) : Option Sys :=
  if s.blocked call.pid then none
  else
    match call with
    | .wait pid uaddr phys word expectedVal =>
      (futexWait phys word pid uaddr expectedVal s.queue).map fun (res, queue) =>
        { queue, blocked := if res = .blocked then Function.update s.blocked pid true else s.blocked }
    | .wake _ uaddr phys maxWake =>
      (futexWake phys uaddr maxWake s.queue).map fun (woken, queue) =>
        { queue, blocked := wakeProcesses (woken.getD []) s.blocked }
    | .wakeAddress _ uaddr phys maxWake =>
      (wakeAddress phys uaddr maxWake s.queue).map fun (woken, queue) =>
        { queue, blocked := wakeProcesses woken s.blocked }

inductive Reachable : Sys → Prop
  | init : Reachable { queue := initial, blocked := fun _ => false }
  | step {s s' : Sys} {call : Call} : Reachable s → s.step call = some s' → Reachable s'

def Queue.Queued (q : Queue) (i : Nat) : Prop := i < maxWaiters ∧ (q.waitQueue i).inUse = true

structure Sys.Orderly (s : Sys) : Prop where
  linked : ∃ chain, s.queue.Linked chain
  owner : ∀ i j, s.queue.Queued i → s.queue.Queued j → (s.queue.waitQueue i).pid = (s.queue.waitQueue j).pid → i = j
  asleep : ∀ pid, s.blocked pid = true ↔ ∃ i, s.queue.Queued i ∧ (s.queue.waitQueue i).pid = pid

section Run
variable {s s' : Sys}

theorem Sys.Orderly.push (h : s.Orderly) {slot pid : Nat} (hslot : s.queue.freeSlot = some slot)
    (hpid : s.blocked pid = false) (key : Nat) :
    Sys.Orderly { queue := s.queue.push slot pid key, blocked := Function.update s.blocked pid true } := by
  obtain ⟨chain, hchain⟩ := h.linked
  obtain ⟨hlt, hfree⟩ := freeSlot_some hslot
  have hself := push_self (q := s.queue) slot pid key
  have hother : ∀ i, i ≠ slot → (s.queue.push slot pid key).waitQueue i = s.queue.waitQueue i :=
    fun i hi => push_of_ne hi pid key
  have hnew : ∀ i, s.queue.Queued i → (s.queue.waitQueue i).pid ≠ pid := by
    intro i hi heq
    rw [(h.asleep pid).2 ⟨i, hi, heq⟩] at hpid
    cases hpid
  have hqueued : ∀ i, (s.queue.push slot pid key).Queued i ↔ i = slot ∨ s.queue.Queued i := by
    intro i
    unfold Queue.Queued
    by_cases hi : i = slot
    · subst hi
      simp [hself, hlt]
    · simp [hother i hi, hi]
  have hne : ∀ i, s.queue.Queued i → i ≠ slot := by
    rintro i hi rfl
    rw [hi.2] at hfree
    cases hfree
  refine ⟨⟨_, hchain.push hslot pid key⟩, fun i j hi hj heq => ?_, fun p => ?_⟩
  · rcases (hqueued i).1 hi with hi | hi'
    · rcases (hqueued j).1 hj with hj | hj'
      · exact hi.trans hj.symm
      · rw [hi, hself, hother j (hne j hj')] at heq
        exact absurd heq.symm (hnew j hj')
    · rcases (hqueued j).1 hj with hj | hj'
      · rw [hj, hself, hother i (hne i hi')] at heq
        exact absurd heq (hnew i hi')
      · rw [hother i (hne i hi'), hother j (hne j hj')] at heq
        exact h.owner i j hi' hj' heq
  · show Function.update s.blocked pid true p = true ↔
      ∃ i, (s.queue.push slot pid key).Queued i ∧ ((s.queue.push slot pid key).waitQueue i).pid = p
    by_cases hp : p = pid
    · subst hp
      rw [Function.update_self]
      exact ⟨fun _ => ⟨slot, (hqueued slot).2 (.inl rfl), by rw [hself]⟩, fun _ => rfl⟩
    · rw [Function.update_of_ne hp, h.asleep p]
      constructor
      · rintro ⟨i, hi, rfl⟩
        exact ⟨i, (hqueued i).2 (.inr hi), by rw [hother i (hne i hi)]⟩
      · rintro ⟨i, hi, hip⟩
        rcases (hqueued i).1 hi with rfl | hi
        · rw [hself] at hip
          exact absurd hip.symm hp
        · rw [hother i (hne i hi)] at hip
          exact ⟨i, hi, hip⟩

theorem Woken.queued {key maxWake i : Nat} {q q' : Queue} {removed : List Nat} (h : Woken key maxWake q removed q') :
    q'.Queued i ↔ q.Queued i ∧ i ∉ removed := by
  unfold Queue.Queued
  by_cases hr : i ∈ removed
  · simp [h.freed i hr, hr]
  · have huse := congrArg (fun w => w.2.2) (h.waiter i hr)
    simp only [WaitEntry.waiter] at huse
    simp [huse, hr]

theorem Woken.pid {key maxWake i : Nat} {q q' : Queue} {removed : List Nat} (h : Woken key maxWake q removed q')
    (hi : i ∉ removed) : (q'.waitQueue i).pid = (q.waitQueue i).pid :=
  congrArg (fun w => w.1) (h.waiter i hi)

theorem Sys.Orderly.woken (h : s.Orderly) {key maxWake : Nat} {q' : Queue} {chain' : Nat → List Nat} {removed : List Nat}
    (hw : Woken key maxWake s.queue removed q') (hchain : q'.Linked chain') :
    Sys.Orderly { queue := q'
                  blocked := wakeProcesses (removed.map fun i => (s.queue.waitQueue i).pid) s.blocked } := by
  refine ⟨⟨chain', hchain⟩, fun i j hi hj heq => ?_, fun pid => ?_⟩
  · obtain ⟨hi, hir⟩ := hw.queued.1 hi
    obtain ⟨hj, hjr⟩ := hw.queued.1 hj
    rw [hw.pid hir, hw.pid hjr] at heq
    exact h.owner i j hi hj heq
  · have hsplit : wakeProcesses (removed.map fun i => (s.queue.waitQueue i).pid) s.blocked pid = true ↔
        s.blocked pid = true ∧ ∀ i ∈ removed, (s.queue.waitQueue i).pid ≠ pid := by
      simp [wakeProcesses]
    rw [hsplit, h.asleep pid]
    constructor
    · rintro ⟨⟨i, hi, hip⟩, hnot⟩
      have hir : i ∉ removed := fun hr => hnot i hr hip
      exact ⟨i, hw.queued.2 ⟨hi, hir⟩, (hw.pid hir).trans hip⟩
    · rintro ⟨i, hi, hip⟩
      obtain ⟨hi, hir⟩ := hw.queued.1 hi
      rw [hw.pid hir] at hip
      refine ⟨⟨i, hi, hip⟩, fun j hj hjp => hir ?_⟩
      -- the slot of a process is the only one
      obtain ⟨hjlt, hjuse, -⟩ := mem_waiters.1 (hw.matching j hj)
      rw [h.owner i j hi ⟨hjlt, hjuse⟩ (hip.trans hjp.symm)]
      exact hj

theorem wakeProcesses_mem {pids : List Nat} {pid : Nat} (blocked : Nat → Bool) (h : pid ∈ pids) :
    wakeProcesses pids blocked pid = false := by
  simp [wakeProcesses, h]

theorem wakeProcesses_notMem {pids : List Nat} {pid : Nat} (blocked : Nat → Bool) (h : pid ∉ pids) :
    wakeProcesses pids blocked pid = blocked pid := by
  simp [wakeProcesses, h]

theorem wakeProcesses_nil (blocked : Nat → Bool) : wakeProcesses [] blocked = blocked := by
  funext pid
  exact wakeProcesses_notMem blocked List.not_mem_nil

theorem Sys.Orderly.step (h : s.Orderly) {call : Call} (hs : s.step call = some s') : s'.Orderly := by
  obtain ⟨hrun, hs⟩ := Option.ite_none_left_eq_some.1 hs
  have hrun : s.blocked call.pid = false := by simpa using hrun
  obtain ⟨chain, hchain⟩ := h.linked
  cases call with
  | wait pid uaddr phys word expectedVal =>
    obtain ⟨⟨res, q⟩, hwait, rfl⟩ := Option.map_eq_some_iff.1 hs
    unfold futexWait at hwait
    cases phys with
    | none =>
      obtain ⟨rfl, rfl⟩ := Prod.mk.inj (Option.some.inj hwait)
      exact h
    | some phys =>
      obtain ⟨-, hwait⟩ := Option.ite_none_left_eq_some.1 hwait
      split at hwait
      · obtain ⟨rfl, rfl⟩ := Prod.mk.inj (Option.some.inj hwait)
        exact h
      · cases hslot : s.queue.freeSlot with
        | none =>
          rw [hslot] at hwait
          obtain ⟨rfl, rfl⟩ := Prod.mk.inj (Option.some.inj hwait)
          exact h
        | some slot =>
          rw [hslot] at hwait
          obtain ⟨rfl, rfl⟩ := Prod.mk.inj (Option.some.inj hwait)
          exact h.push hslot hrun _
  | wake pid uaddr phys maxWake =>
    obtain ⟨⟨woken, q⟩, hwake, rfl⟩ := Option.map_eq_some_iff.1 hs
    cases phys with
    | none =>
      obtain ⟨rfl, rfl⟩ := Prod.mk.inj (Option.some.inj hwake)
      simp only [Option.getD_none, wakeProcesses_nil]
      exact h
    | some phys =>
      obtain ⟨⟨pids, q₁⟩, hwalk, hval⟩ := Option.map_eq_some_iff.1 hwake
      obtain ⟨rfl, rfl⟩ := Prod.mk.inj hval
      obtain ⟨removed, q', chain', hwalk', hw, hchain'⟩ := hchain.wake (targetPhys phys uaddr) maxWake
      obtain ⟨rfl, rfl⟩ := Prod.mk.inj (Option.some.inj (hwalk'.symm.trans hwalk))
      exact h.woken hw hchain'
  | wakeAddress pid uaddr phys maxWake =>
    obtain ⟨⟨pids, q⟩, hwake, rfl⟩ := Option.map_eq_some_iff.1 hs
    cases phys with
    | none =>
      obtain ⟨rfl, rfl⟩ := Prod.mk.inj (Option.some.inj hwake)
      simp only [wakeProcesses_nil]
      exact h
    | some phys =>
      obtain ⟨removed, q', chain', hwalk', hw, hchain'⟩ := hchain.wake (targetPhys phys uaddr) maxWake
      obtain ⟨rfl, rfl⟩ := Prod.mk.inj (Option.some.inj (hwalk'.symm.trans hwake))
      exact h.woken hw hchain'

theorem Reachable.orderly (h : Reachable s) : s.Orderly := by
  induction h with
  | init =>
    refine ⟨⟨_, linked_initial⟩, fun i j hi => ?_, fun pid => ?_⟩
    · cases hi.2
    · refine ⟨fun hp => ?_, fun ⟨i, hi, _⟩ => ?_⟩
      · cases hp
      · cases hi.2
  | step _ hs ih => exact ih.step hs

/-- **A wake-up is exact.** In every reachable state a wake-up of at most `maxWake` waiters of a key, by `futexWake` or by
`wakeAddress`, returns. It takes the slots `removed` out, as many waiters of the key as it may; their processes were
asleep and run again, each of them once. Every other waiter keeps its slot, every other process its state, and the chains
are well formed again. -/
theorem wake_exact (hs : Reachable s) {pid : Nat} (hpid : s.blocked pid = false) (phys uaddr maxWake : Nat) :
    ∃ (removed : List Nat) (s' : Sys),
      futexWake (some phys) uaddr maxWake s.queue =
        some (some (removed.map fun i => (s.queue.waitQueue i).pid), s'.queue) ∧
      s.step (.wake pid uaddr (some phys) maxWake) = some s' ∧
      s.step (.wakeAddress pid uaddr (some phys) maxWake) = some s' ∧
      removed.Nodup ∧ removed.length = min maxWake (s.queue.waiters (targetPhys phys uaddr)).card ∧
      (∀ i ∈ removed, i ∈ s.queue.waiters (targetPhys phys uaddr) ∧ ¬ s'.queue.Queued i) ∧
      (∀ i, i ∉ removed → (s'.queue.waitQueue i).waiter = (s.queue.waitQueue i).waiter) ∧
      (removed.map fun i => (s.queue.waitQueue i).pid).Nodup ∧
      (∀ i ∈ removed, s.blocked (s.queue.waitQueue i).pid = true ∧ s'.blocked (s.queue.waitQueue i).pid = false) ∧
      (∀ p, p ∉ removed.map (fun i => (s.queue.waitQueue i).pid) → s'.blocked p = s.blocked p) ∧
      ∃ chain, s'.queue.Linked chain := by
  have h := hs.orderly
  obtain ⟨chain, hchain⟩ := h.linked
  obtain ⟨removed, q', chain', hwalk, hw, hchain'⟩ := hchain.wake (targetPhys phys uaddr) maxWake
  have hqueued : ∀ i ∈ removed, s.queue.Queued i := by
    intro i hi
    obtain ⟨hlt, huse, -⟩ := mem_waiters.1 (hw.matching i hi)
    exact ⟨hlt, huse⟩
  have hfutex : futexWake (some phys) uaddr maxWake s.queue =
      some (some (removed.map fun i => (s.queue.waitQueue i).pid), q') := by
    rw [futexWake, hwalk]
    rfl
  have haddr : wakeAddress (some phys) uaddr maxWake s.queue =
      some (removed.map fun i => (s.queue.waitQueue i).pid, q') := hwalk
  refine ⟨removed, { queue := q', blocked := wakeProcesses (removed.map fun i => (s.queue.waitQueue i).pid) s.blocked },
    hfutex, ?_, ?_, hw.nodup, hw.length, fun i hi => ⟨hw.matching i hi, ?_⟩, hw.waiter, ?_, fun i hi => ⟨?_, ?_⟩,
    fun p hp => ?_, chain', hchain'⟩
  · rw [Sys.step, if_neg (by simp [Call.pid, hpid]), hfutex]
    rfl
  · rw [Sys.step, if_neg (by simp [Call.pid, hpid]), haddr]
    rfl
  · exact fun hq => (hw.queued.1 hq).2 hi
  · refine List.Nodup.map_on (fun i hi j hj heq => ?_) hw.nodup
    exact h.owner i j (hqueued i hi) (hqueued j hj) heq
  · exact (h.asleep _).2 ⟨i, hqueued i hi, rfl⟩
  · exact wakeProcesses_mem s.blocked (List.mem_map_of_mem hi)
  · exact wakeProcesses_notMem s.blocked hp

end Run

/-! ### Two waiters -/

/-- Processes 1 and 2 wait for the same word; a wake-up of one waiter by process 3 takes out one of the two. -/
theorem wake_exact_two :
    ∃ s s' : Sys, Reachable s ∧ (s.queue.waiters 4096).card = 2 ∧ s.step (.wake 3 4096 (some 4096) 1) = some s' ∧
      ∃ removed : List Nat, removed.length = 1 ∧ ∀ i ∈ removed, i ∈ s.queue.waiters 4096 ∧ ¬ s'.queue.Queued i := by
  have hrun : ((Sys.step { queue := initial, blocked := fun _ => false } (.wait 1 4096 (some 4096) (fun _ => 0) 0)).bind
      fun s => (s.step (.wait 2 4096 (some 4096) (fun _ => 0) 0)).map fun s' =>
        (decide ((s'.queue.waiters 4096).card = 2 ∧ s'.blocked 3 = false))) = some true := by decide +kernel
  obtain ⟨s₁, h₁, hval⟩ := Option.bind_eq_some_iff.1 hrun
  obtain ⟨s, h₂, hval⟩ := Option.map_eq_some_iff.1 hval
  obtain ⟨hcard, hpid⟩ := of_decide_eq_true hval
  have hreach : Reachable s := (Reachable.init.step h₁).step h₂
  obtain ⟨removed, s', -, hstep, -, -, hlen, hgone, -⟩ := wake_exact hreach hpid 4096 4096 1
  rw [show targetPhys 4096 4096 = 4096 from rfl] at hlen hgone
  rw [hcard] at hlen
  exact ⟨s, s', hreach, hcard, hstep, removed, hlen, hgone⟩

end Zigix.Futex
