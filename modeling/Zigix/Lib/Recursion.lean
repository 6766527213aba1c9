import Mathlib.Logic.Relation
import Mathlib.Order.Preorder.Finite
import Mathlib.Order.WellFounded

/-!
# Recursive functions by their bodies

The body of a function that calls itself is a computation that asks for the value at other arguments and goes on with the
answers: `Body Q A R`. `run body n` allows calls of depth `n`, so a function returns when some depth is enough.

* `run_mono` : more depth does no harm;
* `Calls` : an argument at which the body asks, after its earlier questions have been answered;
* `returns_iff_acyclic` : where finitely many arguments matter, a function returns exactly when no cycle of such calls
  is reached.
-/

namespace Recursion

/-- A computation that may ask for the value `A` of a function at an argument `Q`. -/
inductive Body (Q A R : Type)
  | done (r : R)
  | ask (q : Q) (k : A → Body Q A R)

variable {Q A R S : Type}

namespace Body

def bind : Body Q A R → (R → Body Q A S) → Body Q A S
  | done r, f => f r
  | ask q k, f => ask q fun a => (k a).bind f

instance : Monad (Body Q A) where
  pure := done
  bind := bind

/-- The recursive call. -/
def call (q : Q) : Body Q A A := ask q done

/-- The result, with a function that answers. -/
def eval (answer : Q → Option A) : Body Q A R → Option R
  | done r => some r
  | ask q k => (answer q).bind fun a => (k a).eval answer

@[simp] theorem eval_done (answer : Q → Option A) (r : R) : (done r : Body Q A R).eval answer = some r := rfl

@[simp] theorem eval_ask (answer : Q → Option A) (q : Q) (k : A → Body Q A R) :
    (ask q k).eval answer = (answer q).bind fun a => (k a).eval answer := rfl

@[simp] theorem eval_pure (answer : Q → Option A) (r : R) : (pure r : Body Q A R).eval answer = some r := rfl

@[simp] theorem eval_call (answer : Q → Option A) (q : Q) : (call q).eval answer = answer q := by
  unfold call
  rw [eval_ask]
  cases answer q <;> rfl

@[simp] theorem eval_bind (answer : Q → Option A) (b : Body Q A R) (f : R → Body Q A S) :
    (b >>= f).eval answer = (b.eval answer).bind fun r => (f r).eval answer := by
  change (b.bind f).eval answer = _
  induction b with
  | done r => rfl
  | ask q k ih =>
    simp only [bind, eval_ask]
    cases answer q with
    | none => rfl
    | some a => exact ih a

/-- The questions, as far as the earlier ones are answered. -/
inductive Asks (answer : Q → A → Prop) : Body Q A R → Q → Prop
  | here (q : Q) (k : A → Body Q A R) : Asks answer (ask q k) q
  | later {q q' : Q} {a : A} {k : A → Body Q A R} : answer q a → Asks answer (k a) q' → Asks answer (ask q k) q'

end Body

/-- The function, for calls of depth at most `n`. -/
def run (body : Q → Body Q A A) : Nat → Q → Option A
  | 0, _ => none
  | n + 1, q => (body q).eval (run body n)

/-- The function has this value. -/
def Returns (body : Q → Body Q A A) (q : Q) (a : A) : Prop := ∃ n, run body n q = some a

/-- Computing the function at `q` calls it at `q'`. -/
def Calls (body : Q → Body Q A A) (q q' : Q) : Prop := (body q).Asks (Returns body) q'

section Runs
variable {body : Q → Body Q A A}

theorem eval_mono {f g : Q → Option A} (h : ∀ q a, f q = some a → g q = some a) {b : Body Q A R} {r : R}
    (hb : b.eval f = some r) : b.eval g = some r := by
  induction b with
  | done r' => exact hb
  | ask q k ih =>
    obtain ⟨a, ha, hk⟩ := Option.bind_eq_some_iff.1 hb
    exact Option.bind_eq_some_iff.2 ⟨a, h q a ha, ih a hk⟩

theorem run_succ {n : Nat} {q : Q} {a : A} (h : run body n q = some a) : run body (n + 1) q = some a := by
  induction n generalizing q a with
  | zero => cases h
  | succ n ih => exact eval_mono (fun _ _ => ih) h

/-- More depth does no harm. -/
theorem run_mono {n m : Nat} {q : Q} {a : A} (h : run body n q = some a) (hle : n ≤ m) : run body m q = some a := by
  induction hle with
  | refl => exact h
  | step _ ih => exact run_succ ih

theorem Returns.unique {q : Q} {a b : A} (ha : Returns body q a) (hb : Returns body q b) : a = b := by
  obtain ⟨n, hn⟩ := ha
  obtain ⟨m, hm⟩ := hb
  have h₁ := run_mono hn (Nat.le_max_left n m)
  have h₂ := run_mono hm (Nat.le_max_right n m)
  exact Option.some.inj (h₁.symm.trans h₂)

/-- A body returns when all its questions have answers. -/
theorem eval_of_asks {b : Body Q A R} (h : ∀ q, b.Asks (Returns body) q → ∃ a, Returns body q a) :
    ∃ n r, b.eval (run body n) = some r := by
  induction b with
  | done r => exact ⟨0, r, rfl⟩
  | ask q k ih =>
    obtain ⟨a, n, hn⟩ := h q (.here q k)
    obtain ⟨m, r, hm⟩ := ih a fun q' hq' => h q' (.later ⟨n, hn⟩ hq')
    refine ⟨max n m, r, Option.bind_eq_some_iff.2 ⟨a, run_mono hn (Nat.le_max_left n m), ?_⟩⟩
    exact eval_mono (fun _ _ h => run_mono h (Nat.le_max_right n m)) hm

/-- When a body returns, all its questions have been answered. -/
theorem asks_of_eval {n : Nat} {b : Body Q A R} {r : R} (h : b.eval (run body n) = some r) {q : Q}
    (hq : b.Asks (Returns body) q) : ∃ a, run body n q = some a := by
  induction hq with
  | here q k =>
    obtain ⟨a, ha, -⟩ := Option.bind_eq_some_iff.1 h
    exact ⟨a, ha⟩
  | later ha _ ih =>
    obtain ⟨a', ha', hk⟩ := Option.bind_eq_some_iff.1 h
    cases ha.unique ⟨n, ha'⟩
    exact ih hk

theorem acc_of_run {n : Nat} {q : Q} {a : A} (h : run body n q = some a) : Acc (fun q' q => Calls body q q') q := by
  induction n generalizing q a with
  | zero => cases h
  | succ n ih =>
    refine ⟨q, fun q' hq' => ?_⟩
    obtain ⟨a', ha'⟩ := asks_of_eval h hq'
    exact ih ha'

theorem returns_of_acc {q : Q} (h : Acc (fun q' q => Calls body q q') q) : ∃ a, Returns body q a := by
  induction h with
  | intro q _ ih =>
    obtain ⟨n, a, hn⟩ := eval_of_asks (b := body q) ih
    exact ⟨a, n + 1, hn⟩

/-- Where the function returns, it does not come back to an argument that is still being computed. -/
theorem acyclic_of_acc {q p : Q} (h : Acc (fun q' q => Calls body q q') q) (hp : Relation.ReflTransGen (Calls body) q p) :
    ¬ Relation.TransGen (Calls body) p p := by
  have hacc : Acc (fun q' q => Calls body q q') p := by
    induction hp with
    | refl => exact h
    | tail _ hcall ih => exact ih.inv hcall
  have hgen := hacc.transGen
  clear hp hacc
  induction hgen with
  | intro p _ ih =>
    intro hcycle
    exact ih p (Relation.transGen_swap.1 hcycle) hcycle

/-- An infinite chain of calls through finitely many arguments has a cycle. -/
theorem cycle_of_chain {T : Set Q} (hT : T.Finite) {f : Nat → Q} (hf : ∀ i, Calls body (f i) (f (i + 1)))
    (hmem : ∀ i, f (i + 1) ∈ T) : ∃ p, Relation.ReflTransGen (Calls body) (f 0) p ∧ Relation.TransGen (Calls body) p p := by
  obtain ⟨i, j, hij, heq⟩ := hT.exists_lt_map_eq_of_forall_mem hmem
  have hto : ∀ n k, Relation.ReflTransGen (Calls body) (f n) (f (n + k)) := by
    intro n k
    induction k with
    | zero => exact .refl
    | succ k ih => exact ih.tail (hf _)
  refine ⟨f (i + 1), ?_, ?_⟩
  · have := hto 0 (i + 1)
    rwa [Nat.zero_add] at this
  · have hback := hto (i + 1 + 1) (j - i - 1)
    rw [show i + 1 + 1 + (j - i - 1) = j + 1 by omega, ← heq] at hback
    exact Relation.TransGen.head' (hf (i + 1)) hback

/-- **A function of finitely many arguments returns exactly when it never calls itself, through other calls, for an
argument that is still being computed.** -/
theorem returns_iff_acyclic {T : Set Q} (hT : T.Finite) (hmem : ∀ p q, Calls body p q → q ∈ T) (q : Q) :
    (∃ a, Returns body q a) ↔
      ¬ ∃ p, Relation.ReflTransGen (Calls body) q p ∧ Relation.TransGen (Calls body) p p := by
  constructor
  · intro hret hex
    obtain ⟨_, _, h⟩ := hret
    obtain ⟨p, hp, hcycle⟩ := hex
    exact acyclic_of_acc (acc_of_run h) hp hcycle
  · intro hno
    refine returns_of_acc (not_not.1 fun hacc => hno ?_)
    obtain ⟨f, rfl, hf⟩ := not_acc_iff_exists_descending_chain.1 hacc
    exact cycle_of_chain hT hf fun i => hmem _ _ (hf i)

end Runs

end Recursion
