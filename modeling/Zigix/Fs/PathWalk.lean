import Zigix.Fs.PathText

/-!
# Walking a path

A path is walked with a stack of the directories that it visits. `resolvePath` has no stack: it keeps the text of the current
directory in 256 bytes, and resolves that again for `..`.

* `Vfs.visit` : the walk with a stack; `Vfs.Follows` : `resolvePath` finds what this walk finds;
* `path_walk` : in a tree without links, `resolvePath` follows a path and all its beginnings exactly on this condition;
* `deep_dots_astray` : a path for which it does not.
-/

namespace Zigix.Path

open Recursion

/-! ## The walk with a stack -/

abbrev Stack := List (Name × Nat)

def Stack.names (st : Stack) : List Name := st.map Prod.fst

def current (root : Nat) (st : Stack) : Nat := (st.getLast?.map Prod.snd).getD root

namespace Vfs

def enter (v : Vfs) (root : Nat) (st : Stack) (c : Name) : Option Nat :=
  match v.findMount (text (st.names ++ [c])) with
  | some mountRoot => some mountRoot
  | none => if v.hasLookup (current root st) = true then v.lookup (current root st) c else none

/-- One component; `none` where there is no directory, or no file with this name. -/
def step (v : Vfs) (root : Nat) (st : Stack) (c : Name) : Option Stack :=
  if v.isDir (current root st) = false then none
  else if c = [dot] then some st
  else if c = [dot, dot] then some st.dropLast
  else (v.enter root st c).map fun i => st ++ [(c, i)]

def visit (v : Vfs) (root : Nat) (cs : List Name) (st : Stack) : Option Stack := cs.foldlM (v.step root) st

structure Matches (v : Vfs) (root : Nat) (cs : List Name) (st : Stack) (r : ResolveResult) : Prop where
  inode : r.inode = (v.visit root cs st).map (current root)
  missing : ∀ init last st', cs = init ++ [last] → v.visit root init st = some st' → v.isDir (current root st') = true →
    last ≠ [dot] → last ≠ [dot, dot] → v.enter root st' last = none → r.parent = some (current root st') ∧ r.leaf = last

/-- **`resolvePath` follows the walk**, with calls of depth 2; without a root it finds nothing. -/
def Follows (v : Vfs) (path : Name) : Prop := ∀ n, 2 ≤ n → ∃ r, v.resolvePath n path = some r ∧
  (v.root = none → r.inode = none) ∧ ∀ root, v.root = some root → v.Matches root (components path) [] r

/-- A tree without symbolic links; the mount table has paths of at most 255 bytes. -/
structure Plain (v : Vfs) : Prop where
  mounts : ∀ m ∈ v.mounts, m.1.length ≤ 255
  links : ∀ d name child, v.lookup d name = some child → v.isLink child = false

/-- Every component that the walk comes to has at most 255 bytes, and every directory that `..` goes to has a text of at
most 255 bytes. -/
def Recorded (v : Vfs) (root : Nat) (cs : List Name) : Prop :=
  ∀ init c, init ++ [c] <+: cs → ∀ st, v.visit root init [] = some st → v.isDir (current root st) = true →
    c.length ≤ 255 ∧ (c = [dot, dot] → (text st.names.dropLast).length ≤ 255)

structure Stacked (v : Vfs) (root : Nat) (st : Stack) : Prop where
  visited : v.visit root st.names [] = some st
  names : ∀ c ∈ st.names, IsName c ∧ c ≠ [dot] ∧ c ≠ [dot, dot] ∧ c.length ≤ 255

def Distinct (v : Vfs) : Prop := ∀ root st st', v.root = some root → v.Stacked root st → v.Stacked root st' →
  v.isDir (current root st) = true → current root st = current root st' → st = st'

end Vfs

section Walk
variable {v : Vfs} {root n : Nat} {st st' : Stack} {c : Name} {cs rest : List Name} {f : Name → Option ResolveResult}

theorem names_concat (st : Stack) (c : Name) (i : Nat) : Stack.names (st ++ [(c, i)]) = st.names ++ [c] := by
  unfold Stack.names
  rw [List.map_append]
  rfl

theorem names_dropLast (st : Stack) : Stack.names st.dropLast = st.names.dropLast := List.map_dropLast

theorem current_concat (root : Nat) (st : Stack) (c : Name) (i : Nat) : current root (st ++ [(c, i)]) = i := by
  unfold current
  rw [List.getLast?_concat]
  rfl

theorem visit_cons (c : Name) (cs : List Name) (st : Stack) :
    v.visit root (c :: cs) st = (v.step root st c).bind (v.visit root cs) := List.foldlM_cons ..

theorem visit_append (cs cs' : List Name) (st : Stack) :
    v.visit root (cs ++ cs') st = (v.visit root cs st).bind (v.visit root cs') := List.foldlM_append

theorem visit_concat (cs : List Name) (c : Name) (st : Stack) :
    v.visit root (cs ++ [c]) st = (v.visit root cs st).bind fun st' => v.step root st' c := by
  rw [visit_append]
  congr 1
  funext st'
  rw [visit_cons]
  cases v.step root st' c <;> rfl

/-! ## Stacks -/

theorem Stacked.nil : v.Stacked root [] := ⟨rfl, nofun⟩

theorem step_dot (hdir : v.isDir (current root st) = true) : v.step root st [dot] = some st := by
  unfold Vfs.step
  rw [hdir, if_neg (show ¬ true = false by decide), if_pos rfl]

theorem step_dots (hdir : v.isDir (current root st) = true) : v.step root st [dot, dot] = some st.dropLast := by
  unfold Vfs.step
  rw [hdir, if_neg (show ¬ true = false by decide), if_neg (by decide), if_pos rfl]

theorem step_of_not_dir (hdir : v.isDir (current root st) = false) (c : Name) : v.step root st c = none := by
  unfold Vfs.step
  rw [if_pos hdir]

theorem step_enter (hdir : v.isDir (current root st) = true) (hdot : c ≠ [dot]) (hdots : c ≠ [dot, dot]) :
    v.step root st c = (v.enter root st c).map fun i => st ++ [(c, i)] := by
  unfold Vfs.step
  rw [hdir, if_neg (show ¬ true = false by decide), if_neg hdot, if_neg hdots]

theorem step_isDir (h : v.step root st c = some st') : v.isDir (current root st) = true := by
  cases hdir : v.isDir (current root st) with
  | true => rfl
  | false =>
    rw [step_of_not_dir hdir] at h
    cases h

theorem step_name (hdot : c ≠ [dot]) (hdots : c ≠ [dot, dot]) (h : v.step root st c = some st') :
    ∃ i, v.enter root st c = some i ∧ st' = st ++ [(c, i)] := by
  rw [step_enter (step_isDir h) hdot hdots] at h
  obtain ⟨i, hi, rfl⟩ := Option.map_eq_some_iff.1 h
  exact ⟨i, hi, rfl⟩

theorem Vfs.Stacked.dropLast (h : v.Stacked root st) : v.Stacked root st.dropLast ∧
    (st ≠ [] → v.isDir (current root st.dropLast) = true) := by
  rcases List.eq_nil_or_concat' st with rfl | ⟨init, ⟨c, i⟩, rfl⟩
  · exact ⟨h, fun hne => absurd rfl hne⟩
  obtain ⟨hvisit, hnames⟩ := h
  rw [names_concat] at hvisit hnames
  obtain ⟨-, hdot, hdots, -⟩ := hnames c (List.mem_append_right _ (List.mem_singleton_self c))
  rw [visit_concat] at hvisit
  obtain ⟨st₁, hst₁, hstep⟩ := Option.bind_eq_some_iff.1 hvisit
  have hdir := step_isDir hstep
  obtain ⟨j, -, heq⟩ := step_name hdot hdots hstep
  obtain ⟨rfl, -⟩ := List.append_inj' heq rfl
  rw [List.dropLast_concat]
  exact ⟨⟨hst₁, fun x hx => hnames x (List.mem_append_left _ hx)⟩, fun _ => hdir⟩

theorem Vfs.Stacked.step (h : v.Stacked root st) (hc : IsName c) (hlen : c.length ≤ 255)
    (hstep : v.step root st c = some st') : v.Stacked root st' := by
  have hdir := step_isDir hstep
  by_cases hdot : c = [dot]
  · rw [hdot, step_dot hdir] at hstep
    cases hstep
    exact h
  by_cases hdots : c = [dot, dot]
  · rw [hdots, step_dots hdir] at hstep
    cases hstep
    exact h.dropLast.1
  obtain ⟨i, hi, rfl⟩ := step_name hdot hdots hstep
  refine ⟨?_, fun x hx => ?_⟩
  · rw [names_concat, visit_concat, h.visited]
    exact hstep
  · rw [names_concat] at hx
    rcases List.mem_append.1 hx with hx | hx
    · exact h.names x hx
    · rw [List.mem_singleton.1 hx]
      exact ⟨hc, hdot, hdots, hlen⟩

theorem Vfs.Stacked.take (h : v.Stacked root st) (k : Nat) : v.Stacked root (st.take k) := by
  induction st using List.reverseRecOn with
  | nil =>
    rw [List.take_nil]
    exact h
  | append_singleton st x ih =>
    by_cases hk : k ≤ st.length
    · rw [List.take_append_of_le_length hk]
      have hdrop := h.dropLast.1
      rw [List.dropLast_concat] at hdrop
      exact ih hdrop
    · rw [List.take_of_length_le (by rw [List.length_append, List.length_singleton]; omega)]
      exact h

theorem Vfs.Stacked.isName (h : v.Stacked root st) : ∀ c ∈ st.names, IsName c := fun c hc => (h.names c hc).1

/-! ## The walk with a text -/

/-- The paths that `..` goes to are resolved. -/
def Answers (v : Vfs) (root : Nat) (f : Name → Option ResolveResult) : Prop :=
  ∀ st, v.Stacked root st → st ≠ [] → (text st.names).length ≤ 255 →
    ∃ r, f (text st.names) = some r ∧ r.inode = some (current root st)

/-- `resolvePath`, from a directory on. -/
def walkFrom (v : Vfs) (root : Nat) (f : Name → Option ResolveResult) (cs : List Name) (st : Stack) (result : ResolveResult) :
    Option ResolveResult := (v.walk root cs (current root st) (buffer st.names) result).eval f

theorem findMount_buffer (hp : v.Plain) (cs : List Name) : v.findMount (buffer cs) = v.findMount (text cs) := by
  by_cases hlen : (text cs).length ≤ 256
  · unfold buffer
    rw [List.take_of_length_le hlen]
  have hne : ∀ m ∈ v.mounts, m.1 ≠ buffer cs ∧ m.1 ≠ text cs := fun m hm => by
    have hm := hp.mounts m hm
    refine ⟨fun he => ?_, fun he => ?_⟩
    · rw [he, buffer, List.length_take] at hm
      omega
    · rw [he] at hm
      omega
  have hroot : buffer cs ≠ [slash] ∧ text cs ≠ [slash] := by
    refine ⟨fun he => ?_, fun he => ?_⟩
    · have := congrArg List.length he
      rw [buffer, List.length_take, List.length_singleton] at this
      omega
    · rw [he] at hlen
      exact hlen (by decide)
  unfold Vfs.findMount
  rw [if_neg hroot.1, if_neg hroot.2, List.find?_eq_none.2, List.find?_eq_none.2]
  · intro m hm
    simpa using (hne m hm).2
  · intro m hm
    simpa using (hne m hm).1

/-- **A component that the walk gets past**: the text goes with the stack, as long as `..` goes to a text that fits. -/
theorem walk_step (rest : List Name) (hp : v.Plain) (hst : v.Stacked root st) (hlen : c.length ≤ 255)
    (hfit : c = [dot, dot] → (text st.names.dropLast).length ≤ 255) (hf : c = [dot, dot] → Answers v root f)
    (hstep : v.step root st c = some st') : ∃ r, r.inode = some (current root st') ∧
      walkFrom v root f (c :: rest) st .empty = walkFrom v root f rest st' (if rest = [] then r else .empty) := by
  have hdir := step_isDir hstep
  have hpass : ¬ (c.length > 255 ∨ v.isDir (current root st) = false) := by
    rw [hdir]
    rintro (h | h)
    · omega
    · cases h
  unfold walkFrom
  rw [Vfs.walk, if_neg hpass]
  by_cases hdot : c = [dot]
  · rw [hdot, step_dot hdir] at hstep
    cases hstep
    rw [if_pos hdot]
    exact ⟨⟨some (current root st), some (current root st), [dot]⟩, rfl, rfl⟩
  rw [if_neg hdot]
  by_cases hdots : c = [dot, dot]
  · rw [hdots, step_dots hdir] at hstep
    cases hstep
    rw [if_pos hdots]
    have hfit := hfit hdots
    have hbuffer : buffer st.names.dropLast = text st.names.dropLast :=
      List.take_of_length_le (Nat.le_succ_of_le hfit)
    -- the text without its last name
    have hstrip : (if (buffer st.names).length > 1 then stripLast (buffer st.names) else buffer st.names) =
        text st.names.dropLast := by
      rcases List.eq_nil_or_concat' st.names with hnil | ⟨init, last, heq⟩
      · rw [hnil]
        rfl
      · have hlong := one_lt_length_text (by rw [heq]; exact List.append_ne_nil_of_right_ne_nil _ (List.cons_ne_nil _ _))
          hst.isName
        rw [if_pos (by rw [buffer, List.length_take]; omega)]
        have hlast := hst.isName last (by rw [heq]; exact List.mem_append_right _ (List.mem_singleton_self _))
        rw [heq, List.dropLast_concat] at hfit ⊢
        exact stripLast_buffer hlast.2 hfit
    dsimp only
    rw [hstrip, names_dropLast, hbuffer]
    refine ⟨⟨some (current root st.dropLast), some (current root st.dropLast), [dot, dot]⟩, rfl, ?_⟩
    by_cases hnil : st.dropLast = []
    · have hnames : st.names.dropLast = [] := by
        rw [← names_dropLast, hnil]
        rfl
      rw [hnames, hnil]
      rfl
    · have hne : Stack.names st.dropLast ≠ [] := fun h => hnil (List.map_eq_nil_iff.1 h)
      have hlong := one_lt_length_text hne hst.dropLast.1.isName
      obtain ⟨r, hr, hinode⟩ := hf hdots st.dropLast hst.dropLast.1 hnil (by rw [names_dropLast]; exact hfit)
      rw [names_dropLast] at hlong hr
      rw [if_pos hlong, Body.eval_bind, Body.eval_call, hr, Option.bind_some, hinode]
      rfl
  rw [if_neg hdots]
  obtain ⟨i, hi, rfl⟩ := step_name hdot hdots hstep
  dsimp only
  rw [extend_buffer hst.isName, findMount_buffer hp, current_concat, names_concat]
  unfold Vfs.enter at hi
  cases hmount : v.findMount (text (st.names ++ [c])) with
  | some mountRoot =>
    rw [hmount] at hi
    obtain rfl := Option.some.inj hi
    refine ⟨⟨some mountRoot, some mountRoot, c⟩, rfl, ?_⟩
    dsimp only
    by_cases hrest : rest = []
    · rw [if_pos hrest, if_pos hrest, if_pos hrest]
    · rw [if_neg hrest, if_neg hrest, if_neg hrest]
  | none =>
    rw [hmount] at hi
    dsimp only at hi ⊢
    split at hi
    · next hlookup =>
      have hlink := hp.links _ _ _ hi
      rw [if_neg (by rw [hlookup]; decide), hi]
      dsimp only
      rw [if_neg (by rw [hlink]; exact fun h => Bool.false_ne_true h.2)]
      refine ⟨⟨some i, some (current root st), c⟩, rfl, ?_⟩
      by_cases hrest : rest = []
      · rw [if_pos hrest, if_pos hrest, if_pos hrest]
      · rw [if_neg hrest, if_neg hrest, if_neg hrest]
    · cases hi

/-- **A component that the walk does not get past.** -/
theorem walk_stop (rest : List Name) (hp : v.Plain) (hst : v.Stacked root st)
    (hlen : v.isDir (current root st) = true → c.length ≤ 255) (hstep : v.step root st c = none) :
    ∃ r, walkFrom v root f (c :: rest) st .empty = some r ∧ r.inode = none ∧
      (v.isDir (current root st) = true → rest = [] → r.parent = some (current root st) ∧ r.leaf = c) := by
  unfold walkFrom
  rw [Vfs.walk]
  cases hdir : v.isDir (current root st) with
  | false =>
    rw [if_pos (.inr rfl)]
    exact ⟨.empty, rfl, rfl, nofun⟩
  | true =>
    have hlen := hlen hdir
    rw [if_neg (by rintro (h | h); exacts [by omega, by cases h])]
    have hdot : c ≠ [dot] := fun h => by
      rw [h, step_dot hdir] at hstep
      cases hstep
    have hdots : c ≠ [dot, dot] := fun h => by
      rw [h, step_dots hdir] at hstep
      cases hstep
    rw [step_enter hdir hdot hdots, Option.map_eq_none_iff] at hstep
    rw [if_neg hdot, if_neg hdots]
    dsimp only
    rw [extend_buffer hst.isName, findMount_buffer hp]
    unfold Vfs.enter at hstep
    cases hmount : v.findMount (text (st.names ++ [c])) with
    | some mountRoot =>
      rw [hmount] at hstep
      cases hstep
    | none =>
      rw [hmount] at hstep
      dsimp only at hstep ⊢
      have hresult : ∃ r, some (if rest = [] then ({ ResolveResult.empty with parent := some (current root st), leaf := c } :
          ResolveResult) else .empty) = some r ∧ r.inode = none ∧
          (true = true → rest = [] → r.parent = some (current root st) ∧ r.leaf = c) := by
        by_cases hrest : rest = []
        · rw [if_pos hrest]
          exact ⟨_, rfl, rfl, fun _ _ => ⟨rfl, rfl⟩⟩
        · rw [if_neg hrest]
          exact ⟨_, rfl, rfl, fun _ h => absurd h hrest⟩
      split at hstep
      · next hlookup =>
        rw [if_neg (by rw [hlookup]; decide), hstep]
        exact hresult
      · next hlookup =>
        rw [if_pos (by simpa using hlookup)]
        exact hresult

/-! ## Whole paths -/

theorem walkFrom_nil (hr : ∃ i, (result : ResolveResult).inode = some i) : walkFrom v root f [] st result = some result := by
  obtain ⟨i, hi⟩ := hr
  unfold walkFrom
  rw [Vfs.walk, if_neg (by rw [hi]; exact fun h => nomatch h.1)]
  rfl

def RecordedFrom (v : Vfs) (root : Nat) (cs : List Name) (st : Stack) : Prop :=
  ∀ init c, init ++ [c] <+: cs → ∀ st', v.visit root init st = some st' → v.isDir (current root st') = true →
    c.length ≤ 255 ∧ (c = [dot, dot] → (text st'.names.dropLast).length ≤ 255)

theorem RecordedFrom.head (h : RecordedFrom v root (c :: rest) st) (hdir : v.isDir (current root st) = true) :
    c.length ≤ 255 ∧ (c = [dot, dot] → (text st.names.dropLast).length ≤ 255) :=
  h [] c ⟨rest, rfl⟩ st rfl hdir

theorem RecordedFrom.tail (h : RecordedFrom v root (c :: rest) st) (hstep : v.step root st c = some st') :
    RecordedFrom v root rest st' := fun init d hpre st₁ hvisit hdir =>
  h (c :: init) d (List.cons_prefix_cons.2 ⟨rfl, hpre⟩) st₁ (by rw [visit_cons, hstep]; exact hvisit) hdir

/-- **The walk with a text is the walk with a stack.** -/
theorem walk_matches (hp : v.Plain) (hst : v.Stacked root st) (hcs : ∀ c ∈ cs, IsName c)
    (hrec : RecordedFrom v root cs st) (hf : [dot, dot] ∈ cs → Answers v root f) :
    ∃ r, walkFrom v root f cs st .empty = some r ∧ v.Matches root cs st r := by
  induction cs generalizing st with
  | nil =>
    refine ⟨{ ResolveResult.empty with inode := some (current root st) }, rfl, rfl, fun init last st' heq => ?_⟩
    exact absurd heq.symm (List.append_ne_nil_of_right_ne_nil _ (List.cons_ne_nil _ _))
  | cons c rest ih =>
    cases hstep : v.step root st c with
    | none =>
      obtain ⟨r, hr, hinode, hmissing⟩ := walk_stop rest hp hst (fun hdir => (hrec.head hdir).1) hstep
      refine ⟨r, hr, ?_, fun init last st' heq hvisit hdir _ _ _ => ?_⟩
      · rw [hinode, visit_cons, hstep]
        rfl
      · cases init with
        | nil =>
          obtain ⟨rfl, rfl⟩ := List.cons.inj heq
          cases hvisit
          exact hmissing hdir rfl
        | cons d init =>
          obtain ⟨rfl, -⟩ := List.cons.inj heq
          rw [visit_cons, hstep] at hvisit
          cases hvisit
    | some st' =>
      have hdir := step_isDir hstep
      obtain ⟨hlen, hfit⟩ := hrec.head hdir
      obtain ⟨r, hinode, hwalk⟩ := walk_step rest hp hst hlen hfit
        (fun hdots => hf (hdots ▸ List.mem_cons_self)) hstep
      by_cases hrest : rest = []
      · subst hrest
        rw [if_pos rfl, walkFrom_nil ⟨_, hinode⟩] at hwalk
        refine ⟨r, hwalk, ?_, fun init last st₁ heq hvisit _ hdot hdots hnone => ?_⟩
        · rw [hinode, visit_cons, hstep]
          rfl
        · obtain rfl : init = [] := by
            have := congrArg List.length heq
            rw [List.length_append, List.length_singleton, List.length_singleton] at this
            exact List.length_eq_zero_iff.1 (by omega)
          obtain ⟨rfl, -⟩ := List.cons.inj heq
          cases hvisit
          obtain ⟨i, hi, -⟩ := step_name hdot hdots hstep
          rw [hi] at hnone
          cases hnone
      · rw [if_neg hrest] at hwalk
        obtain ⟨r', hr', hmatch⟩ := ih (hst.step (hcs c List.mem_cons_self) hlen hstep)
          (fun x hx => hcs x (List.mem_cons_of_mem _ hx)) (hrec.tail hstep) fun h => hf (List.mem_cons_of_mem _ h)
        refine ⟨r', hwalk.trans hr', ?_, fun init last st₁ heq hvisit => ?_⟩
        · rw [hmatch.inode, visit_cons, hstep]
          rfl
        · cases init with
          | nil => exact absurd (List.cons.inj heq).2 hrest
          | cons d init =>
            obtain ⟨rfl, htail⟩ := List.cons.inj heq
            rw [visit_cons, hstep] at hvisit
            exact hmatch.missing init last st₁ htail hvisit

theorem walk_through (rest : List Name) (hp : v.Plain) (hst : v.Stacked root st) (hcs : ∀ c ∈ cs, IsName c)
    (hrec : RecordedFrom v root cs st) (hf : Answers v root f) (hvisit : v.visit root cs st = some st') (hrest : rest ≠ []) :
    v.Stacked root st' ∧ walkFrom v root f (cs ++ rest) st .empty = walkFrom v root f rest st' .empty := by
  induction cs generalizing st with
  | nil =>
    cases hvisit
    exact ⟨hst, rfl⟩
  | cons c cs ih =>
    rw [visit_cons] at hvisit
    obtain ⟨st₁, hstep, hvisit⟩ := Option.bind_eq_some_iff.1 hvisit
    obtain ⟨hlen, hfit⟩ := hrec.head (step_isDir hstep)
    obtain ⟨r, -, hwalk⟩ := walk_step (cs ++ rest) hp hst hlen hfit (fun _ => hf) hstep
    rw [if_neg (List.append_ne_nil_of_right_ne_nil _ hrest)] at hwalk
    obtain ⟨hst', hwalk'⟩ := ih (hst.step (hcs c List.mem_cons_self) hlen hstep)
      (fun x hx => hcs x (List.mem_cons_of_mem _ hx)) (hrec.tail hstep) hvisit
    exact ⟨hst', hwalk.trans hwalk'⟩

theorem walk_dots (hst : v.Stacked root st) (hne : st ≠ []) (hf : Answers v root f)
    (hdir : v.isDir (current root st) = true) : ∃ k r, k < st.length ∧
      walkFrom v root f [[dot, dot]] st .empty = some r ∧ r.inode = some (current root (st.take k)) ∧
      (k + 1 = st.length → (text st.names.dropLast).length ≤ 255) := by
  have hnames : st.names ≠ [] := fun h => hne (List.map_eq_nil_iff.1 h)
  have hlength : st.names.length = st.length := List.length_map _
  obtain ⟨k, hk, hstrip, hlen, hfit⟩ := stripLast_buffer_above hst.isName hnames
  rw [hlength] at hk hfit
  have htake : st.names.take k = Stack.names (st.take k) := List.map_take.symm
  have hlong := one_lt_length_text hnames hst.isName
  refine ⟨k, ⟨some (current root (st.take k)), some (current root (st.take k)), [dot, dot]⟩, hk, ?_, rfl, hfit⟩
  unfold walkFrom
  rw [Vfs.walk, hdir, if_neg (by decide), if_neg (by decide), if_pos rfl]
  dsimp only
  rw [if_pos (show (buffer st.names).length > 1 by rw [buffer, List.length_take]; omega), hstrip]
  rw [htake] at hlen ⊢
  by_cases hk0 : st.take k = []
  · rw [hk0]
    rfl
  · have hne' : Stack.names (st.take k) ≠ [] := fun h => hk0 (List.map_eq_nil_iff.1 h)
    obtain ⟨r, hr, hinode⟩ := hf (st.take k) (hst.take k) hk0 hlen
    rw [if_pos (one_lt_length_text hne' (hst.take k).isName), Body.eval_bind, Body.eval_call, hr, Option.bind_some, hinode]
    rfl

/-! ## Resolving -/

theorem resolveBody_eq {path : Name} (hroot : v.root = some root) (hpath : path.head? = some slash) :
    (v.resolveBody path).eval f = walkFrom v root f (components path) [] .empty := by
  cases path with
  | nil => cases hpath
  | cons b rest =>
    obtain rfl := Option.some.inj hpath
    unfold Vfs.resolveBody
    rw [hroot]
    dsimp only
    rw [if_neg (not_not.2 rfl)]
    split
    · next hrest =>
      rw [hrest, show components [slash] = [] by decide]
      rfl
    · rfl

theorem text_head (cs : List Name) : (text cs).head? = some slash := by
  unfold text
  split
  · rfl
  · cases cs with
    | nil => exact absurd rfl ‹_›
    | cons c cs => rfl

theorem answers_run (hp : v.Plain) (hroot : v.root = some root) (n : Nat) :
    Answers v root (run v.resolveBody (n + 1)) := by
  intro st hst hne hlen
  have hrec : RecordedFrom v root st.names [] := fun init c hpre st' _ _ => by
    obtain ⟨-, -, hdots, hc⟩ := hst.names c (hpre.subset (List.mem_append_right _ (List.mem_singleton_self c)))
    exact ⟨hc, fun h => absurd h hdots⟩
  obtain ⟨r, hr, hmatch⟩ := walk_matches (f := run v.resolveBody n) hp Stacked.nil hst.isName hrec fun hmem =>
    absurd rfl (hst.names _ hmem).2.2.1
  refine ⟨r, ?_, ?_⟩
  · refine (resolveBody_eq hroot (text_head _)).trans ?_
    rw [components_text hst.isName]
    exact hr
  · rw [hmatch.inode, hst.visited]
    rfl

end Walk

section Paths
variable {v : Vfs} {path : Name}

theorem follows_of_recorded (hp : v.Plain) (hpath : path.head? = some slash)
    (hrec : ∀ root, v.root = some root → v.Recorded root (components path)) : v.Follows path := by
  intro n hn
  obtain ⟨m, rfl⟩ : ∃ m, n = m + 1 + 1 := ⟨n - 2, by omega⟩
  cases hroot : v.root with
  | none =>
    refine ⟨.empty, ?_, fun _ => rfl, nofun⟩
    show (v.resolveBody path).eval _ = _
    unfold Vfs.resolveBody
    rw [hroot]
    cases path <;> rfl
  | some root =>
    obtain ⟨r, hr, hmatch⟩ := walk_matches hp Stacked.nil (fun c hc => isName_of_components hc) (hrec root hroot)
      fun _ => answers_run hp hroot m
    refine ⟨r, (resolveBody_eq hroot hpath).trans hr, nofun, fun root' hroot' => ?_⟩
    obtain rfl := Option.some.inj hroot'
    exact hmatch

/-- Where a walk goes to the wrong directory, or is given up, some beginning of the path is not followed. -/
theorem recorded_of_follows (hp : v.Plain) (hd : v.Distinct) {root : Nat} (hroot : v.root = some root) {cs : List Name}
    (hcs : ∀ c ∈ cs, IsName c)
    (hfollows : ∀ path, path.head? = some slash → components path <+: cs → v.Follows path) : v.Recorded root cs := by
  have hall : ∀ k init c, init.length = k → init ++ [c] <+: cs → ∀ st, v.visit root init [] = some st →
      v.isDir (current root st) = true → c.length ≤ 255 ∧ (c = [dot, dot] → (text st.names.dropLast).length ≤ 255) := by
    intro k
    induction k using Nat.strong_induction_on with
    | _ k ih =>
    intro init c hk hpre st hvisit hdir
    have hnames : ∀ x ∈ init ++ [c], IsName x := fun x hx => hcs x (hpre.subset hx)
    have hcomponents := components_text hnames
    -- up to this component everything is as it should be
    have hrec : RecordedFrom v root init [] := fun init' c' hpre' st' hvisit' hdir' => by
      have hlen := hpre'.length_le
      rw [List.length_append, List.length_singleton] at hlen
      exact ih init'.length (by omega) init' c' rfl (hpre'.trans ((List.prefix_append init [c]).trans hpre)) st' hvisit' hdir'
    have hf := answers_run hp hroot 0
    obtain ⟨hst, hwalk⟩ := walk_through [c] hp Stacked.nil (fun x hx => hnames x (List.mem_append_left _ hx)) hrec
      hf hvisit (List.cons_ne_nil _ _)
    obtain ⟨r, hr, -, hmatch⟩ := hfollows (text (init ++ [c])) (text_head _) (by rw [hcomponents]; exact hpre) 2 le_rfl
    have hmatch := hmatch root hroot
    rw [hcomponents] at hmatch
    have hrun : walkFrom v root (run v.resolveBody 1) [c] st .empty = some r := by
      rw [← hwalk, ← hr]
      refine Eq.symm ((resolveBody_eq hroot (text_head _)).trans ?_)
      rw [hcomponents]
    have hinode : r.inode = (v.step root st c).map (current root) := by
      rw [hmatch.inode, visit_concat, hvisit]
      rfl
    have hlen : c.length ≤ 255 := by
      by_contra hlong
      have hempty : walkFrom v root (run v.resolveBody 1) [c] st .empty = some .empty := by
        unfold walkFrom
        rw [Vfs.walk, if_pos (.inl (Nat.lt_of_not_le hlong))]
        rfl
      obtain rfl := Option.some.inj (hempty.symm.trans hrun)
      have hdot : c ≠ [dot] := fun h => hlong (by rw [h]; decide)
      have hdots : c ≠ [dot, dot] := fun h => hlong (by rw [h]; decide)
      rw [step_enter hdir hdot hdots] at hinode
      have hnone : v.enter root st c = none := Option.map_eq_none_iff.1 (Option.map_eq_none_iff.1 hinode.symm)
      have hparent := (hmatch.missing init c st rfl hvisit hdir hdot hdots hnone).1
      cases hparent
    refine ⟨hlen, fun hdots => ?_⟩
    subst hdots
    by_cases hne : st = []
    · subst hne
      decide
    obtain ⟨j, r', hj, hgoes, hto, hfit⟩ := walk_dots hst hne hf hdir
    obtain rfl := Option.some.inj (hgoes.symm.trans hrun)
    rw [step_dots hdir, hto] at hinode
    obtain ⟨hdrop, habove⟩ := hst.dropLast
    have hsame := hd root st.dropLast (st.take j) hroot hdrop (hst.take j) (habove hne) (Option.some.inj hinode).symm
    have hlength := congrArg List.length hsame
    rw [List.length_dropLast, List.length_take] at hlength
    exact hfit (by omega)
  exact fun init c hpre st hvisit hdir => hall init.length init c rfl hpre st hvisit hdir

/-- **The path walk.** In a tree without symbolic links, `resolvePath` finds what the walk with a stack finds for a path and
all its beginnings if the names that the walk comes to have at most 255 bytes, and the texts of the directories that `..` goes
to, too; and where every directory has one place in the tree, only then. -/
theorem path_walk (hp : v.Plain) :
    ((∀ root, v.root = some root → v.Recorded root (components path)) →
      ∀ path', path'.head? = some slash → components path' <+: components path → v.Follows path') ∧
    (v.Distinct → (∀ path', path'.head? = some slash → components path' <+: components path → v.Follows path') →
      ∀ root, v.root = some root → v.Recorded root (components path)) :=
  ⟨fun hrec _ hpath' hpre => follows_of_recorded hp hpath' fun root hroot init c hpre' =>
      hrec root hroot init c (hpre'.trans hpre),
    fun hd hfollows _ hroot => recorded_of_follows hp hd hroot (fun _ hc => isName_of_components hc) hfollows⟩

end Paths

/-! ## A directory within a directory -/

theorem no_link (_ : Nat) (target : Name) (h : (none : Option Name) = some target) : target.length ≤ 256 := by
  cases h

/-- The directories `/x`, `/x/y` and `/x/y/z`, whatever the names. -/
def chain : Vfs where
  root := some 0
  inode _ := ⟨.dir, 0o755, 0, 0, fun _ => true⟩
  hasLookup _ := true
  lookup i _ := if i < 3 then some (i + 1) else none
  readlink _ := none
  readlink_le := no_link
  mounts := []

theorem chain_plain : chain.Plain := ⟨nofun, fun _ _ _ _ => rfl⟩

/-- `/a/b/..` -/
theorem path_walk_chain : chain.Follows [slash, 97, slash, 98, slash, dot, dot] := by
  refine (path_walk chain_plain).1 (fun root hroot init c hpre st hvisit _ => ?_) _ rfl List.prefix_rfl
  obtain rfl := Option.some.inj hroot
  rw [show components [slash, 97, slash, 98, slash, dot, dot] = [[97], [98], [dot, dot]] by decide] at hpre
  have hmem := hpre.subset (List.mem_append_right init (List.mem_singleton_self c))
  have hshort : ∀ x ∈ [[97], [98], [dot, dot]], x.length ≤ 255 := by decide
  refine ⟨hshort c hmem, fun hdots => ?_⟩
  subst hdots
  obtain rfl : init = [[97], [98]] := by
    obtain ⟨more, heq⟩ := hpre
    rcases init with _ | ⟨x, _ | ⟨y, _ | ⟨z, init⟩⟩⟩
    · cases (List.cons.inj heq).1
    · cases (List.cons.inj (List.cons.inj heq).2).1
    · obtain ⟨rfl, htail⟩ := List.cons.inj heq
      obtain ⟨rfl, -⟩ := List.cons.inj htail
      rfl
    · have := congrArg List.length heq
      simp at this
  obtain rfl : [([97], 1), ([98], 2)] = st := Option.some.inj (Eq.trans (by decide) hvisit)
  decide

/-- `/A…A/B…B/c/..` with names of 200 bytes. -/
def deepPath : Name :=
  slash :: (List.replicate 200 65 ++ slash :: (List.replicate 200 66 ++ [slash, 99, slash, dot, dot]))

/-- The text of the second directory does not fit, and `..` goes to the first one. -/
theorem deep_dots_astray : deepPath.length ≤ 511 ∧ chain.Plain ∧ chain.resolvePath 2 deepPath =
      some ⟨some 1, some 1, [dot, dot]⟩ ∧ (chain.visit 0 (components deepPath) []).map (current 0) = some 2 ∧
    ¬ chain.Follows deepPath := by
  have hcode : chain.resolvePath 2 deepPath = some ⟨some 1, some 1, [dot, dot]⟩ := by decide +kernel
  have hwalk : (chain.visit 0 (components deepPath) []).map (current 0) = some 2 := by decide +kernel
  refine ⟨by decide +kernel, ⟨nofun, fun _ _ _ _ => rfl⟩, hcode, hwalk, fun hfollows => ?_⟩
  obtain ⟨r, hr, -, hmatch⟩ := hfollows 2 le_rfl
  have hinode := (hmatch 0 rfl).inode
  rw [hwalk, ← Option.some.inj (hcode.symm.trans hr)] at hinode
  cases hinode

end Zigix.Path
