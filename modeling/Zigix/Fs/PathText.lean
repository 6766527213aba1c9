import Zigix.Fs.Path

/-!
# The text of a path

`resolvePath` keeps the text of the directory that it is in, in a buffer of 256 bytes, and takes its last name off for `..`.

* `text` : the text of a list of names; `components_text` : the names are read back from it;
* `extend_text` : the buffer holds the beginning of the text; `stripLast_text` : it loses its last name exactly when the
  text of the directory above fits.
-/

namespace Zigix.Path

/-- A component of a path. -/
def IsName (c : Name) : Prop := c ≠ [] ∧ slash ∉ c

def joined (ns : List Name) : Name := ns.flatMap (slash :: ·)

def text (ns : List Name) : Name := if ns = [] then [slash] else joined ns

def buffer (ns : List Name) : Name := (text ns).take 256

section Text
variable {ns : List Name} {c : Name} {path : Name}

theorem joined_append (ns ms : List Name) : joined (ns ++ ms) = joined ns ++ joined ms := List.flatMap_append

theorem joined_singleton (c : Name) : joined [c] = slash :: c := by
  unfold joined
  rw [List.flatMap_singleton]

theorem joined_concat (ns : List Name) (c : Name) : joined (ns ++ [c]) = joined ns ++ slash :: c := by
  rw [joined_append, joined_singleton]

theorem text_concat (ns : List Name) (c : Name) : text (ns ++ [c]) = joined ns ++ slash :: c := by
  unfold text
  rw [if_neg (List.append_ne_nil_of_right_ne_nil _ (List.cons_ne_nil _ _)), joined_concat]

theorem text_of_ne_nil (h : ns ≠ []) : text ns = joined ns := if_neg h

theorem joined_ne_nil (h : ns ≠ []) : joined ns ≠ [] := by
  obtain ⟨init, last, rfl⟩ := List.eq_nil_or_concat' ns |>.resolve_left h
  rw [joined_concat]
  exact List.append_ne_nil_of_right_ne_nil _ (List.cons_ne_nil _ _)

theorem one_lt_length_text (h : ns ≠ []) (hns : ∀ c ∈ ns, IsName c) : 1 < (text ns).length := by
  obtain ⟨init, last, rfl⟩ := List.eq_nil_or_concat' ns |>.resolve_left h
  have hlast : last.length ≠ 0 := fun hz =>
    (hns last (List.mem_append_right _ (List.mem_singleton_self _))).1 (List.length_eq_zero_iff.1 hz)
  rw [text_concat, List.length_append, List.length_cons]
  omega

/-! ## Components -/

theorem notMem_splitOn : ∀ {path c : Name}, c ∈ path.splitOn slash → slash ∉ c
  | [], c, h => by
    rw [List.splitOn_nil, List.mem_singleton] at h
    rw [h]
    exact List.not_mem_nil
  | x :: path, c, h => by
    rw [List.splitOn_cons_eq_if_modifyHead] at h
    split at h
    · rcases List.mem_cons.1 h with rfl | h
      · exact List.not_mem_nil
      · exact notMem_splitOn h
    · next hx =>
      cases hp : path.splitOn slash with
      | nil => exact absurd hp (List.splitOn_ne_nil _ _)
      | cons piece pieces =>
        rw [hp, List.modifyHead_cons] at h
        rcases List.mem_cons.1 h with rfl | h
        · rintro hmem
          rcases List.mem_cons.1 hmem with heq | hmem
          · exact hx (beq_iff_eq.2 heq.symm)
          · exact notMem_splitOn (c := piece) (by rw [hp]; exact List.mem_cons_self) hmem
        · exact notMem_splitOn (c := c) (by rw [hp]; exact List.mem_cons_of_mem _ h)

theorem isName_of_components (h : c ∈ components path) : IsName c := by
  obtain ⟨hmem, hne⟩ := List.mem_filter.1 h
  exact ⟨by simpa using hne, notMem_splitOn hmem⟩

theorem splitOn_joined : ∀ {ns : List Name}, (∀ c ∈ ns, IsName c) → (joined ns).splitOn slash = [] :: ns
  | [], _ => List.splitOn_nil _
  | c :: ns, h => by
    have hc := h c List.mem_cons_self
    have ih := splitOn_joined fun x hx => h x (List.mem_cons_of_mem _ hx)
    have hcons : joined (c :: ns) = [] ++ slash :: (c ++ joined ns) := by
      unfold joined
      rw [List.flatMap_cons]
      rfl
    rw [hcons, List.splitOn_append_cons_self, List.splitOn_nil]
    refine congrArg ([] :: ·) ?_
    cases ns with
    | nil =>
      rw [show joined [] = [] from rfl, List.append_nil]
      exact List.splitOn_eq_singleton hc.2
    | cons d ns =>
      have hcons' : joined (d :: ns) = slash :: (d ++ joined ns) := by
        unfold joined
        rw [List.flatMap_cons]
        rfl
      rw [hcons'] at ih ⊢
      rw [List.splitOn_append_cons_self, List.splitOn_eq_singleton hc.2]
      rw [show slash :: (d ++ joined ns) = [] ++ slash :: (d ++ joined ns) from rfl, List.splitOn_append_cons_self,
        List.splitOn_nil] at ih
      exact congrArg (c :: ·) (List.cons.inj ih).2

/-- **The names are read back** from their text. -/
theorem components_text (hns : ∀ c ∈ ns, IsName c) : components (text ns) = ns := by
  unfold components text
  split
  · next h =>
    rw [h]
    decide
  · rw [splitOn_joined hns, List.filter_cons_of_neg (by decide)]
    exact List.filter_eq_self.2 fun c hc => decide_eq_true (hns c hc).1

/-! ## The buffer -/

/-- **One more name** in the buffer. -/
theorem extend_buffer (hns : ∀ c ∈ ns, IsName c) (c : Name) : extend (buffer ns) c = buffer (ns ++ [c]) := by
  unfold buffer
  rw [text_concat]
  by_cases h : ns = []
  · rw [h]
    rfl
  have hlen := one_lt_length_text h hns
  rw [text_of_ne_nil h] at hlen ⊢
  unfold extend
  rw [List.length_take]
  by_cases hfull : (joined ns).length < 256
  · rw [if_pos (by omega), List.take_of_length_le (Nat.le_of_lt hfull)]
    dsimp only
    rw [List.length_append, List.length_singleton, List.append_assoc, List.singleton_append, List.take_append,
      List.take_of_length_le (Nat.le_of_lt hfull),
      show 256 - (joined ns).length = 256 - ((joined ns).length + 1) + 1 by omega, List.take_succ_cons]
  · rw [if_neg (by omega)]
    dsimp only
    rw [List.length_take, show 256 - min 256 (joined ns).length = 0 by omega, List.take_zero, List.append_nil,
      List.take_append_of_le_length (by omega)]

theorem slash_notMem_take {n : Nat} (hc : slash ∉ c) : slash ∉ c.take n := fun h => hc (List.mem_of_mem_take h)

theorem stripLast_append (pre c : Name) (hc : slash ∉ c) :
    stripLast (pre ++ slash :: c) = if pre = [] then [slash] else pre := by
  have hdrop : (pre ++ slash :: c).reverse.dropWhile (· ≠ slash) = slash :: pre.reverse := by
    rw [List.reverse_append, List.reverse_cons, List.append_assoc, List.dropWhile_append_of_pos]
    · rw [List.singleton_append, List.dropWhile_cons_of_neg (by simp)]
    · intro x hx
      simp only [ne_eq, decide_not, Bool.not_eq_true', decide_eq_false_iff_not]
      rintro rfl
      exact hc (List.mem_reverse.1 hx)
  unfold stripLast
  rw [hdrop, List.reverse_cons, List.reverse_reverse]
  dsimp only
  by_cases h : pre = []
  · rw [h]
    rfl
  · have hlen : 0 < pre.length := List.length_pos_of_ne_nil h
    rw [if_neg (by rw [List.length_append, List.length_singleton]; omega), if_neg h, List.dropLast_concat]

theorem stripLast_buffer (hc : slash ∉ c) (hfit : (text ns).length ≤ 255) : stripLast (buffer (ns ++ [c])) = text ns := by
  have hlen : (joined ns).length ≤ 255 := by
    by_cases h : ns = []
    · rw [h]
      exact Nat.zero_le _
    · rwa [text_of_ne_nil h] at hfit
  unfold buffer
  rw [text_concat, List.take_append, List.take_of_length_le (by omega),
    show 256 - (joined ns).length = 255 - (joined ns).length + 1 by omega, List.take_succ_cons,
    stripLast_append _ _ (slash_notMem_take hc)]
  by_cases h : ns = []
  · rw [h]
    rfl
  · rw [if_neg (joined_ne_nil h), text_of_ne_nil h]

/-- **Taking the last name off the buffer** gives the text of some directory above, of the next one only if its text fits. -/
theorem stripLast_buffer_above (hns : ∀ c ∈ ns, IsName c) (hne : ns ≠ []) :
    ∃ k, k < ns.length ∧ stripLast (buffer ns) = text (ns.take k) ∧ (text (ns.take k)).length ≤ 255 ∧
      (k + 1 = ns.length → (text ns.dropLast).length ≤ 255) := by
  induction ns using List.reverseRecOn with
  | nil => exact absurd rfl hne
  | append_singleton ns c ih =>
    have hc := hns c (List.mem_append_right _ (List.mem_singleton_self c))
    rw [List.dropLast_concat, List.length_append, List.length_singleton]
    by_cases hfit : (text ns).length ≤ 255
    · refine ⟨ns.length, Nat.lt_succ_self _, ?_, ?_, fun _ => hfit⟩
      · rw [stripLast_buffer hc.2 hfit, List.take_left]
      · rw [List.take_left]
        exact hfit
    · have hnil : ns ≠ [] := fun h => hfit (by rw [h]; decide)
      have hlong : 256 ≤ (joined ns).length := by
        rw [text_of_ne_nil hnil] at hfit
        omega
      obtain ⟨k, hk, hstrip, hlen, -⟩ := ih (fun x hx => hns x (List.mem_append_left _ hx)) hnil
      have hsame : buffer (ns ++ [c]) = buffer ns := by
        unfold buffer
        rw [text_concat, List.take_append_of_le_length hlong, text_of_ne_nil hnil]
      refine ⟨k, Nat.lt_succ_of_lt hk, ?_, ?_, fun heq => by omega⟩
      · rw [hsame, hstrip, List.take_append_of_le_length (Nat.le_of_lt hk)]
      · rw [List.take_append_of_le_length (Nat.le_of_lt hk)]
        exact hlen

end Text

end Zigix.Path
