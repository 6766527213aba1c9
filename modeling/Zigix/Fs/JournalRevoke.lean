import Zigix.Fs.JournalRuns

/-!
# Revoked blocks

* `replay_follows_history` : revoked blocks stay revoked and later writes are replayed, as long as no block is written
  again by the transaction that its revocation is numbered for.
-/

namespace Zigix.Ext3

open Bytes

/-! ## Events -/

section Events

def eventWrites : List Event → List (Nat × Nat × Buf)
  | [] => []
  | .write seq b data :: rest => (seq, b, data) :: eventWrites rest
  | .rev _ _ :: rest => eventWrites rest

def eventRevs : List Event → List RevokeEntry
  | [] => []
  | .write _ _ _ :: rest => eventRevs rest
  | .rev seq b :: rest => ⟨b, seq⟩ :: eventRevs rest

/-- What the replay owes block `b`: the contents of the last committed write behind the last revocation. -/
def lastWrite (committed : Nat → Bool) (b : Nat) (events : List Event) : Option Buf :=
  events.foldl (fun acc ev =>
    match ev with
    | .write seq b' data => if b' = b ∧ committed seq = true then some data else acc
    | .rev _ b' => if b' = b then none else acc) none

/-- The numbers say which of the two came first. -/
def Compatible : Event → Event → Prop
  | .rev q b, .write seq b' _ => b = b' → q < seq
  | .write seq b _, .rev q b' => b = b' → seq < q
  | .write _ _ _, .write _ _ _ => True
  | .rev _ _, .rev _ _ => True

variable {committed : Nat → Bool} {events : List Event}

theorem eventWrites_append (events events' : List Event) :
    eventWrites (events ++ events') = eventWrites events ++ eventWrites events' := by
  induction events with
  | nil => rfl
  | cons ev rest ih =>
    cases ev with
    | write seq b data => rw [List.cons_append, eventWrites, eventWrites, ih, List.cons_append]
    | rev seq b => exact ih

theorem eventRevs_append (events events' : List Event) :
    eventRevs (events ++ events') = eventRevs events ++ eventRevs events' := by
  induction events with
  | nil => rfl
  | cons ev rest ih =>
    cases ev with
    | write seq b data => exact ih
    | rev seq b => rw [List.cons_append, eventRevs, eventRevs, ih, List.cons_append]

theorem mem_eventWrites {w : Nat × Nat × Buf} : w ∈ eventWrites events ↔ .write w.1 w.2.1 w.2.2 ∈ events := by
  induction events with
  | nil => exact ⟨nofun, nofun⟩
  | cons ev rest ih =>
    cases ev with
    | write seq b data =>
      rw [eventWrites, List.mem_cons, List.mem_cons, ih]
      refine or_congr ⟨fun h => by rw [h], fun h => ?_⟩ Iff.rfl
      obtain ⟨h1, h2, h3⟩ := Event.write.inj h
      rw [← h1, ← h2, ← h3]
    | rev seq b =>
      rw [eventWrites, ih, List.mem_cons]
      exact ⟨.inr, fun h => h.resolve_left nofun⟩

theorem mem_eventRevs {r : RevokeEntry} : r ∈ eventRevs events ↔ .rev r.sequence r.fsBlock ∈ events := by
  induction events with
  | nil => exact ⟨nofun, nofun⟩
  | cons ev rest ih =>
    cases ev with
    | write seq b data =>
      rw [eventRevs, ih, List.mem_cons]
      exact ⟨.inr, fun h => h.resolve_left nofun⟩
    | rev seq b =>
      rw [eventRevs, List.mem_cons, List.mem_cons, ih]
      refine or_congr ⟨fun h => by rw [h], fun h => ?_⟩ Iff.rfl
      obtain ⟨h1, h2⟩ := Event.rev.inj h
      rw [← h1, ← h2]

theorem lastTo_filter_congr {b : Nat} {p p' : Nat × Nat × Buf → Bool} {ws : List (Nat × Nat × Buf)}
    (h : ∀ w ∈ ws, w.2.1 = b → p w = p' w) :
    lastTo b ((ws.filter p).map fun w => w.2) = lastTo b ((ws.filter p').map fun w => w.2) := by
  induction ws using List.reverseRecOn with
  | nil => rfl
  | append_singleton ws w ih =>
    have hih := ih fun x hx => h x (List.mem_append_left _ hx)
    have hone : ∀ q : Nat × Nat × Buf → Bool, lastTo b (((ws ++ [w]).filter q).map fun w => w.2) =
        if w.2.1 = b ∧ q w = true then some w.2.2 else lastTo b ((ws.filter q).map fun w => w.2) := by
      intro q
      rw [List.filter_append, List.map_append]
      cases hq : q w with
      | false => simp [hq]
      | true =>
        rw [List.filter_cons, if_pos hq, List.filter_nil, List.map_singleton, lastTo_append]
        simp
    rw [hone, hone, hih]
    by_cases hb : w.2.1 = b
    · rw [h w (by simp) hb]
    · rw [if_neg fun hc => hb hc.1, if_neg fun hc => hb hc.1]

/-- **The filter by numbers is the filter by order**, when the numbers agree with the order. -/
theorem lastTo_unrevoked (b : Nat) (hp : events.Pairwise Compatible) :
    lastTo b (((eventWrites events).filter fun w => committed w.1 && unrevoked (eventRevs events) w).map fun w => w.2) =
      lastWrite committed b events := by
  induction events using List.reverseRecOn with
  | nil => rfl
  | append_singleton events ev ih =>
    rw [List.pairwise_append] at hp
    obtain ⟨hp, -, hlast⟩ := hp
    have hih := ih hp
    rw [eventWrites_append, eventRevs_append, lastWrite, List.foldl_append]
    change _ = (match ev with
      | .write seq b' data => if b' = b ∧ committed seq = true then some data else lastWrite committed b events
      | .rev _ b' => if b' = b then none else lastWrite committed b events)
    cases ev with
    | write seq b' data =>
      simp only [eventWrites, eventRevs, List.append_nil]
      have hun : b' = b → unrevoked (eventRevs events) (seq, b', data) = true := by
        intro _
        unfold unrevoked
        rw [Bool.not_eq_true', List.any_eq_false]
        intro r hr hk
        unfold kills at hk
        rw [Bool.and_eq_true, decide_eq_true_iff, beq_iff_eq] at hk
        have := hlast _ (mem_eventRevs.1 hr) _ (List.mem_singleton_self _) hk.1
        omega
      rw [List.filter_append, List.map_append, ← hih]
      by_cases hcond : b' = b ∧ committed seq = true
      · obtain ⟨rfl, hc⟩ := hcond
        have hkeep : ((committed (seq, b', data).1) && unrevoked (eventRevs events) (seq, b', data)) = true := by
          rw [hun rfl, Bool.and_true]
          exact hc
        rw [List.filter_cons, if_pos hkeep, List.filter_nil, List.map_singleton, lastTo_append, if_pos rfl,
          if_pos ⟨rfl, hc⟩]
      · rw [if_neg hcond]
        rw [List.filter_cons]
        split
        · next hkeep =>
          rw [Bool.and_eq_true] at hkeep
          rw [List.filter_nil, List.map_singleton, lastTo_append, if_neg fun hb => hcond ⟨hb, hkeep.1⟩]
        · rw [List.filter_nil, List.map_nil, List.append_nil]
    | rev q b' =>
      simp only [eventWrites, eventRevs, List.append_nil]
      by_cases hb : b' = b
      · subst hb
        rw [if_pos rfl]
        refine lastTo_eq_none.2 fun x hx heq => ?_
        obtain ⟨w, hw, rfl⟩ := List.mem_map.1 hx
        obtain ⟨hw, hkeep⟩ := List.mem_filter.1 hw
        have hlt := hlast _ (mem_eventWrites.1 hw) _ (List.mem_singleton_self _) heq
        rw [Bool.and_eq_true] at hkeep
        have hun := hkeep.2
        unfold unrevoked at hun
        rw [Bool.not_eq_true', List.any_eq_false] at hun
        refine hun ⟨b', q⟩ (List.mem_append_right _ (List.mem_singleton_self _)) ?_
        unfold kills
        rw [Bool.and_eq_true, decide_eq_true_iff, beq_iff_eq]
        exact ⟨heq.symm, Nat.le_of_lt hlt⟩
      · rw [if_neg hb, ← hih]
        refine lastTo_filter_congr fun w _ hwb => ?_
        have hother : kills ⟨b', q⟩ w.1 w.2.1 = false := by
          unfold kills
          rw [Bool.and_eq_false_iff]
          left
          rw [hwb]
          exact beq_eq_false_iff_ne.2 hb
        unfold unrevoked
        rw [List.any_append, List.any_cons, hother]
        simp

end Events

/-! ## Runs -/

section Revoked
variable {j₀ j : Journal} {h : History}

def Settled (j₀ : Journal) (h : History) (j : Journal) : Op → Prop
  | .start _ => True
  | .writeBlock _ b => ¬ InJournal j₀.state b.toNat ∧
    ∀ r ∈ revs h.records, r.fsBlock = b.toNat → r.sequence < j.handle.sequence
  | .stop ok => j.handle.active = true →
    j.handle.queued ≠ [] ∧ (∀ i, i < j.handle.queued.length + 2 → ok i = true) ∧
      (written j₀.state j.device).length + j.handle.queued.length + 2 ≤ j₀.state.maxBlocks - j₀.state.firstBlock ∧
      queuedCount h.records + j.handle.queued.length ≤ maxReplayEntries
  | .revoke _ _ => (written j₀.state j.device).length + 1 ≤ j₀.state.maxBlocks - j₀.state.firstBlock ∧
    (revs h.records).length < maxRevokeEntries

theorem Settled.orderly {op : Op} (ht : Tidy (nextSeq j₀ h) j) (ha : Settled j₀ h j op) : Orderly j₀ h j op := by
  cases op with
  | start n =>
    intro hidle
    rw [Tidy, hidle] at ht
    exact ht
  | writeBlock data b => exact ha.1
  | stop ok => exact fun hactive _ => ⟨(ha hactive).2.2.1, (ha hactive).2.2.2⟩
  | revoke ok b => exact ha.1

theorem okCount_of_all {ok : Nat → Bool} {n : Nat} (h : ∀ i, i < n → ok i = true) : okCount ok n = n := by
  induction n generalizing ok with
  | zero => rfl
  | succ n ih => rw [okCount, if_pos (h 0 (Nat.zero_lt_succ n)), ih fun i hi => h (i + 1) (Nat.succ_lt_succ hi)]

theorem Settled.stop_cases {ok : Nat → Bool} (ha : Settled j₀ h j (.stop ok)) :
    (j.handle.active = false ∧ stop ok j = (false, j)) ∨
      (j.handle.active = true ∧ (stop ok j).1 = true ∧ j.handle.queued.isEmpty = false ∧
        (stop ok j).2.handle.active = false ∧ (stop ok j).2.state.sequence = j.state.sequence) := by
  cases hactive : j.handle.active with
  | false => exact .inl ⟨rfl, by simp [Ext3.stop, hactive]⟩
  | true =>
    obtain ⟨hne, hok, -, -⟩ := ha hactive
    have hlen : j.txBufs.length = j.handle.queued.length + 2 := txBlocks_length _ _ _
    rw [stop_eq ok hactive hne, if_pos (okCount_of_all (by rw [hlen]; exact hok))]
    refine .inr ⟨rfl, rfl, ?_, rfl, rfl⟩
    rw [Bool.eq_false_iff]
    exact fun he => hne (List.isEmpty_iff.1 he)

theorem revoke_cases (ok : Bool) (b : Nat) (hactive : j.state.active = true) :
    (revoke ok b j = (false, j)) ∨
      ((revoke ok b j).1 = true ∧ (revoke ok b j).2.handle = j.handle ∧
        (revoke ok b j).2.state.sequence = j.state.sequence) := by
  unfold revoke
  rw [hactive]
  cases ok with
  | false => exact .inl rfl
  | true => exact .inr ⟨rfl, rfl, rfl⟩

structure Ordered (j₀ : Journal) (h : History) (j : Journal) : Prop where
  tidy : Tidy (nextSeq j₀ h) j
  writes : eventWrites h.events = writesOf h.records ++
    if j.handle.active then j.handle.queued.map fun q => (j.handle.sequence, q.1, q.2) else []
  revs : eventRevs h.events = revs h.records
  pairwise : h.events.Pairwise Compatible
  below : ∀ w ∈ eventWrites h.events, w.1 < j.state.sequence
  few : (Ext3.revs h.records).length ≤ maxRevokeEntries
  home : ∀ w ∈ eventWrites h.events, ¬ InJournal j₀.state w.2.1

theorem writesOf_append (recs recs' : List Record) : writesOf (recs ++ recs') = writesOf recs ++ writesOf recs' := by
  rw [writesOf, txs_append, List.flatMap_append]
  rfl

theorem Ordered.start (ho : Ordered j₀ h j) {n : Nat} {res : Bool} {j' : Journal} (hres : start n j = some (res, j')) :
    Ordered j₀ h j' := by
  rcases start_cases hres with ⟨-, rfl⟩ | ⟨-, hidle, -, rfl⟩
  · exact ho
  · have hseq : j.state.sequence = nextSeq j₀ h := by
      have ht := ho.tidy
      rw [Tidy, hidle] at ht
      exact ht
    refine ⟨⟨hseq, by rw [hseq]⟩, ?_, ho.revs, ho.pairwise, fun w hw => Nat.lt_succ_of_lt (ho.below w hw), ho.few,
      ho.home⟩
    have hw := ho.writes
    rw [hidle] at hw
    exact hw

theorem Ordered.writeBlock (ho : Ordered j₀ h j) {data : Buf} {b : BitVec 32} (ha : Settled j₀ h j (.writeBlock data b)) :
    Ordered j₀ (h.add j (writeBlock data b.toNat j).1 (.writeBlock data b)) (writeBlock data b.toNat j).2 := by
  unfold Ext3.writeBlock
  split
  · exact ho
  · next hactive =>
    have hactive : j.handle.active = true := by simpa using hactive
    split
    · exact ho
    · have ht := ho.tidy
      rw [Tidy, hactive, if_pos rfl] at ht
      have hlt : j.handle.sequence < j.state.sequence := by omega
      have hwrites : eventWrites (h.events ++ [.write j.handle.sequence b.toNat data]) =
          eventWrites h.events ++ [(j.handle.sequence, b.toNat, data)] := eventWrites_append _ _
      refine ⟨ho.tidy, ?_, ?_, ?_, ?_, ho.few, ?_⟩
      · show eventWrites (h.events ++ [.write j.handle.sequence b.toNat data]) = writesOf h.records ++
          if j.handle.active then (j.handle.queued ++ [(b.toNat, data)]).map fun q => (j.handle.sequence, q.1, q.2) else []
        rw [hwrites, ho.writes, hactive, if_pos rfl, if_pos rfl, List.map_append, List.append_assoc]
        rfl
      · show eventRevs (h.events ++ [.write j.handle.sequence b.toNat data]) = _
        rw [eventRevs_append, ho.revs]
        exact List.append_nil _
      · refine List.pairwise_append.2 ⟨ho.pairwise, List.pairwise_singleton _ _, fun ev hev x hx => ?_⟩
        rw [List.mem_singleton.1 hx]
        cases ev with
        | write seq b' data' => trivial
        | rev q b' =>
          intro hb
          have hmem : (⟨b', q⟩ : RevokeEntry) ∈ Ext3.revs h.records := by
            rw [← ho.revs]
            exact mem_eventRevs.2 hev
          exact ha.2 _ hmem hb
      · show ∀ w ∈ eventWrites (h.events ++ [.write j.handle.sequence b.toNat data]), w.1 < j.state.sequence
        rw [hwrites]
        refine List.forall_mem_append.2 ⟨ho.below, fun w hw => ?_⟩
        rw [List.mem_singleton.1 hw]
        exact hlt
      · show ∀ w ∈ eventWrites (h.events ++ [.write j.handle.sequence b.toNat data]), ¬ InJournal j₀.state w.2.1
        rw [hwrites]
        refine List.forall_mem_append.2 ⟨ho.home, fun w hw => ?_⟩
        rw [List.mem_singleton.1 hw]
        exact ha.1

theorem Ordered.stop (ho : Ordered j₀ h j) {ok : Nat → Bool} (ha : Settled j₀ h j (.stop ok)) :
    Ordered j₀ (h.add j (stop ok j).1 (.stop ok)) (stop ok j).2 := by
  rcases ha.stop_cases with ⟨-, hstop⟩ | ⟨hactive, hres, hne, hidle, hseq⟩
  · rw [hstop]
    exact ho
  · have hadd : h.add j (Ext3.stop ok j).1 (.stop ok) =
        { h with records := h.records ++ [.tx j.handle.sequence j.handle.queued] } := by
      simp [History.add, hres, hne]
    rw [hadd]
    have ht := ho.tidy
    rw [Tidy, hactive, if_pos rfl] at ht
    refine ⟨?_, ?_, ?_, ho.pairwise, ?_, ?_, ho.home⟩
    · rw [Tidy, hidle, if_neg Bool.false_ne_true, hseq, nextSeq, txs_append, List.length_append]
      exact ht.2
    · have hw := ho.writes
      rw [hactive, if_pos rfl] at hw
      rw [hidle, if_neg Bool.false_ne_true, List.append_nil, writesOf_append, hw]
      exact congrArg _ (List.flatMap_singleton _ _).symm
    · show _ = Ext3.revs (h.records ++ [.tx j.handle.sequence j.handle.queued])
      rw [revs_append, ho.revs]
      exact (List.append_nil _).symm
    · rw [hseq]
      exact ho.below
    · show (Ext3.revs (h.records ++ [.tx j.handle.sequence j.handle.queued])).length ≤ _
      rw [revs_append]
      exact Nat.le_trans (Nat.le_of_eq (congrArg List.length (List.append_nil _))) ho.few

theorem Ordered.revoke (ho : Ordered j₀ h j) (hstate : j.state.active = true) {ok : Bool} {b : BitVec 32}
    (ha : Settled j₀ h j (.revoke ok b)) :
    Ordered j₀ (h.add j (revoke ok b.toNat j).1 (.revoke ok b)) (revoke ok b.toNat j).2 := by
  rcases revoke_cases ok b.toNat hstate with hrev | ⟨hres, hhandle, hseq⟩
  · rw [hrev]
    exact ho
  · have hadd : h.add j (Ext3.revoke ok b.toNat j).1 (.revoke ok b) =
        { records := h.records ++ [.rev j.state.sequence b.toNat]
          events := h.events ++ [.rev j.state.sequence b.toNat] } := by
      simp [History.add, hres]
    have htxs : txs (h.records ++ [.rev j.state.sequence b.toNat]) = txs h.records := by
      rw [txs_append]
      exact List.append_nil _
    have hwrites : eventWrites (h.events ++ [.rev j.state.sequence b.toNat]) = eventWrites h.events := by
      rw [eventWrites_append]
      exact List.append_nil _
    have hrevs : Ext3.revs (h.records ++ [.rev j.state.sequence b.toNat]) =
        Ext3.revs h.records ++ [⟨b.toNat, j.state.sequence⟩] := revs_append _ _
    rw [hadd]
    refine ⟨?_, ?_, ?_, ?_, ?_, ?_, by rw [hwrites]; exact ho.home⟩
    · have ht := ho.tidy
      rw [Tidy, hhandle, hseq, nextSeq, htxs]
      exact ht
    · rw [hwrites, hhandle, writesOf, htxs]
      exact ho.writes
    · show eventRevs (h.events ++ [.rev j.state.sequence b.toNat]) = _
      rw [eventRevs_append, ho.revs, hrevs]
      rfl
    · refine List.pairwise_append.2 ⟨ho.pairwise, List.pairwise_singleton _ _, fun ev hev x hx => ?_⟩
      rw [List.mem_singleton.1 hx]
      cases ev with
      | rev q b' => trivial
      | write seq b' data =>
        intro _
        refine ho.below (seq, b', data) ?_
        exact mem_eventWrites.2 hev
    · rw [hwrites, hseq]
      exact ho.below
    · show (Ext3.revs (h.records ++ [.rev j.state.sequence b.toNat])).length ≤ _
      rw [hrevs, List.length_append]
      exact ha.2

theorem run_ordered (hr : Ready j₀) (hrun : Run (Settled j₀) j₀ h j) : Inv j₀ h j ∧ Ordered j₀ h j := by
  induction hrun with
  | init =>
    refine ⟨hr.inv, ?_, ?_, rfl, .nil, nofun, Nat.zero_le _, nofun⟩
    · rw [Tidy, hr.idle]
      rfl
    · rw [hr.idle]
      rfl
  | @step h j j' op res _ ha hres ih =>
    obtain ⟨hi, ho⟩ := ih
    refine ⟨hi.step hr (ha.orderly ho.tidy) hres, ?_⟩
    cases op with
    | start n => exact ho.start hres
    | writeBlock data b =>
      obtain ⟨rfl, rfl⟩ := eq_of_some_pair hres
      exact ho.writeBlock ha
    | stop ok =>
      obtain ⟨rfl, rfl⟩ := eq_of_some_pair hres
      exact ho.stop ha
    | revoke ok b =>
      obtain ⟨rfl, rfl⟩ := eq_of_some_pair hres
      exact ho.revoke hi.active ha

theorem numbered_mem {e : Nat} {recs : List Record} (hn : Numbered e recs) {t : Nat × List (Nat × Buf)}
    (ht : t ∈ txs recs) : e ≤ t.1 ∧ t.1 < e + (txs recs).length := by
  induction recs generalizing e with
  | nil => cases ht
  | cons r recs ih =>
    cases r with
    | tx seq queued =>
      obtain ⟨rfl, hn⟩ := hn
      rw [txs, List.length_cons]
      rcases List.mem_cons.1 ht with rfl | ht
      · exact ⟨le_rfl, by show seq < _; omega⟩
      · have := ih hn ht
        omega
    | rev seq b => exact ih hn ht

theorem tailBlock_image {bs e : Nat} {recs : List Record} {buf : Buf} (hfits : ∀ r ∈ recs, r.Fits bs)
    (hseq : ∀ t ∈ txs recs, t.1 < e) (he : e < 2 ^ 32) (hmem : buf ∈ image bs recs) :
    TailBlock e (fun y => y ∈ Ext3.revs recs) buf := by
  induction recs with
  | nil => cases hmem
  | cons r recs ih =>
    rw [image_cons] at hmem
    have hrest := ih fun r hr => hfits r (List.mem_cons_of_mem _ hr)
    cases r with
    | tx seq queued =>
      rcases List.mem_append.1 hmem with hmem | hmem
      · have hlt : seq < e := hseq (seq, queued) List.mem_cons_self
        exact tailBlock_txBlocks _ (Nat.lt_trans hlt he) (Nat.ne_of_lt hlt) hmem
      · exact hrest (fun t ht => hseq t (List.mem_cons_of_mem _ ht)) hmem
    | rev seq b =>
      rcases List.mem_append.1 hmem with hmem | hmem
      · obtain ⟨hs, hb⟩ := hfits _ List.mem_cons_self
        obtain ⟨-, htype, hs', hcount, hfs⟩ := revokeBlock_fields hs hb
        rw [List.mem_singleton.1 hmem]
        intro _
        rw [htype, hcount, hs']
        refine ⟨fun hc => absurd hc (by decide), fun _ => ⟨by decide, fun off h1 h2 => ?_⟩⟩
        obtain rfl : off = 16 := by omega
        rw [hfs]
        exact List.mem_cons_self
      · exact (hrest hseq hmem).mono fun y hy => List.mem_cons_of_mem _ hy

theorem mem_writesOf {recs : List Record} {w : Nat × Nat × Buf} (hw : w ∈ writesOf recs) :
    ∃ t ∈ txs recs, t.1 = w.1 ∧ w.2 ∈ t.2 := by
  obtain ⟨t, ht, hw⟩ := List.mem_flatMap.1 hw
  obtain ⟨q, hq, rfl⟩ := List.mem_map.1 hw
  exact ⟨t, ht, rfl, hq⟩

def isCommitted (h : History) (seq : Nat) : Bool := decide (seq ∈ (txs h.records).map fun t => t.1)

/-- **Replay and revocation.** In every state of a run whose calls are settled, the replay of the journal writes to each
block what its last committed write behind its last revocation put there, and nothing when there is none. -/
theorem replay_follows_history (hr : Ready j₀) (hrun : Run (Settled j₀) j₀ h j) {d : Device}
    (hd : ∀ b, InJournal j₀.state b → d.blocks b = j.device.blocks b) :
    ∃ ws, replayed j₀.state d = some (d.writeAll ws) ∧ ∀ b, lastTo b ws = lastWrite (isCommitted h) b h.events := by
  obtain ⟨hi, ho⟩ := run_ordered hr hrun
  obtain ⟨pre, post, hrec, hpost, -, hfull⟩ := hi.records
  obtain ⟨rfl, himage⟩ := hfull ho.tidy
  rw [List.append_nil] at hrec
  subst hrec
  have hroom := hi.core.room
  have hnext := hi.nextSeq_le
  have hlt : nextSeq j₀ h < 2 ^ 32 := by
    unfold u32Max at hnext
    omega
  have hseq : ∀ t ∈ txs h.records, j₀.state.sequence ≤ t.1 ∧ t.1 < nextSeq j₀ h := fun t ht => numbered_mem hi.numbered ht
  have hblock : ∀ {pos}, InRing j₀.state pos →
      d.blocks (j₀.state.journalToDisk pos) = j.device.blocks (j₀.state.journalToDisk pos) := fun hpos => hd _ hpos.inJournal
  have hrecorded : Recorded j₀.state d.blocks h.records
      fun y => ∀ w ∈ writesOf h.records, kills y w.1 w.2.1 = true → unrevoked (Ext3.revs h.records) w = false := by
    refine
      { ring := hr.ring
        bs := Nat.le_trans (by decide) hr.bs
        holds := ?_
        numbered := hi.numbered
        fits := hi.fits
        length := by rw [himage]; omega
        sequence := hnext
        entries := hi.entries
        tail := fun pos hpos => ?_ }
    · rw [himage]
      refine holds_iff.2 fun i hlt => ?_
      rw [hblock (hr.ring.iterate i)]
      exact holds_iff.1 hi.core.holds i hlt
    · rw [hblock hpos]
      rcases hi.block hr hpos with hmem | hold
      · rw [← himage] at hmem
        refine (tailBlock_image hi.fits (fun t ht => (hseq t ht).2) hlt hmem).mono fun y hy w _ hk => ?_
        unfold unrevoked
        rw [Bool.not_eq_false', List.any_eq_true]
        exact ⟨y, hy, hk⟩
      · refine (hold.tailBlock (Nat.le_add_right _ _)).mono fun y hy w hw hk => ?_
        -- an old revocation is numbered below every transaction
        obtain ⟨t, ht, hwt, -⟩ := mem_writesOf hw
        have := (hseq t ht).1
        unfold kills at hk
        rw [Bool.and_eq_true, decide_eq_true_iff] at hk
        omega
  have hout : ∀ w ∈ writesOf h.records, ¬ InJournal j₀.state w.2.1 := by
    intro w hw
    refine ho.home w ?_
    rw [ho.writes]
    exact List.mem_append_left _ hw
  refine ⟨_, replayed_eq hrecorded ho.few hout, fun b => ?_⟩
  -- the committed writes are those of the events that are numbered as committed
  have hcommitted : writesOf h.records = (eventWrites h.events).filter fun w => isCommitted h w.1 := by
    rw [ho.writes, List.filter_append]
    have hin : (writesOf h.records).filter (fun w => isCommitted h w.1) = writesOf h.records := by
      refine List.filter_eq_self.2 fun w hw => ?_
      obtain ⟨t, ht, hwt, -⟩ := mem_writesOf hw
      exact decide_eq_true (List.mem_map.2 ⟨t, ht, hwt⟩)
    have hopen : (if j.handle.active then j.handle.queued.map fun q => (j.handle.sequence, q.1, q.2) else []).filter
        (fun w => isCommitted h w.1) = [] := by
      refine List.filter_eq_nil_iff.2 fun w hw hc => ?_
      split at hw
      · next hactive =>
        obtain ⟨q, -, rfl⟩ := List.mem_map.1 hw
        obtain ⟨t, ht, htq⟩ := List.mem_map.1 (of_decide_eq_true hc)
        have hopen := (hi.tidy_of_active hactive).1
        have hbelow := (hseq t ht).2
        have htq : t.1 = j.handle.sequence := htq
        omega
      · cases hw
    rw [hin, hopen, List.append_nil]
  rw [hcommitted, List.filter_filter, ← ho.revs, ← lastTo_unrevoked b ho.pairwise]
  refine congrArg (lastTo b) (congrArg _ (List.filter_congr fun w _ => ?_))
  rw [Bool.and_comm]

end Revoked

/-! ## A block that is written again -/

instance (j₀ : Journal) (h : History) (j : Journal) : (op : Op) → Decidable (Settled j₀ h j op)
  | .start _ => inferInstanceAs (Decidable True)
  | .writeBlock _ _ => inferInstanceAs (Decidable (_ ∧ ∀ r ∈ _, _))
  | .stop _ => inferInstanceAs (Decidable (_ → _ ∧ (∀ i, i < _ → _) ∧ _ ∧ _))
  | .revoke _ _ => inferInstanceAs (Decidable (_ ∧ _))

def rewritten : List Op :=
  [.start 1, .writeBlock (fun _ => 7) 5, .stop allOk, .revoke true 5, .start 1, .writeBlock (fun _ => 8) 5, .stop allOk]

/-- The revocation carries the number of the next transaction, and takes that one's write of the block with it. -/
theorem revoke_kills_next :
    ∃ h j, Run (fun _ _ _ => True) blank h j ∧
      ¬ ∃ ws, replayed blank.state j.device = some (j.device.writeAll ws) ∧
        ∀ b, lastTo b ws = lastWrite (isCommitted h) b h.events := by
  have hrun : (runOps (fun _ _ _ => True) rewritten ⟨[], []⟩ blank).map (fun r =>
      ((lastWrite (isCommitted r.1) 5 r.1.events).isSome,
        decide ((replayed blank.state r.2.device).map (fun d => d.log.length) = some r.2.device.log.length))) =
      some (true, true) := by decide +kernel
  obtain ⟨⟨h, j⟩, hops, hval⟩ := Option.map_eq_some_iff.1 hrun
  obtain ⟨howed, hlog⟩ := Prod.mk.inj hval
  refine ⟨h, j, run_of_runOps _ .init hops, ?_⟩
  rintro ⟨ws, hws, hall⟩
  have hlog := of_decide_eq_true hlog
  have hws : replayed blank.state j.device = some (j.device.writeAll ws) := hws
  rw [hws, Option.map_some, writeAll_log, List.length_append] at hlog
  have hlen : j.device.log.length + ws.length = j.device.log.length := Option.some.inj hlog
  have hnil : ws = [] := List.eq_nil_of_length_eq_zero (by omega)
  have h5 := hall 5
  rw [hnil] at h5
  have howed : (lastWrite (isCommitted h) 5 h.events).isSome = true := howed
  rw [← h5] at howed
  cases howed

/-- With another transaction in between the block is replayed. -/
theorem replay_follows_history_later :
    ∃ (h : History) (j : Journal) (ws : List (Nat × Buf)), (txs h.records).length = 3 ∧
      replayed blank.state j.device = some (j.device.writeAll ws) ∧
      ∀ b, lastTo b ws = lastWrite (isCommitted h) b h.events := by
  have hrun : (runOps (Settled blank) [.start 1, .writeBlock (fun _ => 7) 5, .stop allOk, .revoke true 5,
      .start 1, .writeBlock (fun _ => 9) 6, .stop allOk, .start 1, .writeBlock (fun _ => 8) 5, .stop allOk]
      ⟨[], []⟩ blank).map (fun r => (txs r.1.records).length) = some 3 := by decide +kernel
  obtain ⟨⟨h, j⟩, hops, hcount⟩ := Option.map_eq_some_iff.1 hrun
  obtain ⟨ws, hws⟩ := replay_follows_history blank_ready (run_of_runOps _ .init hops) fun _ _ => rfl
  exact ⟨h, j, ws, hcount, hws⟩

end Zigix.Ext3
