import Quitsies.Service.AddRace

/-!
# How often a removal is acknowledged

`DELETE` answers from its `get` and then deletes whatever is there, without the
mutex. The count of acknowledged removals is kept in three steps: a `DELETED`
answers for a `del` of its own, the `del`s that returned are at most those that
were performed, and each of those takes one arrival of the key away, unless two
requests have found the same one.
-/

namespace Quitsies.Service

open Text Interaction Db Tcp
open Pool (events performed returned)

variable {ι : Type}

/-- Client `j` has found `k` and deletes it next. -/
def AboutToDel (s : Clients ι) (j : ι) (k : Bytes) : Prop :=
  ∃ q past next, s.client j = .busy q past (.call (.del k) next)

/-- A `del` of a key comes while no other `DELETE` is between its `get` and its
`del` of the same key. -/
def DeletesApart (t : Move ι) : Prop :=
  ∀ i q e k, t.label = .perform i q e → e.1 = .del k → ∀ j, j ≠ i → ¬ AboutToDel t.before j k

/-- What a `DELETE` is about to delete is there. -/
def Found (s : Clients ι) : Prop := ∀ j k, AboutToDel s j k → s.world.map k ≠ none

/-! ## Counting -/

section Counts

variable (k : Bytes)

/-- The calls that remove `k` and are acknowledged. -/
def removes (_ : Operation) : StoreEvent → Bool
  | ⟨.del key, res⟩ => key == k && acknowledged res
  | ⟨.get _, _⟩ => false
  | ⟨.put _ _, _⟩ => false
  | ⟨.lock, _⟩ => false
  | ⟨.unlock, _⟩ => false

instance : DecidablePred (Operation.DeleteOf k)
  | .tcp _ => inferInstanceAs (Decidable (_ ∧ _ ∧ _))
  | .httpGet _ => inferInstanceAs (Decidable False)
  | .httpPut _ _ => inferInstanceAs (Decidable False)
  | .httpPost _ _ => inferInstanceAs (Decidable False)

/-- A `DELETE` of `k` that answers `DELETED`. -/
def answersDeleted : Action ι World Operation StoreCall StoreResult Reply → Bool
  | .start _ _ => false
  | .perform _ _ _ => false
  | .finish _ q _ a => decide (q.DeleteOf k) && a.line == deleted

def present (m : Contents) : Nat := if (m k).isSome then 1 else 0

/-- A step in which `k` goes from absent to present. -/
def arrives (t : Move ι) : Bool := (t.before.world.map k).isNone && (t.after.world.map k).isSome

/-- The requests that have answered `DELETED`. -/
def deletedCount (ts : List (Move ι)) : Nat := ts.countP fun t => answersDeleted k t.label

/-- How often `k` has arrived, counting its presence at the start. -/
def arrivals (m : Contents) (ts : List (Move ι)) : Nat := present k m + ts.countP (arrives k)

end Counts

/-- A `DELETE` that answers `DELETED` has had its `del` acknowledged. -/
theorem DeleteTrace.removes_of_deleted {key line : Bytes} {es : List StoreEvent} (q : Operation)
    (h : DeleteTrace key es (.inr line)) (hline : line = deleted) :
    ∃ e ∈ es, removes key q e = true := by
  cases h with
  | getThrew what => exact absurd hline (errorLine_ne (by decide) what)
  | absent s v hok => exact absurd hline (by decide)
  | delThrew s v what hok => exact absurd hline (errorLine_ne (by decide) what)
  | left s s' v hok =>
    cases hs' : s'.ok with
    | true => exact ⟨⟨.del key, .ok s'⟩, by simp, by simp [removes, acknowledged, hs']⟩
    | false =>
      rw [hs'] at hline
      exact absurd hline (errorLine_ne (by decide) s'.msg)

variable [DecidableEq ι] {offered : Operation → Prop}

/-- Each `DELETED` answers for a `del` that its request performed. -/
theorem deletedCount_le_returned {allow : World → StoreEvent → World → Prop} {m : Contents}
    {ts : List (Move ι)} {s : Clients ι} (h : Runs allow offered m ts s) (k : Bytes) :
    deletedCount k ts ≤ returned (removes k) ts := by
  apply Pool.count_le_returned
  intro t ht hanswer
  cases hl : t.label with
  | start i q => rw [hl] at hanswer; cases hanswer
  | perform i q e => rw [hl] at hanswer; cases hanswer
  | finish i q past a =>
    rw [hl, answersDeleted, Bool.and_eq_true, decide_eq_true_eq, beq_iff_eq] at hanswer
    obtain ⟨hq, hline⟩ := hanswer
    obtain ⟨-, hperforms, -⟩ := Pool.finished_run h ht hl
    have htrace : DeleteTrace k (events past) (.inr a.line) := delete_reaches hq hperforms
    obtain ⟨e, he, hremoves⟩ := htrace.removes_of_deleted q hline
    obtain ⟨we, hwe, rfl⟩ := List.mem_map.mp he
    exact List.countP_pos_iff.mpr ⟨we, hwe, hremoves⟩

/-! ## What a step does -/

theorem found_step {s s' : Clients ι}
    {l : Action ι World Operation StoreCall StoreResult Reply}
    (ht : Pool.OnTrack Operation.program offered s) (h : Found s)
    (hs : Pool.Step Operation.program HonestEffect offered s l s')
    (hok : DeletesApart ⟨s, l, s'⟩) : Found s' := by
  have ht' := Pool.onTrack_step Operation.program HonestEffect offered ht hs
  intro j k hj
  obtain ⟨q, past, next, hclient⟩ := hj
  have hreaches := (ht' j q past _ hclient).2
  obtain ⟨-, st, v, hst, hes⟩ := (delete_reaches (del_caller hreaches) hreaches).of_del
  rcases hs.busy_inv hclient with ⟨hsame, hother⟩ | ⟨-, rfl, -⟩ | ⟨past', e, next', rfl, -, rfl, -⟩
  · have hj : AboutToDel s j k := ⟨q, past, next, hsame⟩
    have hthere := h j k hj
    rcases hs.world_inv with hworld | ⟨i, q', past', e, next', rfl, hi, heffect, -⟩
    · rwa [hworld]
    · by_cases hdel : e.1 = .del k
      · have hij : j ≠ i := by
          rintro rfl
          obtain ⟨rfl, -, -⟩ := Client.busy.inj (hsame.symm.trans hi)
          exact hother e rfl
        exact absurd hj (hok i q' e k rfl hdel j hij)
      · by_cases hput : ∃ value, e.1 = .put k value
        · obtain ⟨value, he⟩ := hput
          rcases heffect.map_put he with hbound | hsame
          · rw [hbound]
            exact nofun
          · rwa [hsame]
        · rwa [heffect.frame (fun value he => hput ⟨value, he⟩) hdel]
  · cases hes
  · -- the client's own `get` has just shown it the key
    obtain ⟨-, -, -, ⟨heffect, hhonest⟩, -⟩ := hs.perform_inv
    obtain rfl : e = ⟨.get k, .ok (st, v)⟩ := by
      have hlast := congrArg List.getLast? hes
      simpa using hlast
    rw [heffect.frame nofun nofun, hhonest.1 hst]
    exact nofun

/-- An acknowledged removal takes away a key that was there. -/
theorem removal_balance {s s' : Clients ι}
    {l : Action ι World Operation StoreCall StoreResult Reply} (h : Found s)
    (hs : Pool.Step Operation.program HonestEffect offered s l s') (k : Bytes) :
    Pool.performedBy (removes k) l + present k s'.world.map ≤
      present k s.world.map + if arrives k ⟨s, l, s'⟩ then 1 else 0 := by
  by_cases hp : Pool.performedBy (removes k) l = 0
  · rw [hp]
    unfold present arrives
    cases hb : s.world.map k <;> cases ha : s'.world.map k <;> simp
  · cases l with
    | start i q => exact absurd rfl hp
    | finish i q past a => exact absurd rfl hp
    | perform i q e =>
      obtain ⟨past, next, hi, ⟨heffect, -⟩, -⟩ := hs.perform_inv
      obtain ⟨c, res⟩ := e
      cases c with
      | get key => exact absurd rfl hp
      | put key value => exact absurd rfl hp
      | lock => exact absurd rfl hp
      | unlock => exact absurd rfl hp
      | del key =>
        have hremoves : key = k ∧ acknowledged res = true := by
          by_contra hn
          refine hp (if_neg fun hr => hn ?_)
          simpa [removes] using hr
        obtain ⟨rfl, hack⟩ := hremoves
        have hgone := heffect.acknowledged_del hack
        have hthere := h i key ⟨q, past, next, hi⟩
        obtain ⟨value, hvalue⟩ := Option.ne_none_iff_exists'.mp hthere
        have hone := Pool.performedBy_le_one (removes key)
          (.perform i q ⟨.del key, res⟩ : Action ι World Operation StoreCall StoreResult Reply)
        simp only [present, hgone, hvalue, Option.isSome_none, Option.isSome_some]
        simp only [Bool.false_eq_true, ↓reduceIte]
        omega

/-! ## Over a run -/

section Runs

variable {m : Contents} {ts : List (Move ι)} {s : Clients ι}

/-- Removals and what is left of the key are covered by its arrivals. -/
theorem removals_le_arrivals (h : Runs HonestEffect offered m ts s)
    (hok : ∀ t ∈ ts, DeletesApart t) (k : Bytes) :
    performed (removes k) ts + present k s.world.map ≤ arrivals k m ts := by
  refine (Run.history DeletesApart (fun ts s => Found s ∧
    performed (removes k) ts + present k s.world.map ≤ arrivals k m ts) ?_ ?_ h hok).2
  · refine ⟨?_, ?_⟩
    · intro j k hdel
      obtain ⟨q, past, next, hj⟩ := hdel
      cases hj
    · simp [performed, arrivals, Pool.initial]
  · intro ts s l s' hrun ih hs hapart
    obtain ⟨hfound, ih⟩ := ih
    refine ⟨found_step (Pool.onTrack_run hrun) hfound hs hapart, ?_⟩
    have hbalance := removal_balance hfound hs k
    have hperformed : performed (removes k) (ts ++ [⟨s, l, s'⟩]) =
        performed (removes k) ts + Pool.performedBy (removes k) l := by
      simp [performed]
    have harrivals : arrivals k m (ts ++ [⟨s, l, s'⟩]) =
        arrivals k m ts + if arrives k ⟨s, l, s'⟩ then 1 else 0 := by
      unfold arrivals
      rw [List.countP_append, List.countP_singleton]
      omega
    omega

/-- **One removal, one acknowledgement**, in every run of any number of clients in
which no `del` of a key comes between the `get` and the `del` of another `DELETE`. -/
theorem deletedCount_le_arrivals (h : Runs HonestEffect Operation.Parsed m ts s)
    (hok : ∀ t ∈ ts, DeletesApart t) (k : Bytes) : deletedCount k ts ≤ arrivals k m ts := by
  have hanswers := deletedCount_le_returned h k
  have hledger := Pool.returned_le_performed (removes k) h
  have hremovals := removals_le_arrivals h hok k
  omega

end Runs

def deleteK : Operation :=
  .tcp { Request.fresh true 0 .delete with keys := [text "k"] }

def boundK : Contents := fun key => if key = text "k" then some (text "v") else none

/-- A `DELETE` that looks the key up between another's `del` and its answer. -/
theorem deletedCount_le_arrivals_deleteK :
    ∃ (ts : List (Move Bool)) (s : Clients Bool),
      Runs HonestEffect Operation.Parsed boundK ts s ∧ deletedCount (text "k") ts = 1 ∧
        deletedCount (text "k") ts ≤ arrivals (text "k") boundK ts := by
  let s₀ : Clients Bool := Pool.initial ⟨boundK, false⟩
  have h₀ : Runs HonestEffect Operation.Parsed boundK [] s₀ := .start
  have h₁ := h₀.snoc (.start (i := true) (q := deleteK) rfl (by decide))
  have h₂ := h₁.snoc (.start (i := false) (q := deleteK) rfl (by decide))
  have h₃ := h₂.snoc (.perform (i := true) rfl (faultless_found (v := text "v") rfl).honest)
  have h₄ := h₃.snoc (.perform (i := true) (r := Except.ok .success) rfl ⟨.del, trivial⟩)
  have h₅ := h₄.snoc (.perform (i := false) rfl (faultless_missing rfl).honest)
  have h₆ := h₅.snoc (.finish (i := true) rfl)
  have h₇ := h₆.snoc (.finish (i := false) rfl)
  refine ⟨_, _, h₇, rfl, deletedCount_le_arrivals h₇ ?_ _⟩
  intro t ht i q e k hl he j hj hdel
  obtain ⟨q', past, next, hclient⟩ := hdel
  simp only [List.nil_append, List.cons_append, List.mem_cons, List.not_mem_nil, or_false] at ht
  rcases ht with rfl | rfl | rfl | rfl | rfl | rfl | rfl <;> cases hl <;> cases he
  -- the other one has not looked yet
  cases j with
  | true => exact hj rfl
  | false => cases hclient

/-- Two requests find the key before either deletes it. -/
theorem removal_acknowledged_twice :
    ∃ (ts : List (Move Bool)) (s : Clients Bool),
      Runs HonestEffect Operation.Parsed boundK ts s ∧ deletedCount (text "k") ts = 2 ∧
        arrivals (text "k") boundK ts = 1 ∧
        ¬ deletedCount (text "k") ts ≤ arrivals (text "k") boundK ts := by
  let s₀ : Clients Bool := Pool.initial ⟨boundK, false⟩
  have h₀ : Runs HonestEffect Operation.Parsed boundK [] s₀ := .start
  have h₁ := h₀.snoc (.start (i := true) (q := deleteK) rfl (by decide))
  have h₂ := h₁.snoc (.start (i := false) (q := deleteK) rfl (by decide))
  have h₃ := h₂.snoc (.perform (i := true) rfl (faultless_found (v := text "v") rfl).honest)
  have h₄ := h₃.snoc (.perform (i := false) rfl (faultless_found (v := text "v") rfl).honest)
  have h₅ := h₄.snoc (.perform (i := true) (r := Except.ok .success) rfl ⟨.del, trivial⟩)
  have h₆ := h₅.snoc (.perform (i := false) (r := Except.ok .success) rfl ⟨.del, trivial⟩)
  have h₇ := h₆.snoc (.finish (i := true) rfl)
  have h₈ := h₇.snoc (.finish (i := false) rfl)
  exact ⟨_, _, h₈, rfl, rfl, Nat.not_le_of_lt Nat.one_lt_two⟩

end Quitsies.Service
