import Mathlib.Algebra.BigOperators.Group.Finset.Basic
import Mathlib.Algebra.Order.BigOperators.Group.Finset
import Quitsies.Interaction.Pool

/-!
# Waiting for a lock

Clients that share a world with one lock, where a call other than the lock is always
answered. Left alone they all come to their end, on every path, unless the lock is taken
and no client that holds it has a call left: then who waits for it waits for good.
-/

namespace Quitsies.Interaction

/-! ## What cannot be avoided -/

section Inevitable

variable {σ Λ : Type} {step : σ → Λ → σ → Prop} {goal : σ → Prop} {s : σ}

/-- Every path meets the goal: none goes on for ever without it, or gets stuck. -/
inductive Inevitable (step : σ → Λ → σ → Prop) (goal : σ → Prop) : σ → Prop
  | now {s : σ} : goal s → Inevitable step goal s
  | later {s s' : σ} {l : Λ} : step s l s' →
      (∀ l s', step s l s' → Inevitable step goal s') → Inevitable step goal s

/-- Steps that use something up, and are possible until the goal is met. -/
theorem inevitable_of_measure {I : Nat → σ → Prop}
    (hstep : ∀ n s l s', I n s → step s l s' → ∃ m < n, I m s')
    (hlive : ∀ n s, I n s → ¬ goal s → ∃ l s', step s l s') {n : Nat} (h : I n s) :
    Inevitable step goal s := by
  induction n using Nat.strong_induction_on generalizing s with
  | _ n ih =>
    by_cases hgoal : goal s
    · exact .now hgoal
    · obtain ⟨l, s', hs⟩ := hlive n s h hgoal
      refine .later hs fun l s' hs => ?_
      obtain ⟨m, hm, h'⟩ := hstep n s l s' h hs
      exact ih m hm h'

/-- A step in front of a run. -/
theorem Run.cons {s' s'' : σ} {l : Λ} {ts : List (Transition σ Λ)} (hs : step s l s')
    (h : Run step s' ts s'') : Run step s (⟨s, l, s'⟩ :: ts) s'' := by
  induction h with
  | start => exact Run.start.snoc hs
  | snoc _ hs' ih => exact ih.snoc hs'

/-- What cannot be avoided can be reached. -/
theorem Inevitable.run (h : Inevitable step goal s) :
    ∃ ts s', Run step s ts s' ∧ goal s' := by
  induction h with
  | now hgoal => exact ⟨[], _, .start, hgoal⟩
  | later hs _ ih =>
    obtain ⟨ts, s', hrun, hgoal⟩ := ih _ _ hs
    exact ⟨_, s', Run.cons hs hrun, hgoal⟩

end Inevitable

namespace Prog

variable {Op : Type} {Res : Op → Type} {α : Type}

/-- What holds of every call and what comes behind it, from the runs of the program. -/
theorem chained_of_reaches {R : Event Op Res → Op ⊕ α → Prop} {p : Prog Op Res α}
    (h : ∀ es e q, Reaches p (es ++ [e]) q → R e q.front) : p.Chained R := by
  induction p with
  | done a => trivial
  | call op next ih =>
    exact fun r => ⟨h [] ⟨op, r⟩ _ (.call (.here _)), ih r fun es e q hq =>
      h (⟨op, r⟩ :: es) e q (.call hq)⟩

/-- The program makes at most so many calls. -/
def AtMost : Prog Op Res α → Nat → Prop
  | done _, _ => True
  | call _ next, n => 0 < n ∧ ∀ r, (next r).AtMost (n - 1)

theorem AtMost.mono {p : Prog Op Res α} {n m : Nat} (h : p.AtMost n) (hnm : n ≤ m) :
    p.AtMost m := by
  induction p generalizing n m with
  | done a => trivial
  | call op next ih => exact ⟨h.1.trans_le hnm, fun r => ih r (h.2 r) (Nat.sub_le_sub_right hnm 1)⟩

theorem AtMost.map {β : Type} {p : Prog Op Res α} {n : Nat} (h : p.AtMost n) (f : α → β) :
    (f <$> p).AtMost n := by
  induction p generalizing n with
  | done a => trivial
  | call op next ih => exact ⟨h.1, fun r => ih r (h.2 r)⟩

/-- The last of some calls, and the program in front of it. -/
theorem Reaches.of_snoc {p q : Prog Op Res α} {events : List (Event Op Res)} {e : Event Op Res}
    (h : Reaches p (events ++ [e]) q) :
    ∃ next, Reaches p events (Prog.call e.1 next) ∧ q = next e.2 := by
  generalize hes : events ++ [e] = es at h
  induction h generalizing events with
  | here p => exact absurd hes (by simp)
  | @call op next r rest q h ih =>
    cases events with
    | nil =>
      obtain ⟨rfl, rfl⟩ := List.cons.inj hes
      refine ⟨next, .here _, ?_⟩
      generalize next r = p at h
      cases h
      rfl
    | cons e' events =>
      obtain ⟨rfl, hrest⟩ := List.cons.inj hes
      obtain ⟨next', hreach, rfl⟩ := ih hrest
      exact ⟨next', .call hreach, rfl⟩

end Prog

namespace Pool

variable {ι ω Q Op : Type} {Res : Op → Type} {A : Type}
variable {program : Q → Prog Op Res A} {allow : ω → Event Op Res → ω → Prop} {offered : Q → Prop}

def Quiet (s : Pool ι ω Q Op Res A) : Prop := ∀ i, s.client i = .idle

theorem about_congr {s s' : Pool ι ω Q Op Res A} {j : ι} {op : Op}
    (h : s'.client j = s.client j) : About s' j op ↔ About s j op := by
  simp only [About, h]

/-! ## The work that is left -/

/-- A client that is done after so many steps at most. -/
def Owes (n : Nat) : Client ω Q Op Res A → Prop
  | .idle => True
  | .busy _ _ rest => 0 < n ∧ rest.AtMost (n - 1)

/-- All clients together are done after so many steps at most. -/
def Owing (total : Nat) (s : Pool ι ω Q Op Res A) : Prop :=
  ∃ (working : Finset ι) (n : ι → Nat), (∀ i, s.client i ≠ .idle → i ∈ working) ∧
    (∀ i, Owes (n i) (s.client i)) ∧ ∑ i ∈ working, n i = total

section Work

theorem owing_initial (w : ω) : Owing 0 (initial w : Pool ι ω Q Op Res A) :=
  ⟨∅, fun _ => 0, fun _ h => absurd rfl h, fun _ => trivial, rfl⟩

variable [DecidableEq ι] {s s' : Pool ι ω Q Op Res A}

/-- A client that moves owes less than before. -/
theorem owing_move {total : Nat} (h : Owing total s) {i : ι} {c : Client ω Q Op Res A}
    (hbusy : s.client i ≠ .idle)
    (hless : ∀ n, Owes n (s.client i) → 0 < n ∧ Owes (n - 1) c) (w : ω) :
    ∃ total' < total, Owing total' (s.move i c w) := by
  obtain ⟨working, n, hworking, howes, rfl⟩ := h
  obtain ⟨hpos, hc⟩ := hless (n i) (howes i)
  have hi := hworking i hbusy
  refine ⟨∑ j ∈ working, Function.update n i (n i - 1) j, ?_, working, _, ?_, ?_, rfl⟩
  · refine Finset.sum_lt_sum (fun j _ => ?_) ⟨i, hi, ?_⟩
    · by_cases hj : j = i
      · subst hj
        rw [Function.update_self]
        exact Nat.sub_le _ _
      · rw [Function.update_of_ne hj]
    · rw [Function.update_self]
      omega
  · intro j hj
    by_cases he : j = i
    · exact he ▸ hi
    · rw [move_client_ne _ _ _ he] at hj
      exact hworking j hj
  · intro j
    by_cases he : j = i
    · subst he
      rw [move_client_self, Function.update_self]
      exact hc
    · rw [move_client_ne _ _ _ he, Function.update_of_ne he]
      exact howes j

/-- Without new requests every step uses up work. -/
theorem owing_step {l : Action ι ω Q Op Res A} {total : Nat} (h : Owing total s)
    (hs : Step program allow (fun _ => False) s l s') : ∃ total' < total, Owing total' s' := by
  cases hs with
  | start _ hq => exact hq.elim
  | perform hi _ =>
    refine owing_move h (by rw [hi]; exact nofun) (fun n hn => ?_) _
    rw [hi] at hn
    obtain ⟨hpos, hcall, hnext⟩ := hn
    exact ⟨hpos, hcall, hnext _⟩
  | finish hi =>
    refine owing_move h (by rw [hi]; exact nofun) (fun n hn => ?_) _
    rw [hi] at hn
    exact ⟨hn.1, trivial⟩

/-- A request adds the work of its program. -/
theorem owing_run {w : ω}
    {ts : List (Transition (Pool ι ω Q Op Res A) (Action ι ω Q Op Res A))}
    (hbounded : ∀ q, ∃ n, (program q).AtMost n)
    (h : Run (Step program allow offered) (initial w) ts s) : ∃ total, Owing total s := by
  refine h.invariant (I := fun s => ∃ total, Owing total s) ⟨0, owing_initial w⟩
    fun s l s' hs hstep => ?_
  obtain ⟨total, hs⟩ := hs
  cases hstep with
  | @start i q hi hq =>
    obtain ⟨working, n, hworking, howes, -⟩ := hs
    obtain ⟨b, hb⟩ := hbounded q
    refine ⟨_, insert i working, Function.update n i (b + 1), fun j hj => ?_, fun j => ?_, rfl⟩
    · by_cases he : j = i
      · exact he ▸ Finset.mem_insert_self i working
      · rw [move_client_ne _ _ _ he] at hj
        exact Finset.mem_insert_of_mem (hworking j hj)
    · by_cases he : j = i
      · subst he
        rw [move_client_self, Function.update_self]
        exact ⟨Nat.succ_pos b, hb⟩
      · rw [move_client_ne _ _ _ he, Function.update_of_ne he]
        exact howes j
  | perform hi hw =>
    have hclosed : Step program allow (fun _ => False) s _ _ := .perform hi hw
    obtain ⟨total', -, hs'⟩ := owing_step hs hclosed
    exact ⟨total', hs'⟩
  | finish hi =>
    have hclosed : Step program allow (fun _ => False) s _ _ := .finish hi
    obtain ⟨total', -, hs'⟩ := owing_step hs hclosed
    exact ⟨total', hs'⟩

end Work

/-! ## Who waits for whom -/

section Waiting

variable (isLock isUnlock : Op → Bool) (locked : ω → Bool)

/-- The lock comes first if at all, and while it is held a call is left to make. -/
structure Courteous (program : Q → Prog Op Res A) (offered : Q → Prop)
    (allow : ω → Event Op Res → ω → Prop) : Prop where
  first : ∀ q, (program q).Chained fun _ front => ∀ op, front = .inl op → isLock op = false
  onward : ∀ {q es e rest w w'}, offered q → (program q).Reaches (es ++ [e]) rest →
    held isLock isUnlock (es ++ [e]) = true → allow w e w' → ∃ op next, rest = .call op next

/-- Every call but a lock that is taken is answered. -/
def Answering (allow : ω → Event Op Res → ω → Prop) : Prop :=
  ∀ w op, (isLock op = true → locked w = false) → ∃ r w', allow w ⟨op, r⟩ w'

/-- If the lock is taken, a client that holds it has a call left, or nobody waits. -/
def Free (s : Pool ι ω Q Op Res A) : Prop :=
  locked s.world = true → (∃ i op, Holds isLock isUnlock s i ∧ About s i op) ∨
    ∀ i op, isLock op = true → ¬ About s i op

variable {isLock isUnlock locked} {s s' : Pool ι ω Q Op Res A}

/-- Who holds the lock is past the call that took it. -/
theorem Courteous.not_lock (hc : Courteous isLock isUnlock program offered allow)
    (ht : OnTrack program offered s) {i : ι} {op : Op} (hholds : Holds isLock isUnlock s i)
    (ha : About s i op) : isLock op = false := by
  obtain ⟨q, past, next, hi⟩ := ha
  have hheld := (holds_iff hi).mp hholds
  rcases List.eq_nil_or_concat (events past) with hnil | ⟨es, e, hsnoc⟩
  · rw [hnil] at hheld
    cases hheld
  · have hreaches := (ht i q past _ hi).2
    rw [hsnoc, List.concat_eq_append] at hreaches
    obtain ⟨next', hreach, hrest⟩ := hreaches.of_snoc
    exact ((hc.first q).reaches hreach e.2).1 op (by rw [← hrest]; rfl)

/-- The lock is taken, and no client that holds it has a call left. -/
structure Lost (isLock isUnlock : Op → Bool) (locked : ω → Bool) (s : Pool ι ω Q Op Res A) :
    Prop where
  taken : locked s.world = true
  ended : ∀ i op, Holds isLock isUnlock s i → ¬ About s i op

theorem lost_of_not_free (h : ¬ Free isLock isUnlock locked s) :
    Lost isLock isUnlock locked s ∧ ∃ i op, isLock op = true ∧ About s i op := by
  obtain ⟨htaken, hboth⟩ := Classical.not_imp.mp h
  obtain ⟨hended, hwaits⟩ := not_or.mp hboth
  refine ⟨⟨htaken, fun i op hholds ha => hended ⟨i, op, hholds, ha⟩⟩, ?_⟩
  by_contra hnone
  exact hwaits fun i op hop ha => hnone ⟨i, op, hop, ha⟩

variable [DecidableEq ι]

/-- Whoever is not done can move, or waits for one that can. -/
theorem Free.live (hc : Courteous isLock isUnlock program offered allow)
    (hanswers : Answering isLock locked allow) (ht : OnTrack program offered s)
    (hfree : Free isLock isUnlock locked s) (hbusy : ¬ Quiet s) :
    ∃ l s', Step program allow (fun _ => False) s l s' := by
  have hmoves : ∀ {i op}, About s i op → (isLock op = true → locked s.world = false) →
      ∃ l s', Step program allow (fun _ => False) s l s' := by
    intro i op ha hopen
    obtain ⟨q, past, next, hi⟩ := ha
    obtain ⟨r, w, hw⟩ := hanswers s.world op hopen
    exact ⟨_, _, .perform hi hw⟩
  obtain ⟨i, hi⟩ := not_forall.mp hbusy
  cases hclient : s.client i with
  | idle => exact absurd hclient hi
  | busy q past rest =>
    cases rest with
    | done a => exact ⟨_, _, .finish hclient⟩
    | call op next =>
      have ha : About s i op := ⟨q, past, next, hclient⟩
      by_cases hopen : isLock op = true → locked s.world = false
      · exact hmoves ha hopen
      · -- the lock is taken: its holder goes on
        obtain ⟨hop, htaken⟩ := Classical.not_imp.mp hopen
        rcases hfree (Bool.eq_true_of_not_eq_false htaken) with ⟨j, op', hholds, hj⟩ | hnone
        · have hop' := hc.not_lock ht hholds hj
          exact hmoves hj fun h => by rw [hop'] at h; cases h
        · exact absurd ha (hnone i op hop)

theorem Free.step (law : LockLaw isLock isUnlock locked allow)
    (hc : Courteous isLock isUnlock program offered allow) (ht : OnTrack program offered s)
    (hfree : Free isLock isUnlock locked s) {l : Action ι ω Q Op Res A}
    (hs : Step program allow (fun _ => False) s l s') : Free isLock isUnlock locked s' := by
  intro htaken
  cases hs with
  | start _ hq => exact hq.elim
  | @finish i q past a hi =>
    have hother : ∀ {j op}, About s j op → j ≠ i := by
      rintro j op ⟨q', past', next, hj⟩ rfl
      rw [hi] at hj
      cases hj
    rcases hfree htaken with ⟨j, op, hholds, hj⟩ | hnone
    · have hsame := move_client_ne s (.idle : Client ω Q Op Res A) s.world (hother hj)
      exact .inl ⟨j, op, (holds_congr hsame).mpr hholds, (about_congr hsame).mpr hj⟩
    · refine .inr fun j op hop hj => ?_
      by_cases he : j = i
      · subst he
        exact not_about_idle (move_client_self ..) op hj
      · exact hnone j op hop ((about_congr (move_client_ne _ _ _ he)).mp hj)
  | @perform i q past op next r w hi hw =>
    obtain ⟨hq, hreaches⟩ := ht i q past _ hi
    have hself : (s.move i (.busy q (past ++ [(s.world, ⟨op, r⟩)]) (next r)) w).client i =
        .busy q (past ++ [(s.world, ⟨op, r⟩)]) (next r) := move_client_self ..
    -- a client that holds the lock behind its call has another one to make
    have honward : held isLock isUnlock (events past ++ [⟨op, r⟩]) = true →
        ∃ j op', Holds isLock isUnlock
            (s.move i (.busy q (past ++ [(s.world, ⟨op, r⟩)]) (next r)) w) j ∧
          About (s.move i (.busy q (past ++ [(s.world, ⟨op, r⟩)]) (next r)) w) j op' := by
      intro hheld
      obtain ⟨op', next', hrest⟩ := hc.onward hq (hreaches.snoc r) hheld hw
      refine ⟨i, op', (holds_iff hself).mpr ?_, q, past ++ [(s.world, ⟨op, r⟩)], next',
        hrest ▸ hself⟩
      rw [events_snoc]
      exact hheld
    cases hlock : isLock op with
    | true => exact .inl (honward (by rw [held_snoc, hlock]; rfl))
    | false =>
      cases hunlock : isUnlock op with
      | true =>
        have hopen := law.unlock hw hlock hunlock
        rw [show locked (s.move i _ w).world = false from hopen] at htaken
        cases htaken
      | false =>
        have hsame := law.other hw hlock hunlock
        rcases hfree (hsame.symm.trans htaken) with ⟨j, op', hholds, hj⟩ | hnone
        · by_cases he : j = i
          · subst he
            refine .inl (honward ?_)
            rw [held_snoc, hlock, hunlock]
            exact (holds_iff hi).mp hholds
          · have hother := move_client_ne s
              (.busy q (past ++ [(s.world, ⟨op, r⟩)]) (next r)) w he
            exact .inl ⟨j, op', (holds_congr hother).mpr hholds, (about_congr hother).mpr hj⟩
        · refine .inr fun j op' hop' hj => ?_
          by_cases he : j = i
          · subst he
            obtain ⟨q', past', next', hj⟩ := hj
            rw [hself] at hj
            obtain ⟨-, -, hrest⟩ := Client.busy.inj hj
            have hfirst := ((hc.first q).reaches hreaches r).1 op' (by rw [hrest]; rfl)
            rw [hop'] at hfirst
            cases hfirst
          · exact hnone j op' hop' ((about_congr (move_client_ne _ _ _ he)).mp hj)

/-- Without new requests all clients come to their end. -/
theorem Free.inevitable (law : LockLaw isLock isUnlock locked allow)
    (hc : Courteous isLock isUnlock program offered allow)
    (hanswers : Answering isLock locked allow) (ht : OnTrack program offered s)
    (hfree : Free isLock isUnlock locked s) {total : Nat} (howing : Owing total s) :
    Inevitable (Step program allow (fun _ => False)) Quiet s := by
  refine inevitable_of_measure (I := fun n s => OnTrack program offered s ∧
    Free isLock isUnlock locked s ∧ Owing n s) ?_ ?_ ⟨ht, hfree, howing⟩
  · rintro n s l s' ⟨ht, hfree, howing⟩ hs
    obtain ⟨m, hm, howing'⟩ := owing_step howing hs
    have hs' : Step program allow offered s l s' :=
      hs.mono (fun _ _ _ h => h) fun _ h => h.elim
    exact ⟨m, hm, onTrack_step program allow offered ht hs', hfree.step law hc ht hs, howing'⟩
  · rintro n s ⟨ht, hfree, -⟩ hbusy
    exact hfree.live hc hanswers ht hbusy

/-- A lock that is lost stays lost, whatever is requested and whatever is answered. -/
theorem Lost.step (law : LockLaw isLock isUnlock locked allow)
    (hd : Disciplined isLock isUnlock program offered) (ht : OnTrack program offered s)
    (hlost : Lost isLock isUnlock locked s) {l : Action ι ω Q Op Res A}
    (hs : Step program allow offered s l s') : Lost isLock isUnlock locked s' := by
  cases hs with
  | @start i q hi hq =>
    refine ⟨hlost.taken, fun j op hholds ha => ?_⟩
    by_cases he : j = i
    · subst he
      rw [holds_iff (move_client_self ..)] at hholds
      cases hholds
    · have hsame := move_client_ne s (.busy q [] (program q)) s.world he
      exact hlost.ended j op ((holds_congr hsame).mp hholds) ((about_congr hsame).mp ha)
  | @finish i q past a hi =>
    refine ⟨hlost.taken, fun j op hholds ha => ?_⟩
    by_cases he : j = i
    · subst he
      exact not_about_idle (move_client_self ..) op ha
    · have hsame := move_client_ne s (.idle : Client ω Q Op Res A) s.world he
      exact hlost.ended j op ((holds_congr hsame).mp hholds) ((about_congr hsame).mp ha)
  | @perform i q past op next r w hi hw =>
    have hfree : ¬ Holds isLock isUnlock s i := fun hholds =>
      hlost.ended i op hholds ⟨q, past, next, hi⟩
    have hheld : held isLock isUnlock (events past) = false :=
      Bool.eq_false_of_not_eq_true fun h => hfree ((holds_iff hi).mpr h)
    cases hlock : isLock op with
    | true =>
      have hopen := (law.lock hw hlock).1
      rw [hlost.taken] at hopen
      cases hopen
    | false =>
      cases hunlock : isUnlock op with
      | true =>
        have hmust := hd q _ op next (ht i q past _ hi).1 (ht i q past _ hi).2 hlock hunlock
        rw [hheld] at hmust
        cases hmust
      | false =>
        refine ⟨(law.other hw hlock hunlock).trans hlost.taken, fun j op' hholds ha => ?_⟩
        by_cases he : j = i
        · subst he
          rw [holds_iff (move_client_self ..), events_snoc, held_snoc, hlock, hunlock,
            hheld] at hholds
          cases hholds
        · have hsame := move_client_ne s
            (.busy q (past ++ [(s.world, ⟨op, r⟩)]) (next r)) w he
          exact hlost.ended j op' ((holds_congr hsame).mp hholds) ((about_congr hsame).mp ha)

/-- Who waits for a lock that is lost waits for good. -/
theorem Lost.run (law : LockLaw isLock isUnlock locked allow)
    (hd : Disciplined isLock isUnlock program offered) (ht : OnTrack program offered s)
    (hlost : Lost isLock isUnlock locked s) {j : ι} {op : Op} (hop : isLock op = true)
    (ha : About s j op) {ts : List (Transition (Pool ι ω Q Op Res A) (Action ι ω Q Op Res A))}
    (h : Run (Step program allow offered) s ts s') : About s' j op := by
  refine (h.invariant (I := fun s => OnTrack program offered s ∧
    Lost isLock isUnlock locked s ∧ About s j op) ⟨ht, hlost, ha⟩ ?_).2.2
  rintro s l s' ⟨ht, hlost, ha⟩ hs
  refine ⟨onTrack_step program allow offered ht hs, hlost.step law hd ht hs, ?_⟩
  rcases ha.stays hs with hstays | ⟨q, e, rfl, he⟩
  · exact hstays
  · obtain ⟨-, -, -, hw, -⟩ := hs.perform_inv
    have hopen := (law.lock hw (by rw [he]; exact hop)).1
    rw [hlost.taken] at hopen
    cases hopen

end Waiting

end Pool

end Quitsies.Interaction
