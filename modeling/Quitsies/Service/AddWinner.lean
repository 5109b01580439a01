import Quitsies.Service.AddRace

/-!
# `ADD` against `ADD`

Where only `ADD`s write, the mutex makes each of them read and write in one go.
What the keys are bound to is then a function of the puts so far: a key has at
most one, and none if it was there from the start.
-/

namespace Quitsies.Service

open Text Interaction Db Tcp
open Pool (held Holds events Exclusive performed returned)

/-- An operation of clients that only add and read. -/
def Operation.Competing : Operation → Prop
  | .tcp r => r.db = true ∧ r.keys ≠ [] ∧
      (r.command = .add ∨ r.command = .get ∨ r.command = .gets)
  | .httpGet _ => True
  | .httpPut _ _ => False
  | .httpPost _ _ => False

instance : DecidablePred Operation.Competing
  | .tcp _ => inferInstanceAs (Decidable (_ ∧ _ ∧ _))
  | .httpGet _ => inferInstanceAs (Decidable True)
  | .httpPut _ _ => inferInstanceAs (Decidable False)
  | .httpPost _ _ => inferInstanceAs (Decidable False)

theorem Operation.Competing.parsed {q : Operation} (h : q.Competing) : q.Parsed := by
  cases q with
  | tcp r =>
    obtain ⟨hdb, hk, hc | hc | hc⟩ := h
    · exact ⟨hdb, hk, .inr (.inl hc)⟩
    · exact ⟨hdb, hk, .inr (.inr (.inr (.inl hc)))⟩
    · exact ⟨hdb, hk, .inr (.inr (.inr (.inr hc)))⟩
  | httpGet k => trivial
  | httpPut k v => exact h.elim
  | httpPost k v => exact h.elim

theorem Operation.Competing.not_put {q : Operation} (h : q.Competing) (k v : Bytes) :
    ¬ q.PutOf k v := by
  intro hput
  cases q with
  | tcp r =>
    obtain ⟨-, -, hc⟩ := h
    obtain ⟨-, hset, -⟩ := hput
    rw [hset] at hc
    rcases hc with hc | hc | hc <;> cases hc
  | httpGet k' => exact hput
  | httpPut k' v' => exact h
  | httpPost k' v' => exact h

theorem Operation.Competing.not_delete {q : Operation} (h : q.Competing) (k : Bytes) :
    ¬ q.DeleteOf k := by
  intro hdelete
  cases q with
  | tcp r =>
    obtain ⟨-, -, hc⟩ := h
    obtain ⟨-, hdel, -⟩ := hdelete
    rw [hdel] at hc
    rcases hc with hc | hc | hc <;> cases hc
  | httpGet k' => exact hdelete
  | httpPut k' v' => exact h
  | httpPost k' v' => exact h

/-! ## The puts of a key -/

variable {ι : Type}

section Puts

variable (k : Bytes)

def putsTo (_ : Operation) : StoreEvent → Bool
  | ⟨.put key _, _⟩ => key == k
  | ⟨.get _, _⟩ => false
  | ⟨.del _, _⟩ => false
  | ⟨.lock, _⟩ => false
  | ⟨.unlock, _⟩ => false

/-- The value that a step puts under `k`. -/
def putValue : Action ι World Operation StoreCall StoreResult Reply → Option Bytes
  | .perform _ _ ⟨.put key value, _⟩ => if key = k then some value else none
  | _ => none

/-- The values put under `k`, in order. -/
def puts (ts : List (Move ι)) : List Bytes := ts.filterMap fun t => putValue k t.label

theorem puts_append (ts ts' : List (Move ι)) : puts k (ts ++ ts') = puts k ts ++ puts k ts' :=
  List.filterMap_append

theorem putValue_eq_none {l : Action ι World Operation StoreCall StoreResult Reply}
    (h : ∀ i q e v, l = .perform i q e → e.1 ≠ .put k v) : putValue k l = none := by
  cases l with
  | start i q => rfl
  | finish i q past a => rfl
  | perform i q e =>
    obtain ⟨c, res⟩ := e
    cases c with
    | put key v =>
      exact if_neg fun hk => h i q ⟨.put key v, res⟩ v rfl (by rw [hk])
    | get key => rfl
    | del key => rfl
    | lock => rfl
    | unlock => rfl

theorem performed_putsTo (ts : List (Move ι)) :
    performed (putsTo k) ts = (puts k ts).length := by
  induction ts with
  | nil => rfl
  | cons t ts ih =>
    have hone : Pool.performedBy (putsTo k) t.label = (putValue k t.label).toList.length := by
      cases hl : t.label with
      | start i q => rfl
      | finish i q past a => rfl
      | perform i q e =>
        obtain ⟨c, res⟩ := e
        cases c with
        | put key v => by_cases hk : key = k <;> simp [Pool.performedBy, putsTo, putValue, hk]
        | get key => rfl
        | del key => rfl
        | lock => rfl
        | unlock => rfl
    unfold performed puts at ih ⊢
    rw [List.map_cons, List.sum_cons, List.filterMap_cons, ih, hone]
    cases putValue k t.label with
    | none => simp
    | some v => simp [Nat.add_comm]

end Puts

/-- What a key holds by the start and the puts so far. -/
def bound (m : Contents) (k : Bytes) (ts : List (Move ι)) : List Bytes :=
  (m k).toList ++ puts k ts

variable [DecidableEq ι] {m : Contents} {ts : List (Move ι)} {s : Clients ι}

section Runs

/-- The runs of this module are runs of the previous ones, and keep out. -/
theorem competing_honest (h : Runs FaultlessEffect Operation.Competing m ts s) :
    Runs HonestEffect Operation.Parsed m ts s :=
  h.mono fun _ _ _ hs => hs.mono (fun _ _ _ he => he.honest) fun _ hq => hq.parsed

theorem competing_keepsOut (h : Runs FaultlessEffect Operation.Competing m ts s) :
    ∀ t ∈ ts, KeepsOut t := by
  intro t ht i q e k value hl _ hput
  obtain ⟨ts₁, hrun, hstep, -⟩ := h.of_mem ht
  rw [hl] at hstep
  obtain ⟨past, next, hi, -, -⟩ := hstep.perform_inv
  have hq := (Pool.onTrack_run hrun i q past _ hi).1
  exact absurd hput (hq.not_put k value)

/-- A call in a run, with who may make it and what the store answers. -/
theorem competing_call (h : Runs FaultlessEffect Operation.Competing m ts s) {t : Move ι}
    (ht : t ∈ ts) {i : ι} {q : Operation} {e : StoreEvent} (hl : t.label = .perform i q e) :
    FaultlessEffect t.before.world e t.after.world ∧ (∀ k, e.1 ≠ .del k) ∧
      ∀ k v, e.1 = .put k v → q.AddOf k v := by
  obtain ⟨ts₁, hrun, hstep, -⟩ := h.of_mem ht
  rw [hl] at hstep
  obtain ⟨past, next, hi, hallow, -⟩ := hstep.perform_inv
  obtain ⟨hq, hreaches⟩ := Pool.onTrack_run hrun i q past _ hi
  obtain ⟨c, res⟩ := e
  refine ⟨hallow, ?_, ?_⟩
  · rintro k rfl
    exact hq.not_delete k (del_caller hreaches)
  · rintro k v rfl
    exact (put_caller hreaches).resolve_right (hq.not_put k v)

/-- **What a key holds.** At most one value has ever been bound to a key, by the
start or by a put, and the map holds it. -/
theorem bound_run (h : Runs FaultlessEffect Operation.Competing m ts s) (k : Bytes) :
    (bound m k ts).length ≤ 1 ∧ s.world.map k = (bound m k ts).head? := by
  have hok := competing_keepsOut h
  refine Run.history KeepsOut
    (fun ts s => (bound m k ts).length ≤ 1 ∧ s.world.map k = (bound m k ts).head?) ?_ ?_ h hok
  · show (bound m k []).length ≤ 1 ∧ m k = (bound m k []).head?
    cases hm : m k <;> simp [bound, puts, hm]
  · intro ts s l s' hrun ih hs hkeep
    obtain ⟨hlen, hmap⟩ := ih
    have hrun' := hrun.snoc hs
    have ht : (⟨s, l, s'⟩ : Move ι) ∈ ts ++ [⟨s, l, s'⟩] := by simp
    have hbound : bound m k (ts ++ [⟨s, l, s'⟩]) = bound m k ts ++ (putValue k l).toList := by
      rw [bound, puts_append, ← List.append_assoc]
      cases hv : putValue k l <;> simp [puts, hv, bound]
    by_cases hput : ∃ i q e v, l = .perform i q e ∧ e.1 = .put k v
    · obtain ⟨i, q, ⟨c, res⟩, v, rfl, hcall⟩ := hput
      obtain rfl : c = .put k v := hcall
      obtain ⟨⟨heffect, hfaultless⟩, -, hadd⟩ := competing_call hrun' ht rfl
      have habsent : s.world.map k = none := by
        have hkeeps : ∀ t ∈ ts ++ [(⟨s, .perform i q ⟨.put k v, res⟩, s'⟩ : Move ι)], KeepsOut t :=
          competing_keepsOut hrun'
        exact add_put_absent (competing_honest hrun') hkeeps ht rfl rfl (hadd k v rfl)
      have hempty : bound m k ts = [] := by
        rw [habsent, eq_comm, List.head?_eq_none_iff] at hmap
        exact hmap
      have hvalue : putValue k (.perform i q ⟨.put k v, res⟩ :
          Action ι World Operation StoreCall StoreResult Reply) = some v := if_pos rfl
      rw [hbound, hempty, hvalue]
      exact ⟨Nat.le_refl 1, heffect.acknowledged_put hfaultless⟩
    · have hnone : putValue k l = none :=
        putValue_eq_none k fun i q e v hl he => hput ⟨i, q, e, v, hl, he⟩
      have hsame : s'.world.map k = s.world.map k := by
        rcases hs.world_inv with hworld | ⟨i, q, past, e, next, rfl, -, -⟩
        · rw [hworld]
        · obtain ⟨⟨heffect, -⟩, hdel, -⟩ := competing_call hrun' ht rfl
          exact heffect.frame (fun v he => hput ⟨i, q, e, v, rfl, he⟩) (hdel k)
      rw [hbound, hnone, Option.toList_none, List.append_nil]
      exact ⟨hlen, hsame.trans hmap⟩

/-! ## The answers -/

/-- The two answers of an `ADD` of a store that does not fail. -/
theorem add_answers (h : Runs FaultlessEffect Operation.Competing m ts s) {t : Move ι}
    (ht : t ∈ ts) {i : ι} {q : Operation} {past : List (World × StoreEvent)} {a : Reply}
    (hl : t.label = .finish i q past a) {k value : Bytes} (hq : q.AddOf k value) :
    (∃ we ∈ past, we.2.1 = .put k value) ∧ a.line = stored ∨
      (∀ we ∈ past, ∀ k v, we.2.1 ≠ .put k v) ∧ a.line = notStored ∧
        ∃ we ∈ past, ∃ st v, we.2 = ⟨.get k, .ok (st, v)⟩ ∧ st.ok = true := by
  obtain ⟨-, hperforms, hrecorded⟩ := Pool.finished_run h ht hl
  have htrace : AddTrace k value (events past) (.inr a.line) := add_reaches hq hperforms
  have hfaultless : ∀ e ∈ events past, ∃ w, Faultless w e := by
    intro e he
    obtain ⟨we, hwe, rfl⟩ := List.mem_map.mp he
    obtain ⟨u, hu, hlabel, hworld⟩ := hrecorded we hwe
    exact ⟨_, (competing_call h hu hlabel).1.2⟩
  have hpast {e : StoreEvent} (he : e ∈ events past) : ∃ we ∈ past, we.2 = e :=
    List.mem_map.mp he
  generalize hes : events past = es at htrace hfaultless hpast
  generalize a.line = line at htrace
  cases htrace with
  | getThrew what =>
    obtain ⟨w, hw⟩ := hfaultless ⟨.get k, .error what⟩ (by simp)
    cases hw
  | leftPresent st v hok =>
    refine .inr ⟨?_, rfl, ?_⟩
    · intro we hwe k' v' hput
      have he : we.2 ∈ events past := List.mem_map_of_mem hwe
      rw [hes] at he
      simp only [List.mem_cons, List.not_mem_nil, or_false] at he
      rcases he with he | he | he <;> rw [he] at hput <;> cases hput
    · obtain ⟨we, hwe, he⟩ := hpast (e := ⟨.get k, .ok (st, v)⟩) (by simp)
      exact ⟨we, hwe, st, v, he, hok⟩
  | leftFailed st v hok hnf =>
    -- a `get` that is not ok has found nothing
    obtain ⟨w, hw⟩ := hfaultless ⟨.get k, .ok (st, v)⟩ (by simp)
    have hmissing := hw.status hok
    rw [hnf] at hmissing
    cases hmissing
  | putThrew st v what hok hnf =>
    obtain ⟨w, hw⟩ := hfaultless ⟨.put k value, .error what⟩ (by simp)
    cases hw
  | leftPut st s' v hok hnf =>
    obtain ⟨w, hw⟩ := hfaultless ⟨.put k value, .ok s'⟩ (by simp)
    have hack : s'.ok = true := hw
    obtain ⟨we, hwe, he⟩ := hpast (e := ⟨.put k value, .ok s'⟩) (by simp)
    refine .inl ⟨⟨we, hwe, by rw [he]⟩, ?_⟩
    simp [putAnswer, hack]

omit [DecidableEq ι] in
/-- A put in a run is among the puts of its key. -/
theorem mem_puts {t : Move ι} (ht : t ∈ ts) {i : ι} {q : Operation} {e : StoreEvent} {k v : Bytes}
    (hl : t.label = .perform i q e) (he : e.1 = .put k v) : v ∈ puts k ts := by
  refine List.mem_filterMap.mpr ⟨t, ht, ?_⟩
  obtain ⟨c, res⟩ := e
  obtain rfl : c = .put k v := he
  rw [hl]
  exact if_pos rfl

/-- Once an `ADD` has returned, a key that was absent has been put. -/
theorem puts_of_finished (h : Runs FaultlessEffect Operation.Competing m ts s) {k : Bytes}
    (hm : m k = none) {t : Move ι} (ht : t ∈ ts) {i : ι} {q : Operation}
    {past : List (World × StoreEvent)} {a : Reply} (hl : t.label = .finish i q past a)
    {value : Bytes} (hq : q.AddOf k value) : puts k ts ≠ [] := by
  obtain ⟨-, -, hrecorded⟩ := Pool.finished_run h ht hl
  rcases add_answers h ht hl hq with ⟨⟨we, hwe, hput⟩, -⟩ | ⟨-, -, we, hwe, st, v, hget, hok⟩
  · obtain ⟨u, hu, hlabel, -⟩ := hrecorded we hwe
    exact List.ne_nil_of_mem (mem_puts hu hlabel hput)
  · -- its `get` met a value, which some put before it had bound
    obtain ⟨u, hu, hlabel, -⟩ := hrecorded we hwe
    rw [hget] at hlabel
    have hanswer : Except.ok (st, v) = .ok (found (u.before.world.map k)) :=
      (competing_call h hu hlabel).1.2
    obtain ⟨ts₁, ts₂, rfl⟩ := List.append_of_mem hu
    have hbound := (bound_run h.split.1 k).2
    intro hnil
    have hnil₁ : puts k ts₁ = [] := by
      rw [puts_append] at hnil
      exact (List.append_eq_nil_iff.mp hnil).1
    rw [bound, hm, hnil₁] at hbound
    rw [show u.before.world.map k = none from hbound] at hanswer
    obtain ⟨rfl, -⟩ := Prod.mk.inj (Except.ok.inj hanswer)
    cases hok

/-- An `ADD` of `k`, as a test. -/
def addsTo (k : Bytes) : Operation → Bool
  | .tcp r => r.db && r.command == .add && r.keys.head? == some k
  | _ => false

theorem addOf_of_addsTo {k : Bytes} {q : Operation} (h : addsTo k q = true) :
    ∃ value, q.AddOf k value := by
  cases q with
  | tcp r =>
    simp only [addsTo, Bool.and_eq_true, beq_iff_eq] at h
    obtain ⟨⟨hdb, hc⟩, hk⟩ := h
    exact ⟨r.buffer, hdb, hc, hk, rfl⟩
  | httpGet k' => cases h
  | httpPut k' v => cases h
  | httpPost k' v => cases h

/-- An `ADD` of `k` that answers `STORED`. -/
def answersStored (k : Bytes) : Action ι World Operation StoreCall StoreResult Reply → Bool
  | .start _ _ => false
  | .perform _ _ _ => false
  | .finish _ q _ a => addsTo k q && a.line == stored

/-- The `ADD`s of a key that have answered `STORED` are at most its puts. -/
theorem stored_le_puts (h : Runs FaultlessEffect Operation.Competing m ts s) (k : Bytes) :
    (ts.countP fun t => answersStored k t.label) ≤ (puts k ts).length := by
  have hanswers : (ts.countP fun t => answersStored k t.label) ≤ returned (putsTo k) ts := by
    apply Pool.count_le_returned
    intro t ht hanswer
    cases hl : t.label with
    | start i q => rw [hl] at hanswer; cases hanswer
    | perform i q e => rw [hl] at hanswer; cases hanswer
    | finish i q past a =>
      rw [hl, answersStored, Bool.and_eq_true, beq_iff_eq] at hanswer
      obtain ⟨value, hq⟩ := addOf_of_addsTo hanswer.1
      rcases add_answers h ht hl hq with ⟨⟨we, hwe, hput⟩, -⟩ | ⟨-, hline, -⟩
      · refine List.countP_pos_iff.mpr ⟨we, hwe, ?_⟩
        obtain ⟨w, ⟨c, res⟩⟩ := we
        obtain rfl : c = .put k value := hput
        simp [putsTo]
      · rw [hanswer.2] at hline
        exact absurd hline (by decide)
  have hledger := Pool.returned_le_performed (putsTo k) h
  rw [performed_putsTo] at hledger
  exact hanswers.trans hledger

/-! ## The mutex -/

/-- At most one client holds the mutex, it runs an `ADD`, and the mutex is taken
only while there is one. -/
structure MutexHeld (s : Clients ι) : Prop where
  one : ∀ i j, Holds locks unlocks s i → Holds locks unlocks s j → i = j
  by_add : ∀ i q past rest, s.client i = .busy q past rest → Holds locks unlocks s i →
    ∃ key value, q.AddOf key value
  free : s.world.locked = true ↔ ∃ i, Holds locks unlocks s i

theorem mutexHeld_run (h : Runs FaultlessEffect Operation.Competing m ts s) : MutexHeld s := by
  have hx := exclusive_runs (competing_honest h)
  refine ⟨hx.one, ?_, fun hlocked => ?_, fun ⟨i, hi⟩ => hx.taken i hi⟩
  · intro i q past rest hi hholds
    have hheld := (Pool.holds_iff hi).mp hholds
    rcases mutex_calls q with hadd | hno
    · exact hadd
    · have hreaches := (Pool.onTrack_run h i q past _ hi).2
      rw [Pool.held_eq_false locks unlocks (hno _ _ hreaches).1] at hheld
      cases hheld
  · have hlaw : Pool.LockLaw locks unlocks World.locked FaultlessEffect :=
      effect_lockLaw.mono fun _ _ _ he => he.1
    rcases Pool.locked_run hlaw rfl h hlocked with hholds | ⟨t, ht, i, q, past, a, hl, hheld⟩
    · exact hholds
    · -- an `ADD` returns with the mutex only after a call that threw
      obtain ⟨-, hperforms, hrecorded⟩ := Pool.finished_run h ht hl
      obtain ⟨-, e, he, hthrew⟩ := (held_of_performs hperforms).mp hheld
      obtain ⟨we, hwe, rfl⟩ := List.mem_map.mp he
      obtain ⟨u, hu, hlabel, -⟩ := hrecorded we hwe
      have hfaultless := (competing_call h hu hlabel).1.2
      obtain ⟨w, ⟨c, res⟩⟩ := we
      cases c with
      | get key =>
        obtain rfl : res = .ok (found (u.before.world.map key)) := hfaultless
        cases hthrew
      | put key value =>
        cases res with
        | ok status => cases hthrew
        | error what => cases hfaultless
      | del key =>
        cases res with
        | ok status => cases hthrew
        | error what => cases hfaultless
      | lock => cases hthrew
      | unlock => cases hthrew

/-! ## One winner -/

/-- What a run shows of the `ADD`s of one key, which held `m k` at the start. -/
structure OneWinner (m : Contents) (k : Bytes) (ts : List (Move ι)) (s : Clients ι) : Prop where
  puts_by_add : ∀ t ∈ ts, ∀ i q e v, t.label = .perform i q e → e.1 = .put k v → q.AddOf k v
  absent : m k = none → (puts k ts).length ≤ 1 ∧
    ((∃ t ∈ ts, ∃ i q past a value, t.label = .finish i q past a ∧ q.AddOf k value) →
      (puts k ts).length = 1)
  present : ∀ v, m k = some v → puts k ts = [] ∧ s.world.map k = some v
  answers : ∀ t ∈ ts, ∀ i q past a value, t.label = .finish i q past a → q.AddOf k value →
    (∃ we ∈ past, we.2.1 = .put k value) ∧ a.line = stored ∨
      (∀ we ∈ past, ∀ k v, we.2.1 ≠ .put k v) ∧ a.line = notStored
  refused : ∀ v, m k = some v → ∀ t ∈ ts, ∀ i q past a value, t.label = .finish i q past a →
    q.AddOf k value → a.line = notStored
  winner : (ts.countP fun t => answersStored k t.label) ≤ 1
  reads : ∀ ts₁ t ts₂, ts = ts₁ ++ t :: ts₂ → ∀ i q res, t.label = .perform i q ⟨.get k, res⟩ →
    res = .ok (found ((m k).or (puts k ts₁).head?))

/-- **Competing `ADD`s have exactly one winner**, in every run of any number of
clients that add and read over a store that never fails. -/
theorem competing_adds (h : Runs FaultlessEffect Operation.Competing m ts s) :
    (∀ k, OneWinner m k ts s) ∧ MutexHeld s := by
  refine ⟨fun k => ?_, mutexHeld_run h⟩
  obtain ⟨hlen, hmap⟩ := bound_run h k
  have hputs : (m k).toList.length + (puts k ts).length ≤ 1 := by
    rwa [bound, List.length_append] at hlen
  have hpresent : ∀ v, m k = some v → puts k ts = [] := by
    intro v hv
    rw [hv, Option.toList_some, List.length_singleton] at hputs
    exact List.eq_nil_of_length_eq_zero (by omega)
  constructor
  · exact fun t ht i q e v hl he => (competing_call h ht hl).2.2 k v he
  · intro hm
    have hle : (puts k ts).length ≤ 1 := by omega
    refine ⟨hle, ?_⟩
    intro hanswered
    obtain ⟨t, ht, i, q, past, a, value, hl, hq⟩ := hanswered
    have hpos := List.length_pos_of_ne_nil (puts_of_finished h hm ht hl hq)
    omega
  · intro v hv
    refine ⟨hpresent v hv, ?_⟩
    rw [hmap, bound, hv]
    rfl
  · intro t ht i q past a value hl hq
    rcases add_answers h ht hl hq with hstored | ⟨hno, hline, -⟩
    · exact .inl hstored
    · exact .inr ⟨hno, hline⟩
  · intro v hv t ht i q past a value hl hq
    rcases add_answers h ht hl hq with ⟨⟨we, hwe, hput⟩, -⟩ | ⟨-, hline, -⟩
    · obtain ⟨-, -, hrecorded⟩ := Pool.finished_run h ht hl
      obtain ⟨u, hu, hlabel, -⟩ := hrecorded we hwe
      have hmem := mem_puts hu hlabel hput
      rw [hpresent v hv] at hmem
      cases hmem
    · exact hline
  · have hstored := stored_le_puts h k
    omega
  · rintro ts₁ t ts₂ rfl i q res hl
    have ht : t ∈ ts₁ ++ t :: ts₂ := by simp
    have hanswer : res = .ok (found (t.before.world.map k)) := (competing_call h ht hl).1.2
    have hbound := (bound_run h.split.1 k).2
    rw [hanswer, hbound, bound]
    cases hm : m k <;> simp

end Runs

/-- Two `ADD`s of one key: the first wins, the second is refused. -/
theorem competing_adds_addK :
    ∃ (ts : List (Move Bool)) (s : Clients Bool),
      Runs FaultlessEffect Operation.Competing (fun _ => none) ts s ∧
        puts (text "k") ts = [text "v"] ∧
        (ts.countP fun t => answersStored (text "k") t.label) = 1 ∧
        (∀ k, OneWinner (fun _ => none) k ts s) ∧ MutexHeld s := by
  let s₀ : Clients Bool := Pool.initial ⟨fun _ => none, false⟩
  have h₀ : Runs FaultlessEffect Operation.Competing (fun _ => none) [] s₀ := .start
  have h₁ := h₀.snoc (.start (i := true) (q := addK) rfl (by decide))
  have h₂ := h₁.snoc (.start (i := false) (q := addK) rfl (by decide))
  have h₃ := h₂.snoc (.perform (i := true) rfl ⟨.lock rfl, trivial⟩)
  have h₄ := h₃.snoc (.perform (i := true) rfl (faultless_missing rfl))
  have h₅ := h₄.snoc (.perform (i := true) rfl faultless_put)
  have h₆ := h₅.snoc (.perform (i := true) rfl ⟨.unlock, trivial⟩)
  have h₇ := h₆.snoc (.perform (i := false) rfl ⟨.lock rfl, trivial⟩)
  have h₈ := h₇.snoc (.perform (i := false) rfl (faultless_found (v := text "v") rfl))
  have h₉ := h₈.snoc (.perform (i := false) rfl ⟨.unlock, trivial⟩)
  have h₁₀ := h₉.snoc (.finish (i := true) rfl)
  have h₁₁ := h₁₀.snoc (.finish (i := false) rfl)
  exact ⟨_, _, h₁₁, by decide, by decide, competing_adds h₁₁⟩

end Quitsies.Service
