import Quitsies.Service.Mutex

/-!
# `ADD` against the other writers

`ADD` reads and then writes, and locks the store for both. The lock keeps other
`ADD`s out, but `SET` and the HTTP methods write without it. What an `ADD` found
missing is still missing when it puts, as long as none of them comes in between.
-/

namespace Quitsies.Service

open Text Interaction Db Tcp
open Pool (held Holds events Exclusive)

variable {ι : Type}

/-- Client `j` runs an `ADD` of `k` that has found nothing and puts next. -/
def AboutToPut (s : Clients ι) (j : ι) (k : Bytes) : Prop :=
  ∃ q past value next, s.client j = .busy q past (.call (.put k value) next) ∧ q.AddOf k value

/-- No `SET` or HTTP put comes between the `get` and the `put` of an `ADD` of its key. -/
def KeepsOut (t : Move ι) : Prop :=
  ∀ i q e k value, t.label = .perform i q e → e.1 = .put k value → q.PutOf k value →
    ∀ j, ¬ AboutToPut t.before j k

/-- What an `ADD` is about to put is not there. -/
def Guarded (s : Clients ι) : Prop := ∀ j k, AboutToPut s j k → s.world.map k = none

variable {offered : Operation → Prop}

theorem AboutToPut.holds {s : Clients ι} {j : ι} {k : Bytes} (h : AboutToPut s j k)
    (ht : Pool.OnTrack Operation.program offered s) : Holds locks unlocks s j := by
  obtain ⟨q, past, value, next, hj, hq⟩ := h
  obtain ⟨-, -, st, v, -, -, hes⟩ := (add_reaches hq (ht j q past _ hj).2).of_put
  refine (Pool.holds_iff hj).mpr ?_
  rw [hes]
  rfl

variable [DecidableEq ι]

theorem guarded_step {s s' : Clients ι}
    {l : Action ι World Operation StoreCall StoreResult Reply}
    (ht : Pool.OnTrack Operation.program offered s) (hx : Exclusive locks unlocks World.locked s)
    (h : Guarded s) (hs : Pool.Step Operation.program HonestEffect offered s l s')
    (hok : KeepsOut ⟨s, l, s'⟩) : Guarded s' := by
  have ht' := Pool.onTrack_step Operation.program HonestEffect offered ht hs
  intro j k hj
  obtain ⟨q, past, value, next, hclient, hq⟩ := hj
  obtain ⟨-, -, st, v, hst, hnf, hes⟩ := (add_reaches hq (ht' j q past _ hclient).2).of_put
  rcases hs.busy_inv hclient with ⟨hsame, hother⟩ | ⟨-, rfl, -⟩ | ⟨past', e, next', rfl, -, rfl, -⟩
  · have hj : AboutToPut s j k := ⟨q, past, value, next, hsame, hq⟩
    have hnone := h j k hj
    rcases hs.world_inv with hworld | ⟨i, q', past', e, next', rfl, hi, heffect, -⟩
    · rw [hworld, hnone]
    · by_cases hput : ∃ value, e.1 = .put k value
      · -- another client puts this key: an `ADD` cannot, and the rest is kept out
        obtain ⟨value', he⟩ := hput
        obtain ⟨op, res⟩ := e
        obtain rfl : op = .put k value' := he
        rcases put_caller (ht i q' past' _ hi).2 with hadd | hset
        · have hi' : AboutToPut s i k := ⟨q', past', value', _, hi, hadd⟩
          obtain rfl := hx.one j i (hj.holds ht) (hi'.holds ht)
          obtain ⟨rfl, -, -⟩ := Client.busy.inj (hsame.symm.trans hi)
          exact absurd rfl (hother _)
        · exact absurd hj (hok i q' _ k value' rfl rfl hset j)
      · have hput' : ∀ value, e.1 ≠ .put k value := fun value he => hput ⟨value, he⟩
        by_cases hdel : e.1 = .del k
        · rcases heffect.map_del hdel with hgone | hsame
          · exact hgone
          · exact hsame.trans hnone
        · exact (heffect.frame hput' hdel).trans hnone
  · cases hes
  · -- the client's own `get` has just told it that the key is missing
    obtain ⟨-, -, -, ⟨heffect, hhonest⟩, -⟩ := hs.perform_inv
    obtain rfl : e = ⟨.get k, .ok (st, v)⟩ := by
      have hlast := congrArg List.getLast? hes
      simpa using hlast
    rw [heffect.frame nofun nofun]
    exact hhonest.2 hst hnf

section Runs

variable {m : Contents} {ts : List (Move ι)} {s : Clients ι}

theorem exclusive_runs (h : Runs HonestEffect offered m ts s) :
    Exclusive locks unlocks World.locked s := by
  have hlaw : Pool.LockLaw locks unlocks World.locked HonestEffect :=
    effect_lockLaw.mono fun _ _ _ he => he.1
  exact Pool.exclusive_run hlaw (disciplined offered) h

theorem guarded_run (h : Runs HonestEffect offered m ts s) (hok : ∀ t ∈ ts, KeepsOut t) :
    Guarded s := by
  refine Run.history KeepsOut (fun _ s => Guarded s) ?_ ?_ h hok
  · intro j k hput
    obtain ⟨q, past, value, next, hj, -⟩ := hput
    cases hj
  · intro ts s l s' hrun ih hs hkeep
    exact guarded_step (Pool.onTrack_run hrun) (exclusive_runs hrun) ih hs hkeep

/-- In a run that keeps out, every `put` of an `ADD` meets an absent key. -/
theorem add_put_absent (h : Runs HonestEffect offered m ts s) (hok : ∀ t ∈ ts, KeepsOut t)
    {t : Move ι} (ht : t ∈ ts) {i : ι} {q : Operation} {e : StoreEvent} {k v value : Bytes}
    (hl : t.label = .perform i q e) (he : e.1 = .put k v) (hq : q.AddOf k value) :
    t.before.world.map k = none := by
  obtain ⟨ts₁, hrun, hstep, hsub⟩ := h.of_mem ht
  rw [hl] at hstep
  obtain ⟨past, next, hi, -, -⟩ := hstep.perform_inv
  obtain ⟨op, res⟩ := e
  obtain rfl : op = .put k v := he
  have hreaches := (Pool.onTrack_run hrun i q past _ hi).2
  obtain ⟨-, rfl, -⟩ := (add_reaches hq hreaches).of_put
  exact guarded_run hrun (fun u hu => hok u (hsub u hu)) i k ⟨q, past, v, next, hi, hq⟩

end Runs

/-! ## What `ADD` promises -/

/-- An answer that tells the client its value is stored. -/
def Reply.Confirms : Reply → Prop
  | .tcp r => r.response = stored
  | .http (.ok response) => response.status = 200
  | .http (.error _) => False

/-- A `SET` or HTTP put of `value` under `k` has been acknowledged. -/
def Confirmed (ts : List (Move ι)) (k value : Bytes) : Prop :=
  ∃ t ∈ ts, ∃ i q past a, t.label = .finish i q past a ∧ q.PutOf k value ∧ a.Confirms

/-- An `ADD` that answers `STORED` has put its value where nothing was, and no
`ADD` replaces a value that was acknowledged to another writer. -/
structure AddSafe (ts : List (Move ι)) : Prop where
  stored : ∀ t ∈ ts, ∀ i q past a k value, t.label = .finish i q past a → q.AddOf k value →
    a.line = stored →
      (∃ we ∈ past, we.2.1 = .put k value) ∧ ∀ we ∈ past, ∀ v, we.2.1 = .put k v →
        we.1.map k = none
  kept : ∀ t ∈ ts, ∀ i q e k v value, t.label = .perform i q e → e.1 = .put k v →
    q.AddOf k value → ∀ confirmed, Confirmed ts k confirmed →
      t.before.world.map k ≠ some confirmed

/-- An `ADD` that answers `STORED` has put. -/
theorem AddTrace.put_of_stored {key value line : Bytes} {es : List StoreEvent}
    (h : AddTrace key value es (.inr line)) (hline : line = stored) :
    ∃ e ∈ es, e.1 = .put key value := by
  cases h with
  | getThrew what => exact absurd hline (errorLine_ne (by decide) what)
  | leftPresent s v hok => exact absurd hline (by decide)
  | leftFailed s v hok hnf => exact absurd hline (errorLine_ne (by decide) s.msg)
  | putThrew s v what hok hnf => exact absurd hline (errorLine_ne (by decide) what)
  | leftPut s s' v hok hnf => exact ⟨⟨.put key value, .ok s'⟩, by simp, rfl⟩

/-- **`ADD` never overwrites**, in every run of any number of clients in which no
other writer puts a key between the `get` and the `put` of an `ADD` of it. -/
theorem add_safe_of_keepsOut {m : Contents} {ts : List (Move ι)} {s : Clients ι}
    (h : Runs HonestEffect Operation.Parsed m ts s) (hok : ∀ t ∈ ts, KeepsOut t) :
    AddSafe ts := by
  constructor
  · intro t ht i q past a k value hl hq hstored
    obtain ⟨-, hperforms, hrecorded⟩ := Pool.finished_run h ht hl
    have htrace : AddTrace k value (events past) (.inr a.line) := add_reaches hq hperforms
    obtain ⟨e, he, hput⟩ := htrace.put_of_stored hstored
    obtain ⟨we, hwe, rfl⟩ := List.mem_map.mp he
    refine ⟨⟨we, hwe, hput⟩, fun we' hwe' v hput' => ?_⟩
    obtain ⟨u, hu, hlabel, hworld⟩ := hrecorded we' hwe'
    rw [← hworld]
    exact add_put_absent h hok hu hlabel hput' hq
  · intro t ht i q e k v value hl he hq confirmed _
    rw [add_put_absent h hok ht hl he hq]
    exact nofun

/-- A `SET` of the same key. -/
def setK : Operation :=
  .tcp { Request.fresh true 0 .set with keys := [text "k"], buffer := text "w" }

/-- A `SET` that puts once the `ADD` of its key has put, and before it unlocks. -/
theorem add_safe_addK :
    ∃ (ts : List (Move Bool)) (s : Clients Bool),
      Runs HonestEffect Operation.Parsed (fun _ => none) ts s ∧
        s.world.map (text "k") = some (text "w") ∧ AddSafe ts := by
  let s₀ : Clients Bool := Pool.initial ⟨fun _ => none, false⟩
  have h₀ : Runs HonestEffect Operation.Parsed (fun _ => none) [] s₀ := .start
  have h₁ := h₀.snoc (.start (i := true) (q := addK) rfl (by decide))
  have h₂ := h₁.snoc (.start (i := false) (q := setK) rfl (by decide))
  have h₃ := h₂.snoc (.perform (i := true) rfl ⟨.lock rfl, trivial⟩)
  have h₄ := h₃.snoc (.perform (i := true) rfl (faultless_missing rfl).honest)
  have h₅ := h₄.snoc (.perform (i := true) rfl faultless_put.honest)
  have h₆ := h₅.snoc (.perform (i := false) rfl faultless_put.honest)
  have h₇ := h₆.snoc (.finish (i := false) rfl)
  have h₈ := h₇.snoc (.perform (i := true) rfl ⟨.unlock, trivial⟩)
  have h₉ := h₈.snoc (.finish (i := true) rfl)
  have hadd : ∀ k v, ¬ addK.PutOf k v := by
    intro k v hput
    obtain ⟨-, hc, -⟩ := hput
    cases hc
  have hset : ∀ k v, ¬ setK.AddOf k v := by
    intro k v hput
    obtain ⟨-, hc, -⟩ := hput
    cases hc
  refine ⟨_, _, h₉, by decide, add_safe_of_keepsOut h₉ ?_⟩
  intro t ht i q e k value hl he hq j hj
  obtain ⟨q', past, v, next, hclient, hq'⟩ := hj
  simp only [List.nil_append, List.cons_append, List.mem_cons, List.not_mem_nil, or_false] at ht
  rcases ht with rfl | rfl | rfl | rfl | rfl | rfl | rfl | rfl | rfl <;> cases hl <;> cases he
  · exact absurd hq (hadd _ _)
  · -- the `SET` puts: the `ADD` has put and unlocks next
    cases j with
    | true => cases hclient
    | false =>
      cases hclient
      exact absurd hq' (hset _ _)

/-- The `SET` comes between the `get` and the `put` of the `ADD`. Both answer
`STORED`, and the value of the `SET` is gone. -/
theorem add_overwrites_set :
    ∃ (ts : List (Move Bool)) (s : Clients Bool),
      Runs HonestEffect Operation.Parsed (fun _ => none) ts s ∧
        s.world.map (text "k") = some (text "v") ∧ ¬ AddSafe ts := by
  let s₀ : Clients Bool := Pool.initial ⟨fun _ => none, false⟩
  have h₀ : Runs HonestEffect Operation.Parsed (fun _ => none) [] s₀ := .start
  have h₁ := h₀.snoc (.start (i := true) (q := addK) rfl (by decide))
  have h₂ := h₁.snoc (.perform (i := true) rfl ⟨.lock rfl, trivial⟩)
  have h₃ := h₂.snoc (.perform (i := true) rfl (faultless_missing rfl).honest)
  have h₄ := h₃.snoc (.start (i := false) (q := setK) rfl (by decide))
  have h₅ := h₄.snoc (.perform (i := false) rfl faultless_put.honest)
  have h₆ := h₅.snoc (.finish (i := false) rfl)
  have h₇ := h₆.snoc (.perform (i := true) rfl faultless_put.honest)
  have h₈ := h₇.snoc (.perform (i := true) rfl ⟨.unlock, trivial⟩)
  have h₉ := h₈.snoc (.finish (i := true) rfl)
  refine ⟨_, _, h₉, by decide, fun hsafe => ?_⟩
  obtain ⟨-, habsent⟩ := hsafe.stored _ (List.mem_append_right _ (List.mem_singleton_self _))
    _ _ _ _ (text "k") (text "v") rfl ⟨rfl, rfl, rfl, rfl⟩ rfl
  have hput := habsent _
    (List.mem_append_left _ (List.mem_append_right _ (List.mem_singleton_self _))) _ rfl
  exact absurd hput (by decide)

end Quitsies.Service
