import Quitsies.Service.Trace

/-!
# Who holds the mutex

Only `ADD` locks. It unlocks on every path but the two on which an exception of
the store leaves its `try` block: the handler stands outside the locked region.
Everything here holds of any store, whatever its calls return or throw.
-/

namespace Quitsies.Service

open Text Interaction Db Tcp
open Pool (held Holds events Exclusive)

/-! ## The lock along one request -/

theorem AddTrace.held_of_unlock {key value : Bytes} {es : List StoreEvent}
    (h : AddTrace key value es (.inl .unlock)) : held locks unlocks es = true := by
  cases h with
  | present s v hok => rfl
  | getFailed s v hok hnf => rfl
  | put s s' v hok hnf => rfl

/-- An `ADD` returns with the mutex exactly when a call has thrown. -/
theorem AddTrace.held_of_answer {key value : Bytes} {es : List StoreEvent} {line : Bytes}
    (h : AddTrace key value es (.inr line)) : held locks unlocks es = es.any threw := by
  cases h with
  | getThrew what => rfl
  | leftPresent s v hok => rfl
  | leftFailed s v hok hnf => rfl
  | putThrew s v what hok hnf => rfl
  | leftPut s s' v hok hnf => rfl

theorem DeleteTrace.not_locks {key : Bytes} {es : List StoreEvent} {front : StoreCall ⊕ Bytes}
    (h : DeleteTrace key es front) : (∀ e ∈ es, locks e.1 = false) ∧ front ≠ .inl .unlock := by
  cases h with
  | start => exact ⟨nofun, nofun⟩
  | getThrew what => exact ⟨by simp [locks], nofun⟩
  | absent s v hok => exact ⟨by simp [locks], nofun⟩
  | present s v hok => exact ⟨by simp [locks], nofun⟩
  | delThrew s v what hok => exact ⟨by simp [locks], nofun⟩
  | left s s' v hok => exact ⟨by simp [locks], nofun⟩

section OneOperation

variable {q : Operation} {es : List StoreEvent} {rest : StoreProg Reply}

/-- Apart from `ADD` no operation touches the mutex. -/
theorem mutex_calls (q : Operation) :
    (∃ key value, q.AddOf key value) ∨
      ∀ es rest, q.program.Reaches es rest →
        (∀ e ∈ es, locks e.1 = false) ∧ ∀ next, rest ≠ .call .unlock next := by
  have hcalls {P : StoreCall → Prop} (hp : q.program.Calls P)
      (hP : ∀ c, P c → locks c = false ∧ c ≠ .unlock) (es : List StoreEvent)
      (rest : StoreProg Reply) (h : q.program.Reaches es rest) :
      (∀ e ∈ es, locks e.1 = false) ∧ ∀ next, rest ≠ .call .unlock next := by
    obtain ⟨hes, hrest⟩ := hp.reaches h
    refine ⟨fun e he => (hP _ (hes e he)).1, ?_⟩
    rintro next rfl
    exact (hP _ hrest.1).2 rfl
  cases shape q with
  | add key value hq => exact .inl ⟨key, value, hq⟩
  | delete key hq =>
    right
    intro es rest h
    obtain ⟨hes, hfront⟩ := (delete_reaches hq h).not_locks
    refine ⟨hes, ?_⟩
    rintro next rfl
    exact hfront rfl
  | put key value _ hp => exact .inr (hcalls hp (by rintro _ rfl; exact ⟨rfl, nofun⟩))
  | read _ hp => exact .inr (hcalls hp (by rintro _ ⟨key, rfl⟩; exact ⟨rfl, nofun⟩))
  | silent hp => exact .inr (hcalls hp fun _ h => h.elim)

theorem disciplined (offered : Operation → Prop) :
    Pool.Disciplined locks unlocks Operation.program offered := by
  intro q es op next _ h _ hu
  obtain rfl : op = .unlock := by simpa [unlocks] using hu
  rcases mutex_calls q with ⟨key, value, hq⟩ | hno
  · exact (add_reaches hq h).held_of_unlock
  · exact absurd rfl ((hno es _ h).2 next)

/-- What an operation returns with. -/
theorem held_of_performs {a : Reply} (h : q.program.Performs es a) :
    held locks unlocks es = true ↔
      (∃ key value, q.AddOf key value) ∧ ∃ e ∈ es, threw e = true := by
  rcases mutex_calls q with ⟨key, value, hq⟩ | hno
  · rw [(add_reaches hq h).held_of_answer, List.any_eq_true]
    exact ⟨fun ht => ⟨⟨key, value, hq⟩, ht⟩, fun ht => ht.2⟩
  · have hfree := Pool.held_eq_false locks unlocks (hno es _ h).1
    rw [hfree]
    refine ⟨nofun, ?_⟩
    intro hthrew
    obtain ⟨⟨key, value, hq⟩, he⟩ := hthrew
    have hany := (add_reaches hq h).held_of_answer
    rw [hfree, eq_comm, List.any_eq_false] at hany
    obtain ⟨e, he, ht⟩ := he
    exact absurd ht (hany e he)

end OneOperation

/-! ## The lock over a run -/

variable {ι : Type} [DecidableEq ι]

/-- No request has returned with the mutex, and while it is taken a request that
is still running holds it. -/
structure MutexReleased (ts : List (Move ι)) : Prop where
  returned : ∀ t ∈ ts, ∀ i q past a, t.label = .finish i q past a →
    held locks unlocks (events past) = false
  running : ∀ t ∈ ts, t.after.world.locked = true → ∃ i, Holds locks unlocks t.after i

/-- **No leaked mutex**, in every run of every store, exactly when no `ADD` has
returned after a call that threw. -/
theorem mutex_released_iff {m : Contents} {ts : List (Move ι)} {s : Clients ι}
    (h : Runs Effect (fun _ => True) m ts s) :
    MutexReleased ts ↔
      ∀ t ∈ ts, ∀ i q past a, t.label = .finish i q past a → (∃ key value, q.AddOf key value) →
        ∀ e ∈ events past, threw e = false := by
  constructor
  · intro hreleased t ht i q past a hl hq e he
    obtain ⟨-, hperforms, -⟩ := Pool.finished_run h ht hl
    by_contra hthrew
    have hheld := (held_of_performs hperforms).mpr ⟨hq, e, he, by simpa using hthrew⟩
    rw [hreleased.returned t ht i q past a hl] at hheld
    cases hheld
  · intro hquiet
    have hreturned : ∀ t ∈ ts, ∀ i q past a, t.label = .finish i q past a →
        held locks unlocks (events past) = false := by
      intro t ht i q past a hl
      obtain ⟨-, hperforms, -⟩ := Pool.finished_run h ht hl
      apply Bool.eq_false_of_not_eq_true
      intro hheld
      obtain ⟨hq, e, he, hthrew⟩ := (held_of_performs hperforms).mp hheld
      rw [hquiet t ht i q past a hl hq e he] at hthrew
      cases hthrew
    refine ⟨hreturned, fun t ht hlocked => ?_⟩
    obtain ⟨ts₁, ts₂, rfl⟩ := List.append_of_mem ht
    have hrun := h.split.2.2
    rcases Pool.locked_run effect_lockLaw rfl hrun hlocked with hholds | hleak
    · exact hholds
    · obtain ⟨t', ht', i, q, past, a, hl, hheld⟩ := hleak
      have hmem : t' ∈ ts₁ ++ t :: ts₂ := by
        rcases List.mem_append.mp ht' with h₁ | h₁
        · exact List.mem_append_left _ h₁
        · rw [List.mem_singleton.mp h₁]
          exact ht
      rw [hreturned t' hmem i q past a hl] at hheld
      cases hheld

/-- An `ADD` of the key `k`. -/
def addK : Operation :=
  .tcp { Request.fresh true 0 .add with keys := [text "k"], buffer := text "v" }

/-- An `ADD` whose `get` throws, from its start to its answer. -/
theorem throwing_add_run (what : Bytes) :
    ∃ (ts : List (Move Unit)) (s : Clients Unit) (a : Reply),
      Runs Effect (fun _ => True) (fun _ => none) ts s ∧ a.line = errorLine what ∧
      s = ⟨⟨fun _ => none, true⟩, s.client⟩ ∧ s.client () = .idle ∧
      ∃ t ∈ ts, t.label = .finish () addK
        [(⟨fun _ => none, false⟩, ⟨.lock, ()⟩),
          (⟨fun _ => none, true⟩, ⟨.get (text "k"), .error what⟩)] a := by
  let s₀ : Clients Unit := Pool.initial ⟨fun _ => none, false⟩
  have h₀ : Runs Effect (fun _ => True) (fun _ => none) [] s₀ := .start
  have h₁ := h₀.snoc (.start (i := ()) (q := addK) rfl trivial)
  have h₂ := h₁.snoc (.perform (i := ()) rfl (.lock rfl))
  have h₃ := h₂.snoc (.perform (i := ()) (r := Except.error what) rfl .get)
  have h₄ := h₃.snoc (.finish (i := ()) rfl)
  exact ⟨_, _, _, h₄, rfl, rfl, rfl, _, List.mem_append_right _ (List.mem_singleton_self _), rfl⟩

theorem mutex_released_iff_throwing :
    ∃ (ts : List (Move Unit)) (s : Clients Unit),
      Runs Effect (fun _ => True) (fun _ => none) ts s ∧ ts ≠ [] ∧
      (MutexReleased ts ↔
        ∀ t ∈ ts, ∀ i q past a, t.label = .finish i q past a →
          (∃ key value, q.AddOf key value) → ∀ e ∈ events past, threw e = false) := by
  obtain ⟨ts, s, a, h, -, -, -, t, ht, -⟩ := throwing_add_run (text "bad")
  exact ⟨ts, s, h, List.ne_nil_of_mem ht, mutex_released_iff h⟩

/-- The `ADD` has answered, nobody is running, and nobody can lock any more. -/
theorem mutex_leaked :
    ∃ (ts : List (Move Unit)) (s : Clients Unit),
      Runs Effect (fun _ => True) (fun _ => none) ts s ∧ ¬ MutexReleased ts ∧
      s.client () = .idle ∧ ∀ w, ¬ Effect s.world ⟨.lock, ()⟩ w := by
  obtain ⟨ts, s, a, h, -, hs, hidle, t, ht, hl⟩ := throwing_add_run (text "bad")
  refine ⟨ts, s, h, fun hreleased => ?_, hidle, fun w hw => ?_⟩
  · have hfalse := hreleased.returned t ht _ _ _ _ hl
    cases hfalse
  · have hfree := (effect_lockLaw.lock hw rfl).1
    rw [hs] at hfree
    cases hfree

end Quitsies.Service
