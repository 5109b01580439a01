import Quitsies.Interaction.Progress
import Quitsies.Service.Mutex

/-!
# Whether the clients come to their end

Only `ADD` waits for anything, and it holds the mutex for one lookup and one put. As long
as the store answers without an exception, every request that is under way returns, on
every schedule; an `ADD` that was left by an exception takes the mutex with it, and who
waits for it then waits for good.
-/

namespace Quitsies.Service

open Text Interaction Db Tcp
open Pool (Holds About Quiet events)

/-- A store that may fail but does not throw. -/
def AnsweringEffect (w : World) (e : StoreEvent) (w' : World) : Prop :=
  Effect w e w' ∧ threw e = false

/-- The mutex is free, or held by an `ADD` that has a call left, or nobody waits for it. -/
abbrev MutexFree {ι : Type} (s : Clients ι) : Prop := Pool.Free locks unlocks World.locked s

/-! ## How many calls an operation makes -/

theorem retrieve_atMost (f : Bytes → Bytes) (keys : List Bytes) :
    (Attempt.run (f <$> retrieve keys) errorLine).AtMost keys.length := by
  induction keys generalizing f with
  | nil => trivial
  | cons key keys ih =>
    rw [run_retrieve_cons]
    refine ⟨Nat.succ_pos _, fun res => ?_⟩
    rcases res with what | sv
    · trivial
    · exact ih _

theorem add_atMost {r : Request} {key : Bytes} {keys : List Bytes} (hdb : r.db = true)
    (hk : r.keys = key :: keys) (hc : r.command = .add) : (prepareResponse r).AtMost 4 := by
  rw [prepareResponse_add hdb hk hc]
  refine ⟨by decide, fun _ => ⟨by decide, fun res => ?_⟩⟩
  rcases res with what | ⟨s, v⟩
  · trivial
  · simp only
    split
    · exact ⟨by decide, fun _ => trivial⟩
    · split
      · refine ⟨by decide, fun res => ?_⟩
        rcases res with what | s'
        · trivial
        · exact ⟨by decide, fun _ => trivial⟩
      · exact ⟨by decide, fun _ => trivial⟩

theorem delete_atMost {r : Request} {key : Bytes} {keys : List Bytes} (hdb : r.db = true)
    (hk : r.keys = key :: keys) (hc : r.command = .delete) : (prepareResponse r).AtMost 2 := by
  rw [prepareResponse_delete hdb hk hc]
  refine ⟨by decide, fun res => ?_⟩
  rcases res with what | ⟨s, v⟩
  · trivial
  · simp only
    split
    · refine ⟨by decide, fun res => ?_⟩
      rcases res with what | s' <;> trivial
    · trivial

theorem prepareResponse_atMost (r : Request) : ∃ n, (prepareResponse r).AtMost n := by
  by_cases hping : r.command = .ping
  · rw [prepareResponse_ping hping]
    exact ⟨0, trivial⟩
  cases hdb : r.db with
  | false =>
    simp only [prepareResponse, hping, hdb]
    exact ⟨0, trivial⟩
  | true =>
    cases hk : r.keys with
    | nil =>
      simp only [prepareResponse, hping, hdb, hk]
      exact ⟨0, trivial⟩
    | cons key keys =>
      cases hc : r.command with
      | set =>
        rw [prepareResponse_set hdb hk hc]
        exact ⟨1, by decide, fun _ => trivial⟩
      | add => exact ⟨4, add_atMost hdb hk hc⟩
      | delete => exact ⟨2, delete_atMost hdb hk hc⟩
      | get =>
        rw [prepareResponse_retrieval hdb hk (.inl hc), ← id_map (retrieve r.keys)]
        exact ⟨_, (retrieve_atMost id r.keys).map _⟩
      | gets =>
        rw [prepareResponse_retrieval hdb hk (.inr hc), ← id_map (retrieve r.keys)]
        exact ⟨_, (retrieve_atMost id r.keys).map _⟩
      | ping => exact absurd hc hping
      | quit =>
        rw [prepareResponse_of_key hdb hk hping]
        simp only [respond, hc]
        exact ⟨0, trivial⟩
      | none =>
        rw [prepareResponse_of_key hdb hk hping]
        simp only [respond, hc]
        exact ⟨0, trivial⟩

theorem program_atMost (q : Operation) : ∃ n, q.program.AtMost n := by
  cases q with
  | tcp r =>
    obtain ⟨n, hn⟩ := prepareResponse_atMost r
    exact ⟨n, hn.map _⟩
  | httpGet key =>
    rw [Operation.program_httpGet]
    exact ⟨1, by decide, fun _ => trivial⟩
  | httpPut key body =>
    rw [Operation.program, keyPut, Operation.program_storeBody]
    exact ⟨1, by decide, fun _ => trivial⟩
  | httpPost key body =>
    rw [Operation.program, keyPost, Operation.program_storeBody]
    exact ⟨1, by decide, fun _ => trivial⟩

/-! ## The mutex in one request -/

section OneRequest

variable {q : Operation} {key value : Bytes} {es : List StoreEvent} {e : StoreEvent}
  {rest : StoreProg Reply}

/-- An `ADD` returns with the mutex only right behind the call that threw. -/
theorem AddTrace.threw_last {line : Bytes} (h : AddTrace key value (es ++ [e]) (.inr line))
    (hheld : Pool.held locks unlocks (es ++ [e]) = true) : threw e = true := by
  have hany := h.held_of_answer.symm.trans hheld
  generalize hall : es ++ [e] = all at h hany
  have hlast : all.getLast? = some e := by rw [← hall, List.getLast?_concat]
  cases h with
  | getThrew what =>
    obtain rfl := Option.some.inj hlast
    rfl
  | putThrew s v what hok hnf =>
    obtain rfl := Option.some.inj hlast
    rfl
  | leftPresent s v hok => exact absurd hany Bool.false_ne_true
  | leftFailed s v hok hnf => exact absurd hany Bool.false_ne_true
  | leftPut s s' v hok hnf => exact absurd hany Bool.false_ne_true

/-- The mutex comes first. -/
theorem front_not_lock (h : q.program.Reaches (es ++ [e]) rest) {op : StoreCall}
    (hop : rest.front = .inl op) : locks op = false := by
  rcases mutex_calls q with ⟨key, value, hq⟩ | hno
  · have htrace := add_reaches hq h
    rw [hop] at htrace
    generalize hall : es ++ [e] = all at htrace
    cases htrace with
    | start => exact absurd hall (by simp)
    | locked => rfl
    | present s v hok => rfl
    | getFailed s v hok hnf => rfl
    | missing s v hok hnf => rfl
    | put s s' v hok hnf => rfl
  · cases rest with
    | done a => cases hop
    | call op' next =>
      obtain rfl := Sum.inl.inj hop
      have hsnoc := h.snoc (Classical.arbitrary (StoreResult op'))
      exact (hno _ _ hsnoc).1 _ (List.mem_append_right _ (List.mem_singleton_self _))

theorem courteous (offered : Operation → Prop) :
    Pool.Courteous locks unlocks Operation.program offered AnsweringEffect where
  first q := Prog.chained_of_reaches fun _ _ _ h _ hop => front_not_lock h hop
  onward := by
    intro q es e rest w w' _ h hheld hw
    cases rest with
    | call op next => exact ⟨op, next, rfl⟩
    | done a =>
      rcases mutex_calls q with ⟨key, value, hq⟩ | hno
      · have hthrew := (add_reaches hq h).threw_last hheld
        rw [hw.2] at hthrew
        cases hthrew
      · rw [Pool.held_eq_false locks unlocks (hno _ _ h).1] at hheld
        cases hheld

end OneRequest

theorem answering : Pool.Answering locks World.locked AnsweringEffect := by
  intro w op hopen
  cases op with
  | get key => exact ⟨.ok (.missing, []), w, .get, rfl⟩
  | del key => exact ⟨.ok .success, _, .del, rfl⟩
  | put key value => exact ⟨.ok .success, _, .put, rfl⟩
  | lock => exact ⟨(), _, .lock (hopen rfl), rfl⟩
  | unlock => exact ⟨(), _, .unlock, rfl⟩

variable {ι : Type} [DecidableEq ι]

/-- **Whether the clients come to their end**, from any state of any run: on every schedule
of the requests under way, as long as the store answers, exactly if the mutex is free, or
held by a client with a call left, or not waited for; otherwise a client waits for good,
whatever is requested or answered. -/
theorem drains_iff {offered : Operation → Prop} {m : Contents} {ts : List (Move ι)}
    {s : Clients ι} (h : Runs Effect offered m ts s) :
    (Inevitable (Pool.Step Operation.program AnsweringEffect fun _ => False) Quiet s ↔
      MutexFree s) ∧
    ((∃ i, ∀ ts' s', Run (Pool.Step Operation.program Effect offered) s ts' s' →
      About s' i .lock) ↔ ¬ MutexFree s) := by
  have ht := Pool.onTrack_run h
  obtain ⟨total, howing⟩ := Pool.owing_run program_atMost h
  have hlaw : Pool.LockLaw locks unlocks World.locked AnsweringEffect :=
    effect_lockLaw.mono fun _ _ _ hw => hw.1
  have hfree : MutexFree s →
      Inevitable (Pool.Step Operation.program AnsweringEffect fun _ => False) Quiet s :=
    fun hfree => hfree.inevitable hlaw (courteous offered) answering ht howing
  have hlost : ¬ MutexFree s → ∃ i, ∀ ts' s',
      Run (Pool.Step Operation.program Effect offered) s ts' s' → About s' i .lock := by
    intro hfree
    obtain ⟨hlost, i, op, hop, ha⟩ := Pool.lost_of_not_free hfree
    obtain rfl : op = .lock := by simpa [locks] using hop
    exact ⟨i, fun ts' s' hrun => hlost.run effect_lockLaw (disciplined offered) ht hop ha hrun⟩
  -- a schedule without new requests and without exceptions is one of all schedules
  have hnot : (∃ i, ∀ ts' s', Run (Pool.Step Operation.program Effect offered) s ts' s' →
      About s' i .lock) →
      ¬ Inevitable (Pool.Step Operation.program AnsweringEffect fun _ => False) Quiet s := by
    rintro ⟨i, hwaits⟩ hend
    obtain ⟨ts', s', hrun, hquiet⟩ := hend.run
    have hrun' : Run (Pool.Step Operation.program Effect offered) s ts' s' :=
      hrun.mono fun _ _ _ hs => hs.mono (fun _ _ _ hw => hw.1) fun _ h => h.elim
    exact Pool.not_about_idle (hquiet i) .lock (hwaits ts' s' hrun')
  refine ⟨⟨fun hend => ?_, hfree⟩, fun hwaits hf => hnot hwaits (hfree hf), hlost⟩
  by_contra hf
  exact hnot (hlost hf) hend

/-- One `ADD` is left by an exception, and another one waits. -/
theorem drains_iff_throwing :
    ∃ (ts : List (Move Bool)) (s : Clients Bool),
      Runs Effect (fun _ => True) (fun _ => none) ts s ∧ s.client true = .idle ∧
      ∃ i, ∀ ts' s', Run (Pool.Step Operation.program Effect fun _ => True) s ts' s' →
        About s' i .lock := by
  let s₀ : Clients Bool := Pool.initial ⟨fun _ => none, false⟩
  have h₀ : Runs Effect (fun _ => True) (fun _ => none) [] s₀ := .start
  have h₁ := h₀.snoc (.start (i := true) (q := addK) rfl trivial)
  have h₂ := h₁.snoc (.perform (i := true) rfl (.lock rfl))
  have h₃ := h₂.snoc (.start (i := false) (q := addK) rfl trivial)
  have h₄ := h₃.snoc (.perform (i := true) (r := Except.error (text "bad")) rfl .get)
  have h₅ := h₄.snoc (.finish (i := true) rfl)
  refine ⟨_, _, h₅, rfl, (drains_iff h₅).2.mpr fun hfree => ?_⟩
  rcases hfree rfl with ⟨i, op, hholds, ha⟩ | hnone
  · cases i with
    | true => exact Pool.not_about_idle rfl op ha
    | false =>
      obtain ⟨q, past, rest, hi, hheld⟩ := hholds
      obtain ⟨-, rfl, -⟩ := Client.busy.inj hi
      cases hheld
  · exact hnone false .lock rfl ⟨addK, [], _, rfl⟩

end Quitsies.Service
