import Quitsies.Tcp.Request

/-!
# The calls behind an answer

`prepareResponse` command by command, as the tree of store calls it performs.
These equations are what the other modules know of it.
-/

namespace Quitsies.Tcp

open Text Interaction Db

/-- No other answer starts like an error. -/
theorem errorLine_ne {line : Bytes} (h : line.head? ≠ some 69) (msg : Bytes) :
    errorLine msg ≠ line := by
  rintro rfl
  exact h (by simp [errorLine, text, charByte])

/-- What a `put` answers. -/
def putAnswer : Except Bytes Status → Bytes
  | .ok s => if s.ok then stored else errorLine s.msg
  | .error what => errorLine what

theorem prepareResponse_of_key {r : Request} {key : Bytes} {keys : List Bytes}
    (hdb : r.db = true) (hk : r.keys = key :: keys) (hc : r.command ≠ .ping) :
    prepareResponse r = r.answered <$> Attempt.run (respond r key) errorLine := by
  simp [prepareResponse, hc, hdb, hk]

theorem prepareResponse_set {r : Request} {key : Bytes} {keys : List Bytes}
    (hdb : r.db = true) (hk : r.keys = key :: keys) (hc : r.command = .set) :
    prepareResponse r =
      .call (.put key r.buffer) fun res => .done (r.answered (putAnswer res)) := by
  rw [prepareResponse_of_key hdb hk (by simp [hc])]
  simp only [respond, hc, Attempt.run_put_bind, Prog.map_call]
  congr 1
  funext res
  rcases res with what | s
  · rfl
  · cases h : s.ok <;> simp [h, putAnswer]

theorem prepareResponse_add {r : Request} {key : Bytes} {keys : List Bytes}
    (hdb : r.db = true) (hk : r.keys = key :: keys) (hc : r.command = .add) :
    prepareResponse r =
      .call .lock fun _ => .call (.get key) fun res =>
        match res with
        | .error what => .done (r.answered (errorLine what))
        | .ok (s, _) =>
          if s.ok then .call .unlock fun _ => .done (r.answered notStored)
          else if s.isNotFound then
            .call (.put key r.buffer) fun res =>
              match res with
              | .error what => .done (r.answered (errorLine what))
              | .ok _ => .call .unlock fun _ => .done (r.answered (putAnswer res))
          else .call .unlock fun _ => .done (r.answered (errorLine s.msg)) := by
  rw [prepareResponse_of_key hdb hk (by simp [hc])]
  simp only [respond, hc, Attempt.run_lock_bind, Attempt.run_get_bind, Prog.map_call]
  congr 1
  funext _
  congr 1
  funext res
  rcases res with what | ⟨s, v⟩
  · rfl
  · cases h : s.ok with
    | true => simp [h, -bind_pure_comp]
    | false =>
      cases h' : s.isNotFound with
      | false => simp [h, h', -bind_pure_comp]
      | true =>
        simp only [h, h', Bool.not_false, ↓reduceIte, Attempt.run_put_bind, Prog.map_call,
          Bool.false_eq_true, Attempt.andThen_ok]
        congr 1
        funext res
        rcases res with what | s
        · rfl
        · cases h : s.ok <;> simp [h, putAnswer, -bind_pure_comp]

theorem prepareResponse_delete {r : Request} {key : Bytes} {keys : List Bytes}
    (hdb : r.db = true) (hk : r.keys = key :: keys) (hc : r.command = .delete) :
    prepareResponse r =
      .call (.get key) fun res =>
        match res with
        | .error what => .done (r.answered (errorLine what))
        | .ok (s, _) =>
          if s.ok then
            .call (.del key) fun res =>
              match res with
              | .error what => .done (r.answered (errorLine what))
              | .ok s => .done (r.answered (if s.ok then deleted else errorLine s.msg))
          else .done (r.answered notFound) := by
  rw [prepareResponse_of_key hdb hk (by simp [hc])]
  simp only [respond, hc, Attempt.run_get_bind, Prog.map_call]
  congr 1
  funext res
  rcases res with what | ⟨s, v⟩
  · rfl
  · cases h : s.ok with
    | false => simp [h]
    | true =>
      simp only [h, Bool.not_true, Bool.false_eq_true, ↓reduceIte, Attempt.andThen_ok,
        Attempt.run_del_bind, Prog.map_call]
      congr 1
      funext res
      rcases res with what | s
      · rfl
      · cases h : s.ok <;> simp [h]

theorem prepareResponse_retrieval {r : Request} {key : Bytes} {keys : List Bytes}
    (hdb : r.db = true) (hk : r.keys = key :: keys) (hc : r.command = .get ∨ r.command = .gets) :
    prepareResponse r = r.answered <$> Attempt.run (retrieve r.keys) errorLine := by
  rcases hc with hc | hc <;> rw [prepareResponse_of_key hdb hk (by simp [hc])] <;>
    simp only [respond, hc]

theorem prepareResponse_ping {r : Request} (hc : r.command = .ping) :
    prepareResponse r = .done (r.answered pong) := by
  simp [prepareResponse, hc]

/-- What a retrieval prints for a key, in front of the rest. -/
def block (key : Bytes) (res : Status × Bytes) (rest : Bytes) : Bytes :=
  if res.1.ok then valueBlock key res.2 ++ rest else rest

@[simp] theorem run_retrieve_nil (f : Bytes → Bytes) :
    Attempt.run (f <$> retrieve []) errorLine = .done (f endLine) := rfl

/-- A retrieval is a `get` for each key in turn, ended early only by an exception;
`f` is what the blocks already printed make of the rest. -/
theorem run_retrieve_cons (f : Bytes → Bytes) (key : Bytes) (keys : List Bytes) :
    Attempt.run (f <$> retrieve (key :: keys)) errorLine =
      .call (.get key) fun res =>
        match res with
        | .error what => .done (errorLine what)
        | .ok sv =>
          Attempt.run ((fun rest => f (block key sv rest)) <$> retrieve keys) errorLine := by
  simp only [retrieve, map_bind, Attempt.run_get_bind]
  congr 1
  funext res
  rcases res with what | ⟨s, v⟩
  · rfl
  · cases h : s.ok <;> simp [h, block]

/-- Whatever the store does, the request comes back answered and otherwise unchanged. -/
theorem prepareResponse_returns (r : Request) :
    (prepareResponse r).Returns fun r' => ∃ response, r' = r.answered response := by
  unfold prepareResponse
  split
  · exact ⟨_, rfl⟩
  split
  · exact ⟨_, rfl⟩
  split
  · exact ⟨_, rfl⟩
  · exact Prog.returns_map fun _ => ⟨_, rfl⟩

@[simp] theorem answered_status (r : Request) (response : Bytes) :
    (r.answered response).status = .finished := rfl

theorem prepareResponse_finished (r : Request) :
    (prepareResponse r).Returns fun r' => r'.status = .finished :=
  (prepareResponse_returns r).mono fun _ ⟨_, h⟩ => by rw [h, answered_status]

end Quitsies.Tcp
