import Quitsies.Service.Sharing

/-!
# How far an operation has come

Every point an operation can be at, as the calls behind it and what it does
next: its next call, or the line it answers. `ADD` and `DELETE` are composite and
have their points listed; of the others it is enough which calls they make.
-/

namespace Quitsies.Service

open Text Interaction Db Tcp

/-- The line of a TCP response. -/
def Reply.line : Reply → Bytes
  | .tcp r => r.response
  | .http _ => []

/-- Whether a call was left by an exception. -/
def threw : StoreEvent → Bool
  | ⟨.get _, .error _⟩ => true
  | ⟨.del _, .error _⟩ => true
  | ⟨.put _ _, .error _⟩ => true
  | _ => false

/-- The points of an `ADD` of `key`. -/
inductive AddTrace (key value : Bytes) : List StoreEvent → StoreCall ⊕ Bytes → Prop
  | start : AddTrace key value [] (.inl .lock)
  | locked : AddTrace key value [⟨.lock, ()⟩] (.inl (.get key))
  | getThrew (what : Bytes) :
      AddTrace key value [⟨.lock, ()⟩, ⟨.get key, .error what⟩] (.inr (errorLine what))
  | present (s : Status) (v : Bytes) : s.ok = true →
      AddTrace key value [⟨.lock, ()⟩, ⟨.get key, .ok (s, v)⟩] (.inl .unlock)
  | leftPresent (s : Status) (v : Bytes) : s.ok = true →
      AddTrace key value [⟨.lock, ()⟩, ⟨.get key, .ok (s, v)⟩, ⟨.unlock, ()⟩] (.inr notStored)
  | getFailed (s : Status) (v : Bytes) : s.ok = false → s.isNotFound = false →
      AddTrace key value [⟨.lock, ()⟩, ⟨.get key, .ok (s, v)⟩] (.inl .unlock)
  | leftFailed (s : Status) (v : Bytes) : s.ok = false → s.isNotFound = false →
      AddTrace key value [⟨.lock, ()⟩, ⟨.get key, .ok (s, v)⟩, ⟨.unlock, ()⟩]
        (.inr (errorLine s.msg))
  | missing (s : Status) (v : Bytes) : s.ok = false → s.isNotFound = true →
      AddTrace key value [⟨.lock, ()⟩, ⟨.get key, .ok (s, v)⟩] (.inl (.put key value))
  | putThrew (s : Status) (v what : Bytes) : s.ok = false → s.isNotFound = true →
      AddTrace key value [⟨.lock, ()⟩, ⟨.get key, .ok (s, v)⟩, ⟨.put key value, .error what⟩]
        (.inr (errorLine what))
  | put (s s' : Status) (v : Bytes) : s.ok = false → s.isNotFound = true →
      AddTrace key value [⟨.lock, ()⟩, ⟨.get key, .ok (s, v)⟩, ⟨.put key value, .ok s'⟩]
        (.inl .unlock)
  | leftPut (s s' : Status) (v : Bytes) : s.ok = false → s.isNotFound = true →
      AddTrace key value
        [⟨.lock, ()⟩, ⟨.get key, .ok (s, v)⟩, ⟨.put key value, .ok s'⟩, ⟨.unlock, ()⟩]
        (.inr (putAnswer (.ok s')))

/-- The points of a `DELETE` of `key`. -/
inductive DeleteTrace (key : Bytes) : List StoreEvent → StoreCall ⊕ Bytes → Prop
  | start : DeleteTrace key [] (.inl (.get key))
  | getThrew (what : Bytes) :
      DeleteTrace key [⟨.get key, .error what⟩] (.inr (errorLine what))
  | absent (s : Status) (v : Bytes) : s.ok = false →
      DeleteTrace key [⟨.get key, .ok (s, v)⟩] (.inr notFound)
  | present (s : Status) (v : Bytes) : s.ok = true →
      DeleteTrace key [⟨.get key, .ok (s, v)⟩] (.inl (.del key))
  | delThrew (s : Status) (v what : Bytes) : s.ok = true →
      DeleteTrace key [⟨.get key, .ok (s, v)⟩, ⟨.del key, .error what⟩] (.inr (errorLine what))
  | left (s s' : Status) (v : Bytes) : s.ok = true →
      DeleteTrace key [⟨.get key, .ok (s, v)⟩, ⟨.del key, .ok s'⟩]
        (.inr (if s'.ok then deleted else errorLine s'.msg))

section Traces

variable {r : Request} {key : Bytes} {keys : List Bytes} {es : List StoreEvent}
  {rest : StoreProg Request}

theorem add_trace (hdb : r.db = true) (hk : r.keys = key :: keys) (hc : r.command = .add)
    (h : (prepareResponse r).Reaches es rest) :
    AddTrace key r.buffer es (rest.front.map id Request.response) := by
  rw [prepareResponse_add hdb hk hc] at h
  rcases Prog.reaches_call.mp h with ⟨rfl, rfl⟩ | ⟨_, es₁, rfl, h₁⟩
  · exact .start
  rcases Prog.reaches_call.mp h₁ with ⟨rfl, rfl⟩ | ⟨res, es₂, rfl, h₂⟩
  · exact .locked
  rcases res with what | ⟨s, v⟩
  · obtain ⟨rfl, rfl⟩ := Prog.reaches_done.mp h₂
    exact .getThrew what
  cases hok : s.ok with
  | true =>
    simp only [hok, ↓reduceIte] at h₂
    rcases Prog.reaches_call.mp h₂ with ⟨rfl, rfl⟩ | ⟨_, es₃, rfl, h₃⟩
    · exact .present s v hok
    · obtain ⟨rfl, rfl⟩ := Prog.reaches_done.mp h₃
      exact .leftPresent s v hok
  | false =>
    cases hnf : s.isNotFound with
    | false =>
      simp only [hok, hnf, Bool.false_eq_true, ↓reduceIte] at h₂
      rcases Prog.reaches_call.mp h₂ with ⟨rfl, rfl⟩ | ⟨_, es₃, rfl, h₃⟩
      · exact .getFailed s v hok hnf
      · obtain ⟨rfl, rfl⟩ := Prog.reaches_done.mp h₃
        exact .leftFailed s v hok hnf
    | true =>
      simp only [hok, hnf, Bool.false_eq_true, ↓reduceIte] at h₂
      rcases Prog.reaches_call.mp h₂ with ⟨rfl, rfl⟩ | ⟨res, es₃, rfl, h₃⟩
      · exact .missing s v hok hnf
      rcases res with what | s'
      · obtain ⟨rfl, rfl⟩ := Prog.reaches_done.mp h₃
        exact .putThrew s v what hok hnf
      · rcases Prog.reaches_call.mp h₃ with ⟨rfl, rfl⟩ | ⟨_, es₄, rfl, h₄⟩
        · exact .put s s' v hok hnf
        · obtain ⟨rfl, rfl⟩ := Prog.reaches_done.mp h₄
          exact .leftPut s s' v hok hnf

theorem delete_trace (hdb : r.db = true) (hk : r.keys = key :: keys) (hc : r.command = .delete)
    (h : (prepareResponse r).Reaches es rest) :
    DeleteTrace key es (rest.front.map id Request.response) := by
  rw [prepareResponse_delete hdb hk hc] at h
  rcases Prog.reaches_call.mp h with ⟨rfl, rfl⟩ | ⟨res, es₁, rfl, h₁⟩
  · exact .start
  rcases res with what | ⟨s, v⟩
  · obtain ⟨rfl, rfl⟩ := Prog.reaches_done.mp h₁
    exact .getThrew what
  cases hok : s.ok with
  | false =>
    simp only [hok, Bool.false_eq_true, ↓reduceIte] at h₁
    obtain ⟨rfl, rfl⟩ := Prog.reaches_done.mp h₁
    exact .absent s v hok
  | true =>
    simp only [hok, ↓reduceIte] at h₁
    rcases Prog.reaches_call.mp h₁ with ⟨rfl, rfl⟩ | ⟨res, es₂, rfl, h₂⟩
    · exact .present s v hok
    rcases res with what | s'
    · obtain ⟨rfl, rfl⟩ := Prog.reaches_done.mp h₂
      exact .delThrew s v what hok
    · obtain ⟨rfl, rfl⟩ := Prog.reaches_done.mp h₂
      exact .left s s' v hok

end Traces

/-! ## Which operation is which -/

namespace Operation

/-- An `ADD` of `key` with `value`, as `prepare_response` reads them. -/
def AddOf (key value : Bytes) : Operation → Prop
  | tcp r => r.db = true ∧ r.command = .add ∧ r.keys.head? = some key ∧ r.buffer = value
  | _ => False

def DeleteOf (key : Bytes) : Operation → Prop
  | tcp r => r.db = true ∧ r.command = .delete ∧ r.keys.head? = some key
  | _ => False

/-- A `SET` or an HTTP put of `key` with `value`. -/
def PutOf (key value : Bytes) : Operation → Prop
  | tcp r => r.db = true ∧ r.command = .set ∧ r.keys.head? = some key ∧ r.buffer = value
  | httpGet _ => False
  | httpPut k v => k = key ∧ v = value
  | httpPost k v => k = key ∧ v = value

/-- An operation that only reads. -/
def Reads : Operation → Prop
  | tcp r => r.command = .get ∨ r.command = .gets
  | httpGet _ => True
  | httpPut _ _ => False
  | httpPost _ _ => False

end Operation

section Operations

variable {q : Operation} {key value : Bytes} {es : List StoreEvent} {rest : StoreProg Reply}

/-- The front of an operation, seen by its TCP response. -/
theorem front_tcp (p : StoreProg Request) :
    (Reply.tcp <$> p).front.map id Reply.line = p.front.map id Request.response := by
  rw [Prog.front_map, Sum.map_map]
  rfl

theorem add_reaches (hq : q.AddOf key value) (h : q.program.Reaches es rest) :
    AddTrace key value es (rest.front.map id Reply.line) := by
  cases q with
  | tcp r =>
    obtain ⟨hdb, hc, hkey, rfl⟩ := hq
    obtain ⟨keys, hk⟩ := List.head?_eq_some_iff.mp hkey
    obtain ⟨p, hp, rfl⟩ := Prog.reaches_map h
    rw [front_tcp]
    exact add_trace hdb hk hc hp
  | httpGet k => cases hq
  | httpPut k v => cases hq
  | httpPost k v => cases hq

theorem delete_reaches (hq : q.DeleteOf key) (h : q.program.Reaches es rest) :
    DeleteTrace key es (rest.front.map id Reply.line) := by
  cases q with
  | tcp r =>
    obtain ⟨hdb, hc, hkey⟩ := hq
    obtain ⟨keys, hk⟩ := List.head?_eq_some_iff.mp hkey
    obtain ⟨p, hp, rfl⟩ := Prog.reaches_map h
    rw [front_tcp]
    exact delete_trace hdb hk hc hp
  | httpGet k => cases hq
  | httpPut k v => cases hq
  | httpPost k v => cases hq

/-- A retrieval only gets. -/
theorem retrieve_calls (keys : List Bytes) (f : Bytes → Bytes) :
    (Attempt.run (f <$> retrieve keys) errorLine).Calls fun c => ∃ key, c = .get key := by
  induction keys generalizing f with
  | nil => trivial
  | cons key keys ih =>
    rw [run_retrieve_cons]
    refine ⟨⟨key, rfl⟩, fun res => ?_⟩
    rcases res with what | sv
    · trivial
    · exact ih _

/-- What an operation is, and the calls it can come to. -/
inductive Shape (q : Operation) : Prop
  | add (key value : Bytes) : q.AddOf key value → Shape q
  | delete (key : Bytes) : q.DeleteOf key → Shape q
  | put (key value : Bytes) : q.PutOf key value →
      q.program.Calls (fun c => c = .put key value) → Shape q
  | read : q.Reads → q.program.Calls (fun c => ∃ key, c = .get key) → Shape q
  | silent : q.program.Calls (fun _ => False) → Shape q

theorem shape (q : Operation) : Shape q := by
  cases q with
  | httpGet k =>
    refine .read trivial ?_
    rw [Operation.program_httpGet]
    exact ⟨⟨k, rfl⟩, fun _ => trivial⟩
  | httpPut k v =>
    refine .put k v ⟨rfl, rfl⟩ ?_
    rw [Operation.program, keyPut, Operation.program_storeBody]
    exact ⟨rfl, fun _ => trivial⟩
  | httpPost k v =>
    refine .put k v ⟨rfl, rfl⟩ ?_
    rw [Operation.program, keyPost, Operation.program_storeBody]
    exact ⟨rfl, fun _ => trivial⟩
  | tcp r =>
    by_cases hping : r.command = .ping
    · refine .silent ?_
      rw [Operation.program, prepareResponse_ping hping]
      trivial
    cases hdb : r.db with
    | false =>
      refine .silent ?_
      simp only [Operation.program, prepareResponse, hping, hdb]
      trivial
    | true =>
      cases hk : r.keys with
      | nil =>
        refine .silent ?_
        simp only [Operation.program, prepareResponse, hping, hdb, hk]
        trivial
      | cons key keys =>
        have hkey : r.keys.head? = some key := by rw [hk]; rfl
        cases hc : r.command with
        | set =>
          refine .put key r.buffer ⟨hdb, hc, hkey, rfl⟩ ?_
          rw [Operation.program, prepareResponse_set hdb hk hc]
          exact ⟨rfl, fun _ => trivial⟩
        | add => exact .add key r.buffer ⟨hdb, hc, hkey, rfl⟩
        | delete => exact .delete key ⟨hdb, hc, hkey⟩
        | get =>
          refine .read (.inl hc) ?_
          rw [Operation.program, prepareResponse_retrieval hdb hk (.inl hc),
            ← id_map (retrieve r.keys)]
          exact ((retrieve_calls r.keys id).map _).map _
        | gets =>
          refine .read (.inr hc) ?_
          rw [Operation.program, prepareResponse_retrieval hdb hk (.inr hc),
            ← id_map (retrieve r.keys)]
          exact ((retrieve_calls r.keys id).map _).map _
        | ping => exact absurd hc hping
        | quit =>
          refine .silent ?_
          rw [Operation.program, prepareResponse_of_key hdb hk hping]
          simp only [respond, hc]
          trivial
        | none =>
          refine .silent ?_
          rw [Operation.program, prepareResponse_of_key hdb hk hping]
          simp only [respond, hc]
          trivial

/-! ## Who calls what -/

theorem put_caller {next} (h : q.program.Reaches es (.call (.put key value) next)) :
    q.AddOf key value ∨ q.PutOf key value := by
  cases shape q with
  | add k v hq =>
    have htrace := add_reaches hq h
    cases htrace with
    | missing s v' hok hnf => exact .inl hq
  | delete k hq =>
    have htrace := delete_reaches hq h
    cases htrace
  | put k v hq hp =>
    obtain ⟨-, hcall, -⟩ := hp.reaches h
    cases hcall
    exact .inr hq
  | read _ hp =>
    obtain ⟨-, ⟨k, hcall⟩, -⟩ := hp.reaches h
    cases hcall
  | silent hp => exact (hp.reaches h).2.1.elim

theorem del_caller {next} (h : q.program.Reaches es (.call (.del key) next)) :
    q.DeleteOf key := by
  cases shape q with
  | add k v hq =>
    have htrace := add_reaches hq h
    cases htrace
  | delete k hq =>
    have htrace := delete_reaches hq h
    cases htrace with
    | present s v hok => exact hq
  | put k v _ hp =>
    obtain ⟨-, hcall, -⟩ := hp.reaches h
    cases hcall
  | read _ hp =>
    obtain ⟨-, ⟨k, hcall⟩, -⟩ := hp.reaches h
    cases hcall
  | silent hp => exact (hp.reaches h).2.1.elim

/-- Between its `get` and its `put` an `ADD` has locked and found nothing. -/
theorem AddTrace.of_put {k v : Bytes} (h : AddTrace key value es (.inl (.put k v))) :
    k = key ∧ v = value ∧ ∃ s v', s.ok = false ∧ s.isNotFound = true ∧
      es = [⟨.lock, ()⟩, ⟨.get key, .ok (s, v')⟩] := by
  cases h with
  | missing s v' hok hnf => exact ⟨rfl, rfl, s, v', hok, hnf, rfl⟩

/-- Between its `get` and its `del` a `DELETE` has found its key. -/
theorem DeleteTrace.of_del {k : Bytes} (h : DeleteTrace key es (.inl (.del k))) :
    k = key ∧ ∃ s v, s.ok = true ∧ es = [⟨.get key, .ok (s, v)⟩] := by
  cases h with
  | present s v hok => exact ⟨rfl, s, v, hok, rfl⟩

end Operations

end Quitsies.Service
