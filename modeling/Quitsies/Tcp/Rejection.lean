import Quitsies.Tcp.Pipeline

/-!
# What follows a rejected request

An exception of the parser answers the request with `CLIENT_ERROR` and drops the
rest of the read. The rest of the request, if it comes in later reads, is then
read by a parser that has been reset: nothing remembers how many bytes of the
rejected request are still to come.
-/

namespace Quitsies.Tcp

open Text Interaction Db WellFormed

/-! ## A rejected request has not been executed -/

/-- The first letter of `CLIENT_ERROR`, which no answer of `prepare_response` has. -/
def Executed (response : Bytes) : Prop := response.head? ≠ some 67

instance (response : Bytes) : Decidable (Executed response) :=
  inferInstanceAs (Decidable (_ ≠ _))

theorem executed_errorLine (msg : Bytes) : Executed (errorLine msg) := by
  simp [Executed, errorLine, text, charByte]

theorem executed_valueBlock (key value rest : Bytes) : Executed (valueBlock key value ++ rest) := by
  simp [Executed, valueBlock, text, charByte]

theorem executed_putAnswer (res : Except Bytes Status) : Executed (putAnswer res) := by
  rcases res with what | s
  · exact executed_errorLine what
  · unfold putAnswer
    dsimp only
    split
    · decide
    · exact executed_errorLine s.msg

theorem executed_block {key rest : Bytes} (sv : Status × Bytes) (h : Executed rest) :
    Executed (block key sv rest) := by
  unfold block
  split
  · exact executed_valueBlock key sv.2 rest
  · exact h

theorem retrieve_executed (keys : List Bytes) {f : Bytes → Bytes}
    (hf : ∀ rest, Executed rest → Executed (f rest)) :
    (Attempt.run (f <$> retrieve keys) errorLine).Returns Executed := by
  induction keys generalizing f with
  | nil => exact hf endLine (by decide)
  | cons key keys ih =>
    rw [run_retrieve_cons]
    intro res
    rcases res with what | sv
    · exact executed_errorLine what
    · exact ih fun rest hrest => hf _ (executed_block sv hrest)

section Commands

variable {r : Request} {key : Bytes} {keys : List Bytes}

theorem add_executed (hdb : r.db = true) (hk : r.keys = key :: keys) (hc : r.command = .add) :
    (prepareResponse r).Returns fun r' => Executed r'.response := by
  rw [prepareResponse_add hdb hk hc]
  intro _ res
  rcases res with what | ⟨s, v⟩
  · exact executed_errorLine what
  dsimp only
  split
  · intro _
    show Executed notStored
    decide
  split
  · intro res
    rcases res with what | s
    · exact executed_errorLine what
    · intro _
      exact executed_putAnswer (.ok s)
  · intro _
    exact executed_errorLine s.msg

theorem delete_executed (hdb : r.db = true) (hk : r.keys = key :: keys)
    (hc : r.command = .delete) :
    (prepareResponse r).Returns fun r' => Executed r'.response := by
  rw [prepareResponse_delete hdb hk hc]
  intro res
  rcases res with what | ⟨s, v⟩
  · exact executed_errorLine what
  dsimp only
  split
  · intro res
    rcases res with what | s
    · exact executed_errorLine what
    · show Executed (if s.ok then deleted else errorLine s.msg)
      split
      · decide
      · exact executed_errorLine s.msg
  · show Executed notFound
    decide

theorem retrieval_executed (hdb : r.db = true) (hk : r.keys = key :: keys)
    (hc : r.command = .get ∨ r.command = .gets) :
    (prepareResponse r).Returns fun r' => Executed r'.response := by
  have h : (Attempt.run (id <$> retrieve r.keys) errorLine).Returns Executed :=
    retrieve_executed r.keys fun _ hrest => hrest
  rw [id_map] at h
  rw [prepareResponse_retrieval hdb hk hc, ← bind_pure_comp]
  exact h.bind fun response hresponse => hresponse

end Commands

/-- Whatever the store does, no request that was executed is answered `CLIENT_ERROR`. -/
theorem prepareResponse_executed (r : Request) :
    (prepareResponse r).Returns fun r' => Executed r'.response := by
  by_cases hping : r.command = .ping
  · rw [prepareResponse_ping hping]
    show Executed pong
    decide
  cases hdb : r.db with
  | false =>
    simp only [prepareResponse, hping, hdb]
    show Executed (text "ERROR The server isn't configured with a database\r\n")
    decide
  | true =>
    cases hk : r.keys with
    | nil =>
      simp only [prepareResponse, hping, hdb, hk]
      show Executed (text "ERROR No key was found in request\r\n")
      decide
    | cons key keys =>
      cases hc : r.command with
      | set =>
        rw [prepareResponse_set hdb hk hc]
        intro res
        exact executed_putAnswer res
      | add => exact add_executed hdb hk hc
      | delete => exact delete_executed hdb hk hc
      | get => exact retrieval_executed hdb hk (.inl hc)
      | gets => exact retrieval_executed hdb hk (.inr hc)
      | ping => exact absurd hc hping
      | quit =>
        rw [prepareResponse_of_key hdb hk hping]
        simp only [respond, hc]
        exact executed_errorLine _
      | none =>
        rw [prepareResponse_of_key hdb hk hping]
        simp only [respond, hc]
        exact executed_errorLine _

/-! ## The read that is rejected -/

/-- The store is called only to answer. -/
theorem loop_performs {r q : Request} {data : Bytes} {events : List StoreEvent}
    (h : (loop r data).Performs events q) :
    events = [] ∨ ∃ r', (prepareResponse r').Performs events q := by
  induction data generalizing r with
  | nil => exact .inl (Prog.performs_done.mp h).1
  | cons c data ih =>
    simp only [loop] at h
    cases hc : onByte r c with
    | next r' => exact ih (by simpa only [hc] using h)
    | respond r' => exact .inr ⟨r', by simpa only [hc] using h⟩
    | throw r' what =>
      simp only [hc] at h
      exact .inl (Prog.performs_done.mp h).1

theorem process_performs {r q : Request} {data : Bytes} {events : List StoreEvent}
    (h : (process r data).Performs events q) :
    events = [] ∨ ∃ r', (prepareResponse r').Performs events q := by
  unfold process at h
  split at h
  · exact .inl (Prog.performs_done.mp h).1
  · exact loop_performs h

/-- A rejected request has made no store call. -/
theorem process_rejected {r q : Request} {data : Bytes} {events : List StoreEvent}
    (h : (process r data).Performs events q) {what : Bytes}
    (hq : q.response = clientErrorLine what) : events = [] := by
  rcases process_performs h with he | ⟨r', hr⟩
  · exact he
  · have hexecuted := (prepareResponse_executed r').of_performs hr
    rw [hq] at hexecuted
    exact absurd rfl hexecuted

namespace Session

variable {s s' : Session} {data : Bytes} {events : List StoreEvent}

/-- A read finishes the request that `process` returned, or it calls nothing. -/
theorem read_performs (h : (s.read data).Performs events s') :
    (∃ q, (process s.connection.request data).Performs events q ∧ s.Answered s' q) ∨
      events = [] ∧ s'.finished = s.finished := by
  obtain ⟨q, hq, rfl⟩ := Prog.performs_map.mp h
  by_cases hf : q.status = .finished
  · exact .inl ⟨q, hq, s.settle_finished hf⟩
  · refine .inr ⟨?_, (s.settle_reading hf).finished⟩
    rcases process_performs hq with he | ⟨r', hr⟩
    · exact he
    · exact absurd ((prepareResponse_finished r').of_performs hr) hf

theorem serve_performs_nothing {reads : List Bytes} (h : (s.serve reads).Performs events s')
    (hs : s'.finished = s.finished) : events = [] := by
  induction reads generalizing s events with
  | nil => exact (Prog.performs_done.mp h).1
  | cons data reads ih =>
    cases hstop : s.stopped with
    | true =>
      rw [s.serve_stopped hstop] at h
      exact (Prog.performs_done.mp h).1
    | false =>
      rw [s.serve_cons hstop] at h
      obtain ⟨s₁, first, second, rfl, hread, hserve⟩ := Prog.performs_bind.mp h
      have hgrows := (s₁.serve_finished_grows reads).of_performs hserve
      rcases read_performs hread with ⟨q, -, ha⟩ | ⟨hfirst, hsame⟩
      · have hlen := hgrows.length_le
        rw [ha.finished, hs, List.length_append, List.length_singleton] at hlen
        omega
      · rw [hfirst, ih hserve (hs.trans hsame.symm), List.append_nil]

end Session

/-- `pre` finishes nothing, and the read `d` after it is answered `CLIENT_ERROR`. -/
def Rejected (s : Session) (pre : List Bytes) (d : Bytes) (events : List StoreEvent)
    (s₁ : Session) : Prop :=
  ∃ events₀ s₀ events₁ q what, events = events₀ ++ events₁ ∧
    (s.serve pre).Performs events₀ s₀ ∧ s₀.finished = s.finished ∧
    (s₀.serve [d]).Performs events₁ s₁ ∧ s₁.finished = s₀.finished ++ [q] ∧
    q.response = clientErrorLine what

/-- A rejection calls nothing and leaves a running connection with a clean parser. -/
theorem Rejected.spec {s s₁ : Session} {pre : List Bytes} {d : Bytes} {events : List StoreEvent}
    (h : Rejected s pre d events s₁) :
    events = [] ∧ s₁.stopped = false ∧ s₁.connection.request.Clean := by
  obtain ⟨events₀, s₀, events₁, q, what, rfl, hpre, hgoing, hd, hq, hwhat⟩ := h
  have hne : s₁.finished ≠ s₀.finished := by
    intro he
    have hlen := congrArg List.length (hq.symm.trans he)
    rw [List.length_append, List.length_singleton] at hlen
    omega
  have hrunning : s₀.stopped = false := by
    refine Bool.eq_false_of_not_eq_true fun hstop => hne ?_
    rw [s₀.serve_stopped hstop] at hd
    rw [(Prog.performs_done.mp hd).2]
  rw [s₀.serve_cons hrunning] at hd
  obtain ⟨s', first, second, rfl, hread, hnil⟩ := Prog.performs_bind.mp hd
  obtain ⟨rfl, rfl⟩ := Prog.performs_done.mp hnil
  rcases Session.read_performs hread with ⟨q', hprocess, ha⟩ | ⟨-, hsame⟩
  · have hqq : q' = q := by
      have hlist := ha.finished.symm.trans hq
      exact List.singleton_inj.mp (List.append_cancel_left hlist)
    subst hqq
    refine ⟨?_, ha.stopped.trans hrunning, ?_⟩
    · rw [Session.serve_performs_nothing hpre hgoing, process_rejected hprocess hwhat]
      rfl
    · rw [ha.connection]
      exact clean_reset q'
  · exact absurd hsame hne

/-! ## The reads after it -/

/-- A storage request whose numbers need not be readable, its number of bytes apart. -/
structure StorageText where
  kind : StorageKind
  key : Bytes
  flags : Bytes
  exptime : Bytes
  nbytes : Bytes
  noreply : Bool
  payload : Bytes
  plain : ∀ token ∈ [key, flags, exptime, nbytes], ∀ c ∈ token, isWhiteSpace c = false
  readable : stoi nbytes = .ok payload.length

namespace StorageText

def header (w : StorageText) : Bytes :=
  w.kind.name ++ space ++ w.key ++ space ++ w.flags ++ space ++ w.exptime ++ space ++ w.nbytes ++
    noreplyWord w.noreply ++ crlf

def bytes (w : StorageText) : Bytes := w.header ++ w.payload ++ crlf

end StorageText

/-- Reads that reach neither the map nor the parser. -/
def Discarded (s : Session) (reads : List Bytes) : Prop :=
  ∀ events s', (s.serve reads).Performs events s' →
    (∀ e ∈ events, e.1.touchesMap = false) ∧ s'.connection = s.connection ∧
      s'.finished = s.finished ∧ s'.written = s.written

theorem discarded_iff {s : Session} (hs : s.stopped = false) (hc : s.connection.request.Clean)
    {reads : List Bytes} (hne : ∀ d ∈ reads, d ≠ []) : Discarded s reads ↔ reads = [] := by
  constructor
  · intro h
    by_contra hreads
    obtain ⟨events, s', hperforms⟩ := Prog.exists_performs (s.serve reads)
    obtain ⟨-, hconnection, hfinished, -⟩ := h events s' hperforms
    rcases (s.serve_touched hne (.inl ⟨hs, hreads⟩)).of_performs hperforms with hlt | hdirty
    · rw [hfinished] at hlt
      omega
    · rw [hconnection] at hdirty
      exact hdirty hc
  · rintro rfl events s' h
    obtain ⟨rfl, rfl⟩ := Prog.performs_done.mp h
    exact ⟨nofun, rfl, rfl, rfl⟩

/-- **A rejected request.** Up to the rejection no store call is made. The rest of
the request is discarded exactly when there is no rest: when the read that was
rejected is the last one with bytes of the request. -/
theorem rest_discarded_iff {s s₁ : Session} {w : StorageText} {pre post : List Bytes} {d : Bytes}
    {events : List StoreEvent} (hrejected : Rejected s pre d events s₁)
    (hwire : (pre ++ d :: post).flatten = w.bytes) (hne : ∀ d' ∈ post, d' ≠ []) :
    (∀ e ∈ events, e.1.touchesMap = false) ∧
      (Discarded s₁ post ↔ (pre ++ [d]).flatten = w.bytes) := by
  obtain ⟨rfl, hrunning, hclean⟩ := hrejected.spec
  refine ⟨nofun, (discarded_iff hrunning hclean hne).trans ⟨?_, ?_⟩⟩
  · rintro rfl
    exact hwire
  · intro hlast
    have hpost : post.flatten = [] := by
      have hlen := congrArg List.length (hwire.trans hlast.symm)
      simp only [List.flatten_append, List.flatten_cons, List.length_append, List.flatten_nil,
        List.length_nil] at hlen
      exact List.eq_nil_of_length_eq_zero (by omega)
    cases post with
    | nil => rfl
    | cons d' post =>
      have hd' : d' = [] := (List.append_eq_nil_iff.mp hpost).1
      exact absurd hd' (hne d' (by simp))

/-- A `set` with unreadable flags whose payload is a deletion. -/
def deletingSet : StorageText where
  kind := .set
  key := text "k"
  flags := text "x"
  exptime := text "0"
  nbytes := text "10"
  noreply := false
  payload := text "delete k\r\n"
  plain := by
    simp only [List.forall_mem_cons]
    exact ⟨plain_of_all (by decide), plain_of_all (by decide), plain_of_all (by decide),
      plain_of_all (by decide), nofun⟩
  readable := by decide

theorem deletingSet_rest_discarded_iff :
    let s := Session.accepted ⟨.fresh true 0 .none, 0, 0⟩
    let s₁ := ((s.serve [deletingSet.header]).runWith mapStore fun _ => none).1
    (∀ e ∈ ([] : List StoreEvent), e.1.touchesMap = false) ∧
      (Discarded s₁ [deletingSet.payload ++ crlf] ↔
        ([] ++ [deletingSet.header]).flatten = deletingSet.bytes) := by
  intro s s₁
  have hread : (s.serve [deletingSet.header]).Performs [] s₁ :=
    Prog.performs_runWith mapStore (s.serve [deletingSet.header]) fun _ => none
  let q : Request := { Request.fresh true 0 .set with
    status := .finished, buffer := text "x", keys := [text "k"]
    response := clientErrorLine (text "stoi") }
  refine rest_discarded_iff ⟨[], s, [], q, text "stoi", rfl, ?_, rfl, hread, ?_, rfl⟩ ?_ ?_
  · exact Prog.performs_done.mpr ⟨rfl, rfl⟩
  · decide
  · decide
  · decide

/-- The `set` is rejected at its flags, and the read with its payload then deletes. -/
theorem deletingSet_payload_executed :
    let s := Session.accepted ⟨.fresh true 0 .none, 0, 0⟩
    let bound : Contents := fun key => if key = text "k" then some (text "v") else none
    let first := (s.serve [deletingSet.header]).runWith mapStore bound
    let second := (first.1.serve [deletingSet.payload ++ crlf]).runWith mapStore first.2.2
    deletingSet.header ++ (deletingSet.payload ++ crlf) = deletingSet.bytes ∧
      first.1.written = [clientErrorLine (text "stoi")] ∧ first.2.1.length = 0 ∧
      second.2.1.map Sigma.fst = [.get (text "k"), .del (text "k")] ∧
      ¬ ∀ e ∈ second.2.1, e.1.touchesMap = false := by
  intro s bound first second
  have hcalls : second.2.1.map Sigma.fst = [.get (text "k"), .del (text "k")] := by decide
  refine ⟨by decide, by decide, by decide, hcalls, fun h => ?_⟩
  have hget : StoreCall.get (text "k") ∈ second.2.1.map Sigma.fst := by rw [hcalls]; simp
  obtain ⟨e, he, hcall⟩ := List.mem_map.mp hget
  have hfalse := h e he
  rw [hcall] at hfalse
  cases hfalse

end Quitsies.Tcp
