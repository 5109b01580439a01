import Quitsies.Db.MapStore
import Quitsies.Tcp.RoundTrip
import Quitsies.Tcp.Session

/-!
# Several requests in one read

The byte loop returns as soon as a request is answered, and the connection then
resets the parser and asks for more bytes. What the same read still holds after
the answered request is looked at by nobody, so a read is worth exactly one
request.
-/

namespace Quitsies.Tcp

open Text Interaction Db WellFormed

/-- The requests that one read carries. -/
structure Batch where
  first : WellFormed
  more : List WellFormed

namespace Batch

def requests (b : Batch) : List WellFormed := b.first :: b.more

def bytes (b : Batch) : Bytes := b.requests.flatMap encode

/-- A request that arrives alone. -/
def single (w : WellFormed) : Batch := ⟨w, []⟩

theorem bytes_single (w : WellFormed) : (single w).bytes = w.encode := by
  simp [bytes, requests, single]

theorem bytes_eq (b : Batch) :
    b.bytes = b.first.complete ++ (b.first.leftover ++ b.more.flatMap encode) := by
  rw [bytes, requests, List.flatMap_cons, encode_eq, List.append_assoc]

end Batch

/-- The reads of requests that come in batches. -/
def batched (batches : List Batch) : List Bytes := batches.map Batch.bytes

/-- The same requests, each in a read of its own. -/
def alone (batches : List Batch) : List Bytes := (batches.flatMap Batch.requests).map encode

theorem alone_eq_batched (batches : List Batch) :
    alone batches = batched ((batches.flatMap Batch.requests).map Batch.single) := by
  rw [alone, batched, List.map_map]
  exact List.map_congr_left fun w _ => (Batch.bytes_single w).symm

/-! ## One read, one request -/

section

variable {db : Bool} {m : Nat}

/-- A running connection whose parser is about to read a request. -/
structure Session.Ready (db : Bool) (m : Nat) (s : Session) : Prop where
  running : s.stopped = false
  request : ∃ command, s.connection.request = .fresh db m command

theorem ready_accepted {c : Connection} {command : CommandType}
    (h : c.request = .fresh db m command) : (Session.accepted c).Ready db m :=
  ⟨Session.stopped_accepted c, command, h⟩

/-- A finished request leaves the connection ready for the next one. -/
theorem Session.Answered.ready {s s' : Session} {request : Request}
    (h : s.Answered s' request) (hs : s.stopped = false)
    (hc : request.db = db ∧ request.maxBytes = m) : s'.Ready db m := by
  refine ⟨h.stopped.trans hs, .none, ?_⟩
  rw [h.connection, ← hc.1, ← hc.2]
  rfl

/-- A read that starts with a whole request finishes one request, whatever the
store does and whatever follows in the read. -/
theorem read_batch {s : Session} (h : s.Ready db m) (w : WellFormed) (rest : Bytes) :
    (s.read (w.complete ++ rest)).Returns fun s' =>
      s'.Ready db m ∧ s'.finished.length = s.finished.length + 1 := by
  obtain ⟨command, hr⟩ := h.request
  cases hx : s.connection.request.exceeds (w.complete ++ rest).length with
  | true =>
    rw [s.read_exceeded hx]
    let q := s.connection.request.rejected (text "request size exceeded max bytes")
    have ha : s.Answered (s.settle q) q := s.settle_finished rfl
    have hq : q.db = db ∧ q.maxBytes = m := by
      simp only [q, hr]
      exact ⟨rfl, rfl⟩
    refine ⟨ha.ready h.running hq, ?_⟩
    rw [ha.finished, List.length_append]
    rfl
  | false =>
    have hloop : loop s.connection.request (w.complete ++ rest) =
        prepareResponse (w.parsed db m) := by
      rw [hr, loop_rest]
    refine (s.read_answered hx hloop).mono fun s' ⟨response, ha⟩ => ⟨?_, ?_⟩
    · exact ha.ready h.running ⟨rfl, rfl⟩
    · rw [ha.finished, List.length_append]
      rfl

/-- A run over batches finishes as many requests as there are reads. -/
theorem serve_batched {s : Session} (h : s.Ready db m) (batches : List Batch) :
    (s.serve (batched batches)).Returns fun s' =>
      s'.finished.length = s.finished.length + batches.length := by
  induction batches generalizing s with
  | nil => exact rfl
  | cons b batches ih =>
    simp only [batched, List.map_cons, Batch.bytes_eq b]
    rw [s.serve_cons h.running]
    refine (read_batch h b.first _).bind fun s₁ ⟨hready, hlen⟩ => ?_
    apply (ih hready).mono
    intro s' h'
    rw [h', hlen, List.length_cons]
    omega

/-- Executing requests in order, each exactly once. -/
def execute (db : Bool) (s : Session) : List WellFormed → StoreProg Session
  | [] => return s
  | w :: ws => do execute db (s.settle (← prepareResponse (w.parsed db 0))) ws

/-- Requests that arrive one by one are executed in order, each exactly once. -/
theorem serve_alone {s : Session} (h : s.Ready db 0) (ws : List WellFormed) :
    s.serve (ws.map encode) = execute db s ws := by
  induction ws generalizing s with
  | nil => rfl
  | cons w ws ih =>
    obtain ⟨command, hr⟩ := h.request
    have hx : s.connection.request.exceeds w.encode.length = false := by
      rw [hr]; rfl
    have hloop : loop s.connection.request w.encode = prepareResponse (w.parsed db 0) := by
      rw [hr, encode_eq, loop_rest]
    rw [List.map_cons, s.serve_cons h.running, s.read_of_loop hx, hloop, execute,
      ← bind_pure_comp, Prog.bind_assoc]
    apply (prepareResponse_returns _).bind_congr
    intro q hq
    obtain ⟨response, rfl⟩ := hq
    let q := (w.parsed db 0).answered response
    have ha : s.Answered (s.settle q) q := s.settle_finished rfl
    exact ih (ha.ready h.running ⟨rfl, rfl⟩)

end

/-! ## Batches against single requests -/

theorem length_le_requests (batches : List Batch) :
    batches.length ≤ (batches.flatMap Batch.requests).length := by
  induction batches with
  | nil => exact Nat.le_refl 0
  | cons b batches ih =>
    simp only [List.flatMap_cons, List.length_append, Batch.requests, List.length_cons]
    omega

/-- There are as many requests as batches only if no batch has a second one. -/
theorem single_of_length {batches : List Batch}
    (h : (batches.flatMap Batch.requests).length = batches.length) :
    ∀ b ∈ batches, b.more = [] := by
  induction batches with
  | nil => intro b hb; cases hb
  | cons b batches ih =>
    have hle := length_le_requests batches
    have hb : (Batch.requests b).length = b.more.length + 1 := rfl
    rw [List.flatMap_cons, List.length_append, List.length_cons] at h
    have hmore : b.more.length = 0 := by omega
    have hrest : (batches.flatMap Batch.requests).length = batches.length := by omega
    rw [List.forall_mem_cons]
    exact ⟨List.length_eq_zero_iff.mp hmore, ih hrest⟩

theorem batched_of_single {batches : List Batch} (h : ∀ b ∈ batches, b.more = []) :
    batched batches = alone batches := by
  induction batches with
  | nil => rfl
  | cons b batches ih =>
    have hb : b.more = [] := h b (by simp)
    have hrest := ih fun b' hb' => h b' (by simp [hb'])
    simp only [alone, batched] at hrest ⊢
    simp [hrest, Batch.bytes, Batch.requests, hb]

/-- What a client and the store can tell of a run: the responses, the requests
executed, and the store it leaves. -/
def outcome {σ : Type} (store : σ → (c : StoreCall) → StoreResult c × σ) (c : Connection)
    (reads : List Bytes) (st : σ) : List Bytes × List Request × σ :=
  let run := ((Session.accepted c).serve reads).runWith store st
  (run.1.written, run.1.finished, run.2.2)

/-- **Pipelined requests.** Batches are served as their requests would be one by
one exactly when every read carries a single request. -/
theorem pipelined_iff_single {σ : Type} (store : σ → (c : StoreCall) → StoreResult c × σ)
    (st : σ) (db : Bool) (maxBytes : Nat) (command : CommandType) (readTimeout writeTimeout : Int)
    (batches : List Batch) :
    let c : Connection := ⟨.fresh db maxBytes command, readTimeout, writeTimeout⟩
    outcome store c (batched batches) st = outcome store c (alone batches) st ↔
      ∀ b ∈ batches, b.more = [] := by
  intro c
  constructor
  · intro h
    have hready : (Session.accepted c).Ready db maxBytes := ready_accepted rfl
    have hbatched := (serve_batched hready batches).of_performs
      (Prog.performs_runWith store _ st)
    have halone := (serve_batched hready
      ((batches.flatMap Batch.requests).map Batch.single)).of_performs
      (Prog.performs_runWith store _ st)
    rw [← alone_eq_batched, List.length_map] at halone
    have hfinished : ((Session.accepted c).serve (batched batches)).runWith store st |>.1.finished =
        (((Session.accepted c).serve (alone batches)).runWith store st).1.finished :=
      congrArg (fun o => o.2.1) h
    rw [hfinished, halone] at hbatched
    exact single_of_length (by omega)
  · intro h
    rw [batched_of_single h]

/-- Two pings in one read are answered by one response. -/
theorem pipelined_pings_lost :
    let c : Connection := ⟨.fresh true 0 .none, 0, 0⟩
    let batches : List Batch := [⟨.ping, [.ping]⟩]
    (outcome mapStore c (batched batches) fun _ => none).1 = [pong] ∧
      (outcome mapStore c (alone batches) fun _ => none).1 = [pong, pong] ∧
      outcome mapStore c (batched batches) (fun _ => none) ≠
        outcome mapStore c (alone batches) fun _ => none := by
  intro c batches
  have hbatched : (outcome mapStore c (batched batches) fun _ => none).1 = [pong] := by decide
  have halone : (outcome mapStore c (alone batches) fun _ => none).1 = [pong, pong] := by decide
  refine ⟨hbatched, halone, fun h => ?_⟩
  rw [h, halone] at hbatched
  cases hbatched

end Quitsies.Tcp
