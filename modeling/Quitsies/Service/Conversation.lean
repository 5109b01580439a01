import Quitsies.Service.Decoding
import Quitsies.Tcp.Residue

/-!
# A client, its connection and the store

Requests are encoded, cut into reads that end where the requests end, parsed,
executed over a RocksDB that acts as a map, and answered; the client reads the
answers off the bytes that were written. What it reads is what the map says.
-/

namespace Quitsies.Service

open Text Interaction Db Tcp Reference
open WellFormed (crlf encode_eq)

/-! ## What a request asks and how its response is read -/

/-- What a well-formed request asks of the map. A ping asks nothing. -/
def asks : WellFormed → Option Command
  | .storage .set key _ _ _ payload => some (.bind key.bytes payload.bytes)
  | .storage .add key _ _ _ payload => some (.bindFresh key.bytes payload.bytes)
  | .delete key _ => some (.unbind key.bytes)
  | .retrieval _ first more => some (.list ((first :: more).map Key.bytes))
  | .ping => none

/-- A request by the map alone: its answer, none for a ping, and the map after it. -/
def consult (w : WellFormed) (m : Contents) : Option Answer × Contents :=
  match asks w with
  | some c => (some (step m c).1, (step m c).2)
  | none => (none, m)

/-- The answers to the requests that want one, and the map in the end. -/
def consultAll : List WellFormed → Contents → List (Option Answer) × Contents
  | [], m => ([], m)
  | w :: ws, m =>
    let (answer, m) := consult w m
    let (answers, m) := consultAll ws m
    (if w.noreply then answers else answer :: answers, m)

/-- The answers that a request can get. What a retrieval finds has keys as it asks. -/
def Answers : WellFormed → Option Answer → Prop
  | .storage _ _ _ _ _ _, answer => answer = some .bound ∨ answer = some .refused
  | .delete _ _, answer => answer = some .removed ∨ answer = some .absent
  | .retrieval _ _ _, answer => ∃ found : List (Bytes × Bytes), answer = some (.bindings found) ∧
      ∀ binding ∈ found, ∀ c ∈ binding.1, isWhiteSpace c = false
  | .ping, answer => answer = none

theorem consult_answers (w : WellFormed) (m : Contents) : Answers w (consult w m).1 := by
  cases w with
  | storage kind key flags exptime noreply payload =>
    cases kind with
    | set => exact .inl rfl
    | add =>
      by_cases hk : (m key.bytes).isSome = true
      · exact .inr (by simp only [consult, asks, step, if_pos hk])
      · exact .inl (by simp only [consult, asks, step, if_neg hk])
  | delete key noreply =>
    by_cases hk : (m key.bytes).isSome = true
    · exact .inl (by simp only [consult, asks, step, if_pos hk])
    · exact .inr (by simp only [consult, asks, step, if_neg hk])
  | retrieval kind first more =>
    refine ⟨_, rfl, fun kv hkv => ?_⟩
    obtain ⟨key, hkey, hfound⟩ := List.mem_filterMap.mp hkv
    obtain ⟨k, -, rfl⟩ := List.mem_map.mp hkey
    obtain ⟨value, -, rfl⟩ := Option.map_eq_some_iff.mp hfound
    exact k.plain
  | ping => rfl

/-- The line of the response to a request. -/
def responseLine : Option Answer → Bytes
  | some answer => answer.line
  | none => pong

namespace Client

/-- The words that answer a request, and what they say. -/
def words : WellFormed → List (Bytes × Option Answer)
  | .storage _ _ _ _ _ _ => [(text "STORED", some .bound), (text "NOT_STORED", some .refused)]
  | .delete _ _ => [(text "DELETED", some .removed), (text "NOT_FOUND", some .absent)]
  | .retrieval _ _ _ => []
  | .ping => [(text "PONG", none)]

/-- A response of one word. -/
def readWord (w : WellFormed) (s : Bytes) : Option (Option Answer × Bytes) :=
  match readLine s with
  | some (line, rest) => ((words w).lookup line).map fun answer => (answer, rest)
  | none => none

def WellFormed.isRetrieval : WellFormed → Bool
  | .retrieval _ _ _ => true
  | _ => false

/-- The response to a request at the front of what the server has written. -/
def readResponse (w : WellFormed) (s : Bytes) : Option (Option Answer × Bytes) :=
  if WellFormed.isRetrieval w then
    (decode s).map fun (found, rest) => (some (.bindings found), rest)
  else readWord w s

/-- The responses to a list of requests, one for each that wants one. -/
def readResponses : List WellFormed → Bytes → Option (List (Option Answer) × Bytes)
  | [], s => some ([], s)
  | w :: ws, s =>
    if w.noreply then readResponses ws s
    else
      match readResponse w s with
      | some (answer, rest) =>
        (readResponses ws rest).map fun (answers, rest) => (answer :: answers, rest)
      | none => none

theorem readWord_append (w : WellFormed) (word : Bytes) {answer : Option Answer} (h : 13 ∉ word)
    (hword : (words w).lookup word = some answer) (rest : Bytes) :
    readWord w (word ++ crlf ++ rest) = some (answer, rest) := by
  simp only [readWord, readLine_append h rest, hword, Option.map_some]

/-- A response is read as the answer it was printed for. -/
theorem readResponse_of_answers {w : WellFormed} {answer : Option Answer} (h : Answers w answer)
    (rest : Bytes) : readResponse w (responseLine answer ++ rest) = some (answer, rest) := by
  cases w with
  | storage kind key flags exptime noreply payload =>
    rcases h with rfl | rfl
    · exact readWord_append (.storage kind key flags exptime noreply payload) (text "STORED")
        (by decide) rfl rest
    · exact readWord_append (.storage kind key flags exptime noreply payload) (text "NOT_STORED")
        (by decide) rfl rest
  | delete key noreply =>
    rcases h with rfl | rfl
    · exact readWord_append (.delete key noreply) (text "DELETED") (by decide) rfl rest
    · exact readWord_append (.delete key noreply) (text "NOT_FOUND") (by decide) rfl rest
  | retrieval kind first more =>
    obtain ⟨found, rfl, hplain⟩ := h
    exact congrArg (Option.map fun (found, rest) => (some (Answer.bindings found), rest))
      (decode_blocks hplain rest)
  | ping =>
    obtain rfl : answer = none := h
    exact readWord_append .ping (text "PONG") (by decide) rfl rest

end Client

/-! ## A request cut into reads -/

/-- A request with its bytes cut into reads, whether it wants a response or not. -/
structure Sent where
  request : WellFormed
  reads : List Bytes
  whole : reads.flatten = request.encode

/-- After the bytes `p` every read stays below the byte limit, and none but the last
has the byte that the parser answers at. -/
def Fits (m : Nat) (w : WellFormed) (p : Bytes) : List Bytes → Prop
  | [] => True
  | d :: reads =>
    ¬ (0 < m ∧ m ≤ d.length + w.pending p) ∧
      (reads ≠ [] → (p ++ d).length < w.complete.length) ∧ Fits m w (p ++ d) reads

def decidableFits (m : Nat) (w : WellFormed) (p : Bytes) :
    (reads : List Bytes) → Decidable (Fits m w p reads)
  | [] => isTrue trivial
  | d :: reads =>
    have := decidableFits m w (p ++ d) reads
    inferInstanceAs (Decidable (_ ∧ _ ∧ _))

instance (m : Nat) (w : WellFormed) (p : Bytes) (reads : List Bytes) :
    Decidable (Fits m w p reads) := decidableFits m w p reads

section Reads

variable {m : Nat} {g : CommandType} {w : WellFormed} {db : Bool}

/-- A session in which nothing has been finished since. -/
structure Since (s s₁ : Session) : Prop where
  written : s₁.written = s.written
  finished : s₁.finished = s.finished
  running : s₁.stopped = false

/-- The reads of a request come to one execution of it. -/
theorem serve_fits {reads : List Bytes} {p : Bytes} {s : Session} (h : Midway db m g w p s)
    (hflat : p ++ reads.flatten = w.encode) (hfits : Fits m w p reads) :
    ∃ s₁, Since s s₁ ∧ s.serve reads = s₁.settle <$> prepareResponse (w.parsed db m) := by
  induction reads generalizing p s with
  | nil =>
    have hlen := congrArg List.length hflat
    have hshort := h.short
    simp only [List.flatten_nil, List.append_nil, encode_eq, List.length_append] at hlen
    omega
  | cons d reads ih =>
    obtain ⟨hlimit, hearly, hrest⟩ := hfits
    rw [List.flatten_cons] at hflat
    rw [s.serve_cons h.running]
    by_cases hreads : reads = []
    · subst hreads
      rw [List.flatten_nil, List.append_nil] at hflat
      have hx : s.connection.request.exceeds d.length = false := by
        apply Bool.eq_false_of_not_eq_true
        intro hx
        have hmid : p ++ d = w.encode := hflat
        exact hlimit ((h.exceeds hmid d.length).mp hx)
      have hloop : loop s.connection.request d = prepareResponse (w.parsed db m) := by
        rw [← loop_of_scan h.scanned, hflat, encode_eq, loop_rest]
      refine ⟨s, ⟨rfl, rfl, h.running⟩, ?_⟩
      rw [s.read_of_loop hx, hloop]
      exact Prog.bind_done _
    · have hd := hearly hreads
      obtain ⟨s₁, hread, hmid, hwritten, hfinished⟩ := read_continues h hflat hd hlimit
      obtain ⟨s₂, hsince, hserve⟩ := ih hmid (by rw [List.append_assoc, hflat]) hrest
      refine ⟨s₂, ⟨hsince.written.trans hwritten, hsince.finished.trans hfinished,
        hsince.running⟩, ?_⟩
      rw [hread, Prog.done_bind, hserve]

/-- The same from a connection that is about to read a request. -/
theorem serve_sent {s : Session} (h : s.Ready db m) (d : Sent)
    (hfits : Fits m d.request [] d.reads) :
    ∃ s₁, Since s s₁ ∧
      s.serve d.reads = s₁.settle <$> prepareResponse (d.request.parsed db m) := by
  obtain ⟨g, hmid⟩ := h.midway d.request
  exact serve_fits hmid d.whole hfits

end Reads

/-! ## Over a map -/

/-- The command of a request that asks something of the map. -/
theorem asks_command {w : WellFormed} {c : Command} (h : asks w = some c) (n : Nat) :
    (Operation.tcp (w.parsed true n)).Parsed ∧ (Operation.tcp (w.parsed true n)).command = c := by
  cases w with
  | storage kind key flags exptime noreply payload =>
    cases kind with
    | set => cases h; exact ⟨⟨rfl, List.cons_ne_nil _ _, .inl rfl⟩, rfl⟩
    | add => cases h; exact ⟨⟨rfl, List.cons_ne_nil _ _, .inr (.inl rfl)⟩, rfl⟩
  | delete key noreply =>
    cases h
    exact ⟨⟨rfl, List.cons_ne_nil _ _, .inr (.inr (.inl rfl))⟩, rfl⟩
  | retrieval kind first more =>
    cases kind with
    | get => cases h; exact ⟨⟨rfl, List.cons_ne_nil _ _, .inr (.inr (.inr (.inl rfl)))⟩, rfl⟩
    | gets => cases h; exact ⟨⟨rfl, List.cons_ne_nil _ _, .inr (.inr (.inr (.inr rfl)))⟩, rfl⟩
  | ping => cases h

/-- A request executed over a map is answered as it is by the map alone. -/
theorem parsed_mapStore (w : WellFormed) (n : Nat) (m : Contents) :
    let run := (prepareResponse (w.parsed true n)).runWith mapStore m
    run.1 = (w.parsed true n).answered (responseLine (consult w m).1) ∧
      run.2.2 = (consult w m).2 := by
  cases hasks : asks w with
  | some c =>
    obtain ⟨hparsed, hc⟩ := asks_command hasks n
    have hrun := prepareResponse_mapStore m hparsed
    rw [hc] at hrun
    simp only [consult, hasks, responseLine]
    exact hrun
  | none =>
    cases w with
    | ping => exact ⟨rfl, rfl⟩
    | storage kind key flags exptime noreply payload => cases kind <;> cases hasks
    | delete key noreply => cases hasks
    | retrieval kind first more => cases hasks

/-- What a conversation has come to: what was written since is read by the client as
what the map says, the map is as it says, and the connection waits for a request. -/
structure Conversed (n : Nat) (ws : List WellFormed) (m : Contents) (s s' : Session)
    (m' : Contents) : Prop where
  answers : ∃ responses, s'.written = s.written ++ responses ∧
    Client.readResponses ws responses.flatten = some ((consultAll ws m).1, [])
  contents : m' = (consultAll ws m).2
  finished : s'.finished.length = s.finished.length + ws.length
  ready : s'.Ready true n

/-- One request more. -/
theorem Conversed.cons {n : Nat} {w : WellFormed} {ws : List WellFormed} {m m' : Contents}
    {s s₁ s' : Session}
    (ha : s.Answered s₁ ((w.parsed true n).answered (responseLine (consult w m).1)))
    (h : Conversed n ws (consult w m).2 s₁ s' m') : Conversed n (w :: ws) m s s' m' := by
  obtain ⟨responses, hwritten, hread⟩ := h.answers
  refine ⟨?_, h.contents, ?_, h.ready⟩
  · have hreply : ((w.parsed true n).answered (responseLine (consult w m).1)).noReply =
        w.noreply := rfl
    have hresponse : ((w.parsed true n).answered (responseLine (consult w m).1)).response =
        responseLine (consult w m).1 := rfl
    rw [ha.written, hreply, hresponse] at hwritten
    cases hn : w.noreply with
    | true =>
      refine ⟨responses, by rw [hwritten, hn]; simp, ?_⟩
      simpa only [Client.readResponses, consultAll, hn, ↓reduceIte] using hread
    | false =>
      refine ⟨responseLine (consult w m).1 :: responses, by rw [hwritten, hn]; simp, ?_⟩
      simp only [Client.readResponses, consultAll, hn, Bool.false_eq_true, ↓reduceIte,
        List.flatten_cons, Client.readResponse_of_answers (consult_answers w m), hread,
        Option.map_some]
  · simp only [h.finished, ha.finished, List.length_append, List.length_cons, List.length_nil]
    omega

theorem serve_mapStore {n : Nat} {s : Session} (h : s.Ready true n) (ds : List Sent)
    (hfits : ∀ d ∈ ds, Fits n d.request [] d.reads) (m : Contents) :
    let run := (s.serve (ds.flatMap Sent.reads)).runWith mapStore m
    Conversed n (ds.map Sent.request) m s run.1 run.2.2 := by
  induction ds generalizing s m with
  | nil => exact ⟨⟨[], by rw [List.append_nil]; rfl, rfl⟩, rfl, rfl, h⟩
  | cons d ds ih =>
    obtain ⟨s₁, hsince, hserve⟩ := serve_sent h d (hfits d (by simp))
    obtain ⟨hreply, hstate⟩ := parsed_mapStore d.request n m
    let q := (d.request.parsed true n).answered (responseLine (consult d.request m).1)
    have ha : s₁.Answered (s₁.settle q) q := s₁.settle_finished rfl
    have hready : (s₁.settle q).Ready true n := ha.ready hsince.running ⟨rfl, rfl⟩
    have hrest := ih hready (fun d' hd' => hfits d' (by simp [hd'])) (consult d.request m).2
    rw [List.flatMap_cons, s.serve_append, hserve, Prog.runWith_bind, Prog.runWith_map]
    simp only [hreply, hstate]
    have hall := Conversed.cons ha hrest
    refine ⟨?_, hall.contents, ?_, hall.ready⟩
    · obtain ⟨responses, hwritten, hread⟩ := hall.answers
      exact ⟨responses, hwritten.trans (by rw [hsince.written]), hread⟩
    · rw [← hsince.finished]
      exact hall.finished

/-- **From bytes to bytes.** A client that sends any well-formed requests on a connection,
each cut into reads in any way that ends with it and stays below the byte limit, reads
off the bytes written in return what a map answers to the requests, and the RocksDB
holds what the map holds. -/
theorem conversation_refines {σ : Type} {rocksdb : σ → (c : RocksCall) → RocksResult c × σ}
    {contents : σ → Contents} (hdb : ActsAsMap rocksdb contents) {n : Nat} {s : Session}
    (h : s.Ready true n) (ds : List Sent) (hfits : ∀ d ∈ ds, Fits n d.request [] d.reads)
    (start : σ) :
    let run := ((s.serve (ds.flatMap Sent.reads)).interpret rocks).runWith rocksdb start
    Conversed n (ds.map Sent.request) (contents start) s run.1 (contents run.2.2) := by
  obtain ⟨hsession, hstate⟩ := Prog.runWith_interpret rocks rocksdb
    (s.serve (ds.flatMap Sent.reads)) start
  obtain ⟨hsession', hstate'⟩ := hdb.simulates.runWith (s.serve (ds.flatMap Sent.reads)) start
  have hmap := serve_mapStore h ds hfits (contents start)
  simp only [hsession, hstate, hsession', hstate']
  exact hmap

def keyQ : Key := ⟨text "q", by decide, plain_of_all (by decide)⟩

/-- A value that looks like the end of a response, in three reads. -/
def sendSet : Sent where
  request := .storage .set keyQ ⟨0, by decide, by decide⟩ ⟨0, by decide, by decide⟩ false
    ⟨text "END\r\n", by decide⟩
  reads := [text "set q 0 0", text " 5\r\nEN", text "D\r\n\r\n"]
  whole := by decide

def sendGet : Sent where
  request := .retrieval .get keyQ [keyQ]
  reads := [text "get q q\r\n"]
  whole := by decide

/-- A deletion that wants no response. -/
def sendDelete : Sent where
  request := .delete keyQ true
  reads := [text "delete q no", text "reply\r\n"]
  whole := by decide

def sendPing : Sent where
  request := .ping
  reads := [text "ping\r\n"]
  whole := by decide

/-- With a byte limit of 32. -/
theorem conversation_refines_set :
    let s := Session.accepted ⟨.fresh true 32 .none, 0, 0⟩
    let ds := [sendSet, sendGet, sendDelete, sendGet, sendPing]
    let run := ((s.serve (ds.flatMap Sent.reads)).interpret rocks).runWith mapRocks fun _ => none
    Conversed 32 (ds.map Sent.request) (fun _ => none) s run.1 run.2.2 :=
  conversation_refines mapRocks_actsAsMap (ready_accepted rfl)
    [sendSet, sendGet, sendDelete, sendGet, sendPing] (by decide) fun _ => none

end Quitsies.Service
