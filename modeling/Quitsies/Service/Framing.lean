import Quitsies.Service.Decoding
import Quitsies.Tcp.ByteLimit
import Quitsies.Tcp.Protocol

/-!
# Where a response ends

A client that knows the format of responses, and nothing of the requests they are to,
cuts what the server has written into the responses that it wrote. No key and no value
can forge or break one; only a text of the store that has a line break in it could.
-/

namespace Quitsies.Service

open Text Interaction Db Tcp
open WellFormed (crlf)

/-- Nowhere a CRLF. -/
def Unbroken : Bytes → Prop
  | [] => True
  | c :: s => ¬ (c = 13 ∧ s.head? = some 10) ∧ Unbroken s

theorem Unbroken.append {s t : Bytes} (hs : 13 ∉ s) (ht : Unbroken t) : Unbroken (s ++ t) := by
  induction s with
  | nil => exact ht
  | cons c s ih =>
    rw [List.mem_cons, not_or] at hs
    exact ⟨fun h => hs.1 h.1.symm, ih hs.2⟩

theorem unbroken_of_notMem {s : Bytes} (hs : 13 ∉ s) : Unbroken s := by
  have h := Unbroken.append hs (t := []) trivial
  rwa [List.append_nil] at h

/-- A response: a line, or the blocks of a retrieval. -/
inductive Response where
  | single (line : Bytes)
  | listing (found : List (Bytes × Bytes))

namespace Response

def print : Response → Bytes
  | single line => line ++ crlf
  | listing found => (found.flatMap fun kv => valueBlock kv.1 kv.2) ++ endLine

/-- A line that is one and is no line of a retrieval, or blocks with keys that a request
can have. -/
def Framed : Response → Prop
  | single line => Unbroken line ∧ Client.readHeader line = none
  | listing found => ∀ kv ∈ found, ∀ c ∈ kv.1, isWhiteSpace c = false

end Response

namespace Client

/-- The response at the front of what the server has written. -/
def readOne (s : Bytes) : Option (Response × Bytes) :=
  match readLine s with
  | none => none
  | some (line, rest) =>
    match readHeader line with
    | none => some (.single line, rest)
    | some _ => (decode s).map fun (found, rest) => (.listing found, rest)

theorem decode_shorter {s rest : Bytes} {found : List (Bytes × Bytes)}
    (h : decode s = some (found, rest)) : rest.length < s.length := by
  induction hn : s.length using Nat.strong_induction_on generalizing s found with
  | _ n ih =>
    cases hline : readLine s with
    | none =>
      rw [decode] at h
      split at h
      · cases h
      · next hsome =>
        rw [hline] at hsome
        cases hsome
    | some pair =>
      obtain ⟨line, rest'⟩ := pair
      have hlt := readLine_shorter hline
      rw [decode_of_readLine hline] at h
      split at h
      · cases h
      · obtain ⟨-, rfl⟩ := Prod.mk.inj (Option.some.inj h)
        omega
      · next key n' _ =>
        split at h
        · obtain ⟨⟨found', rest''⟩, hrest, he⟩ := Option.map_eq_some_iff.mp h
          obtain ⟨-, rfl⟩ := Prod.mk.inj he
          have hdrop : (rest'.drop (n' + 2)).length ≤ rest'.length := by
            rw [List.length_drop]
            omega
          have hshort := ih _ (by omega) hrest rfl
          omega
        · cases h

theorem readOne_shorter {s rest : Bytes} {response : Response}
    (h : readOne s = some (response, rest)) : rest.length < s.length := by
  unfold readOne at h
  split at h
  · cases h
  · next line rest' hline =>
    split at h
    · obtain ⟨-, rfl⟩ := Prod.mk.inj (Option.some.inj h)
      exact readLine_shorter hline
    · obtain ⟨⟨found, rest''⟩, hdecode, he⟩ := Option.map_eq_some_iff.mp h
      obtain ⟨-, rfl⟩ := Prod.mk.inj he
      exact decode_shorter hdecode

/-- All the responses, where nothing but responses has been written. -/
def readAll (s : Bytes) : Option (List Response) :=
  if s = [] then some []
  else
    match _h : readOne s with
    | none => none
    | some (response, rest) => (readAll rest).map fun responses => response :: responses
termination_by s.length
decreasing_by exact readOne_shorter _h

theorem readAll_of_readOne {s rest : Bytes} {response : Response}
    (h : readOne s = some (response, rest)) :
    readAll s = (readAll rest).map fun responses => response :: responses := by
  have hne : s ≠ [] := by
    rintro rfl
    exact Nat.not_lt_zero _ (readOne_shorter h)
  rw [readAll, if_neg hne]
  split
  · next hnone =>
    rw [h] at hnone
    cases hnone
  · next hsome =>
    rw [h] at hsome
    obtain ⟨rfl, rfl⟩ := Prod.mk.inj (Option.some.inj hsome)
    rfl

/-! ## Reading back what was printed -/

/-- A line without a line break ends at the first one. -/
theorem readLine_unbroken {line : Bytes} (h : Unbroken line) (rest : Bytes) :
    readLine (line ++ crlf ++ rest) = some (line, rest) := by
  induction line with
  | nil => rfl
  | cons c line ih =>
    have hc : ¬ (c = 13 ∧ (line ++ crlf ++ rest).head? = some 10) := by
      rintro ⟨rfl, hhead⟩
      cases line with
      | nil => cases hhead
      | cons d line => exact h.1 ⟨rfl, hhead⟩
    rw [List.cons_append, List.cons_append, readLine, if_neg hc, ih h.2]
    rfl

/-- A listing begins with a line of its own. -/
theorem readLine_listing {found : List (Bytes × Bytes)}
    (h : ∀ kv ∈ found, ∀ c ∈ kv.1, isWhiteSpace c = false) (rest : Bytes) :
    ∃ line rest' header, readLine ((Response.listing found).print ++ rest) = some (line, rest') ∧
      readHeader line = some header := by
  cases found with
  | nil =>
    have hline : readLine (endLine ++ rest) = some (text "END", rest) :=
      readLine_append (by decide : (13 : UInt8) ∉ text "END") rest
    exact ⟨text "END", rest, .done, hline, by decide⟩
  | cons kv found =>
    obtain ⟨hkey, -⟩ := List.forall_mem_cons.mp h
    have hcut : (Response.listing (kv :: found)).print ++ rest =
        valueLine kv.1 kv.2 ++ crlf ++
          (kv.2 ++ crlf ++ ((Response.listing found).print ++ rest)) := by
      simp [Response.print, valueBlock_eq]
    rw [hcut, readLine_append (cr_notMem_valueLine hkey kv.2)]
    exact ⟨_, _, _, rfl, readHeader_valueLine hkey kv.2⟩

theorem readOne_print {response : Response} (h : response.Framed) (rest : Bytes) :
    readOne (response.print ++ rest) = some (response, rest) := by
  cases response with
  | single line =>
    unfold readOne
    rw [Response.print, readLine_unbroken h.1]
    simp only [h.2]
  | listing found =>
    obtain ⟨line, rest', header, hline, hheader⟩ := readLine_listing h rest
    unfold readOne
    rw [hline]
    simp only [hheader, Response.print, decode_blocks h rest, Option.map_some]

/-- What has been printed is cut where it was put together. -/
theorem readAll_print {responses : List Response} (h : ∀ response ∈ responses, response.Framed) :
    readAll (responses.flatMap Response.print) = some responses := by
  induction responses with
  | nil =>
    rw [List.flatMap_nil, readAll]
    rfl
  | cons response responses ih =>
    obtain ⟨hfirst, hrest⟩ := List.forall_mem_cons.mp h
    rw [List.flatMap_cons, readAll_of_readOne (readOne_print hfirst _), ih hrest]
    rfl

end Client

/-! ## What the server prints -/

/-- The texts that a call of the store returns or throws have no line break. -/
def Mannered : StoreEvent → Prop
  | ⟨.get _, .ok (status, _)⟩ => Unbroken status.msg
  | ⟨.get _, .error what⟩ => Unbroken what
  | ⟨.del _, .ok status⟩ => Unbroken status.msg
  | ⟨.del _, .error what⟩ => Unbroken what
  | ⟨.put _ _, .ok status⟩ => Unbroken status.msg
  | ⟨.put _ _, .error what⟩ => Unbroken what
  | ⟨.lock, _⟩ => True
  | ⟨.unlock, _⟩ => True

/-- The bytes are a response of the protocol. -/
def Told (s : Bytes) : Prop := ∃ response : Response, response.Framed ∧ s = response.print

/-- A line with another first word than those of a listing. -/
theorem readHeader_word {word : Bytes} (hword : 32 ∉ word) (hend : word ≠ text "END")
    (hvalue : word ≠ text "VALUE") (rest : Bytes) :
    Client.readHeader (word ++ 32 :: rest) = none := by
  rw [Client.readHeader, List.splitOn_append_cons_self_of_not_mem hword]
  split
  · next word' he =>
    obtain ⟨rfl, -⟩ := List.cons.inj he
    exact if_neg hend
  · next word' key flags bytes he =>
    obtain ⟨rfl, -⟩ := List.cons.inj he
    exact if_neg hvalue
  · rfl

/-- A word, and a text behind it. -/
theorem told_text {word msg : Bytes} (hword : 32 ∉ word) (hcr : 13 ∉ word)
    (hend : word ≠ text "END") (hvalue : word ≠ text "VALUE") (hmsg : Unbroken msg) :
    Told (word ++ 32 :: msg ++ crlf) := by
  have hspace : Unbroken (32 :: msg) := ⟨fun h => absurd h.1 (by decide), hmsg⟩
  exact ⟨.single (word ++ 32 :: msg), ⟨.append hcr hspace, readHeader_word hword hend hvalue msg⟩,
    rfl⟩

theorem framed_errorLine {msg : Bytes} (h : Unbroken msg) : Told (errorLine msg) := by
  have htold : Told (text "ERROR" ++ 32 :: msg ++ crlf) :=
    told_text (by decide) (by decide) (by decide) (by decide) h
  have heq : errorLine msg = text "ERROR" ++ 32 :: msg ++ crlf := by
    simp [errorLine, text, charByte, crlf]
  rwa [heq]

theorem framed_clientErrorLine {msg : Bytes} (h : Unbroken msg) : Told (clientErrorLine msg) := by
  have htold : Told (text "CLIENT_ERROR" ++ 32 :: msg ++ crlf) :=
    told_text (by decide) (by decide) (by decide) (by decide) h
  have heq : clientErrorLine msg = text "CLIENT_ERROR" ++ 32 :: msg ++ crlf := by
    simp [clientErrorLine, text, charByte, crlf]
  rwa [heq]

/-- The lines that have no text of their own. -/
theorem framed_word {word : Bytes} (hcr : 13 ∉ word) (hheader : Client.readHeader word = none) :
    Told (word ++ crlf) := ⟨.single word, ⟨unbroken_of_notMem hcr, hheader⟩, rfl⟩

theorem framed_stored : Told stored :=
  framed_word (by decide : (13 : UInt8) ∉ text "STORED") (by decide)

theorem framed_notStored : Told notStored :=
  framed_word (by decide : (13 : UInt8) ∉ text "NOT_STORED") (by decide)

theorem framed_deleted : Told deleted :=
  framed_word (by decide : (13 : UInt8) ∉ text "DELETED") (by decide)

theorem framed_notFound : Told notFound :=
  framed_word (by decide : (13 : UInt8) ∉ text "NOT_FOUND") (by decide)

theorem framed_pong : Told pong :=
  framed_word (by decide : (13 : UInt8) ∉ text "PONG") (by decide)

theorem framed_putAnswer {key value : Bytes} {res : Except Bytes Status}
    (h : Mannered ⟨.put key value, res⟩) : Told (putAnswer res) := by
  rcases res with what | s
  · exact framed_errorLine h
  · unfold putAnswer
    dsimp only
    split
    · exact framed_stored
    · exact framed_errorLine h

/-- A retrieval prints a listing of the keys it was asked for. -/
theorem framed_retrieve {keys : List Bytes} (h : ∀ key ∈ keys, ∀ c ∈ key, isWhiteSpace c = false)
    {f : Bytes → Bytes} (hf : ∀ found : List (Bytes × Bytes),
      (∀ kv ∈ found, ∀ c ∈ kv.1, isWhiteSpace c = false) →
        Told (f (Response.listing found).print)) :
    (Attempt.run (f <$> retrieve keys) errorLine).ReturnsGiven Mannered Told := by
  induction keys generalizing f with
  | nil => exact hf [] nofun
  | cons key keys ih =>
    obtain ⟨hkey, hkeys⟩ := List.forall_mem_cons.mp h
    rw [run_retrieve_cons]
    intro res hres
    rcases res with what | ⟨status, value⟩
    · exact framed_errorLine hres
    · refine ih hkeys fun found hfound => ?_
      cases hok : status.ok with
      | false =>
        simp only [block, hok, Bool.false_eq_true, ↓reduceIte]
        exact hf found hfound
      | true =>
        have hcut : valueBlock key value ++ (Response.listing found).print =
            (Response.listing ((key, value) :: found)).print := by
          simp [Response.print]
        simp only [block, hok, ↓reduceIte, hcut]
        exact hf _ (List.forall_mem_cons.mpr ⟨hkey, hfound⟩)

section Commands

variable {r : Request} {key : Bytes} {keys : List Bytes}

theorem add_framed (hdb : r.db = true) (hk : r.keys = key :: keys) (hc : r.command = .add) :
    (prepareResponse r).ReturnsGiven Mannered fun r' => Told r'.response := by
  rw [prepareResponse_add hdb hk hc]
  intro _ _ res hres
  rcases res with what | ⟨s, v⟩
  · exact framed_errorLine hres
  dsimp only
  split
  · exact fun _ _ => framed_notStored
  split
  · intro res hres'
    rcases res with what | s'
    · exact framed_errorLine hres'
    · exact fun _ _ => framed_putAnswer hres'
  · exact fun _ _ => framed_errorLine hres

theorem delete_framed (hdb : r.db = true) (hk : r.keys = key :: keys) (hc : r.command = .delete) :
    (prepareResponse r).ReturnsGiven Mannered fun r' => Told r'.response := by
  rw [prepareResponse_delete hdb hk hc]
  intro res hres
  rcases res with what | ⟨s, v⟩
  · exact framed_errorLine hres
  dsimp only
  split
  · intro res hres'
    rcases res with what | s'
    · exact framed_errorLine hres'
    · show Told (if s'.ok then deleted else errorLine s'.msg)
      split
      · exact framed_deleted
      · exact framed_errorLine hres'
  · exact framed_notFound

theorem retrieval_framed (hkeys : KeysParsed r) (hdb : r.db = true) (hk : r.keys = key :: keys)
    (hc : r.command = .get ∨ r.command = .gets) :
    (prepareResponse r).ReturnsGiven Mannered fun r' => Told r'.response := by
  have hplain : ∀ key ∈ r.keys, ∀ c ∈ key, isWhiteSpace c = false :=
    fun key hkey => (hkeys key hkey).2
  rw [prepareResponse_retrieval hdb hk hc, ← id_map (retrieve r.keys)]
  refine (framed_retrieve hplain fun found hfound => ?_).map fun _ h => h
  exact ⟨.listing found, hfound, rfl⟩

end Commands

/-- Whatever is asked with keys that can be asked for, a response is answered. -/
theorem prepareResponse_framed {r : Request} (hkeys : KeysParsed r) :
    (prepareResponse r).ReturnsGiven Mannered fun r' => Told r'.response := by
  by_cases hping : r.command = .ping
  · rw [prepareResponse_ping hping]
    exact framed_pong
  cases hdb : r.db with
  | false =>
    simp only [prepareResponse, hping, hdb]
    exact framed_errorLine
      (unbroken_of_notMem (by decide : (13 : UInt8) ∉
        text "The server isn't configured with a database"))
  | true =>
    cases hk : r.keys with
    | nil =>
      simp only [prepareResponse, hping, hdb, hk]
      exact framed_errorLine
        (unbroken_of_notMem (by decide : (13 : UInt8) ∉ text "No key was found in request"))
    | cons key keys =>
      cases hc : r.command with
      | set =>
        rw [prepareResponse_set hdb hk hc]
        exact fun res hres => framed_putAnswer hres
      | add => exact add_framed hdb hk hc
      | delete => exact delete_framed hdb hk hc
      | get => exact retrieval_framed hkeys hdb hk (.inl hc)
      | gets => exact retrieval_framed hkeys hdb hk (.inr hc)
      | ping => exact absurd hc hping
      | quit | none =>
        rw [prepareResponse_of_key hdb hk hping]
        simp only [respond, hc]
        exact framed_errorLine
          (unbroken_of_notMem (by decide : (13 : UInt8) ∉ text "unsupported command"))

/-! ## Runs of a connection -/

theorem unbroken_parseError {what : Bytes} (h : ParseError what) : Unbroken what := by
  rcases h with rfl | rfl | rfl <;> exact unbroken_of_notMem (by decide)

theorem loop_framed {r : Request} (hsound : Sound r) (hs : r.status ≠ .finished) (data : Bytes) :
    (loop r data).ReturnsGiven Mannered fun q => q.status = .finished → Told q.response := by
  induction data generalizing r with
  | nil => exact fun hf => absurd hf hs
  | cons c data ih =>
    have hc := onByte_meets hsound c
    simp only [loop]
    cases he : onByte r c with
    | next r' =>
      rw [he] at hc
      exact ih hc fun hf => hs ((onByte_continues he).finished hf)
    | respond r' =>
      rw [he] at hc
      exact (prepareResponse_framed hc.keys).mono fun _ h _ => h
    | throw r' what => exact fun _ => framed_clientErrorLine (unbroken_parseError (onByte_throw he))

theorem process_framed {r : Request} (hsound : Sound r) (hs : r.status ≠ .finished)
    (data : Bytes) :
    (process r data).ReturnsGiven Mannered fun q => q.status = .finished → Told q.response := by
  unfold process
  split
  · exact fun _ => framed_clientErrorLine
      (unbroken_of_notMem (by decide : (13 : UInt8) ∉ text "request size exceeded max bytes"))
  · exact loop_framed hsound hs data

/-- The parser is sound, and a request that has been answered has a response to send. -/
structure Sending (s : Hosted) : Prop where
  protocol : Protocol s
  sound : Sound s.connection.request
  told : s.connection.request.status = .finished → Told s.connection.request.response

theorem sound_reset (r : Request) : Sound r.reset := ⟨nofun, rfl, rfl, plain_nil⟩

theorem dispatch_sending {c : Connection} (hsound : Sound c.request)
    (htold : c.request.status = .finished → Told c.request.response) :
    Sound c.dispatch.1.request ∧
      (c.dispatch.1.request.status = .finished → Told c.dispatch.1.request.response) := by
  unfold Connection.dispatch
  split
  · split
    · exact ⟨sound_reset c.request, nofun⟩
    · exact ⟨hsound, htold⟩
  · exact ⟨hsound, htold⟩
  · exact ⟨hsound, htold⟩

/-- What is answered is a response, as long as the texts of the store are. -/
theorem Sending.step {due : Timer → Nat → Prop} {s s' : Hosted} {l : Happening} (h : Sending s)
    (hs : Hosted.Step due s l s') (hstore : ∀ e ∈ l.calls, Mannered e) : Sending s' := by
  have hprotocol := h.protocol.step hs
  suffices hrequest : Sound s'.connection.request ∧
      (s'.connection.request.status = .finished → Told s'.connection.request.response) from
    ⟨hprotocol, hrequest.1, hrequest.2⟩
  cases hs with
  | tick _ | stop => exact ⟨h.sound, h.told⟩
  | start _ | readTimer _ _ | readTimerCancelled _ | writeTimer _ _ | writeTimerCancelled _ =>
    rw [(Hosted.settle_performed _ _).connection]
    exact ⟨h.sound, h.told⟩
  | read hr _ _ hdone =>
    rw [(Hosted.settle_performed _ _).connection]
    rw [Connection.onRead_bytes, Prog.performs_map] at hdone
    obtain ⟨request, hrequest, rfl⟩ := hdone
    have hsound := (process_sound h.sound _).of_performs hrequest
    have hparsing := (h.protocol.parsing hr).1
    exact dispatch_sending hsound
      ((process_framed h.sound hparsing _).of_performs hrequest hstore)
  | readFailed _ hdone | readAborted _ _ hdone =>
    rw [(Hosted.settle_performed _ _).connection]
    obtain ⟨-, rfl⟩ := Prog.performs_done.mp hdone
    exact ⟨h.sound, h.told⟩
  | written _ =>
    rw [(Hosted.settle_performed _ _).connection]
    exact ⟨sound_reset _, nofun⟩
  | writeFailed _ | writeAborted _ _ =>
    rw [(Hosted.settle_performed _ _).connection]
    exact ⟨h.sound, h.told⟩

/-- What `async_write` was handed for the writes that have completed, in order. The buffer
is a temporary of `do_write`; what is sent from it behind the end of `do_write` is not
said here. -/
def completedWrites (ts : List (Transition Hosted Happening)) : List Bytes :=
  ts.filterMap fun t =>
    match t.label with
    | .written => t.before.writing.head?
    | _ => none

/-- A write that completes was of a response. -/
theorem Sending.completed_told {due : Timer → Nat → Prop} {s s' : Hosted} {l : Happening}
    (h : Sending s) (hs : Hosted.Step due s l s') :
    ∀ bytes ∈ completedWrites [⟨s, l, s'⟩], Told bytes := by
  intro bytes hbytes
  obtain ⟨t, ht, hsome⟩ := List.mem_filterMap.mp hbytes
  obtain rfl := List.mem_singleton.mp ht
  cases l with
  | written =>
    have hanswering := h.protocol.answering bytes (List.mem_of_mem_head? hsome)
    rw [← hanswering.response_eq]
    exact h.told hanswering.finished
  | _ => cases hsome

theorem exists_responses {all : List Bytes} (h : ∀ bytes ∈ all, Told bytes) :
    ∃ responses : List Response, (∀ response ∈ responses, response.Framed) ∧
      all = responses.map Response.print := by
  induction all with
  | nil => exact ⟨[], fun _ h => absurd h List.not_mem_nil, rfl⟩
  | cons bytes all ih =>
    obtain ⟨⟨response, hframed, rfl⟩, hrest⟩ := List.forall_mem_cons.mp h
    obtain ⟨responses, hall, rfl⟩ := ih hrest
    exact ⟨response :: responses, List.forall_mem_cons.mpr ⟨hframed, hall⟩, rfl⟩

/-- **Responses cannot be split or forged**: whatever a client sends, in whatever pieces,
and whatever is stored, what a connection hands over to be sent is cut, by a reader that
knows the format only, into exactly the responses it was put together of, as long as no
text of the store has a line break in it. -/
theorem completedWrites_framed {due : Timer → Nat → Prop} {db : Bool} {command : CommandType}
    {maxReqSizeBytes : Nat} {readTimeout writeTimeout : Int} {now : Nat}
    {ts : List (Transition Hosted Happening)} {s : Hosted}
    (hrun : Run (Hosted.Step due)
      (.construct (.construct db command maxReqSizeBytes readTimeout writeTimeout) now) ts s)
    (hstore : ∀ t ∈ ts, ∀ e ∈ t.label.calls, Mannered e) :
    ∃ responses : List Response, completedWrites ts = responses.map Response.print ∧
      Client.readAll (completedWrites ts).flatten = some responses := by
  have hsending : Sending s ∧ ∀ bytes ∈ completedWrites ts, Told bytes := by
    refine hrun.history (fun t => ∀ e ∈ t.label.calls, Mannered e)
      (fun ts s => Sending s ∧ ∀ bytes ∈ completedWrites ts, Told bytes)
      ⟨⟨?_, ?_, fun h => by cases h⟩, fun _ h => absurd h List.not_mem_nil⟩ ?_ hstore
    · exact protocol_construct db command maxReqSizeBytes readTimeout writeTimeout now
    · exact ⟨nofun, rfl, rfl, plain_nil⟩
    · rintro ts s l s' - ⟨hsending, htold⟩ hs hcalls
      refine ⟨hsending.step hs hcalls, ?_⟩
      rw [completedWrites, List.filterMap_append, List.forall_mem_append]
      exact ⟨htold, hsending.completed_told hs⟩
  obtain ⟨responses, hframed, hsent⟩ := exists_responses hsending.2
  refine ⟨responses, hsent, ?_⟩
  rw [hsent, ← List.flatMap_def]
  exact Client.readAll_print hframed

/-- The texts of a store that is a map are empty. -/
theorem mapStore_mannered {α : Type} (p : StoreProg α) (m : Contents) :
    ∀ e ∈ (p.runWith mapStore m).2.1, Mannered e := by
  induction p generalizing m with
  | done a => exact fun _ h => absurd h List.not_mem_nil
  | call c next ih =>
    refine List.forall_mem_cons.mpr ⟨?_, ih _ _⟩
    cases c with
    | get key => cases hm : m key <;> simp [hm, found, Mannered, Status.success,
        Status.missing, Unbroken]
    | del key | put key value | lock | unlock => trivial

/-- A value that looks like the end of a listing. -/
def endContents : Contents := fun key => if key = text "k" then some (text "END\r\n") else none

theorem completedWrites_framed_imitation :
    ∃ ts s, Run (Hosted.Step Timer.Due) (.construct (.construct true .none 0 100 100) 0) ts s ∧
      completedWrites ts = [text "PONG\r\n", text "VALUE k 0 5\r\nEND\r\n\r\nEND\r\n"] ∧
      ∃ responses : List Response, completedWrites ts = responses.map Response.print ∧
        Client.readAll (completedWrites ts).flatten = some responses := by
  have h₁ := Run.start.snoc (.start rfl : Hosted.Step Timer.Due
    (.construct (.construct true .none 0 100 100) 0) .start _)
  have h₂ := h₁.snoc (.read_map (text "ping\n") endContents (by decide) (by decide) (by decide))
  have h₃ := h₂.snoc (.written rfl)
  have h₄ := h₃.snoc
    (.read_map (text "get k\n\n") endContents (by decide) (by decide) (by decide))
  have h₅ := h₄.snoc (.written rfl)
  refine ⟨_, _, h₅, by decide, completedWrites_framed h₅ ?_⟩
  simp only [List.forall_mem_append, List.forall_mem_singleton]
  exact ⟨⟨⟨⟨⟨fun _ h => absurd h List.not_mem_nil, fun _ h => absurd h List.not_mem_nil⟩,
    mapStore_mannered _ _⟩, fun _ h => absurd h List.not_mem_nil⟩, mapStore_mannered _ _⟩,
    fun _ h => absurd h List.not_mem_nil⟩

end Quitsies.Service
