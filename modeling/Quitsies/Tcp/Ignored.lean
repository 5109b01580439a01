import Quitsies.Tcp.Header
import Quitsies.Tcp.Rejection

/-!
# Flags and expiry

Two storage requests that differ in the flags and the expiry only. Neither value is
used, and both are converted: what the requests come to is the same exactly when the
same part of the parser turns them down, or none does.
-/

namespace Quitsies.Tcp

open Text Interaction Db WellFormed

/-- The header with other numbers in the fields that are to be ignored. -/
def StorageHeader.withIgnored (h : StorageHeader) (flags exptime : Int) : StorageHeader :=
  { h with
    flags := flags
    exptime := exptime }

/-- A storage command with its block. -/
def StorageHeader.request (h : StorageHeader) (payload : Bytes) : Bytes :=
  h.bytes ++ (payload ++ crlf)

/-- Two ways of sending bytes make the same calls, leave the same store and are
answered alike, whatever the store. -/
def SameOutcome (r r' : Request) (chunks chunks' : List Bytes) : Prop :=
  ∀ (σ : Type) (store : σ → (c : StoreCall) → StoreResult c × σ) (s : σ),
    let one := (feed r chunks).runWith store s
    let other := (feed r' chunks').runWith store s
    one.2 = other.2 ∧ one.1.response = other.1.response

/-! ## What an answer depends on -/

theorem respond_congr {r r' : Request} (hc : r.command = r'.command) (hk : r.keys = r'.keys)
    (hb : r.buffer = r'.buffer) (key : Bytes) : respond r key = respond r' key := by
  simp only [respond, hc, hk, hb]

/-- Requests that agree on the other members are answered by one program. -/
theorem prepareResponse_congr (r r' : Request) (hdb : r.db = r'.db) (hc : r.command = r'.command)
    (hk : r.keys = r'.keys) (hb : r.buffer = r'.buffer) :
    ∃ p : StoreProg Bytes, prepareResponse r = r.answered <$> p ∧
      prepareResponse r' = r'.answered <$> p := by
  unfold prepareResponse
  rw [← hdb, ← hc, ← hk]
  split
  · exact ⟨.done pong, rfl, rfl⟩
  split
  · exact ⟨.done _, rfl, rfl⟩
  split
  · exact ⟨.done _, rfl, rfl⟩
  · next key keys _ =>
    rw [← respond_congr hc hk hb key]
    exact ⟨Attempt.run (respond r key) errorLine, rfl, rfl⟩

/-! ## The three ends of a request -/

section Ends

variable {db : Bool} {m : Nat} {g : CommandType} {h : StorageHeader} {payload : Bytes}
  {chunks : List Bytes}

/-- Turned down by the size check. -/
theorem feed_oversized (ha : admits (.fresh db m g) chunks = false) :
    ∃ q : Request, feed (.fresh db m g) chunks = .done (q.rejected sizeExceeded) := by
  obtain ⟨-, q, -, -, hfeed⟩ := feed_refused (fresh_going db m g) ha
  exact ⟨q, hfeed⟩

/-- Turned down by a number. -/
theorem feed_unreadable (hchunks : chunks.flatten = h.request payload)
    (ha : admits (.fresh db m g) chunks = true) (hr : ¬ h.Readable) :
    ∃ q : Request, feed (.fresh db m g) chunks = .done (q.rejected (text "stoi")) := by
  obtain ⟨-, q, -, hrefused⟩ := h.refused db m g hr
  refine ⟨q, ?_⟩
  rw [feed_admitted (fresh_going db m g) ha, hchunks]
  exact hrefused (payload ++ crlf)

/-- Answered, with the payload. -/
theorem feed_executed (hchunks : chunks.flatten = h.request payload)
    (ha : admits (.fresh db m g) chunks = true) (hr : h.Readable)
    (hlen : payload.length = h.count) : ∃ status,
      feed (.fresh db m g) chunks =
        prepareResponse { h.awaiting db m g status with remaining := 0, buffer := payload } := by
  have hb : ¬ (0 < h.count ∧ (payload ++ crlf).length ≤ h.count) := by
    intro hle
    have htotal := hle.2
    rw [List.length_append, hlen] at htotal
    simp [crlf] at htotal
  obtain ⟨status, hloop⟩ := h.loop_block db m g hr hb
  refine ⟨status, ?_⟩
  rw [feed_admitted (fresh_going db m g) ha, hchunks, StorageHeader.request, hloop,
    StorageHeader.complete, ← hlen, List.take_left]

/-- What is executed is not answered as what is rejected. -/
theorem response_ne_rejected (q q' : Request) (what : Bytes) {σ : Type}
    (store : σ → (c : StoreCall) → StoreResult c × σ) (s : σ) :
    ((prepareResponse q).runWith store s).1.response ≠ (q'.rejected what).response := by
  intro he
  have hrun := Prog.performs_runWith store (prepareResponse q) s
  have hexecuted := (prepareResponse_executed q).of_performs hrun
  rw [he] at hexecuted
  exact hexecuted rfl

end Ends

/-! ## Two requests -/

theorem SameOutcome.symm {r r' : Request} {chunks chunks' : List Bytes}
    (h : SameOutcome r r' chunks chunks') : SameOutcome r' r chunks' chunks := by
  intro σ store s
  obtain ⟨hrun, hresponse⟩ := h σ store s
  exact ⟨hrun.symm, hresponse.symm⟩

theorem SameOutcome.of_rejected {r r' q q' : Request} {chunks chunks' : List Bytes} {what : Bytes}
    (hq : feed r chunks = .done (q.rejected what))
    (hq' : feed r' chunks' = .done (q'.rejected what)) : SameOutcome r r' chunks chunks' := by
  intro σ store s
  rw [hq, hq']
  exact ⟨rfl, rfl⟩

section Two

variable {db : Bool} {m : Nat} {g g' : CommandType} {h : StorageHeader}
  {payload : Bytes} {chunks chunks' : List Bytes}

/-- The size check leaves a trace of its own in the response. -/
theorem oversized_differs (ha : admits (.fresh db m g) chunks = false)
    (hchunks' : chunks'.flatten = h.request payload) (hlen : payload.length = h.count)
    (ha' : admits (.fresh db m g') chunks' = true) :
    ¬ SameOutcome (.fresh db m g) (.fresh db m g') chunks chunks' := by
  intro hsame
  obtain ⟨q, hq⟩ := feed_oversized ha
  obtain ⟨-, hresponse⟩ := hsame Contents mapStore fun _ => none
  rw [hq] at hresponse
  by_cases hr : h.Readable
  · obtain ⟨status, hexecuted⟩ := feed_executed hchunks' ha' hr hlen
    rw [hexecuted] at hresponse
    exact response_ne_rejected _ q sizeExceeded mapStore _ hresponse.symm
  · obtain ⟨q', hq'⟩ := feed_unreadable hchunks' ha' hr
    rw [hq'] at hresponse
    have hne : clientErrorLine sizeExceeded ≠ clientErrorLine (text "stoi") := by decide
    exact hne hresponse

/-- So does a number that does not fit. -/
theorem unreadable_differs {h' : StorageHeader} (hchunks : chunks.flatten = h.request payload)
    (ha : admits (.fresh db m g) chunks = true) (hr : ¬ h.Readable)
    (hchunks' : chunks'.flatten = h'.request payload) (hlen : payload.length = h'.count)
    (ha' : admits (.fresh db m g') chunks' = true) (hr' : h'.Readable) :
    ¬ SameOutcome (.fresh db m g) (.fresh db m g') chunks chunks' := by
  intro hsame
  obtain ⟨q, hq⟩ := feed_unreadable hchunks ha hr
  obtain ⟨status, hexecuted⟩ := feed_executed hchunks' ha' hr' hlen
  obtain ⟨-, hresponse⟩ := hsame Contents mapStore fun _ => none
  rw [hq, hexecuted] at hresponse
  exact response_ne_rejected _ q (text "stoi") mapStore _ hresponse.symm

end Two

/-- **Flags and expiry are ignored** if and only if both requests pass the size check
or both fail it and, if they pass, the numbers of both fit an `int` or not. -/
theorem ignored_iff (db : Bool) (m : Nat) (g g' : CommandType) (h : StorageHeader)
    (flags exptime flags' exptime' : Int) (payload : Bytes) (hlen : payload.length = h.count)
    (chunks chunks' : List Bytes)
    (hchunks : chunks.flatten = (h.withIgnored flags exptime).request payload)
    (hchunks' : chunks'.flatten = (h.withIgnored flags' exptime').request payload) :
    SameOutcome (.fresh db m g) (.fresh db m g') chunks chunks' ↔
      admits (.fresh db m g) chunks = admits (.fresh db m g') chunks' ∧
        (admits (.fresh db m g) chunks = true →
          ((h.withIgnored flags exptime).Readable ↔ (h.withIgnored flags' exptime').Readable)) := by
  cases ha : admits (.fresh db m g) chunks with
  | false =>
    cases ha' : admits (.fresh db m g') chunks' with
    | false =>
      obtain ⟨q, hq⟩ := feed_oversized ha
      obtain ⟨q', hq'⟩ := feed_oversized ha'
      exact iff_of_true (.of_rejected hq hq') ⟨rfl, nofun⟩
    | true => exact iff_of_false (oversized_differs ha hchunks' hlen ha') fun hc => nomatch hc.1
  | true =>
    cases ha' : admits (.fresh db m g') chunks' with
    | false =>
      refine iff_of_false (fun hsame => ?_) fun hc => nomatch hc.1
      exact oversized_differs ha' hchunks hlen ha hsame.symm
    | true =>
      by_cases hr : (h.withIgnored flags exptime).Readable
      · by_cases hr' : (h.withIgnored flags' exptime').Readable
        · refine iff_of_true ?_ ⟨rfl, fun _ => iff_of_true hr hr'⟩
          obtain ⟨status, hone⟩ := feed_executed hchunks ha hr hlen
          obtain ⟨status', hother⟩ := feed_executed hchunks' ha' hr' hlen
          intro σ store s
          rw [hone, hother]
          let q := (h.withIgnored flags exptime).awaiting db m g status
          let q' := (h.withIgnored flags' exptime').awaiting db m g' status'
          obtain ⟨p, hp, hp'⟩ := prepareResponse_congr
            { q with remaining := 0, buffer := payload }
            { q' with remaining := 0, buffer := payload } rfl rfl rfl rfl
          rw [hp, hp', Prog.runWith_map, Prog.runWith_map]
          exact ⟨rfl, rfl⟩
        · refine iff_of_false (fun hsame => ?_) fun hc => hr' ((hc.2 rfl).mp hr)
          exact unreadable_differs hchunks' ha' hr' hchunks hlen ha hr hsame.symm
      · by_cases hr' : (h.withIgnored flags' exptime').Readable
        · refine iff_of_false ?_ fun hc => hr ((hc.2 rfl).mpr hr')
          exact unreadable_differs hchunks ha hr hchunks' hlen ha' hr'
        · refine iff_of_true ?_ ⟨rfl, fun _ => iff_of_false hr hr'⟩
          obtain ⟨q, hq⟩ := feed_unreadable hchunks ha hr
          obtain ⟨q', hq'⟩ := feed_unreadable hchunks' ha' hr'
          exact .of_rejected hq hq'

/-- Flags and expiry that are read, whatever they are. -/
theorem ignored_read :
    let chunks := [text "set k 0 0 5\r\nhello\r\n"]
    let chunks' := [text "set k 2147483647 -", text "1 5\r\nhello\r\n"]
    SameOutcome (.fresh true 0 .none) (.fresh true 0 .none) chunks chunks' ↔
      admits (.fresh true 0 .none) chunks = admits (.fresh true 0 .none) chunks' ∧
        (admits (.fresh true 0 .none) chunks = true →
          ((fiveBytes.withIgnored 0 0).Readable ↔
            (fiveBytes.withIgnored 2147483647 (-1)).Readable)) :=
  ignored_iff true 0 .none .none fiveBytes 0 0 2147483647 (-1) (text "hello") (by decide) _ _
    (by decide) (by decide)

/-- Flags of an unsigned 32-bit number that is no `int`. -/
theorem ignored_unsigned :
    let chunks := [text "set k 0 0 5\r\nhello\r\n"]
    let chunks' := [text "set k 2147483648 0 5\r\nhello\r\n"]
    let one := (feed (.fresh true 0 .none) chunks).runWith mapStore fun _ => none
    let other := (feed (.fresh true 0 .none) chunks').runWith mapStore fun _ => none
    chunks.flatten = (fiveBytes.withIgnored 0 0).request (text "hello") ∧
      chunks'.flatten = (fiveBytes.withIgnored 2147483648 0).request (text "hello") ∧
      one.1.response = stored ∧ other.1.response = clientErrorLine (text "stoi") ∧
      ¬ SameOutcome (.fresh true 0 .none) (.fresh true 0 .none) chunks chunks' := by
  intro chunks chunks' one other
  have hone : one.1.response = stored := by decide
  have hother : other.1.response = clientErrorLine (text "stoi") := by decide
  refine ⟨by decide, by decide, hone, hother, fun hsame => ?_⟩
  obtain ⟨-, hresponse⟩ := hsame Contents mapStore fun _ => none
  have hanswers : stored = clientErrorLine (text "stoi") := hone.symm.trans (hresponse.trans hother)
  exact absurd hanswers (by decide)

end Quitsies.Tcp
