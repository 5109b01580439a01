import Quitsies.Tcp.Header
import Quitsies.Tcp.Invariant

/-!
# The end of a data block

A data block is to be followed by CRLF. The parser counts its bytes and answers at
whatever byte comes next, or with an empty block at the header's LF already, so it
stores what no terminator follows. It happens to be right where it stores nothing.
-/

namespace Quitsies.Tcp

open Text Interaction Db WellFormed

/-- The first `n` bytes are followed by CR and LF. -/
def Terminated (n : Nat) (b : Bytes) : Prop := crlf <+: b.drop n

instance (n : Nat) (b : Bytes) : Decidable (Terminated n b) :=
  inferInstanceAs (Decidable (_ <+: _))

/-- The first `n` bytes are followed by something else, which is more than an
incomplete CRLF. -/
def Unterminated (n : Nat) (b : Bytes) : Prop :=
  n < b.length ∧ ¬ crlf <+: b.drop n ∧ ¬ b.drop n <+: crlf

instance (n : Nat) (b : Bytes) : Decidable (Unterminated n b) :=
  inferInstanceAs (Decidable (_ ∧ _))

def Puts (events : List StoreEvent) : Prop :=
  ∃ key value res, (⟨.put key value, res⟩ : StoreEvent) ∈ events

/-- The client is told of an error. -/
def ErrorAnswer (response : Bytes) : Prop :=
  text "ERROR " <+: response ∨ text "CLIENT_ERROR " <+: response

/-- What a client of the documented format relies on, when it sends a header and
the bytes `b` after it in `chunks`. -/
structure StoresTerminated (db : Bool) (m : Nat) (g : CommandType) (h : StorageHeader) (b : Bytes)
    (chunks : List Bytes) : Prop where
  terminated : ∀ events r, (feed (.fresh db m g) chunks).Performs events r → Puts events →
    Terminated h.count b
  other : Unterminated h.count b → ∀ events r, (feed (.fresh db m g) chunks).Performs events r →
    ¬ Puts events ∧ r.status = .finished ∧ ErrorAnswer r.response

/-! ## Answers that store nothing -/

theorem not_puts_nil : ¬ Puts [] := by
  intro h
  obtain ⟨_, _, _, hmem⟩ := h
  cases hmem

section Cases

variable {db : Bool} {m : Nat} {g : CommandType} {h : StorageHeader} {b : Bytes}
  {chunks : List Bytes}

/-- A request that ends without a call, and with an error if it ends. -/
theorem StoresTerminated.of_done {q : Request} (hq : feed (.fresh db m g) chunks = .done q)
    (herror : Unterminated h.count b → q.status = .finished ∧ ErrorAnswer q.response) :
    StoresTerminated db m g h b chunks := by
  constructor
  · intro events r hp hputs
    rw [hq] at hp
    obtain ⟨rfl, -⟩ := Prog.performs_done.mp hp
    exact absurd hputs not_puts_nil
  · intro hb events r hp
    rw [hq] at hp
    obtain ⟨rfl, rfl⟩ := Prog.performs_done.mp hp
    exact ⟨not_puts_nil, herror hb⟩

theorem errorAnswer_rejected (r : Request) (what : Bytes) :
    (r.rejected what).status = .finished ∧ ErrorAnswer (r.rejected what).response := by
  refine ⟨rfl, .inr ⟨what ++ text "\r\n", ?_⟩⟩
  rw [← List.append_assoc]
  rfl

/-- Without a store there is nothing to store in. -/
theorem prepareResponse_no_db {q : Request} (hdb : q.db = false) (hc : q.command.Storage) :
    prepareResponse q =
      .done (q.answered (text "ERROR The server isn't configured with a database\r\n")) := by
  have hping : q.command ≠ .ping := by
    rcases hc with hc | hc <;> rw [hc] <;> decide
  simp [prepareResponse, hping, hdb]

/-- A storage command that is answered may come to its `put`. -/
theorem exists_puts {q : Request} {key : Bytes} (hdb : q.db = true) (hk : q.keys = [key])
    (hc : q.command.Storage) : ∃ events r, (prepareResponse q).Performs events r ∧ Puts events := by
  have hrun := Prog.performs_runWith mapStore (prepareResponse q) fun _ => none
  refine ⟨_, _, hrun, key, q.buffer, .ok .success, ?_⟩
  rcases hc with hc | hc
  · rw [prepareResponse_set hdb hk hc]
    exact List.mem_cons_self
  · rw [prepareResponse_add hdb hk hc]
    exact List.mem_cons_of_mem _ (List.mem_cons_of_mem _ List.mem_cons_self)

end Cases

theorem StorageKind.storage (kind : StorageKind) : kind.command.Storage := by
  cases kind
  · exact .inl rfl
  · exact .inr rfl

/-! ## Which blocks are stored -/

/-- **A block is stored only when it is terminated**, and anything else is an error,
if and only if the stream is terminated or the block is never answered by a store:
there is none, the size check or the header turns the request down, or the block has
not arrived. -/
theorem stores_terminated_iff (db : Bool) (m : Nat) (g : CommandType) (h : StorageHeader)
    (b : Bytes) (chunks : List Bytes) (hchunks : chunks.flatten = h.bytes ++ b) :
    StoresTerminated db m g h b chunks ↔
      db = false ∨ admits (.fresh db m g) chunks = false ∨ ¬ h.Readable ∨
        (0 < h.count ∧ b.length ≤ h.count) ∨ Terminated h.count b := by
  have hfresh := fresh_going db m g
  cases ha : admits (.fresh db m g) chunks with
  | false =>
    refine iff_of_true ?_ (.inr (.inl rfl))
    obtain ⟨p, q, -, -, hfeed⟩ := feed_refused hfresh ha
    exact .of_done hfeed fun _ => errorAnswer_rejected q sizeExceeded
  | true =>
    have hfeed := feed_admitted hfresh ha
    rw [hchunks] at hfeed
    by_cases hr : h.Readable
    · by_cases hb : 0 < h.count ∧ b.length ≤ h.count
      · refine iff_of_true ?_ (.inr (.inr (.inr (.inl hb))))
        rw [loop_of_scan (h.scan_bytes db m g hr hb.1),
          loop_scanned (scan_payload (r := h.awaiting db m g .data) rfl hb.2)] at hfeed
        refine .of_done hfeed fun hother => ?_
        have hlt := hother.1
        omega
      · obtain ⟨status, hloop⟩ := h.loop_block db m g hr hb
        let q := h.complete db m g status b
        have hdb : q.db = db := rfl
        have hstorage : q.command.Storage := h.kind.storage
        rw [hloop] at hfeed
        by_cases hstore : db = true
        · constructor
          · intro hall
            obtain ⟨events, r, hp, hputs⟩ := exists_puts (hdb.trans hstore) rfl hstorage
            rw [← hfeed] at hp
            exact .inr (.inr (.inr (.inr (hall.terminated events r hp hputs))))
          · intro hcases
            have hterminated : Terminated h.count b := by
              rcases hcases with hno | hno | hno | hno | hyes
              · rw [hstore] at hno
                cases hno
              · cases hno
              · exact absurd hr hno
              · exact absurd hno hb
              · exact hyes
            exact ⟨fun _ _ _ _ => hterminated, fun hother => absurd hterminated hother.2.1⟩
        · have hnone := Bool.eq_false_of_not_eq_true hstore
          refine iff_of_true ?_ (.inl hnone)
          rw [prepareResponse_no_db (hdb.trans hnone) hstorage] at hfeed
          have herror : text "ERROR " <+:
              text "ERROR The server isn't configured with a database\r\n" := by decide
          exact .of_done hfeed fun _ => ⟨rfl, .inl herror⟩
    · refine iff_of_true ?_ (.inr (.inr (.inl hr)))
      obtain ⟨-, q, -, hrefused⟩ := h.refused db m g hr
      rw [hrefused b] at hfeed
      exact .of_done hfeed fun _ => errorAnswer_rejected q _

theorem stores_terminated_hello :
    StoresTerminated true 0 .none fiveBytes (text "hello\r\n")
        [text "set k 0 0 5\r\nhel", text "lo\r\n"] ↔
      true = false ∨
        admits (.fresh true 0 .none) [text "set k 0 0 5\r\nhel", text "lo\r\n"] = false ∨
        ¬ fiveBytes.Readable ∨ (0 < fiveBytes.count ∧ (text "hello\r\n").length ≤ fiveBytes.count) ∨
          Terminated fiveBytes.count (text "hello\r\n") :=
  stores_terminated_iff true 0 .none fiveBytes _ _ (by decide)

/-- Ten bytes where five are declared: the first five are stored. -/
theorem stores_overlong :
    let chunks := [text "set k 0 0 5\r\n", text "helloworld\r\n"]
    let run := (feed (.fresh true 0 .none) chunks).runWith mapStore fun _ => none
    run.1.response = stored ∧ run.2.1.map Sigma.fst = [.put (text "k") (text "hello")] ∧
      ¬ StoresTerminated true 0 .none fiveBytes (text "helloworld\r\n") chunks := by
  intro chunks run
  have hcalls : run.2.1.map Sigma.fst = [.put (text "k") (text "hello")] := by decide
  refine ⟨by decide, hcalls, fun hall => ?_⟩
  have hrun := Prog.performs_runWith mapStore (feed (.fresh true 0 .none) chunks) fun _ => none
  obtain ⟨⟨op, res⟩, hmem, hop⟩ : ∃ e ∈ run.2.1, e.1 = .put (text "k") (text "hello") := by
    apply List.mem_map.mp
    rw [hcalls]
    exact List.mem_singleton_self _
  subst hop
  exact (hall.other (by decide) _ _ hrun).1 ⟨_, _, res, hmem⟩

end Quitsies.Tcp
