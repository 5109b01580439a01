import Quitsies.Service.Decoding

/-!
# Failures of the store

A status that is neither `ok` nor `not found` is a failure, and the client is to be
told. Where a command asks for `ok()` only, it takes a failure for a miss: deletions
and retrievals do so for their lookups.
-/

namespace Quitsies.Service

open Text Interaction Db Tcp

abbrev RocksEvent := Event RocksCall RocksResult

/-- Neither `ok` nor `not found`. -/
def StatusFailed (s : RocksStatus) : Prop := s.ok = false ∧ s.isNotFound = false

/-- A call of RocksDB that failed. -/
def CallFailed : RocksEvent → Prop
  | ⟨.get _, s, _⟩ => StatusFailed s
  | ⟨.delete _, s⟩ => StatusFailed s
  | ⟨.put _ _, s⟩ => StatusFailed s
  | _ => False

def GetFailed : RocksEvent → Prop
  | ⟨.get _, s, _⟩ => StatusFailed s
  | _ => False

/-- The client is told of an error: `ERROR`, or a status of 500 or more. -/
def ToldError : Reply → Prop
  | .tcp r => text "ERROR" <+: r.response
  | .http (.ok response) => 500 ≤ response.status
  | .http (.error _) => False

/-- The commands whose lookups only ask for `ok()`. -/
def LooksUpByOk : Operation → Prop
  | .tcp r => r.command = .delete ∨ r.command = .get ∨ r.command = .gets
  | _ => False

/-! ## The methods of `rocks` -/

/-- The same failures one level up. A `put` has no status `not found`. -/
def StoreFailed : StoreEvent → Prop
  | ⟨.get _, .ok (s, _)⟩ => s.ok = false ∧ s.isNotFound = false
  | ⟨.del _, .ok s⟩ => s.ok = false ∧ s.isNotFound = false
  | ⟨.put _ _, .ok s⟩ => s.ok = false
  | _ => False

def StoreGetFailed : StoreEvent → Prop
  | ⟨.get _, .ok (s, _)⟩ => s.ok = false ∧ s.isNotFound = false
  | _ => False

/-- What a method of `rocks` makes of the failures of its calls. -/
structure PassesOn (e : StoreEvent) (calls : List RocksEvent) : Prop where
  returned : threw e = false
  failed : (∃ call ∈ calls, CallFailed call) → StoreFailed e
  get : (∃ call ∈ calls, GetFailed call) ↔ StoreGetFailed e

/-- The counter that follows a call. -/
theorem counted {name : Bytes} {α : Type} {a b : α} {calls : List RocksEvent}
    (h : (Rocks.counter name >>= fun _ => Prog.done a : RocksProg α).Performs calls b) :
    calls = [⟨.counter name, ()⟩] ∧ b = a := by
  obtain ⟨_, rfl, rfl⟩ := Prog.performs_single.mp h
  exact ⟨rfl, rfl⟩

theorem get_performs {key : Bytes} {calls : List RocksEvent} {sv : Status × Bytes}
    (h : (Rocks.get key).Performs calls sv) : ∃ s value name,
      calls = [⟨.get key, s, value⟩, ⟨.counter name, ()⟩] ∧ sv.1.ok = s.ok ∧
        (s.ok = false → sv.1.isNotFound = s.isNotFound) := by
  obtain ⟨⟨s, value⟩, rest, rfl, hrest⟩ := Prog.performs_call.mp h
  cases hok : s.ok with
  | true =>
    simp only [Prog.bind, hok, ↓reduceIte] at hrest
    obtain ⟨rfl, rfl⟩ := counted hrest
    exact ⟨s, value, _, rfl, hok.symm, fun hno => nomatch hok.symm.trans hno⟩
  | false =>
    cases hnf : s.isNotFound <;>
      simp only [Prog.bind, hok, hnf, Bool.false_eq_true, ↓reduceIte] at hrest <;>
      obtain ⟨rfl, rfl⟩ := counted hrest <;>
      exact ⟨s, value, _, rfl, hok.symm, fun _ => hnf.symm⟩

theorem del_performs {key : Bytes} {calls : List RocksEvent} {status : Status}
    (h : (Rocks.del key).Performs calls status) : ∃ s name,
      calls = [⟨.delete key, s⟩, ⟨.counter name, ()⟩] ∧ status.ok = s.ok ∧
        status.isNotFound = s.isNotFound := by
  obtain ⟨s, rest, rfl, hrest⟩ := Prog.performs_call.mp h
  cases hnf : s.isNotFound with
  | true =>
    simp only [Prog.bind, hnf, ↓reduceIte] at hrest
    obtain ⟨rfl, rfl⟩ := counted hrest
    exact ⟨s, _, rfl, rfl, hnf.symm⟩
  | false =>
    cases hok : s.ok <;>
      simp only [Prog.bind, hok, hnf, Bool.false_eq_true, ↓reduceIte] at hrest <;>
      obtain ⟨rfl, rfl⟩ := counted hrest <;> exact ⟨s, _, rfl, hok.symm, hnf.symm⟩

theorem put_performs {key value : Bytes} {calls : List RocksEvent} {status : Status}
    (h : (Rocks.put key value).Performs calls status) : ∃ s name,
      calls = [⟨.put key value, s⟩, ⟨.counter name, ()⟩] ∧ status.ok = s.ok := by
  obtain ⟨s, rest, rfl, hrest⟩ := Prog.performs_call.mp h
  cases hok : s.ok <;> simp only [Prog.bind, hok, Bool.false_eq_true, ↓reduceIte] at hrest <;>
    obtain ⟨rfl, rfl⟩ := counted hrest <;> exact ⟨s, _, rfl, hok.symm⟩

/-- The failure of one call and a counter. -/
theorem exists_mem_pair {P : RocksEvent → Prop} {call : RocksEvent} {name : Bytes}
    (hcounter : ¬ P ⟨.counter name, ()⟩) : (∃ e ∈ [call, ⟨.counter name, ()⟩], P e) ↔ P call := by
  simp [hcounter]

/-- No failure is lost in `rocks`. -/
theorem rocks_passesOn {c : StoreCall} {res : StoreResult c} {calls : List RocksEvent}
    (h : (rocks c).Performs calls res) : PassesOn ⟨c, res⟩ calls := by
  cases c with
  | get key =>
    obtain ⟨⟨status, v⟩, hget, rfl⟩ := Prog.performs_map.mp h
    obtain ⟨s, value, name, rfl, hok, hnf⟩ := get_performs hget
    have hsame : StatusFailed s ↔ status.ok = false ∧ status.isNotFound = false := by
      constructor
      · intro hf
        exact ⟨hok.trans hf.1, (hnf hf.1).trans hf.2⟩
      · intro hf
        have hs : s.ok = false := hok.symm.trans hf.1
        exact ⟨hs, (hnf hs).symm.trans hf.2⟩
    refine ⟨rfl, ?_, ?_⟩
    · rw [exists_mem_pair (fun hc => hc)]
      exact hsame.mp
    · rw [exists_mem_pair (fun hc => hc)]
      exact hsame
  | del key =>
    obtain ⟨status, hdel, rfl⟩ := Prog.performs_map.mp h
    obtain ⟨s, name, rfl, hok, hnf⟩ := del_performs hdel
    refine ⟨rfl, ?_, ?_⟩
    · rw [exists_mem_pair (fun hc => hc)]
      intro hf
      exact ⟨hok.trans hf.1, hnf.trans hf.2⟩
    · rw [exists_mem_pair (fun hc => hc)]
      exact Iff.rfl
  | put key value =>
    obtain ⟨status, hput, rfl⟩ := Prog.performs_map.mp h
    obtain ⟨s, name, rfl, hok⟩ := put_performs hput
    refine ⟨rfl, ?_, ?_⟩
    · rw [exists_mem_pair (fun hc => hc)]
      intro hf
      exact hok.trans hf.1
    · rw [exists_mem_pair (fun hc => hc)]
      exact Iff.rfl
  | lock =>
    obtain ⟨_, rfl, -⟩ := Prog.performs_single.mp h
    refine ⟨rfl, ?_, ?_⟩ <;> simp [CallFailed, GetFailed, StoreGetFailed]
  | unlock =>
    obtain ⟨_, rfl, -⟩ := Prog.performs_single.mp h
    refine ⟨rfl, ?_, ?_⟩ <;> simp [CallFailed, GetFailed, StoreGetFailed]

/-! ## What the client is told -/

theorem told_errorLine (msg : Bytes) : text "ERROR" <+: errorLine msg :=
  ⟨text " " ++ msg ++ text "\r\n", rfl⟩

theorem told_putAnswer (key value : Bytes) {res : StoreResult (.put key value)}
    (h : StoreFailed ⟨.put key value, res⟩) : text "ERROR" <+: putAnswer res := by
  rcases res with what | s
  · exact h.elim
  · have hok : s.ok = false := h
    simp only [putAnswer, hok, Bool.false_eq_true, ↓reduceIte]
    exact told_errorLine s.msg

section Commands

variable {r r' : Request} {key : Bytes} {keys : List Bytes} {events : List StoreEvent}

theorem set_told (hdb : r.db = true) (hk : r.keys = key :: keys) (hc : r.command = .set)
    (h : (prepareResponse r).Performs events r') (hfailed : ∃ e ∈ events, StoreFailed e) :
    text "ERROR" <+: r'.response := by
  rw [prepareResponse_set hdb hk hc] at h
  obtain ⟨res, rfl, rfl⟩ := Prog.performs_single.mp h
  obtain ⟨e, he, hf⟩ := hfailed
  obtain rfl := List.mem_singleton.mp he
  exact told_putAnswer key r.buffer hf

theorem add_told (hdb : r.db = true) (hk : r.keys = key :: keys) (hc : r.command = .add)
    (h : (prepareResponse r).Performs events r') (hfailed : ∃ e ∈ events, StoreFailed e) :
    text "ERROR" <+: r'.response := by
  rw [prepareResponse_add hdb hk hc] at h
  obtain ⟨_, events₁, rfl, h₁⟩ := Prog.performs_call.mp h
  obtain ⟨res, events₂, rfl, h₂⟩ := Prog.performs_call.mp h₁
  rcases res with what | ⟨s, v⟩
  · obtain ⟨-, rfl⟩ := Prog.performs_done.mp h₂
    exact told_errorLine what
  simp only at h₂
  split at h₂
  · next hok =>
    obtain ⟨_, rfl, -⟩ := Prog.performs_single.mp h₂
    simp [StoreFailed, hok] at hfailed
  split at h₂
  · next hnf =>
    obtain ⟨res, events₃, rfl, h₃⟩ := Prog.performs_call.mp h₂
    rcases res with what | s'
    · obtain ⟨-, rfl⟩ := Prog.performs_done.mp h₃
      exact told_errorLine what
    · obtain ⟨_, rfl, rfl⟩ := Prog.performs_single.mp h₃
      have hput : s'.ok = false := by simpa [StoreFailed, hnf] using hfailed
      have hfailed' : StoreFailed ⟨.put key r.buffer, .ok s'⟩ := hput
      exact told_putAnswer key r.buffer hfailed'
  · obtain ⟨_, rfl, rfl⟩ := Prog.performs_single.mp h₂
    exact told_errorLine s.msg

/-- A deletion tells of the failure of its second call only. -/
theorem delete_told (hdb : r.db = true) (hk : r.keys = key :: keys) (hc : r.command = .delete)
    (h : (prepareResponse r).Performs events r') (hok : ∀ e ∈ events, threw e = false)
    (hfailed : ∃ e ∈ events, StoreFailed e) :
    text "ERROR" <+: r'.response ↔ ¬ ∃ e ∈ events, StoreGetFailed e := by
  rw [prepareResponse_delete hdb hk hc] at h
  obtain ⟨res, events₁, rfl, h₁⟩ := Prog.performs_call.mp h
  rcases res with what | ⟨s, v⟩
  · exact absurd (hok _ List.mem_cons_self) Bool.noConfusion
  simp only at h₁
  split at h₁
  · next hfound =>
    obtain ⟨res, events₂, rfl, h₂⟩ := Prog.performs_call.mp h₁
    have hget : ¬ ∃ e ∈ [⟨.get key, .ok (s, v)⟩, ⟨.del key, res⟩], StoreGetFailed e := by
      simp [StoreGetFailed, hfound]
    rcases res with what | s'
    · obtain ⟨rfl, rfl⟩ := Prog.performs_done.mp h₂
      exact iff_of_true (told_errorLine what) hget
    · obtain ⟨rfl, rfl⟩ := Prog.performs_done.mp h₂
      have hdel : s'.ok = false := by
        simp only [List.mem_cons, List.not_mem_nil, or_false, exists_eq_or_imp, exists_eq_left,
          StoreFailed, hfound] at hfailed
        rcases hfailed with hf | hf
        · cases hf.1
        · exact hf.1
      refine iff_of_true ?_ hget
      show text "ERROR" <+: if s'.ok then deleted else errorLine s'.msg
      rw [hdel]
      exact told_errorLine s'.msg
  · obtain ⟨rfl, rfl⟩ := Prog.performs_done.mp h₁
    have hnot : ¬ text "ERROR" <+: notFound := by decide
    refine iff_of_false hnot (not_not_intro ?_)
    obtain ⟨e, he, hf⟩ := hfailed
    obtain rfl := List.mem_singleton.mp he
    exact ⟨_, he, hf⟩

/-- What a retrieval answers is never an error. -/
theorem not_told_blocks (found : List (Bytes × Bytes)) :
    ¬ text "ERROR" <+: (found.flatMap fun kv => valueBlock kv.1 kv.2) ++ endLine := by
  intro h
  obtain ⟨rest, hrest⟩ := h
  cases found with
  | nil => exact absurd ⟨rest, hrest⟩ (by decide : ¬ text "ERROR" <+: endLine)
  | cons kv found =>
    have hhead := congrArg List.head? hrest
    cases hhead

theorem retrieval_told (hdb : r.db = true) (hk : r.keys = key :: keys)
    (hc : r.command = .get ∨ r.command = .gets) (h : (prepareResponse r).Performs events r')
    (hok : ∀ e ∈ events, threw e = false) (hfailed : ∃ e ∈ events, StoreFailed e) :
    text "ERROR" <+: r'.response ↔ ¬ ∃ e ∈ events, StoreGetFailed e := by
  rw [prepareResponse_retrieval hdb hk hc, ← id_map (retrieve r.keys)] at h
  obtain ⟨response, hresponse, rfl⟩ := Prog.performs_map.mp h
  obtain ⟨hcalls, rfl⟩ := retrieve_performs hresponse hok
  refine iff_of_false (not_told_blocks _) (not_not_intro ?_)
  obtain ⟨⟨call, res⟩, he, hf⟩ := hfailed
  have hcall : call ∈ r.keys.map StoreCall.get := hcalls ▸ List.mem_map_of_mem he
  obtain ⟨k, -, rfl⟩ := List.mem_map.mp hcall
  refine ⟨_, he, ?_⟩
  rcases res with what | sv
  · exact hf.elim
  · exact hf

end Commands

/-! ## The two interfaces -/

theorem http_get_told {key : Bytes} {events : List StoreEvent} {reply : Reply}
    (h : (Operation.httpGet key).program.Performs events reply)
    (hfailed : ∃ e ∈ events, StoreFailed e) : ToldError reply := by
  rw [Operation.program_httpGet] at h
  obtain ⟨res, rfl, rfl⟩ := Prog.performs_single.mp h
  obtain ⟨e, he, hf⟩ := hfailed
  obtain rfl := List.mem_singleton.mp he
  rcases res with what | ⟨s, v⟩
  · exact hf.elim
  · obtain ⟨hok, hnf⟩ : s.ok = false ∧ s.isNotFound = false := hf
    simp [ToldError, Operation.getReply, hok, hnf]

theorem http_store_told {key body : Bytes} {events : List StoreEvent} {reply : Reply}
    (h : (Reply.http <$> ExceptT.run (storeBody key body) : StoreProg Reply).Performs events reply)
    (hfailed : ∃ e ∈ events, StoreFailed e) : ToldError reply := by
  rw [Operation.program_storeBody] at h
  obtain ⟨res, rfl, rfl⟩ := Prog.performs_single.mp h
  obtain ⟨e, he, hf⟩ := hfailed
  obtain rfl := List.mem_singleton.mp he
  rcases res with what | s
  · exact hf.elim
  · have hok : s.ok = false := hf
    simp [ToldError, Operation.putReply, hok]

/-- One level above RocksDB: a failure is told unless a lookup that only asks for
`ok()` had it. -/
theorem program_told {op : Operation} (hop : op.Parsed) {events : List StoreEvent} {reply : Reply}
    (h : op.program.Performs events reply) (hok : ∀ e ∈ events, threw e = false)
    (hfailed : ∃ e ∈ events, StoreFailed e) :
    ToldError reply ↔ ¬ (LooksUpByOk op ∧ ∃ e ∈ events, StoreGetFailed e) := by
  cases op with
  | httpGet key => exact iff_of_true (http_get_told h hfailed) fun hno => hno.1
  | httpPut key body => exact iff_of_true (http_store_told h hfailed) fun hno => hno.1
  | httpPost key body => exact iff_of_true (http_store_told h hfailed) fun hno => hno.1
  | tcp r =>
    obtain ⟨hdb, hkeys, hcommand⟩ := hop
    obtain ⟨key, keys, hk⟩ := List.exists_cons_of_ne_nil hkeys
    obtain ⟨r', hp, rfl⟩ := Prog.performs_map.mp h
    rcases hcommand with hc | hc | hc | hc
    · refine iff_of_true (set_told hdb hk hc hp hfailed) fun hno => ?_
      rcases hno.1 with he | he | he <;> cases hc.symm.trans he
    · refine iff_of_true (add_told hdb hk hc hp hfailed) fun hno => ?_
      rcases hno.1 with he | he | he <;> cases hc.symm.trans he
    · have hby : LooksUpByOk (.tcp r) := .inl hc
      rw [and_iff_right hby]
      exact delete_told hdb hk hc hp hok hfailed
    · have hby : LooksUpByOk (.tcp r) := .inr hc
      rw [and_iff_right hby]
      exact retrieval_told hdb hk hc hp hok hfailed

/-- **A failure of the store is told to the client** if and only if it is not that of
a lookup made for a deletion or a retrieval over TCP. -/
theorem failure_told_iff {op : Operation} (hop : op.Parsed) {events : List RocksEvent}
    {reply : Reply} (h : (op.program.interpret rocks).Performs events reply)
    (hfailed : ∃ e ∈ events, CallFailed e) :
    ToldError reply ↔ ¬ (LooksUpByOk op ∧ ∃ e ∈ events, GetFailed e) := by
  obtain ⟨parts, hparts, rfl, hall⟩ := Prog.performs_interpret h
  have hpass : ∀ part ∈ parts, PassesOn part.1 part.2 := fun part hpart =>
    rocks_passesOn (hall part hpart)
  have hok : ∀ e ∈ parts.map Prod.fst, threw e = false := by
    intro e he
    obtain ⟨part, hpart, rfl⟩ := List.mem_map.mp he
    exact (hpass part hpart).returned
  have hstore : ∃ e ∈ parts.map Prod.fst, StoreFailed e := by
    obtain ⟨call, hcall, hf⟩ := hfailed
    obtain ⟨part, hpart, hmem⟩ := List.mem_flatMap.mp hcall
    exact ⟨part.1, List.mem_map_of_mem hpart, (hpass part hpart).failed ⟨call, hmem, hf⟩⟩
  have hget : (∃ e ∈ parts.flatMap Prod.snd, GetFailed e) ↔
      ∃ e ∈ parts.map Prod.fst, StoreGetFailed e := by
    constructor
    · intro hex
      obtain ⟨call, hcall, hf⟩ := hex
      obtain ⟨part, hpart, hmem⟩ := List.mem_flatMap.mp hcall
      exact ⟨part.1, List.mem_map_of_mem hpart, (hpass part hpart).get.mp ⟨call, hmem, hf⟩⟩
    · intro hex
      obtain ⟨e, he, hf⟩ := hex
      obtain ⟨part, hpart, rfl⟩ := List.mem_map.mp he
      obtain ⟨call, hmem, hcall⟩ := (hpass part hpart).get.mpr hf
      exact ⟨call, List.mem_flatMap.mpr ⟨part, hpart, hmem⟩, hcall⟩
  rw [hget]
  exact program_told hop hparts hok hstore

/-- A RocksDB all of whose calls fail. -/
def brokenRocks (_ : Unit) : (c : RocksCall) → RocksResult c × Unit
  | .get _ => ((⟨false, false, text "IO error"⟩, []), ())
  | .delete _ => (⟨false, false, text "IO error"⟩, ())
  | .put _ _ => (⟨false, false, text "IO error"⟩, ())
  | .counter _ => ((), ())
  | .lock => ((), ())
  | .unlock => ((), ())

/-- A command on the key `k`. -/
def onKey (command : CommandType) : Operation :=
  .tcp { Request.fresh true 0 command with keys := [text "k"] }

theorem failure_told_set :
    let run := ((onKey .set).program.interpret rocks).runWith brokenRocks ()
    ToldError run.1 ↔ ¬ (LooksUpByOk (onKey .set) ∧ ∃ e ∈ run.2.1, GetFailed e) := by
  intro run
  have hrun := Prog.performs_runWith brokenRocks ((onKey .set).program.interpret rocks) ()
  exact failure_told_iff (by decide) hrun ⟨_, List.mem_cons_self, ⟨rfl, rfl⟩⟩

/-- A deletion and a retrieval whose lookup fails are answered as for a missing key. -/
theorem failure_as_miss :
    let delete := ((onKey .delete).program.interpret rocks).runWith brokenRocks ()
    let get := ((onKey .get).program.interpret rocks).runWith brokenRocks ()
    (∃ r, delete.1 = .tcp r ∧ r.response = notFound) ∧ (∃ e ∈ delete.2.1, CallFailed e) ∧
      ¬ ToldError delete.1 ∧
      (∃ r, get.1 = .tcp r ∧ r.response = endLine) ∧ (∃ e ∈ get.2.1, CallFailed e) ∧
      ¬ ToldError get.1 := by
  intro delete get
  have hdelete : ¬ text "ERROR" <+: notFound := by decide
  have hget : ¬ text "ERROR" <+: endLine := by decide
  exact ⟨⟨_, rfl, rfl⟩, ⟨_, List.mem_cons_self, ⟨rfl, rfl⟩⟩, hdelete,
    ⟨_, rfl, rfl⟩, ⟨_, List.mem_cons_self, ⟨rfl, rfl⟩⟩, hget⟩

end Quitsies.Service
