import Quitsies.Service.Trace
import Quitsies.Tcp.Payload
import Quitsies.Tcp.Rejection

/-!
# What one request changes

Chunks are processed until the request is finished or quits. Only the call that
finishes it comes to the store, through one `prepare_response`, and that changes
at most the first key, once. An exception in the byte loop comes too early for
any of it, an exception of the store is answered by another handler. The value it
puts is the payload of the header line when that header is clean, and only then.
-/

namespace Quitsies.Service

open Text Interaction Db Tcp

/-- Call `process` on the chunks in order until the request is finished or quits. -/
def feedUntil (r : Request) : List Bytes → StoreProg Request
  | [] => return r
  | chunk :: chunks =>
    if r.status = .finished ∨ r.status = .quitting then return r
    else do feedUntil (← process r chunk) chunks

/-- The key that a call changes. -/
def changes : StoreCall → Option Bytes
  | .get _ => none
  | .del key => some key
  | .put key _ => some key
  | .lock => none
  | .unlock => none

/-- How many of the calls change a key. -/
def changeCount (events : List StoreEvent) : Nat := events.countP fun e => (changes e.1).isSome

/-- What an executed request does to the store. -/
structure ChangesOnce (r : Request) (events : List StoreEvent) : Prop where
  once : changeCount events ≤ 1
  first : ∀ e ∈ events, ∀ key, changes e.1 = some key →
    r.keys.head? = some key ∧ (r.command = .set ∨ r.command = .add ∨ r.command = .delete)

theorem ChangesOnce.none {r : Request} {events : List StoreEvent}
    (h : ∀ e ∈ events, changes e.1 = none) : ChangesOnce r events := by
  constructor
  · have hzero : changeCount events = 0 := by
      refine List.countP_eq_zero.mpr fun e he => ?_
      rw [h e he]
      exact nofun
    omega
  · intro e he key hkey
    rw [h e he] at hkey
    cases hkey

/-! ## Commands -/

theorem AddTrace.changes_once {r : Request} {key value : Bytes} {events : List StoreEvent}
    {line : Bytes} (h : AddTrace key value events (.inr line)) (hkey : r.keys.head? = some key)
    (hc : r.command = .add) : ChangesOnce r events := by
  cases h with
  | getThrew what => exact .none (by simp [changes])
  | leftPresent s v hok => exact .none (by simp [changes])
  | leftFailed s v hok hnf => exact .none (by simp [changes])
  | putThrew s v what hok hnf => exact ⟨by simp [changeCount, changes], by simp [changes, hkey, hc]⟩
  | leftPut s s' v hok hnf => exact ⟨by simp [changeCount, changes], by simp [changes, hkey, hc]⟩

theorem DeleteTrace.changes_once {r : Request} {key : Bytes} {events : List StoreEvent}
    {line : Bytes} (h : DeleteTrace key events (.inr line)) (hkey : r.keys.head? = some key)
    (hc : r.command = .delete) : ChangesOnce r events := by
  cases h with
  | getThrew what => exact .none (by simp [changes])
  | absent s v hok => exact .none (by simp [changes])
  | delThrew s v what hok => exact ⟨by simp [changeCount, changes], by simp [changes, hkey, hc]⟩
  | left s s' v hok => exact ⟨by simp [changeCount, changes], by simp [changes, hkey, hc]⟩

/-- Whatever the store does, an execution changes the first key once, or nothing. -/
theorem prepareResponse_changes_once {r r' : Request} {events : List StoreEvent}
    (h : (prepareResponse r).Performs events r') : ChangesOnce r events := by
  have hreply : (Operation.tcp r).program.Performs events (.tcp r') :=
    Prog.performs_map.mpr ⟨r', h, rfl⟩
  cases shape (.tcp r) with
  | add key value hq =>
    have htrace : AddTrace key value events (.inr r'.response) := add_reaches hq hreply
    exact htrace.changes_once hq.2.2.1 hq.2.1
  | delete key hq =>
    have htrace : DeleteTrace key events (.inr r'.response) := delete_reaches hq hreply
    exact htrace.changes_once hq.2.2 hq.2.1
  | put key value hq _ =>
    obtain ⟨hdb, hc, hkey, rfl⟩ := hq
    obtain ⟨keys, hk⟩ := List.head?_eq_some_iff.mp hkey
    rw [prepareResponse_set hdb hk hc] at h
    obtain ⟨res, rfl, -⟩ := Prog.performs_single.mp h
    exact ⟨by simp [changeCount, changes], by simp [changes, hkey, hc]⟩
  | read _ hp =>
    apply ChangesOnce.none
    intro e he
    obtain ⟨key, hget⟩ := (hp.reaches hreply).1 e he
    rw [hget]
    rfl
  | silent hp => exact .none fun e he => ((hp.reaches hreply).1 e he).elim

/-! ## Requests -/

/-- A call that does not finish the request makes no store call. -/
theorem process_unfinished {r r' : Request} {chunk : Bytes} {events : List StoreEvent}
    (h : (process r chunk).Performs events r') (hs : r'.status ≠ .finished) : events = [] := by
  rcases process_performs h with he | ⟨q, hq⟩
  · exact he
  · exact absurd ((prepareResponse_finished q).of_performs hq) hs

/-- The store is called by one execution, if at all. -/
theorem feedUntil_performs {r₀ r : Request} {chunks : List Bytes} {events : List StoreEvent}
    (h : (feedUntil r₀ chunks).Performs events r) :
    events = [] ∨ ∃ q, (prepareResponse q).Performs events r := by
  induction chunks generalizing r₀ events with
  | nil => exact .inl (Prog.performs_done.mp h).1
  | cons chunk chunks ih =>
    rw [feedUntil] at h
    split at h
    · exact .inl (Prog.performs_done.mp h).1
    · obtain ⟨r₁, first, second, rfl, hprocess, hrest⟩ := Prog.performs_bind.mp h
      by_cases hs : r₁.status = .finished
      · have hstop : feedUntil r₁ chunks = .done r₁ := by
          cases chunks with
          | nil => rfl
          | cons chunk' chunks =>
            rw [feedUntil, if_pos (.inl hs)]
            rfl
        rw [hstop] at hrest
        obtain ⟨rfl, rfl⟩ := Prog.performs_done.mp hrest
        rw [List.append_nil]
        exact process_performs hprocess
      · rw [process_unfinished hprocess hs, List.nil_append]
        exact ih hrest

/-- **What a request does to the store**, whatever its bytes, its limit and the
store. `prepare_response` changes no member but the response and the status, so
the keys and the command are the ones that were parsed. -/
theorem request_effects (r₀ : Request) (chunks : List Bytes) :
    (∀ pre chunk post, chunks = pre ++ chunk :: post → ∀ events₀ r events r',
      (feedUntil r₀ pre).Performs events₀ r → (process r chunk).Performs events r' →
        r'.status ≠ .finished → events = []) ∧
    ∀ events r, (feedUntil r₀ chunks).Performs events r →
      changeCount events ≤ 1 ∧
      (∀ e ∈ events, ∀ key, changes e.1 = some key →
        r.keys.head? = some key ∧ (r.command = .set ∨ r.command = .add ∨ r.command = .delete)) ∧
      (text "CLIENT_ERROR" <+: r.response → events = []) := by
  constructor
  · intro pre chunk post _ events₀ r events r' _ hprocess hs
    exact process_unfinished hprocess hs
  · intro events r h
    rcases feedUntil_performs h with rfl | ⟨q, hq⟩
    · exact ⟨Nat.zero_le 1, nofun, fun _ => rfl⟩
    · obtain ⟨response, rfl⟩ := (prepareResponse_returns q).of_performs hq
      obtain ⟨honce, hfirst⟩ := prepareResponse_changes_once hq
      refine ⟨honce, hfirst, ?_⟩
      intro herror
      obtain ⟨rest, hrest⟩ := herror
      have hexecuted := (prepareResponse_executed q).of_performs hq
      rw [← hrest] at hexecuted
      exact absurd rfl hexecuted

/-- A `set` whose `put` throws, and a `set` over the byte limit. -/
theorem request_effects_set :
    ∃ events r, (feedUntil (.fresh true 0 .none) [text "set k 0 0 1\r\n", text "v\r"]).Performs
        events r ∧ r.response = errorLine (text "full") ∧ changeCount events = 1 ∧
      (text "CLIENT_ERROR" <+: r.response → events = []) := by
  let full : Unit → (c : StoreCall) → StoreResult c × Unit
    | _, .get _ => (.error (text "full"), ())
    | _, .del _ => (.error (text "full"), ())
    | _, .put _ _ => (.error (text "full"), ())
    | _, .lock => ((), ())
    | _, .unlock => ((), ())
  have h := Prog.performs_runWith full
    (feedUntil (.fresh true 0 .none) [text "set k 0 0 1\r\n", text "v\r"]) ()
  exact ⟨_, _, h, by decide, by decide, ((request_effects _ _).2 _ _ h).2.2⟩

/-! ## What is put -/

/-- An execution puts what is in the buffer, and only for a storage command. -/
theorem prepareResponse_put {q r : Request} {events : List StoreEvent} {key value : Bytes}
    {res : StoreResult (.put key value)} (h : (prepareResponse q).Performs events r)
    (hmem : ⟨.put key value, res⟩ ∈ events) : q.command.Storage ∧ q.buffer = value := by
  have hreply : (Operation.tcp q).program.Performs events (.tcp r) :=
    Prog.performs_map.mpr ⟨r, h, rfl⟩
  obtain ⟨before, next, hreach⟩ := Prog.Reaches.of_mem hreply hmem
  rcases put_caller hreach with hadd | hput
  · exact ⟨.inr hadd.2.1, hadd.2.2.2⟩
  · exact ⟨.inl hput.2.1, hput.2.2.2⟩

/-- **What a storage command puts** is the payload its header line declares if and
only if the header is clean. -/
theorem put_declared_iff (db : Bool) (command : CommandType) (chunks : List Bytes)
    {events : List StoreEvent} {r : Request} {key value : Bytes}
    {res : StoreResult (.put key value)}
    (h : (feed (.fresh db 0 command) chunks).Performs events r)
    (hmem : ⟨.put key value, res⟩ ∈ events) :
    Declared (.fresh db 0 command) chunks.flatten value ↔ CleanHeader chunks.flatten := by
  rw [feed_fresh] at h
  rcases loop_answerAt 0 [] h with rfl | ⟨q, j, positions, ha, hq⟩
  · cases hmem
  · obtain ⟨hstorage, rfl⟩ := prepareResponse_put hq hmem
    exact declared_iff db 0 command ha hstorage

/-- A command with a `noreply`, whose payload begins with an LF. -/
def cleanSet : StorageStream where
  kind := .set
  key := text "k"
  flags := text "0"
  exptime := text "0"
  nbytes := text "2"
  afterName := 32
  afterKey := 32
  afterFlags := 32
  afterExptime := 32
  afterNbytes := 32
  noreplies := [13]
  token := []
  afterToken := 10
  rest := text "\nv\r"
  flagsValue := 0
  exptimeValue := 0
  declared := 2
  keyPlain := plain_of_all (by decide)
  keyNonempty := by decide
  flagsPlain := plain_of_all (by decide)
  exptimePlain := plain_of_all (by decide)
  nbytesPlain := plain_of_all (by decide)
  tokenPlain := plain_nil
  tokenOther := by decide
  flagsRead := rfl
  exptimeRead := rfl
  nbytesRead := rfl
  ends := List.all_eq_true.mp rfl
  complete := .inr (by decide)

/-- It comes in two chunks and is put as it is declared. -/
theorem put_declared_iff_noreply :
    ∃ events r res, (feed (.fresh true 0 .none)
        [text "set k 0 0 2 nor", text "eply\r\n\nv\r"]).Performs events r ∧
      ⟨.put (text "k") (text "\nv"), res⟩ ∈ events ∧
      Declared (.fresh true 0 .none) (text "set k 0 0 2 noreply\r\n\nv\r") (text "\nv") := by
  have h := Prog.performs_runWith mapStore
    (feed (.fresh true 0 .none) [text "set k 0 0 2 nor", text "eply\r\n\nv\r"]) fun _ => none
  have hclean : CleanHeader (text "set k 0 0 2 noreply\r\n\nv\r") :=
    ⟨cleanSet, by decide, by decide, by decide, by decide, by decide⟩
  exact ⟨_, _, _, h, List.mem_cons_self,
    (put_declared_iff true .none _ h List.mem_cons_self).mpr hclean⟩

/-- A command whose header ends in a word that the parser does not know. -/
def bracketed : Bytes := text "add key3 20 0 11 [noreply]\r\nhello world\r\n"

/-- That word and the LF are put, and the end of the payload is not. -/
theorem put_undeclared :
    ∃ events r res, (feed (.fresh true 0 .none) [bracketed]).Performs events r ∧
      ⟨.put (text "key3") (text "[noreply]\nhello worl"), res⟩ ∈ events ∧
      ¬ Declared (.fresh true 0 .none) bracketed (text "[noreply]\nhello worl") := by
  have h := Prog.performs_runWith mapStore (feed (.fresh true 0 .none) [bracketed]) fun _ => none
  refine ⟨_, _, _, h, .tail _ (.tail _ (.head _)), ?_⟩
  intro hdeclared
  obtain ⟨q, j, positions, line, payload, n, ha, hpayload⟩ := hdeclared
  have hfirst : (answerAt (.fresh true 0 .none) 0 [] bracketed).bind (fun x => x.2.2.head?) =
      some 17 := by decide
  rw [ha, Option.bind_some, hpayload.positions] at hfirst
  have hline : line.length = 16 := by
    have hhead : some (line.length + 1) = some 17 := hfirst
    rw [Option.some.injEq] at hhead
    omega
  -- The byte the line would have to end at is a space.
  have hbyte : bracketed[16]? = some 10 := by
    rw [hpayload.cut, List.getElem?_append_right hline.le, hline]
    rfl
  exact absurd hbyte (by decide)

end Quitsies.Service
