import Quitsies.Tcp.Feed

/-!
# What the members of a request can be

The branches of the byte loop and the two ways out of it change the members one
by one. What they keep is said here once, state by state: which command is being
parsed, how many keys it has, and that a token holds no white space. It follows
what `prepare_response` can be entered with, and which `throw`s are dead.
-/

namespace Quitsies.Tcp

open Text Interaction Db

/-- No byte of the string is white space. -/
def Plain (s : Bytes) : Prop := ∀ c ∈ s, isWhiteSpace c = false

theorem plain_nil : Plain [] := nofun

theorem Plain.snoc {s : Bytes} {c : UInt8} (h : Plain s) (hc : isWhiteSpace c = false) :
    Plain (s ++ [c]) := by
  intro d hd
  rcases List.mem_append.mp hd with hs | hlast
  · exact h d hs
  · rw [List.mem_singleton.mp hlast]
    exact hc

/-- A command that stores. -/
def CommandType.Storage (command : CommandType) : Prop := command = .set ∨ command = .add

def CommandType.Retrieval (command : CommandType) : Prop := command = .get ∨ command = .gets

/-- Every key that was parsed is a token. -/
def KeysParsed (r : Request) : Prop := ∀ key ∈ r.keys, key ≠ [] ∧ Plain key

/-- What a state says of the other members. -/
def Expected (r : Request) : Prop :=
  match r.status with
  | .command => r.keys = [] ∧ r.remaining = 0 ∧ Plain r.buffer
  | .deleteKey => r.command = .delete ∧ r.keys = [] ∧ r.remaining = 0 ∧ Plain r.buffer
  | .storageKey => r.command.Storage ∧ r.keys = [] ∧ Plain r.buffer
  | .flags => r.command.Storage ∧ r.keys.length = 1 ∧ Plain r.buffer
  | .exptime => r.command.Storage ∧ r.keys.length = 1 ∧ Plain r.buffer
  | .nbytes => r.command.Storage ∧ r.keys.length = 1 ∧ Plain r.buffer
  | .norep => (r.command.Storage ∨ r.command = .delete ∧ r.remaining = 0) ∧
      r.keys.length = 1 ∧ Plain r.buffer
  | .data => r.command.Storage ∧ r.keys.length = 1
  | .retrievalKey => r.command.Retrieval ∧ Plain r.buffer
  | .retrievalKeys => False
  | .finished => True
  | .quitting => True

/-- The invariant of the parser. -/
structure Sound (r : Request) : Prop where
  keys : KeysParsed r
  expected : Expected r

/-- What `prepare_response` is entered with. -/
structure Answerable (r : Request) : Prop where
  keys : KeysParsed r
  command : r.command.Storage ∨ r.command.Retrieval ∨ r.command = .delete ∨ r.command = .ping
  single : r.command.Storage ∨ r.command = .delete → r.keys.length = 1

/-! ## One byte -/

/-- What a turn of the loop may end with. -/
def ByteResult.Meets (next respond throw : Request → Prop) : ByteResult → Prop
  | .next r => next r
  | .respond r => respond r
  | .throw r _ => throw r

theorem KeysParsed.push {r : Request} (h : KeysParsed r) (hb : Plain r.buffer)
    (hne : r.buffer ≠ []) : ∀ key ∈ r.keys ++ [r.buffer], key ≠ [] ∧ Plain key := by
  intro key hkey
  rcases List.mem_append.mp hkey with hold | hnew
  · exact h key hold
  · rw [List.mem_singleton.mp hnew]
    exact ⟨hne, hb⟩

/-- A key is pushed, or there is none. -/
theorem pushKey_meets {r : Request} (h : KeysParsed r) (hb : Plain r.buffer) {status : StatusType}
    (hs : Expected { r with keys := r.keys ++ [r.buffer], buffer := [], status := status }) :
    (pushKey r status).Meets Sound Answerable KeysParsed := by
  unfold pushKey
  split
  · exact h
  · next hlen => exact ⟨h.push hb fun he => hlen (by rw [he]; rfl), hs⟩

/-- The name of a command, at its end. -/
theorem onCommand_meets {r : Request} (h : KeysParsed r) (hk : r.keys = [])
    (hr : r.remaining = 0) (hs : r.status = .command) :
    (onWhiteSpace r).Meets Sound Answerable KeysParsed := by
  have hne : ¬ (StatusType.storageKey = .finished) := nofun
  simp only [onWhiteSpace, hs]
  cases hc : commandFromStr r.buffer with
  | none => exact h
  | set => exact ⟨h, .inl rfl, hk, plain_nil⟩
  | add => exact ⟨h, .inr rfl, hk, plain_nil⟩
  | get => exact ⟨h, .inl rfl, plain_nil⟩
  | gets => exact ⟨h, .inr rfl, plain_nil⟩
  | delete => exact ⟨h, rfl, hk, hr, plain_nil⟩
  | quit => exact ⟨h, trivial⟩
  | ping =>
    refine ⟨h, .inr (.inr (.inr rfl)), ?_⟩
    intro hcommand
    rcases hcommand with (he | he) | he <;> cases he

/-- The end of a token that may be `noreply`. -/
theorem onNorep_meets {r : Request} (h : KeysParsed r) (hs : r.status = .norep)
    (he : Expected r) : (onWhiteSpace r).Meets Sound Answerable KeysParsed := by
  simp only [Expected, hs] at he
  obtain ⟨hc, hk, hb⟩ := he
  simp only [onWhiteSpace, hs]
  split
  · exact ⟨h, hc, hk, plain_nil⟩
  split
  · next hr =>
    refine ⟨h, ?_, hk⟩
    rcases hc with hc | ⟨-, hzero⟩
    · exact hc
    · omega
  · refine ⟨h, ?_, fun _ => hk⟩
    rcases hc with hc | ⟨hc, -⟩
    · exact .inl hc
    · exact .inr (.inr (.inl hc))

/-- The end of a token of a retrieval. -/
theorem onRetrieval_meets {r : Request} (h : KeysParsed r) (hs : r.status = .retrievalKey)
    (he : Expected r) : (onWhiteSpace r).Meets Sound Answerable KeysParsed := by
  simp only [Expected, hs] at he
  obtain ⟨hc, hb⟩ := he
  simp only [onWhiteSpace, hs]
  split
  · refine ⟨h, .inr (.inl hc), ?_⟩
    intro hcommand
    rcases hc with hc | hc <;> rw [hc] at hcommand <;> rcases hcommand with (he | he) | he <;>
      cases he
  · exact pushKey_meets h hb ⟨hc, plain_nil⟩

theorem onWhiteSpace_meets {r : Request} (h : Sound r) :
    (onWhiteSpace r).Meets Sound Answerable KeysParsed := by
  obtain ⟨hkeys, he⟩ := h
  have he' := he
  cases hs : r.status with
  | command =>
    simp only [Expected, hs] at he
    exact onCommand_meets hkeys he.1 he.2.1 hs
  | deleteKey =>
    simp only [Expected, hs] at he
    obtain ⟨hc, hk, hr, hb⟩ := he
    simp only [onWhiteSpace, hs]
    exact pushKey_meets hkeys hb ⟨.inr ⟨hc, hr⟩, by simp [hk], plain_nil⟩
  | storageKey =>
    simp only [Expected, hs] at he
    obtain ⟨hc, hk, hb⟩ := he
    simp only [onWhiteSpace, hs]
    exact pushKey_meets hkeys hb ⟨hc, by simp [hk], plain_nil⟩
  | flags =>
    simp only [Expected, hs] at he
    simp only [onWhiteSpace, hs]
    split
    · exact hkeys
    · exact ⟨hkeys, he.1, he.2.1, plain_nil⟩
  | exptime =>
    simp only [Expected, hs] at he
    simp only [onWhiteSpace, hs]
    split
    · exact hkeys
    · exact ⟨hkeys, he.1, he.2.1, plain_nil⟩
  | nbytes =>
    simp only [Expected, hs] at he
    simp only [onWhiteSpace, hs]
    split
    · exact hkeys
    · exact ⟨hkeys, .inl he.1, he.2.1, plain_nil⟩
  | norep => exact onNorep_meets hkeys hs he'
  | data =>
    simp only [onWhiteSpace, hs]
    exact ⟨hkeys, he'⟩
  | retrievalKey => exact onRetrieval_meets hkeys hs he'
  | retrievalKeys =>
    simp only [Expected, hs] at he
  | finished =>
    simp only [onWhiteSpace, hs]
    exact ⟨hkeys, he'⟩
  | quitting =>
    simp only [onWhiteSpace, hs]
    exact ⟨hkeys, he'⟩

/-- A byte of a token. -/
theorem Sound.token {r : Request} (h : Sound r) (hs : r.status ≠ .data) {c : UInt8}
    (hc : isWhiteSpace c = false) : Sound { r with buffer := r.buffer ++ [c] } := by
  obtain ⟨hkeys, he⟩ := h
  refine ⟨hkeys, ?_⟩
  cases hst : r.status <;> simp only [Expected, hst] at he ⊢
  case data => exact absurd hst hs
  case command => exact ⟨he.1, he.2.1, he.2.2.snoc hc⟩
  case deleteKey => exact ⟨he.1, he.2.1, he.2.2.1, he.2.2.2.snoc hc⟩
  case retrievalKey => exact ⟨he.1, he.2.snoc hc⟩
  -- the other tokens: the buffer is the last of three members
  all_goals exact ⟨he.1, he.2.1, he.2.2.snoc hc⟩

/-- **One byte** keeps the invariant, and what it answers can be answered. -/
theorem onByte_meets {r : Request} (h : Sound r) (c : UInt8) :
    (onByte r c).Meets Sound Answerable KeysParsed := by
  by_cases hs : r.status = .data
  · have he := h.expected
    simp only [Expected, hs] at he
    by_cases hr : 0 < r.remaining
    · rw [onByte_payload hs hr]
      refine ⟨h.keys, ?_⟩
      simp only [Expected, hs]
      exact he
    · rw [onByte_payload_end hs (Nat.eq_zero_of_not_pos hr)]
      exact ⟨h.keys, .inl he.1, fun _ => he.2⟩
  · cases hc : isWhiteSpace c with
    | true =>
      rw [onByte_whiteSpace hs hc]
      exact onWhiteSpace_meets h
    | false =>
      rw [onByte_token hs hc]
      exact h.token hs hc

theorem scan_sound {r r' : Request} {data : Bytes} (h : Sound r) (hscan : scan r data = some r') :
    Sound r' := by
  induction data generalizing r with
  | nil => cases hscan; exact h
  | cons c data ih =>
    have hc := onByte_meets h c
    simp only [scan] at hscan
    cases he : onByte r c with
    | next r₁ =>
      rw [he] at hc
      exact ih hc (by simpa only [he] using hscan)
    | respond r₁ => simp only [he] at hscan; cases hscan
    | throw r₁ what => simp only [he] at hscan; cases hscan

/-! ## Whole calls -/

theorem answered_sound {r : Request} (h : KeysParsed r) (response : Bytes) :
    Sound (r.answered response) := ⟨h, trivial⟩

theorem loop_sound {r : Request} (h : Sound r) (data : Bytes) : (loop r data).Returns Sound := by
  induction data generalizing r with
  | nil => exact h
  | cons c data ih =>
    have hc := onByte_meets h c
    simp only [loop]
    cases he : onByte r c with
    | next r' =>
      rw [he] at hc
      exact ih hc
    | respond r' =>
      rw [he] at hc
      apply (prepareResponse_returns r').mono
      intro q hq
      obtain ⟨response, rfl⟩ := hq
      exact answered_sound hc.keys response
    | throw r' what =>
      rw [he] at hc
      exact answered_sound hc _

theorem process_sound {r : Request} (h : Sound r) (data : Bytes) :
    (process r data).Returns Sound := by
  unfold process
  split
  · exact answered_sound h.keys _
  · exact loop_sound h data

/-- The states of a request between the calls of its member functions. -/
inductive Reachable (db : Bool) (maxBytes : Nat) : Request → Prop
  | fresh (command : CommandType) : Reachable db maxBytes (.fresh db maxBytes command)
  | process {r r' : Request} {data : Bytes} {events : List StoreEvent} :
      Reachable db maxBytes r → (process r data).Performs events r' → Reachable db maxBytes r'
  | reset {r : Request} : Reachable db maxBytes r → Reachable db maxBytes r.reset

theorem Reachable.sound {db : Bool} {maxBytes : Nat} {r : Request}
    (h : Reachable db maxBytes r) : Sound r := by
  induction h with
  | fresh command => exact ⟨nofun, rfl, rfl, plain_nil⟩
  | process _ hp ih => exact (process_sound ih _).of_performs hp
  | reset _ _ => exact ⟨nofun, rfl, rfl, plain_nil⟩

/-- The states inside the byte loop of a call `process data` on a request, after
the bytes `p`. -/
def Inside (r : Request) (data p : Bytes) (r' : Request) : Prop :=
  r.exceeds data.length = false ∧ p <+: data ∧ scan r p = some r'

/-! ## The invariant in the words of the members -/

/-- What holds of the members of a request between any two bytes. -/
structure Consistent (r : Request) : Prop where
  keys : KeysParsed r
  deleteKey : r.status = .deleteKey → r.command = .delete ∧ r.keys = []
  storageKey : r.status = .storageKey → r.command.Storage ∧ r.keys = []
  storage : r.status = .flags ∨ r.status = .exptime ∨ r.status = .nbytes ∨ r.status = .data →
    r.command.Storage ∧ r.keys.length = 1
  norep : r.status = .norep → (r.command.Storage ∨ r.command = .delete) ∧ r.keys.length = 1 ∧
    (r.command = .delete → r.remaining = 0)
  retrievalKey : r.status = .retrievalKey → r.command.Retrieval
  retrievalKeys : r.status ≠ .retrievalKeys
  buffer : r.status ≠ .data → r.status ≠ .finished → r.status ≠ .quitting → Plain r.buffer

theorem CommandType.Storage.ne_delete {command : CommandType} (h : command.Storage) :
    command ≠ .delete := by
  rcases h with rfl | rfl <;> decide

theorem Sound.consistent {r : Request} (h : Sound r) : Consistent r := by
  have he := h.expected
  constructor
  · exact h.keys
  · intro hs
    simp only [Expected, hs] at he
    exact ⟨he.1, he.2.1⟩
  · intro hs
    simp only [Expected, hs] at he
    exact ⟨he.1, he.2.1⟩
  · intro hs
    rcases hs with hs | hs | hs | hs <;> simp only [Expected, hs] at he
    · exact ⟨he.1, he.2.1⟩
    · exact ⟨he.1, he.2.1⟩
    · exact ⟨he.1, he.2.1⟩
    · exact he
  · intro hs
    simp only [Expected, hs] at he
    obtain ⟨hc | ⟨hc, hr⟩, hk, -⟩ := he
    · exact ⟨.inl hc, hk, fun hd => absurd hd hc.ne_delete⟩
    · exact ⟨.inr hc, hk, fun _ => hr⟩
  · intro hs
    simp only [Expected, hs] at he
    exact he.1
  · intro hs
    simp only [Expected, hs] at he
  · intro hdata hfinished hquitting
    cases hs : r.status <;> simp only [Expected, hs] at he
    case data => exact absurd hs hdata
    case finished => exact absurd hs hfinished
    case quitting => exact absurd hs hquitting
    case deleteKey => exact he.2.2.2
    case retrievalKey => exact he.2
    all_goals exact he.2.2

/-- A request that can be answered is not one that `prepare_response` throws on. -/
theorem Answerable.supported {r : Request} (h : Answerable r) (hping : r.command ≠ .ping)
    (key : Bytes) : respond r key ≠ throw (text "unsupported command") := by
  have hcalls : ∀ what : Bytes, retrieve r.keys ≠ throw what := by
    intro what
    cases r.keys <;> intro he <;> cases he
  rcases h.command with (hc | hc) | (hc | hc) | hc | hc
  · simp only [respond, hc]
    intro he
    cases he
  · simp only [respond, hc]
    intro he
    cases he
  · simp only [respond, hc]
    exact hcalls _
  · simp only [respond, hc]
    exact hcalls _
  · simp only [respond, hc]
    intro he
    cases he
  · exact absurd hc hping

/-- In a retrieval the empty token answers, so a token that is pushed is a key. -/
theorem onByte_retrieval_ne_throw {r : Request} (h : r.status = .retrievalKey) (c : UInt8)
    (q : Request) (what : Bytes) : onByte r c ≠ .throw q what := by
  have hdata : r.status ≠ .data := by rw [h]; decide
  cases hc : isWhiteSpace c with
  | true =>
    rw [onByte_whiteSpace hdata hc]
    simp only [onWhiteSpace, h, pushKey]
    intro he
    split at he <;> cases he
  | false =>
    rw [onByte_token hdata hc]
    intro he
    cases he

/-- **Parser state invariant**: between the calls of a request's member functions,
and between two bytes of a call. What the loop then answers can be answered. -/
theorem parser_invariant {db : Bool} {maxBytes : Nat} {r : Request}
    (h : Reachable db maxBytes r) :
    Consistent r ∧ ∀ data p r', Inside r data p r' → Consistent r' ∧ ∀ c,
      (∀ q, onByte r' c = .respond q → Answerable q ∧
        ∀ key, q.command ≠ .ping → respond q key ≠ throw (text "unsupported command")) ∧
      (r'.status = .retrievalKey ∨ r'.status = .retrievalKeys →
        ∀ q what, onByte r' c ≠ .throw q what) := by
  refine ⟨h.sound.consistent, ?_⟩
  intro data p r' hinside
  have hsound : Sound r' := scan_sound h.sound hinside.2.2
  refine ⟨hsound.consistent, fun c => ⟨?_, ?_⟩⟩
  · intro q hq
    have hanswerable : Answerable q := by
      have hc := onByte_meets hsound c
      rwa [hq] at hc
    exact ⟨hanswerable, fun key hping => hanswerable.supported hping key⟩
  · intro hs q what
    have hkey := hs.resolve_right hsound.consistent.retrievalKeys
    exact onByte_retrieval_ne_throw hkey c q what

/-- A deletion, a reset, and half of a `set` with a payload of white space. -/
theorem parser_invariant_set :
    ∃ r, Reachable true 0 r ∧ r.status = .data ∧ r.buffer = text " \r" ∧ Consistent r := by
  have h₀ : Reachable true 0 (.fresh true 0 .quit) := .fresh .quit
  have h₁ : Reachable true 0 _ := h₀.process
    (Prog.performs_runWith mapStore (process _ (text "delete k\r\n")) fun _ => none)
  have h₂ : Reachable true 0 _ := h₁.reset
  have h₃ : Reachable true 0 _ := h₂.process
    (Prog.performs_runWith mapStore (process _ (text "set k 0 0 5\r\n \r")) fun _ => none)
  exact ⟨_, h₃, by decide, by decide, (parser_invariant h₃).1⟩

end Quitsies.Tcp
