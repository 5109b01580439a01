import Quitsies.Service.Refinement
import Quitsies.Service.Trace
import Quitsies.Tcp.RoundTrip

/-!
# What a client reads

A retrieval is answered by blocks of arbitrary bytes behind a line with their
length. The client here is the reader of that format and knows nothing of the
server: it takes a line, and after a `VALUE` line as many bytes as the line says.
-/

namespace Quitsies.Service

open Text Interaction Db Tcp
open Reference (bindings)
open WellFormed (crlf)

namespace Client

/-- The bytes before the next CRLF, and those after it. -/
def readLine : Bytes → Option (Bytes × Bytes)
  | [] => none
  | c :: s =>
    if c = 13 ∧ s.head? = some 10 then some ([], s.tail)
    else (readLine s).map fun (line, rest) => (c :: line, rest)

def readNumeral (s : Bytes) : Option Nat :=
  if s ≠ [] ∧ s.all isDigit then some (readDigits s) else none

inductive Line where
  | done
  | value (key : Bytes) (length : Nat)
  deriving DecidableEq

/-- `END`, or `VALUE <key> <flags> <bytes>`. -/
def readHeader (line : Bytes) : Option Line :=
  match line.splitOn 32 with
  | [word] => if word = text "END" then some .done else none
  | [word, key, flags, bytes] =>
    if word = text "VALUE" then
      match readNumeral flags, readNumeral bytes with
      | some _, some n => some (.value key n)
      | _, _ => none
    else none
  | _ => none

theorem readLine_shorter {s line rest : Bytes} (h : readLine s = some (line, rest)) :
    rest.length < s.length := by
  induction s generalizing line with
  | nil => cases h
  | cons c s ih =>
    rw [readLine] at h
    split at h
    · cases h
      rw [List.length_tail, List.length_cons]
      omega
    · obtain ⟨⟨line', rest'⟩, hs, he⟩ := Option.map_eq_some_iff.mp h
      cases he
      have hlt := ih hs
      rw [List.length_cons]
      omega

/-- The bindings in a response to a retrieval, and the bytes after its end. -/
def decode (s : Bytes) : Option (List (Bytes × Bytes) × Bytes) :=
  match _h : readLine s with
  | none => none
  | some (line, rest) =>
    match readHeader line with
    | none => none
    | some .done => some ([], rest)
    | some (.value key n) =>
      if (rest.drop n).take 2 = crlf then
        (decode (rest.drop (n + 2))).map fun (found, rest') => ((key, rest.take n) :: found, rest')
      else none
termination_by s.length
decreasing_by
  have hlt := readLine_shorter _h
  rw [List.length_drop]
  omega

/-! ## Lines -/

/-- A line without a CR is read as it was written. -/
theorem readLine_append {line : Bytes} (h : 13 ∉ line) (rest : Bytes) :
    readLine (line ++ crlf ++ rest) = some (line, rest) := by
  induction line with
  | nil => rfl
  | cons c line ih =>
    rw [List.mem_cons, not_or] at h
    have hc : ¬ (c = 13 ∧ (line ++ crlf ++ rest).head? = some 10) := fun hc => h.1 hc.1.symm
    rw [List.cons_append, List.cons_append, readLine, if_neg hc, ih h.2]
    rfl

theorem readNumeral_decimal (n : Nat) : readNumeral (decimal n) = some n := by
  have hall : (decimal n).all isDigit = true := List.all_eq_true.mpr (isDigit_of_mem_decimal n)
  rw [readNumeral, if_pos ⟨decimal_ne_nil n, hall⟩, readDigits_decimal]

theorem decode_of_readLine {s line rest : Bytes} (h : readLine s = some (line, rest)) :
    decode s =
      match readHeader line with
      | none => none
      | some .done => some ([], rest)
      | some (.value key n) =>
        if (rest.drop n).take 2 = crlf then
          (decode (rest.drop (n + 2))).map fun (found, rest') =>
            ((key, rest.take n) :: found, rest')
        else none := by
  rw [decode]
  split
  · next hnone => rw [h] at hnone; cases hnone
  · next line' rest' hsome =>
    rw [h] at hsome
    cases hsome
    rfl

theorem space_notMem {key : Bytes} (h : ∀ c ∈ key, isWhiteSpace c = false) : 32 ∉ key :=
  fun hmem => absurd (h 32 hmem) (by decide)

theorem cr_notMem {key : Bytes} (h : ∀ c ∈ key, isWhiteSpace c = false) : 13 ∉ key :=
  fun hmem => absurd (h 13 hmem) (by decide)

/-- The line in front of a value. -/
def valueLine (key value : Bytes) : Bytes :=
  text "VALUE" ++ 32 :: (key ++ 32 :: (text "0" ++ 32 :: decimal value.length))

theorem valueBlock_eq (key value : Bytes) :
    valueBlock key value = valueLine key value ++ crlf ++ (value ++ crlf) := by
  simp [valueBlock, valueLine, crlf, text, charByte]

theorem readHeader_valueLine {key : Bytes} (h : ∀ c ∈ key, isWhiteSpace c = false)
    (value : Bytes) : readHeader (valueLine key value) = some (.value key value.length) := by
  have hword : (32 : UInt8) ∉ text "VALUE" := by decide
  have hflags : (32 : UInt8) ∉ text "0" := by decide
  have hlength : (32 : UInt8) ∉ decimal value.length :=
    space_notMem (plain_decimalInt value.length)
  have hwords : (valueLine key value).splitOn 32 =
      [text "VALUE", key, text "0", decimal value.length] := by
    rw [valueLine, List.splitOn_append_cons_self_of_not_mem hword,
      List.splitOn_append_cons_self_of_not_mem (space_notMem h),
      List.splitOn_append_cons_self_of_not_mem hflags, List.splitOn_eq_singleton hlength]
  have hzero : readNumeral (text "0") = some 0 := readNumeral_decimal 0
  rw [readHeader, hwords]
  simp only [↓reduceIte, hzero, readNumeral_decimal]

theorem cr_notMem_valueLine {key : Bytes} (h : ∀ c ∈ key, isWhiteSpace c = false)
    (value : Bytes) : 13 ∉ valueLine key value := by
  have hlength : (13 : UInt8) ∉ decimal value.length := cr_notMem (plain_decimalInt value.length)
  have hkey : (13 : UInt8) ∉ key := cr_notMem h
  simp [valueLine, hlength, hkey, text, charByte]

/-! ## Responses -/

/-- Whatever the value contains, it is read back and the rest is left. -/
theorem decode_valueBlock {key : Bytes} (h : ∀ c ∈ key, isWhiteSpace c = false)
    (value rest : Bytes) :
    decode (valueBlock key value ++ rest) =
      (decode rest).map fun (found, rest') => ((key, value) :: found, rest') := by
  have hline : readLine (valueBlock key value ++ rest) =
      some (valueLine key value, value ++ (crlf ++ rest)) := by
    rw [valueBlock_eq, List.append_assoc, readLine_append (cr_notMem_valueLine h value),
      List.append_assoc]
  have hend : (crlf ++ rest).take 2 = crlf := rfl
  have hrest : (value ++ (crlf ++ rest)).drop (value.length + 2) = rest := by
    rw [← List.drop_drop, List.drop_left]
    rfl
  rw [decode_of_readLine hline, readHeader_valueLine h]
  simp only [List.drop_left, hend, ↓reduceIte, hrest, List.take_left]

theorem decode_endLine (rest : Bytes) : decode (endLine ++ rest) = some ([], rest) := by
  have hline : readLine (endLine ++ rest) = some (text "END", rest) :=
    readLine_append (by decide : (13 : UInt8) ∉ text "END") rest
  have hheader : readHeader (text "END") = some .done := by decide
  rw [decode_of_readLine hline, hheader]

/-- The blocks of a response are read back, and what is behind its end is left. -/
theorem decode_blocks {found : List (Bytes × Bytes)}
    (h : ∀ kv ∈ found, ∀ c ∈ kv.1, isWhiteSpace c = false) (rest : Bytes) :
    decode ((found.flatMap fun kv => valueBlock kv.1 kv.2) ++ endLine ++ rest) =
      some (found, rest) := by
  induction found with
  | nil => exact decode_endLine rest
  | cons kv found ih =>
    obtain ⟨hkey, hkeys⟩ := List.forall_mem_cons.mp h
    have hcut : ((kv :: found).flatMap fun kv => valueBlock kv.1 kv.2) ++ endLine ++ rest =
        valueBlock kv.1 kv.2 ++
          ((found.flatMap fun kv => valueBlock kv.1 kv.2) ++ endLine ++ rest) := by simp
    rw [hcut, decode_valueBlock hkey, ih hkeys]
    rfl

/-- A response by itself. -/
theorem decode_response {found : List (Bytes × Bytes)}
    (h : ∀ kv ∈ found, ∀ c ∈ kv.1, isWhiteSpace c = false) :
    decode ((found.flatMap fun kv => valueBlock kv.1 kv.2) ++ endLine) = some (found, []) := by
  have hblocks := decode_blocks h []
  rwa [List.append_nil] at hblocks

end Client

/-- The bindings that the performed calls have found, in their order. -/
def bindingsFound (events : List StoreEvent) : List (Bytes × Bytes) :=
  events.filterMap fun e =>
    match e with
    | ⟨.get key, .ok (status, value)⟩ => if status.ok then some (key, value) else none
    | _ => none

/-- A retrieval that no exception ends asks for its keys in turn and prints what it
finds; `f` is what the blocks already printed make of the rest. -/
theorem retrieve_performs {keys : List Bytes} {f : Bytes → Bytes} {events : List StoreEvent}
    {response : Bytes}
    (h : (Attempt.run (f <$> retrieve keys) errorLine).Performs events response)
    (hok : ∀ e ∈ events, threw e = false) :
    events.map Sigma.fst = keys.map StoreCall.get ∧
      response =
        f (((bindingsFound events).flatMap fun kv => valueBlock kv.1 kv.2) ++ endLine) := by
  induction keys generalizing f events with
  | nil =>
    obtain ⟨rfl, rfl⟩ := Prog.performs_done.mp h
    exact ⟨rfl, rfl⟩
  | cons key keys ih =>
    rw [run_retrieve_cons] at h
    obtain ⟨res, rest, rfl, hrest⟩ := Prog.performs_call.mp h
    obtain ⟨hres, hothers⟩ := List.forall_mem_cons.mp hok
    rcases res with what | ⟨status, value⟩
    · cases hres
    · obtain ⟨hcalls, hresponse⟩ := ih hrest hothers
      refine ⟨by rw [List.map_cons, List.map_cons, hcalls], hresponse.trans ?_⟩
      cases hstatus : status.ok <;> simp [bindingsFound, block, hstatus]

theorem bindingsFound_keys {keys : List Bytes} {events : List StoreEvent}
    (h : events.map Sigma.fst = keys.map StoreCall.get) :
    ∀ kv ∈ bindingsFound events, kv.1 ∈ keys := by
  intro kv hkv
  obtain ⟨⟨call, res⟩, he, hfound⟩ := List.mem_filterMap.mp hkv
  have hcall : call ∈ keys.map StoreCall.get := h ▸ List.mem_map_of_mem he
  obtain ⟨key, hkey, rfl⟩ := List.mem_map.mp hcall
  rcases res with what | ⟨status, value⟩
  · cases hfound
  · simp only [Option.ite_none_right_eq_some, Option.some.injEq] at hfound
    obtain ⟨-, rfl⟩ := hfound
    exact hkey

/-- **Retrievals decode unambiguously.** Whatever the store answers to the calls, as
long as none fails, a client reads from the response exactly the requested keys that
were found with their values, in the order of the request, and nothing is left over.
Over a store that fails no call these are the keys it holds. -/
theorem decode_retrieval {r : Request} (hdb : r.db = true)
    (hc : r.command = .get ∨ r.command = .gets) (hne : r.keys ≠ [])
    (hkeys : ∀ key ∈ r.keys, key ≠ [] ∧ ∀ c ∈ key, isWhiteSpace c = false) :
    (∀ events r', (prepareResponse r).Performs events r' → (∀ e ∈ events, threw e = false) →
      events.map Sigma.fst = r.keys.map StoreCall.get ∧
        Client.decode r'.response = some (bindingsFound events, [])) ∧
    ∀ (σ : Type) (store : σ → (c : StoreCall) → StoreResult c × σ) (contents : σ → Contents),
      Unfailing store contents → ∀ s,
        Client.decode ((prepareResponse r).runWith store s).1.response =
          some (bindings (contents s) r.keys, []) := by
  obtain ⟨key, keys, hk⟩ := List.exists_cons_of_ne_nil hne
  rw [prepareResponse_retrieval hdb hk hc, ← id_map (retrieve r.keys)]
  constructor
  · intro events r' h hok
    obtain ⟨response, hresponse, rfl⟩ := Prog.performs_map.mp h
    obtain ⟨hcalls, rfl⟩ := retrieve_performs hresponse hok
    refine ⟨hcalls, Client.decode_response fun kv hkv => ?_⟩
    exact (hkeys kv.1 (bindingsFound_keys hcalls kv hkv)).2
  · intro σ store contents hstore s
    obtain ⟨hvalue, -⟩ := retrieve_unfailing hstore s r.keys id
    have hplain : ∀ kv ∈ bindings (contents s) r.keys, ∀ c ∈ kv.1, isWhiteSpace c = false := by
      intro kv hkv
      obtain ⟨key', hkey', hbound⟩ := List.mem_filterMap.mp hkv
      obtain ⟨value, -, rfl⟩ := Option.map_eq_some_iff.mp hbound
      exact (hkeys key' hkey').2
    rw [Prog.runWith_map, hvalue]
    exact Client.decode_response hplain

/-- Values that look like a line, like the end, and like a block of their own. -/
theorem decode_retrieval_imitations :
    let m : Contents := fun key =>
      if key = text "a" then some (text "END\r\n")
      else if key = text "b" then some (text "\r\nVALUE a 0 1\r\nx\r\n") else none
    let r : Request := { Request.fresh true 0 .gets with keys := [text "b", text "c", text "a"] }
    Client.decode ((prepareResponse r).runWith mapStore m).1.response =
      some (bindings m r.keys, []) := by
  intro m r
  have hkeys : ∀ key ∈ r.keys, key ≠ [] ∧ ∀ c ∈ key, isWhiteSpace c = false := by
    simp only [r, List.forall_mem_cons]
    exact ⟨⟨by decide, plain_of_all (by decide)⟩, ⟨by decide, plain_of_all (by decide)⟩,
      ⟨by decide, plain_of_all (by decide)⟩, nofun⟩
  exact (decode_retrieval rfl (.inr rfl) (by decide) hkeys).2 Contents mapStore id
    mapStore_unfailing m

end Quitsies.Service
