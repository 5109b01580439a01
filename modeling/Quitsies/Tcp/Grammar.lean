import Quitsies.Text.Words
import Quitsies.Tcp.Ignored
import Quitsies.Tcp.StorageStream

/-!
# The language of requests

What the server takes for a request, written down as a grammar over words and white
space. The grammar knows no state, no buffer and no chunks; the byte loop knows
nothing else. A byte string is executed or refused exactly when some beginning of it
is a sentence, there is never more than one, and what the sentence asks for is what
is done, however the bytes are cut.
-/

namespace Quitsies.Tcp

open Text Interaction Db

/-- What a sentence asks for. Bytes that are no command ask for nothing and are
refused, with a text. -/
inductive Asked where
  | ping
  | retrieve (keys : List Bytes)
  | delete (key : Bytes)
  | store (kind : StorageKind) (key value : Bytes)
  | refused (what : Bytes)
  deriving DecidableEq

/-- The names of the commands. -/
def commandNames : List Bytes :=
  ["set", "add", "get", "gets", "delete", "quit", "ping"].map text

/-- The words at the end of a line: `noreply` any number of times, and the first word
that is another one. -/
inductive Trailer : (noreply : Bool) → (token : Bytes) → List Bytes → Prop
  | token {token : Bytes} (other : token ≠ text "noreply") : Trailer false token [token]
  | noreply {noreply : Bool} {token : Bytes} {words : List Bytes}
      (rest : Trailer noreply token words) : Trailer true token (text "noreply" :: words)

/-- A block of `n` bytes and one byte more, or nothing where there is no block. -/
inductive Block : (n : Nat) → (payload : Bytes) → Bytes → Prop
  | none : Block 0 [] []
  | bytes {payload : Bytes} (c : UInt8) (nonempty : payload ≠ []) :
      Block payload.length payload (payload ++ [c])

theorem Block.inv {n : Nat} {payload b : Bytes} (h : Block n payload b) :
    (n = 0 ∧ payload = [] ∧ b = []) ∨
      ∃ c, payload ≠ [] ∧ n = payload.length ∧ b = payload ++ [c] := by
  cases h with
  | none => exact .inl ⟨rfl, rfl, rfl⟩
  | bytes c nonempty => exact .inr ⟨c, nonempty, rfl, rfl⟩

/-- `s` is a whole request that asks for `asked`. -/
inductive Sentence : Bytes → (asked : Asked) → (noreply : Bool) → Prop
  | ping {s : Bytes} (spelled : Words isWhiteSpace [text "ping"] s) : Sentence s .ping false
  /-- The keys of a retrieval end at an empty word. -/
  | retrieve {s : Bytes} (kind : RetrievalKind) {keys : List Bytes}
      (nonempty : ∀ key ∈ keys, key ≠ [])
      (spelled : Words isWhiteSpace (kind.name :: (keys ++ [[]])) s) :
      Sentence s (.retrieve keys) false
  | delete {s key token : Bytes} {noreply : Bool} {words : List Bytes} (nonempty : key ≠ [])
      (trailer : Trailer noreply token words)
      (spelled : Words isWhiteSpace (text "delete" :: key :: words) s) :
      Sentence s (.delete key) noreply
  /-- The word that ends the line of a storage command is the beginning of its value. -/
  | store {s b key flags exptime nbytes token payload : Bytes} {noreply : Bool}
      {words : List Bytes} {f e n : Int} (kind : StorageKind) (nonempty : key ≠ [])
      (flagsRead : stoi flags = .ok f) (exptimeRead : stoi exptime = .ok e)
      (nbytesRead : stoi nbytes = .ok n) (trailer : Trailer noreply token words)
      (spelled : Words isWhiteSpace (kind.name :: key :: flags :: exptime :: nbytes :: words) s)
      (block : Block (sizeOfInt n) payload b) :
      Sentence (s ++ b) (.store kind key (token ++ payload)) noreply
  | unsupported {s word : Bytes} (unknown : word ∉ commandNames)
      (spelled : Words isWhiteSpace [word] s) :
      Sentence s (.refused (text "unsupported command")) false
  | noKey {s name : Bytes} (keyed : name ∈ ["set", "add", "delete"].map text)
      (spelled : Words isWhiteSpace [name, []] s) :
      Sentence s (.refused (text "invalid key")) false
  /-- One of the three numbers of a storage command is none. -/
  | noNumber {s key word what : Bytes} {numbers : List Bytes} (kind : StorageKind)
      (nonempty : key ≠ []) (few : numbers.length < 3)
      (numbersRead : ∀ number ∈ numbers, ∃ v, stoi number = .ok v)
      (unread : stoi word = .error what)
      (spelled : Words isWhiteSpace (kind.name :: key :: (numbers ++ [word])) s) :
      Sentence s (.refused what) false

/-- Bytes that start with the command `quit`. -/
def Quits (data : Bytes) : Prop := ∃ s, Words isWhiteSpace [text "quit"] s ∧ s <+: data

/-! ## Doing what is asked -/

/-- The response to a sentence, and the store calls made for it. -/
def Asked.answer (db : Bool) : Asked → StoreProg Bytes
  | .ping => return pong
  | .retrieve keys =>
    Request.response <$> prepareResponse { Request.fresh db 0 .get with keys := keys }
  | .delete key =>
    Request.response <$> prepareResponse { Request.fresh db 0 .delete with keys := [key] }
  | .store kind key value =>
    Request.response <$> prepareResponse { Request.fresh db 0 kind.command with
      keys := [key]
      buffer := value }
  | .refused what => return clientErrorLine what

/-- What a request is answered as. -/
def Request.asks (q : Request) : Option Asked :=
  match q.command, q.keys with
  | .ping, _ => some .ping
  | .get, keys => some (.retrieve keys)
  | .gets, keys => some (.retrieve keys)
  | .delete, [key] => some (.delete key)
  | .set, [key] => some (.store .set key q.buffer)
  | .add, [key] => some (.store .add key q.buffer)
  | _, _ => none

/-- What the turn that ends the loop makes of the request, and whether it is to be
answered in silence. -/
def ByteResult.tells : ByteResult → Option (Asked × Bool)
  | .next _ => none
  | .respond q => q.asks.map fun asked => (asked, q.noReply)
  | .throw q what => some (.refused what, q.noReply)

/-- Requests with the same keys whose commands come to the same are answered alike. -/
theorem prepareResponse_alike {q q' : Request} (hdb : q'.db = q.db)
    (hping : q'.command = .ping ↔ q.command = .ping) (hk : q'.keys = q.keys)
    (hr : ∀ key, respond q' key = respond q key) :
    prepareResponse q = q.answered <$> Request.response <$> prepareResponse q' := by
  unfold prepareResponse
  rw [hdb, hk]
  simp only [hping, hr]
  split
  · rfl
  split
  · rfl
  split
  · rfl
  · simp only [Functor.map_map]
    rfl

/-- Only the command, the keys and, where a value is stored, the buffer decide how a
request is answered. -/
theorem prepareResponse_asks {q : Request} {asked : Asked} (h : q.asks = some asked) :
    prepareResponse q = q.answered <$> asked.answer q.db := by
  unfold Request.asks at h
  split at h
  · next hc =>
    cases h
    exact prepareResponse_ping hc
  · next hc =>
    cases h
    exact prepareResponse_alike rfl (by rw [hc]; rfl) rfl fun key => by
      rw [respond, respond, hc]; rfl
  · next hc =>
    cases h
    exact prepareResponse_alike rfl (by rw [hc]; simp [Request.fresh]) rfl fun key => by
      rw [respond, respond, hc]; rfl
  · next hc hk =>
    cases h
    exact prepareResponse_alike rfl (by rw [hc]; rfl) hk.symm fun key => by
      rw [respond, respond, hc]; rfl
  · next hc hk =>
    cases h
    exact prepareResponse_alike rfl (by rw [hc]; rfl) hk.symm fun key => by
      rw [respond, respond, hc]; rfl
  · next hc hk =>
    cases h
    exact prepareResponse_alike rfl (by rw [hc]; rfl) hk.symm fun key => by
      rw [respond, respond, hc]; rfl
  · cases h

/-! ## Where the loop ends -/

/-- The turn that ends the byte loop, and the bytes behind the one it is for. -/
def ending (r : Request) : Bytes → Option (ByteResult × Bytes)
  | [] => none
  | c :: data =>
    match onByte r c with
    | .next r' => ending r' data
    | .respond q => some (.respond q, data)
    | .throw q what => some (.throw q what, data)

/-- A turn of the loop and the turns after it. -/
def ByteResult.onward (data : Bytes) : ByteResult → Option (ByteResult × Bytes)
  | .next r => ending r data
  | .respond q => some (.respond q, data)
  | .throw q what => some (.throw q what, data)

theorem ending_cons (r : Request) (c : UInt8) (data : Bytes) :
    ending r (c :: data) = (onByte r c).onward data := rfl

theorem ending_scan {r r' : Request} {a : Bytes} (h : scan r a = some r') (b : Bytes) :
    ending r (a ++ b) = ending r' b := by
  induction a generalizing r with
  | nil => cases h; rfl
  | cons c a ih =>
    rw [scan] at h
    rw [List.cons_append, ending_cons]
    cases hc : onByte r c with
    | next r₁ => exact ih (by simpa only [hc] using h)
    | respond q => simp only [hc] at h; cases h
    | throw q what => simp only [hc] at h; cases h

theorem ending_append {r : Request} {a rest : Bytes} {e : ByteResult}
    (h : ending r a = some (e, rest)) (b : Bytes) : ending r (a ++ b) = some (e, rest ++ b) := by
  induction a generalizing r with
  | nil => cases h
  | cons c a ih =>
    rw [ending_cons] at h
    rw [List.cons_append, ending_cons]
    cases hc : onByte r c with
    | next r₁ => rw [hc] at h; exact ih h
    | respond q => rw [hc] at h; cases h; rfl
    | throw q what => rw [hc] at h; cases h; rfl

theorem scan_of_ending {r : Request} {data : Bytes} (h : ending r data = none) :
    ∃ r', scan r data = some r' := by
  induction data generalizing r with
  | nil => exact ⟨r, rfl⟩
  | cons c data ih =>
    rw [ending_cons] at h
    rw [scan]
    cases hc : onByte r c with
    | next r₁ => rw [hc] at h; exact ih h
    | respond q => rw [hc] at h; cases h
    | throw q what => rw [hc] at h; cases h

/-- The loop does what its last turn tells, for a request of the same connection. -/
theorem loop_ending {r : Request} {data rest : Bytes} {e : ByteResult}
    (h : ending r data = some (e, rest)) {asked : Asked} {noreply : Bool}
    (htells : e.tells = some (asked, noreply)) :
    ∃ q : Request, SameConfig r q ∧ q.noReply = noreply ∧
      loop r data = q.answered <$> asked.answer r.db := by
  induction data generalizing r with
  | nil => cases h
  | cons c data ih =>
    have hconfig := onByte_config r c
    rw [ending_cons] at h
    rw [loop]
    cases hc : onByte r c with
    | next r₁ =>
      rw [hc] at h hconfig
      obtain ⟨hdb, hmax⟩ : SameConfig r r₁ := hconfig
      obtain ⟨q, hq, hn, hloop⟩ := ih h
      rw [hdb] at hloop
      exact ⟨q, ⟨hq.1.trans hdb, hq.2.trans hmax⟩, hn, hloop⟩
    | respond q =>
      rw [hc] at h hconfig
      cases h
      obtain ⟨asked', hasks, he⟩ := Option.map_eq_some_iff.mp htells
      cases he
      obtain ⟨hdb, hmax⟩ : SameConfig r q := hconfig
      have hp := prepareResponse_asks hasks
      rw [hdb] at hp
      exact ⟨q, ⟨hdb, hmax⟩, rfl, hp⟩
    | throw q what =>
      rw [hc] at h hconfig
      cases h
      cases htells
      exact ⟨q, hconfig, rfl, rfl⟩

/-! ## Word by word -/

/-- A word and the white space behind it. -/
theorem ending_word {r : Request} (h : r.status ≠ .data) (hb : r.buffer = []) {word : Bytes}
    (hw : Plain word) {c : UInt8} (hc : isWhiteSpace c = true) (rest : Bytes) :
    ending r (word ++ c :: rest) = (onWhiteSpace { r with buffer := word }).onward rest := by
  have hr : ({ r with buffer := word } : Request).status ≠ .data := h
  rw [ending_scan (scan_word h hw), hb, List.nil_append, ending_cons, onByte_whiteSpace hr hc]

/-- Where the loop ends, the word it was in has ended. -/
theorem ending_word_inv {r : Request} (h : r.status ≠ .data) (hb : r.buffer = [])
    {data : Bytes} {x : ByteResult × Bytes} (he : ending r data = some x) :
    ∃ word c rest, data = word ++ c :: rest ∧ Plain word ∧ isWhiteSpace c = true ∧
      (onWhiteSpace { r with buffer := word }).onward rest = some x := by
  rcases plain_or_field data with hplain | ⟨word, c, rest, rfl, hword, hc⟩
  · have hnone := ending_scan (scan_word h hplain) []
    rw [List.append_nil, he] at hnone
    cases hnone
  · rw [ending_word h hb hword hc] at he
    exact ⟨word, c, rest, rfl, hword, hc, he⟩

/-- The request that a block of bytes is read into. -/
theorem ending_block {r : Request} (h : r.status = .data) {payload : Bytes}
    (hlen : payload.length = r.remaining) (c : UInt8) (rest : Bytes) :
    ending r (payload ++ c :: rest) =
      some (.respond { r with remaining := 0, buffer := r.buffer ++ payload }, rest) := by
  have hscan := scan_payload h hlen.le
  rw [hlen, Nat.sub_self] at hscan
  let r' : Request := { r with remaining := 0, buffer := r.buffer ++ payload }
  have hend : onByte r' c = .respond r' := onByte_payload_end (r := r') h rfl c
  rw [ending_scan hscan, ending_cons, hend]
  rfl

theorem ending_block_inv {r : Request} (h : r.status = .data) {data rest : Bytes} {e : ByteResult}
    (he : ending r data = some (e, rest)) :
    ∃ payload c, data = payload ++ c :: rest ∧ payload.length = r.remaining ∧
      e = .respond { r with remaining := 0, buffer := r.buffer ++ payload } := by
  by_cases hlen : data.length ≤ r.remaining
  · -- A block that has not all come is not answered.
    have hnone := ending_scan (scan_payload h hlen) []
    rw [List.append_nil, he] at hnone
    cases hnone
  · have hcut : data = data.take r.remaining ++ data.drop r.remaining :=
      (List.take_append_drop _ _).symm
    have htake : (data.take r.remaining).length = r.remaining := by
      rw [List.length_take]
      omega
    obtain ⟨c, tail, htail⟩ : ∃ c tail, data.drop r.remaining = c :: tail := by
      refine List.exists_cons_of_ne_nil fun hdrop => ?_
      rw [List.drop_eq_nil_iff] at hdrop
      omega
    rw [htail] at hcut
    rw [hcut, ending_block h htake] at he
    cases he
    exact ⟨_, c, hcut, htake, rfl⟩

/-! ## The end of a line -/

/-- What is executed: the members of `r` with this value, and whether in silence. -/
structure Gathered (r : Request) (value : Bytes) (noreply : Bool) (q : Request) : Prop where
  command : q.command = r.command
  keys : q.keys = r.keys
  buffer : q.buffer = value
  noReply : q.noReply = (r.noReply || noreply)

theorem onWhiteSpace_noreply {r : Request} (h : r.status = .norep) :
    onWhiteSpace { r with buffer := text "noreply" } =
      .next { r with buffer := [], noReply := true } := by
  simp only [onWhiteSpace, h, ↓reduceIte]

theorem onWhiteSpace_token {r : Request} (h : r.status = .norep) {token : Bytes}
    (other : token ≠ text "noreply") :
    onWhiteSpace { r with buffer := token } =
      if 0 < r.remaining then .next { r with buffer := token, status := .data }
      else .respond { r with buffer := token } := by
  simp only [onWhiteSpace, h, if_neg other, gt_iff_lt]

/-- The line is read to its end, and then the block. -/
theorem ending_trailer {noreply : Bool} {token : Bytes} {words : List Bytes}
    (ht : Trailer noreply token words) {r : Request} (h : r.status = .norep) (hb : r.buffer = [])
    {s b payload : Bytes} (hs : Words isWhiteSpace words s) (hblock : Block r.remaining payload b) :
    ∃ q, ending r (s ++ b) = some (.respond q, []) ∧ Gathered r (token ++ payload) noreply q := by
  have hdata : r.status ≠ .data := by rw [h]; decide
  induction ht generalizing r s with
  | token other =>
    rename_i token
    obtain ⟨c, s, rfl, plain, ends, rest⟩ := hs.cons_inv
    cases rest
    rw [List.append_assoc, List.cons_append, List.nil_append, ending_word hdata hb plain ends,
      onWhiteSpace_token h other]
    rcases hblock.inv with ⟨hn, rfl, rfl⟩ | ⟨d, nonempty, hn, rfl⟩
    · rw [if_neg (by omega)]
      exact ⟨_, rfl, rfl, rfl, (List.append_nil _).symm, (Bool.or_false _).symm⟩
    · let r' : Request := { r with buffer := token, status := .data }
      have hpos : 0 < payload.length := List.length_pos_iff.mpr nonempty
      have hend : ending r' (payload ++ [d]) = _ := ending_block (r := r') rfl hn.symm d []
      rw [if_pos (by omega)]
      exact ⟨_, hend, rfl, rfl, rfl, (Bool.or_false _).symm⟩
  | noreply rest ih =>
    obtain ⟨c, s, rfl, plain, ends, hs⟩ := hs.cons_inv
    let r' : Request := { r with buffer := [], noReply := true }
    have hr' : r'.status ≠ .data := hdata
    obtain ⟨q, he, hq⟩ := ih (r := r') h rfl hs hblock hr'
    rw [List.append_assoc, List.cons_append, ending_word hdata hb plain ends,
      onWhiteSpace_noreply h]
    refine ⟨q, he, hq.command, hq.keys, hq.buffer, ?_⟩
    rw [hq.noReply, Bool.or_true, Bool.true_or]

/-- What is read where the loop ends is the end of a line, and the block. -/
theorem ending_trailer_inv {r : Request} (h : r.status = .norep) (hb : r.buffer = [])
    {data rest : Bytes} {e : ByteResult} (he : ending r data = some (e, rest)) :
    ∃ q noreply token words s payload b, e = .respond q ∧ data = s ++ b ++ rest ∧
      Trailer noreply token words ∧ Words isWhiteSpace words s ∧ Block r.remaining payload b ∧
      Gathered r (token ++ payload) noreply q := by
  have hdata : r.status ≠ .data := by rw [h]; decide
  induction hlen : data.length using Nat.strong_induction_on generalizing r data with
  | _ n ih =>
    obtain ⟨word, c, tail, rfl, hw, hc, hword⟩ := ending_word_inv hdata hb he
    by_cases hnoreply : word = text "noreply"
    · subst hnoreply
      let r' : Request := { r with buffer := [], noReply := true }
      have hr' : r'.status ≠ .data := hdata
      rw [onWhiteSpace_noreply h] at hword
      have hlt : tail.length < n := by
        rw [← hlen, List.length_append, List.length_cons]
        omega
      obtain ⟨q, noreply, token, words, s, payload, b, rfl, rfl, ht, hs, hblock, hq⟩ :=
        ih _ hlt (r := r') h rfl hword hr' rfl
      refine ⟨q, true, token, _, _, payload, b, rfl, ?_, ht.noreply, .cons hw hc hs, hblock,
        hq.command, hq.keys, hq.buffer, ?_⟩
      · simp
      · rw [hq.noReply, Bool.or_true, Bool.true_or]
    · rw [onWhiteSpace_token h hnoreply] at hword
      have hone : Words isWhiteSpace [word] (word ++ [c]) := .one hw hc
      split at hword
      · next hpos =>
        let r' : Request := { r with buffer := word, status := .data }
        obtain ⟨payload, d, rfl, hn, rfl⟩ := ending_block_inv (r := r') rfl hword
        have hnonempty : payload ≠ [] := by
          rintro rfl
          exact absurd hn hpos.ne
        refine ⟨_, false, word, _, _, payload, payload ++ [d], rfl, ?_, .token hnoreply, hone, ?_,
          rfl, rfl, rfl, (Bool.or_false _).symm⟩
        · simp
        · have hremaining : r.remaining = payload.length := hn.symm
          rw [hremaining]
          exact .bytes d hnonempty
      · next hzero =>
        cases hword
        have hremaining : r.remaining = 0 := by omega
        refine ⟨_, false, word, _, _, [], [], rfl, ?_, .token hnoreply, hone, ?_, rfl, rfl,
          (List.append_nil _).symm, (Bool.or_false _).symm⟩
        · simp
        · rw [hremaining]
          exact .none

/-! ## The keys of a retrieval -/

theorem onWhiteSpace_key {r : Request} (h : r.status = .retrievalKey) {key : Bytes}
    (nonempty : key ≠ []) :
    onWhiteSpace { r with buffer := key } =
      .next { r with keys := r.keys ++ [key], buffer := [] } := by
  simp only [onWhiteSpace, h, pushKey, List.length_eq_zero_iff, if_neg nonempty]

theorem onWhiteSpace_noKey {r : Request} (h : r.status = .retrievalKey) :
    onWhiteSpace { r with buffer := [] } = .respond { r with buffer := [] } := by
  simp only [onWhiteSpace, h, List.length_nil, ↓reduceIte]

theorem ending_keys {r : Request} (h : r.status = .retrievalKey) (hb : r.buffer = [])
    {keys : List Bytes} (nonempty : ∀ key ∈ keys, key ≠ []) {s : Bytes}
    (hs : Words isWhiteSpace (keys ++ [[]]) s) :
    ending r s = some (.respond { r with keys := r.keys ++ keys }, []) := by
  have hdata : r.status ≠ .data := by rw [h]; decide
  induction keys generalizing r s with
  | nil =>
    obtain ⟨c, s, rfl, plain, ends, rest⟩ := hs.cons_inv
    cases rest
    rw [ending_word hdata hb plain ends, onWhiteSpace_noKey h, List.append_nil, ← hb]
    rfl
  | cons key keys ih =>
    obtain ⟨hkey, hkeys⟩ := List.forall_mem_cons.mp nonempty
    obtain ⟨c, s, rfl, plain, ends, rest⟩ := hs.cons_inv
    let r' : Request := { r with keys := r.keys ++ [key], buffer := [] }
    have hr' : r'.status ≠ .data := hdata
    have hrest : ending r' s = _ := ih (r := r') h rfl hkeys rest hr'
    rw [ending_word hdata hb plain ends, onWhiteSpace_key h hkey]
    refine hrest.trans ?_
    simp only [r', List.append_assoc, List.singleton_append, hb]

theorem ending_keys_inv {r : Request} (h : r.status = .retrievalKey) (hb : r.buffer = [])
    {data rest : Bytes} {e : ByteResult} (he : ending r data = some (e, rest)) :
    ∃ keys s, data = s ++ rest ∧ (∀ key ∈ keys, key ≠ []) ∧ Words isWhiteSpace (keys ++ [[]]) s ∧
      e = .respond { r with keys := r.keys ++ keys } := by
  have hdata : r.status ≠ .data := by rw [h]; decide
  induction hlen : data.length using Nat.strong_induction_on generalizing r data with
  | _ n ih =>
    obtain ⟨word, c, tail, rfl, hw, hc, hword⟩ := ending_word_inv hdata hb he
    by_cases hempty : word = []
    · subst hempty
      rw [onWhiteSpace_noKey h] at hword
      cases hword
      refine ⟨[], [c], rfl, fun key hkey => absurd hkey List.not_mem_nil, .one hw hc, ?_⟩
      rw [List.append_nil, ← hb]
    · rw [onWhiteSpace_key h hempty] at hword
      let r' : Request := { r with keys := r.keys ++ [word], buffer := [] }
      have hr' : r'.status ≠ .data := hdata
      have hlt : tail.length < n := by
        rw [← hlen, List.length_append, List.length_cons]
        omega
      obtain ⟨keys, s, rfl, hkeys, hs, rfl⟩ := ih _ hlt (r := r') h rfl hword hr' rfl
      refine ⟨word :: keys, _, ?_, List.forall_mem_cons.mpr ⟨hempty, hkeys⟩, .cons hw hc hs, ?_⟩
      · simp
      · simp only [r', List.append_assoc, List.singleton_append, hb]

/-! ## What the loop makes of a sentence -/

theorem Gathered.asks_store {r q : Request} {kind : StorageKind} {key value : Bytes}
    {noreply : Bool} (h : Gathered r value noreply q) (hc : r.command = kind.command)
    (hk : r.keys = [key]) : q.asks = some (.store kind key value) := by
  rw [Request.asks, h.command, h.keys, h.buffer, hc, hk]
  cases kind <;> rfl

theorem Gathered.asks_delete {r q : Request} {key value : Bytes} {noreply : Bool}
    (h : Gathered r value noreply q) (hc : r.command = .delete) (hk : r.keys = [key]) :
    q.asks = some (.delete key) := by
  rw [Request.asks, h.command, h.keys, hc, hk]

theorem commandFromStr_unknown {word : Bytes} (h : word ∉ commandNames) :
    commandFromStr word = .none := by
  simp only [commandNames, List.map_cons, List.map_nil, List.mem_cons, List.not_mem_nil,
    or_false, not_or] at h
  simp only [commandFromStr, h, ↓reduceIte]

/-- A word that moves the parser on. -/
theorem ending_next {r r' : Request} (h : r.status ≠ .data) (hb : r.buffer = []) {word : Bytes}
    (hw : Plain word) {c : UInt8} (hc : isWhiteSpace c = true)
    (he : onWhiteSpace { r with buffer := word } = .next r') (rest : Bytes) :
    ending r (word ++ c :: rest) = ending r' rest := by
  rw [ending_word h hb hw hc, he]
  rfl

section Stages

variable (db : Bool) (m : Nat) (g : CommandType)

theorem onWhiteSpace_unknown {word : Bytes} (h : word ∉ commandNames) :
    onWhiteSpace { Request.fresh db m g with buffer := word } =
      .throw { Request.fresh db m g with command := .none } (text "unsupported command") := by
  simp only [onWhiteSpace, Request.fresh, commandFromStr_unknown h, statusFromCommand]

/-- A retrieval that has read no key yet. -/
def retrievalAt (kind : RetrievalKind) : Request :=
  { Request.fresh db m g with command := kind.command, status := .retrievalKey }

theorem onWhiteSpace_retrieval (kind : RetrievalKind) :
    onWhiteSpace { Request.fresh db m g with buffer := kind.name } =
      .next (retrievalAt db m g kind) := by
  cases kind <;> rfl

/-- A deletion that is waiting for its key, and one that has it. -/
def deleteAt (status : StatusType) (keys : List Bytes) : Request :=
  { Request.fresh db m g with command := .delete, status := status, keys := keys }

theorem onWhiteSpace_delete : onWhiteSpace { Request.fresh db m g with buffer := text "delete" } =
    .next (deleteAt db m g .deleteKey []) := rfl

theorem onWhiteSpace_deleteKey {key : Bytes} (h : key ≠ []) :
    onWhiteSpace { deleteAt db m g .deleteKey [] with buffer := key } =
      .next (deleteAt db m g .norep [key]) := by
  simp only [onWhiteSpace, deleteAt, pushKey, List.length_eq_zero_iff, if_neg h]
  rfl

theorem onWhiteSpace_ping : onWhiteSpace { Request.fresh db m g with buffer := text "ping" } =
    .respond { Request.fresh db m g with command := .ping, status := .finished } := rfl

theorem onWhiteSpace_quit : onWhiteSpace { Request.fresh db m g with buffer := text "quit" } =
    .next { Request.fresh db m g with command := .quit, status := .quitting } := rfl

/-- A command that needs a key ends at an empty one. -/
theorem onWhiteSpace_keyed {name : Bytes} (h : name ∈ ["set", "add", "delete"].map text) :
    ∃ r : Request, onWhiteSpace { Request.fresh db m g with buffer := name } = .next r ∧
      r.status ≠ .data ∧ r.buffer = [] ∧ r.noReply = false ∧
      onWhiteSpace { r with buffer := [] } =
        .throw { r with buffer := [] } (text "invalid key") := by
  simp only [List.map_cons, List.map_nil, List.mem_cons, List.not_mem_nil, or_false] at h
  rcases h with rfl | rfl | rfl
  · exact ⟨_, field_name db m g .set, by simp [storageAt], rfl, rfl, rfl⟩
  · exact ⟨_, field_name db m g .add, by simp [storageAt], rfl, rfl, rfl⟩
  · exact ⟨_, onWhiteSpace_delete db m g, by simp [deleteAt], rfl, rfl, rfl⟩

/-- A number that is none ends the request, in any of the three places. -/
theorem ending_unread {r : Request} (h : StorageHeader.Numeric r.status) (hb : r.buffer = [])
    {word : Bytes} (hw : Plain word) {c : UInt8} (hc : isWhiteSpace c = true) {what : Bytes}
    (unread : stoi word = .error what) (rest : Bytes) :
    ending r (word ++ c :: rest) = some (.throw { r with buffer := word } what, rest) := by
  have hdata : r.status ≠ .data := by rcases h with h | h | h <;> rw [h] <;> decide
  let r' : Request := { r with buffer := word }
  have hthrow : onWhiteSpace r' = .throw r' what :=
    StorageHeader.onWhiteSpace_unread (r := r') h unread
  rw [ending_word hdata hb hw hc, hthrow]
  rfl

theorem ending_noNumber {s key word what : Bytes} {numbers : List Bytes} (kind : StorageKind)
    (nonempty : key ≠ []) (few : numbers.length < 3)
    (numbersRead : ∀ number ∈ numbers, ∃ v, stoi number = .ok v) (unread : stoi word = .error what)
    (spelled : Words isWhiteSpace (kind.name :: key :: (numbers ++ [word])) s) :
    ∃ q, ending (.fresh db m g) s = some (.throw q what, []) ∧ q.noReply = false := by
  obtain ⟨c, s, rfl, plain, ends, spelled⟩ := spelled.cons_inv
  rw [ending_next (by simp [Request.fresh]) rfl plain ends (field_name db m g kind)]
  obtain ⟨c, s, rfl, plain, ends, spelled⟩ := spelled.cons_inv
  rw [ending_next (by simp [storageAt]) rfl plain ends (field_key db m g kind nonempty)]
  rcases numbers with _ | ⟨flags, _ | ⟨exptime, _ | ⟨third, more⟩⟩⟩
  · obtain ⟨c, s, rfl, plain, ends, spelled⟩ := spelled.cons_inv
    cases spelled
    exact ⟨_, ending_unread (.inl rfl) rfl plain ends unread [], rfl⟩
  · obtain ⟨f, hflags⟩ := numbersRead flags List.mem_cons_self
    obtain ⟨c, s, rfl, plain, ends, spelled⟩ := spelled.cons_inv
    rw [ending_next (by simp [storageAt]) rfl plain ends (field_flags db m g kind key hflags)]
    obtain ⟨c, s, rfl, plain, ends, spelled⟩ := spelled.cons_inv
    cases spelled
    exact ⟨_, ending_unread (.inr (.inl rfl)) rfl plain ends unread [], rfl⟩
  · obtain ⟨f, hflags⟩ := numbersRead flags List.mem_cons_self
    obtain ⟨e, hexptime⟩ := numbersRead exptime (by simp)
    obtain ⟨c, s, rfl, plain, ends, spelled⟩ := spelled.cons_inv
    rw [ending_next (by simp [storageAt]) rfl plain ends (field_flags db m g kind key hflags)]
    obtain ⟨c, s, rfl, plain, ends, spelled⟩ := spelled.cons_inv
    rw [ending_next (by simp [storageAt]) rfl plain ends
      (field_exptime db m g kind key hexptime f)]
    obtain ⟨c, s, rfl, plain, ends, spelled⟩ := spelled.cons_inv
    cases spelled
    exact ⟨_, ending_unread (.inr (.inr rfl)) rfl plain ends unread [], rfl⟩
  · simp only [List.length_cons] at few
    omega

/-- The loop ends at the last byte of a sentence, with what the sentence asks for. -/
theorem Sentence.ending {s : Bytes} {asked : Asked} {noreply : Bool}
    (h : Sentence s asked noreply) :
    ∃ e, ending (.fresh db m g) s = some (e, []) ∧ e.tells = some (asked, noreply) := by
  cases h with
  | ping spelled =>
    obtain ⟨c, s, rfl, plain, ends, spelled⟩ := spelled.cons_inv
    cases spelled
    let q : Request := { Request.fresh db m g with command := .ping, status := .finished }
    refine ⟨.respond q, ?_, rfl⟩
    rw [ending_word (by simp [Request.fresh]) rfl plain ends, onWhiteSpace_ping]
    rfl
  | retrieve kind nonempty spelled =>
    obtain ⟨c, s, rfl, plain, ends, spelled⟩ := spelled.cons_inv
    have hkeys := ending_keys (r := retrievalAt db m g kind) rfl rfl nonempty spelled
    rw [← ending_next (by simp [Request.fresh]) rfl plain ends
      (onWhiteSpace_retrieval db m g kind)] at hkeys
    exact ⟨_, hkeys, by cases kind <;> rfl⟩
  | delete nonempty trailer spelled =>
    obtain ⟨c, s, rfl, plain, ends, spelled⟩ := spelled.cons_inv
    obtain ⟨d, s, rfl, plain', ends', spelled⟩ := spelled.cons_inv
    obtain ⟨q, he, hq⟩ := ending_trailer trailer (r := deleteAt db m g .norep [_]) rfl rfl spelled
      .none
    refine ⟨.respond q, ?_, ?_⟩
    · rw [ending_next (by simp [Request.fresh]) rfl plain ends (onWhiteSpace_delete db m g),
        ending_next (by simp [deleteAt]) rfl plain' ends'
          (onWhiteSpace_deleteKey db m g nonempty), ← List.append_nil s]
      exact he
    · rw [ByteResult.tells, hq.asks_delete rfl rfl, hq.noReply]
      rfl
  | store kind nonempty flagsRead exptimeRead nbytesRead trailer spelled block =>
    obtain ⟨c₀, s, rfl, plain₀, ends₀, spelled⟩ := spelled.cons_inv
    obtain ⟨c₁, s, rfl, plain₁, ends₁, spelled⟩ := spelled.cons_inv
    obtain ⟨c₂, s, rfl, plain₂, ends₂, spelled⟩ := spelled.cons_inv
    obtain ⟨c₃, s, rfl, plain₃, ends₃, spelled⟩ := spelled.cons_inv
    obtain ⟨c₄, s, rfl, plain₄, ends₄, spelled⟩ := spelled.cons_inv
    obtain ⟨q, he, hq⟩ := ending_trailer trailer
      (r := storageAt db m g kind .norep [_] _ _ (sizeOfInt _) false) rfl rfl spelled block
    refine ⟨.respond q, ?_, ?_⟩
    · simp only [List.append_assoc, List.cons_append]
      rw [ending_next (by simp [Request.fresh]) rfl plain₀ ends₀ (field_name db m g kind),
        ending_next (by simp [storageAt]) rfl plain₁ ends₁ (field_key db m g kind nonempty),
        ending_next (by simp [storageAt]) rfl plain₂ ends₂ (field_flags db m g kind _ flagsRead),
        ending_next (by simp [storageAt]) rfl plain₃ ends₃
          (field_exptime db m g kind _ exptimeRead _),
        ending_next (by simp [storageAt]) rfl plain₄ ends₄
          (field_nbytes db m g kind _ nbytesRead _ _)]
      exact he
    · rw [ByteResult.tells, hq.asks_store rfl rfl, hq.noReply]
      rfl
  | unsupported unknown spelled =>
    obtain ⟨c, s, rfl, plain, ends, spelled⟩ := spelled.cons_inv
    cases spelled
    let r : Request := { Request.fresh db m g with command := .none }
    refine ⟨.throw r (text "unsupported command"), ?_, rfl⟩
    rw [ending_word (by simp [Request.fresh]) rfl plain ends, onWhiteSpace_unknown db m g unknown]
    rfl
  | noKey keyed spelled =>
    obtain ⟨c, s, rfl, plain, ends, spelled⟩ := spelled.cons_inv
    obtain ⟨d, s, rfl, plain', ends', spelled⟩ := spelled.cons_inv
    cases spelled
    obtain ⟨r, he, hdata, hb, hn, hthrow⟩ := onWhiteSpace_keyed db m g keyed
    refine ⟨.throw { r with buffer := [] } (text "invalid key"), ?_, ?_⟩
    · rw [ending_next (by simp [Request.fresh]) rfl plain ends he,
        ending_word hdata hb plain' ends', hthrow]
      rfl
    · rw [ByteResult.tells, hn]
  | noNumber kind nonempty few numbersRead unread spelled =>
    obtain ⟨q, he, hq⟩ := ending_noNumber db m g kind nonempty few numbersRead unread spelled
    exact ⟨_, he, by rw [ByteResult.tells, hq]⟩

/-! ## Where the loop ends, there is a sentence -/

variable {db m g}

theorem word_cases (word : Bytes) :
    word ∉ commandNames ∨ (∃ kind : StorageKind, word = kind.name) ∨
      (∃ kind : RetrievalKind, word = kind.name) ∨ word = text "delete" ∨ word = text "quit" ∨
      word = text "ping" := by
  by_cases h : word ∈ commandNames
  · right
    simp only [commandNames, List.map_cons, List.map_nil, List.mem_cons, List.not_mem_nil,
      or_false] at h
    rcases h with h | h | h | h | h | h | h
    · exact .inl ⟨.set, h⟩
    · exact .inl ⟨.add, h⟩
    · exact .inr (.inl ⟨.get, h⟩)
    · exact .inr (.inl ⟨.gets, h⟩)
    · exact .inr (.inr (.inl h))
    · exact .inr (.inr (.inr (.inl h)))
    · exact .inr (.inr (.inr (.inr h)))
  · exact .inl h

/-- Behind `quit` nothing is looked at. -/
theorem scan_quitting {r : Request} (h : r.status = .quitting) (data : Bytes) :
    ∃ r', scan r data = some r' ∧ r'.status = .quitting := by
  have hdata : r.status ≠ .data := by rw [h]; decide
  induction data generalizing r with
  | nil => exact ⟨r, rfl, h⟩
  | cons c data ih =>
    rw [scan]
    cases hc : isWhiteSpace c with
    | true =>
      have hnext : onWhiteSpace r = .next r := by simp only [onWhiteSpace, h]
      rw [onByte_whiteSpace hdata hc, hnext]
      exact ih h hdata
    | false =>
      rw [onByte_token hdata hc]
      exact ih (r := { r with buffer := r.buffer ++ [c] }) h hdata

theorem ending_of_scan {r r' : Request} {data : Bytes} (h : scan r data = some r') :
    ending r data = none := by
  have hend := ending_scan h []
  rwa [List.append_nil] at hend

/-- A word where a number is expected: it is read and the parser moves on, or it is not. -/
theorem ending_number_inv {r : Request} (h : StorageHeader.Numeric r.status) (hb : r.buffer = [])
    {next : Int → Request} (hnext : ∀ word v, stoi word = .ok v →
      onWhiteSpace { r with buffer := word } = .next (next v)) {data rest : Bytes} {e : ByteResult}
    (he : ending r data = some (e, rest)) :
    ∃ word s tail, Words isWhiteSpace [word] s ∧ data = s ++ tail ∧
      ((∃ v, stoi word = .ok v ∧ ending (next v) tail = some (e, rest)) ∨
        ∃ what, stoi word = .error what ∧ tail = rest ∧
          e = .throw { r with buffer := word } what) := by
  have hdata : r.status ≠ .data := by rcases h with h | h | h <;> rw [h] <;> decide
  obtain ⟨word, c, tail, rfl, hw, hc, hword⟩ := ending_word_inv hdata hb he
  refine ⟨word, word ++ [c], tail, .one hw hc, by simp, ?_⟩
  cases hread : stoi word with
  | ok v =>
    rw [hnext word v hread] at hword
    exact .inl ⟨v, rfl, hword⟩
  | error what =>
    have hthrow := ending_unread h hb hw hc hread tail
    rw [he] at hthrow
    cases hthrow
    exact .inr ⟨what, rfl, rfl, rfl⟩

/-- What is found behind the name of a storage command. -/
theorem ending_storage_inv {kind : StorageKind} {data rest : Bytes} {e : ByteResult} {c : UInt8}
    (hc : isWhiteSpace c = true)
    (he : ending (storageAt db m g kind .storageKey [] 0 0 0 false) data = some (e, rest)) :
    ∃ s asked noreply, data = s ++ rest ∧ Sentence (kind.name ++ c :: s) asked noreply ∧
      e.tells = some (asked, noreply) := by
  have hname : Words isWhiteSpace [kind.name] (kind.name ++ [c]) :=
    .one (storageKind_parse kind).1 hc
  obtain ⟨key, d, data, rfl, hw, hd, hword⟩ := ending_word_inv (by simp [storageAt]) rfl he
  have hkey : Words isWhiteSpace [key] (key ++ [d]) := .one hw hd
  by_cases hempty : key = []
  · subst hempty
    cases hword
    have hspelled : Words isWhiteSpace [kind.name, []] (kind.name ++ c :: [d]) := by
      simpa using words_append hname hkey
    refine ⟨[d], _, false, rfl, .noKey ?_ hspelled, rfl⟩
    cases kind <;> simp [StorageKind.name]
  rw [field_key db m g kind hempty] at hword
  obtain ⟨flags, s₁, data, h₁, rfl, hflags⟩ := ending_number_inv (.inl rfl) rfl
    (fun _ _ h => field_flags db m g kind key h) hword
  rcases hflags with ⟨f, hf, he₁⟩ | ⟨what, hf, rfl, rfl⟩
  rotate_left
  · have hspelled : Words isWhiteSpace (kind.name :: key :: ([] ++ [flags]))
        (kind.name ++ c :: (key ++ [d] ++ s₁)) := by
      simpa using words_append hname (words_append hkey h₁)
    exact ⟨key ++ [d] ++ s₁, .refused what, false, by simp, .noNumber kind hempty (by simp)
      (fun number hmem => absurd hmem List.not_mem_nil) hf hspelled, rfl⟩
  obtain ⟨exptime, s₂, data, h₂, rfl, hexptime⟩ := ending_number_inv (.inr (.inl rfl)) rfl
    (fun _ _ h => field_exptime db m g kind key h f) he₁
  rcases hexptime with ⟨t, ht, he₂⟩ | ⟨what, ht, rfl, rfl⟩
  rotate_left
  · have hspelled : Words isWhiteSpace (kind.name :: key :: ([flags] ++ [exptime]))
        (kind.name ++ c :: (key ++ [d] ++ s₁ ++ s₂)) := by
      simpa using words_append hname (words_append hkey (words_append h₁ h₂))
    refine ⟨key ++ [d] ++ s₁ ++ s₂, .refused what, false, by simp,
      .noNumber kind hempty (by simp) ?_ ht hspelled, rfl⟩
    intro number hmem
    rw [List.mem_singleton.mp hmem]
    exact ⟨f, hf⟩
  obtain ⟨nbytes, s₃, data, h₃, rfl, hnbytes⟩ := ending_number_inv (.inr (.inr rfl)) rfl
    (fun _ _ h => field_nbytes db m g kind key h f t) he₂
  rcases hnbytes with ⟨n, hn, he₃⟩ | ⟨what, hn, rfl, rfl⟩
  rotate_left
  · have hspelled : Words isWhiteSpace (kind.name :: key :: ([flags, exptime] ++ [nbytes]))
        (kind.name ++ c :: (key ++ [d] ++ s₁ ++ s₂ ++ s₃)) := by
      simpa using words_append hname (words_append hkey (words_append h₁ (words_append h₂ h₃)))
    refine ⟨key ++ [d] ++ s₁ ++ s₂ ++ s₃, .refused what, false, by simp,
      .noNumber kind hempty (by simp) ?_ hn hspelled, rfl⟩
    intro number hmem
    rcases List.mem_pair.mp hmem with rfl | rfl
    · exact ⟨f, hf⟩
    · exact ⟨t, ht⟩
  obtain ⟨q, noreply, token, words, s, payload, b, rfl, rfl, htrailer, hs, hblock, hq⟩ :=
    ending_trailer_inv rfl rfl he₃
  refine ⟨key ++ [d] ++ s₁ ++ s₂ ++ s₃ ++ s ++ b, .store kind key (token ++ payload), noreply,
    by simp, ?_, ?_⟩
  · have hspelled := words_append hname (words_append hkey (words_append h₁
      (words_append h₂ (words_append h₃ hs))))
    have hstore := Sentence.store kind hempty hf ht hn htrailer hspelled hblock
    simpa using hstore
  · rw [ByteResult.tells, hq.asks_store rfl rfl, hq.noReply]
    rfl

/-- What is found behind `delete`. -/
theorem ending_delete_inv {data rest : Bytes} {e : ByteResult} {c : UInt8}
    (hc : isWhiteSpace c = true)
    (he : ending (deleteAt db m g .deleteKey []) data = some (e, rest)) :
    ∃ s asked noreply, data = s ++ rest ∧ Sentence (text "delete" ++ c :: s) asked noreply ∧
      e.tells = some (asked, noreply) := by
  have hname : Words isWhiteSpace [text "delete"] (text "delete" ++ [c]) :=
    .one (plain_of_all (by decide)) hc
  obtain ⟨key, d, data, rfl, hw, hd, hword⟩ := ending_word_inv (by simp [deleteAt]) rfl he
  have hkey : Words isWhiteSpace [key] (key ++ [d]) := .one hw hd
  by_cases hempty : key = []
  · subst hempty
    cases hword
    exact ⟨[d], _, false, rfl, .noKey (by simp) (words_append hname hkey), rfl⟩
  rw [onWhiteSpace_deleteKey db m g hempty] at hword
  obtain ⟨q, noreply, token, words, s, payload, b, rfl, rfl, htrailer, hs, hblock, hq⟩ :=
    ending_trailer_inv rfl rfl hword
  rcases hblock.inv with ⟨-, rfl, rfl⟩ | ⟨d, nonempty, hn, -⟩
  · refine ⟨key ++ [d] ++ s, .delete key, noreply, by simp, ?_, ?_⟩
    · have hspelled := words_append hname (words_append hkey hs)
      exact .delete hempty htrailer (by simpa using hspelled)
    · rw [ByteResult.tells, hq.asks_delete rfl rfl, hq.noReply]
      rfl
  · exact absurd (List.length_eq_zero_iff.mp hn.symm) nonempty

/-- Where the loop ends, what it has read is a sentence. -/
theorem ending_sentence {data rest : Bytes} {e : ByteResult}
    (he : ending (.fresh db m g) data = some (e, rest)) :
    ∃ s asked noreply, data = s ++ rest ∧ Sentence s asked noreply ∧
      e.tells = some (asked, noreply) := by
  obtain ⟨word, c, tail, rfl, hw, hc, hword⟩ := ending_word_inv (by simp [Request.fresh]) rfl he
  have hone : Words isWhiteSpace [word] (word ++ [c]) := .one hw hc
  rcases word_cases word with hunknown | ⟨kind, rfl⟩ | ⟨kind, rfl⟩ | rfl | rfl | rfl
  · rw [onWhiteSpace_unknown db m g hunknown] at hword
    cases hword
    exact ⟨word ++ [c], _, false, by simp, .unsupported hunknown hone, rfl⟩
  · rw [field_name db m g kind] at hword
    obtain ⟨s, asked, noreply, rfl, hs, htells⟩ := ending_storage_inv hc hword
    exact ⟨_, asked, noreply, by simp, hs, htells⟩
  · rw [onWhiteSpace_retrieval db m g kind] at hword
    obtain ⟨keys, s, rfl, hkeys, hs, rfl⟩ := ending_keys_inv rfl rfl hword
    refine ⟨kind.name ++ [c] ++ s, .retrieve keys, false, by simp, ?_, ?_⟩
    · exact .retrieve kind hkeys (words_append hone hs)
    · cases kind <;> rfl
  · rw [onWhiteSpace_delete db m g] at hword
    obtain ⟨s, asked, noreply, rfl, hs, htells⟩ := ending_delete_inv hc hword
    exact ⟨_, asked, noreply, by simp, hs, htells⟩
  · rw [onWhiteSpace_quit db m g] at hword
    obtain ⟨r', hscan, -⟩ :=
      scan_quitting (r := { Request.fresh db m g with command := .quit, status := .quitting }) rfl
        tail
    have hnone := ending_of_scan hscan
    exact absurd (hnone.symm.trans hword) (by simp)
  · rw [onWhiteSpace_ping db m g] at hword
    cases hword
    exact ⟨text "ping" ++ [c], _, false, by simp, .ping hone, rfl⟩

end Stages

/-! ## Sentences that begin alike -/

/-- No sentence is the beginning of another one, and none asks for two things. -/
theorem Sentence.unique {s s' : Bytes} {asked asked' : Asked} {noreply noreply' : Bool}
    (h : Sentence s asked noreply) (h' : Sentence s' asked' noreply') (hp : s <+: s') :
    s = s' ∧ asked = asked' ∧ noreply = noreply' := by
  obtain ⟨rest, rfl⟩ := hp
  obtain ⟨e, he, htells⟩ := h.ending false 0 .none
  obtain ⟨e', he', htells'⟩ := h'.ending false 0 .none
  rw [ending_append he] at he'
  obtain ⟨rfl, hrest⟩ := Prod.mk.inj (Option.some.inj he')
  rw [List.nil_append] at hrest
  rw [htells] at htells'
  obtain ⟨rfl, rfl⟩ := Prod.mk.inj (Option.some.inj htells')
  exact ⟨by rw [hrest, List.append_nil], rfl, rfl⟩

/-- There is at most one sentence that bytes begin with. -/
theorem Sentence.unique_within {s s' data : Bytes} {asked asked' : Asked}
    {noreply noreply' : Bool} (h : Sentence s asked noreply) (h' : Sentence s' asked' noreply')
    (hp : s <+: data) (hp' : s' <+: data) : s = s' ∧ asked = asked' ∧ noreply = noreply' := by
  rcases List.prefix_or_prefix_of_prefix hp hp' with hle | hle
  · exact h.unique h' hle
  · obtain ⟨hs, hasked, hn⟩ := h'.unique h hle
    exact ⟨hs.symm, hasked.symm, hn.symm⟩

/-- Only the first word of a request can make the parser quit. -/
theorem onWhiteSpace_quitting {r r' : Request} (h : onWhiteSpace r = .next r')
    (hq : r'.status = .quitting) : r.status = .command ∨ r.status = .quitting := by
  unfold onWhiteSpace at h
  split at h
  · next hs => exact .inl hs
  · obtain ⟨rfl, -⟩ := pushKey_next h; cases hq
  · obtain ⟨rfl, -⟩ := pushKey_next h; cases hq
  · split at h <;> cases h
    cases hq
  · split at h <;> cases h
    cases hq
  · split at h <;> cases h
    cases hq
  · split at h
    · cases h; cases hq
    · split at h <;> cases h
      cases hq
  · split at h
    · cases h
    · obtain ⟨rfl, -⟩ := pushKey_next h; exact .inr hq
  · split at h
    · cases h
    · obtain ⟨rfl, -⟩ := pushKey_next h; exact .inr hq
  · cases h; exact .inr hq
  · cases h; exact .inr hq
  · cases h; exact .inr hq

theorem scan_not_quitting {r r' : Request} {data : Bytes} (hc : r.status ≠ .command)
    (hq : r.status ≠ .quitting) (h : scan r data = some r') : r'.status ≠ .quitting := by
  induction data generalizing r with
  | nil => cases h; exact hq
  | cons c data ih =>
    rw [scan] at h
    cases hb : onByte r c with
    | next r₁ =>
      rw [hb] at h
      refine ih (fun he => hc ((onByte_continues hb).command he)) (fun he => ?_) h
      unfold onByte at hb
      split at hb
      · split at hb <;> cases hb
        exact hq he
      · split at hb
        · exact (onWhiteSpace_quitting hb he).elim hc hq
        · cases hb
          exact hq he
    | respond q => rw [hb] at h; cases h
    | throw q what => rw [hb] at h; cases h

/-- The parser quits exactly where the first word is `quit`. -/
theorem quits_iff (db : Bool) (m : Nat) (g : CommandType) (data : Bytes) :
    Quits data ↔ ∃ r, scan (.fresh db m g) data = some r ∧ r.status = .quitting := by
  constructor
  · rintro ⟨s, hs, rest, rfl⟩
    obtain ⟨c, s, rfl, plain, ends, hs⟩ := hs.cons_inv
    cases hs
    let r : Request := { Request.fresh db m g with command := .quit, status := .quitting }
    obtain ⟨r', hscan, hq⟩ := scan_quitting (r := r) rfl rest
    refine ⟨r', ?_, hq⟩
    rw [scan_trans (scan_word_end (by simp [Request.fresh]) rfl plain ends
      (onWhiteSpace_quit db m g))]
    exact hscan
  · rintro ⟨r, hscan, hq⟩
    rcases plain_or_field data with hplain | ⟨word, c, rest, rfl, hword, hc⟩
    · rw [scan_word (by simp [Request.fresh]) hplain] at hscan
      cases hscan
      cases hq
    · have hcut : word ++ c :: rest = (word ++ [c]) ++ rest := List.append_cons word c rest
      -- The word moves the parser on to a status that it cannot quit from.
      have hgone : ∀ {r' : Request}, r'.status ≠ .command → r'.status ≠ .quitting →
          onWhiteSpace { Request.fresh db m g with buffer := word } ≠ .next r' := by
        intro r' hcommand hquitting he
        rw [hcut, scan_trans (scan_word_end (by simp [Request.fresh]) rfl hword hc he)] at hscan
        exact scan_not_quitting hcommand hquitting hscan hq
      rcases word_cases word with hunknown | ⟨kind, rfl⟩ | ⟨kind, rfl⟩ | rfl | rfl | rfl
      · have hnone := ending_of_scan hscan
        rw [ending_word (by simp [Request.fresh]) rfl hword hc,
          onWhiteSpace_unknown db m g hunknown] at hnone
        cases hnone
      · exact absurd (field_name db m g kind) (hgone (by simp [storageAt]) (by simp [storageAt]))
      · exact absurd (onWhiteSpace_retrieval db m g kind)
          (hgone (by simp [retrievalAt]) (by simp [retrievalAt]))
      · exact absurd (onWhiteSpace_delete db m g)
          (hgone (by simp [deleteAt]) (by simp [deleteAt]))
      · exact ⟨_, .one hword hc, rest, hcut.symm⟩
      · have hnone := ending_of_scan hscan
        rw [ending_word (by simp [Request.fresh]) rfl hword hc, onWhiteSpace_ping] at hnone
        cases hnone

/-! ## The parser is the grammar -/

/-- **The byte loop reads by the grammar.** A fresh request that is fed in chunks, none
turned down for its size, is answered if and only if some beginning of what they carry
is a sentence, as that sentence asks, and it is left unfinished otherwise, without a
call of the store; it is quitting if the first word is `quit`. There is at most one
such sentence. -/
theorem feed_by_grammar {db : Bool} {m : Nat} {g : CommandType} {chunks : List Bytes}
    (ha : admits (.fresh db m g) chunks = true) :
    (∀ s asked noreply, Sentence s asked noreply → s <+: chunks.flatten →
      ∃ q : Request, q.noReply = noreply ∧
        feed (.fresh db m g) chunks = q.answered <$> asked.answer db) ∧
    ((∀ s asked noreply, Sentence s asked noreply → ¬ s <+: chunks.flatten) →
      ∃ r, feed (.fresh db m g) chunks = .done r ∧ r.status ≠ .finished ∧
        (r.status = .quitting ↔ Quits chunks.flatten)) ∧
    ∀ s asked noreply s' asked' noreply', Sentence s asked noreply →
      Sentence s' asked' noreply' → s <+: chunks.flatten → s' <+: chunks.flatten →
      s = s' ∧ asked = asked' ∧ noreply = noreply' := by
  have hfeed := feed_admitted (fresh_going db m g) ha
  refine ⟨?_, ?_, ?_⟩
  · intro s asked noreply h hp
    obtain ⟨rest, hdata⟩ := hp
    obtain ⟨e, he, htells⟩ := h.ending db m g
    obtain ⟨q, -, hn, hloop⟩ := loop_ending (ending_append he rest) htells
    rw [hdata] at hloop
    exact ⟨q, hn, hfeed.trans hloop⟩
  · intro hnone
    cases he : ending (.fresh db m g) chunks.flatten with
    | none =>
      obtain ⟨r, hscan⟩ := scan_of_ending he
      refine ⟨r, hfeed.trans (loop_scanned hscan), scan_going (fresh_going db m g) hscan, ?_⟩
      rw [quits_iff db m g, hscan]
      simp
    | some x =>
      obtain ⟨s, asked, noreply, hdata, hs, -⟩ := ending_sentence he
      exact absurd ⟨x.2, hdata.symm⟩ (hnone s asked noreply hs)
  · intro s asked noreply s' asked' noreply' h h' hp hp'
    exact h.unique_within h' hp hp'

/-- A line that ends in a token: the token is put in front of the block. -/
theorem sentence_addToken : Sentence (text "add k 0 0 2 noreply x\nhi!")
    (.store .add (text "k") (text "xhi")) true := by
  have hplain : ∀ {word : Bytes}, (word.all fun c => !isWhiteSpace c) = true → Plain word :=
    fun h => plain_of_all h
  have hspelled : Words isWhiteSpace [text "add", text "k", text "0", text "0", text "2",
      text "noreply", text "x"] (text "add k 0 0 2 noreply x\n") :=
    words_append (.one (c := 32) (hplain (by decide)) (by decide)) <|
    words_append (.one (c := 32) (hplain (by decide)) (by decide)) <|
    words_append (.one (c := 32) (hplain (by decide)) (by decide)) <|
    words_append (.one (c := 32) (hplain (by decide)) (by decide)) <|
    words_append (.one (c := 32) (hplain (by decide)) (by decide)) <|
    words_append (.one (c := 32) (hplain (by decide)) (by decide)) <|
    .one (c := 10) (hplain (by decide)) (by decide)
  have hblock : Block (sizeOfInt 2) (text "hi") (text "hi!") :=
    @Block.bytes (text "hi") 33 (by decide)
  exact .store (f := 0) (e := 0) (n := 2) .add (by decide) rfl rfl rfl
    (.noreply (.token (by decide))) hspelled hblock

theorem feed_by_grammar_addToken :
    ∃ q : Request, q.noReply = true ∧
      feed (.fresh true 0 .none) [text "add k 0 0 2 nor", text "eply x\nh", text "i!\r\n"] =
        q.answered <$> (Asked.store .add (text "k") (text "xhi")).answer true :=
  (feed_by_grammar (admits_unlimited rfl _)).1 _ _ _ sentence_addToken (by decide)

end Quitsies.Tcp
