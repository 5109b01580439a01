import Quitsies.Service.Refinement
import Quitsies.Tcp.Limit
import Quitsies.Tcp.RoundTrip

/-!
# Every key on the line

A retrieval ends where white space follows white space: after the CR of a line
that is written with single spaces, and after the second space of any other. The
lines on which all keys are looked up are told apart here.
-/

namespace Quitsies.Service

open Text Interaction Db Tcp WellFormed Reference

def spaces (n : Nat) : Bytes := List.replicate n 32

/-- The line of a retrieval with any number of spaces between its words. Each key
comes with the number of spaces in front of it, less the one that has to be there. -/
structure RetrievalLine where
  kind : RetrievalKind
  words : List (Nat × Key)
  nonempty : words ≠ []
  trailing : Nat

/-- Keys with their spaces, and the spaces after the last one. -/
def wordsBytes (words : List (Nat × Key)) (trailing : Nat) : Bytes :=
  words.flatMap (fun word => spaces (word.1 + 1) ++ word.2.bytes) ++ spaces trailing

namespace RetrievalLine

/-- The line without its terminator. -/
def content (line : RetrievalLine) : Bytes :=
  line.kind.name ++ wordsBytes line.words line.trailing

def bytes (line : RetrievalLine) : Bytes := line.content ++ crlf

def keys (line : RetrievalLine) : List Bytes := line.words.map fun word => word.2.bytes

/-- Single spaces between the words and at most one at the end. -/
def SingleSpaced (line : RetrievalLine) : Prop :=
  (∀ word ∈ line.words, word.1 = 0) ∧ line.trailing ≤ 1

end RetrievalLine

/-- What a client of memcached relies on, without a byte limit: whatever the chunks,
the line is answered at its end and all of its keys are looked up. -/
structure LooksUp (g : CommandType) (line : RetrievalLine) : Prop where
  early : ∀ chunks : List Bytes, chunks.flatten <+: line.content →
    (feed (.fresh true 0 g) chunks).Returns fun r => r.status ≠ .finished
  keys : ∀ chunks : List Bytes, chunks.flatten = line.bytes →
    (feed (.fresh true 0 g) chunks).Returns fun r => r.status = .finished ∧ r.keys = line.keys
  response : ∀ chunks : List Bytes, chunks.flatten = line.bytes →
    ∀ (σ : Type) (store : σ → (c : StoreCall) → StoreResult c × σ) (contents : σ → Contents),
      Unfailing store contents → ∀ s,
        ((feed (.fresh true 0 g) chunks).runWith store s).1.response =
          ((bindings (contents s) line.keys).flatMap fun kv => valueBlock kv.1 kv.2) ++ endLine

/-! ## A second space -/

/-- White space in front of a key ends the retrieval. -/
theorem scan_second_space {r : Request} (hs : r.status = .retrievalKey) (hb : r.buffer = []) :
    scan r [32] = none := by
  have hdata : r.status ≠ .data := by rw [hs]; decide
  simp only [scan]
  rw [onByte_whiteSpace hdata (by decide)]
  simp [onWhiteSpace, hs, hb]

/-- Behind the first space, words that are not single spaced end the retrieval. -/
theorem scan_spaced {r : Request} (hs : r.status = .retrievalKey) (hb : r.buffer = []) (gap : Nat)
    (key : Key) (words : List (Nat × Key)) (trailing : Nat)
    (h : ¬ ((∀ word ∈ (gap, key) :: words, word.1 = 0) ∧ trailing ≤ 1)) :
    ∃ p, p <+: spaces gap ++ key.bytes ++ wordsBytes words trailing ∧ scan r p = none := by
  induction words generalizing r gap key with
  | nil =>
    cases gap with
    | succ gap => exact ⟨[32], ⟨_, rfl⟩, scan_second_space hs hb⟩
    | zero =>
      obtain ⟨n, rfl⟩ : ∃ n, trailing = n + 2 := by
        have htrailing : ¬ trailing ≤ 1 := fun hle => h ⟨by simp, hle⟩
        exact ⟨trailing - 2, by omega⟩
      refine ⟨key.bytes ++ [32] ++ [32], ⟨spaces n, ?_⟩, ?_⟩
      · simp [spaces, wordsBytes, List.replicate_succ]
      · rw [scan_trans (scan_retrievalKey hs hb key (by decide))]
        exact scan_second_space hs hb
  | cons word words ih =>
    cases gap with
    | succ gap => exact ⟨[32], ⟨_, rfl⟩, scan_second_space hs hb⟩
    | zero =>
      obtain ⟨gap', key'⟩ := word
      have h' : ¬ ((∀ word ∈ (gap', key') :: words, word.1 = 0) ∧ trailing ≤ 1) := by
        intro hall
        exact h ⟨List.forall_mem_cons.mpr ⟨rfl, hall.1⟩, hall.2⟩
      let r' : Request := { r with keys := r.keys ++ [key.bytes] }
      obtain ⟨p, ⟨rest, hp⟩, hscan⟩ := ih (r := r') hs hb gap' key' h'
      refine ⟨key.bytes ++ [32] ++ p, ⟨rest, ?_⟩, ?_⟩
      · rw [List.append_assoc, hp]
        simp [spaces, wordsBytes, List.replicate_succ]
      · rw [scan_trans (scan_retrievalKey hs hb key (by decide))]
        exact hscan

/-! ## Single spaces -/

theorem wordsBytes_single {words : List (Nat × Key)} (h : ∀ word ∈ words, word.1 = 0)
    (trailing : Nat) : wordsBytes words trailing =
      (words.map Prod.snd).flatMap (fun key => space ++ key.bytes) ++ spaces trailing := by
  induction words with
  | nil => rfl
  | cons word words ih =>
    obtain ⟨hword, hwords⟩ := List.forall_mem_cons.mp h
    have hrest := ih hwords
    simp only [wordsBytes] at hrest
    simp only [wordsBytes, List.flatMap_cons, List.map_cons, List.append_assoc, hrest, hword]
    rfl

namespace RetrievalLine

variable {g : CommandType} {line : RetrievalLine}

/-- The request in which the line is answered. -/
def request (g : CommandType) (line : RetrievalLine) : Request :=
  { Request.fresh true 0 g with
    command := line.kind.command
    status := .retrievalKey
    keys := line.keys }

/-- A line with single spaces is its words, the white space after the last of them,
and the white space it is answered at. -/
theorem SingleSpaced.cut (h : line.SingleSpaced) :
    ∃ front c d rest, isWhiteSpace c = true ∧ isWhiteSpace d = true ∧
      line.bytes = front ++ [c] ++ d :: rest ∧ line.content <+: front ++ [c] ∧
      scan (.fresh true 0 g) (front ++ [c]) = some (line.request g) := by
  obtain ⟨word, words, hwords⟩ := List.exists_cons_of_ne_nil line.nonempty
  obtain ⟨hw, hc, hs⟩ := retrievalKind_parse line.kind
  let names := (line.words.map Prod.snd).flatMap fun key => space ++ key.bytes
  have hcontent : line.content = line.kind.name ++ names ++ spaces line.trailing := by
    rw [content, wordsBytes_single h.1, List.append_assoc]
  have hscan {c : UInt8} (hwhite : isWhiteSpace c = true) :
      scan (.fresh true 0 g) (line.kind.name ++ names ++ [c]) = some (line.request g) := by
    have hcut : line.kind.name ++ names ++ [c] = (line.kind.name ++ space) ++
        (word.2.bytes ++ (words.map Prod.snd).flatMap (fun key => space ++ key.bytes) ++ [c]) := by
      simp [names, hwords]
    rw [hcut, scan_trans (scan_command true 0 g hw hc hs (by decide)),
      scan_retrievalKeys rfl rfl word.2 (words.map Prod.snd) hwhite]
    simp [request, keys, hwords, Request.fresh]
  have htrailing : line.trailing = 0 ∨ line.trailing = 1 := by
    have hle := h.2
    omega
  rcases htrailing with ht | ht
  · have hline : line.content = line.kind.name ++ names := by
      rw [hcontent, ht]
      exact List.append_nil _
    refine ⟨line.kind.name ++ names, 13, 10, [], by decide, by decide, ?_, ?_, hscan (by decide)⟩
    · rw [bytes, hline, List.append_assoc _ [13]]
      rfl
    · rw [hline]
      exact List.prefix_append _ _
  · have hline : line.content = line.kind.name ++ names ++ [32] := by
      rw [hcontent, ht]
      rfl
    refine ⟨line.kind.name ++ names, 32, 13, [10], by decide, by decide, ?_, ?_, hscan (by decide)⟩
    · rw [bytes, hline]
      rfl
    · exact ⟨[], by rw [hline, List.append_nil]⟩

theorem onByte_request {d : UInt8} (hd : isWhiteSpace d = true) :
    onByte (line.request g) d = .respond (line.request g) := by
  rw [onByte_whiteSpace (by simp [request]) hd]
  rfl

theorem SingleSpaced.looksUp (h : line.SingleSpaced) : LooksUp g line := by
  obtain ⟨front, c, d, rest, -, hd, hbytes, hcontent, hscan⟩ := h.cut (g := g)
  have hloop : loop (.fresh true 0 g) line.bytes = prepareResponse (line.request g) := by
    rw [hbytes, loop_of_scan hscan]
    simp only [loop, onByte_request hd]
  obtain ⟨key, keys, hkeys⟩ : ∃ key keys, line.keys = key :: keys := by
    apply List.exists_cons_of_ne_nil
    intro hnil
    exact line.nonempty (List.map_eq_nil_iff.mp hnil)
  have hcommand : (line.request g).command = .get ∨ (line.request g).command = .gets := by
    show line.kind.command = .get ∨ line.kind.command = .gets
    cases line.kind
    · exact .inl rfl
    · exact .inr rfl
  constructor
  · intro chunks hchunks
    obtain ⟨more, hmore⟩ := hchunks.trans hcontent
    rw [← hmore, scan_append] at hscan
    obtain ⟨r, hr, -⟩ := Option.bind_eq_some_iff.mp hscan
    rw [feed_fresh, loop_scanned hr]
    exact scan_going (by simp [Request.fresh]) hr
  · intro chunks hchunks
    rw [feed_fresh, hchunks, hloop]
    apply (prepareResponse_returns _).mono
    intro r hr
    obtain ⟨response, rfl⟩ := hr
    exact ⟨rfl, rfl⟩
  · intro chunks hchunks σ store contents hstore s
    rw [feed_fresh, hchunks, hloop, prepareResponse_retrieval rfl hkeys hcommand,
      ← id_map (retrieve (line.request g).keys), Prog.runWith_map]
    exact (retrieve_unfailing hstore s (line.request g).keys id).1

/-- Any other line is answered before its end. -/
theorem not_looksUp (h : ¬ line.SingleSpaced) : ¬ LooksUp g line := by
  intro hall
  obtain ⟨word, words, hwords⟩ := List.exists_cons_of_ne_nil line.nonempty
  obtain ⟨hw, hc, hs⟩ := retrievalKind_parse line.kind
  have hspaced : ¬ ((∀ word' ∈ (word.1, word.2) :: words, word'.1 = 0) ∧ line.trailing ≤ 1) := by
    rw [SingleSpaced, hwords] at h
    exact h
  have hcommand := scan_command true 0 g hw hc hs (by decide)
  obtain ⟨p, ⟨rest, hp⟩, hscan⟩ := scan_spaced
    (r := { Request.fresh true 0 g with command := line.kind.command, status := .retrievalKey })
    rfl rfl word.1 word.2 words line.trailing hspaced
  have hprefix : line.kind.name ++ space ++ p <+: line.content := by
    refine ⟨rest, ?_⟩
    rw [content, hwords, List.append_assoc, List.append_assoc, hp]
    simp [wordsBytes, spaces, space, List.replicate_succ]
  have hstopped : scan (.fresh true 0 g) (line.kind.name ++ space ++ p) = none := by
    rw [scan_trans hcommand, hscan]
  have hearly := hall.early [line.kind.name ++ space ++ p] (by simpa using hprefix)
  rw [feed_fresh] at hearly
  simp only [List.flatten_cons, List.flatten_nil, List.append_nil] at hearly
  exact hearly.not_of_not (loop_stopped hstopped)

end RetrievalLine

/-- **Every key of a line is looked up**, and nothing before its end answers it, if
and only if it is written with single spaces and at most one at the end. -/
theorem looksUp_iff (g : CommandType) (line : RetrievalLine) :
    LooksUp g line ↔ line.SingleSpaced := by
  constructor
  · intro hall
    by_contra h
    exact RetrievalLine.not_looksUp h hall
  · exact RetrievalLine.SingleSpaced.looksUp

/-- Two keys, the second behind two spaces. -/
def twoSpaces : RetrievalLine where
  kind := .get
  words := [(0, ⟨text "a", by decide, plain_of_all (by decide)⟩),
    (1, ⟨text "b", by decide, plain_of_all (by decide)⟩)]
  nonempty := by decide
  trailing := 0

/-- Both keys are held, and the second is not looked up. -/
theorem lookup_twoSpaces :
    let m : Contents := fun key => if key = text "a" ∨ key = text "b" then some (text "1") else none
    let run := (feed (.fresh true 0 .none) [text "get a  b\r\n"]).runWith mapStore m
    [text "get a  b\r\n"].flatten = twoSpaces.bytes ∧
      run.1.response = text "VALUE a 0 1\r\n1\r\nEND\r\n" ∧ run.1.keys = [text "a"] ∧
      ¬ LooksUp .none twoSpaces := by
  intro m run
  have hline : [text "get a  b\r\n"].flatten = twoSpaces.bytes := by decide
  have hkeys : run.1.keys = [text "a"] := by decide
  refine ⟨hline, by decide, hkeys, fun hall => ?_⟩
  have hrun := Prog.performs_runWith mapStore (feed (.fresh true 0 .none) [text "get a  b\r\n"]) m
  have hall' := ((hall.keys _ hline).of_performs hrun).2
  rw [hkeys] at hall'
  exact absurd hall' (by decide)

end Quitsies.Service
