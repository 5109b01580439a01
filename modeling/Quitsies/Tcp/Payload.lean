import Quitsies.Tcp.StorageStream

/-!
# Which bytes are put

A storage command declares the length of its payload in the header line, and the
payload follows the LF of that line. The parser takes any white space for the end
of the header and keeps what the token before it left in the buffer, so what it
collects is that payload for some streams only. Which ones is said here, of the
bytes alone.
-/

namespace Quitsies.Tcp

open Text Interaction Db

/-- The word of a line that has `k` words before it. Every white-space byte ends one. -/
def field : Nat → Bytes → Bytes
  | 0, line => line.takeWhile fun c => !isWhiteSpace c
  | k + 1, line => field k ((line.dropWhile fun c => !isWhiteSpace c).drop 1)

/-- `value` is the payload that `data` declares: the first line has been read to its
LF, its fifth word is the length of `value`, and the bytes of `value` were read
right behind the LF. -/
structure PayloadAt (data : Bytes) (answered : Nat) (positions : List Nat)
    (value line payload : Bytes) (n : Int) : Prop where
  cut : data = line ++ 10 :: payload
  first : 10 ∉ line
  read : line.length ≤ answered
  declared : stoi (field 4 line) = .ok n
  length : (value.length : Int) = n
  block : value <+: payload
  positions : positions = List.range' (line.length + 1) value.length

/-- What a request executes when it is fed `data`, it executes on the declared payload. -/
def Declared (r : Request) (data value : Bytes) : Prop :=
  ∃ q answered positions line payload n, answerAt r 0 [] data = some (q, answered, positions) ∧
    PayloadAt data answered positions value line payload n

/-- The header is one line: no token stands before the byte that ends it, its five
words are on one line, and that line ends where the header ends. With no payload to
come it may end at any white space behind the fifth word. -/
structure StorageStream.Clean (w : StorageStream) : Prop where
  token : w.token = []
  declared : 0 ≤ w.declared
  fields : 10 ∉ [w.afterName, w.afterKey, w.afterFlags, w.afterExptime]
  ends : if w.declared = 0 then 10 ∈ w.afterNbytes :: (w.noreplies ++ [w.afterToken])
    else 10 ∉ w.afterNbytes :: w.noreplies ∧ w.afterToken = 10

/-- The stream has a clean header. -/
def CleanHeader (data : Bytes) : Prop := ∃ w : StorageStream, w.stream = data ∧ w.Clean

/-! ## Lines and words -/

theorem Plain.not_mem_lf {word : Bytes} (h : Plain word) : 10 ∉ word := by
  intro hmem
  exact absurd (h 10 hmem) (by decide)

theorem takeWhile_plain {word : Bytes} (h : Plain word) {rest : Bytes}
    (hrest : rest.takeWhile (fun c => !isWhiteSpace c) = []) :
    (word ++ rest).takeWhile (fun c => !isWhiteSpace c) = word := by
  rw [List.takeWhile_append_of_pos (fun c hc => by rw [h c hc]; rfl), hrest, List.append_nil]

theorem field_zero {word : Bytes} (h : Plain word) {c : UInt8} (hc : isWhiteSpace c = true)
    (rest : Bytes) : field 0 (word ++ c :: rest) = word :=
  takeWhile_plain h (by rw [List.takeWhile_cons, hc]; rfl)

theorem field_zero_end {word : Bytes} (h : Plain word) : field 0 word = word := by
  have hend : field 0 (word ++ []) = word := takeWhile_plain h rfl
  rwa [List.append_nil] at hend

theorem field_succ {word : Bytes} (h : Plain word) {c : UInt8} (hc : isWhiteSpace c = true)
    (k : Nat) (rest : Bytes) : field (k + 1) (word ++ c :: rest) = field k rest := by
  rw [field, List.dropWhile_append_of_pos (fun c hc => by rw [h c hc]; rfl), List.dropWhile_cons,
    hc]
  rfl

theorem field_nil (k : Nat) : field k [] = [] := by
  induction k with
  | zero => rfl
  | succ k ih => exact ih

theorem field_succ_end {word : Bytes} (h : Plain word) (k : Nat) : field (k + 1) word = [] := by
  have hdrop : word.dropWhile (fun c => !isWhiteSpace c) = [] :=
    List.dropWhile_eq_nil_iff.mpr fun c hc => by rw [h c hc]; rfl
  rw [field, hdrop, List.drop_nil, field_nil]

/-- A line is cut at the end of its first word, or that word is its last. -/
theorem cut_word {word line data payload : Bytes} {c : UInt8} (h : Plain word) (hline : 10 ∉ line)
    (he : word ++ c :: data = line ++ 10 :: payload) :
    (c = 10 ∧ line = word) ∨ ∃ line', c ≠ 10 ∧ line = word ++ c :: line' ∧ 10 ∉ line' ∧
      data = line' ++ 10 :: payload := by
  rcases List.append_eq_append_iff.mp he with ⟨tail, hl, ht⟩ | ⟨tail, hw, ht⟩
  · cases tail with
    | nil =>
      left
      rw [List.nil_append, List.cons.injEq] at ht
      exact ⟨ht.1, by rw [hl, List.append_nil]⟩
    | cons d tail =>
      right
      rw [List.cons_append, List.cons.injEq] at ht
      obtain ⟨rfl, hdata⟩ := ht
      have hmem : 10 ∉ c :: tail := fun hmem => hline (hl ▸ List.mem_append_right word hmem)
      rw [List.mem_cons, not_or] at hmem
      exact ⟨tail, fun hc => hmem.1 hc.symm, hl, hmem.2, hdata⟩
  · cases tail with
    | nil =>
      left
      rw [List.nil_append, List.cons.injEq] at ht
      exact ⟨ht.1.symm, by rw [hw, List.append_nil]⟩
    | cons d tail =>
      rw [List.cons_append, List.cons.injEq] at ht
      obtain ⟨rfl, -⟩ := ht
      exact absurd (hw ▸ List.mem_append_right line List.mem_cons_self) h.not_mem_lf

/-- A line that ends where a header ends or before has its LF in the header. -/
theorem lf_mem_of_cut {header data line payload : Bytes} {c : UInt8}
    (h : header ++ c :: data = line ++ 10 :: payload) (hle : line.length ≤ header.length) :
    10 ∈ header ++ [c] := by
  have hlt : line.length < (header ++ [c]).length := by
    rw [List.length_append, List.length_singleton]
    omega
  have hbyte : (line ++ 10 :: payload)[line.length]? = some 10 := by
    rw [List.getElem?_append_right (Nat.le_refl _), Nat.sub_self]
    rfl
  have hcut : header ++ c :: data = header ++ [c] ++ data := List.append_cons header c data
  rw [← h, hcut, List.getElem?_append_left hlt] at hbyte
  exact List.mem_of_getElem? hbyte

theorem mem_noreplyWords {ends : List UInt8} : 10 ∈ noreplyWords ends ↔ 10 ∈ ends := by
  induction ends with
  | nil => exact Iff.rfl
  | cons c ends ih =>
    have hword : 10 ∉ text "noreply" := by decide
    rw [noreplyWords, List.mem_append, List.mem_cons, List.mem_cons, ih]
    exact or_iff_right hword

/-! ## Streams with a clean header -/

namespace StorageStream

variable (w : StorageStream)

theorem counted_eq (h : 0 ≤ w.declared) : (w.counted : Int) = w.declared := by
  obtain ⟨-, hlt⟩ := stoi_range w.nbytesRead
  rw [counted, sizeOfInt]
  omega

theorem value_length : w.value.length = w.token.length + w.counted := by
  have hle : w.counted ≤ w.rest.length := by
    rcases w.complete with h | h
    · rw [counted, h]
      exact Nat.zero_le _
    · exact h.le
  rw [value, List.length_append, List.length_take_of_le hle]

theorem header_eq : w.header = w.fields ++ w.afterNbytes :: noreplyWords w.noreplies := rfl

/-- The fifth word of the header. -/
theorem field_fields {tail : Bytes} (h : tail.takeWhile (fun c => !isWhiteSpace c) = []) :
    field 4 (w.fields ++ tail) = w.nbytes := by
  have hends := w.ends
  simp only [List.cons_append, List.forall_mem_cons, List.nil_append] at hends
  obtain ⟨hname, hkey, hflags, hexptime, -⟩ := hends
  have hkind : Plain w.kind.name := (storageKind_parse w.kind).1
  simp only [fields, List.append_assoc, List.cons_append]
  rw [field_succ hkind hname, field_succ w.keyPlain hkey, field_succ w.flagsPlain hflags,
    field_succ w.exptimePlain hexptime]
  exact takeWhile_plain w.nbytesPlain h

theorem lf_not_mem_fields (h : 10 ∉ [w.afterName, w.afterKey, w.afterFlags, w.afterExptime]) :
    10 ∉ w.fields := by
  have hkind : Plain w.kind.name := (storageKind_parse w.kind).1
  simp only [List.mem_cons, List.not_mem_nil, not_or] at h
  simp only [fields, List.mem_append, List.mem_cons, not_or]
  exact ⟨hkind.not_mem_lf, h.1, w.keyPlain.not_mem_lf, h.2.1, w.flagsPlain.not_mem_lf, h.2.2.1,
    w.exptimePlain.not_mem_lf, h.2.2.2.1, w.nbytesPlain.not_mem_lf⟩

theorem lf_mem_header (h : 10 ∉ w.fields) :
    10 ∈ w.header ↔ 10 ∈ w.afterNbytes :: w.noreplies := by
  rw [header_eq, List.mem_append, List.mem_cons, List.mem_cons, mem_noreplyWords]
  exact or_iff_right h

/-- The payload of a command that declares none is empty. -/
theorem payload_empty {w : StorageStream} (h : w.Clean) (hn : w.declared = 0) :
    ∃ line payload, PayloadAt w.stream w.answered w.positions w.value line payload w.declared := by
  have hends := h.ends
  have hcounted : w.counted = 0 := by
    rw [counted, hn]
    rfl
  have hvalue : w.value = [] := by
    rw [value, h.token, hcounted]
    rfl
  rw [if_pos hn] at hends
  -- The first LF is behind the fifth word, and the byte that ends the header at the latest.
  have hmem : 10 ∈ w.afterNbytes :: (noreplyWords w.noreplies ++ [w.afterToken]) := by
    simpa only [List.mem_cons, List.mem_append, mem_noreplyWords] using hends
  obtain ⟨tail, more, hcut, htail⟩ := List.eq_append_cons_of_mem hmem
  have hlen := congrArg List.length hcut
  simp only [List.length_append, List.length_cons, List.length_nil] at hlen
  have hword : tail.takeWhile (fun c => !isWhiteSpace c) = [] := by
    cases tail with
    | nil => rfl
    | cons c tail =>
      rw [List.cons_append, List.cons.injEq] at hcut
      have hc : isWhiteSpace w.afterNbytes = true := w.ends _ (by simp)
      rw [List.takeWhile_cons, ← hcut.1, hc]
      rfl
  refine ⟨w.fields ++ tail, more ++ w.rest, ?_, ?_, ?_, ?_, ?_, ?_, ?_⟩
  · have hstream : w.stream =
        w.fields ++ (w.afterNbytes :: (noreplyWords w.noreplies ++ [w.afterToken]) ++ w.rest) := by
      simp [stream, header_eq, h.token]
    rw [hstream, hcut]
    simp
  · rw [List.mem_append, not_or]
    exact ⟨w.lf_not_mem_fields h.fields, htail⟩
  · rw [answered, if_pos hcounted, header_eq, h.token]
    simp only [List.length_append, List.length_cons, List.length_nil]
    omega
  · rw [w.field_fields hword]
    exact w.nbytesRead
  · rw [hvalue, hn]
    rfl
  · rw [hvalue]
    exact List.nil_prefix
  · rw [positions, hcounted, h.token, hvalue]
    rfl

/-- The payload of a clean header is behind the header. -/
theorem payload_behind {w : StorageStream} (h : w.Clean) (hn : w.declared ≠ 0) :
    ∃ line payload, PayloadAt w.stream w.answered w.positions w.value line payload w.declared := by
  have hends := h.ends
  rw [if_neg hn] at hends
  have hcounted := w.counted_eq h.declared
  have hlf : 10 ∉ w.header := fun hmem =>
    hends.1 ((w.lf_mem_header (w.lf_not_mem_fields h.fields)).mp hmem)
  have hlen : w.value.length = w.counted := by
    rw [w.value_length, h.token]
    exact Nat.zero_add _
  refine ⟨w.header, w.rest, ?_, hlf, ?_, ?_, ?_, ?_, ?_⟩
  · rw [stream, h.token, hends.2]
    rfl
  · rw [answered]
    split <;> omega
  · rw [header_eq, w.field_fields]
    · exact w.nbytesRead
    · have hc : isWhiteSpace w.afterNbytes = true := w.ends _ (by simp)
      rw [List.takeWhile_cons, hc]
      rfl
  · rw [hlen, hcounted]
  · rw [value, h.token]
    exact List.take_prefix _ _
  · rw [positions, h.token, hlen]
    rfl

/-- A line that declares a number has the five words of the header on it. -/
theorem line_words {line payload : Bytes} {n : Int} (hcut : w.stream = line ++ 10 :: payload)
    (hline : 10 ∉ line) (hn : stoi (field 4 line) = .ok n) :
    10 ∉ [w.afterName, w.afterKey, w.afterFlags, w.afterExptime] ∧ field 4 line = w.nbytes := by
  have hends := w.ends
  simp only [List.cons_append, List.forall_mem_cons, List.nil_append] at hends
  obtain ⟨hname, hkey, hflags, hexptime, hnbytes, -⟩ := hends
  have hkind : Plain w.kind.name := (storageKind_parse w.kind).1
  -- A line that ends earlier has no fifth word, and no number is read from that.
  have hnone : stoi [] ≠ .ok n := by
    intro hok
    cases hok
  rw [w.stream_eq] at hcut
  obtain ⟨-, rfl⟩ | ⟨line₁, h₁, rfl, hline, hcut⟩ := cut_word hkind hline hcut
  · rw [field_succ_end hkind] at hn
    exact absurd hn hnone
  rw [field_succ hkind hname] at hn ⊢
  obtain ⟨-, rfl⟩ | ⟨line₂, h₂, rfl, hline, hcut⟩ := cut_word w.keyPlain hline hcut
  · rw [field_succ_end w.keyPlain] at hn
    exact absurd hn hnone
  rw [field_succ w.keyPlain hkey] at hn ⊢
  obtain ⟨-, rfl⟩ | ⟨line₃, h₃, rfl, hline, hcut⟩ := cut_word w.flagsPlain hline hcut
  · rw [field_succ_end w.flagsPlain] at hn
    exact absurd hn hnone
  rw [field_succ w.flagsPlain hflags] at hn ⊢
  obtain ⟨-, rfl⟩ | ⟨line₄, h₄, rfl, hline, hcut⟩ := cut_word w.exptimePlain hline hcut
  · rw [field_succ_end w.exptimePlain] at hn
    exact absurd hn hnone
  rw [field_succ w.exptimePlain hexptime] at hn ⊢
  refine ⟨by simp [h₁.symm, h₂.symm, h₃.symm, h₄.symm], ?_⟩
  obtain ⟨-, rfl⟩ | ⟨line₅, -, rfl, -⟩ := cut_word w.nbytesPlain hline hcut
  · exact field_zero_end w.nbytesPlain
  · exact field_zero w.nbytesPlain hnbytes line₅

theorem clean_of_payload {w : StorageStream} {line payload : Bytes} {n : Int}
    (h : PayloadAt w.stream w.answered w.positions w.value line payload n) : w.Clean := by
  obtain ⟨hfields, hword⟩ := w.line_words h.cut h.first h.declared
  have hdeclared : n = w.declared := by
    have hread := h.declared
    rw [hword, w.nbytesRead] at hread
    exact (Except.ok.inj hread).symm
  have hlength := h.length
  have hnonneg : 0 ≤ w.declared := by omega
  have hcounted := w.counted_eq hnonneg
  rw [w.value_length] at hlength
  have htoken : w.token = [] := List.eq_nil_of_length_eq_zero (by omega)
  have hstream : w.stream = w.header ++ w.afterToken :: w.rest := by
    rw [stream, htoken]
    rfl
  have hvalue : w.value.length = w.counted := by
    rw [w.value_length, htoken]
    exact Nat.zero_add _
  have hlf := w.lf_mem_header (w.lf_not_mem_fields hfields)
  have hcut := h.cut
  rw [hstream] at hcut
  refine ⟨htoken, hnonneg, hfields, ?_⟩
  split
  · next hzero =>
    -- The LF is read at the byte that ends the header at the latest.
    have hread := h.read
    rw [answered, if_pos (by omega), htoken, List.length_nil, Nat.add_zero] at hread
    have hmem : 10 ∈ w.header ++ [w.afterToken] := lf_mem_of_cut hcut hread
    rw [List.mem_append, hlf, ← List.mem_append] at hmem
    exact hmem
  · next hpos =>
    -- The payload begins behind the header, so that is where the line ends.
    have hpositions := h.positions
    obtain ⟨m, hm⟩ : ∃ m, w.counted = m + 1 := Nat.exists_eq_succ_of_ne_zero (by omega)
    rw [positions, htoken, hvalue, hm, List.length_nil, List.range'_zero, List.nil_append,
      List.range'_succ, List.range'_succ, List.cons.injEq] at hpositions
    have hlen : w.header.length = line.length := by omega
    obtain ⟨hheader, htail⟩ := List.append_inj hcut hlen
    rw [List.cons.injEq] at htail
    exact ⟨fun hmem => h.first (hheader ▸ hlf.mpr hmem), htail.1⟩

/-- The stream is put the way it is declared if and only if its header is clean. -/
theorem payload_iff : (∃ line payload n, PayloadAt w.stream w.answered w.positions w.value line
    payload n) ↔ w.Clean := by
  constructor
  · intro h
    obtain ⟨line, payload, n, hpayload⟩ := h
    exact clean_of_payload hpayload
  · intro h
    by_cases hn : w.declared = 0
    · obtain ⟨line, payload, hpayload⟩ := payload_empty h hn
      exact ⟨line, payload, _, hpayload⟩
    · obtain ⟨line, payload, hpayload⟩ := payload_behind h hn
      exact ⟨line, payload, _, hpayload⟩

end StorageStream

/-- What a fresh request executes is the declared payload if and only if the header
of its stream is clean. -/
theorem declared_iff (db : Bool) (m : Nat) (g : CommandType) {data : Bytes} {q : Request}
    {j : Nat} {positions : List Nat}
    (ha : answerAt (.fresh db m g) 0 [] data = some (q, j, positions)) (hq : q.command.Storage) :
    Declared (.fresh db m g) data q.buffer ↔ CleanHeader data := by
  constructor
  · intro h
    obtain ⟨w, rfl⟩ := exists_stream db m g ha hq
    obtain ⟨q', j', positions', line, payload, n, ha', hpayload⟩ := h
    rw [w.answerAt_stream] at ha ha'
    cases ha
    cases ha'
    exact ⟨w, rfl, w.payload_iff.mp ⟨line, payload, n, hpayload⟩⟩
  · intro h
    obtain ⟨w, rfl, hclean⟩ := h
    rw [w.answerAt_stream] at ha
    cases ha
    obtain ⟨line, payload, n, hpayload⟩ := w.payload_iff.mpr hclean
    exact ⟨_, _, _, line, payload, n, w.answerAt_stream db m g, hpayload⟩

end Quitsies.Tcp
