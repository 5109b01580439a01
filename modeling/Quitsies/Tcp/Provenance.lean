import Quitsies.Tcp.Invariant
import Quitsies.Tcp.RoundTrip

/-!
# Where the bytes of the buffer come from

The byte loop once more, over a stream whose bytes have positions. What is in the
buffer when the loop answers is known by the positions it was read at, so that two
bytes of the stream that look alike are told apart.
-/

namespace Quitsies.Tcp

open Text Interaction Db

/-- The positions of the bytes in the buffer after the byte at `i`: one that was
appended was read there, and what was cleared is gone. -/
def track (r r' : Request) (i : Nat) (positions : List Nat) : List Nat :=
  if r.buffer.length < r'.buffer.length then positions ++ [i]
  else positions.take r'.buffer.length

/-- The byte loop from position `i`, up to the byte it answers at: the request that
is answered, the position of that byte, and those of the bytes in the buffer. -/
def answerAt (r : Request) (i : Nat) (positions : List Nat) :
    Bytes → Option (Request × Nat × List Nat)
  | [] => none
  | c :: data =>
    match onByte r c with
    | .next r' => answerAt r' (i + 1) (track r r' i positions) data
    | .respond q => some (q, i, track r q i positions)
    | .throw _ _ => none

/-- The store is called for the request the loop answers. -/
theorem loop_answerAt {r r' : Request} (i : Nat) (positions : List Nat) {data : Bytes}
    {events : List StoreEvent} (h : (loop r data).Performs events r') :
    events = [] ∨ ∃ q j positions', answerAt r i positions data = some (q, j, positions') ∧
      (prepareResponse q).Performs events r' := by
  induction data generalizing r i positions with
  | nil => exact .inl (Prog.performs_done.mp h).1
  | cons c data ih =>
    simp only [loop] at h
    cases hc : onByte r c with
    | next r₁ =>
      simp only [answerAt, hc]
      exact ih _ _ (by simpa only [hc] using h)
    | respond q =>
      simp only [answerAt, hc]
      exact .inr ⟨q, i, _, rfl, by simpa only [hc] using h⟩
    | throw r₁ what =>
      simp only [hc] at h
      exact .inl (Prog.performs_done.mp h).1

/-! ## Positions -/

section Track

variable {r : Request} {i : Nat} {positions : List Nat}

theorem track_append (c : UInt8) (r' : Request) (h : r'.buffer = r.buffer ++ [c]) :
    track r r' i positions = positions ++ [i] := by
  have hlen : r.buffer.length < r'.buffer.length := by
    rw [h, List.length_append]
    exact Nat.lt_succ_self _
  rw [track, if_pos hlen]

theorem track_clear {r' : Request} (h : r'.buffer = []) : track r r' i positions = [] := by
  have hlen : ¬ r.buffer.length < r'.buffer.length := by
    rw [h]
    exact Nat.not_lt_zero _
  rw [track, if_neg hlen, h]
  rfl

theorem track_keep {r' : Request} (h : r'.buffer = r.buffer)
    (hp : positions.length = r.buffer.length) : track r r' i positions = positions := by
  rw [track, h, if_neg (Nat.lt_irrefl _), ← hp, List.take_length]

end Track

/-- One byte is appended to the buffer, or the buffer is cleared or left alone. -/
def Buffered (r r' : Request) (c : UInt8) : Prop :=
  r'.buffer = r.buffer ++ [c] ∨ r'.buffer = [] ∨ r'.buffer = r.buffer

theorem pushKey_buffered (r : Request) (status : StatusType) (c : UInt8) :
    Buffered r (pushKey r status).request c := by
  unfold pushKey
  split
  · exact .inr (.inr rfl)
  · exact .inr (.inl rfl)

theorem onWhiteSpace_buffered (r : Request) (c : UInt8) :
    Buffered r (onWhiteSpace r).request c := by
  unfold onWhiteSpace
  split
  · simp only
    split
    · exact .inr (.inl rfl)
    · split <;> exact .inr (.inl rfl)
  · exact pushKey_buffered r _ c
  · exact pushKey_buffered r _ c
  · split
    · exact .inr (.inr rfl)
    · exact .inr (.inl rfl)
  · split
    · exact .inr (.inr rfl)
    · exact .inr (.inl rfl)
  · split
    · exact .inr (.inr rfl)
    · exact .inr (.inl rfl)
  · split
    · exact .inr (.inl rfl)
    · split <;> exact .inr (.inr rfl)
  · split
    · exact .inr (.inr rfl)
    · exact pushKey_buffered r _ c
  · split
    · exact .inr (.inr rfl)
    · exact pushKey_buffered r _ c
  · exact .inr (.inr rfl)
  · exact .inr (.inr rfl)
  · exact .inr (.inr rfl)

theorem onByte_buffered (r : Request) (c : UInt8) : Buffered r (onByte r c).request c := by
  unfold onByte
  split
  · split
    · exact .inl rfl
    · exact .inr (.inr rfl)
  · split
    · exact onWhiteSpace_buffered r c
    · exact .inl rfl

/-- The bytes of the buffer are the ones at their positions. -/
def ReadAt (all : Bytes) (r : Request) (positions : List Nat) : Prop :=
  positions.map (fun p => all[p]?) = r.buffer.map some

theorem ReadAt.length {all : Bytes} {r : Request} {positions : List Nat}
    (h : ReadAt all r positions) : positions.length = r.buffer.length := by
  simpa using congrArg List.length h

theorem ReadAt.track {all : Bytes} {r r' : Request} {c : UInt8} {i : Nat} {positions : List Nat}
    (h : ReadAt all r positions) (hc : all[i]? = some c) (hb : Buffered r r' c) :
    ReadAt all r' (track r r' i positions) := by
  rcases hb with hb | hb | hb
  · rw [track_append c r' hb, ReadAt, hb, List.map_append, List.map_append, h]
    simp [hc]
  · rw [track_clear hb, ReadAt, hb]
    rfl
  · rw [track_keep hb h.length, ReadAt, hb]
    exact h

/-- Where the loop answers, its positions are in the stream and hold its buffer. -/
theorem answerAt_read {all : Bytes} {r q : Request} {i j : Nat} {positions positions' : List Nat}
    {data : Bytes} (hall : all.drop i = data) (h : ReadAt all r positions)
    (ha : answerAt r i positions data = some (q, j, positions')) :
    ReadAt all q positions' ∧ j < all.length := by
  induction data generalizing r i positions with
  | nil => cases ha
  | cons c data ih =>
    have hlt : i < all.length := by
      have hlen := congrArg List.length hall
      rw [List.length_drop, List.length_cons] at hlen
      omega
    have hc : all[i]? = some c := by
      rw [← List.head?_drop, hall, List.head?_cons]
    have hrest : all.drop (i + 1) = data := by
      rw [← List.tail_drop, hall, List.tail_cons]
    have hb := onByte_buffered r c
    simp only [answerAt] at ha
    cases he : onByte r c with
    | next r₁ =>
      simp only [he, ByteResult.request] at ha hb
      exact ih hrest (h.track hc hb) ha
    | respond q' =>
      simp only [he, ByteResult.request, Option.some.injEq, Prod.mk.injEq] at ha hb
      obtain ⟨rfl, rfl, rfl⟩ := ha
      exact ⟨h.track hc hb, hlt⟩
    | throw r₁ what => simp only [he] at ha; cases ha

/-! ## The command -/

theorem pushKey_command (r : Request) (status : StatusType) :
    (pushKey r status).request.command = r.command := by
  unfold pushKey
  split <;> rfl

/-- Only the first word of a request sets the command. -/
theorem onWhiteSpace_command {r : Request} (h : r.status ≠ .command) :
    (onWhiteSpace r).request.command = r.command := by
  unfold onWhiteSpace
  split
  · next hs => exact absurd hs h
  · exact pushKey_command r _
  · exact pushKey_command r _
  · split <;> rfl
  · split <;> rfl
  · split <;> rfl
  · split
    · rfl
    · split <;> rfl
  · split
    · rfl
    · exact pushKey_command r _
  · split
    · rfl
    · exact pushKey_command r _
  · rfl
  · rfl
  · rfl

theorem onByte_command {r : Request} (h : r.status ≠ .command) (c : UInt8) :
    (onByte r c).request.command = r.command := by
  unfold onByte
  split
  · split <;> rfl
  · split
    · exact onWhiteSpace_command h
    · rfl

theorem answerAt_command {r q : Request} {i j : Nat} {positions positions' : List Nat}
    {data : Bytes} (h : r.status ≠ .command)
    (ha : answerAt r i positions data = some (q, j, positions')) : q.command = r.command := by
  induction data generalizing r i positions with
  | nil => cases ha
  | cons c data ih =>
    have hcommand := onByte_command h c
    simp only [answerAt] at ha
    cases hc : onByte r c with
    | next r₁ =>
      simp only [hc, ByteResult.request] at ha hcommand
      have h₁ : r₁.status ≠ .command := fun he => h ((onByte_continues hc).command he)
      exact (ih h₁ ha).trans hcommand
    | respond q' =>
      simp only [hc, ByteResult.request, Option.some.injEq, Prod.mk.injEq] at ha hcommand
      rw [← ha.1, hcommand]
    | throw r₁ what => simp only [hc] at ha; cases ha

/-! ## Words and payloads -/

section Pieces

variable {r : Request} {i : Nat} {positions : List Nat}

theorem range_cons (positions : List Nat) (i n : Nat) :
    positions ++ [i] ++ List.range' (i + 1) n = positions ++ List.range' i (n + 1) := by
  rw [List.append_assoc, List.range'_succ]
  rfl

/-- A word goes into the buffer, byte by byte. -/
theorem answerAt_word (h : r.status ≠ .data) {word : Bytes} (hw : Plain word) (data : Bytes) :
    answerAt r i positions (word ++ data) =
      answerAt { r with buffer := r.buffer ++ word } (i + word.length)
        (positions ++ List.range' i word.length) data := by
  induction word generalizing r i positions with
  | nil => simp
  | cons c word ih =>
    have h' : ({ r with buffer := r.buffer ++ [c] } : Request).status ≠ .data := h
    obtain ⟨hc, hword⟩ := List.forall_mem_cons.mp hw
    rw [List.cons_append, answerAt, onByte_token h hc]
    simp only
    rw [track_append c _ rfl, ih h' hword, List.length_cons, range_cons, Nat.add_assoc,
      Nat.add_comm 1, List.append_assoc]
    rfl

theorem answerAt_whiteSpace (h : r.status ≠ .data) {c : UInt8} (hc : isWhiteSpace c = true)
    (data : Bytes) :
    answerAt r i positions (c :: data) =
      match onWhiteSpace r with
      | .next r' => answerAt r' (i + 1) (track r r' i positions) data
      | .respond q => some (q, i, track r q i positions)
      | .throw _ _ => none := by
  rw [answerAt, onByte_whiteSpace h hc]

/-- Payload bytes go into the buffer, whatever they are. -/
theorem answerAt_payload (h : r.status = .data) {payload : Bytes}
    (hlen : payload.length ≤ r.remaining) (data : Bytes) :
    answerAt r i positions (payload ++ data) =
      answerAt { r with
          remaining := r.remaining - payload.length
          buffer := r.buffer ++ payload } (i + payload.length)
        (positions ++ List.range' i payload.length) data := by
  induction payload generalizing r i positions with
  | nil => simp
  | cons c payload ih =>
    rw [List.length_cons] at hlen
    let r' : Request := { r with remaining := r.remaining - 1, buffer := r.buffer ++ [c] }
    have hlen' : payload.length ≤ r'.remaining := by
      show payload.length ≤ r.remaining - 1
      omega
    have hremaining : r.remaining - 1 - payload.length = r.remaining - (payload.length + 1) := by
      omega
    rw [List.cons_append, answerAt, onByte_payload h (by omega) c]
    simp only
    rw [track_append c r' rfl, ih (r := r') h hlen', List.length_cons, range_cons, Nat.add_assoc,
      Nat.add_comm 1]
    simp only [r', hremaining, List.append_assoc, List.singleton_append]

theorem answerAt_payload_end (h : r.status = .data) (hr : r.remaining = 0)
    (hp : positions.length = r.buffer.length) (c : UInt8) (data : Bytes) :
    answerAt r i positions (c :: data) = some (r, i, positions) := by
  rw [answerAt, onByte_payload_end h hr]
  simp only
  rw [track_keep rfl hp]

/-- A field of a header line and the white space after it. -/
theorem answerAt_field {r' : Request} (h : r.status ≠ .data) (hb : r.buffer = []) {word : Bytes}
    (hw : Plain word) {c : UInt8} (hc : isWhiteSpace c = true)
    (he : onWhiteSpace { r with buffer := word } = .next r') (hb' : r'.buffer = []) (data : Bytes) :
    answerAt r i [] (word ++ c :: data) = answerAt r' (i + word.length + 1) [] data := by
  have hr : ({ r with buffer := word } : Request).status ≠ .data := h
  rw [answerAt_word h hw, hb, List.nil_append, answerAt_whiteSpace hr hc, he]
  simp only
  rw [track_clear hb']

/-- Every stream begins with a word, and white space ends it or nothing does. -/
theorem plain_or_field (data : Bytes) :
    Plain data ∨ ∃ word c rest, data = word ++ c :: rest ∧ Plain word ∧ isWhiteSpace c = true := by
  induction data with
  | nil => exact .inl plain_nil
  | cons c data ih =>
    cases hc : isWhiteSpace c with
    | true => exact .inr ⟨[], c, data, rfl, plain_nil, hc⟩
    | false =>
      rcases ih with hplain | ⟨word, d, rest, rfl, hword, hd⟩
      · exact .inl (List.forall_mem_cons.mpr ⟨hc, hplain⟩)
      · exact .inr ⟨c :: word, d, rest, rfl, List.forall_mem_cons.mpr ⟨hc, hword⟩, hd⟩

/-- Where the loop answers, the field it was in has ended. -/
theorem answerAt_field_inv {x : Request × Nat × List Nat} (h : r.status ≠ .data)
    (hb : r.buffer = []) {data : Bytes} (ha : answerAt r i [] data = some x) :
    ∃ word c rest, data = word ++ c :: rest ∧ Plain word ∧ isWhiteSpace c = true ∧
      ((∃ q, onWhiteSpace { r with buffer := word } = .respond q ∧
          x = (q, i + word.length, track { r with buffer := word } q (i + word.length)
            (List.range' i word.length))) ∨
        ∃ r', onWhiteSpace { r with buffer := word } = .next r' ∧
          answerAt r' (i + word.length + 1)
            (track { r with buffer := word } r' (i + word.length) (List.range' i word.length))
            rest = some x) := by
  rcases plain_or_field data with hplain | ⟨word, c, rest, rfl, hword, hc⟩
  · rw [← List.append_nil data, answerAt_word h hplain] at ha
    cases ha
  · refine ⟨word, c, rest, rfl, hword, hc, ?_⟩
    have hr : ({ r with buffer := word } : Request).status ≠ .data := h
    rw [answerAt_word h hword, hb, List.nil_append, List.nil_append,
      answerAt_whiteSpace hr hc] at ha
    cases he : onWhiteSpace { r with buffer := word } with
    | next r' => exact .inr ⟨r', rfl, by simpa only [he] using ha⟩
    | respond q =>
      simp only [he, Option.some.injEq] at ha
      exact .inl ⟨q, rfl, ha.symm⟩
    | throw r' what => simp only [he] at ha; cases ha

end Pieces

end Quitsies.Tcp
