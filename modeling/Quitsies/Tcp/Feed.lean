import Quitsies.Db.MapStore
import Quitsies.Tcp.Answer

/-!
# Feeding a request in chunks

All progress of the parser is kept in the members of the request, so cutting its
input differently cannot change what it does. Without a byte limit `process` is
the byte loop, and the loop over two pieces of input is the loop over both
unless the first piece finished the request.
-/

namespace Quitsies.Tcp

open Text Interaction Db

/-- Call `process` on the chunks in order and stop when the status is `FINISHED`. -/
def feed (r : Request) : List Bytes → StoreProg Request
  | [] => return r
  | chunk :: chunks =>
    if r.status = .finished then return r
    else do feed (← process r chunk) chunks

/-! ## What one byte does -/

theorem onByte_whiteSpace {r : Request} {c : UInt8} (h : r.status ≠ .data)
    (hc : isWhiteSpace c = true) : onByte r c = onWhiteSpace r := by
  rw [onByte, if_neg h, if_pos hc]

theorem onByte_token {r : Request} {c : UInt8} (h : r.status ≠ .data)
    (hc : isWhiteSpace c = false) : onByte r c = .next { r with buffer := r.buffer ++ [c] } := by
  rw [onByte, if_neg h, hc]
  rfl

theorem onByte_payload {r : Request} (h : r.status = .data) (hr : 0 < r.remaining) (c : UInt8) :
    onByte r c = .next { r with remaining := r.remaining - 1, buffer := r.buffer ++ [c] } := by
  rw [onByte, if_pos h, if_pos hr]

theorem onByte_payload_end {r : Request} (h : r.status = .data) (hr : r.remaining = 0)
    (c : UInt8) : onByte r c = .respond r := by
  rw [onByte, if_pos h, if_neg (by omega)]

/-- Bytes after which the loop goes on, and the request it goes on with. -/
def scan (r : Request) : Bytes → Option Request
  | [] => some r
  | c :: data =>
    match onByte r c with
    | .next r => scan r data
    | .respond _ => none
    | .throw _ _ => none

/-- The request a turn of the loop ends with, however it ends. -/
def ByteResult.request : ByteResult → Request
  | .next r => r
  | .respond r => r
  | .throw r _ => r

/-- The members that only the constructor sets. -/
def SameConfig (r r' : Request) : Prop := r'.db = r.db ∧ r'.maxBytes = r.maxBytes

theorem pushKey_config (r : Request) (status : StatusType) :
    SameConfig r (pushKey r status).request := by
  unfold pushKey
  split <;> exact ⟨rfl, rfl⟩

theorem onWhiteSpace_config (r : Request) : SameConfig r (onWhiteSpace r).request := by
  unfold onWhiteSpace
  split
  · simp only
    split
    · exact ⟨rfl, rfl⟩
    · split <;> exact ⟨rfl, rfl⟩
  · exact pushKey_config r _
  · exact pushKey_config r _
  · split <;> exact ⟨rfl, rfl⟩
  · split <;> exact ⟨rfl, rfl⟩
  · split <;> exact ⟨rfl, rfl⟩
  · split
    · exact ⟨rfl, rfl⟩
    · split <;> exact ⟨rfl, rfl⟩
  · split
    · exact ⟨rfl, rfl⟩
    · exact pushKey_config r _
  · split
    · exact ⟨rfl, rfl⟩
    · exact pushKey_config r _
  · exact ⟨rfl, rfl⟩
  · exact ⟨rfl, rfl⟩
  · exact ⟨rfl, rfl⟩

/-- No byte changes what the constructor was given. -/
theorem onByte_config (r : Request) (c : UInt8) : SameConfig r (onByte r c).request := by
  unfold onByte
  split
  · split <;> exact ⟨rfl, rfl⟩
  · split
    · exact onWhiteSpace_config r
    · exact ⟨rfl, rfl⟩

/-- A byte after which the loop goes on leads to no status that the request
would have to have been in already, and takes no flag back. -/
structure Continues (r r' : Request) : Prop where
  config : SameConfig r r'
  finished : r'.status = .finished → r.status = .finished
  command : r'.status = .command → r.status = .command
  noReply : r.noReply = true → r'.noReply = true

theorem pushKey_next {r r' : Request} {status : StatusType} (h : pushKey r status = .next r') :
    r' = { r with keys := r.keys ++ [r.buffer], buffer := [], status := status } ∧
      r.buffer ≠ [] := by
  unfold pushKey at h
  split at h
  · cases h
  · next hb => exact ⟨(ByteResult.next.inj h).symm, fun he => hb (by simp [he])⟩

theorem statusFromCommand_ne {cmd : CommandType} {status : StatusType}
    (h : statusFromCommand cmd = .ok status) : status ≠ .command := by
  cases cmd <;> cases h <;> decide

/-- A white-space byte that does not end the request. -/
theorem onWhiteSpace_continues {r r' : Request} (h : onWhiteSpace r = .next r') :
    Continues r r' := by
  have hconfig : SameConfig r r' := by
    have hc := onWhiteSpace_config r
    rwa [h] at hc
  unfold onWhiteSpace at h
  split at h
  · next hs =>
    simp only at h
    split at h
    · cases h
    · next status hc =>
      split at h
      · cases h
      · next hf =>
        cases h
        exact ⟨hconfig, fun he => absurd he hf, fun _ => hs, id⟩
  · next hs => obtain ⟨rfl, -⟩ := pushKey_next h; exact ⟨hconfig, nofun, nofun, id⟩
  · next hs => obtain ⟨rfl, -⟩ := pushKey_next h; exact ⟨hconfig, nofun, nofun, id⟩
  · split at h <;> cases h
    exact ⟨hconfig, nofun, nofun, id⟩
  · split at h <;> cases h
    exact ⟨hconfig, nofun, nofun, id⟩
  · split at h <;> cases h
    exact ⟨hconfig, nofun, nofun, id⟩
  · split at h
    · cases h; exact ⟨hconfig, nofun, nofun, fun _ => rfl⟩
    · split at h <;> cases h
      exact ⟨hconfig, nofun, nofun, id⟩
  · split at h
    · cases h
    · obtain ⟨rfl, -⟩ := pushKey_next h; exact ⟨hconfig, id, id, id⟩
  · split at h
    · cases h
    · obtain ⟨rfl, -⟩ := pushKey_next h; exact ⟨hconfig, id, id, id⟩
  · cases h; exact ⟨hconfig, id, id, id⟩
  · cases h; exact ⟨hconfig, id, id, id⟩
  · cases h; exact ⟨hconfig, id, id, id⟩

theorem onByte_continues {r r' : Request} {c : UInt8} (h : onByte r c = .next r') :
    Continues r r' := by
  have hconfig : SameConfig r r' := by
    have hc := onByte_config r c
    rwa [h] at hc
  unfold onByte at h
  split at h
  · split at h
    · cases h; exact ⟨hconfig, id, id, id⟩
    · cases h
  · split at h
    · exact onWhiteSpace_continues h
    · cases h; exact ⟨hconfig, id, id, id⟩

theorem scan_append (r : Request) (a b : Bytes) :
    scan r (a ++ b) = (scan r a).bind fun r' => scan r' b := by
  induction a generalizing r with
  | nil => rfl
  | cons c a ih =>
    simp only [List.cons_append, scan]
    cases onByte r c with
    | next r' => exact ih r'
    | respond r' => rfl
    | throw r' what => rfl

theorem scan_continues {r r' : Request} {a : Bytes} (h : scan r a = some r') :
    Continues r r' := by
  induction a generalizing r with
  | nil => cases h; exact ⟨⟨rfl, rfl⟩, id, id, id⟩
  | cons c a ih =>
    simp only [scan] at h
    cases hc : onByte r c with
    | next r₁ =>
      have h₁ := onByte_continues hc
      have h₂ := ih (by simpa only [hc] using h)
      exact ⟨⟨h₂.config.1.trans h₁.config.1, h₂.config.2.trans h₁.config.2⟩,
        fun he => h₁.finished (h₂.finished he), fun he => h₁.command (h₂.command he),
        fun he => h₂.noReply (h₁.noReply he)⟩
    | respond r₁ => simp only [hc] at h; cases h
    | throw r₁ what => simp only [hc] at h; cases h

theorem loop_of_scan {r r' : Request} {a : Bytes} (h : scan r a = some r') (b : Bytes) :
    loop r (a ++ b) = loop r' b := by
  induction a generalizing r with
  | nil => cases h; rfl
  | cons c a ih =>
    simp only [scan] at h
    simp only [List.cons_append, loop]
    cases hc : onByte r c with
    | next r₁ => exact ih (by simpa only [hc] using h)
    | respond r₁ => simp only [hc] at h; cases h
    | throw r₁ what => simp only [hc] at h; cases h

/-- Input the loop goes through without an answer makes no call. -/
theorem loop_scanned {r r' : Request} {a : Bytes} (h : scan r a = some r') :
    loop r a = .done r' := by
  have h' := loop_of_scan h []
  rwa [List.append_nil] at h'

/-! ## The loop over two pieces of input -/

/-- The rest of the loop after a first piece of input: nothing when that piece
finished the request. -/
def resume (b : Bytes) (r : Request) : StoreProg Request :=
  if r.status = .finished then return r else loop r b

theorem resume_finished {r : Request} (h : r.status = .finished) (b : Bytes) :
    resume b r = .done r := by
  rw [resume, if_pos h]; rfl

theorem resume_going {r : Request} (h : r.status ≠ .finished) (b : Bytes) :
    resume b r = loop r b := if_neg h

/-- **Splitting the loop.** -/
theorem loop_append {r : Request} (h : r.status ≠ .finished) (a b : Bytes) :
    loop r (a ++ b) = loop r a >>= resume b := by
  induction a generalizing r with
  | nil => exact (resume_going h b).symm
  | cons c a ih =>
    simp only [List.cons_append, loop]
    cases hc : onByte r c with
    | next r' => exact ih fun he => h ((onByte_continues hc).finished he)
    | respond r' =>
      simp only
      conv_lhs => rw [← Prog.bind_done (prepareResponse r')]
      exact (prepareResponse_finished r').bind_congr fun r'' h'' => (resume_finished h'' b).symm
    | throw r' what => exact (resume_finished rfl b).symm

/-- The byte limit is the same afterwards, whatever the store does. -/
theorem loop_config (r : Request) (a : Bytes) : (loop r a).Returns (SameConfig r) := by
  induction a generalizing r with
  | nil => exact ⟨rfl, rfl⟩
  | cons c a ih =>
    have hc := onByte_config r c
    simp only [loop]
    cases h : onByte r c with
    | next r' =>
      rw [h] at hc
      exact (ih r').mono fun _ h' => ⟨h'.1.trans hc.1, h'.2.trans hc.2⟩
    | respond r' =>
      rw [h] at hc
      refine (prepareResponse_returns r').mono ?_
      intro _ hanswered
      obtain ⟨response, rfl⟩ := hanswered
      exact hc
    | throw r' what => rw [h] at hc; exact hc

/-! ## Chunks -/

theorem process_unlimited {r : Request} (h : r.maxBytes = 0) (data : Bytes) :
    process r data = loop r data := by
  simp [process, Request.exceeds, h]

/-- Without a byte limit, feeding chunks is one byte loop over all of them. -/
theorem feed_eq_resume {r : Request} (h : r.maxBytes = 0) (chunks : List Bytes) :
    feed r chunks = resume chunks.flatten r := by
  induction chunks generalizing r with
  | nil =>
    simp only [feed, List.flatten_nil, resume, loop]
    split <;> rfl
  | cons chunk chunks ih =>
    by_cases hf : r.status = .finished
    · rw [feed, if_pos hf, resume_finished hf]; rfl
    · rw [feed, if_neg hf, process_unlimited h, resume_going hf, List.flatten_cons,
        loop_append hf]
      exact (loop_config r chunk).bind_congr fun r' hr' => ih (hr'.2.trans h)

theorem feed_fresh (db : Bool) (command : CommandType) (chunks : List Bytes) :
    feed (.fresh db 0 command) chunks = loop (.fresh db 0 command) chunks.flatten := by
  rw [feed_eq_resume rfl, resume_going (by simp [Request.fresh])]

/-! ## The command the constructor leaves unset -/

/-- Until a command has been parsed, what `_command` holds is carried along and
read by nothing; from then on it makes no difference. -/
theorem loop_command {r : Request} (h : r.status = .command) (command : CommandType)
    (data : Bytes) :
    (∃ buffer, loop r data = .done { r with buffer := buffer } ∧
      loop { r with command := command } data =
        .done { r with command := command, buffer := buffer }) ∨
    loop { r with command := command } data = loop r data := by
  induction data generalizing r with
  | nil => exact .inl ⟨r.buffer, rfl, rfl⟩
  | cons c data ih =>
    have hdata : r.status ≠ .data := by rw [h]; decide
    have hdata' : ({ r with command := command } : Request).status ≠ .data := hdata
    cases hw : isWhiteSpace c with
    | true =>
      right
      have he : onWhiteSpace { r with command := command } = onWhiteSpace r := by
        simp only [onWhiteSpace, h]
      simp only [loop, onByte_whiteSpace hdata hw, onByte_whiteSpace hdata' hw, he]
    | false =>
      simp only [loop, onByte_token hdata hw, onByte_token hdata' hw]
      exact ih (r := { r with buffer := r.buffer ++ [c] }) h

/-- **Parsing does not depend on how a request is split.** Two ways of cutting the
same bytes, fed to fresh requests whose `_command` is anything, end in the same
members and the same calls of any store; `_command` agrees once it was parsed. -/
theorem parse_independent_of_split (db : Bool) (command command' : CommandType)
    (chunks chunks' : List Bytes) (h : chunks.flatten = chunks'.flatten) {σ : Type}
    (store : σ → (c : StoreCall) → StoreResult c × σ) (s : σ) :
    let one := (feed (.fresh db 0 command) chunks).runWith store s
    let other := (feed (.fresh db 0 command') chunks').runWith store s
    { one.1 with command := .none } = { other.1 with command := .none } ∧
      (one.1.status ≠ .command → one.1.command = other.1.command) ∧
      one.2 = other.2 := by
  rw [feed_fresh, feed_fresh, h]
  rcases loop_command (r := .fresh db 0 command) rfl command' chunks'.flatten with
    ⟨buffer, h₁, h₂⟩ | he
  · have h₂' : loop (.fresh db 0 command') chunks'.flatten = _ := h₂
    rw [h₁, h₂']
    exact ⟨rfl, fun hs => absurd rfl hs, rfl⟩
  · have he' : loop (.fresh db 0 command') chunks'.flatten = _ := he
    rw [he']
    exact ⟨rfl, fun _ => rfl, rfl⟩

/-- A deletion cut inside its name, against the same bytes cut at its spaces. -/
theorem parse_independent_of_split_delete :
    let one := (feed (.fresh true 0 .none) [text "del", [], text "ete k\r\n"]).runWith mapStore
      fun _ => none
    let other := (feed (.fresh true 0 .quit) [text "delete ", text "k\r", text "\n"]).runWith
      mapStore fun _ => none
    { one.1 with command := .none } = { other.1 with command := .none } ∧
      (one.1.status ≠ .command → one.1.command = other.1.command) ∧
      one.2 = other.2 :=
  parse_independent_of_split true .none .quit _ _ (by decide) mapStore fun _ => none

end Quitsies.Tcp
