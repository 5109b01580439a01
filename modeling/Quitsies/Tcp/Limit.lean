import Quitsies.Tcp.Feed

/-!
# Feeding under a byte limit

With a limit every call of `process` checks the size of its chunk before it looks
at the first byte. A request whose chunks all pass is the byte loop over what they
carry; one whose chunk does not pass is rejected there, and what was read of it
before has made no call of the store.
-/

namespace Quitsies.Tcp

open Text Interaction Db

def sizeExceeded : Bytes := text "request size exceeded max bytes"

/-- Whether the size check passes on every chunk, up to the one that ends the request. -/
def admits (r : Request) : List Bytes → Bool
  | [] => true
  | chunk :: chunks =>
    !r.exceeds chunk.length && match scan r chunk with
      | none => true
      | some r' => admits r' chunks

theorem admits_cons {r : Request} {chunk : Bytes} {chunks : List Bytes} :
    admits r (chunk :: chunks) = true ↔ r.exceeds chunk.length = false ∧
      ∀ r', scan r chunk = some r' → admits r' chunks = true := by
  simp only [admits, Bool.and_eq_true, Bool.not_eq_true']
  apply and_congr_right
  intro _
  cases scan r chunk with
  | none =>
    refine ⟨fun _ r' he => ?_, fun _ => rfl⟩
    cases he
  | some r' =>
    refine ⟨fun h r'' he => ?_, fun h => h r' rfl⟩
    obtain rfl := Option.some.inj he
    exact h

theorem process_refused {r : Request} {data : Bytes} (h : r.exceeds data.length = true) :
    process r data = .done (r.rejected sizeExceeded) := by
  rw [process, if_pos h, sizeExceeded, Prog.pure_eq_done]

theorem process_admitted {r : Request} {data : Bytes} (h : r.exceeds data.length = false) :
    process r data = loop r data := by
  rw [process, h]
  rfl

@[simp] theorem rejected_status (r : Request) (what : Bytes) :
    (r.rejected what).status = .finished := rfl

/-! ## Input that ends the request -/

/-- The loop over input that it does not go through ends answered or rejected. -/
theorem loop_stopped {r : Request} {a : Bytes} (h : scan r a = none) :
    (loop r a).Returns fun q => q.status = .finished := by
  induction a generalizing r with
  | nil => cases h
  | cons c a ih =>
    simp only [scan] at h
    simp only [loop]
    cases hc : onByte r c with
    | next r' => exact ih (by simpa only [hc] using h)
    | respond r' => exact prepareResponse_finished r'
    | throw r' what => exact rejected_status r' what

/-- What comes after such input is not looked at. -/
theorem loop_stopped_append {r : Request} (hr : r.status ≠ .finished) {a : Bytes}
    (h : scan r a = none) (b : Bytes) : loop r (a ++ b) = loop r a := by
  rw [loop_append hr]
  conv_rhs => rw [← Prog.bind_done (loop r a)]
  exact (loop_stopped h).bind_congr fun q hq => resume_finished hq b

/-- A request that has read nothing is not finished. -/
theorem fresh_going (db : Bool) (m : Nat) (g : CommandType) :
    (Request.fresh db m g).status ≠ .finished := by
  simp [Request.fresh]

theorem feed_finished {r : Request} (h : r.status = .finished) (chunks : List Bytes) :
    feed r chunks = .done r := by
  cases chunks with
  | nil => rfl
  | cons chunk chunks => rw [feed, if_pos h]; rfl

theorem scan_going {r r' : Request} (h : r.status ≠ .finished) {a : Bytes}
    (hscan : scan r a = some r') : r'.status ≠ .finished :=
  fun hf => h ((scan_continues hscan).finished hf)

/-! ## Chunks -/

/-- **Within the limit**, feeding chunks is one byte loop over all of them. -/
theorem feed_admitted {r : Request} (h : r.status ≠ .finished) {chunks : List Bytes}
    (ha : admits r chunks = true) : feed r chunks = loop r chunks.flatten := by
  induction chunks generalizing r with
  | nil => rfl
  | cons chunk chunks ih =>
    obtain ⟨hx, hrest⟩ := admits_cons.mp ha
    rw [feed, if_neg h, process_admitted hx, List.flatten_cons]
    cases hscan : scan r chunk with
    | none =>
      rw [loop_stopped_append h hscan]
      conv_rhs => rw [← Prog.bind_done (loop r chunk)]
      exact (loop_stopped hscan).bind_congr fun q hq => feed_finished hq chunks
    | some r' =>
      rw [loop_scanned hscan, loop_of_scan hscan, Prog.done_bind]
      exact ih (scan_going h hscan) (hrest r' hscan)

/-- **Over the limit**, the request is rejected in the state it was read to. -/
theorem feed_refused {r : Request} (h : r.status ≠ .finished) {chunks : List Bytes}
    (ha : admits r chunks = false) :
    ∃ p r', p <+: chunks.flatten ∧ scan r p = some r' ∧
      feed r chunks = .done (r'.rejected sizeExceeded) := by
  induction chunks generalizing r with
  | nil => cases ha
  | cons chunk chunks ih =>
    rw [feed, if_neg h]
    cases hx : r.exceeds chunk.length with
    | true =>
      refine ⟨[], r, List.nil_prefix, rfl, ?_⟩
      rw [process_refused hx, Prog.done_bind]
      exact feed_finished (rejected_status r sizeExceeded) chunks
    | false =>
      rw [admits, hx] at ha
      cases hscan : scan r chunk with
      | none =>
        rw [hscan] at ha
        cases ha
      | some r' =>
        rw [hscan] at ha
        obtain ⟨p, q, hp, hq, hfeed⟩ := ih (scan_going h hscan) ha
        refine ⟨chunk ++ p, q, ?_, ?_, ?_⟩
        · rw [List.flatten_cons]
          exact (List.prefix_append_right_inj chunk).mpr hp
        · rw [scan_append, hscan]
          exact hq
        · rw [process_admitted hx, loop_scanned hscan, Prog.done_bind]
          exact hfeed

theorem admits_unlimited {r : Request} (h : r.maxBytes = 0) (chunks : List Bytes) :
    admits r chunks = true := by
  induction chunks generalizing r with
  | nil => rfl
  | cons chunk chunks ih =>
    apply admits_cons.mpr
    refine ⟨by simp [Request.exceeds, h], fun r' hscan => ih ?_⟩
    exact (scan_continues hscan).config.2.trans h

/-- A request whose bytes end it is finished by its chunks, whatever the limit. -/
theorem feed_finishes {r : Request} (h : r.status ≠ .finished) {chunks : List Bytes}
    (hscan : scan r chunks.flatten = none) :
    (feed r chunks).Returns fun q => q.status = .finished := by
  cases ha : admits r chunks with
  | true =>
    rw [feed_admitted h ha]
    exact loop_stopped hscan
  | false =>
    obtain ⟨p, r', -, -, hfeed⟩ := feed_refused h ha
    rw [hfeed]
    exact rejected_status r' sizeExceeded

end Quitsies.Tcp
