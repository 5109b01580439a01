import Quitsies.Tcp.Invariant
import Quitsies.Tcp.Limit
import Quitsies.Tcp.Rejection
import Quitsies.Tcp.Residue
import Quitsies.Text.Numeral

/-!
# The byte limit

The size check adds the chunk at hand to what the buffer holds, which is one token
or the payload and not the request so far. As a limit on the request it comes too
late wherever a token has been taken out of the buffer, and one byte too early where
none has.
-/

namespace Quitsies.Tcp

open Text Interaction Db WellFormed

/-- What a rejection for its size tells the client. -/
def oversizeAnswer : Bytes := clientErrorLine sizeExceeded

section Limit

variable (db : Bool) (m : Nat) (g : CommandType)

/-- Some chunk of those comes to `m` bytes with the token or the payload before it. -/
def Caught (chunks : List Bytes) : Prop :=
  ∃ pre chunk post r, chunks = pre ++ chunk :: post ∧
    scan (.fresh db m g) pre.flatten = some r ∧ m ≤ chunk.length + r.buffer.length

end Limit

/-! ## The verdict of the size check -/

theorem pushKey_throw {r q : Request} {status : StatusType} {what : Bytes}
    (h : pushKey r status = .throw q what) : what = text "invalid key" := by
  unfold pushKey at h
  split at h
  · cases h
    rfl
  · cases h

theorem statusFromCommand_error {cmd : CommandType} {what : Bytes}
    (h : statusFromCommand cmd = .error what) : what = text "unsupported command" := by
  cases cmd <;> cases h
  rfl

/-- The texts of the exceptions that a byte can raise. -/
def ParseError (what : Bytes) : Prop :=
  what = text "invalid key" ∨ what = text "stoi" ∨ what = text "unsupported command"

theorem onNumber_throw {r q : Request} {what : Bytes} (h : onWhiteSpace r = .throw q what)
    (hs : r.status = .flags ∨ r.status = .exptime ∨ r.status = .nbytes) : what = text "stoi" := by
  cases hread : stoi r.buffer with
  | ok v => rcases hs with hs | hs | hs <;> simp only [onWhiteSpace, hs, hread] at h <;> cases h
  | error what' =>
    obtain rfl := stoi_error hread
    rcases hs with hs | hs | hs <;> simp only [onWhiteSpace, hs, hread] at h <;> cases h <;> rfl

theorem onWhiteSpace_throw {r q : Request} {what : Bytes} (h : onWhiteSpace r = .throw q what) :
    ParseError what := by
  have hthrow := h
  cases hs : r.status <;> simp only [onWhiteSpace, hs] at h
  case command =>
    split at h
    · next hc =>
      cases h
      exact .inr (.inr (statusFromCommand_error hc))
    · split at h <;> cases h
  case deleteKey => exact .inl (pushKey_throw h)
  case storageKey => exact .inl (pushKey_throw h)
  case flags => exact .inr (.inl (onNumber_throw hthrow (.inl hs)))
  case exptime => exact .inr (.inl (onNumber_throw hthrow (.inr (.inl hs))))
  case nbytes => exact .inr (.inl (onNumber_throw hthrow (.inr (.inr hs))))
  case norep =>
    split at h
    · cases h
    · split at h <;> cases h
  case retrievalKey =>
    split at h
    · cases h
    · exact .inl (pushKey_throw h)
  case retrievalKeys =>
    split at h
    · cases h
    · exact .inl (pushKey_throw h)
  all_goals cases h

theorem onByte_throw {r q : Request} {c : UInt8} {what : Bytes} (h : onByte r c = .throw q what) :
    ParseError what := by
  by_cases hdata : r.status = .data
  · by_cases hpos : 0 < r.remaining
    · rw [onByte_payload hdata hpos] at h
      cases h
    · rw [onByte_payload_end hdata (Nat.eq_zero_of_not_pos hpos)] at h
      cases h
  · cases hc : isWhiteSpace c with
    | true =>
      rw [onByte_whiteSpace hdata hc] at h
      exact onWhiteSpace_throw h
    | false =>
      rw [onByte_token hdata hc] at h
      cases h

/-- The check fails on a chunk that the request comes to. -/
theorem admits_false_iff {r : Request} {chunks : List Bytes} (hm : 0 < r.maxBytes) :
    admits r chunks = false ↔ ∃ pre chunk post r', chunks = pre ++ chunk :: post ∧
      scan r pre.flatten = some r' ∧ r.maxBytes ≤ chunk.length + r'.buffer.length := by
  induction chunks generalizing r with
  | nil =>
    refine iff_of_false (fun h => nomatch h) ?_
    intro h
    obtain ⟨pre, chunk, post, -, hchunks, -⟩ := h
    exact absurd hchunks.symm (by simp)
  | cons chunk chunks ih =>
    constructor
    · intro h
      cases hx : r.exceeds chunk.length with
      | true =>
        simp only [Request.exceeds, Bool.and_eq_true, decide_eq_true_eq] at hx
        exact ⟨[], chunk, chunks, r, rfl, rfl, hx.2⟩
      | false =>
        rw [admits, hx] at h
        cases hscan : scan r chunk with
        | none => rw [hscan] at h; cases h
        | some r₁ =>
          rw [hscan] at h
          have hconfig := (scan_continues hscan).config.2
          obtain ⟨pre, next, post, r', rfl, hpre, hle⟩ := (ih (by omega)).mp h
          refine ⟨chunk :: pre, next, post, r', rfl, ?_, by omega⟩
          rw [List.flatten_cons, scan_trans hscan, hpre]
    · intro h
      obtain ⟨pre, next, post, r', hchunks, hpre, hle⟩ := h
      cases pre with
      | nil =>
        rw [List.nil_append, List.cons.injEq] at hchunks
        cases hpre
        have hx : r.exceeds chunk.length = true := by
          simp only [Request.exceeds, Bool.and_eq_true, decide_eq_true_eq, hchunks.1]
          exact ⟨hm, hle⟩
        rw [admits, hx]
        rfl
      | cons first pre =>
        rw [List.cons_append, List.cons.injEq] at hchunks
        obtain ⟨rfl, rfl⟩ := hchunks
        rw [List.flatten_cons, scan_append] at hpre
        obtain ⟨r₁, hfirst, hrest⟩ := Option.bind_eq_some_iff.mp hpre
        have hconfig := (scan_continues hfirst).config.2
        have h₁ := (ih (r := r₁) (by omega)).mpr ⟨pre, next, post, r', rfl, hrest, by omega⟩
        rw [admits, hfirst]
        simp only [h₁, Bool.and_false]

section Verdict

variable {db : Bool} {m : Nat} {g : CommandType} {chunks : List Bytes}

theorem caught_iff (hm : 0 < m) :
    Caught db m g chunks ↔ admits (.fresh db m g) chunks = false :=
  (admits_false_iff (r := .fresh db m g) hm).symm

/-- A caught chunk is rejected. -/
theorem Caught.rejected (hm : 0 < m) (h : Caught db m g chunks) :
    (feed (.fresh db m g) chunks).Returns fun r =>
      r.status = .finished ∧ r.response = oversizeAnswer := by
  obtain ⟨-, q, -, -, hfeed⟩ := feed_refused (fresh_going db m g) ((caught_iff hm).mp h)
  rw [hfeed]
  exact ⟨rejected_status q sizeExceeded, rfl⟩

theorem Caught.answer (hm : 0 < m) (h : Caught db m g chunks) :
    (feed (.fresh db m g) chunks).Returns fun r => ¬ r.response ≠ oversizeAnswer :=
  (h.rejected hm).mono fun _ hr hne => hne hr.2

end Verdict

end Quitsies.Tcp
