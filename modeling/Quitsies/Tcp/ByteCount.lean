import Mathlib.Data.List.Infix
import Quitsies.Tcp.Invariant
import Quitsies.Tcp.Limit
import Quitsies.Tcp.RoundTrip
import Quitsies.Text.Numeral

/-!
# The bytes field

How many payload bytes follow is whatever `std::stoi` makes of the fifth word,
given to a `size_t`. A numeral becomes the number it denotes. A sign in front of
the digits or anything behind them is accepted as well, and a negative number
becomes one close to 2 ^ 64. Where no such word is met the count stays an `int`,
and a payload is over after that many bytes and one more.
-/

namespace Quitsies.Tcp

open Text Interaction Db

theorem isSpace_eq_isWhiteSpace (c : UInt8) : isSpace c = isWhiteSpace c := by
  cases hc : isWhiteSpace c with
  | true =>
    simp only [isWhiteSpace, Bool.or_eq_true, beq_iff_eq] at hc
    rcases hc with ((((rfl | rfl) | rfl) | rfl) | rfl) | rfl <;> decide
  | false =>
    simp only [isWhiteSpace, Bool.or_eq_false_iff, beq_eq_false_iff_ne, ne_eq,
      ← UInt8.toNat_inj] at hc
    simp only [isSpace, Bool.or_eq_false_iff, beq_eq_false_iff_ne, ne_eq, ← UInt8.toNat_inj,
      Bool.and_eq_false_iff, decide_eq_false_iff_not, UInt8.le_iff_toNat_le]
    simp at hc ⊢
    omega

theorem Plain.no_space {s : Bytes} (h : Plain s) : ∀ c ∈ s, isSpace c = false := by
  intro c hc
  rw [isSpace_eq_isWhiteSpace]
  exact h c hc

/-! ## The word and the count -/

/-- A decimal numeral of a number up to 2 ^ 31 - 1. -/
def CountNumeral (s : Bytes) : Prop := Numeral s ∧ readDigits s ≤ 2 ^ 31 - 1

/-- A request past its bytes field. -/
def Request.counted (r : Request) (n : Nat) : Request :=
  { r with remaining := n, buffer := [], status := .norep }

/-- The white space `c` ends the bytes field of `r`: a numeral is the number of
payload bytes to come, anything else is an error of the client. -/
structure CountRead (r : Request) (c : UInt8) : Prop where
  numeral : CountNumeral r.buffer → onByte r c = .next (r.counted (readDigits r.buffer))
  other : ¬ CountNumeral r.buffer → ∃ what, ∀ data, loop r (c :: data) = .done (r.rejected what)

theorem onByte_nbytes {r : Request} (h : r.status = .nbytes) {c : UInt8}
    (hc : isWhiteSpace c = true) :
    onByte r c = match stoi r.buffer with
      | .error what => .throw r what
      | .ok v => .next (r.counted (sizeOfInt v)) := by
  rw [onByte_whiteSpace (by rw [h]; decide) hc]
  simp only [onWhiteSpace, h]
  rfl

/-- What is an error of the client could not be read. -/
theorem CountRead.stoi_error {r : Request} {c : UInt8} (hread : CountRead r c)
    (h : r.status = .nbytes) (hc : isWhiteSpace c = true) (hn : ¬ CountNumeral r.buffer) :
    ∃ what, stoi r.buffer = .error what := by
  obtain ⟨what, hloop⟩ := hread.other hn
  cases hs : stoi r.buffer with
  | error what => exact ⟨what, rfl⟩
  | ok v =>
    have hbyte := onByte_nbytes h hc
    have hdone := hloop []
    rw [hs] at hbyte
    simp only [loop, hbyte, Prog.pure_eq_done, Prog.done.injEq] at hdone
    cases congrArg Request.status hdone

theorem countRead_iff {r : Request} (h : r.status = .nbytes) (hb : Plain r.buffer) {c : UInt8}
    (hc : isWhiteSpace c = true) : CountRead r c ↔ ¬ Misread r.buffer := by
  rw [not_misread_iff hb.no_space]
  have hbyte := onByte_nbytes h hc
  constructor
  · intro hread
    by_cases hn : CountNumeral r.buffer
    · exact .inl hn.1
    · exact .inr (hread.stoi_error h hc hn)
  · intro hok
    constructor
    · intro hn
      have hlt : ¬ 2 ^ 31 ≤ readDigits r.buffer := by
        have hle := hn.2
        omega
      rw [hbyte, hn.1.stoi_eq, if_neg hlt]
      show ByteResult.next (r.counted (sizeOfInt (readDigits r.buffer : Int))) = _
      have hsize : sizeOfInt (readDigits r.buffer : Int) = readDigits r.buffer := by
        unfold sizeOfInt
        omega
      rw [hsize]
    · intro hn
      have herror : ∃ what, stoi r.buffer = .error what := by
        rcases hok with hnumeral | herror
        · have hle : 2 ^ 31 ≤ readDigits r.buffer := by
            by_contra hlt
            exact hn ⟨hnumeral, by omega⟩
          exact ⟨_, by rw [hnumeral.stoi_eq, if_pos hle]⟩
        · exact herror
      obtain ⟨what, hs⟩ := herror
      rw [hs] at hbyte
      exact ⟨what, fun data => by simp only [loop, hbyte]; rfl⟩

/-! ## Runs that misread no count -/

/-- No bytes field that `process data` comes to the end of is misread. -/
def NoMisread (r : Request) (data : Bytes) : Prop :=
  ∀ p c r', p ++ [c] <+: data → scan r p = some r' → r'.status = .nbytes →
    isWhiteSpace c = true → ¬ Misread r'.buffer

/-- The states between the calls of runs that misread no bytes field. -/
inductive ReachableCounting (db : Bool) (maxBytes : Nat) : Request → Prop
  | fresh (command : CommandType) : ReachableCounting db maxBytes (.fresh db maxBytes command)
  | process {r r' : Request} {data : Bytes} {events : List StoreEvent} :
      ReachableCounting db maxBytes r → NoMisread r data →
      (process r data).Performs events r' → ReachableCounting db maxBytes r'
  | reset {r : Request} : ReachableCounting db maxBytes r → ReachableCounting db maxBytes r.reset

/-- The count fits the `int` it was read as. -/
def Bounded (r : Request) : Prop := r.remaining ≤ 2 ^ 31 - 1

theorem NoMisread.cons {r r' : Request} {c : UInt8} {data : Bytes} (h : NoMisread r (c :: data))
    (hc : onByte r c = .next r') : NoMisread r' data := by
  intro p d q hp hscan
  apply h (c :: p) d q ((List.prefix_cons_inj c).mpr hp)
  simp only [scan, hc]
  exact hscan

theorem NoMisread.head {r : Request} {c : UInt8} {data : Bytes} (h : NoMisread r (c :: data))
    (hs : r.status = .nbytes) (hc : isWhiteSpace c = true) : ¬ Misread r.buffer :=
  h [] c r ⟨data, rfl⟩ rfl hs hc

theorem pushKey_remaining (r : Request) (status : StatusType) :
    (pushKey r status).request.remaining = r.remaining := by
  unfold pushKey
  split <;> rfl

/-- White space that does not end the bytes field leaves the count alone. -/
theorem onWhiteSpace_remaining {r : Request} (h : r.status ≠ .nbytes) :
    (onWhiteSpace r).request.remaining = r.remaining := by
  cases hs : r.status <;> simp only [onWhiteSpace, hs]
  case command =>
    split
    · rfl
    · split <;> rfl
  case nbytes => exact absurd hs h
  case flags => split <;> rfl
  case exptime => split <;> rfl
  case norep =>
    split
    · rfl
    · split <;> rfl
  case deleteKey => exact pushKey_remaining r _
  case storageKey => exact pushKey_remaining r _
  case retrievalKey =>
    split
    · rfl
    · exact pushKey_remaining r _
  case retrievalKeys =>
    split
    · rfl
    · exact pushKey_remaining r _
  all_goals rfl

theorem onByte_bounded {r : Request} (hsound : Sound r) (hr : Bounded r) {c : UInt8}
    (hc : r.status = .nbytes → isWhiteSpace c = true → ¬ Misread r.buffer) :
    Bounded (onByte r c).request := by
  by_cases hdata : r.status = .data
  · by_cases hpos : 0 < r.remaining
    · rw [onByte_payload hdata hpos]
      show r.remaining - 1 ≤ 2 ^ 31 - 1
      exact le_trans (Nat.sub_le r.remaining 1) hr
    · rw [onByte_payload_end hdata (Nat.eq_zero_of_not_pos hpos)]
      exact hr
  cases hw : isWhiteSpace c with
  | false =>
    rw [onByte_token hdata hw]
    exact hr
  | true =>
    by_cases hs : r.status = .nbytes
    · have hplain : Plain r.buffer := by
        have he := hsound.expected
        simp only [Expected, hs] at he
        exact he.2.2
      have hread := (countRead_iff hs hplain hw).mpr (hc hs hw)
      by_cases hn : CountNumeral r.buffer
      · rw [hread.numeral hn]
        exact hn.2
      · obtain ⟨what, hstoi⟩ := hread.stoi_error hs hw hn
        rw [onByte_nbytes hs hw, hstoi]
        exact hr
    · rw [onByte_whiteSpace hdata hw]
      show (onWhiteSpace r).request.remaining ≤ 2 ^ 31 - 1
      rw [onWhiteSpace_remaining hs]
      exact hr

/-- A call that misreads no bytes field keeps the bound between any two bytes. -/
theorem scan_bounded {r r' : Request} {data : Bytes} (hsound : Sound r) (hr : Bounded r)
    (hdata : NoMisread r data) {p : Bytes} (hp : p <+: data) (hscan : scan r p = some r') :
    Bounded r' := by
  induction p generalizing r data with
  | nil =>
    cases hscan
    exact hr
  | cons c p ih =>
    obtain ⟨rest, rfl⟩ := hp
    have hbounded := onByte_bounded hsound hr hdata.head (c := c)
    have hmeets := onByte_meets hsound c
    simp only [scan] at hscan
    cases hc : onByte r c with
    | next r₁ =>
      rw [hc] at hbounded hmeets
      have hrest : NoMisread r₁ (p ++ rest) := hdata.cons hc
      exact ih hmeets hbounded hrest ⟨rest, rfl⟩ (by simpa only [hc] using hscan)
    | respond r₁ => simp only [hc] at hscan; cases hscan
    | throw r₁ what => simp only [hc] at hscan; cases hscan

theorem loop_bounded {r : Request} {data : Bytes} (hsound : Sound r) (hr : Bounded r)
    (hdata : NoMisread r data) : (loop r data).Returns Bounded := by
  induction data generalizing r with
  | nil => exact hr
  | cons c data ih =>
    have hbounded := onByte_bounded hsound hr hdata.head (c := c)
    have hmeets := onByte_meets hsound c
    simp only [loop]
    cases hc : onByte r c with
    | next r₁ =>
      rw [hc] at hbounded hmeets
      exact ih hmeets hbounded (hdata.cons hc)
    | respond r₁ =>
      rw [hc] at hbounded
      apply (prepareResponse_returns r₁).mono
      intro q hq
      obtain ⟨response, rfl⟩ := hq
      exact hbounded
    | throw r₁ what =>
      rw [hc] at hbounded
      exact hbounded

theorem ReachableCounting.reachable {db : Bool} {m : Nat} {r : Request}
    (h : ReachableCounting db m r) : Reachable db m r := by
  induction h with
  | fresh command => exact .fresh command
  | process _ _ hp ih => exact .process ih hp
  | reset _ ih => exact .reset ih

theorem ReachableCounting.bounded {db : Bool} {m : Nat} {r : Request}
    (h : ReachableCounting db m r) : Bounded r := by
  induction h with
  | fresh command => exact Nat.zero_le _
  | @process r r' data events hr hdata hp ih =>
    have hreturns : (Tcp.process r data).Returns Bounded := by
      unfold Tcp.process
      split
      · exact ih
      · exact loop_bounded hr.reachable.sound ih hdata
    exact hreturns.of_performs hp
  | reset _ _ => exact Nat.zero_le _

/-! ## The end of a payload -/

/-- The payload loop comes to its end one byte after the last it counts. -/
theorem scan_payload_over {r : Request} (h : r.status = .data) {data : Bytes}
    (hlen : r.remaining < data.length) : scan r data = none := by
  have hcut : data = data.take r.remaining ++ data.drop r.remaining :=
    (List.take_append_drop r.remaining data).symm
  have htake : (data.take r.remaining).length = r.remaining :=
    List.length_take_of_le (Nat.le_of_lt hlen)
  have hscan := scan_payload h (Nat.le_of_eq htake)
  obtain ⟨c, rest, hdrop⟩ : ∃ c rest, data.drop r.remaining = c :: rest := by
    apply List.exists_cons_of_ne_nil
    intro hnil
    have hle := List.drop_eq_nil_iff.mp hnil
    omega
  have hzero : r.remaining - (data.take r.remaining).length = 0 := by omega
  rw [hzero] at hscan
  let r' : Request := { r with remaining := 0, buffer := r.buffer ++ data.take r.remaining }
  have hend : onByte r' c = .respond r' := onByte_payload_end (r := r') h rfl c
  rw [hcut, scan_append, hscan, Option.bind_some, hdrop]
  simp only [scan, r', hend]

/-- In the payload, and at the end of the header before it, no more than the
counted bytes and one more are taken before the request is finished. -/
structure PayloadEnds (r : Request) : Prop where
  payload : r.status = .data → ∀ chunks : List Bytes, r.remaining + 1 ≤ chunks.flatten.length →
    (feed r chunks).Returns fun q => q.status = .finished
  header : r.status = .norep → r.buffer ≠ text "noreply" → ∀ (c : UInt8) (data : Bytes)
    (chunks : List Bytes), isWhiteSpace c = true → chunks.flatten = c :: data →
    r.remaining + 1 ≤ data.length → (feed r chunks).Returns fun q => q.status = .finished

theorem payload_ends (r : Request) : PayloadEnds r := by
  constructor
  · intro hs chunks hlen
    exact feed_finishes (by rw [hs]; decide) (scan_payload_over hs hlen)
  · intro hs hb c data chunks hc hchunks hlen
    have hdata : r.status ≠ .data := by rw [hs]; decide
    apply feed_finishes (by rw [hs]; decide)
    rw [hchunks]
    simp only [scan, onByte_whiteSpace hdata hc, onWhiteSpace, hs, if_neg hb]
    by_cases hpos : 0 < r.remaining
    · simp only [if_pos hpos]
      exact scan_payload_over (r := { r with status := .data }) rfl hlen
    · simp only [if_neg hpos]

/-- **The bytes field is read as the number it denotes**, and everything that is no
such number is refused, if and only if it is not misread. In runs that misread none
the count is an `int` between any two bytes, and payloads end when it says. -/
theorem byte_count_iff (db : Bool) (m : Nat) :
    (∀ r data p c rest r', Reachable db m r → data = p ++ c :: rest → Inside r data p r' →
      r'.status = .nbytes → isWhiteSpace c = true →
      process r data = loop r' (c :: rest) ∧ (CountRead r' c ↔ ¬ Misread r'.buffer)) ∧
    (∀ r, ReachableCounting db m r → Bounded r ∧ PayloadEnds r ∧
      ∀ data p r', NoMisread r data → Inside r data p r' → Bounded r' ∧ PayloadEnds r') := by
  constructor
  · intro r data p c rest r' hr hdata hinside hs hc
    obtain ⟨hx, -, hscan⟩ := hinside
    have hplain : Plain r'.buffer := by
      have he := (scan_sound hr.sound hscan).expected
      simp only [Expected, hs] at he
      exact he.2.2
    refine ⟨?_, countRead_iff hs hplain hc⟩
    rw [process_admitted hx, hdata]
    exact loop_of_scan hscan (c :: rest)
  · intro r hr
    refine ⟨hr.bounded, payload_ends r, ?_⟩
    intro data p r' hdata hinside
    obtain ⟨-, hp, hscan⟩ := hinside
    exact ⟨scan_bounded hr.reachable.sound hr.bounded hdata hp hscan, payload_ends r'⟩

/-- A request that has read its fifth word. -/
def countedBytes (word : Bytes) : Request :=
  { Request.fresh true 0 .none with
    command := .set
    status := .nbytes
    keys := [text "k"]
    buffer := word }

theorem not_misread_five : ¬ Misread (text "5") := by
  have hplain : Plain (text "5") := plain_of_all (by decide)
  have hdigit : ∀ c ∈ text "5", isDigit c = true := List.all_eq_true.mp rfl
  exact (not_misread_iff hplain.no_space).mpr (.inl ⟨by decide, hdigit⟩)

/-- A call that ends in the payload of five bytes misreads no count. -/
theorem noMisread_five : NoMisread (.fresh true 0 .none) (text "set k 0 0 5\r\nhel") := by
  intro p c r' hp hscan hs _
  have hwords : ∀ p ∈ (text "set k 0 0 5\r\nhel").inits,
      ∀ q ∈ scan (.fresh true 0 .none) p, q.status = .nbytes →
        q.buffer = [] ∨ q.buffer = text "5" := by
    decide
  have hmem : p ∈ (text "set k 0 0 5\r\nhel").inits :=
    (List.mem_inits _ _).mpr ((List.prefix_append p [c]).trans hp)
  rcases hwords p hmem r' hscan hs with hb | hb
  · rw [hb]
    exact (not_misread_iff fun _ hc => absurd hc List.not_mem_nil).mpr (.inr ⟨_, rfl⟩)
  · rw [hb]
    exact not_misread_five

/-- A request whose payload of five bytes has come to the third of them. -/
def threeOfFive : Request :=
  { countedBytes [] with status := .data, remaining := 2, buffer := text "hel" }

/-- A count of five, and the payload it leads to, from its third byte on. -/
theorem byte_count_iff_five :
    (process (.fresh true 0 .none) (text "set k 0 0 5\r\nhello\r\n") =
        loop (countedBytes (text "5")) (text "\r\nhello\r\n") ∧
      (CountRead (countedBytes (text "5")) 13 ↔ ¬ Misread (countedBytes (text "5")).buffer)) ∧
    Bounded threeOfFive ∧ PayloadEnds threeOfFive ∧
    Bounded { threeOfFive with remaining := 1, buffer := text "hell" } := by
  have hread : Inside (.fresh true 0 .none) (text "set k 0 0 5\r\nhello\r\n")
      (text "set k 0 0 5") (countedBytes (text "5")) := ⟨by decide, by decide, by decide⟩
  have hscan : scan (.fresh true 0 .none) (text "set k 0 0 5\r\nhel") = some threeOfFive := by
    decide
  have hperforms : (process (.fresh true 0 .none) (text "set k 0 0 5\r\nhel")).Performs []
      threeOfFive := by
    rw [process_unlimited rfl, loop_scanned hscan]
    exact Prog.performs_done.mpr ⟨rfl, rfl⟩
  have hthree : ReachableCounting true 0 threeOfFive :=
    .process (.fresh .none) noMisread_five hperforms
  have hnext : NoMisread threeOfFive (text "lo\r\n") := by
    intro p c r' hp hscan hs
    have hdata : ∀ p ∈ (text "lo\r\n").inits, ∀ q ∈ scan threeOfFive p, q.status ≠ .nbytes := by
      decide
    exact absurd hs (hdata p ((List.mem_inits _ _).mpr ((List.prefix_append p [c]).trans hp))
      r' hscan)
  have hfour : Inside threeOfFive (text "lo\r\n") (text "l")
      { threeOfFive with remaining := 1, buffer := text "hell" } :=
    ⟨by decide, by decide, by decide⟩
  obtain ⟨hbounded, hends, hlater⟩ := (byte_count_iff true 0).2 _ hthree
  exact ⟨(byte_count_iff true 0).1 _ _ _ _ _ _ (.fresh .none) (by decide) hread rfl (by decide),
    hbounded, hends, (hlater _ _ _ hnext hfour).1⟩

/-- A set of minus one byte is not refused: it waits for 2 ^ 64 - 1 of them. -/
theorem byte_count_negative :
    Inside (.fresh true 0 .none) (text "set k 0 0 -1\r\n") (text "set k 0 0 -1")
        (countedBytes (text "-1")) ∧
      ¬ CountRead (countedBytes (text "-1")) 13 ∧
      (process (.fresh true 0 .none) (text "set k 0 0 -1\r\n")).Returns fun r =>
        r.status = .data ∧ r.remaining = 2 ^ 64 - 1 ∧ ¬ Bounded r := by
  have hscan : scan (.fresh true 0 .none) (text "set k 0 0 -1\r\n") = some
      { countedBytes [] with status := .data, remaining := 2 ^ 64 - 1 } := by decide
  refine ⟨⟨by decide, by decide, by decide⟩, ?_, ?_⟩
  · have hplain : Plain (countedBytes (text "-1")).buffer := plain_of_all (by decide)
    rw [countRead_iff rfl hplain (by decide), not_not]
    have hdigit : ∀ c ∈ text "1", isDigit c = true := List.all_eq_true.mp rfl
    exact ⟨.minus, text "1", [], ⟨by decide, by decide, hdigit, by simp⟩, by decide,
      .inl (by decide)⟩
  · rw [process_unlimited rfl, loop_scanned hscan]
    exact ⟨rfl, rfl, by simp [Bounded]⟩

end Quitsies.Tcp
