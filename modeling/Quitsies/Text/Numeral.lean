import Quitsies.Text.Bytes

/-!
# What `stoi` accepts

A token is read by its longest numeric front: a sign or none, then digits. Both
what it may be followed by and the sign are more than a decimal numeral has, so
the tokens that are read as a number and are none are described here.
-/

namespace Quitsies.Text

/-- What may stand in front of the digits. -/
inductive Sign where
  | none
  | plus
  | minus
  deriving DecidableEq

def Sign.bytes : Sign → Bytes
  | .none => []
  | .plus => [43]
  | .minus => [45]

def Sign.apply (n : Nat) : Sign → Int
  | .none => n
  | .plus => n
  | .minus => -n

/-- A token with a number in front: a sign, at least one digit, and the bytes
after the last digit. -/
structure NumberFront (s : Bytes) (sign : Sign) (digits tail : Bytes) : Prop where
  whole : s = sign.bytes ++ (digits ++ tail)
  nonempty : digits ≠ []
  digit : ∀ c ∈ digits, isDigit c = true
  ends : ∀ c ∈ tail.head?, isDigit c = false

theorem takeWhile_digits {digits tail : Bytes} (h : ∀ c ∈ digits, isDigit c = true)
    (ht : ∀ c ∈ tail.head?, isDigit c = false) : (digits ++ tail).takeWhile isDigit = digits := by
  have htail : tail.takeWhile isDigit = [] := by
    cases tail with
    | nil => rfl
    | cons c tail => simp [ht c rfl]
  rw [List.takeWhile_append_of_pos h, htail, List.append_nil]

theorem NumberFront.readSign_eq {s digits tail : Bytes} {sign : Sign}
    (h : NumberFront s sign digits tail) :
    readSign (s.dropWhile isSpace) = (decide (sign = .minus), digits ++ tail) := by
  obtain ⟨c, more, rfl⟩ := List.exists_cons_of_ne_nil h.nonempty
  have hc : isDigit c = true := h.digit c (by simp)
  obtain rfl := h.whole
  cases sign with
  | none =>
    simp only [Sign.bytes, List.nil_append, List.cons_append, List.dropWhile_cons,
      not_isSpace_of_isDigit hc, Bool.false_eq_true, ↓reduceIte]
    exact readSign_of_isDigit hc
  | plus => rfl
  | minus => rfl

/-- What is read of a token with a number in front. -/
theorem NumberFront.frontNumber_eq {s digits tail : Bytes} {sign : Sign}
    (h : NumberFront s sign digits tail) :
    frontNumber s = some (sign.apply (readDigits digits)) := by
  have hvalue : (if decide (sign = .minus) = true then -(readDigits digits : Int)
      else readDigits digits) = sign.apply (readDigits digits) := by
    cases sign <;> rfl
  simp only [frontNumber, h.readSign_eq, takeWhile_digits h.digit h.ends, if_neg h.nonempty,
    hvalue]

theorem NumberFront.stoi_eq {s digits tail : Bytes} {sign : Sign}
    (h : NumberFront s sign digits tail) :
    stoi s = if sign.apply (readDigits digits) < -2 ^ 31 ∨ 2 ^ 31 ≤ sign.apply (readDigits digits)
      then .error (text "stoi") else .ok (sign.apply (readDigits digits)) := by
  rw [stoi_eq_frontNumber, h.frontNumber_eq]

/-- A sign is taken off the front of any string. -/
theorem exists_sign (s : Bytes) :
    ∃ sign : Sign, s = sign.bytes ++ (readSign s).2 ∧ (readSign s).1 = decide (sign = .minus) := by
  unfold readSign
  split
  · exact ⟨.minus, rfl, rfl⟩
  · exact ⟨.plus, rfl, rfl⟩
  · exact ⟨.none, rfl, rfl⟩

/-- Whatever is read as a number has one in front. -/
theorem exists_front {s : Bytes} (hs : ∀ c ∈ s, isSpace c = false) {v : Int}
    (h : stoi s = .ok v) :
    ∃ sign digits tail, NumberFront s sign digits tail ∧ v = sign.apply (readDigits digits) := by
  have hdrop : s.dropWhile isSpace = s := by
    cases s with
    | nil => rfl
    | cons c s => simp [hs c (by simp)]
  obtain ⟨sign, hsign, hminus⟩ := exists_sign s
  let rest := (readSign s).2
  have hfront : rest.takeWhile isDigit ≠ [] → NumberFront s sign (rest.takeWhile isDigit)
      (rest.dropWhile isDigit) := by
    intro hne
    refine ⟨?_, hne, fun c hc => List.mem_takeWhile_imp hc, ?_⟩
    · rw [List.takeWhile_append_dropWhile]
      exact hsign
    · intro c hc
      have hhead := List.head?_dropWhile_not isDigit rest
      rw [Option.mem_def.mp hc] at hhead
      simpa using hhead
  by_cases hne : rest.takeWhile isDigit = []
  · simp only [stoi, hdrop] at h
    rw [if_pos hne] at h
    cases h
  · have hread := (hfront hne).stoi_eq
    rw [h] at hread
    refine ⟨sign, _, _, hfront hne, ?_⟩
    split at hread
    · cases hread
    · exact Except.ok.inj hread

/-- Whatever cannot be read, the exception has the one text. -/
theorem stoi_error {s what : Bytes} (h : stoi s = .error what) : what = text "stoi" := by
  rw [stoi_eq_frontNumber] at h
  split at h
  · exact (Except.error.inj h).symm
  split at h
  · exact (Except.error.inj h).symm
  · cases h

/-! ## Numerals -/

/-- A decimal numeral: digits and nothing else. -/
def Numeral (s : Bytes) : Prop := s ≠ [] ∧ ∀ c ∈ s, isDigit c = true

/-- A number is read from the token although it is no numeral: it has a sign, or
something follows the digits. -/
def Misread (s : Bytes) : Prop :=
  ∃ sign digits tail, NumberFront s sign digits tail ∧
    (-2 ^ 31 ≤ sign.apply (readDigits digits) ∧ sign.apply (readDigits digits) < 2 ^ 31) ∧
    (sign ≠ .none ∨ tail ≠ [])

theorem Numeral.front {s : Bytes} (h : Numeral s) : NumberFront s .none s [] :=
  ⟨by simp [Sign.bytes], h.1, h.2, nofun⟩

/-- A numeral is read as the number it denotes, unless that is no `int`. -/
theorem Numeral.stoi_eq {s : Bytes} (h : Numeral s) :
    stoi s = if 2 ^ 31 ≤ readDigits s then .error (text "stoi") else .ok (readDigits s) := by
  rw [h.front.stoi_eq]
  by_cases hle : 2 ^ 31 ≤ readDigits s
  · rw [if_pos hle, if_pos (by simp only [Sign.apply]; omega)]
  · rw [if_neg hle, if_neg (by simp only [Sign.apply]; omega)]
    rfl

/-- A token that begins with a digit and is all digits begins with no sign. -/
theorem NumberFront.not_numeral {s digits tail : Bytes} {sign : Sign}
    (h : NumberFront s sign digits tail) (hmore : sign ≠ .none ∨ tail ≠ []) : ¬ Numeral s := by
  intro hn
  obtain rfl := h.whole
  rcases hmore with hsign | htail
  · cases sign with
    | none => exact hsign rfl
    | plus => exact absurd (hn.2 43 (by simp [Sign.bytes])) (by decide)
    | minus => exact absurd (hn.2 45 (by simp [Sign.bytes])) (by decide)
  · obtain ⟨c, more, rfl⟩ := List.exists_cons_of_ne_nil htail
    have hc := hn.2 c (by simp)
    rw [h.ends c rfl] at hc
    cases hc

/-- **What is no numeral is an error**, unless it is misread. -/
theorem not_misread_iff {s : Bytes} (hs : ∀ c ∈ s, isSpace c = false) :
    ¬ Misread s ↔ Numeral s ∨ ∃ what, stoi s = .error what := by
  constructor
  · intro h
    by_contra hn
    obtain ⟨hnumeral, herror⟩ := not_or.mp hn
    cases hread : stoi s with
    | error what => exact herror ⟨what, hread⟩
    | ok v =>
      obtain ⟨sign, digits, tail, hfront, rfl⟩ := exists_front hs hread
      refine h ⟨sign, digits, tail, hfront, stoi_range hread, ?_⟩
      by_contra hplain
      obtain ⟨hsign, htail⟩ := not_or.mp hplain
      obtain rfl := not_not.mp hsign
      obtain rfl := not_not.mp htail
      apply hnumeral
      have hwhole : s = digits := by simpa [Sign.bytes] using hfront.whole
      rw [hwhole]
      exact ⟨hfront.nonempty, hfront.digit⟩
  · intro h hm
    obtain ⟨sign, digits, tail, hfront, hrange, hmore⟩ := hm
    rcases h with hnumeral | ⟨what, herror⟩
    · exact hfront.not_numeral hmore hnumeral
    · rw [hfront.stoi_eq, if_neg (by omega)] at herror
      cases herror

/-! ## Reading any integer back -/

/-- The integer a numeral denotes, with a minus sign or without. -/
def readInt : Bytes → Option Int
  | 45 :: ds => if ds ≠ [] ∧ ds.all isDigit = true then some (-(readDigits ds : Int)) else none
  | ds => if ds ≠ [] ∧ ds.all isDigit = true then some (readDigits ds : Int) else none

theorem readInt_digits {c : UInt8} {ds : Bytes} (h : ∀ x ∈ c :: ds, isDigit x = true) :
    readInt (c :: ds) = some (readDigits (c :: ds) : Int) := by
  have hall : (c :: ds) ≠ [] ∧ (c :: ds).all isDigit = true :=
    ⟨List.cons_ne_nil c ds, List.all_eq_true.mpr h⟩
  unfold readInt
  split
  · next he =>
    cases he
    exact absurd (h 45 List.mem_cons_self) (by decide)
  · rw [if_pos hall]

theorem readInt_decimalInt (v : Int) : readInt (decimalInt v) = some v := by
  rcases decimalInt_cases v with ⟨c, ds, he, hd, hv⟩ | ⟨ds, he, hne, hd, hv⟩
  · rw [he, readInt_digits hd, ← hv]
  · rw [he, readInt, if_pos ⟨hne, List.all_eq_true.mpr hd⟩, ← hv]

theorem decimalInt_injective {v w : Int} (h : decimalInt v = decimalInt w) : v = w := by
  have hread := readInt_decimalInt v
  rw [h, readInt_decimalInt w] at hread
  exact (Option.some.inj hread).symm

/-- What a numeral is made of. -/
theorem mem_decimalInt {v : Int} {c : UInt8} (h : c ∈ decimalInt v) :
    c = 45 ∨ isDigit c = true := by
  rcases decimalInt_cases v with ⟨d, ds, he, hd, -⟩ | ⟨ds, he, -, hd, -⟩
  · exact .inr (hd c (he ▸ h))
  · rw [he, List.mem_cons] at h
    exact h.imp_right (hd c)

theorem notMem_decimalInt {c : UInt8} (hc : c ≠ 45 ∧ isDigit c = false) (v : Int) :
    c ∉ decimalInt v := by
  intro h
  rcases mem_decimalInt h with he | hd
  · exact hc.1 he
  · rw [hc.2] at hd
    cases hd

/-! ## `std::stoll` -/

/-- `std::stoll` with base ten. Both of its exceptions carry the text `stoll`. -/
def stoll (s : Bytes) : Except Bytes Int :=
  let (negative, rest) := readSign (s.dropWhile isSpace)
  let digits := rest.takeWhile isDigit
  let value : Int := if negative then -readDigits digits else readDigits digits
  if digits = [] then .error (text "stoll")
  else if value < -2 ^ 63 ∨ 2 ^ 63 ≤ value then .error (text "stoll")
  else .ok value

theorem stoll_eq_frontNumber (s : Bytes) :
    stoll s = match frontNumber s with
      | none => .error (text "stoll")
      | some v => if v < -2 ^ 63 ∨ 2 ^ 63 ≤ v then .error (text "stoll") else .ok v := by
  unfold stoll frontNumber
  generalize readSign (s.dropWhile isSpace) = sign
  obtain ⟨negative, rest⟩ := sign
  simp only
  by_cases hnil : rest.takeWhile isDigit = []
  · rw [if_pos hnil, if_pos hnil]
  · rw [if_neg hnil, if_neg hnil]

theorem NumberFront.stoll_eq {s digits tail : Bytes} {sign : Sign}
    (h : NumberFront s sign digits tail) :
    stoll s =
      if sign.apply (readDigits digits) < -2 ^ 63 ∨ 2 ^ 63 ≤ sign.apply (readDigits digits)
      then .error (text "stoll") else .ok (sign.apply (readDigits digits)) := by
  rw [stoll_eq_frontNumber, h.frontNumber_eq]

/-- What `stoll` reads is a `long long`. -/
theorem stoll_range {s : Bytes} {v : Int} (h : stoll s = .ok v) : -2 ^ 63 ≤ v ∧ v < 2 ^ 63 := by
  rw [stoll_eq_frontNumber] at h
  split at h
  · cases h
  split at h
  · cases h
  · obtain rfl := Except.ok.inj h
    omega

/-- Every integer is written with a number in front, and nothing behind it. -/
theorem exists_front_decimalInt (v : Int) :
    ∃ sign digits, NumberFront (decimalInt v) sign digits [] ∧
      sign.apply (readDigits digits) = v := by
  rcases decimalInt_cases v with ⟨c, ds, he, hd, hv⟩ | ⟨ds, he, hne, hd, hv⟩
  · exact ⟨.none, c :: ds, ⟨by simp [he, Sign.bytes], List.cons_ne_nil c ds, hd, nofun⟩, hv.symm⟩
  · exact ⟨.minus, ds, ⟨by simp [he, Sign.bytes], hne, hd, nofun⟩, hv.symm⟩

/-- Every 64-bit integer is read back from its decimal numeral. -/
theorem stoll_decimalInt {v : Int} (hlo : -2 ^ 63 ≤ v) (hhi : v < 2 ^ 63) :
    stoll (decimalInt v) = .ok v := by
  obtain ⟨sign, digits, hfront, hvalue⟩ := exists_front_decimalInt v
  rw [hfront.stoll_eq, hvalue, if_neg (by omega)]

end Quitsies.Text
