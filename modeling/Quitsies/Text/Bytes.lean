import Mathlib.Data.List.TakeWhile
import Mathlib.Tactic.IntervalCases

/-!
# Byte strings and decimal numerals

A `std::string` is a list of bytes. Numbers are written the way an output stream
writes them and read the way `std::stoi` reads them: leading white space and one
sign are skipped, the digits that follow are converted, whatever comes after
them is ignored, and a value outside a 32-bit `int` is an error.
-/

namespace Quitsies

abbrev Bytes := List UInt8

namespace Text

def charByte (c : Char) : UInt8 := UInt8.ofNat c.toNat

/-- The bytes of an ASCII literal. -/
def text (s : String) : Bytes := s.toList.map charByte

def isDigit (c : UInt8) : Bool := 48 ≤ c && c ≤ 57

/-- `isspace` in the C locale. -/
def isSpace (c : UInt8) : Bool := c == 32 || (9 ≤ c && c ≤ 13)

/-! ## Writing -/

def decimal (n : Nat) : Bytes := (Nat.toDigits 10 n).map charByte

def decimalInt : Int → Bytes
  | .ofNat n => decimal n
  | .negSucc n => 45 :: decimal (n + 1)

/-! ## Reading -/

/-- The number a string of digits denotes. -/
def readDigits (ds : Bytes) : Nat := ds.foldl (fun n c => 10 * n + (c.toNat - 48)) 0

/-- The sign `strtol` skips: whether it is a minus, and the bytes after it. -/
def readSign : Bytes → Bool × Bytes
  | 45 :: s => (true, s)
  | 43 :: s => (false, s)
  | s => (false, s)

/-- `std::stoi` with base ten. Both of its exceptions carry the text `stoi`. -/
def stoi (s : Bytes) : Except Bytes Int :=
  let (negative, rest) := readSign (s.dropWhile isSpace)
  let digits := rest.takeWhile isDigit
  let value : Int := if negative then -readDigits digits else readDigits digits
  if digits = [] then .error (text "stoi")
  else if value < -2 ^ 31 ∨ 2 ^ 31 ≤ value then .error (text "stoi")
  else .ok value

/-! ## Reading back what was written -/

theorem charByte_digitChar {n : Nat} (h : n < 10) :
    (charByte n.digitChar).toNat = 48 + n ∧ isDigit (charByte n.digitChar) = true := by
  interval_cases n <;> decide

theorem decimal_of_lt {n : Nat} (h : n < 10) : decimal n = [charByte n.digitChar] := by
  rw [decimal, Nat.toDigits_of_lt_base h]; rfl

theorem decimal_of_le {n : Nat} (h : 10 ≤ n) :
    decimal n = decimal (n / 10) ++ [charByte (n % 10).digitChar] := by
  simp [decimal, Nat.toDigits_of_base_le (by decide) h]

@[simp] theorem decimal_ne_nil (n : Nat) : decimal n ≠ [] := by simp [decimal]

theorem isDigit_of_mem_decimal (n : Nat) : ∀ c ∈ decimal n, isDigit c = true := by
  induction n using Nat.strong_induction_on with
  | _ n ih =>
    rcases Nat.lt_or_ge n 10 with h | h
    · simpa [decimal_of_lt h] using (charByte_digitChar h).2
    · intro c hc
      rw [decimal_of_le h, List.mem_append, List.mem_singleton] at hc
      rcases hc with hc | rfl
      · exact ih (n / 10) (by omega) c hc
      · exact (charByte_digitChar (Nat.mod_lt n (by decide))).2

theorem readDigits_snoc (ds : Bytes) (c : UInt8) :
    readDigits (ds ++ [c]) = 10 * readDigits ds + (c.toNat - 48) := by
  simp [readDigits]

theorem readDigits_decimal (n : Nat) : readDigits (decimal n) = n := by
  induction n using Nat.strong_induction_on with
  | _ n ih =>
    rcases Nat.lt_or_ge n 10 with h | h
    · simp [decimal_of_lt h, readDigits, (charByte_digitChar h).1]
    · rw [decimal_of_le h, readDigits_snoc, ih (n / 10) (by omega),
        (charByte_digitChar (Nat.mod_lt n (by decide))).1]
      omega

theorem not_isSpace_of_isDigit {c : UInt8} (h : isDigit c = true) : isSpace c = false := by
  simp only [isDigit, isSpace, Bool.and_eq_true, decide_eq_true_eq, Bool.or_eq_false_iff,
    beq_eq_false_iff_ne, Bool.and_eq_false_iff, decide_eq_false_iff_not, UInt8.le_iff_toNat_le,
    ne_eq, ← UInt8.toNat_inj] at *
  simp at *
  omega

theorem decimalInt_cases (v : Int) :
    (∃ c ds, decimalInt v = c :: ds ∧ (∀ x ∈ c :: ds, isDigit x = true) ∧
      v = readDigits (c :: ds)) ∨
    (∃ ds, decimalInt v = 45 :: ds ∧ ds ≠ [] ∧ (∀ x ∈ ds, isDigit x = true) ∧
      v = -readDigits ds) := by
  cases v with
  | ofNat n =>
    left
    obtain ⟨c, ds, hd⟩ := List.exists_cons_of_ne_nil (decimal_ne_nil n)
    refine ⟨c, ds, hd, ?_, ?_⟩
    · rw [← hd]; exact isDigit_of_mem_decimal n
    · rw [← hd, readDigits_decimal]; rfl
  | negSucc n =>
    right
    refine ⟨decimal (n + 1), rfl, decimal_ne_nil _, isDigit_of_mem_decimal _, ?_⟩
    rw [readDigits_decimal]
    exact Int.negSucc_eq n

/-- No byte of a numeral is white space. -/
theorem not_isSpace_of_mem_decimalInt {v : Int} : ∀ c ∈ decimalInt v, isSpace c = false := by
  intro c hc
  rcases decimalInt_cases v with ⟨d, ds, he, hd, -⟩ | ⟨ds, he, -, hd, -⟩
  · exact not_isSpace_of_isDigit (hd c (he ▸ hc))
  · rw [he, List.mem_cons] at hc
    rcases hc with rfl | hc
    · decide
    · exact not_isSpace_of_isDigit (hd c hc)

theorem readSign_of_isDigit {c : UInt8} {ds : Bytes} (h : isDigit c = true) :
    readSign (c :: ds) = (false, c :: ds) := by
  unfold readSign
  split
  · next he => cases he; exact absurd h (by decide)
  · next he => cases he; exact absurd h (by decide)
  · rfl

theorem takeWhile_isDigit {ds : Bytes} (h : ∀ c ∈ ds, isDigit c = true) :
    ds.takeWhile isDigit = ds := List.takeWhile_eq_self_iff.mpr h

/-- **Round trip.** Every 32-bit integer is read back from its decimal numeral. -/
theorem stoi_decimalInt {v : Int} (hlo : -2 ^ 31 ≤ v) (hhi : v < 2 ^ 31) :
    stoi (decimalInt v) = .ok v := by
  have hrange : ¬ (v < -2 ^ 31 ∨ 2 ^ 31 ≤ v) := by omega
  rcases decimalInt_cases v with ⟨c, ds, he, hd, hv⟩ | ⟨ds, he, hne, hd, hv⟩
  · have hc : isSpace c = false := not_isSpace_of_isDigit (hd c (by simp))
    have hdrop : (c :: ds).dropWhile isSpace = c :: ds := by simp [hc]
    simp only [stoi, he, hdrop, readSign_of_isDigit (hd c (by simp)), takeWhile_isDigit hd,
      Bool.false_eq_true, ↓reduceIte, ← hv, hrange, reduceCtorEq]
  · have hdrop : ((45 : UInt8) :: ds).dropWhile isSpace = 45 :: ds := rfl
    simp only [stoi, he, hdrop, readSign, takeWhile_isDigit hd, hne, ↓reduceIte, ← hv, hrange]

/-- The number in front of a string, as both `stoi` and `stoll` read it. -/
def frontNumber (s : Bytes) : Option Int :=
  let (negative, rest) := readSign (s.dropWhile isSpace)
  let digits := rest.takeWhile isDigit
  if digits = [] then none
  else some (if negative then -readDigits digits else readDigits digits)

theorem stoi_eq_frontNumber (s : Bytes) :
    stoi s = match frontNumber s with
      | none => .error (text "stoi")
      | some v => if v < -2 ^ 31 ∨ 2 ^ 31 ≤ v then .error (text "stoi") else .ok v := by
  unfold stoi frontNumber
  generalize readSign (s.dropWhile isSpace) = sign
  obtain ⟨negative, rest⟩ := sign
  simp only
  by_cases hnil : rest.takeWhile isDigit = []
  · rw [if_pos hnil, if_pos hnil]
  · rw [if_neg hnil, if_neg hnil]

/-- What `stoi` reads is an `int`. -/
theorem stoi_range {s : Bytes} {v : Int} (h : stoi s = .ok v) : -2 ^ 31 ≤ v ∧ v < 2 ^ 31 := by
  rw [stoi_eq_frontNumber] at h
  split at h
  · cases h
  split at h
  · cases h
  · obtain rfl := Except.ok.inj h
    omega

end Text

end Quitsies
