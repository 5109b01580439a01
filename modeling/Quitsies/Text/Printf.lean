import Mathlib.Data.Int.ModEq
import Quitsies.Text.Bytes

/-!
# `snprintf`

A format with the conversions `%s`, `%d`, `%lu` and `%%`, and its arguments as they
are passed: a string or a 64-bit word. A conversion takes the argument it finds, so
`%d` reads half of a word; where it finds none, or one of the other kind, what
happens is undefined, and so it is for every other directive.
-/

namespace Quitsies.Text

inductive Arg where
  | string (s : Bytes)
  | word (v : Int)

/-- The low half of a word as an `int`. -/
def low32 (v : Int) : Int := v.bmod (2 ^ 32)

/-- A word as an unsigned number. -/
def unsigned64 (v : Int) : Nat := (v % 2 ^ 64).toNat

/-- What has been read of a directive. -/
inductive Directive where
  | none
  | percent
  | long
  deriving DecidableEq

/-- What is printed for a format, or nothing where the behaviour is undefined. -/
def printFrom : Directive → Bytes → List Arg → Option Bytes
  | .none, [], _ => some []
  | .none, c :: format, args =>
    if c = 37 then printFrom .percent format args else (c :: ·) <$> printFrom .none format args
  | .percent, c :: format, args =>
    if c = 37 then (37 :: ·) <$> printFrom .none format args
    else if c = 108 then printFrom .long format args
    else
      match args with
      | .string s :: args =>
        if c = 115 then (s ++ ·) <$> printFrom .none format args else .none
      | .word v :: args =>
        if c = 100 then (decimalInt (low32 v) ++ ·) <$> printFrom .none format args else .none
      | [] => .none
  | .long, c :: format, args =>
    match args with
    | .word v :: args =>
      if c = 117 then (decimal (unsigned64 v) ++ ·) <$> printFrom .none format args else .none
    | _ => .none
  | .percent, [], _ => .none
  | .long, [], _ => .none

def snprintf (format : Bytes) (args : List Arg) : Option Bytes := printFrom .none format args

theorem low32_eq_iff (v : Int) : low32 v = v ↔ -2 ^ 31 ≤ v ∧ v < 2 ^ 31 := by
  unfold low32
  constructor
  · intro h
    have hlo := Int.le_bmod (x := v) (m := 2 ^ 32) (by decide)
    have hhi := Int.bmod_lt (x := v) (m := 2 ^ 32) (by decide)
    omega
  · intro h
    exact Int.bmod_eq_of_le (by omega) (by omega)

theorem low32_eq_zero_iff (v : Int) : low32 v = 0 ↔ 2 ^ 32 ∣ v :=
  (Int.dvd_iff_bmod_eq_zero (a := 2 ^ 32)).symm

theorem low32_modEq (v : Int) : low32 v ≡ v [ZMOD 2 ^ 32] :=
  Int.bmod_emod ..

theorem sum_low32_modEq (vs : List Int) : (vs.map low32).sum ≡ vs.sum [ZMOD 2 ^ 32] := by
  induction vs with
  | nil => rfl
  | cons v vs ih =>
    rw [List.map_cons, List.sum_cons, List.sum_cons]
    exact (low32_modEq v).add ih

/-- A sum is converted like its summands one by one where these add up within an `int`. -/
theorem low32_sum_eq_iff (vs : List Int) :
    low32 vs.sum = (vs.map low32).sum ↔
      -2 ^ 31 ≤ (vs.map low32).sum ∧ (vs.map low32).sum < 2 ^ 31 := by
  have hsame : low32 vs.sum = low32 (vs.map low32).sum := by
    rw [low32, low32, Int.bmod_eq_bmod_iff_bmod_sub_eq_zero]
    exact Int.bmod_eq_zero_of_dvd (sum_low32_modEq vs).dvd
  rw [hsame, low32_eq_iff]

/-- The string a `const char *` points to. -/
def cString (s : Bytes) : Bytes := s.takeWhile (· != 0)

theorem cString_of_notMem {s : Bytes} (h : 0 ∉ s) : cString s = s := by
  apply List.takeWhile_eq_self_iff.mpr
  intro c hc
  have hne : c ≠ 0 := fun he => h (he ▸ hc)
  simpa using hne

theorem zero_notMem_cString (s : Bytes) : 0 ∉ cString s := by
  intro h
  have hne := List.mem_takeWhile_imp h
  simp at hne

/-! ## One byte at a time -/

theorem snprintf_literal {c : UInt8} (h : c ≠ 37) (format : Bytes) (args : List Arg) :
    snprintf (c :: format) args = (c :: ·) <$> snprintf format args := by
  simp only [snprintf, printFrom, if_neg h]

/-- Text without a percent sign is printed as it is. -/
theorem snprintf_append {p : Bytes} (h : 37 ∉ p) (format : Bytes) (args : List Arg) :
    snprintf (p ++ format) args = (p ++ ·) <$> snprintf format args := by
  induction p with
  | nil => simp
  | cons c p ih =>
    rw [List.mem_cons, not_or] at h
    rw [List.cons_append, snprintf_literal (fun he => h.1 he.symm), ih h.2]
    simp [Function.comp_def]

/-- What a byte of the format does: the directive and the arguments behind it, and what
it prints. -/
inductive PrintStep : Directive → UInt8 → List Arg → Directive → List Arg → Bytes → Prop
  | literal {c : UInt8} {args : List Arg} (h : c ≠ 37) : PrintStep .none c args .none args [c]
  | opens {args : List Arg} : PrintStep .none 37 args .percent args []
  | percent {args : List Arg} : PrintStep .percent 37 args .none args [37]
  | long {args : List Arg} : PrintStep .percent 108 args .long args []
  | string {s : Bytes} {args : List Arg} : PrintStep .percent 115 (.string s :: args) .none args s
  | int {v : Int} {args : List Arg} :
      PrintStep .percent 100 (.word v :: args) .none args (decimalInt (low32 v))
  | unsigned {v : Int} {args : List Arg} :
      PrintStep .long 117 (.word v :: args) .none args (decimal (unsigned64 v))

/-- Where a format is printed its first byte does one of these, and the rest is printed. -/
theorem printFrom_step {d : Directive} {c : UInt8} {format : Bytes} {args : List Arg}
    {out : Bytes} (h : printFrom d (c :: format) args = some out) :
    ∃ d' args' piece out', PrintStep d c args d' args' piece ∧
      printFrom d' format args' = some out' ∧ out = piece ++ out' := by
  have hpiece {d' : Directive} {args' : List Arg} {piece : Bytes}
      (hs : PrintStep d c args d' args' piece)
      (h : (piece ++ ·) <$> printFrom d' format args' = some out) :
      ∃ d' args' piece out', PrintStep d c args d' args' piece ∧
        printFrom d' format args' = some out' ∧ out = piece ++ out' := by
    obtain ⟨out', hout', rfl⟩ := Option.map_eq_some_iff.mp h
    exact ⟨d', args', piece, out', hs, hout', rfl⟩
  cases d with
  | none =>
    simp only [printFrom] at h
    split at h
    · next hc =>
      subst hc
      exact ⟨_, _, _, out, .opens, h, rfl⟩
    · next hc => exact hpiece (.literal hc) h
  | percent =>
    simp only [printFrom] at h
    split at h
    · next hc =>
      subst hc
      exact hpiece .percent h
    split at h
    · next hc =>
      subst hc
      exact ⟨_, _, _, out, .long, h, rfl⟩
    cases args with
    | nil => cases h
    | cons arg args =>
      cases arg with
      | string s =>
        simp only at h
        split at h
        · next hc =>
          subst hc
          exact hpiece .string h
        · cases h
      | word v =>
        simp only at h
        split at h
        · next hc =>
          subst hc
          exact hpiece .int h
        · cases h
  | long =>
    cases args with
    | nil => cases h
    | cons arg args =>
      cases arg with
      | string s => cases h
      | word v =>
        simp only [printFrom] at h
        split at h
        · next hc =>
          subst hc
          exact hpiece .unsigned h
        · cases h

end Quitsies.Text
