import Quitsies.Text.Numeral

/-!
# JSON texts

A reader of JSON that takes one byte at a time: the containers it is inside of, and what
may come next. It accepts a text when the whole of it is one value. A string is what
stands between the quotes: its escapes and its UTF-8 are checked and not resolved.
-/

namespace Quitsies.Text

/-- A number is its digits and a power of ten. -/
inductive Json where
  | null
  | bool (value : Bool)
  | number (mantissa exponent : Int)
  | string (chars : Bytes)
  | array (elements : List Json)
  | object (members : List (Bytes × Json))

namespace Json

/-- White space between the tokens. -/
def isBlank (c : UInt8) : Bool := c == 32 || c == 9 || c == 10 || c == 13

/-! ## Numbers and names -/

/-- The digits behind a point, if there is one, and what follows them. -/
def readFraction : Bytes → Option (Bytes × Bytes)
  | 46 :: s =>
    if s.takeWhile isDigit = [] then none
    else some (s.takeWhile isDigit, s.dropWhile isDigit)
  | s => some ([], s)

def readExponent : Bytes → Option Int
  | [] => some 0
  | c :: s =>
    if c = 101 ∨ c = 69 then
      let (negative, ds) := readSign s
      if ds ≠ [] ∧ ds.all isDigit = true then
        some (if negative then -readDigits ds else readDigits ds)
      else none
    else none

/-- A number without its sign. It has no zero in front of another digit. -/
def readUnsigned (s : Bytes) : Option (Nat × Int) :=
  let digits := s.takeWhile isDigit
  if digits = [] ∨ (digits.head? = some 48 ∧ digits ≠ [48]) then none
  else do
    let (fraction, s) ← readFraction (s.dropWhile isDigit)
    let exponent ← readExponent s
    return (readDigits (digits ++ fraction), exponent - fraction.length)

def readNumber : Bytes → Option Json
  | 45 :: s => (readUnsigned s).map fun (mantissa, exponent) => .number (-mantissa) exponent
  | s => (readUnsigned s).map fun (mantissa, exponent) => .number mantissa exponent

def readScalar (s : Bytes) : Option Json :=
  if s = text "null" then some .null
  else if s = text "true" then some (.bool true)
  else if s = text "false" then some (.bool false)
  else readNumber s

/-! ## Strings -/

/-- What a byte inside a string has to be, where it is not free. -/
inductive Pending where
  | escape
  | hex
  | continuation (lo hi : UInt8)
  deriving DecidableEq

def isHex (c : UInt8) : Bool := isDigit c || (65 ≤ c && c ≤ 70) || (97 ≤ c && c ≤ 102)

/-- The bytes that follow the first one of a character in UTF-8. -/
def continuations (c : UInt8) : Option (List Pending) :=
  let more : Pending := .continuation 0x80 0xBF
  if c < 0x80 then some []
  else if c < 0xC2 then none
  else if c < 0xE0 then some [more]
  else if c = 0xE0 then some [.continuation 0xA0 0xBF, more]
  else if c = 0xED then some [.continuation 0x80 0x9F, more]
  else if c < 0xF0 then some [more, more]
  else if c = 0xF0 then some [.continuation 0x90 0xBF, more, more]
  else if c < 0xF4 then some [more, more, more]
  else if c = 0xF4 then some [.continuation 0x80 0x8F, more, more]
  else none

/-- What is pending behind a byte of a string, if it may stand there. -/
def inString (c : UInt8) : List Pending → Option (List Pending)
  | [] => if c < 32 then none else if c = 92 then some [.escape] else continuations c
  | .escape :: _ =>
    if c ∈ text "\"\\/bfnrt" then some []
    else if c = 117 then some [.hex, .hex, .hex, .hex]
    else none
  | .hex :: pending => if isHex c then some pending else none
  | .continuation lo hi :: pending => if lo ≤ c ∧ c ≤ hi then some pending else none

/-! ## The reader -/

/-- A container that is not closed: its elements or members so far, and the name of the
member that is being read. -/
inductive Frame where
  | array (done : List Json)
  | object (done : List (Bytes × Json)) (name : Bytes)

/-- What a string is read for. -/
inductive Target where
  | value (stack : List Frame)
  | name (stack : List Frame) (done : List (Bytes × Json))

/-- What has been read, by what may come next. -/
inductive State where
  | value (stack : List Frame)
  | elements (stack : List Frame)
  | members (stack : List Frame)
  | name (stack : List Frame) (done : List (Bytes × Json))
  | colon (stack : List Frame) (done : List (Bytes × Json)) (name : Bytes)
  | string (target : Target) (chars : Bytes) (pending : List Pending)
  | scalar (stack : List Frame) (lexeme : Bytes)
  | behind (stack : List Frame) (value : Json)

def Target.closed (chars : Bytes) : Target → State
  | value stack => .behind stack (.string chars)
  | name stack done => .colon stack done chars

/-- The first byte of a value. -/
def beginValue (stack : List Frame) (c : UInt8) : State :=
  if isBlank c then .value stack
  else if c = 91 then .elements stack
  else if c = 123 then .members stack
  else if c = 34 then .string (.value stack) [] []
  else .scalar stack [c]

/-- A byte behind a value. -/
def endValue (stack : List Frame) (v : Json) (c : UInt8) : Option State :=
  if isBlank c then some (.behind stack v)
  else
    match stack with
    | [] => none
    | .array done :: stack =>
      if c = 44 then some (.value (.array (done ++ [v]) :: stack))
      else if c = 93 then some (.behind stack (.array (done ++ [v])))
      else none
    | .object done name :: stack =>
      if c = 44 then some (.name stack (done ++ [(name, v)]))
      else if c = 125 then some (.behind stack (.object (done ++ [(name, v)])))
      else none

/-- The bytes that end a number or a name. -/
def endsScalar (c : UInt8) : Bool := isBlank c || c == 44 || c == 93 || c == 125

def step : State → UInt8 → Option State
  | .value stack, c => some (beginValue stack c)
  | .elements stack, c =>
    if isBlank c then some (.elements stack)
    else if c = 93 then some (.behind stack (.array []))
    else some (beginValue (.array [] :: stack) c)
  | .members stack, c =>
    if isBlank c then some (.members stack)
    else if c = 125 then some (.behind stack (.object []))
    else if c = 34 then some (.string (.name stack []) [] [])
    else none
  | .name stack done, c =>
    if isBlank c then some (.name stack done)
    else if c = 34 then some (.string (.name stack done) [] [])
    else none
  | .colon stack done name, c =>
    if isBlank c then some (.colon stack done name)
    else if c = 58 then some (.value (.object done name :: stack))
    else none
  | .string target chars pending, c =>
    if c = 34 ∧ pending = [] then some (target.closed chars)
    else (inString c pending).map fun pending => .string target (chars ++ [c]) pending
  | .scalar stack lexeme, c =>
    if endsScalar c then (readScalar lexeme).bind fun v => endValue stack v c
    else some (.scalar stack (lexeme ++ [c]))
  | .behind stack v, c => endValue stack v c

/-- The value, where there is nothing left to close. -/
def finish : State → Option Json
  | .behind [] v => some v
  | .scalar [] lexeme => readScalar lexeme
  | _ => none

def run (s : State) (input : Bytes) : Option State := input.foldlM step s

/-- The value that a text is, from its first byte to its last. -/
def parse (input : Bytes) : Option Json := (run (.value []) input).bind finish

@[simp] theorem run_nil (s : State) : run s [] = some s := rfl

@[simp] theorem run_cons (s : State) (c : UInt8) (input : Bytes) :
    run s (c :: input) = (step s c).bind fun s => run s input := rfl

theorem run_append (s : State) (a b : Bytes) :
    run s (a ++ b) = (run s a).bind fun s => run s b := List.foldlM_append

/-! ## Integers -/

/-- Only the numeral of zero begins with a zero. -/
theorem decimal_zero (n : Nat) (h : (decimal n).head? = some 48) : decimal n = [48] := by
  induction n using Nat.strong_induction_on with
  | _ n ih =>
    rcases Nat.lt_or_ge n 10 with hlt | hle
    · rw [decimal_of_lt hlt] at h ⊢
      rw [Option.some.inj h]
    · obtain ⟨c, ds, hd⟩ := List.exists_cons_of_ne_nil (decimal_ne_nil (n / 10))
      rw [decimal_of_le hle, hd] at h
      have hfront := ih (n / 10) (by omega) (by rw [hd]; exact h)
      have hvalue := readDigits_decimal (n / 10)
      rw [hfront] at hvalue
      have hzero : n / 10 = 0 := hvalue.symm
      omega

theorem readUnsigned_decimal (n : Nat) : readUnsigned (decimal n) = some (n, 0) := by
  have hdigits := takeWhile_isDigit (isDigit_of_mem_decimal n)
  have hrest : (decimal n).dropWhile isDigit = [] :=
    List.dropWhile_eq_nil_iff.mpr (isDigit_of_mem_decimal n)
  have hgood : ¬ (decimal n = [] ∨ ((decimal n).head? = some 48 ∧ decimal n ≠ [48])) := by
    rintro (hnil | ⟨hhead, hne⟩)
    · exact decimal_ne_nil n hnil
    · exact hne (decimal_zero n hhead)
  simp only [readUnsigned, hdigits, if_neg hgood, hrest, readFraction]
  show some (readDigits (decimal n ++ []), (0 : Int)) = some (n, 0)
  rw [List.append_nil, readDigits_decimal]

theorem readNumber_decimalInt (v : Int) : readNumber (decimalInt v) = some (.number v 0) := by
  cases v with
  | ofNat n =>
    show readNumber (decimal n) = _
    have hread := readUnsigned_decimal n
    unfold readNumber
    split
    · next s he =>
      have hdigit := isDigit_of_mem_decimal n 45 (by rw [he]; exact List.mem_cons_self)
      exact absurd hdigit (by decide)
    · rw [hread]
      rfl
  | negSucc n =>
    show readNumber (45 :: decimal (n + 1)) = _
    rw [readNumber, readUnsigned_decimal]
    rfl

/-- A numeral has no letter. -/
theorem readScalar_decimalInt (v : Int) : readScalar (decimalInt v) = some (.number v 0) := by
  have hletter {s : Bytes} (c : UInt8) (hc : c ∈ s) (hno : c ≠ 45 ∧ isDigit c = false) :
      decimalInt v ≠ s := fun he => notMem_decimalInt hno v (he ▸ hc)
  rw [readScalar, if_neg (hletter 110 (by decide) (by decide)),
    if_neg (hletter 116 (by decide) (by decide)), if_neg (hletter 102 (by decide) (by decide)),
    readNumber_decimalInt]

/-! ## Texts of values -/

/-- A value has been read: a number or a name may go on, and is one as it stands. -/
def State.Completes (s : State) (stack : List Frame) (v : Json) : Prop :=
  s = .behind stack v ∨ ∃ lexeme, s = .scalar stack lexeme ∧ readScalar lexeme = some v

theorem State.Completes.step {s : State} {stack : List Frame} {v : Json}
    (h : s.Completes stack v) {c : UInt8} (hc : endsScalar c = true) :
    step s c = endValue stack v c := by
  rcases h with rfl | ⟨lexeme, rfl, hread⟩
  · rfl
  · rw [Json.step, if_pos hc, hread, Option.bind_some]

theorem State.Completes.finish {s : State} {v : Json} (h : s.Completes [] v) :
    finish s = some v := by
  rcases h with rfl | ⟨lexeme, rfl, hread⟩
  · rfl
  · exact hread

/-- Wherever a value may stand the text is read as this one. It is not taken for the
white space or the bracket that may stand there instead. -/
structure IsValue (input : Bytes) (v : Json) : Prop where
  starts : ∃ c rest, input = c :: rest ∧ isBlank c = false ∧ c ≠ 93
  reads : ∀ stack, ∃ s, run (.value stack) input = some s ∧ s.Completes stack v

theorem IsValue.parse {input : Bytes} {v : Json} (h : IsValue input v) :
    parse input = some v := by
  obtain ⟨s, hrun, hs⟩ := h.reads []
  rw [Json.parse, hrun, Option.bind_some, hs.finish]

/-- The elements of an array from one of them on, with its bracket. -/
def IsElements (input : Bytes) (vs : List Json) : Prop :=
  ∀ stack done, run (.value (.array done :: stack)) input =
    some (.behind stack (.array (done ++ vs)))

/-- The members of an object from a name on, with its brace. -/
def IsMembers (input : Bytes) (ms : List (Bytes × Json)) : Prop :=
  ∀ stack done, run (.name stack done) input = some (.behind stack (.object (done ++ ms)))

/-- Characters that stand for themselves. -/
def Plain (chars : Bytes) : Prop := ∀ c ∈ chars, 32 ≤ c ∧ c < 128 ∧ c ≠ 34 ∧ c ≠ 92

instance (chars : Bytes) : Decidable (Plain chars) :=
  List.decidableBAll (fun c => 32 ≤ c ∧ c < 128 ∧ c ≠ 34 ∧ c ≠ 92) chars

section Rules

variable {input chars name : Bytes} {v : Json} {vs : List Json} {ms : List (Bytes × Json)}

theorem ne_of_mem_decimalInt {v : Int} {c d : UInt8} (hc : c ∈ decimalInt v)
    (hd : d ≠ 45 ∧ isDigit d = false) : c ≠ d :=
  fun he => notMem_decimalInt hd v (he ▸ hc)

/-- What does not end a scalar belongs to it. -/
theorem run_scalar (stack : List Frame) {s : Bytes} (h : ∀ c ∈ s, endsScalar c = false)
    (lexeme : Bytes) : run (.scalar stack lexeme) s = some (.scalar stack (lexeme ++ s)) := by
  induction s generalizing lexeme with
  | nil => rw [List.append_nil, run_nil]
  | cons c s ih =>
    obtain ⟨hc, hs⟩ := List.forall_mem_cons.mp h
    rw [run_cons, step, hc, if_neg Bool.false_ne_true, Option.bind_some, ih hs,
      List.append_assoc]
    rfl

theorem not_isBlank_of_mem_decimalInt {v : Int} {c : UInt8} (hc : c ∈ decimalInt v) :
    isBlank c = false := by
  have hne {d : UInt8} := ne_of_mem_decimalInt (d := d) hc
  simp [isBlank, hne (d := 32) (by decide), hne (d := 9) (by decide),
    hne (d := 10) (by decide), hne (d := 13) (by decide)]

theorem not_endsScalar_of_mem_decimalInt {v : Int} {c : UInt8} (hc : c ∈ decimalInt v) :
    endsScalar c = false := by
  have hne {d : UInt8} := ne_of_mem_decimalInt (d := d) hc
  simp [endsScalar, not_isBlank_of_mem_decimalInt hc, hne (d := 44) (by decide),
    hne (d := 93) (by decide), hne (d := 125) (by decide)]

theorem beginValue_of_mem_decimalInt {v : Int} {c : UInt8} (hc : c ∈ decimalInt v)
    (stack : List Frame) : beginValue stack c = .scalar stack [c] := by
  rw [beginValue, not_isBlank_of_mem_decimalInt hc, if_neg Bool.false_ne_true,
    if_neg (ne_of_mem_decimalInt hc (by decide)), if_neg (ne_of_mem_decimalInt hc (by decide)),
    if_neg (ne_of_mem_decimalInt hc (by decide))]

theorem isValue_integer (v : Int) : IsValue (decimalInt v) (.number v 0) := by
  have hread := readScalar_decimalInt v
  obtain ⟨c, s, he⟩ : ∃ c s, decimalInt v = c :: s := by
    rcases decimalInt_cases v with ⟨c, s, he, -⟩ | ⟨s, he, -⟩
    · exact ⟨c, s, he⟩
    · exact ⟨45, s, he⟩
  have hc : c ∈ decimalInt v := by rw [he]; exact List.mem_cons_self
  have hrest : ∀ d ∈ s, endsScalar d = false := fun d hd =>
    not_endsScalar_of_mem_decimalInt (v := v) (by rw [he]; exact List.mem_cons_of_mem c hd)
  refine ⟨⟨c, s, he, not_isBlank_of_mem_decimalInt hc, ne_of_mem_decimalInt hc (by decide)⟩,
    fun stack => ⟨.scalar stack (decimalInt v), ?_, .inr ⟨_, rfl, hread⟩⟩⟩
  rw [he, run_cons, step, Option.bind_some, beginValue_of_mem_decimalInt hc,
    run_scalar stack hrest]
  rfl

theorem plain_decimal (n : Nat) : Plain (decimal n) := by
  intro c hc
  have hdigit := isDigit_of_mem_decimal n c hc
  have hne {d : UInt8} (hd : isDigit d = false) : c ≠ d := by
    rintro rfl
    rw [hdigit] at hd
    cases hd
  simp only [isDigit, Bool.and_eq_true, decide_eq_true_eq, UInt8.le_iff_toNat_le] at hdigit
  refine ⟨?_, ?_, hne (by decide), hne (by decide)⟩
  · rw [UInt8.le_iff_toNat_le]
    exact le_trans (by decide) hdigit.1
  · rw [UInt8.lt_iff_toNat_lt]
    exact lt_of_le_of_lt hdigit.2 (by decide)

/-- Plain characters are taken as they come. -/
theorem run_plain (target : Target) (h : Plain chars) (front : Bytes) :
    run (.string target front []) chars = some (.string target (front ++ chars) []) := by
  induction chars generalizing front with
  | nil => rw [List.append_nil, run_nil]
  | cons c chars ih =>
    obtain ⟨⟨hlo, hhi, hquote, hescape⟩, hrest⟩ := List.forall_mem_cons.mp h
    have hpending : inString c [] = some [] := by
      rw [inString, if_neg (UInt8.not_lt.mpr hlo), if_neg hescape, continuations, if_pos hhi]
    rw [run_cons, step, if_neg (fun h => hquote h.1), hpending, Option.map_some,
      Option.bind_some, ih hrest, List.append_assoc]
    rfl

/-- A string up to its closing quote. -/
theorem run_string (target : Target) (h : Plain chars) :
    run (.string target [] []) (chars ++ [34]) = some (target.closed chars) := by
  rw [run_append, run_plain target h]
  rfl

theorem isValue_string (h : Plain chars) : IsValue (34 :: (chars ++ [34])) (.string chars) := by
  refine ⟨⟨34, _, rfl, by decide, by decide⟩, fun stack => ?_⟩
  refine ⟨.behind stack (.string chars), ?_, .inl rfl⟩
  show run (.string (.value stack) [] []) (chars ++ [34]) = _
  exact run_string (.value stack) h

/-! ## Containers -/

theorem IsElements.last (h : IsValue input v) : IsElements (input ++ [93]) [v] := by
  intro stack done
  obtain ⟨s, hrun, hs⟩ := h.reads (.array done :: stack)
  rw [run_append, hrun, Option.bind_some, run_cons, hs.step (by decide)]
  rfl

theorem IsElements.cons {rest : Bytes} (h : IsValue input v) (hrest : IsElements rest vs) :
    IsElements (input ++ 44 :: rest) (v :: vs) := by
  intro stack done
  obtain ⟨s, hrun, hs⟩ := h.reads (.array done :: stack)
  rw [run_append, hrun, Option.bind_some, run_cons, hs.step (by decide)]
  show run (.value (.array (done ++ [v]) :: stack)) rest = _
  rw [hrest, List.append_assoc]
  rfl

/-- A comma is followed by an element. -/
example : (parse (text "[1, 2]")).isSome = true ∧ (parse (text "[1, 2,]")).isSome = false := by
  decide

theorem isValue_empty : IsValue [91, 93] (.array []) :=
  ⟨⟨91, [93], rfl, by decide, by decide⟩, fun stack => ⟨_, rfl, .inl rfl⟩⟩

/-- An array that has elements, the first of which is no bracket. -/
theorem IsElements.isValue {rest : Bytes} (h : IsElements (input ++ rest) vs)
    (hfirst : IsValue input v) : IsValue (91 :: (input ++ rest)) (.array vs) := by
  refine ⟨⟨91, _, rfl, by decide, by decide⟩, fun stack => ⟨_, ?_, .inl rfl⟩⟩
  obtain ⟨c, input, rfl, hblank, hclose⟩ := hfirst.starts
  have hstep : step (.elements stack) c = step (.value (.array [] :: stack)) c := by
    simp only [step, hblank, Bool.false_eq_true, ↓reduceIte, if_neg hclose]
  show run (.elements stack) (c :: (input ++ rest)) = _
  rw [run_cons, hstep]
  exact h stack []

/-- `"name":value`, as a member of an object. -/
def member (name input : Bytes) : Bytes := 34 :: (name ++ 34 :: 58 :: input)

theorem run_member (hname : Plain name) (h : IsValue input v) (stack : List Frame)
    (done : List (Bytes × Json)) :
    ∃ s, run (.name stack done) (member name input) = some s ∧
      s.Completes (.object done name :: stack) v := by
  obtain ⟨s, hrun, hs⟩ := h.reads (.object done name :: stack)
  refine ⟨s, ?_, hs⟩
  have hsplit : name ++ 34 :: 58 :: input = (name ++ [34]) ++ 58 :: input := by simp
  show run (.string (.name stack done) [] []) (name ++ 34 :: 58 :: input) = _
  rw [hsplit, run_append, run_string _ hname]
  exact hrun

theorem IsMembers.last (hname : Plain name) (h : IsValue input v) :
    IsMembers (member name input ++ [125]) [(name, v)] := by
  intro stack done
  obtain ⟨s, hrun, hs⟩ := run_member hname h stack done
  rw [run_append, hrun, Option.bind_some, run_cons, hs.step (by decide)]
  rfl

theorem IsMembers.cons {rest : Bytes} (hname : Plain name) (h : IsValue input v)
    (hrest : IsMembers rest ms) :
    IsMembers (member name input ++ 44 :: rest) ((name, v) :: ms) := by
  intro stack done
  obtain ⟨s, hrun, hs⟩ := run_member hname h stack done
  rw [run_append, hrun, Option.bind_some, run_cons, hs.step (by decide)]
  show run (.name stack (done ++ [(name, v)])) rest = _
  rw [hrest, List.append_assoc]
  rfl

/-- There may be white space in front of a member. -/
theorem IsMembers.blank (h : IsMembers input ms) : IsMembers (32 :: input) ms :=
  fun stack done => h stack done

/-- An object with a first member, which begins with a quote. -/
theorem IsMembers.isValue (h : IsMembers (34 :: input) ms) :
    IsValue (123 :: 34 :: input) (.object ms) :=
  ⟨⟨123, _, rfl, by decide, by decide⟩, fun stack => ⟨_, h stack [], .inl rfl⟩⟩

end Rules

end Json

end Quitsies.Text
