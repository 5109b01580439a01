import Std.Data.TreeMap
import Quitsies.Text.Bytes

/-!
# `OptionHandler::Handler`

Each option that is added scans the whole input. What is an option and what an
argument of one is decided by the first two bytes of a string alone.
-/

namespace Quitsies.Cli

open Text

/-- The exceptions of parsing; all are caught as `std::exception`. -/
inductive Exception where
  | outOfRange
  | noArgumentForRequired (optionName : Bytes)
  | argumentForNone (optionName : Bytes)
  | notANumber (what : Bytes)
  deriving DecidableEq

inductive ArgumentType where
  | none
  | required
  | optional
  deriving DecidableEq

structure HandlerOption where
  shortName : UInt8
  longName : Bytes
  type : ArgumentType
  multiple : Bool

abbrev ParsedInput := Std.TreeMap Bytes (List Bytes)

structure Handler where
  declaredOptions : List HandlerOption
  input : List Bytes
  parsedInput : ParsedInput

/-- `std::string::at`. -/
def charAt (s : Bytes) (i : Nat) : Except Exception UInt8 :=
  match s[i]? with
  | some c => .ok c
  | none => .error .outOfRange

def isShort (s : Bytes) : Except Exception Bool := do
  if (← charAt s 0) = 45 then
    return (← charAt s 1) ≠ 45
  return false

def isLong (s : Bytes) : Except Exception Bool := do
  if (← charAt s 0) = 45 then
    return (← charAt s 1) = 45
  return false

/-- `is_long(s) || is_short(s)`. -/
def isOption (s : Bytes) : Except Exception Bool := do
  if ← isLong s then
    return true
  isShort s

namespace HandlerOption

/-- The condition of `update`; `substr(2)` stands behind `at(1)`, which has thrown for a
shorter string. -/
def named (option : HandlerOption) (s : Bytes) : Except Exception Bool := do
  if ← isOption s then
    if (← charAt s 1) = option.shortName then
      return true
    return s.drop 2 = option.longName
  return false

/-- An argument goes into the map. The first element of an empty vector is written to
where the long name is that of a flag as well, which is undefined; here nothing is. -/
def store (option : HandlerOption) (s : Bytes) (parsed : ParsedInput) : ParsedInput :=
  match parsed[option.longName]? with
  | none => parsed.insert option.longName [s]
  | some values =>
    if option.multiple then parsed.insert option.longName (values ++ [s])
    else parsed.insert option.longName (values.set 0 s)

/-- The loop of `update_optional`, which ends at the next option. -/
def collect (option : HandlerOption) : List Bytes → ParsedInput → Except Exception ParsedInput
  | [], parsed => return parsed
  | s :: rest, parsed => do
    if ← isOption s then
      return parsed
    option.collect rest (option.store s parsed)

/-- The iterator is on `str`, with `rest` behind it. -/
def updateOptional (option : HandlerOption) (str : Bytes) (rest : List Bytes)
    (parsed : ParsedInput) : Except Exception ParsedInput :=
  option.collect (if rest = [] then str :: rest else rest) parsed

def updateRequired (option : HandlerOption) (str : Bytes) (rest : List Bytes)
    (parsed : ParsedInput) : Except Exception ParsedInput :=
  match rest with
  | [] => throw (.noArgumentForRequired option.longName)
  | next :: rest => do
    if ← isOption next then
      throw (.noArgumentForRequired option.longName)
    option.updateOptional str (next :: rest) parsed

def updateNone (option : HandlerOption) (rest : List Bytes) (parsed : ParsedInput) :
    Except Exception ParsedInput := do
  match rest with
  | [] => pure ()
  | next :: _ =>
    if !(← isOption next) then
      throw (.argumentForNone option.longName)
  if parsed.contains option.longName then
    return parsed
  return parsed.insert option.longName []

def updateType (option : HandlerOption) (str : Bytes) (rest : List Bytes)
    (parsed : ParsedInput) : Except Exception ParsedInput :=
  match option.type with
  | .none => option.updateNone rest parsed
  | .required => option.updateRequired str rest parsed
  | .optional => option.updateOptional str rest parsed

/-- `Handler::update`, from an iterator on. -/
def update (option : HandlerOption) : List Bytes → ParsedInput → Except Exception ParsedInput
  | [], parsed => return parsed
  | str :: rest, parsed => do
    if ← option.named str then
      option.update rest (← option.updateType str rest parsed)
    else
      option.update rest parsed

end HandlerOption

namespace Handler

def construct (argv : List Bytes) : Handler := ⟨[], argv.tail, ∅⟩

def addOption (h : Handler) (shortName : UInt8) (longName : Bytes) (type : ArgumentType)
    (multiple : Bool) : Except Exception Handler := do
  let option : HandlerOption := ⟨shortName, longName, type, multiple⟩
  let parsed ← option.update h.input h.parsedInput
  return ⟨h.declaredOptions ++ [option], h.input, parsed⟩

def getOption (h : Handler) (name : Bytes) : Bool :=
  h.parsedInput.contains name && !h.parsedInput.isEmpty

def getArgument (h : Handler) (name : Bytes) : Bytes :=
  if !h.getOption name then []
  else
    match h.parsedInput[name]? with
    | some (value :: _) => value
    | _ => []

end Handler

/-! ## Scanning names and arguments -/

/-- A string that is taken for an argument. -/
def Plain (s : Bytes) : Prop := s ≠ [] ∧ s.head? ≠ some 45

theorem ok_bind {α β : Type} (a : α) (f : α → Except Exception β) : (.ok a >>= f) = f a := rfl

theorem charAt_zero (c : UInt8) (s : Bytes) : charAt (c :: s) 0 = .ok c := rfl

theorem charAt_one (c d : UInt8) (s : Bytes) : charAt (c :: d :: s) 1 = .ok d := rfl

theorem isOption_plain {s : Bytes} (h : Plain s) : isOption s = .ok false := by
  obtain ⟨c, s, rfl⟩ := List.exists_cons_of_ne_nil h.1
  have hc : c ≠ 45 := fun he => h.2 (by rw [he]; rfl)
  simp only [isOption, isLong, isShort, charAt_zero, ok_bind, if_neg hc]
  rfl

theorem isOption_dash (c : UInt8) (s : Bytes) : isOption (45 :: c :: s) = .ok true := by
  by_cases hc : c = 45
  · subst hc
    rfl
  · simp only [isOption, isLong, isShort, charAt_zero, charAt_one, ok_bind, ↓reduceIte, pure,
      Except.pure, decide_eq_false hc]
    simp [hc]

/-- `--name argument`, for each pair. -/
def words (pairs : List (Bytes × Bytes)) : List Bytes :=
  pairs.flatMap fun pair => [text "--" ++ pair.1, pair.2]

theorem words_cons (name argument : Bytes) (pairs : List (Bytes × Bytes)) :
    words ((name, argument) :: pairs) = (45 :: 45 :: name) :: argument :: words pairs := rfl

namespace HandlerOption

variable {option : HandlerOption}

theorem named_plain {s : Bytes} (h : Plain s) : option.named s = .ok false := by
  rw [named, isOption_plain h]
  rfl

/-- A long option is recognised by its name, as long as no short name is a dash. -/
theorem named_long (h : option.shortName ≠ 45) (name : Bytes) :
    option.named (45 :: 45 :: name) = .ok (decide (name = option.longName)) := by
  rw [named, isOption_dash]
  simp only [ok_bind, ↓reduceIte, charAt_one, if_neg h.symm]
  rfl

theorem updateRequired_words {argument : Bytes} (h : Plain argument) (str : Bytes)
    (pairs : List (Bytes × Bytes)) (parsed : ParsedInput) :
    option.updateRequired str (argument :: words pairs) parsed =
      .ok (option.store argument parsed) := by
  have hrest : option.collect (words pairs) (option.store argument parsed) =
      .ok (option.store argument parsed) := by
    cases pairs with
    | nil => rfl
    | cons pair pairs =>
      rw [words_cons, collect, isOption_dash]
      rfl
  rw [updateRequired, isOption_plain h, ok_bind]
  simp only [Bool.false_eq_true, ↓reduceIte, updateOptional, reduceCtorEq, collect,
    isOption_plain h, ok_bind]
  exact hrest

/-- An option that is not named leaves the map as it is. -/
theorem update_unnamed (option : HandlerOption) (hshort : option.shortName ≠ 45)
    {pairs : List (Bytes × Bytes)} (hplain : ∀ pair ∈ pairs, Plain pair.2)
    (hname : option.longName ∉ pairs.map Prod.fst)
    (parsed : ParsedInput) : option.update (words pairs) parsed = .ok parsed := by
  induction pairs with
  | nil => rfl
  | cons pair pairs ih =>
    obtain ⟨hargument, hrest⟩ := List.forall_mem_cons.mp hplain
    rw [List.map_cons, List.mem_cons, not_or] at hname
    rw [words_cons, update, named_long hshort, decide_eq_false (Ne.symm hname.1), ok_bind, update,
      named_plain hargument, ok_bind]
    exact ih hrest hname.2

/-- An option that is named once gets its argument. -/
theorem update_named (option : HandlerOption) (hshort : option.shortName ≠ 45)
    (htype : option.type = .required) {pairs : List (Bytes × Bytes)}
    (hplain : ∀ pair ∈ pairs, Plain pair.2) (hdistinct : (pairs.map Prod.fst).Nodup)
    {argument : Bytes}
    (hpair : (option.longName, argument) ∈ pairs) (parsed : ParsedInput) :
    option.update (words pairs) parsed = .ok (option.store argument parsed) := by
  induction pairs with
  | nil => cases hpair
  | cons pair pairs ih =>
    obtain ⟨hargument, hrest⟩ := List.forall_mem_cons.mp hplain
    rw [List.map_cons, List.nodup_cons] at hdistinct
    rw [words_cons, update, named_long hshort, ok_bind]
    rcases List.mem_cons.mp hpair with rfl | hpair
    · rw [decide_eq_true rfl, if_pos rfl, updateType, htype]
      simp only [updateRequired_words hargument, ok_bind]
      rw [update, named_plain hargument, ok_bind]
      exact option.update_unnamed hshort hrest hdistinct.1 _
    · have hne : pair.1 ≠ option.longName := by
        rintro he
        exact hdistinct.1 (he ▸ List.mem_map_of_mem hpair)
      rw [decide_eq_false hne, update, named_plain hargument, ok_bind]
      exact ih hrest hdistinct.2 hpair

/-- A scan ends where what is behind makes it end. -/
theorem update_cons_error {str : Bytes} {rest : List Bytes}
    (h : ∀ parsed, ∃ e, option.update rest parsed = .error e) (parsed : ParsedInput) :
    ∃ e, option.update (str :: rest) parsed = .error e := by
  rw [update]
  cases option.named str with
  | error e => exact ⟨e, rfl⟩
  | ok named =>
    cases named with
    | false => exact h parsed
    | true =>
      cases hstr : option.updateType str rest parsed with
      | error e => exact ⟨e, rfl⟩
      | ok parsed' =>
        obtain ⟨e, he⟩ := h parsed'
        exact ⟨e, he⟩

/-- An argument that begins like an option is none. -/
theorem update_dash (option : HandlerOption) (hshort : option.shortName ≠ 45)
    (htype : option.type = .required) {c : UInt8} {s : Bytes} {pairs : List (Bytes × Bytes)}
    (hpair : (option.longName, 45 :: c :: s) ∈ pairs) (parsed : ParsedInput) :
    ∃ e, option.update (words pairs) parsed = .error e := by
  induction pairs generalizing parsed with
  | nil => cases hpair
  | cons pair pairs ih =>
    rcases List.mem_cons.mp hpair with rfl | hpair
    · refine ⟨.noArgumentForRequired option.longName, ?_⟩
      rw [words_cons, update, named_long hshort, ok_bind, decide_eq_true rfl, if_pos rfl,
        updateType, htype]
      simp only [updateRequired, isOption_dash, ok_bind, ↓reduceIte]
      rfl
    · exact update_cons_error (update_cons_error (ih hpair)) parsed

end HandlerOption

theorem Handler.addOption_input {h h' : Handler} {shortName : UInt8} {longName : Bytes}
    {type : ArgumentType} {multiple : Bool}
    (hadd : h.addOption shortName longName type multiple = .ok h') : h'.input = h.input := by
  cases hupdate : HandlerOption.update ⟨shortName, longName, type, multiple⟩ h.input
      h.parsedInput with
  | error e =>
    rw [Handler.addOption, hupdate] at hadd
    cases hadd
  | ok parsed =>
    rw [Handler.addOption, hupdate] at hadd
    cases hadd
    rfl

end Quitsies.Cli
