import Quitsies.Cli.Options

/-!
# The variables behind the options

An option holds a pointer to the variable it sets. The variable is found by the name
of its option: parsing changes what the variables hold, not which there are, and an
integer comes from `std::stoll` or is left as it was.
-/

namespace Quitsies.Cli

open Text

/-- What the variable of an `int_option` holds. -/
def intValue (options : List ArgOption) (name : Bytes) : Int :=
  match options.find? fun option => option.name = name with
  | some (.int _ _ value) => value
  | _ => 0

def strValue (options : List ArgOption) (name : Bytes) : Bytes :=
  match options.find? fun option => option.name = name with
  | some (.str _ _ value) => value
  | _ => []

def boolValue (options : List ArgOption) (name : Bytes) : Bool :=
  match options.find? fun option => option.name = name with
  | some (.bool _ _ value) => value
  | _ => false

/-! ## What parsing changes -/

/-- An option before and after the command line was read. -/
inductive ArgOption.Read : ArgOption → ArgOption → Prop
  | kept (option : ArgOption) : Read option option
  | flag (shortName : UInt8) (name : Bytes) (value : Bool) :
      Read (.bool shortName name value) (.bool shortName name true)
  | number (shortName : UInt8) (name : Bytes) (old : Int) {argument : Bytes} {value : Int}
      (h : stoll argument = .ok value) : Read (.int shortName name old) (.int shortName name value)
  | string (shortName : UInt8) (name old argument : Bytes) :
      Read (.str shortName name old) (.str shortName name argument)

theorem ArgOption.Read.name_eq {option option' : ArgOption} (h : option.Read option') :
    option'.name = option.name := by
  cases h <;> rfl

theorem read_of_readOption {h : Handler} {option option' : ArgOption}
    (hread : option.readOption h = .ok option') : option.Read option' := by
  unfold ArgOption.readOption at hread
  split at hread
  · cases option with
    | bool shortName name value =>
      obtain rfl := Except.ok.inj hread
      exact .flag shortName name value
    | int shortName name old =>
      simp only at hread
      split at hread
      · next value hvalue =>
        obtain rfl := Except.ok.inj hread
        exact .number shortName name old hvalue
      · cases hread
    | str shortName name old =>
      obtain rfl := Except.ok.inj hread
      exact .string shortName name old _
  · obtain rfl := Except.ok.inj hread
    exact .kept option

theorem kept_all (options : List ArgOption) : List.Forall₂ ArgOption.Read options options :=
  List.forall₂_same.mpr fun option _ => .kept option

/-- Up to the option that throws each is read, and the others are left. -/
theorem readOptions_read (h : Handler) (options : List ArgOption) :
    List.Forall₂ ArgOption.Read options (readOptions h options).1 := by
  induction options with
  | nil => exact .nil
  | cons option options ih =>
    rw [readOptions]
    cases hread : option.readOption h with
    | error e => exact kept_all (option :: options)
    | ok option' => exact .cons (read_of_readOption hread) ih

theorem readSections_read (h : Handler) (options : OptionList) :
    List.Forall₂ ArgOption.Read (allOptions options) (allOptions (readSections h options).1) := by
  induction options with
  | nil => exact .nil
  | cons section' sections ih =>
    obtain ⟨title, options⟩ := section'
    have hsection := readOptions_read h options
    rw [readSections]
    generalize readOptions h options = read at hsection
    obtain ⟨options', result⟩ := read
    cases result with
    | error e => exact List.rel_append hsection (kept_all (allOptions sections))
    | ok => exact List.rel_append hsection ih

/-- Parsing keeps every option, whether it accepts the command line or not. -/
theorem parseArgOptions_read (argv : List Bytes) (options : OptionList) :
    List.Forall₂ ArgOption.Read (allOptions options)
      (allOptions (parseArgOptions argv options).2) := by
  unfold parseArgOptions
  simp only
  split
  · exact kept_all (allOptions options)
  · next h _ =>
    split
    · exact kept_all (allOptions options)
    · have hread := readSections_read h options
      split
      · next hsections => rwa [hsections] at hread
      · next hsections => rwa [hsections] at hread

theorem find_read {options options' : List ArgOption} (name : Bytes)
    (h : List.Forall₂ ArgOption.Read options options') :
    Option.Rel ArgOption.Read (options.find? fun option => option.name = name)
      (options'.find? fun option => option.name = name) := by
  induction h with
  | nil => exact .none
  | cons hread _ ih =>
    rw [List.find?_cons, List.find?_cons, hread.name_eq]
    split
    · exact .some hread
    · exact ih

/-- An integer is as it was, or `std::stoll` has read it. -/
theorem intValue_read {options options' : List ArgOption} (name : Bytes)
    (h : List.Forall₂ ArgOption.Read options options') :
    intValue options' name = intValue options name ∨
      ∃ argument, stoll argument = .ok (intValue options' name) := by
  have hfind := find_read name h
  unfold intValue
  generalize (options.find? fun option => option.name = name) = old at hfind ⊢
  generalize (options'.find? fun option => option.name = name) = new at hfind ⊢
  cases hfind with
  | none => exact .inl rfl
  | some hread =>
    cases hread with
    | kept => exact .inl rfl
    | flag => exact .inl rfl
    | string => exact .inl rfl
    | number _ _ _ hvalue => exact .inr ⟨_, hvalue⟩

/-- Every `long long` stays one. -/
theorem intValue_range {options options' : List ArgOption} {name : Bytes}
    (h : List.Forall₂ ArgOption.Read options options')
    (hlo : -2 ^ 63 ≤ intValue options name) (hhi : intValue options name < 2 ^ 63) :
    -2 ^ 63 ≤ intValue options' name ∧ intValue options' name < 2 ^ 63 := by
  rcases intValue_read name h with he | ⟨argument, hvalue⟩
  · rw [he]
    exact ⟨hlo, hhi⟩
  · exact stoll_range hvalue

/-! ## A command line that gives one integer -/

theorem allOptions_assignAll (given : List Assignment) (options : OptionList) :
    allOptions (assignAll given options) = (allOptions options).map (ArgOption.assign given) := by
  simp only [allOptions, assignAll, List.flatMap_map, List.map_flatMap]

theorem name_assign (given : List Assignment) (option : ArgOption) :
    (option.assign given).name = option.name := by
  unfold ArgOption.assign
  split <;> rfl

theorem find_assign (given : List Assignment) (options : List ArgOption) (name : Bytes) :
    ((options.map (ArgOption.assign given)).find? fun option => option.name = name) =
      (options.find? fun option => option.name = name).map (ArgOption.assign given) := by
  rw [List.find?_map]
  simp only [Function.comp_def, name_assign]

section OneInteger

/-- An integer changes no other kind of option. -/
theorem assign_int (name : Bytes) (value : Int) (option : ArgOption) :
    option.assign [⟨name, .int value⟩] = option ∨
      ∃ shortName old, option = .int shortName name old ∧
        option.assign [⟨name, .int value⟩] = .int shortName name value := by
  by_cases hname : name = option.name
  · subst hname
    cases option with
    | bool | str => simp [ArgOption.assign, ArgOption.name]
    | int shortName name old =>
      exact .inr ⟨shortName, old, rfl, by simp [ArgOption.assign, ArgOption.name]⟩
  · simp [ArgOption.assign, hname]

variable {name : Bytes} {value : Int}

/-- What a name finds is as it was, or the integer that was assigned to. -/
theorem find_assign_int (options : List ArgOption) (other : Bytes) :
    ((options.map (ArgOption.assign [⟨name, .int value⟩])).find? fun option =>
        option.name = other) = options.find? (fun option => option.name = other) ∨
      ∃ shortName old, options.find? (fun option => option.name = other) =
          some (.int shortName name old) ∧
        ((options.map (ArgOption.assign [⟨name, .int value⟩])).find? fun option =>
          option.name = other) = some (.int shortName name value) := by
  rw [find_assign]
  cases options.find? fun option => option.name = other with
  | none => exact .inl rfl
  | some option =>
    rw [Option.map_some]
    rcases assign_int name value option with he | ⟨shortName, old, rfl, he⟩
    · exact .inl (congrArg some he)
    · exact .inr ⟨shortName, old, rfl, congrArg some he⟩

theorem strValue_assign (options : List ArgOption) (other : Bytes) :
    strValue (options.map (ArgOption.assign [⟨name, .int value⟩])) other =
      strValue options other := by
  unfold strValue
  rcases find_assign_int options other with he | ⟨shortName, old, he, he'⟩
  · rw [he]
  · rw [he, he']

theorem boolValue_assign (options : List ArgOption) (other : Bytes) :
    boolValue (options.map (ArgOption.assign [⟨name, .int value⟩])) other =
      boolValue options other := by
  unfold boolValue
  rcases find_assign_int options other with he | ⟨shortName, old, he, he'⟩
  · rw [he]
  · rw [he, he']

variable {options : OptionList} {shortName : UInt8} {old : Int}

/-- The option of a name is found, as no other has its name. -/
theorem find_name_eq (hw : WellNamed options)
    (hoption : .int shortName name old ∈ allOptions options) :
    (allOptions options).find? (fun option => option.name = name) =
      some (.int shortName name old) := by
  obtain ⟨found, hfound⟩ : ∃ found,
      ((allOptions options).find? fun option => option.name = name) = some found := by
    rw [← Option.isSome_iff_exists, List.find?_isSome]
    exact ⟨_, hoption, decide_eq_true rfl⟩
  have hname := List.find?_some hfound
  rw [decide_eq_true_eq] at hname
  rw [hfound, List.inj_on_of_nodup_map hw.distinct (List.mem_of_find?_eq_some hfound)
    hoption hname]

theorem intValue_eq (hw : WellNamed options)
    (hoption : .int shortName name old ∈ allOptions options) :
    intValue (allOptions options) name = old := by
  rw [intValue, find_name_eq hw hoption]

theorem intValue_assign (hw : WellNamed options)
    (hoption : .int shortName name old ∈ allOptions options) :
    intValue ((allOptions options).map (ArgOption.assign [⟨name, .int value⟩])) name = value := by
  have hassign : ArgOption.assign [⟨name, .int value⟩] (.int shortName name old) =
      .int shortName name value := by
    simp [ArgOption.assign, ArgOption.name]
  rw [intValue, find_assign, find_name_eq hw hoption, Option.map_some, hassign]

/-- Every natural number that is a `long long` is accepted. -/
theorem parseArgOptions_int (program : Bytes) (hw : WellNamed options)
    (hoption : .int shortName name old ∈ allOptions options)
    (hlo : 0 ≤ value) (hhi : value < 2 ^ 63) :
    parseArgOptions (program :: commandLine [⟨name, .int value⟩]) options =
      (true, assignAll [⟨name, .int value⟩] options) := by
  have hgives : Gives [⟨name, .int value⟩] options := by
    refine ⟨List.nodup_singleton _, fun assignment hassignment => ?_⟩
    obtain rfl := List.mem_singleton.mp hassignment
    exact ⟨_, hoption, rfl, by omega, hhi⟩
  refine hgives.parseArgOptions_eq program hw fun assignment hassignment value' hvalue => ?_
  obtain rfl := List.mem_singleton.mp hassignment
  obtain rfl := Value.int.inj hvalue
  exact hlo

end OneInteger

end Quitsies.Cli
