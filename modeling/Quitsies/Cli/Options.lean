import Mathlib.Data.List.Nodup
import Quitsies.Cli.Handler
import Quitsies.Text.Numeral

/-!
# `parse_arg_options`

The options of the command line, each with the variable it sets. An integer is an
argument like any other, so a negative one begins like an option.
-/

namespace Quitsies.Cli

open Text

/-! ## Options -/

/-- `bool_option`, `int_option` and `str_option`, with what their variable holds. -/
inductive ArgOption where
  | bool (shortName : UInt8) (name : Bytes) (value : Bool)
  | int (shortName : UInt8) (name : Bytes) (value : Int)
  | str (shortName : UInt8) (name : Bytes) (value : Bytes)
  deriving DecidableEq

/-- The sections of the help page, with their titles. -/
abbrev OptionList := List (Bytes × List ArgOption)

namespace ArgOption

def shortName : ArgOption → UInt8
  | bool shortName _ _ => shortName
  | int shortName _ _ => shortName
  | str shortName _ _ => shortName

def name : ArgOption → Bytes
  | bool _ name _ => name
  | int _ name _ => name
  | str _ name _ => name

/-- Whether it is given with an argument: `REQUIRED`, or else `NONE`. -/
def type : ArgOption → ArgumentType
  | bool _ _ _ => .none
  | int _ _ _ => .required
  | str _ _ _ => .required

def registerOption (option : ArgOption) (h : Handler) : Except Exception Handler :=
  h.addOption option.shortName option.name option.type false

def readOption (option : ArgOption) (h : Handler) : Except Exception ArgOption :=
  if h.getOption option.name then
    match option with
    | bool shortName name _ => return bool shortName name true
    | int shortName name _ =>
      match stoll (h.getArgument name) with
      | .ok value => return int shortName name value
      | .error what => throw (.notANumber what)
    | str shortName name _ => return str shortName name (h.getArgument name)
  else return option

end ArgOption

/-- The loop that reads the options of a section: what they are then, and what it threw. -/
def readOptions (h : Handler) : List ArgOption → List ArgOption × Except Exception Unit
  | [] => ([], .ok ())
  | option :: options =>
    match option.readOption h with
    | .error e => (option :: options, .error e)
    | .ok option => (option :: (readOptions h options).1, (readOptions h options).2)

def readSections (h : Handler) : OptionList → OptionList × Except Exception Unit
  | [] => ([], .ok ())
  | (title, options) :: sections =>
    match readOptions h options with
    | (options, .error e) => ((title, options) :: sections, .error e)
    | (options, .ok ()) =>
      ((title, options) :: (readSections h sections).1, (readSections h sections).2)

def registerOptions (options : OptionList) (h : Handler) : Except Exception Handler :=
  options.foldlM (fun h section' => section'.2.foldlM (fun h option => option.registerOption h) h) h

/-- `parse_arg_options`: what it returns, and the options behind it. -/
def parseArgOptions (argv : List Bytes) (options : OptionList) : Bool × OptionList :=
  let registered : Except Exception Handler := do
    let h ← registerOptions options (.construct argv)
    h.addOption 104 (text "help") .none false
  match registered with
  | .error _ => (false, options)
  | .ok h =>
    if h.getOption (text "help") then (false, options)
    else
      match readSections h options with
      | (options, .ok ()) => (true, options)
      | (options, .error _) => (false, options)

/-! ## A command line that gives values -/

inductive Value where
  | int (value : Int)
  | str (value : Bytes)
  deriving DecidableEq

structure Assignment where
  name : Bytes
  value : Value
  deriving DecidableEq

def Value.argument : Value → Bytes
  | .int value => decimalInt value
  | .str value => value

/-- `--name value`, for each of them. -/
def commandLine (given : List Assignment) : List Bytes :=
  given.flatMap fun assignment => [text "--" ++ assignment.name, assignment.value.argument]

def allOptions (options : OptionList) : List ArgOption := options.flatMap fun section' => section'.2

/-- The option an assignment is for. -/
def Assignment.For (assignment : Assignment) (option : ArgOption) : Prop :=
  match assignment.value, option with
  | .int value, .int _ name _ => name = assignment.name ∧ -2 ^ 63 ≤ value ∧ value < 2 ^ 63
  | .str value, .str _ name _ =>
    name = assignment.name ∧ value ≠ [] ∧ value.head? ≠ some 45
  | _, _ => False

/-- The names of the options are not taken twice, nor by the help page, and a short name is
no dash. -/
structure WellNamed (options : OptionList) : Prop where
  distinct : ((allOptions options).map ArgOption.name).Nodup
  noHelp : ∀ option ∈ allOptions options, option.name ≠ text "help"
  noDash : ∀ option ∈ allOptions options, option.shortName ≠ 45

/-- Values for some of the `int` and `str` options, each of them once. -/
structure Gives (given : List Assignment) (options : OptionList) : Prop where
  distinct : (given.map Assignment.name).Nodup
  declared : ∀ assignment ∈ given, ∃ option ∈ allOptions options, assignment.For option

def ArgOption.assign (given : List Assignment) (option : ArgOption) : ArgOption :=
  match given.find? fun assignment => assignment.name = option.name, option with
  | some ⟨_, .int value⟩, .int shortName name _ => .int shortName name value
  | some ⟨_, .str value⟩, .str shortName name _ => .str shortName name value
  | _, option => option

/-- Every variable that a value is given for has it, and the others are as they were. -/
def assignAll (given : List Assignment) (options : OptionList) : OptionList :=
  options.map fun section' => (section'.1, section'.2.map (ArgOption.assign given))

/-! ## Registering -/

/-- The argument that a name is given. -/
def argumentOf (given : List Assignment) (name : Bytes) : Option Bytes :=
  (given.find? fun assignment => assignment.name = name).map fun assignment =>
    assignment.value.argument

/-- The options of these names have scanned the input, and found what it gives them. -/
structure Registered (given : List Assignment) (names : List Bytes) (h : Handler) : Prop where
  input : h.input = commandLine given
  parsed : ∀ name, h.parsedInput[name]? =
    if name ∈ names then (argumentOf given name).map fun argument => [argument] else none

def pairs (given : List Assignment) : List (Bytes × Bytes) :=
  given.map fun assignment => (assignment.name, assignment.value.argument)

theorem commandLine_eq (given : List Assignment) : commandLine given = words (pairs given) := by
  rw [words, pairs, List.flatMap_map]
  rfl

theorem pairs_names (given : List Assignment) :
    (pairs given).map Prod.fst = given.map Assignment.name := by
  simp [pairs, Function.comp_def]

section Register

variable {given : List Assignment} {names : List Bytes} {h : Handler}

theorem notMem_of_argumentOf {name : Bytes} (hn : argumentOf given name = none) :
    name ∉ given.map Assignment.name := by
  rw [argumentOf, Option.map_eq_none_iff, List.find?_eq_none] at hn
  intro hmem
  obtain ⟨assignment, hassignment, rfl⟩ := List.mem_map.mp hmem
  exact hn assignment hassignment (decide_eq_true rfl)

theorem find_name {name : Bytes} {assignment : Assignment}
    (hfind : (given.find? fun assignment => assignment.name = name) = some assignment) :
    assignment ∈ given ∧ assignment.name = name := by
  have hname := List.find?_some hfind
  exact ⟨List.mem_of_find?_eq_some hfind, of_decide_eq_true hname⟩

theorem mem_pairs_of_argumentOf {name argument : Bytes}
    (hn : argumentOf given name = some argument) : (name, argument) ∈ pairs given := by
  obtain ⟨assignment, hfind, rfl⟩ := Option.map_eq_some_iff.mp hn
  obtain ⟨hmem, rfl⟩ := find_name hfind
  exact List.mem_map_of_mem hmem

/-- One more name has been looked for, and no other entry of the map has changed. -/
theorem Registered.cons (hr : Registered given names h) {name : Bytes} (parsed : ParsedInput)
    (hself : parsed[name]? = (argumentOf given name).map fun argument => [argument])
    (hother : ∀ name', name' ≠ name → parsed[name']? = h.parsedInput[name']?)
    (options : List HandlerOption) :
    Registered given (name :: names) ⟨options, h.input, parsed⟩ := by
  refine ⟨hr.input, fun name' => ?_⟩
  by_cases hn : name' = name
  · subst hn
    rw [hself, if_pos List.mem_cons_self]
  · rw [hother name' hn, hr.parsed]
    simp only [List.mem_cons, hn, false_or]

theorem addOption_registered (hplain : ∀ assignment ∈ given, Plain assignment.value.argument)
    (hdistinct : (given.map Assignment.name).Nodup) {shortName : UInt8} {name : Bytes}
    (type : ArgumentType) (hshort : shortName ≠ 45) (hfresh : name ∉ names)
    (htype : type = .required ∨ argumentOf given name = none) (hr : Registered given names h) :
    ∃ h', h.addOption shortName name type false = .ok h' ∧
      Registered given (name :: names) h' := by
  have hplain' : ∀ pair ∈ pairs given, Plain pair.2 := by
    intro pair hpair
    obtain ⟨assignment, hassignment, rfl⟩ := List.mem_map.mp hpair
    exact hplain assignment hassignment
  have hnone : h.parsedInput[name]? = none := by rw [hr.parsed, if_neg hfresh]
  cases hargument : argumentOf given name with
  | none =>
    have hunnamed : name ∉ (pairs given).map Prod.fst := by
      rw [pairs_names]
      exact notMem_of_argumentOf hargument
    have hupdate := HandlerOption.update_unnamed ⟨shortName, name, type, false⟩ hshort
      hplain' hunnamed h.parsedInput
    rw [← commandLine_eq, ← hr.input] at hupdate
    refine ⟨_, ?_, hr.cons h.parsedInput ?_ (fun _ _ => rfl)
      (h.declaredOptions ++ [⟨shortName, name, type, false⟩])⟩
    · rw [Handler.addOption, hupdate]
      rfl
    · rw [hnone, hargument]
      rfl
  | some argument =>
    have hrequired : type = .required := htype.resolve_right (by simp [hargument])
    have hupdate := HandlerOption.update_named ⟨shortName, name, type, false⟩ hshort hrequired
      hplain' (by rw [pairs_names]; exact hdistinct)
      (mem_pairs_of_argumentOf hargument) h.parsedInput
    rw [← commandLine_eq, ← hr.input, HandlerOption.store] at hupdate
    simp only [hnone] at hupdate
    refine ⟨_, ?_, hr.cons (h.parsedInput.insert name [argument]) ?_ ?_
      (h.declaredOptions ++ [⟨shortName, name, type, false⟩])⟩
    · rw [Handler.addOption, hupdate]
      rfl
    · rw [Std.TreeMap.getElem?_insert_self, hargument]
      rfl
    · intro name' hn
      rw [Std.TreeMap.getElem?_insert, if_neg (by simpa using hn.symm)]

/-- The loop that registers the options of all sections. -/
theorem registerOptions_eq (options : OptionList) (h : Handler) :
    registerOptions options h =
      (allOptions options).foldlM (fun h option => option.registerOption h) h := by
  induction options generalizing h with
  | nil => rfl
  | cons section' sections ih =>
    rw [allOptions, List.flatMap_cons, List.foldlM_append]
    show (section'.2.foldlM _ h >>= registerOptions sections) = _
    congr
    funext h
    exact ih h

theorem foldlM_registered (hplain : ∀ assignment ∈ given, Plain assignment.value.argument)
    (hdistinct : (given.map Assignment.name).Nodup) {options : List ArgOption}
    (hshort : ∀ option ∈ options, option.shortName ≠ 45)
    (htype : ∀ option ∈ options,
      option.type = .required ∨ argumentOf given option.name = none)
    (hnames : (options.map ArgOption.name).Nodup)
    (hfresh : ∀ option ∈ options, option.name ∉ names) (hr : Registered given names h) :
    ∃ h', options.foldlM (fun h option => option.registerOption h) h = .ok h' ∧
      Registered given ((options.map ArgOption.name).reverse ++ names) h' := by
  induction options generalizing names h with
  | nil => exact ⟨h, rfl, hr⟩
  | cons option options ih =>
    obtain ⟨hshort₁, hshort⟩ := List.forall_mem_cons.mp hshort
    obtain ⟨htype₁, htype⟩ := List.forall_mem_cons.mp htype
    obtain ⟨hfresh₁, hfresh⟩ := List.forall_mem_cons.mp hfresh
    rw [List.map_cons, List.nodup_cons] at hnames
    obtain ⟨h', hadd, hr'⟩ := addOption_registered hplain hdistinct option.type hshort₁
      hfresh₁ htype₁ hr
    have hfresh' : ∀ other ∈ options, other.name ∉ option.name :: names := by
      intro other hother hmem
      rcases List.mem_cons.mp hmem with he | hmem
      · exact hnames.1 (he ▸ List.mem_map_of_mem hother)
      · exact hfresh other hother hmem
    obtain ⟨h'', hrest, hr''⟩ := ih hshort htype hnames.2 hfresh' hr'
    refine ⟨h'', ?_, ?_⟩
    · rw [List.foldlM_cons, ArgOption.registerOption, hadd, ok_bind]
      exact hrest
    · rw [List.map_cons, List.reverse_cons, List.append_assoc]
      exact hr''

/-! ## Reading -/

theorem Registered.getOption_eq (hr : Registered given names h) {name : Bytes}
    (hname : name ∈ names) : h.getOption name = (argumentOf given name).isSome := by
  have hparsed := hr.parsed name
  rw [if_pos hname] at hparsed
  have hcontains : h.parsedInput.contains name = (argumentOf given name).isSome := by
    rw [Std.TreeMap.contains_eq_isSome_getElem?, hparsed, Option.isSome_map]
  rw [Handler.getOption, hcontains]
  cases hargument : (argumentOf given name).isSome with
  | false => rfl
  | true =>
    rw [hargument] at hcontains
    rw [Std.TreeMap.isEmpty_eq_false_of_contains hcontains]
    rfl

theorem Registered.getArgument_eq (hr : Registered given names h) {name argument : Bytes}
    (hname : name ∈ names) (hargument : argumentOf given name = some argument) :
    h.getArgument name = argument := by
  have hparsed := hr.parsed name
  rw [if_pos hname, hargument] at hparsed
  have hoption : h.getOption name = true := by
    rw [hr.getOption_eq hname, hargument]
    rfl
  simp only [Handler.getArgument, hoption, hparsed, Bool.not_true, Bool.false_eq_true,
    ↓reduceIte, Option.map_some]

/-- An option reads the value that is meant for it. -/
theorem readOption_eq {option : ArgOption} (hr : Registered given names h)
    (hname : option.name ∈ names)
    (hfor : ∀ assignment ∈ given, assignment.name = option.name → assignment.For option) :
    option.readOption h = .ok (option.assign given) := by
  have hget := hr.getOption_eq hname
  cases hfind : given.find? fun assignment => assignment.name = option.name with
  | none =>
    have hargument : argumentOf given option.name = none := by rw [argumentOf, hfind]; rfl
    rw [hargument] at hget
    unfold ArgOption.readOption ArgOption.assign
    rw [hget, hfind]
    rfl
  | some assignment =>
    have hargument : argumentOf given option.name = some assignment.value.argument := by
      rw [argumentOf, hfind]
      rfl
    obtain ⟨hmem, hn⟩ := find_name hfind
    have hthis := hfor assignment hmem hn
    have hread := hr.getArgument_eq hname hargument
    rw [hargument] at hget
    unfold ArgOption.readOption ArgOption.assign
    rw [hget, hfind]
    obtain ⟨name, value⟩ := assignment
    cases value with
    | int value =>
      cases option with
      | bool | str => exact hthis.elim
      | int shortName name' old =>
        have hstoll := stoll_decimalInt hthis.2.1 hthis.2.2
        simp only [ArgOption.name, Value.argument] at hread
        simp only [Option.isSome_some, ↓reduceIte, hread, hstoll]
        rfl
    | str value =>
      cases option with
      | bool | int => exact hthis.elim
      | str shortName name' old =>
        simp only [ArgOption.name, Value.argument] at hread
        simp only [Option.isSome_some, ↓reduceIte, hread]
        rfl

theorem readOptions_eq {options : List ArgOption}
    (hread : ∀ option ∈ options, option.readOption h = .ok (option.assign given)) :
    readOptions h options = (options.map (ArgOption.assign given), .ok ()) := by
  induction options with
  | nil => rfl
  | cons option options ih =>
    obtain ⟨hoption, hrest⟩ := List.forall_mem_cons.mp hread
    rw [readOptions, hoption]
    simp only [ih hrest, List.map_cons]

theorem readSections_eq {options : OptionList}
    (hread : ∀ option ∈ allOptions options, option.readOption h = .ok (option.assign given)) :
    readSections h options = (assignAll given options, .ok ()) := by
  induction options with
  | nil => rfl
  | cons section' sections ih =>
    rw [allOptions, List.flatMap_cons, List.forall_mem_append] at hread
    rw [readSections, readOptions_eq hread.1]
    simp only [ih hread.2]
    rfl

end Register

/-! ## The whole command line -/

section CommandLine

variable {options : OptionList} {given : List Assignment}

theorem Assignment.For.name_eq {assignment : Assignment} {option : ArgOption}
    (h : assignment.For option) : option.name = assignment.name := by
  unfold Assignment.For at h
  split at h
  · exact h.1
  · exact h.1
  · exact h.elim

/-- An assignment is for the one option that has its name. -/
theorem Gives.of_name (hg : Gives given options) (hw : WellNamed options)
    {option : ArgOption} (hoption : option ∈ allOptions options) {assignment : Assignment}
    (hassignment : assignment ∈ given) (hname : assignment.name = option.name) :
    assignment.For option := by
  obtain ⟨other, hother, hfor⟩ := hg.declared assignment hassignment
  have hsame := List.inj_on_of_nodup_map hw.distinct hother hoption (hfor.name_eq.trans hname)
  rwa [← hsame]

theorem argumentOf_eq_none {name : Bytes}
    (h : ∀ assignment ∈ given, assignment.name ≠ name) : argumentOf given name = none := by
  rw [argumentOf, Option.map_eq_none_iff, List.find?_eq_none]
  intro assignment hassignment
  simpa using h assignment hassignment

/-- A flag is given nothing. -/
theorem Gives.type_eq (hg : Gives given options) (hw : WellNamed options)
    {option : ArgOption} (hoption : option ∈ allOptions options) :
    option.type = .required ∨ argumentOf given option.name = none := by
  cases option with
  | int | str => exact .inl rfl
  | bool shortName name value =>
    refine .inr (argumentOf_eq_none fun assignment hassignment hn => ?_)
    have hfor := hg.of_name hw hoption hassignment hn
    unfold Assignment.For at hfor
    split at hfor <;> contradiction

theorem Gives.noHelp (hg : Gives given options) (hw : WellNamed options) :
    argumentOf given (text "help") = none := by
  refine argumentOf_eq_none fun assignment hassignment hn => ?_
  obtain ⟨option, hoption, hfor⟩ := hg.declared assignment hassignment
  exact hw.noHelp option hoption (hfor.name_eq.trans hn)

theorem plain_decimalInt {value : Int} (h : 0 ≤ value) : Plain (decimalInt value) := by
  obtain ⟨n, rfl⟩ := Int.eq_ofNat_of_zero_le h
  obtain ⟨c, ds, hd⟩ := List.exists_cons_of_ne_nil (decimal_ne_nil n)
  have hdigit := isDigit_of_mem_decimal n c (by rw [hd]; exact List.mem_cons_self)
  show decimal n ≠ [] ∧ (decimal n).head? ≠ some 45
  rw [hd]
  refine ⟨List.cons_ne_nil c ds, fun he => ?_⟩
  obtain rfl := Option.some.inj he
  exact absurd hdigit (by decide)

theorem dash_decimalInt {value : Int} (h : value < 0) :
    ∃ c ds, decimalInt value = 45 :: c :: ds := by
  obtain ⟨n, rfl⟩ := Int.eq_negSucc_of_lt_zero h
  obtain ⟨c, ds, hd⟩ := List.exists_cons_of_ne_nil (decimal_ne_nil (n + 1))
  exact ⟨c, ds, congrArg (45 :: ·) hd⟩

/-- Where no integer is negative, nothing that is given looks like an option. -/
theorem Gives.plain (hg : Gives given options)
    (h : ∀ assignment ∈ given, ∀ value, assignment.value = .int value → 0 ≤ value) :
    ∀ assignment ∈ given, Plain assignment.value.argument := by
  intro assignment hassignment
  obtain ⟨option, -, hfor⟩ := hg.declared assignment hassignment
  have hvalue := h assignment hassignment
  obtain ⟨name, value⟩ := assignment
  cases value with
  | int value => exact plain_decimalInt (hvalue value rfl)
  | str value =>
    cases option with
    | bool | int => exact hfor.elim
    | str shortName name' old => exact hfor.2

/-- An option that no handler with this input takes ends the registration. -/
theorem foldlM_error {input : List Bytes} {all : List ArgOption} {option : ArgOption}
    (hoption : option ∈ all)
    (herror : ∀ h : Handler, h.input = input → ∃ e, option.registerOption h = .error e)
    (h : Handler) (hinput : h.input = input) :
    ∃ e, all.foldlM (fun h option => option.registerOption h) h = .error e := by
  induction all generalizing h with
  | nil => cases hoption
  | cons other all ih =>
    rw [List.foldlM_cons]
    rcases List.mem_cons.mp hoption with rfl | hoption
    · obtain ⟨e, he⟩ := herror h hinput
      exact ⟨e, by rw [he]; rfl⟩
    · cases hother : other.registerOption h with
      | error e => exact ⟨e, rfl⟩
      | ok h' =>
        exact ih hoption h' ((Handler.addOption_input hother).trans hinput)

/-- A negative integer begins with a dash, and so is no argument. -/
theorem Gives.error_of_negative (hg : Gives given options) (hw : WellNamed options)
    {name : Bytes} {value : Int} (hmem : ⟨name, .int value⟩ ∈ given) (hneg : value < 0)
    (h : Handler) (hinput : h.input = commandLine given) :
    ∃ e, registerOptions options h = .error e := by
  obtain ⟨option, hoption, hfor⟩ := hg.declared _ hmem
  obtain ⟨c, ds, hdash⟩ := dash_decimalInt hneg
  have hpair : (option.name, 45 :: c :: ds) ∈ pairs given := by
    rw [hfor.name_eq, ← hdash]
    exact List.mem_map_of_mem hmem
  rw [registerOptions_eq]
  refine foldlM_error hoption (fun h hinput => ?_) h hinput
  have hrequired : option.type = .required := by
    cases option with
    | bool | str => exact hfor.elim
    | int => rfl
  obtain ⟨e, he⟩ := HandlerOption.update_dash ⟨option.shortName, option.name, option.type, false⟩
    (hw.noDash option hoption) hrequired hpair h.parsedInput
  rw [← commandLine_eq, ← hinput] at he
  refine ⟨e, ?_⟩
  rw [ArgOption.registerOption, Handler.addOption, he]
  rfl

/-- What looks like no option is an argument, and each variable reads its own. -/
theorem Gives.parseArgOptions_eq (program : Bytes) (hw : WellNamed options)
    (hg : Gives given options)
    (h : ∀ assignment ∈ given, ∀ value, assignment.value = .int value → 0 ≤ value) :
    parseArgOptions (program :: commandLine given) options = (true, assignAll given options) := by
  have hplain := hg.plain h
  have hstart : Registered given [] (.construct (program :: commandLine given)) :=
    ⟨rfl, fun name => Std.TreeMap.getElem?_emptyc⟩
  obtain ⟨h', hall, hr⟩ := foldlM_registered hplain hg.distinct hw.noDash
    (fun option hoption => hg.type_eq hw hoption) hw.distinct (fun _ _ => List.not_mem_nil)
    hstart
  have hhelp : text "help" ∉ ((allOptions options).map ArgOption.name).reverse ++ [] := by
    rw [List.append_nil, List.mem_reverse]
    intro hmem
    obtain ⟨option, hoption, hname⟩ := List.mem_map.mp hmem
    exact hw.noHelp option hoption hname
  have hshort : (104 : UInt8) ≠ 45 := by decide
  obtain ⟨h'', hadd, hr'⟩ := addOption_registered hplain hg.distinct .none hshort hhelp
    (.inr (hg.noHelp hw)) hr
  have hnohelp : h''.getOption (text "help") = false := by
    rw [hr'.getOption_eq List.mem_cons_self, hg.noHelp hw]
    rfl
  have hread : ∀ option ∈ allOptions options,
      option.readOption h'' = .ok (option.assign given) := by
    intro option hoption
    refine readOption_eq hr' ?_ fun assignment hassignment hn =>
      hg.of_name hw hoption hassignment hn
    apply List.mem_cons_of_mem
    rw [List.append_nil, List.mem_reverse]
    exact List.mem_map_of_mem hoption
  rw [parseArgOptions, registerOptions_eq, hall]
  simp only [ok_bind, hadd, hnohelp, readSections_eq hread, Bool.false_eq_true, ↓reduceIte]

/-- **The command line is parsed as it is meant** if and only if no integer on it is
negative. -/
theorem parseArgOptions_iff (program : Bytes) (hw : WellNamed options)
    (hg : Gives given options) :
    parseArgOptions (program :: commandLine given) options = (true, assignAll given options) ↔
      ∀ assignment ∈ given, ∀ value, assignment.value = .int value → 0 ≤ value := by
  constructor
  · intro h assignment hassignment value hvalue
    obtain ⟨name, value'⟩ := assignment
    obtain rfl : value' = .int value := hvalue
    by_contra hneg
    obtain ⟨e, he⟩ := hg.error_of_negative hw hassignment (by omega)
      (.construct (program :: commandLine given)) rfl
    rw [parseArgOptions, he] at h
    exact Bool.false_ne_true (congrArg Prod.fst h)
  · exact hg.parseArgOptions_eq program hw

end CommandLine

/-- Some options of the database. -/
def dbOptions : OptionList :=
  [(text "DB", [.str 63 (text "db_path") (text "/tmp/quitsies"), .int 63 (text "db_ttl") 0,
    .int 63 (text "db_max_open_files") (-1), .bool 100 (text "db_debug") false])]

theorem wellNamed_dbOptions : WellNamed dbOptions := ⟨by decide, by decide, by decide⟩

theorem parseArgOptions_db :
    parseArgOptions (text "quitsies" :: commandLine [⟨text "db_ttl", .int 60⟩,
        ⟨text "db_path", .str (text "/data")⟩]) dbOptions =
      (true, assignAll [⟨text "db_ttl", .int 60⟩, ⟨text "db_path", .str (text "/data")⟩]
        dbOptions) ↔
      ∀ assignment ∈ ([⟨text "db_ttl", .int 60⟩, ⟨text "db_path", .str (text "/data")⟩] :
        List Assignment), ∀ value, assignment.value = .int value → 0 ≤ value := by
  apply parseArgOptions_iff _ wellNamed_dbOptions
  refine ⟨by decide, ?_⟩
  simp only [List.forall_mem_cons]
  refine ⟨⟨.int 63 (text "db_ttl") 0, by decide, rfl, by decide, by decide⟩,
    ⟨.str 63 (text "db_path") (text "/tmp/quitsies"), by decide, rfl, by decide, by decide⟩,
    fun assignment h => absurd h List.not_mem_nil⟩

/-- The unlimited number of open files cannot be asked for. -/
theorem parseArgOptions_unlimited :
    WellNamed dbOptions ∧ Gives [⟨text "db_max_open_files", .int (-1)⟩] dbOptions ∧
      parseArgOptions (text "quitsies" :: commandLine [⟨text "db_max_open_files", .int (-1)⟩])
        dbOptions ≠
      (true, assignAll [⟨text "db_max_open_files", .int (-1)⟩] dbOptions) := by
  refine ⟨wellNamed_dbOptions, ⟨by decide, ?_⟩, ?_⟩
  · intro assignment h
    obtain rfl := List.mem_singleton.mp h
    exact ⟨.int 63 (text "db_max_open_files") (-1), by decide, rfl, by decide, by decide⟩
  · intro h
    exact absurd (congrArg Prod.fst h) (by decide)

end Quitsies.Cli
