import Mathlib.Data.List.Forall2
import Mathlib.Data.List.Induction
import Quitsies.Cli.Options

/-!
# What a command line means

Each option scans the whole input by itself and keeps what it finds under its long name.
Where the long names differ no option meets another's arguments, so any command line at
all is read option by option: the last argument behind the last naming of an option is
the one that counts.
-/

namespace Quitsies.Cli

open Text

/-! ## What a scan makes of the input -/

/-- Its first byte can be asked for, and the second behind a dash. -/
def Readable (s : Bytes) : Prop := s ≠ [] ∧ s ≠ [45]

def Dashed (s : Bytes) : Prop := s.head? = some 45

instance (s : Bytes) : Decidable (Readable s) := inferInstanceAs (Decidable (_ ∧ _))

instance (s : Bytes) : Decidable (Dashed s) := inferInstanceAs (Decidable (_ = _))

theorem isOption_readable {s : Bytes} (h : Readable s) : isOption s = .ok (decide (Dashed s)) := by
  obtain ⟨c, s, rfl⟩ := List.exists_cons_of_ne_nil h.1
  by_cases hc : c = 45
  · subst hc
    obtain ⟨d, s, rfl⟩ := List.exists_cons_of_ne_nil (fun he => h.2 (congrArg _ he) : s ≠ [])
    exact isOption_dash d s
  · have hplain : Plain (c :: s) := ⟨h.1, fun he => hc (Option.some.inj he)⟩
    have hd : ¬ Dashed (c :: s) := hplain.2
    rw [isOption_plain hplain, decide_eq_false hd]

theorem isOption_unreadable {s : Bytes} (h : ¬ Readable s) : isOption s = .error .outOfRange := by
  obtain rfl | rfl : s = [] ∨ s = [45] := by
    rw [Readable, not_and_or, not_not, not_not] at h
    exact h
  · rfl
  · rfl

namespace HandlerOption

variable {option : HandlerOption} {input : List Bytes}

/-- The string names the option: by its second byte, or by what is behind the second. -/
def NamedBy (option : HandlerOption) (s : Bytes) : Prop :=
  Dashed s ∧ (s[1]? = some option.shortName ∨ s.drop 2 = option.longName)

instance (option : HandlerOption) (s : Bytes) : Decidable (option.NamedBy s) :=
  inferInstanceAs (Decidable (_ ∧ _))

/-- What stands behind each naming of the option, up to the next option. -/
def occurrences (option : HandlerOption) : List Bytes → List (List Bytes)
  | [] => []
  | s :: rest =>
    if option.NamedBy s then (rest.takeWhile fun s => ¬ Dashed s) :: option.occurrences rest
    else option.occurrences rest

/-- An option is given what its type asks for. -/
def Fits (option : HandlerOption) (occurrence : List Bytes) : Prop :=
  match option.type with
  | .none => occurrence = []
  | .required => occurrence ≠ []
  | .optional => True

instance (option : HandlerOption) (occurrence : List Bytes) :
    Decidable (option.Fits occurrence) :=
  match option with
  | ⟨_, _, .none, _⟩ => inferInstanceAs (Decidable (occurrence = []))
  | ⟨_, _, .required, _⟩ => inferInstanceAs (Decidable (occurrence ≠ []))
  | ⟨_, _, .optional, _⟩ => isTrue trivial

/-- No scan for the option throws. -/
structure Accepts (option : HandlerOption) (input : List Bytes) : Prop where
  readable : ∀ s ∈ input, Readable s
  fits : ∀ occurrence ∈ option.occurrences input, option.Fits occurrence

/-- What an occurrence does to the map. -/
def enter (option : HandlerOption) (parsed : ParsedInput) (occurrence : List Bytes) :
    ParsedInput :=
  match option.type with
  | .none => if parsed.contains option.longName then parsed else parsed.insert option.longName []
  | _ => occurrence.foldl (fun parsed s => option.store s parsed) parsed

theorem named_readable {s : Bytes} (h : Readable s) :
    option.named s = .ok (decide (option.NamedBy s)) := by
  rw [named, isOption_readable h, ok_bind]
  by_cases hd : Dashed s
  · have hs := h.2
    obtain ⟨c, s, rfl⟩ := List.exists_cons_of_ne_nil h.1
    obtain rfl : c = 45 := Option.some.inj hd
    obtain ⟨c, s, rfl⟩ := List.exists_cons_of_ne_nil (fun he => hs (congrArg _ he) : s ≠ [])
    rw [decide_eq_true hd, if_pos rfl, charAt_one, ok_bind]
    by_cases hshort : c = option.shortName
    · have hnamed : option.NamedBy (45 :: c :: s) := ⟨hd, .inl (congrArg some hshort)⟩
      rw [if_pos hshort, decide_eq_true hnamed]
      rfl
    · have hnamed : option.NamedBy (45 :: c :: s) ↔ (45 :: c :: s).drop 2 = option.longName :=
        ⟨fun hn => hn.2.resolve_left fun he => hshort (Option.some.inj he), fun he => ⟨hd, .inr he⟩⟩
      rw [if_neg hshort]
      exact congrArg Except.ok (decide_eq_decide.mpr hnamed.symm)
  · have hnamed : ¬ option.NamedBy s := fun hn => hd hn.1
    rw [decide_eq_false hd, decide_eq_false hnamed]
    rfl

theorem collect_readable (h : ∀ s ∈ input, Readable s) (parsed : ParsedInput) :
    option.collect input parsed =
      .ok ((input.takeWhile fun s => ¬ Dashed s).foldl
        (fun parsed s => option.store s parsed) parsed) := by
  induction input generalizing parsed with
  | nil => rfl
  | cons s rest ih =>
    obtain ⟨hs, hrest⟩ := List.forall_mem_cons.mp h
    rw [collect, isOption_readable hs, ok_bind]
    by_cases hd : Dashed s
    · rw [decide_eq_true hd, if_pos rfl, List.takeWhile_cons_of_neg (by simpa using hd)]
      rfl
    · rw [decide_eq_false hd, if_neg Bool.false_ne_true, ih hrest,
        List.takeWhile_cons_of_pos (by simpa using hd)]
      rfl

/-- Where the option is named, the iterator behind it stops at the next option. -/
theorem updateOptional_readable {str : Bytes} (hstr : Readable str) (hd : Dashed str)
    (h : ∀ s ∈ input, Readable s) (parsed : ParsedInput) :
    option.updateOptional str input parsed =
      .ok ((input.takeWhile fun s => ¬ Dashed s).foldl
        (fun parsed s => option.store s parsed) parsed) := by
  rw [updateOptional]
  split
  · next hnil =>
    subst hnil
    rw [collect, isOption_readable hstr, ok_bind, decide_eq_true hd]
    rfl
  · exact collect_readable h parsed

/-- The next string is an argument, if there is one that is no option. -/
theorem takeWhile_eq_nil_iff {s : Bytes} {rest : List Bytes} :
    ((s :: rest).takeWhile fun s => ¬ Dashed s) = [] ↔ Dashed s := by
  rw [List.takeWhile_cons]
  by_cases hd : Dashed s <;> simp [hd]

theorem updateType_readable {str : Bytes} (hstr : Readable str) (hd : Dashed str)
    (h : ∀ s ∈ input, Readable s) (parsed : ParsedInput) :
    (option.Fits (input.takeWhile fun s => ¬ Dashed s) →
      option.updateType str input parsed =
        .ok (option.enter parsed (input.takeWhile fun s => ¬ Dashed s))) ∧
    (¬ option.Fits (input.takeWhile fun s => ¬ Dashed s) →
      ∃ e, option.updateType str input parsed = .error e) := by
  have hoptional : option.updateOptional str input parsed = .ok _ :=
    updateOptional_readable hstr hd h parsed
  unfold updateType Fits enter
  cases option.type with
  | optional => exact ⟨fun _ => hoptional, fun hn => absurd trivial hn⟩
  | required =>
    cases input with
    | nil => exact ⟨fun hf => absurd rfl hf, fun _ => ⟨_, rfl⟩⟩
    | cons next rest =>
      simp only [updateRequired, isOption_readable (h next List.mem_cons_self), ok_bind, ne_eq,
        takeWhile_eq_nil_iff]
      by_cases hn : Dashed next
      · rw [decide_eq_true hn]
        exact ⟨fun hf => absurd hn hf, fun _ => ⟨_, rfl⟩⟩
      · rw [decide_eq_false hn]
        exact ⟨fun _ => hoptional, fun hf => absurd hn hf⟩
  | none =>
    cases input with
    | nil =>
      refine ⟨fun _ => ?_, fun hf => absurd rfl hf⟩
      cases hc : parsed.contains option.longName <;> rw [updateNone, hc] <;> rfl
    | cons next rest =>
      rw [updateNone, isOption_readable (h next List.mem_cons_self), ok_bind,
        takeWhile_eq_nil_iff]
      by_cases hn : Dashed next
      · rw [decide_eq_true hn]
        refine ⟨fun _ => ?_, fun hf => absurd hn hf⟩
        cases parsed.contains option.longName <;> rfl
      · rw [decide_eq_false hn]
        exact ⟨fun hf => absurd hf hn, fun _ => ⟨_, rfl⟩⟩

/-- A scan enters what it finds, occurrence by occurrence. -/
theorem update_accepted (h : option.Accepts input) (parsed : ParsedInput) :
    option.update input parsed = .ok ((option.occurrences input).foldl option.enter parsed) := by
  obtain ⟨hreadable, hfits⟩ := h
  induction input generalizing parsed with
  | nil => rfl
  | cons s rest ih =>
    obtain ⟨hs, hrest⟩ := List.forall_mem_cons.mp hreadable
    rw [occurrences] at hfits ⊢
    rw [update, named_readable hs, ok_bind]
    by_cases hn : option.NamedBy s
    · rw [if_pos hn] at hfits ⊢
      obtain ⟨hfit, hfits⟩ := List.forall_mem_cons.mp hfits
      have htype := (updateType_readable hs hn.1 hrest parsed).1 hfit
      rw [decide_eq_true hn, if_pos rfl, htype, ok_bind, List.foldl_cons]
      exact ih _ hrest hfits
    · rw [if_neg hn] at hfits ⊢
      rw [decide_eq_false hn, if_neg Bool.false_ne_true]
      exact ih _ hrest hfits

/-- A string that cannot be read is reached by every scan, whatever else is wrong. -/
theorem update_unreadable {s : Bytes} (hs : ¬ Readable s) (hmem : s ∈ input)
    (parsed : ParsedInput) : ∃ e, option.update input parsed = .error e := by
  induction input generalizing parsed with
  | nil => cases hmem
  | cons next rest ih =>
    rcases List.mem_cons.mp hmem with rfl | hmem
    · rw [update, named, isOption_unreadable hs]
      exact ⟨_, rfl⟩
    · exact update_cons_error (ih hmem) parsed

theorem update_misfit (hreadable : ∀ s ∈ input, Readable s) {occurrence : List Bytes}
    (hmem : occurrence ∈ option.occurrences input) (hfit : ¬ option.Fits occurrence)
    (parsed : ParsedInput) : ∃ e, option.update input parsed = .error e := by
  induction input generalizing parsed with
  | nil => cases hmem
  | cons s rest ih =>
    obtain ⟨hs, hrest⟩ := List.forall_mem_cons.mp hreadable
    rw [occurrences] at hmem
    by_cases hn : option.NamedBy s
    · rw [if_pos hn] at hmem
      rcases List.mem_cons.mp hmem with rfl | hmem
      · obtain ⟨e, he⟩ := (updateType_readable hs hn.1 hrest parsed).2 hfit
        rw [update, named_readable hs, ok_bind, decide_eq_true hn, if_pos rfl, he]
        exact ⟨e, rfl⟩
      · exact update_cons_error (ih hrest hmem) parsed
    · rw [if_neg hn] at hmem
      exact update_cons_error (ih hrest hmem) parsed

theorem update_rejected (h : ¬ option.Accepts input) (parsed : ParsedInput) :
    ∃ e, option.update input parsed = .error e := by
  by_cases hreadable : ∀ s ∈ input, Readable s
  · have hfits : ¬ ∀ occurrence ∈ option.occurrences input, option.Fits occurrence :=
      fun hf => h ⟨hreadable, hf⟩
    simp only [not_forall, exists_prop] at hfits
    obtain ⟨occurrence, hmem, hfit⟩ := hfits
    exact update_misfit hreadable hmem hfit parsed
  · simp only [not_forall, exists_prop] at hreadable
    obtain ⟨s, hmem, hs⟩ := hreadable
    exact update_unreadable hs hmem parsed

/-! ## The entry that is left -/

def lastArgument (option : HandlerOption) (input : List Bytes) : Option Bytes :=
  (option.occurrences input).flatten.getLast?

/-- What the map holds under the long name when the scan is over. -/
def entry (option : HandlerOption) (input : List Bytes) : Option (List Bytes) :=
  match option.type with
  | .none => if option.occurrences input = [] then none else some []
  | _ => (option.lastArgument input).map fun s => [s]

theorem store_other (s : Bytes) (parsed : ParsedInput) {name : Bytes}
    (hn : name ≠ option.longName) : (option.store s parsed)[name]? = parsed[name]? := by
  rw [store]
  split
  · rw [Std.TreeMap.getElem?_insert, if_neg (by simpa using hn.symm)]
  · split <;> rw [Std.TreeMap.getElem?_insert, if_neg (by simpa using hn.symm)]

theorem foldl_store_other (occurrence : List Bytes) (parsed : ParsedInput) {name : Bytes}
    (hn : name ≠ option.longName) :
    (occurrence.foldl (fun parsed s => option.store s parsed) parsed)[name]? =
      parsed[name]? := by
  induction occurrence generalizing parsed with
  | nil => rfl
  | cons s rest ih => exact (ih _).trans (store_other s parsed hn)

theorem enter_other (parsed : ParsedInput) (occurrence : List Bytes) {name : Bytes}
    (hn : name ≠ option.longName) : (option.enter parsed occurrence)[name]? = parsed[name]? := by
  cases htype : option.type with
  | none =>
    simp only [enter, htype]
    split
    · rfl
    · rw [Std.TreeMap.getElem?_insert, if_neg (by simpa using hn.symm)]
  | required =>
    simp only [enter, htype]
    exact foldl_store_other occurrence parsed hn
  | optional =>
    simp only [enter, htype]
    exact foldl_store_other occurrence parsed hn

theorem foldl_enter_other (occurrences : List (List Bytes)) (parsed : ParsedInput) {name : Bytes}
    (hn : name ≠ option.longName) :
    (occurrences.foldl option.enter parsed)[name]? = parsed[name]? := by
  induction occurrences generalizing parsed with
  | nil => rfl
  | cons occurrence rest ih => exact (ih _).trans (enter_other parsed occurrence hn)

/-- The last argument replaces those before it. -/
theorem foldl_store_own (hmultiple : option.multiple = false) (occurrence : List Bytes)
    {parsed : ParsedInput} (hfresh : parsed[option.longName]? = none) :
    (occurrence.foldl (fun parsed s => option.store s parsed) parsed)[option.longName]? =
      occurrence.getLast?.map fun s => [s] := by
  induction occurrence using List.reverseRecOn with
  | nil => exact hfresh
  | append_singleton occurrence s ih =>
    rw [List.foldl_append, List.foldl_cons, List.foldl_nil, List.getLast?_concat, store, ih]
    cases occurrence.getLast? with
    | none => exact Std.TreeMap.getElem?_insert_self
    | some last =>
      simp only [Option.map_some, hmultiple, Bool.false_eq_true, ↓reduceIte]
      exact Std.TreeMap.getElem?_insert_self

/-- A flag is entered once, empty. -/
theorem foldl_flag_own (htype : option.type = .none) (occurrences : List (List Bytes))
    {parsed : ParsedInput} (h : parsed[option.longName]? = some []) :
    (occurrences.foldl option.enter parsed)[option.longName]? = some [] := by
  induction occurrences generalizing parsed with
  | nil => exact h
  | cons occurrence rest ih =>
    have hcontains : parsed.contains option.longName = true := by
      rw [Std.TreeMap.contains_eq_isSome_getElem?, h]
      rfl
    refine ih ?_
    simp only [enter, htype, hcontains, ↓reduceIte]
    exact h

theorem foldl_enter_own (hmultiple : option.multiple = false) {parsed : ParsedInput}
    (hfresh : parsed[option.longName]? = none) (input : List Bytes) :
    ((option.occurrences input).foldl option.enter parsed)[option.longName]? =
      option.entry input := by
  have hstores : option.type ≠ .none → (option.occurrences input).foldl option.enter parsed =
      (option.occurrences input).flatten.foldl (fun parsed s => option.store s parsed) parsed := by
    intro htype
    rw [List.foldl_flatten]
    congr
    funext parsed occurrence
    unfold enter
    split
    · next hnone => exact absurd hnone htype
    · rfl
  unfold entry
  cases htype : option.type with
  | none =>
    cases hocc : option.occurrences input with
    | nil => exact hfresh
    | cons occurrence rest =>
      have hcontains : parsed.contains option.longName = false := by
        rw [Std.TreeMap.contains_eq_isSome_getElem?, hfresh]
        rfl
      refine foldl_flag_own htype rest ?_
      simp only [enter, htype, hcontains, Bool.false_eq_true, ↓reduceIte]
      exact Std.TreeMap.getElem?_insert_self
  | required =>
    rw [hstores (by rw [htype]; decide)]
    exact foldl_store_own hmultiple _ hfresh
  | optional =>
    rw [hstores (by rw [htype]; decide)]
    exact foldl_store_own hmultiple _ hfresh

end HandlerOption

/-! ## All the options -/

def ArgOption.handled (option : ArgOption) : HandlerOption :=
  ⟨option.shortName, option.name, option.type, false⟩

/-- The option that `parse_arg_options` adds itself. -/
def helpOption : HandlerOption := ⟨104, text "help", .none, false⟩

/-- What an option is once the input has been read: the last argument counts. -/
def ArgOption.means (option : ArgOption) (input : List Bytes) : Except Exception ArgOption :=
  match option with
  | .bool shortName name _ =>
    if option.handled.occurrences input = [] then .ok option
    else .ok (.bool shortName name true)
  | .int shortName name _ =>
    match option.handled.lastArgument input with
    | none => .ok option
    | some s =>
      match stoll s with
      | .ok value => .ok (.int shortName name value)
      | .error what => .error (.notANumber what)
  | .str shortName name _ =>
    match option.handled.lastArgument input with
    | none => .ok option
    | some s => .ok (.str shortName name s)

/-- Section by section, the options before and after. -/
def SectionsMean (input : List Bytes) : OptionList → OptionList → Prop :=
  List.Forall₂ fun section' read =>
    read.1 = section'.1 ∧
      List.Forall₂ (fun option option' => option.means input = .ok option') section'.2 read.2

section Scan

variable {input : List Bytes} {done : List HandlerOption} {h : Handler}

/-- The handler has scanned its input for these options. -/
structure Scanned (input : List Bytes) (done : List HandlerOption) (h : Handler) : Prop where
  whole : h.input = input
  own : ∀ option ∈ done, h.parsedInput[option.longName]? = option.entry input
  other : ∀ name, name ∉ done.map HandlerOption.longName → h.parsedInput[name]? = none

theorem addOption_scanned (hs : Scanned input done h) {option : HandlerOption}
    (hmultiple : option.multiple = false) (haccepts : option.Accepts input)
    (hfresh : option.longName ∉ done.map HandlerOption.longName) :
    ∃ h', h.addOption option.shortName option.longName option.type false = .ok h' ∧
      Scanned input (option :: done) h' := by
  obtain ⟨shortName, longName, type, multiple⟩ := option
  obtain rfl : multiple = false := hmultiple
  have hupdate := HandlerOption.update_accepted haccepts h.parsedInput
  rw [← hs.whole] at hupdate
  refine ⟨_, congrArg (· >>= _) hupdate, hs.whole, ?_, ?_⟩
  · intro option hmem
    rcases List.mem_cons.mp hmem with rfl | hmem
    · rw [← hs.whole]
      exact HandlerOption.foldl_enter_own rfl (hs.other longName hfresh) h.input
    · have hn : option.longName ≠ longName :=
        fun he => hfresh (List.mem_map.mpr ⟨option, hmem, he⟩)
      refine Eq.trans ?_ (hs.own option hmem)
      exact HandlerOption.foldl_enter_other _ _ hn
  · intro name hname
    rw [List.map_cons, List.mem_cons, not_or] at hname
    exact (HandlerOption.foldl_enter_other _ _ hname.1).trans (hs.other name hname.2)

theorem foldlM_scanned {options : List ArgOption}
    (haccepts : ∀ option ∈ options, option.handled.Accepts input)
    (hnames : (options.map ArgOption.name).Nodup)
    (hfresh : ∀ option ∈ options, option.name ∉ done.map HandlerOption.longName)
    (hs : Scanned input done h) :
    ∃ h', options.foldlM (fun h option => option.registerOption h) h = .ok h' ∧
      Scanned input ((options.map ArgOption.handled).reverse ++ done) h' := by
  induction options generalizing done h with
  | nil => exact ⟨h, rfl, hs⟩
  | cons option options ih =>
    obtain ⟨haccepts₁, haccepts⟩ := List.forall_mem_cons.mp haccepts
    obtain ⟨hfresh₁, hfresh⟩ := List.forall_mem_cons.mp hfresh
    rw [List.map_cons, List.nodup_cons] at hnames
    obtain ⟨h', hadd, hs'⟩ := addOption_scanned hs rfl haccepts₁ hfresh₁
    have hfresh' : ∀ other ∈ options,
        other.name ∉ (option.handled :: done).map HandlerOption.longName := by
      intro other hother hmem
      rcases List.mem_cons.mp hmem with he | hmem
      · exact hnames.1 (List.mem_map.mpr ⟨other, hother, he⟩)
      · exact hfresh other hother hmem
    obtain ⟨h'', hrest, hs''⟩ := ih haccepts hnames.2 hfresh' hs'
    refine ⟨h'', ?_, ?_⟩
    · have hregister : option.registerOption h = .ok h' := hadd
      rw [List.foldlM_cons, hregister, ok_bind]
      exact hrest
    · rw [List.map_cons, List.reverse_cons, List.append_assoc]
      exact hs''

theorem Scanned.getOption_eq (hs : Scanned input done h) {option : HandlerOption}
    (hmem : option ∈ done) : h.getOption option.longName = (option.entry input).isSome := by
  have hcontains : h.parsedInput.contains option.longName = (option.entry input).isSome := by
    rw [Std.TreeMap.contains_eq_isSome_getElem?, hs.own option hmem]
  rw [Handler.getOption, hcontains]
  cases hentry : (option.entry input).isSome with
  | false => rfl
  | true =>
    rw [hentry] at hcontains
    rw [Std.TreeMap.isEmpty_eq_false_of_contains hcontains]
    rfl

theorem Scanned.getArgument_eq (hs : Scanned input done h) {option : HandlerOption}
    (hmem : option ∈ done) {s : Bytes} (hentry : option.entry input = some [s]) :
    h.getArgument option.longName = s := by
  have hget := hs.getOption_eq hmem
  have hown := hs.own option hmem
  rw [hentry] at hget hown
  simp only [Handler.getArgument, hget, hown, Option.isSome_some, Bool.not_true,
    Bool.false_eq_true, ↓reduceIte]

/-- What is read is what is meant: the entry holds the last argument, if there is one. -/
theorem Scanned.readOption_eq (hs : Scanned input done h) {option : ArgOption}
    (hmem : option.handled ∈ done) : option.readOption h = option.means input := by
  have hget : h.getOption option.name = (option.handled.entry input).isSome :=
    hs.getOption_eq hmem
  have hargument : ∀ {s}, option.handled.entry input = some [s] → h.getArgument option.name = s :=
    fun hentry => hs.getArgument_eq hmem hentry
  unfold ArgOption.readOption
  rw [hget]
  cases option with
  | bool shortName name value =>
    show (if (if _ = [] then none else some []).isSome = true then _ else _) =
      if _ = [] then _ else _
    split <;> rfl
  | int shortName name value =>
    have hentry : (ArgOption.int shortName name value).handled.entry input =
      ((ArgOption.int shortName name value).handled.lastArgument input).map fun s => [s] := rfl
    rw [ArgOption.means]
    cases hlast : (ArgOption.int shortName name value).handled.lastArgument input with
    | none =>
      rw [hlast] at hentry
      rw [hentry]
      rfl
    | some s =>
      rw [hlast] at hentry
      have hs : h.getArgument name = s := hargument hentry
      simp only [hentry, Option.map_some, Option.isSome_some, ↓reduceIte, hs]
      cases stoll s <;> rfl
  | str shortName name value =>
    have hentry : (ArgOption.str shortName name value).handled.entry input =
      ((ArgOption.str shortName name value).handled.lastArgument input).map fun s => [s] := rfl
    rw [ArgOption.means]
    cases hlast : (ArgOption.str shortName name value).handled.lastArgument input with
    | none =>
      rw [hlast] at hentry
      rw [hentry]
      rfl
    | some s =>
      rw [hlast] at hentry
      have hs : h.getArgument name = s := hargument hentry
      simp only [hentry, Option.map_some, Option.isSome_some, ↓reduceIte, hs]
      rfl

/-- The options of a section are read as they are meant, or one of them throws. -/
theorem readOptions_means {options read : List ArgOption}
    (hreads : ∀ option ∈ options, option.readOption h = option.means input) :
    readOptions h options = (read, .ok ()) ↔
      List.Forall₂ (fun option option' => option.means input = .ok option') options read := by
  induction options generalizing read with
  | nil =>
    rw [List.forall₂_nil_left_iff]
    exact ⟨fun he => (congrArg Prod.fst he).symm, fun he => by rw [he]; rfl⟩
  | cons option options ih =>
    obtain ⟨hoption, hrest⟩ := List.forall_mem_cons.mp hreads
    rw [readOptions, hoption, List.forall₂_cons_left_iff]
    cases hmeans : option.means input with
    | error e =>
      constructor
      · intro he
        cases congrArg Prod.snd he
      · rintro ⟨option', rest, he, -⟩
        cases he
    | ok option' =>
      constructor
      · intro he
        have hall : (readOptions h options).2 = .ok () := congrArg Prod.snd he
        obtain rfl : option' :: (readOptions h options).1 = read := congrArg Prod.fst he
        exact ⟨option', _, rfl, (ih hrest).mp (Prod.ext rfl hall), rfl⟩
      · rintro ⟨option'', rest, he, hforall, rfl⟩
        obtain rfl := Except.ok.inj he
        have hih := (ih hrest).mpr hforall
        simp only [hih]

theorem readSections_means {options read : OptionList}
    (hreads : ∀ option ∈ allOptions options, option.readOption h = option.means input) :
    readSections h options = (read, .ok ()) ↔ SectionsMean input options read := by
  induction options generalizing read with
  | nil =>
    rw [SectionsMean, List.forall₂_nil_left_iff]
    exact ⟨fun he => (congrArg Prod.fst he).symm, fun he => by rw [he]; rfl⟩
  | cons section' sections ih =>
    rw [allOptions, List.flatMap_cons, List.forall_mem_append] at hreads
    obtain ⟨title, options⟩ := section'
    rw [readSections, SectionsMean, List.forall₂_cons_left_iff]
    have hoptions : ∀ read, readOptions h options = (read, .ok ()) ↔ List.Forall₂ _ options read :=
      fun _ => readOptions_means hreads.1
    rcases hread : readOptions h options with ⟨options', error | ⟨⟩⟩
    · constructor
      · intro he
        cases congrArg Prod.snd he
      · rintro ⟨section'', rest, ⟨-, hforall⟩, -⟩
        rw [(hoptions _).mpr hforall] at hread
        cases congrArg Prod.snd hread
    · constructor
      · intro he
        have hall : (readSections h sections).2 = .ok () := congrArg Prod.snd he
        obtain rfl : (title, options') :: (readSections h sections).1 = read :=
          congrArg Prod.fst he
        exact ⟨(title, options'), _, ⟨rfl, (hoptions options').mp hread⟩,
          (ih hreads.2).mp (Prod.ext rfl hall), rfl⟩
      · rintro ⟨⟨title', options''⟩, rest, ⟨htitle, hforall⟩, hrest, rfl⟩
        obtain rfl : title' = title := htitle
        have hboth := ((hoptions _).mpr hforall).symm.trans hread
        obtain rfl : options'' = options' := congrArg Prod.fst hboth
        have hih := (ih hreads.2).mpr hrest
        simp only [hih]

end Scan

/-- Every option has scanned the input, the one for help included. -/
theorem registered_scanned {options : OptionList} {argv : List Bytes}
    (hnames : (text "help" :: (allOptions options).map ArgOption.name).Nodup)
    (haccepts : ∀ option ∈ allOptions options, option.handled.Accepts argv.tail)
    (hhelp : helpOption.Accepts argv.tail) :
    ∃ h, (registerOptions options (.construct argv) >>= fun h =>
        h.addOption 104 (text "help") .none false) = .ok h ∧
      Scanned argv.tail (helpOption :: ((allOptions options).map ArgOption.handled).reverse) h := by
  have hstart : Scanned argv.tail [] (.construct argv) :=
    ⟨rfl, fun _ hmem => absurd hmem List.not_mem_nil, fun _ _ => Std.TreeMap.getElem?_emptyc⟩
  rw [List.nodup_cons] at hnames
  obtain ⟨h, hall, hs⟩ := foldlM_scanned haccepts hnames.2 (fun _ _ => List.not_mem_nil) hstart
  rw [List.append_nil] at hs
  have hfresh : helpOption.longName ∉
      ((allOptions options).map ArgOption.handled).reverse.map HandlerOption.longName := by
    rw [List.map_reverse, List.mem_reverse, List.map_map]
    exact hnames.1
  obtain ⟨h', hadd, hs'⟩ := addOption_scanned hs rfl hhelp hfresh
  refine ⟨h', ?_, hs'⟩
  rw [registerOptions_eq, hall]
  exact hadd

theorem foldlM_input {options : List ArgOption} {h h' : Handler}
    (hall : options.foldlM (fun h option => option.registerOption h) h = .ok h') :
    h'.input = h.input := by
  induction options generalizing h with
  | nil =>
    obtain rfl := Except.ok.inj hall
    rfl
  | cons option options ih =>
    rw [List.foldlM_cons] at hall
    cases hadd : option.registerOption h with
    | error e =>
      rw [hadd] at hall
      cases hall
    | ok h₁ =>
      rw [hadd, ok_bind] at hall
      exact (ih hall).trans (Handler.addOption_input hadd)

/-- A scan that throws ends the registration. -/
theorem registered_accepts {options : OptionList} {argv : List Bytes} {h : Handler}
    (hregistered : (registerOptions options (.construct argv) >>= fun h =>
      h.addOption 104 (text "help") .none false) = .ok h) :
    (∀ option ∈ allOptions options, option.handled.Accepts argv.tail) ∧
      helpOption.Accepts argv.tail := by
  rw [registerOptions_eq] at hregistered
  constructor
  · intro option hoption
    by_contra hn
    have herror : ∀ h : Handler, h.input = argv.tail → ∃ e, option.registerOption h = .error e := by
      intro h hinput
      obtain ⟨e, he⟩ := HandlerOption.update_rejected hn h.parsedInput
      rw [← hinput] at he
      exact ⟨e, congrArg (· >>= _) he⟩
    obtain ⟨e, he⟩ := foldlM_error hoption herror (.construct argv) rfl
    rw [he] at hregistered
    cases hregistered
  · by_contra hn
    cases hall : (allOptions options).foldlM (fun h option => option.registerOption h)
        (Handler.construct argv) with
    | error e =>
      rw [hall] at hregistered
      cases hregistered
    | ok h₁ =>
      have hinput : h₁.input = argv.tail := foldlM_input hall
      obtain ⟨e, he⟩ := HandlerOption.update_rejected hn h₁.parsedInput
      rw [← hinput] at he
      have hadd : h₁.addOption 104 (text "help") .none false = .error e := congrArg (· >>= _) he
      rw [hall, ok_bind, hadd] at hregistered
      cases hregistered

/-- **A command line means what its options say one by one**: it is taken if and only if
every string can be read, help is not asked for and each option is given what its type asks
for and, if an integer, a number; then each variable has what its own arguments make of it. -/
theorem parseArgOptions_means {options : OptionList}
    (hnames : (text "help" :: (allOptions options).map ArgOption.name).Nodup)
    (argv : List Bytes) (read : OptionList) :
    parseArgOptions argv options = (true, read) ↔
      (∀ s ∈ argv.tail, Readable s) ∧ helpOption.occurrences argv.tail = [] ∧
        (∀ option ∈ allOptions options, ∀ occurrence ∈ option.handled.occurrences argv.tail,
          option.handled.Fits occurrence) ∧
        SectionsMean argv.tail options read := by
  have hboth : (∀ option ∈ allOptions options, option.handled.Accepts argv.tail) ∧
      helpOption.Accepts argv.tail → (parseArgOptions argv options = (true, read) ↔
        helpOption.occurrences argv.tail = [] ∧ SectionsMean argv.tail options read) := by
    rintro ⟨haccepts, hhelp⟩
    obtain ⟨h, hregistered, hs⟩ := registered_scanned hnames haccepts hhelp
    have hget := hs.getOption_eq List.mem_cons_self
    have hreads : ∀ option ∈ allOptions options, option.readOption h = option.means argv.tail := by
      intro option hoption
      refine hs.readOption_eq (List.mem_cons_of_mem _ ?_)
      rw [List.mem_reverse]
      exact List.mem_map_of_mem hoption
    have hentry : (helpOption.entry argv.tail).isSome =
        !decide (helpOption.occurrences argv.tail = []) := by
      show (if _ = [] then none else some []).isSome = _
      split
      · next hnone => rw [decide_eq_true hnone]; rfl
      · next hsome => rw [decide_eq_false hsome]; rfl
    have hget' : h.getOption (text "help") = !decide (helpOption.occurrences argv.tail = []) :=
      hget.trans hentry
    rw [parseArgOptions, hregistered, ← readSections_means hreads]
    simp only [hget']
    by_cases hnone : helpOption.occurrences argv.tail = []
    · simp only [hnone, decide_true, Bool.not_true, Bool.false_eq_true, ↓reduceIte, true_and]
      rcases readSections h options with ⟨options', error | ⟨⟩⟩ <;> simp
    · simp [hnone]
  constructor
  · intro h
    cases hregistered : (registerOptions options (.construct argv) >>= fun h =>
        h.addOption 104 (text "help") .none false) with
    | error e =>
      rw [parseArgOptions, hregistered] at h
      cases congrArg Prod.fst h
    | ok h₁ =>
      have haccepts := registered_accepts hregistered
      obtain ⟨hnone, hmeans⟩ := (hboth haccepts).mp h
      exact ⟨haccepts.2.readable, hnone, fun option hoption => (haccepts.1 option hoption).fits,
        hmeans⟩
  · rintro ⟨hreadable, hhelp, hfits, hmeans⟩
    have hnone : helpOption.Accepts argv.tail := by
      refine ⟨hreadable, ?_⟩
      rw [hhelp]
      exact fun _ hmem => absurd hmem List.not_mem_nil
    exact (hboth ⟨fun option hoption => ⟨hreadable, hfits option hoption⟩, hnone⟩).mpr
      ⟨hhelp, hmeans⟩

/-- `quitsies --db_ttl 1 2 -d -xdb_path /data --db_ttl 90`: two dashes are not asked for. -/
theorem parseArgOptions_means_db :
    parseArgOptions [text "quitsies", text "--db_ttl", text "1", text "2", text "-d",
        text "-xdb_path", text "/data", text "--db_ttl", text "90"] dbOptions =
      (true, [(text "DB", [.str 63 (text "db_path") (text "/data"),
        .int 63 (text "db_ttl") 90, .int 63 (text "db_max_open_files") (-1),
        .bool 100 (text "db_debug") true])]) :=
  (parseArgOptions_means (by decide) _ _).mpr ⟨by decide, by decide, by decide,
    .cons ⟨rfl, .cons rfl (.cons rfl (.cons rfl (.cons rfl .nil)))⟩ .nil⟩

end Quitsies.Cli
