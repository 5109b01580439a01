import Quitsies.Db.Opening
import Quitsies.Tcp.Server

/-!
# `main`

From the command line to the consumers of its settings. An integer setting is a
`long long` up to the call that uses it, where it becomes an `int`. The calls that may
refuse to start are outside, and so is the HTTP server behind its constructor.
-/

namespace Quitsies.Service

open Text Cli Db

/-- What `main` meets. The three constructors that are given an address return, or throw. -/
structure Surroundings where
  storage : Storage
  connectStatsd : Bytes → Bytes → Bool
  listen : Bytes → Bytes → Bool
  listenHttp : Bytes → Bytes → Bool

/-- The options of `main`, and those the database registers behind them. -/
def mainOptions : OptionList :=
  RocksOptions.construct.registerOptions [(text "IO",
    [.str 63 (text "http_address") (text "localhost"),
     .str 63 (text "http_port") (text "3058"),
     .str 63 (text "http_prefix") (text "/quitsies"),
     .int 63 (text "http_threads") 1,
     .str 63 (text "tcp_address") (text "localhost"),
     .str 63 (text "tcp_port") (text "11211"),
     .int 63 (text "tcp_threads") 10,
     .str 63 (text "statsd_address") [],
     .str 63 (text "statsd_port") (text "8125"),
     .str 63 (text "statsd_prefix") (text "quitsies"),
     .str 63 (text "log_level") (text "info")])]

/-- The levels `log::create` recognises. It throws at any other. -/
def logLevels : List Bytes :=
  [text "trace", text "debug", text "info", text "warn", text "err", text "critical", text "off"]

/-- What the settings have become: the arguments of RocksDB and of `server::run`. -/
structure Consumers where
  opening : Opening
  nThreads : Int
  deriving DecidableEq

/-- `main` returns before it serves, is ended by an exception, or serves. -/
inductive Outcome where
  | exits (code : Int)
  | terminates
  | serves (consumers : Consumers)
  deriving DecidableEq

def consumers (options : List ArgOption) : Consumers :=
  ⟨(RocksOptions.ofOptions options).opening, low32 (intValue options (text "tcp_threads"))⟩

def main (world : Surroundings) (argv : List Bytes) : Outcome :=
  match parseArgOptions argv mainOptions with
  | (false, _) => .exits 1
  | (true, sections) =>
    let options := allOptions sections
    if strValue options (text "log_level") ∉ logLevels then .terminates
    else if strValue options (text "statsd_address") ≠ [] ∧
        world.connectStatsd (strValue options (text "statsd_address"))
          (strValue options (text "statsd_port")) = false then .terminates
    else
      match (RocksOptions.ofOptions options).openRocks world.storage with
      | .error _ => .exits 1
      | .ok opening =>
        if world.listen (strValue options (text "tcp_address"))
            (strValue options (text "tcp_port")) = false then .terminates
        else if world.listenHttp (strValue options (text "http_address"))
            (strValue options (text "http_port")) = false then .terminates
        else .serves ⟨opening, low32 (intValue options (text "tcp_threads"))⟩

/-! ## When it serves -/

/-- The variables, once the command line has been read. -/
def parsedOptions (argv : List Bytes) : List ArgOption :=
  allOptions (parseArgOptions argv mainOptions).2

/-- Nothing refuses to start. -/
structure Starts (world : Surroundings) (argv : List Bytes) : Prop where
  parsed : (parseArgOptions argv mainOptions).1 = true
  level : strValue (parsedOptions argv) (text "log_level") ∈ logLevels
  statsd : strValue (parsedOptions argv) (text "statsd_address") ≠ [] →
    world.connectStatsd (strValue (parsedOptions argv) (text "statsd_address"))
      (strValue (parsedOptions argv) (text "statsd_port")) = true
  restored : (RocksOptions.ofOptions (parsedOptions argv)).restore = true →
    (RocksOptions.ofOptions (parsedOptions argv)).Restores world.storage
  opened : (world.storage.openDb (RocksOptions.ofOptions (parsedOptions argv)).opening).ok = true
  listens : world.listen (strValue (parsedOptions argv) (text "tcp_address"))
    (strValue (parsedOptions argv) (text "tcp_port")) = true
  listensHttp : world.listenHttp (strValue (parsedOptions argv) (text "http_address"))
    (strValue (parsedOptions argv) (text "http_port")) = true

/-- What is served is what the variables are made into. -/
theorem Starts.main_eq {world : Surroundings} {argv : List Bytes} (h : Starts world argv) :
    main world argv = .serves (consumers (parsedOptions argv)) := by
  have hopen := (RocksOptions.openRocks_iff _ _ _).mpr ⟨h.restored, h.opened, rfl⟩
  obtain ⟨hparsed, hlevel, hstatsd, -, -, hlistens, hlistensHttp⟩ := h
  unfold parsedOptions at *
  unfold main
  generalize parseArgOptions argv mainOptions = parsed at *
  obtain ⟨ok, sections⟩ := parsed
  obtain rfl : ok = true := hparsed
  have hconnects : ¬ (strValue (allOptions sections) (text "statsd_address") ≠ [] ∧
      world.connectStatsd (strValue (allOptions sections) (text "statsd_address"))
        (strValue (allOptions sections) (text "statsd_port")) = false) := by
    rintro ⟨hne, hfalse⟩
    rw [hstatsd hne] at hfalse
    cases hfalse
  simp only [hlevel, not_true_eq_false, ↓reduceIte, if_neg hconnects, hopen, hlistens,
    hlistensHttp, Bool.true_eq_false]
  rfl

theorem starts_of_serves {world : Surroundings} {argv : List Bytes} {c : Consumers}
    (h : main world argv = .serves c) : Starts world argv := by
  unfold main at h
  cases hparse : parseArgOptions argv mainOptions with
  | mk ok sections =>
    have hoptions : parsedOptions argv = allOptions sections := by rw [parsedOptions, hparse]
    rw [hparse] at h
    cases ok with
    | false => cases h
    | true =>
      simp only at h
      split at h
      · cases h
      next hlevel =>
      split at h
      · cases h
      next hstatsd =>
      split at h
      · cases h
      next opening hopen =>
      split at h
      · cases h
      next hlistens =>
      split at h
      · cases h
      next hlistensHttp =>
      obtain ⟨hrestored, hopened, -⟩ := (RocksOptions.openRocks_iff _ _ _).mp hopen
      rw [← hoptions] at *
      refine ⟨by rw [hparse], not_not.mp hlevel, fun hne => ?_, hrestored, hopened,
        Bool.eq_true_of_not_eq_false hlistens, Bool.eq_true_of_not_eq_false hlistensHttp⟩
      exact Bool.eq_true_of_not_eq_false fun hfalse => hstatsd ⟨hne, hfalse⟩

/-- `main` serves where nothing refuses to start. -/
theorem main_serves_iff (world : Surroundings) (argv : List Bytes) (c : Consumers) :
    main world argv = .serves c ↔ Starts world argv ∧ c = consumers (parsedOptions argv) := by
  constructor
  · intro h
    have hs := starts_of_serves h
    rw [hs.main_eq] at h
    exact ⟨hs, (Outcome.serves.inj h).symm⟩
  · rintro ⟨hs, rfl⟩
    exact hs.main_eq

/-! ## The settings that are integers -/

/-- The integer settings that a consumer takes as an `int`. -/
inductive Setting where
  | dbTtl
  | dbMaxOpenFiles
  | dbShardBits
  | tcpThreads
  deriving DecidableEq

namespace Setting

def name : Setting → Bytes
  | dbTtl => text "db_ttl"
  | dbMaxOpenFiles => text "db_max_open_files"
  | dbShardBits => text "db_shard_bits"
  | tcpThreads => text "tcp_threads"

/-- What its variable is initialised to. -/
def initial : Setting → Int
  | dbTtl => 0
  | dbMaxOpenFiles => -1
  | dbShardBits => 4
  | tcpThreads => 10

/-- What its variable holds once the command line has been read. -/
def value (setting : Setting) (argv : List Bytes) : Int :=
  intValue (parsedOptions argv) setting.name

/-- What is meant by a value: itself, but no time to live where that is zero. -/
def meant (v : Int) : Setting → Int
  | dbTtl => if v = 0 then -1 else v
  | dbMaxOpenFiles => v
  | dbShardBits => v
  | tcpThreads => v

/-- What the consumer is handed. -/
def received (c : Consumers) : Setting → Int
  | dbTtl => c.opening.ttl
  | dbMaxOpenFiles => c.opening.maxOpenFiles
  | dbShardBits => c.opening.cacheShardBits
  | tcpThreads => c.nThreads

end Setting

/-- The setting reaches its consumer unchanged, or start-up is refused. -/
def Unchanged (world : Surroundings) (argv : List Bytes) (setting : Setting) : Prop :=
  ∀ c, main world argv = .serves c → setting.received c = setting.meant (setting.value argv)

/-- What a consumer is handed is the low half of what is meant. -/
theorem received_consumers (setting : Setting) (argv : List Bytes) :
    setting.received (consumers (parsedOptions argv)) =
      low32 (setting.meant (setting.value argv)) := by
  cases setting <;> rfl

theorem meant_int_iff (setting : Setting) (v : Int) :
    (-2 ^ 31 ≤ setting.meant v ∧ setting.meant v < 2 ^ 31) ↔ -2 ^ 31 ≤ v ∧ v < 2 ^ 31 := by
  cases setting with
  | dbTtl =>
    rw [Setting.meant]
    split <;> omega
  | dbMaxOpenFiles | dbShardBits | tcpThreads => exact Iff.rfl

theorem received_eq_iff (setting : Setting) (argv : List Bytes) :
    setting.received (consumers (parsedOptions argv)) = setting.meant (setting.value argv) ↔
      -2 ^ 31 ≤ setting.value argv ∧ setting.value argv < 2 ^ 31 := by
  rw [received_consumers, low32_eq_iff, meant_int_iff]

theorem wellNamed_mainOptions : WellNamed mainOptions :=
  ⟨by decide +kernel, by decide +kernel, by decide +kernel⟩

theorem Setting.declared (setting : Setting) :
    .int 63 setting.name setting.initial ∈ allOptions mainOptions := by
  cases setting <;> decide +kernel

/-- What a setting holds is a `long long`. -/
theorem value_range (setting : Setting) (argv : List Bytes) :
    -2 ^ 63 ≤ setting.value argv ∧ setting.value argv < 2 ^ 63 := by
  have hinitial := intValue_eq wellNamed_mainOptions setting.declared
  apply intValue_range (parseArgOptions_read argv mainOptions)
  · rw [hinitial]
    cases setting <;> decide
  · rw [hinitial]
    cases setting <;> decide

section Unchanged

variable {world : Surroundings} {argv : List Bytes} {c : Consumers}

/-- Where the time to live is unchanged it is never now, and a positive one is itself. -/
theorem Unchanged.ttl (h : Unchanged world argv .dbTtl) (hc : main world argv = .serves c) :
    c.opening.ttl ≠ 0 ∧
      (0 < Setting.value .dbTtl argv → c.opening.ttl = Setting.value .dbTtl argv) := by
  have hreceived : c.opening.ttl = if Setting.value .dbTtl argv = 0 then -1 else
      Setting.value .dbTtl argv := h c hc
  rw [hreceived]
  split
  · next hzero => exact ⟨by decide, fun hpos => by omega⟩
  · next hne => exact ⟨hne, fun _ => rfl⟩

/-- As many threads run as there are to be. -/
theorem Unchanged.threads (h : Unchanged world argv .tcpThreads)
    (hc : main world argv = .serves c) (hpos : 0 < Setting.value .tcpThreads argv) :
    (Tcp.Server.run c.nThreads : Int) = Setting.value .tcpThreads argv := by
  have hreceived : c.nThreads = Setting.value .tcpThreads argv := h c hc
  rw [hreceived, Tcp.Server.run]
  split <;> omega

/-- The time to live that means now is handed over for the multiples of 2^32. -/
theorem ttl_eq_zero_iff (hc : main world argv = .serves c) :
    c.opening.ttl = 0 ↔
      Setting.value .dbTtl argv ≠ 0 ∧ 2 ^ 32 ∣ Setting.value .dbTtl argv := by
  obtain ⟨-, rfl⟩ := (main_serves_iff world argv c).mp hc
  exact (RocksOptions.ofOptions (parsedOptions argv)).opening_ttl_eq_zero_iff

end Unchanged

/-! ## Every larger value is changed -/

/-- A command line that sets it, and nothing else. -/
def Setting.commandLine (setting : Setting) (v : Int) : List Bytes :=
  text "quitsies" :: Cli.commandLine [⟨setting.name, .int v⟩]

/-- Surroundings that refuse nothing. -/
def welcoming : Surroundings where
  storage := ⟨none, fun _ => ⟨true, false, []⟩, fun _ => ⟨true, false, []⟩,
    fun _ => ⟨true, false, []⟩⟩
  connectStatsd := fun _ _ => true
  listen := fun _ _ => true
  listenHttp := fun _ _ => true

section CommandLine

variable {v : Int} (setting : Setting)

theorem parse_commandLine (hlo : 0 ≤ v) (hhi : v < 2 ^ 63) :
    parseArgOptions (setting.commandLine v) mainOptions =
      (true, assignAll [⟨setting.name, .int v⟩] mainOptions) :=
  parseArgOptions_int _ wellNamed_mainOptions setting.declared hlo hhi

theorem parsedOptions_commandLine (hlo : 0 ≤ v) (hhi : v < 2 ^ 63) :
    parsedOptions (setting.commandLine v) =
      (allOptions mainOptions).map (ArgOption.assign [⟨setting.name, .int v⟩]) := by
  rw [parsedOptions, parse_commandLine setting hlo hhi, allOptions_assignAll]

theorem value_commandLine (hlo : 0 ≤ v) (hhi : v < 2 ^ 63) :
    setting.value (setting.commandLine v) = v := by
  rw [Setting.value, parsedOptions_commandLine setting hlo hhi]
  exact intValue_assign wellNamed_mainOptions setting.declared

/-- The options that are no integers have their defaults, so all of it starts. -/
theorem starts_commandLine (hlo : 0 ≤ v) (hhi : v < 2 ^ 63) :
    Starts welcoming (setting.commandLine v) := by
  have hstr : ∀ name, strValue (parsedOptions (setting.commandLine v)) name =
      strValue (allOptions mainOptions) name := by
    intro name
    rw [parsedOptions_commandLine setting hlo hhi, strValue_assign]
  have hrestore : (RocksOptions.ofOptions (parsedOptions (setting.commandLine v))).restore =
      false := by
    rw [RocksOptions.ofOptions, parsedOptions_commandLine setting hlo hhi]
    simp only [boolValue_assign]
    decide +kernel
  refine ⟨by rw [parse_commandLine setting hlo hhi], ?_, fun _ => rfl, ?_, rfl, rfl, rfl⟩
  · rw [hstr]
    decide +kernel
  · intro h
    rw [hrestore] at h
    cases h

theorem main_commandLine (hlo : 0 ≤ v) (hhi : v < 2 ^ 63) :
    ∃ c, main welcoming (setting.commandLine v) = .serves c ∧
      setting.received c = low32 (setting.meant v) := by
  refine ⟨_, (starts_commandLine setting hlo hhi).main_eq, ?_⟩
  rw [received_consumers, value_commandLine setting hlo hhi]

/-- Whatever is a `long long` and no `int` can be asked for, and is changed. -/
theorem changed_of_large (hlo : 2 ^ 31 ≤ v) (hhi : v < 2 ^ 63) :
    setting.value (setting.commandLine v) = v ∧
      ¬ Unchanged welcoming (setting.commandLine v) setting := by
  have hvalue := value_commandLine setting (by omega) hhi
  refine ⟨hvalue, fun h => ?_⟩
  have hfits := (received_eq_iff setting _).mp
    (h _ (starts_commandLine setting (by omega) hhi).main_eq)
  omega

end CommandLine

/-! ## When a setting reaches its consumer -/

/-- **A setting reaches its consumer** if and only if it is an `int`, wherever nothing
refuses to start. -/
theorem unchanged_iff (world : Surroundings) (argv : List Bytes) (setting : Setting) :
    Unchanged world argv setting ↔ (Starts world argv →
      -2 ^ 31 ≤ setting.value argv ∧ setting.value argv < 2 ^ 31) := by
  rw [← received_eq_iff]
  constructor
  · intro h hs
    exact h _ hs.main_eq
  · intro h c hc
    obtain ⟨hs, rfl⟩ := (main_serves_iff world argv c).mp hc
    exact h hs

/-- The time to live that means now is handed over for 2^32, and a minute for 2^32 + 60. -/
theorem ttl_changed :
    (∃ c, main welcoming [text "quitsies", text "--db_ttl", text "4294967296"] = .serves c ∧
      c.opening.ttl = 0) ∧
    (∃ c, main welcoming [text "quitsies", text "--db_ttl", text "4294967356"] = .serves c ∧
      c.opening.ttl = 60) ∧
    ¬ Unchanged welcoming [text "quitsies", text "--db_ttl", text "4294967296"] .dbTtl := by
  have hzero : [text "quitsies", text "--db_ttl", text "4294967296"] =
      Setting.commandLine .dbTtl (2 ^ 32) := by decide +kernel
  have hminute : [text "quitsies", text "--db_ttl", text "4294967356"] =
      Setting.commandLine .dbTtl (2 ^ 32 + 60) := by decide +kernel
  rw [hzero, hminute]
  exact ⟨main_commandLine .dbTtl (by decide) (by decide),
    main_commandLine .dbTtl (by decide) (by decide),
    (changed_of_large .dbTtl (by decide) (by decide)).2⟩

end Quitsies.Service
