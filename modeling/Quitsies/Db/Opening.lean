import Quitsies.Cli.Variables
import Quitsies.Db.Rocks
import Quitsies.Text.Printf

/-!
# Opening the database

`rocks::register_options` and `rocks::open`. The integer members are `long long` and
RocksDB takes narrower ones: they are converted behind the one check there is.
-/

namespace Quitsies.Db

open Text Cli

/-- The members of `rocks` that its options set. -/
structure RocksOptions where
  path : Bytes
  ttl : Int
  memtable : Int
  shardBits : Int
  blockCap : Int
  maxFiles : Int
  debug : Bool
  writeMode : Bool
  restore : Bool
  deriving DecidableEq

inductive CompactionStyle where
  | universal
  | level
  deriving DecidableEq

/-- What RocksDB is handed: the options, the path and the `int32_t` time to live. -/
structure Opening where
  path : Bytes
  createIfMissing : Bool
  maxOpenFiles : Int
  cacheCapacity : Nat
  cacheShardBits : Int
  compaction : CompactionStyle
  memtableBudget : Nat
  statistics : Bool
  ttl : Int
  deriving DecidableEq

/-- What `rocks::open` meets: the next byte of `std::cin`, and what RocksDB answers. -/
structure Storage where
  answer : Option UInt8
  openBackup : Bytes → RocksStatus
  restoreBackup : Bytes → RocksStatus
  openDb : Opening → RocksStatus

namespace RocksOptions

def construct : RocksOptions :=
  ⟨text "/tmp/quitsies", 0, 128 * 2 ^ 20, 4, 8 * 2 ^ 20, -1, false, false, false⟩

def registerOptions (r : RocksOptions) (options : OptionList) : OptionList :=
  options ++ [(text "DB",
    [.str 63 (text "db_path") r.path,
     .int 63 (text "db_ttl") r.ttl,
     .int 63 (text "db_max_open_files") r.maxFiles,
     .int 63 (text "db_memtable") r.memtable,
     .int 63 (text "db_shard_bits") r.shardBits,
     .int 63 (text "db_block_cap") r.blockCap,
     .bool 100 (text "db_debug") r.debug,
     .bool 63 (text "db_write_mode") r.writeMode,
     .bool 63 (text "db_restore_backup") r.restore])]

/-- The members, once the options have been read. -/
def ofOptions (options : List ArgOption) : RocksOptions where
  path := strValue options (text "db_path")
  ttl := intValue options (text "db_ttl")
  memtable := intValue options (text "db_memtable")
  shardBits := intValue options (text "db_shard_bits")
  blockCap := intValue options (text "db_block_cap")
  maxFiles := intValue options (text "db_max_open_files")
  debug := boolValue options (text "db_debug")
  writeMode := boolValue options (text "db_write_mode")
  restore := boolValue options (text "db_restore_backup")

/-- The answers `y` and `Y`. -/
def confirmed (answer : Option UInt8) : Bool := answer = some 121 || answer = some 89

/-- The status the restore ends with: the engine is opened, and restores if it was. -/
def restoreStatus (r : RocksOptions) (storage : Storage) : RocksStatus :=
  let status := storage.openBackup (r.path ++ text "_backup")
  if status.ok then storage.restoreBackup r.path else status

def restoreBackup (r : RocksOptions) (storage : Storage) : Except Bytes Unit :=
  if r.restore then
    if confirmed storage.answer then
      if (r.restoreStatus storage).ok then .ok () else .error (text "failed to restore backup")
    else .error (text "Aborting backup restore")
  else .ok ()

/-- What the members are made into. A `ttl` of zero is replaced before it is converted. -/
def opening (r : RocksOptions) : Opening :=
  let ttl := if r.ttl = 0 then -1 else r.ttl
  { path := r.path
    createIfMissing := true
    maxOpenFiles := low32 r.maxFiles
    cacheCapacity := unsigned64 r.blockCap
    cacheShardBits := low32 r.shardBits
    compaction := if r.writeMode then .universal else .level
    memtableBudget := unsigned64 r.memtable
    statistics := r.debug
    ttl := low32 ttl }

/-- `rocks::open`: what RocksDB was opened with, or what was thrown. -/
def openRocks (r : RocksOptions) (storage : Storage) : Except Bytes Opening :=
  match r.restoreBackup storage with
  | .error what => .error what
  | .ok () =>
    let status := storage.openDb r.opening
    if status.ok then .ok r.opening
    else .error (text "Database failed to open at " ++ r.path ++ text ": " ++ status.message)

/-! ## When it opens -/

/-- The backup is restored: it was confirmed, and both calls of RocksDB succeed. -/
structure Restores (r : RocksOptions) (storage : Storage) : Prop where
  confirmed : confirmed storage.answer = true
  opened : (storage.openBackup (r.path ++ text "_backup")).ok = true
  restored : (storage.restoreBackup r.path).ok = true

theorem restoreStatus_ok_iff (r : RocksOptions) (storage : Storage) :
    (r.restoreStatus storage).ok = true ↔
      (storage.openBackup (r.path ++ text "_backup")).ok = true ∧
        (storage.restoreBackup r.path).ok = true := by
  rw [restoreStatus]
  split
  · next hopened => exact ⟨fun h => ⟨hopened, h⟩, fun h => h.2⟩
  · next hopened => exact ⟨fun h => absurd h hopened, fun h => h.1⟩

theorem restoreBackup_iff (r : RocksOptions) (storage : Storage) :
    r.restoreBackup storage = .ok () ↔ (r.restore = true → r.Restores storage) := by
  rw [restoreBackup]
  constructor
  · intro h hrestore
    rw [if_pos hrestore] at h
    split at h
    · next hconfirmed =>
      split at h
      · next hok =>
        obtain ⟨hopened, hrestored⟩ := (restoreStatus_ok_iff r storage).mp hok
        exact ⟨hconfirmed, hopened, hrestored⟩
      · cases h
    · cases h
  · intro h
    split
    · next hrestore =>
      have hr := h hrestore
      have hok := (restoreStatus_ok_iff r storage).mpr ⟨hr.opened, hr.restored⟩
      rw [if_pos hr.confirmed, if_pos hok]
    · rfl

/-- The database is opened with what the members are made into, or not at all. -/
theorem openRocks_iff (r : RocksOptions) (storage : Storage) (o : Opening) :
    r.openRocks storage = .ok o ↔ (r.restore = true → r.Restores storage) ∧
      (storage.openDb r.opening).ok = true ∧ o = r.opening := by
  rw [← restoreBackup_iff, openRocks]
  cases hrestore : r.restoreBackup storage with
  | error what => simp
  | ok =>
    simp only
    split
    · next hok =>
      constructor
      · intro h
        exact ⟨trivial, hok, (Except.ok.inj h).symm⟩
      · rintro ⟨-, -, rfl⟩
        rfl
    · next hok =>
      constructor
      · intro h
        cases h
      · intro h
        exact absurd h.2.1 hok

/-! ## The time to live -/

/-- Zero comes past the check as a multiple of 2^32. -/
theorem opening_ttl_eq_zero_iff (r : RocksOptions) :
    r.opening.ttl = 0 ↔ r.ttl ≠ 0 ∧ 2 ^ 32 ∣ r.ttl := by
  show low32 (if r.ttl = 0 then -1 else r.ttl) = 0 ↔ _
  rw [low32_eq_zero_iff]
  split
  · next hzero => exact ⟨fun h => absurd h (by decide), fun h => absurd hzero h.1⟩
  · next hne => exact ⟨fun h => ⟨hne, h⟩, fun h => h.2⟩

end RocksOptions

end Quitsies.Db
