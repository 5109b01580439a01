import Quitsies.Service.Operation
import Quitsies.Text.Json
import Quitsies.Text.StringStream

/-!
# The list of backups

The `/backup_info` endpoint of `rocks`. Each record is written with a comma behind it,
and the closing bracket over the last comma.
-/

namespace Quitsies.Service

open Text

/-- A `rocksdb::BackupInfo`, as far as it is listed. -/
structure BackupInfo where
  backupId : UInt32
  timestamp : Int64
  size : UInt64
  deriving DecidableEq

/-- The `operator<<` of the loop, with the braces by their codes. A `time_t` is a signed word. -/
def writeInfo (ss : StringStream) (info : BackupInfo) : StringStream :=
  let ss := (ss.write (text "\x7b\"id\":\"")).write (decimal info.backupId.toNat)
  let ss := ss.write (text "\"")
  let ss := (ss.write (text ", \"timestamp\":")).write (decimalInt info.timestamp.toInt)
  let ss := (ss.write (text ", \"size\":")).write (decimal info.size.toNat)
  ss.write (text "\x7d,")

/-- What the stream holds in the end. -/
def backupList (backupInfo : List BackupInfo) : Bytes :=
  let ss := StringStream.empty.write (text "[")
  let ss := backupInfo.foldl writeInfo ss
  let ss := if backupInfo.length > 0 then ss.seekpEnd (-1) else ss
  (ss.write (text "]")).str

/-- The `GET` of `/backup_info`. The backup engine is opened at a path: it lists the backups
there, or has the message of a status. -/
def handleBackupInfo (path : Bytes) (openEngine : Bytes → Except Bytes (List BackupInfo)) :
    HttpResponse :=
  match openEngine (path ++ text "_backup") with
  | .error message => ⟨500, message⟩
  | .ok backupInfo => ⟨200, backupList backupInfo⟩

namespace BackupInfo

/-- A record as a JSON object. Its id is a string. -/
def json (info : BackupInfo) : Json :=
  .object [(text "id", .string (decimal info.backupId.toNat)),
    (text "timestamp", .number info.timestamp.toInt 0),
    (text "size", .number info.size.toNat 0)]

/-- The text of that object. -/
def jsonText (info : BackupInfo) : Bytes :=
  123 :: (Json.member (text "id") (34 :: (decimal info.backupId.toNat ++ [34])) ++ 44 :: 32 ::
    (Json.member (text "timestamp") (decimalInt info.timestamp.toInt) ++ 44 :: 32 ::
      (Json.member (text "size") (decimal info.size.toNat) ++ [125])))

theorem isValue_jsonText (info : BackupInfo) : Json.IsValue info.jsonText info.json := by
  have hid := Json.isValue_string (Json.plain_decimal info.backupId.toNat)
  have htimestamp := Json.isValue_integer info.timestamp.toInt
  have hsize : Json.IsValue (decimal info.size.toNat) (.number info.size.toNat 0) :=
    Json.isValue_integer info.size.toNat
  have hlast : Json.IsMembers (Json.member (text "size") _ ++ [125]) [(text "size", _)] :=
    .last (by decide) hsize
  have hmiddle : Json.IsMembers (Json.member (text "timestamp") _ ++ 44 :: 32 :: _)
      ((text "timestamp", _) :: _) := .cons (by decide) htimestamp hlast.blank
  have hfirst : Json.IsMembers (Json.member (text "id") _ ++ 44 :: 32 :: _)
      ((text "id", _) :: _) := .cons (by decide) hid hmiddle.blank
  exact hfirst.isValue

/-- The object says which record it is. -/
theorem json_injective : Function.Injective json := by
  intro a b h
  simp only [json, Json.object.injEq, List.cons.injEq, Prod.mk.injEq, Json.string.injEq,
    Json.number.injEq, true_and, and_true] at h
  obtain ⟨hid, htimestamp, hsize⟩ := h
  have hid' : (a.backupId.toNat : Int) = b.backupId.toNat := decimalInt_injective hid
  obtain ⟨backupId, timestamp, size⟩ := a
  obtain rfl := UInt32.toNat_inj.mp (Int.ofNat_inj.mp hid')
  obtain rfl := Int64.toInt_inj.mp htimestamp
  obtain rfl := UInt64.toNat_inj.mp (Int.ofNat_inj.mp hsize)
  rfl

end BackupInfo

/-- A record is appended as its object and a comma. -/
theorem writeInfo_appended (s : Bytes) (info : BackupInfo) :
    writeInfo (.appended s) info = .appended (s ++ (info.jsonText ++ [44])) := by
  have hid : text "\x7b\"id\":\"" = 123 :: 34 :: (text "id" ++ [34, 58, 34]) := by decide
  have htimestamp : text ", \"timestamp\":" =
      44 :: 32 :: 34 :: (text "timestamp" ++ [34, 58]) := by decide
  have hsize : text ", \"size\":" = 44 :: 32 :: 34 :: (text "size" ++ [34, 58]) := by decide
  have hquote : text "\"" = [34] := by decide
  have hclose : text "\x7d," = [125, 44] := by decide
  simp only [writeInfo, StringStream.write_appended, hid, htimestamp, hsize, hquote, hclose,
    BackupInfo.jsonText, Json.member, List.append_assoc, List.cons_append, List.nil_append]

/-- The records as the loop writes them. -/
def listed (backupInfo : List BackupInfo) : Bytes :=
  backupInfo.flatMap fun info => info.jsonText ++ [44]

/-- The loop appends, record by record. -/
theorem writeInfo_loop (backupInfo : List BackupInfo) (s : Bytes) :
    backupInfo.foldl writeInfo (.appended s) = .appended (s ++ listed backupInfo) := by
  induction backupInfo generalizing s with
  | nil => rw [listed, List.flatMap_nil, List.append_nil, List.foldl_nil]
  | cons info backupInfo ih =>
    rw [List.foldl_cons, writeInfo_appended, ih, listed, listed, List.flatMap_cons,
      List.append_assoc s]

/-- Behind the first element there are its comma and the others, or nothing but a comma; that
last one is where the bracket goes. -/
theorem listed_cons (info : BackupInfo) (backupInfo : List BackupInfo) :
    ∃ elements, listed (info :: backupInfo) = elements ++ [44] ∧
      Json.IsElements (elements ++ [93]) ((info :: backupInfo).map BackupInfo.json) ∧
      ∃ rest, elements = info.jsonText ++ rest := by
  induction backupInfo generalizing info with
  | nil =>
    refine ⟨info.jsonText, ?_, .last info.isValue_jsonText, [], (List.append_nil _).symm⟩
    rw [listed, List.flatMap_cons, List.flatMap_nil, List.append_nil]
  | cons next backupInfo ih =>
    obtain ⟨elements, hlisted, helements, -⟩ := ih next
    refine ⟨info.jsonText ++ 44 :: elements, ?_, ?_, _, rfl⟩
    · rw [listed, List.flatMap_cons, ← listed, hlisted, List.append_assoc, List.append_assoc]
      rfl
    · rw [List.append_assoc]
      exact .cons info.isValue_jsonText helements

/-- The bracket is written over the last comma. -/
theorem backupList_cons {info : BackupInfo} {backupInfo : List BackupInfo} {elements : Bytes}
    (hlisted : listed (info :: backupInfo) = elements ++ [44]) :
    backupList (info :: backupInfo) = 91 :: (elements ++ [93]) := by
  have hopen : StringStream.empty.write (text "[") = .appended [91] := by decide
  have hclose : text "]" = [93] := by decide
  have happend : [91] ++ (elements ++ [44]) = (91 :: elements) ++ [44] := rfl
  have hback : ((.appended ((91 :: elements) ++ [44]) : StringStream).seekpEnd (-1)).write [93] =
      .appended ((91 :: elements) ++ [93]) :=
    StringStream.overwrite (91 :: elements) [44] [93] rfl
  have hsome : (info :: backupInfo).length > 0 := List.length_pos_of_mem List.mem_cons_self
  rw [backupList, hopen, writeInfo_loop, hlisted, if_pos hsome, hclose, happend, hback,
    StringStream.str_appended]
  rfl

/-- Between its brackets the text is an array. -/
theorem exists_backupList (backupInfo : List BackupInfo) :
    ∃ s, backupList backupInfo = 91 :: (s ++ [93]) ∧
      Json.IsValue (backupList backupInfo) (.array (backupInfo.map BackupInfo.json)) := by
  cases backupInfo with
  | nil =>
    have htext : backupList [] = [91, 93] := by decide
    refine ⟨[], htext, ?_⟩
    rw [htext]
    exact Json.isValue_empty
  | cons info backupInfo =>
    obtain ⟨elements, hlisted, helements, rest, hfirst⟩ := listed_cons info backupInfo
    have htext := backupList_cons hlisted
    refine ⟨elements, htext, ?_⟩
    obtain rfl := hfirst
    rw [List.append_assoc] at helements htext
    rw [htext]
    exact helements.isValue info.isValue_jsonText

theorem isValue_backupList (backupInfo : List BackupInfo) :
    Json.IsValue (backupList backupInfo) (.array (backupInfo.map BackupInfo.json)) := by
  obtain ⟨_, _, h⟩ := exists_backupList backupInfo
  exact h

/-- **The list of backups is JSON.** From its first bracket to its last the text is an array
with one object for each record, in their order. -/
theorem parse_backupList (backupInfo : List BackupInfo) :
    (∃ s, backupList backupInfo = 91 :: (s ++ [93])) ∧
      Json.parse (backupList backupInfo) =
        some (.array (backupInfo.map BackupInfo.json)) := by
  obtain ⟨s, htext, hvalue⟩ := exists_backupList backupInfo
  exact ⟨⟨s, htext⟩, hvalue.parse⟩

/-- No two lists have one text. -/
theorem backupList_injective : Function.Injective backupList := by
  intro a b h
  have hparse := (isValue_backupList a).parse
  rw [h, (isValue_backupList b).parse, Option.some.injEq, Json.array.injEq] at hparse
  exact (List.map_inj_right fun _ _ hj => BackupInfo.json_injective hj).mp hparse.symm

/-- What the endpoint answers is the list, or the message behind the status 500. -/
theorem handleBackupInfo_json (path : Bytes)
    (openEngine : Bytes → Except Bytes (List BackupInfo)) :
    (∃ message, openEngine (path ++ text "_backup") = .error message ∧
      handleBackupInfo path openEngine = ⟨500, message⟩) ∨
    ∃ backupInfo, openEngine (path ++ text "_backup") = .ok backupInfo ∧
      (handleBackupInfo path openEngine).status = 200 ∧
      Json.parse (handleBackupInfo path openEngine).body =
        some (.array (backupInfo.map BackupInfo.json)) := by
  rw [handleBackupInfo]
  cases hopen : openEngine (path ++ text "_backup") with
  | error message => exact .inl ⟨message, rfl, rfl⟩
  | ok backupInfo => exact .inr ⟨backupInfo, rfl, rfl, (isValue_backupList backupInfo).parse⟩

end Quitsies.Service
