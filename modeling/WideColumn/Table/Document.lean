import WideColumn.Json.Printer
import WideColumn.Json.Reader
import WideColumn.Table.Basic

/-! # Tables as documents

A table is written as one document: the metadata, and the cells by row, family and qualifier. The
versions of a cell stand under the keys `version1`, `version2`, … beside their number.

Reading is forgiving about keys that mean nothing and strict about everything else. Whether a text
has the right shape is settled before any cell is looked at. -/
namespace WideColumn
open WideColumn.Json WideColumn.Schema WideColumn.Text WideColumn.Time

/-- The versions of a cell as they are stored: their claimed number, and each under its key. -/
structure StoredHistory where
  count : Nat
  versions : KeyedList Version

abbrev StoredRows := KeyedList (KeyedList (KeyedList StoredHistory))

namespace Document

def versionKey (number : Nat) : String := .ofList ("version".toList ++ Numeral.write number)

/-- The number of a version, from its key in the one spelling it has. -/
def versionNumber? (key : String) : Option Nat :=
  (Numeral.read (key.toList.drop "version".length)).filter fun n => versionKey n == key

def writeInstant (t : Instant) : Value := .ofString (Rfc3339.write .letter t)

def writeVersion (v : Version) : Value :=
  .ofMembers [("timestamp", writeInstant v.timestamp), ("value", .ofString v.value)]

/-- Versions are written in the order of their keys, the tenth before the second. -/
def storeHistory (h : History) : StoredHistory where
  count := h.count.toNat
  versions := .ofPairs (h.numbered.map fun (number, v) => (versionKey number, v))

def writeHistory (h : StoredHistory) : Value :=
  .ofMembers (("version_count", .ofNat h.count) ::
    h.versions.map fun (key, v) => (key, writeVersion v))

/-- Entries that follow each other and share a row, put together. -/
def groupRows : List Entry → List (String × List Entry)
  | [] => []
  | e :: rest =>
    match groupRows rest with
    | (row, es) :: more =>
      if row == e.row then (row, e :: es) :: more else (e.row, [e]) :: (row, es) :: more
    | [] => [(e.row, [e])]

def writeEntry (e : Entry) : Value :=
  .ofMembers (e.cells.map fun (qualifier, h) => (qualifier, writeHistory (storeHistory h)))

def writeEntries (es : List Entry) : Value :=
  .ofMembers ((groupRows es).map fun (row, es) =>
    (row, .ofMembers (es.map fun e => (e.family, writeEntry e))))

def writeFamily (f : Family) : Value :=
  .ofMembers
    [("name", .ofString f.name),
     (Property.dataBlockEncoding.field, .ofString (Choice.label f.options.dataBlockEncoding)),
     (Property.bloomFilter.field, .ofString (Choice.label f.options.bloomFilter)),
     (Property.replicationScope.field, .ofNat f.options.replicationScope.toNat),
     (Property.versions.field, .ofNat f.options.versions.toNat),
     (Property.compression.field, .ofString (Choice.label f.options.compression)),
     (Property.minVersions.field, .ofNat f.options.minVersions.toNat),
     (Property.ttl.field, .ofString f.options.ttl.label),
     (Property.keepDeletedCells.field, .bool f.options.keepDeletedCells),
     (Property.blockSize.field, .ofNat f.options.blockSize.toNat),
     (Property.inMemory.field, .bool f.options.inMemory),
     (Property.blockCache.field, .bool f.options.blockCache)]

def write (t : Table) : Value :=
  .ofMembers
    [("metadata", .ofMembers
      [("name", .ofString t.name),
       ("column_families", .array (t.families.map writeFamily)),
       ("id", .ofString t.id.write),
       ("is_disabled", .bool t.disabled),
       ("created_at", writeInstant t.createdAt),
       ("updated_at", writeInstant t.updatedAt),
       ("row_count", .ofNat t.rowCount.toNat)]),
     ("data", writeEntries t.entries)]

def maxDepth : Nat := 127

/-- The members of an object at a level of nesting, all of which are looked into. -/
def soundMembers? (level : Nat) (v : Value) : Option (List (String × Value)) := do
  let members ← v.members?
  if members.all fun (_, w) => w.isSound && level + w.depth ≤ maxDepth then some members else none

/-- A value by its name, or by an object with the name as its key and nothing under it. -/
def readChoice? {α : Type} [Choice α] (v : Value) : Option α :=
  match v with
  | .object members =>
    match Value.members? (.object members) with
    | some [(label, .null)] => Choice.ofLabel? label
    | some [(label, .object [])] => Choice.ofLabel? label
    | _ => none
  | v => v.string?.bind Choice.ofLabel?

def readNumber? (v : Value) : Option UInt32 := (v.natural? Numeral.max32).map UInt32.ofNat

def readInstant? (v : Value) : Option Instant := v.string?.bind Rfc3339.read?

def readFamily? (v : Value) : Option Family := do
  let members ← soundMembers? 4 v
  let field (p : Property) := Value.single? members p.field
  let name ← (← Value.single? members "name").string?
  let dataBlockEncoding ← readChoice? (← field .dataBlockEncoding)
  let bloomFilter ← readChoice? (← field .bloomFilter)
  let replicationScope ← readNumber? (← field .replicationScope)
  let versions ← readNumber? (← field .versions)
  let compression ← readChoice? (← field .compression)
  let minVersions ← readNumber? (← field .minVersions)
  let ttl ← (← field .ttl).string?.bind Ttl.read?
  let keepDeletedCells ← (← field .keepDeletedCells).bool?
  let blockSize ← readNumber? (← field .blockSize)
  let inMemory ← (← field .inMemory).bool?
  let blockCache ← (← field .blockCache).bool?
  return {
    name
    options := {
      dataBlockEncoding, bloomFilter, replicationScope, versions, compression, minVersions, ttl,
      keepDeletedCells, blockSize, inMemory, blockCache } }

def readVersion? (v : Value) : Option Version := do
  match ← v.fields? ["timestamp", "value"] with
  | [timestamp, value] => return { timestamp := ← readInstant? timestamp, value := ← value.string? }
  | _ => none

/-- Every key beside the number is the key of a version. -/
def readHistory? (v : Value) : Option StoredHistory := do
  let members ← soundMembers? 5 v
  let count ← (← Value.single? members "version_count").natural? Numeral.max32
  let versions ← (members.filter fun m => m.1 != "version_count").mapM fun (key, v) =>
    (readVersion? v).map (key, ·)
  return { count, versions := .ofPairs versions }

/-- The members of an object, each read; of a repeated key the last counts. -/
def readMap? {β : Type} (read : Value → Option β) (v : Value) : Option (KeyedList β) := do
  let pairs ← (← v.members?).mapM fun (key, v) => (read v).map (key, ·)
  return .ofPairs pairs

def readRows? : Value → Option StoredRows := readMap? (readMap? (readMap? readHistory?))

def readMetadata? (v : Value) : Option Table := do
  match ← v.fields? ["name", "column_families", "id", "is_disabled", "created_at", "updated_at",
      "row_count"] with
  | [name, families, id, disabled, createdAt, updatedAt, rowCount] =>
    return {
      name := ← name.string?
      families := ← (← families.items?).mapM readFamily?
      id := ← id.string?.bind Uuid.read?
      disabled := ← disabled.bool?
      createdAt := ← readInstant? createdAt
      updatedAt := ← readInstant? updatedAt
      rowCount := .ofNat (← rowCount.natural? Numeral.max64)
      entries := [] }
  | _ => none

def read? (v : Value) : Option (Table × StoredRows) := do
  match ← v.fields? ["metadata", "data"] with
  | [metadata, data] => return (← readMetadata? metadata, ← readRows? data)
  | _ => none

/-- The history that is stored, if there are as many versions as claimed and their keys number them
from 1 on. -/
def restoreHistory (row qualifier : String) (s : StoredHistory) : Except Fault History := do
  if s.versions.length ≠ s.count then
    throw (.versionsMiscounted row qualifier s.count s.versions.length)
  let numbered (key : String) := (versionNumber? key).any fun n => 1 ≤ n && n ≤ s.count
  if let some key := (s.versions.map (·.1)).find? fun key => !numbered key then
    throw (.badVersionKey row qualifier key)
  let versions := (List.range s.count).filterMap fun i => s.versions.find? (versionKey (i + 1))
  match History.ofOldestFirst? versions with
  | some h => pure h
  | none => throw (.noVersions row qualifier)

def restoreEntry (row family : String) (cells : KeyedList StoredHistory) : Except Fault Entry := do
  let cells ← cells.mapM fun (qualifier, s) => return (qualifier, ← restoreHistory row qualifier s)
  return { row, family, cells }

/-- Entries without cells are dropped. -/
def restoreEntries (rows : StoredRows) : Except Fault (List Entry) := do
  let entries ← rows.mapM fun (row, families) =>
    families.mapM fun (family, cells) => restoreEntry row family cells
  return entries.flatten.filter fun e => !e.cells.isEmpty

end Document

namespace Table

def encode (t : Table) : String := .ofList (Printer.document (Document.write t))

def decode (text : String) : Except Fault Table := do
  match (Reader.document text.toList).bind Document.read? with
  | some (table, rows) => return { table with entries := ← Document.restoreEntries rows }
  | none => throw (.malformedDocument "not a table document")

/-- The table that a file with this text holds, which must have a legal name. -/
def load (path text : String) : Except Fault Table := do
  let t ← (decode text).mapError (Fault.inFile path)
  checkTableName t.name
  return t

end Table

end WideColumn
