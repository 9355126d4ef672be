import WideColumn.Schema.Options
import WideColumn.Table.Entries
import WideColumn.Time.Rfc3339
import WideColumn.Uuid

/-! # Tables: a schema, a state and entries -/
namespace WideColumn
open WideColumn.Schema WideColumn.Time

structure Table where
  name : String
  families : List Family
  id : Uuid
  disabled : Bool
  createdAt : Instant
  /-- Refreshed by every successful write, and never put back. -/
  updatedAt : Instant
  /-- The number of entries, as counted along with the writes. -/
  rowCount : UInt64
  entries : List Entry
  deriving DecidableEq

structure Cell where
  row : String
  family : String
  qualifier : String
  version : UInt32
  timestamp : Instant
  value : String
  deriving DecidableEq

namespace Cell

def column (c : Cell) : String := c.family ++ ":" ++ c.qualifier

def content (c : Cell) : String :=
  "timestamp=" ++ Rfc3339.write .offset c.timestamp ++ ", value=" ++ c.value

def display (c : Cell) : String := "column=" ++ c.column ++ ", " ++ c.content

end Cell

namespace Table

/-- Family names are legal and distinct from each other and from those already seen. -/
def checkFamilies (seen : List String) : List Family → Except Fault Unit
  | [] => pure ()
  | f :: rest => do
    checkFamilyName f.name
    if f.name ∈ seen then throw (.familyExists f.name)
    checkFamilies (f.name :: seen) rest

def checkNew (name : String) (families : List Family) : Except Fault Unit := do
  checkTableName name
  checkFamilies [] families

def blank (name : String) (families : List Family) (id : Uuid) (now : Instant) : Table where
  name := name
  families := families
  id := id
  disabled := false
  createdAt := now
  updatedAt := now
  rowCount := 0
  entries := []

/-- An empty, enabled table, if its names are legal and distinct. -/
def create (name : String) (families : List Family) (id : Uuid) (now : Instant) :
    Except Fault Table := do
  checkNew name families
  return blank name families id now

def enabled (t : Table) : Bool := !t.disabled

def family? (t : Table) (name : String) : Option Family := t.families.find? fun f => f.name == name

def familyNames (t : Table) : List String := t.families.map (·.name)

def fileName (t : Table) : String := tableFileName t.name

def checkEnabled (t : Table) (action : Action) : Except Fault Unit :=
  if t.disabled then throw (.tableDisabled action t.name) else pure ()

def needFamily (t : Table) (name : String) : Except Fault Family :=
  match t.family? name with
  | some f => pure f
  | none => throw (.noFamily name t.name)

def checkFamily (t : Table) (name : String) : Except Fault Unit := discard (t.needFamily name)

/-- Note a write. A clock that went backwards is not followed. -/
def touch (t : Table) (now : Instant) : Table := { t with updatedAt := t.updatedAt.latest now }

def stateLabel (t : Table) : String := if t.disabled then "DISABLED" else "ENABLED"

def describe (t : Table) : String :=
  "Table " ++ t.name ++ " is " ++ t.stateLabel ++ "\n"
    ++ t.name ++ ", \x7bTABLE_ATTRIBUTES => \x7bID => '" ++ t.id.write
    ++ "', CREATED_AT => '" ++ Rfc3339.write .offset t.createdAt
    ++ "', UPDATED_AT => '" ++ Rfc3339.write .offset t.updatedAt
    ++ "', ROWS => '" ++ .ofList (Text.Numeral.write t.rowCount.toNat) ++ "'\x7d\x7d\n"
    ++ "COLUMN FAMILIES DESCRIPTION\n"
    ++ String.join (t.families.map fun f => f.describe ++ "\n")

end Table

end WideColumn
