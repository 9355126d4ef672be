import WideColumn.Table.Basic

/-! # Reads of single rows, and the count -/
namespace WideColumn

namespace Entry

def read (e : Entry) (most : Nat) (qualifier : String) (h : History) : List Cell :=
  (h.numbered.take most).map fun (number, v) =>
    { row := e.row, family := e.family, qualifier, version := .ofNat number,
      timestamp := v.timestamp, value := v.value }

/-- The latest version of a cell of the entry, under the number of its versions. -/
def latestOf (e : Entry) (c : String × History) : Cell :=
  { row := e.row, family := e.family, qualifier := c.1, version := c.2.count,
    timestamp := c.2.latest.timestamp, value := c.2.latest.value }

def latest (e : Entry) : List Cell := e.cells.map e.latestOf

end Entry

namespace Table

/-- Only entries of a family in the schema are shown. -/
def isReadable (t : Table) (e : Entry) : Bool := (t.family? e.family).isSome

/-- The cells of a row, up to `versions` of each with the newest first, of all families or one, and
of all its qualifiers or one. -/
def getVersions (t : Table) (row : String) (family qualifier : Option String) (versions : Nat) :
    Except Fault (List Cell) := do
  t.checkEnabled .get
  if qualifier.isSome && family.isNone then throw .qualifierWithoutFamily
  if let some f := family then t.checkFamily f
  let wanted := (Entries.ofRow t.entries row).filter fun e =>
    family.all (· == e.family) && t.isReadable e
  return wanted.flatMap fun e =>
    (e.cells.filter fun (name, _) => qualifier.all (· == name)).flatMap fun (name, h) =>
      e.read (max versions 1) name h

def get (t : Table) (row : String) (family qualifier : Option String) : Except Fault (List Cell) :=
  t.getVersions row family qualifier 1

def count (t : Table) : Except Fault UInt64 := do
  t.checkEnabled .count
  return t.rowCount

/-- The history of a cell, whatever the state of the table and of the family. -/
def history? (t : Table) (row family qualifier : String) : Option History :=
  Entries.find? t.entries row family qualifier

end Table

end WideColumn
