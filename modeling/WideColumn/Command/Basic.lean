import WideColumn.Schema.Options

/-! # Commands -/
namespace WideColumn
open WideColumn.Schema

structure Column where
  family : String
  qualifier : Option String
  deriving DecidableEq, Repr

structure CellColumn where
  family : String
  qualifier : String
  deriving DecidableEq, Repr

namespace Column

/-- The first colon ends the family; neither part may be empty. -/
def parse (column : String) : Except Fault Column :=
  let cs := column.toList
  let family := cs.takeWhile (· != ':')
  if family.isEmpty then throw (.noFamilyOfColumn column)
  else match cs.dropWhile (· != ':') with
    | [] => return { family := column, qualifier := none }
    | [_] => throw (.noQualifierOfColumn column)
    | _ :: qualifier => return { family := .ofList family, qualifier := some (.ofList qualifier) }

end Column

def CellColumn.parse (column : String) : Except Fault CellColumn := do
  match ← Column.parse column with
  | { family, qualifier := some qualifier } => return { family, qualifier }
  | { qualifier := none, .. } => throw (.notACell column)

structure FamilySpec where
  name : String
  properties : Properties
  deriving DecidableEq, Repr

structure CellWrite where
  row : String
  column : CellColumn
  value : String
  deriving DecidableEq, Repr

inductive Command where
  | create (table : String) (families : List FamilySpec)
  | list (pattern : Option String)
  | disable (table : String)
  | enable (table : String)
  | isEnabled (table : String)
  | isDisabled (table : String)
  /-- Each map changes one family. -/
  | alter (table : String) (maps : List Properties)
  | drop (table : String)
  | dropAll (pattern : String)
  | describe (table : String)
  | put (table : String) (cells : List CellWrite)
  | get (table row : String) (column : Option Column) (versions : Nat)
  | scan (table : String)
  | delete (table row : String) (column : CellColumn)
  | deleteRow (table row : String)
  | count (table : String)
  | truncate (table : String)
  | help (topic : Option String)
  | exit
  /-- A line that starts with no keyword. -/
  | unknown (line : String)
  /-- A blank line. -/
  | empty
  deriving DecidableEq, Repr

end WideColumn
