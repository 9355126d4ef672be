import WideColumn.Catalog.Write

/-! # Outcomes of commands -/
namespace WideColumn.Shell

/-- What the left part of a listing of cells holds. -/
inductive Layout where
  /-- Rows, and the column with each cell. -/
  | rows
  /-- Columns. -/
  | columns
  deriving DecidableEq, Repr

structure CellLine where
  key : String
  cell : String
  deriving DecidableEq, Repr

inductive Outcome where
  | created (table : String)
  | tables (names : List String)
  /-- Done, with nothing to show. -/
  | done
  /-- There was nothing to do. -/
  | warning (message : String)
  | answer (b : Bool)
  | altered (changes : List Alteration)
  | dropped (n : Nat)
  | rowsDeleted (n : Nat)
  | description (text : String) (families : Nat)
  | cells (layout : Layout) (lines : List CellLine) (rows : Nat)
  | count (n : Nat)
  | truncated (table : String)
  | help (topic : Option String)
  | exit
  | unknown (line : String)
  | empty
  deriving DecidableEq, Repr

/-- Whether the command worked on the catalog, as its time tells. -/
def Outcome.isTimed : Outcome → Bool
  | help _ | exit | unknown _ | empty => false
  | _ => true

end WideColumn.Shell
