import WideColumn.Shell.Help
import WideColumn.Shell.Outcome
import WideColumn.Text.Basic
import WideColumn.Time.Duration

/-! # Outcomes as text

A text is filled up to a width of 65535 characters at most. A listing with a longer key has no
text. -/
namespace WideColumn.Shell
open WideColumn.Text WideColumn.Time

def decimal (n : Nat) : String := .ofList (Numeral.write n)

def rowsLine (n : Nat) : String := decimal n ++ " row(s)"

def Layout.titles : Layout → String × String
  | .rows => ("ROW", "COLUMN+CELL")
  | .columns => ("COLUMN", "CELL")

def filled (width : Nat) (s : String) : String :=
  .ofList (s.toList ++ List.replicate (width - s.toList.length) ' ')

def maxWidth : Nat := 65535

/-- A text filled up with blanks on the right, if the width is in range. -/
def padTo? (width : Nat) (s : String) : Option String :=
  if width ≤ maxWidth then some (filled width s) else none

/-- The width of the left part: its title fits, and every key after one blank. -/
def listingWidth (layout : Layout) (lines : List CellLine) : Nat :=
  lines.foldl (fun w l => max w (l.key.toList.length + 1)) layout.titles.1.toList.length

/-- A header, and a line for each cell. Keys stand one blank in, and all cells at one place. -/
def listing? (layout : Layout) (lines : List CellLine) : Option (List String) := do
  let width := listingWidth layout lines
  let title ← padTo? width layout.titles.1
  let body ← lines.mapM fun l =>
    (padTo? (width - 1) l.key).map fun key => " " ++ key ++ "  " ++ l.cell
  return (title ++ "  " ++ layout.titles.2) :: body

def alterationLine : Alteration → String
  | .created family => "Column family '" ++ family ++ "' created."
  | .updated family => "Column family '" ++ family ++ "' updated."
  | .deleted family => "Column family '" ++ family ++ "' deleted."

def Outcome.lines? : Outcome → Option (List String)
  | .created table => some ["Created table " ++ table]
  | .tables names => some ("TABLE" :: names ++ [rowsLine names.length])
  | .done => some []
  | .warning message => some ["WARNING: " ++ message]
  | .answer b => some [if b then "true" else "false"]
  | .altered changes => some <|
    "Updating all regions with the new schema..." :: changes.map alterationLine ++ ["Done."]
  | .dropped n => some [decimal n ++ " tables successfully dropped"]
  | .rowsDeleted n => some [rowsLine n]
  | .description text families =>
    some ((Text.lines text.toList).map String.ofList ++ [rowsLine families])
  | .cells layout lines rows => (listing? layout lines).map (· ++ [rowsLine rows])
  | .count n => some [rowsLine n, "=> " ++ decimal n]
  | .truncated table => some
    ["Truncating '" ++ table ++ "' table (it may take a while):", "Disabling table...",
     "Truncating table..."]
  | .help topic => some (Shell.help topic)
  | .unknown line => some ["Unknown command: '" ++ line ++ "'. Try 'help'."]
  | .exit | .empty => some []

/-- The text of an outcome. Work on the catalog ends with a line on the time that it took. -/
def Outcome.render? (took : Duration) (o : Outcome) : Option String :=
  o.lines?.map fun lines =>
    "\n".intercalate (if o.isTimed then lines ++ ["Took " ++ took.display ++ " seconds"] else lines)

def errorLine (message : String) : String := "ERROR: " ++ message

end WideColumn.Shell
