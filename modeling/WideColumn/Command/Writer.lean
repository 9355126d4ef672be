import WideColumn.Command.Parser

/-! # Writing a command line

Every command has a canonical line: its keyword, a blank, and its arguments separated by commas. -/
namespace WideColumn
open WideColumn.Schema WideColumn.Text

namespace Token

/-- Quotes and backslashes get a backslash in front. -/
def escape (cs : List Char) : List Char :=
  cs.flatMap fun c => if c == '\'' || c == '\\' then ['\\', c] else [c]

def quoted (s : String) : List Char := '\'' :: escape s.toList ++ ['\'']

def write : Token → List Char
  | string content => quoted content
  | t => t.shown.toList

/-- A token with the blanks that a line has around it: one after a comma, one on each side of an
arrow. -/
def spaced : Token → List Char
  | comma => comma.write ++ [' ']
  | arrow => ' ' :: arrow.write ++ [' ']
  | t => t.write

end Token

/-- A key or a value of a map as it is written. -/
inductive Literal where
  | quoted (content : String)
  | bare (spelling : String)
  deriving DecidableEq, Repr

namespace Literal

def token : Literal → Token
  | quoted content => .string content
  | bare spelling => .word spelling

def text : Literal → String
  | quoted content => content
  | bare spelling => spelling

end Literal

/-- An argument as it is written. -/
inductive Wording where
  | string (content : String)
  | map (pairs : List (Literal × Literal))
  deriving DecidableEq, Repr

namespace Wording

def pairTokens : List (Literal × Literal) → List Token
  | [] => []
  | [(key, value)] => [key.token, .arrow, value.token]
  | (key, value) :: next :: rest =>
    key.token :: .arrow :: value.token :: .comma :: pairTokens (next :: rest)

def tokens : Wording → List Token
  | string content => [.string content]
  | map pairs => .leftBrace :: pairTokens pairs ++ [.rightBrace]

def listed : List Wording → List Token
  | [] => []
  | [w] => w.tokens
  | w :: next :: rest => w.tokens ++ .comma :: listed (next :: rest)

def write (w : Wording) : List Char := w.tokens.flatMap Token.spaced

def argument : Wording → Argument
  | string content => .string content
  | map pairs => .map (pairs.map fun p => (p.1.text, p.2.text))

/-- Properties, each with its key and its value quoted. -/
def properties (batch : Properties) : List (Literal × Literal) :=
  batch.map fun p => (.quoted p.1, .quoted p.2)

/-- A family as a map that starts with its name. -/
def family (f : FamilySpec) : Wording :=
  .map ((.bare nameKey, .quoted f.name) :: properties f.properties)

end Wording

def Column.write (c : Column) : String :=
  match c.qualifier with
  | some qualifier => c.family ++ ":" ++ qualifier
  | none => c.family

def CellColumn.write (c : CellColumn) : String := Column.write ⟨c.family, some c.qualifier⟩

namespace Wording

def options (column : Option Column) (versions : Nat) : Wording :=
  .map (column.toList.map (fun c => (.bare "COLUMN", .quoted c.write)) ++
    [(.bare "VERSIONS", .bare (.ofList (Numeral.write versions)))])

def cell (w : CellWrite) : List Wording := [.string w.row, .string w.column.write, .string w.value]

end Wording

namespace Command

/-- The keyword of a command and its arguments. A line without a keyword has none. -/
def wordings : Command → Option (Keyword × List Wording)
  | create table families => some (.create, .string table :: families.map Wording.family)
  | list pattern => some (.list, pattern.toList.map .string)
  | disable table => some (.disable, [.string table])
  | enable table => some (.enable, [.string table])
  | isEnabled table => some (.isEnabled, [.string table])
  | isDisabled table => some (.isDisabled, [.string table])
  | alter table maps =>
    some (.alter, .string table :: maps.map fun m => .map (Wording.properties m))
  | drop table => some (.drop, [.string table])
  | dropAll pattern => some (.dropAll, [.string pattern])
  | describe table => some (.describe, [.string table])
  | put table cells => some (.put, .string table :: cells.flatMap Wording.cell)
  | get table row column versions =>
    some (.get, [.string table, .string row, .options column versions])
  | scan table => some (.scan, [.string table])
  | delete table row column =>
    some (.delete, [.string table, .string row, .string column.write])
  | deleteRow table row => some (.deleteAll, [.string table, .string row])
  | count table => some (.count, [.string table])
  | truncate table => some (.truncate, [.string table])
  | help topic => some (.help, topic.toList.map .string)
  | exit => some (.exit, [])
  | unknown _ | empty => none

/-- Texts with a comma between two of them, and a gap after each comma. -/
def separated (gap : List Char) (texts : List (List Char)) : List Char :=
  (',' :: gap).intercalate texts

/-- The canonical line of a command, with a gap after the commas between its arguments. -/
def line (gap : List Char) (c : Command) : String :=
  match c.wordings with
  | some (k, ws) => .ofList (k.text.toList ++ ' ' :: separated gap (ws.map Wording.write))
  | none =>
    match c with
    | unknown line => line
    | _ => ""

end Command

end WideColumn
