import WideColumn.Command.Argument
import WideColumn.Command.Basic

/-! # Reading a command line

A line is a keyword and its arguments. The keyword is a whole word: the character after it, if there
is one, is no word character. -/
namespace WideColumn
open WideColumn.Schema WideColumn.Text

namespace Keyword

/-- The text after the keyword, if the line starts with it as a whole word. -/
def after? (k : Keyword) (line : List Char) : Option (List Char) :=
  if k.text.toList.isPrefixOf line then
    let rest := line.drop k.text.toList.length
    if rest.head?.any isWordChar then none else some rest
  else none

/-- The string that an argument is; `number` is its place. -/
def string (k : Keyword) (number : Nat) : Argument → Except Fault String
  | .string content => pure content
  | a => throw (.notAString k number a.kind)

def stringAt (k : Keyword) (args : List Argument) (index : Nat) : Except Fault String :=
  match args[index]? with
  | some a => k.string (index + 1) a
  | none => throw (.missingArgument k (index + 1))

def takes (k : Keyword) (args : List Argument) (n : Nat) : Except Fault Unit :=
  if args.length = n then pure () else throw (.argumentCount k n args.length)

def only (k : Keyword) (args : List Argument) : Except Fault String := do
  k.takes args 1
  k.stringAt args 0

def optional (k : Keyword) (args : List Argument) : Except Fault (Option String) :=
  match args with
  | [] => pure none
  | [a] => some <$> k.string 1 a
  | _ => throw (.tooManyArguments k 1)

end Keyword

namespace Command

def isKey (key name : String) : Bool := sameWord key name

/-- A family given by its name alone, or by a map with its name among its properties. Of several
names the last counts. -/
def familySpec : Argument → Except Fault FamilySpec
  | .string name => return { name, properties := [] }
  | .map pairs =>
    match (pairs.filter fun p => isKey p.1 nameKey).getLast? with
    | some (_, name) => return { name, properties := pairs.filter fun p => !isKey p.1 nameKey }
    | none => throw .createMapWithoutName

def alterMap : Argument → Except Fault Properties
  | .map pairs => pure pairs
  | .string content => throw (.alterGivenString content)

/-- Groups of a row, a column and a value; `number` is the place of the first argument. -/
def cellWrites (number : Nat) : List Argument → Except Fault (List CellWrite)
  | row :: column :: value :: rest => do
    let row ← Keyword.put.string number row
    let column ← CellColumn.parse (← Keyword.put.string (number + 1) column)
    let value ← Keyword.put.string (number + 2) value
    return { row, column, value } :: (← cellWrites (number + 3) rest)
  | _ => pure []

/-- The options of a read: a column and a number of versions, of which the last counts. -/
def getOptions (column : Option Column) (versions : Nat) :
    Properties → Except Fault (Option Column × Nat)
  | [] => pure (column, versions)
  | (key, value) :: rest =>
    if isKey key "COLUMN" then do
      getOptions (some (← Column.parse value)) versions rest
    else if isKey key "VERSIONS" then
      match (Numeral.readUpTo Numeral.max64 value.toList).filter (0 < ·) with
      | some n => getOptions column n rest
      | none => throw (.badVersionCount value)
    else throw (.unknownGetOption key)

def getRequest : Option Argument → Except Fault (Option Column × Nat)
  | none => pure (none, 1)
  | some (.string column) => do return (some (← Column.parse column), 1)
  | some (.map options) => getOptions none 1 options

def ofGet (args : List Argument) : Except Fault Command := do
  let table ← Keyword.get.stringAt args 0
  let row ← Keyword.get.stringAt args 1
  let (column, versions) ← getRequest args[2]?
  if 3 < args.length then throw (.tooManyArguments .get 3)
  return .get table row column versions

def ofArguments (args : List Argument) : Keyword → Except Fault Command
  | .create => do
    let table ← Keyword.create.stringAt args 0
    if args.length < 2 then throw .createWithoutFamily
    return .create table (← (args.drop 1).mapM familySpec)
  | .list => .list <$> Keyword.list.optional args
  | .disable => .disable <$> Keyword.disable.only args
  | .enable => .enable <$> Keyword.enable.only args
  | .isEnabled => .isEnabled <$> Keyword.isEnabled.only args
  | .isDisabled => .isDisabled <$> Keyword.isDisabled.only args
  | .alter => do
    let table ← Keyword.alter.stringAt args 0
    if args.length < 2 then throw .alterWithoutMap
    return .alter table (← (args.drop 1).mapM alterMap)
  | .drop => .drop <$> Keyword.drop.only args
  | .dropAll => .dropAll <$> Keyword.dropAll.only args
  | .describe => .describe <$> Keyword.describe.only args
  | .put => do
    let table ← Keyword.put.stringAt args 0
    let groups := args.drop 1
    if groups.isEmpty || groups.length % 3 != 0 then throw .putGroups
    return .put table (← cellWrites 2 groups)
  | .get => ofGet args
  | .scan => .scan <$> Keyword.scan.only args
  | .delete => do
    Keyword.delete.takes args 3
    let column ← CellColumn.parse (← Keyword.delete.stringAt args 2)
    return .delete (← Keyword.delete.stringAt args 0) (← Keyword.delete.stringAt args 1) column
  | .deleteAll => do
    Keyword.deleteAll.takes args 2
    return .deleteRow (← Keyword.deleteAll.stringAt args 0) (← Keyword.deleteAll.stringAt args 1)
  | .count => .count <$> Keyword.count.only args
  | .truncate => .truncate <$> Keyword.truncate.only args
  | .help => .help <$> Keyword.help.optional args
  | .exit => do
    Keyword.exit.takes args 0
    return .exit

/-- The first of some keywords that the line starts with, and the text after it. -/
def dispatch (keywords : List Keyword) (line : List Char) : Option (Keyword × List Char) :=
  keywords.findSome? fun k => (k.after? line).map (k, ·)

def parse (line : String) : Except Fault Command :=
  let cs := trim line.toList
  if cs.isEmpty then pure .empty
  else match dispatch Keyword.all cs with
    | none => pure (.unknown (.ofList cs))
    | some (k, rest) => do
      let args ← (Argument.ofString (.ofList rest)).mapError (Fault.inCommand k)
      ofArguments args k

end Command

end WideColumn
