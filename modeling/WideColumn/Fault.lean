import WideColumn.Command.Keyword
import WideColumn.Schema.Property
import WideColumn.Text.Basic

/-! # What can go wrong: causes, their codes and their wording -/
namespace WideColumn

/-- The class of a fault, by which callers tell faults apart. -/
inductive Code where
  | notFound
  | alreadyExists
  | invalidProperty
  | disabledStateConflict
  | preconditionFailed
  | invalidArgument
  | corruption
  | ioError
  deriving DecidableEq, Repr

namespace Code

def all : List Code :=
  [notFound, alreadyExists, invalidProperty, disabledStateConflict, preconditionFailed,
   invalidArgument, corruption, ioError]

def label : Code → String
  | notFound => "NotFound"
  | alreadyExists => "AlreadyExists"
  | invalidProperty => "InvalidProperty"
  | disabledStateConflict => "DisabledStateConflict"
  | preconditionFailed => "PreconditionFailed"
  | invalidArgument => "InvalidArgument"
  | corruption => "Corruption"
  | ioError => "IOError"

def display (code : Code) (message : String) : String := code.label ++ ": " ++ message

end Code

/-- What a disabled table refuses to do. -/
inductive Action where
  | createFamily
  | updateFamily
  | deleteFamily
  | put
  | delete
  | deleteRow
  | scan
  | get
  | count
  deriving DecidableEq, Repr

def Action.label : Action → String
  | createFamily => "create column family"
  | updateFamily => "update column family"
  | deleteFamily => "delete column family"
  | put => "put data"
  | delete => "delete data"
  | deleteRow => "delete all data"
  | scan => "scan data"
  | get => "get data"
  | count => "count rows"

inductive ArgumentKind where
  | string
  | map
  deriving DecidableEq, Repr

def ArgumentKind.label : ArgumentKind → String
  | string => "a quoted string"
  | map => "a \x7b...\x7d map"

inductive Fault where
  -- nothing of that name
  | noDirectory (path : String)
  | noTable (name : String)
  | noFamily (family table : String)
  | noCell (row family qualifier : String)
  -- something of that name
  | tableExists (name : String)
  | familyExists (name : String)
  -- the state of a table
  | unknownProperty (key : String)
  | tableDisabled (action : Action) (table : String)
  | alreadyEnabled (table : String)
  | alreadyDisabled (table : String)
  | tableEnabled (name : String)
  | tablesEnabled (names : List String)
  -- names and values
  | emptyTableName
  | badTableStart (name : String)
  | badTableCharacter (c : Char) (name : String)
  | emptyFamilyName
  | badFamilyName (name : String)
  | badValue (text kind : String)
  | zeroVersions
  | zeroBlockSize
  | qualifierWithoutFamily
  | noFamilyOfColumn (column : String)
  | noQualifierOfColumn (column : String)
  | notACell (column : String)
  | badPattern (detail : String)
  | alterWithoutName
  | unknownMethod (method : String)
  -- the text of a command
  | unterminatedString
  | noArrowHead
  | unexpectedCharacter (c : Char)
  | bareWord (word : String)
  | unexpectedToken (shown : String)
  | noArgumentAfterComma
  | unterminatedMap
  | inCommand (keyword : Keyword) (cause : Fault)
  | argumentCount (keyword : Keyword) (expected found : Nat)
  | tooManyArguments (keyword : Keyword) (most : Nat)
  | missingArgument (keyword : Keyword) (number : Nat)
  | notAString (keyword : Keyword) (number : Nat) (found : ArgumentKind)
  | createWithoutFamily
  | createMapWithoutName
  | alterWithoutMap
  | alterGivenString (text : String)
  | putGroups
  | badVersionCount (text : String)
  | unknownGetOption (key : String)
  -- stored documents
  | malformedDocument (detail : String)
  | versionsMiscounted (row qualifier : String) (claimed stored : Nat)
  | badVersionKey (row qualifier key : String)
  | noVersions (row qualifier : String)
  | inFile (path : String) (cause : Fault)
  | misnamedFile (path table : String)
  -- the disk
  | disk (detail : String)
  | noNewDirectory (detail : String)
  deriving DecidableEq, Repr

def tableFileEnding : String := ".json"

def tableFileName (table : String) : String := table ++ tableFileEnding

namespace Fault

def code : Fault → Code
  | noDirectory _ | noTable _ | noFamily .. | noCell .. => .notFound
  | tableExists _ | familyExists _ => .alreadyExists
  | unknownProperty _ => .invalidProperty
  | tableDisabled .. | alreadyEnabled _ | alreadyDisabled _ => .disabledStateConflict
  | tableEnabled _ | tablesEnabled _ => .preconditionFailed
  | malformedDocument _ | versionsMiscounted .. | badVersionKey .. | noVersions .. | inFile ..
  | misnamedFile .. => .corruption
  | disk _ | noNewDirectory _ => .ioError
  | _ => .invalidArgument

def quote (s : String) : String := "'" ++ s ++ "'"

def decimal (n : Nat) : String := .ofList (Text.Numeral.write n)

def cell (row qualifier : String) : String := "Cell " ++ row ++ "/" ++ qualifier

def message : Fault → String
  | noDirectory path => "Data directory not found: " ++ path
  | noTable name => "Table " ++ quote name ++ " does not exist"
  | noFamily family table =>
    "Column family " ++ quote family ++ " not found in table " ++ quote table
  | noCell row family qualifier =>
    "Cell " ++ quote (family ++ ":" ++ qualifier) ++ " not found in row " ++ quote row
  | tableExists name => "Table " ++ quote name ++ " already exists"
  | familyExists name => "Column family " ++ quote name ++ " already exists"
  | unknownProperty key => "Invalid property " ++ quote key ++ " for a column family"
  | tableDisabled action table =>
    "Failed to " ++ action.label ++ ": table " ++ quote table ++ " is disabled"
  | alreadyEnabled table => "Table " ++ quote table ++ " is already enabled"
  | alreadyDisabled table => "Table " ++ quote table ++ " is already disabled"
  | tableEnabled name => "Table " ++ quote name ++ " is enabled. Disable it first."
  | tablesEnabled names => "Tables must be disabled before dropping: " ++ ", ".intercalate names
  | emptyTableName => "Table name must not be empty"
  | badTableStart name => "Illegal table name " ++ quote name ++ ": must not start with '.' or '-'"
  | badTableCharacter c name =>
    "Illegal character " ++ quote (.singleton c) ++ " in table name " ++ quote name
  | emptyFamilyName => "Column family name must not be empty"
  | badFamilyName name => "Illegal column family name " ++ quote name ++ ": ':' is not allowed"
  | badValue text kind => "Invalid value " ++ quote text ++ " for " ++ kind
  | zeroVersions => "VERSIONS must be at least 1"
  | zeroBlockSize => "BLOCKSIZE must be positive"
  | qualifierWithoutFamily => "A qualifier requires a column family"
  | noFamilyOfColumn column => "Invalid column " ++ quote column ++ ": column family is empty"
  | noQualifierOfColumn column => "Invalid column " ++ quote column ++ ": qualifier is empty"
  | notACell column =>
    "Invalid column " ++ quote column ++ ": expected '<column_family>:<column_qualifier>'"
  | badPattern detail => "Invalid pattern: " ++ detail
  | alterWithoutName => "alter requires a NAME => '<column family>' entry"
  | unknownMethod method => "Unknown alter method " ++ quote method
  | unterminatedString => "Unterminated quoted string"
  | noArrowHead => "Expected '=>' after '='"
  | unexpectedCharacter c => "Unexpected character " ++ quote (.singleton c)
  | bareWord word => "Expected a quoted string, found " ++ quote word
  | unexpectedToken shown => "Unexpected token " ++ shown
  | noArgumentAfterComma => "Expected an argument after ','"
  | unterminatedMap => "Unterminated '\x7b' map"
  | inCommand keyword cause => keyword.text ++ ": " ++ cause.message
  | argumentCount keyword expected found =>
    keyword.text ++ " takes " ++ decimal expected ++ " argument(s), got " ++ decimal found
  | tooManyArguments keyword most =>
    keyword.text ++ " takes at most " ++ decimal most ++
      (if most == 1 then " argument" else " arguments")
  | missingArgument keyword number => keyword.text ++ ": missing argument " ++ decimal number
  | notAString keyword number found =>
    keyword.text ++ ": argument " ++ decimal number ++ " must be a quoted string, got " ++
      found.label
  | createWithoutFamily => "create: table must have at least one column family"
  | createMapWithoutName => "create: column family map requires a NAME"
  | alterWithoutMap =>
    "alter: expected at least one \x7bNAME => '<column family>', ...\x7d map"
  | alterGivenString text => "alter: expected a \x7b...\x7d map, got " ++ quote text
  | putGroups =>
    "put: expected one or more '<row>', '<family>:<qualifier>', '<value>' groups"
  | badVersionCount text => "get: VERSIONS must be a positive number, got " ++ quote text
  | unknownGetOption key => "get: unknown option " ++ quote key
  | malformedDocument detail => detail
  | versionsMiscounted row qualifier claimed stored =>
    cell row qualifier ++ ": version_count is " ++ decimal claimed ++ " but " ++ decimal stored
      ++ " versions are stored"
  | badVersionKey row qualifier key =>
    cell row qualifier ++ ": unexpected version key " ++ quote key
  | noVersions row qualifier => cell row qualifier ++ " has no versions"
  | inFile path cause => path ++ ": " ++ cause.code.display cause.message
  | misnamedFile path table =>
    path ++ " holds table " ++ quote table ++ ", expected file name " ++ tableFileName table
  | disk detail => detail
  | noNewDirectory detail => "Failed to create directory: " ++ detail

def display (fault : Fault) : String := fault.code.display fault.message

end Fault

end WideColumn
