import WideColumn.Host.Basic
import WideColumn.Pattern.Parser
import WideColumn.Table.Document
import WideColumn.Table.Write

/-! # Catalogs: the tables of a data directory

A catalog holds every table in memory and each in a file of its own. After opening, tables are in
order of their file names; new ones come last. -/
namespace WideColumn

structure Catalog where
  directory : String
  tables : List Table
  deriving DecidableEq

/-- Work on a catalog, which keeps what was done before a fault. -/
abbrev CatalogM (m : Type → Type) := ExceptT Fault (StateT Catalog m)

def demand {m : Type → Type} [Monad m] {α : Type} (fault : String → Fault)
    (call : m (Except DiskError α)) : ExceptT Fault m α := do
  match ← ExceptT.lift call with
  | .ok a => return a
  | .error e => throw (fault e.detail)

namespace Catalog

def names (c : Catalog) : List String := c.tables.map (·.name)

def find? (c : Catalog) (name : String) : Option Table := c.tables.find? fun t => t.name == name

def contains (c : Catalog) (name : String) : Bool := (c.find? name).isSome

def table (c : Catalog) (name : String) : Except Fault Table :=
  match c.find? name with
  | some t => pure t
  | none => throw (.noTable name)

def isEnabled (c : Catalog) (name : String) : Except Fault Bool := (·.enabled) <$> c.table name

def isDisabled (c : Catalog) (name : String) : Except Fault Bool := (·.disabled) <$> c.table name

/-- The names that match a pattern as a whole, in catalog order; all names without a pattern. -/
def list (c : Catalog) : Option String → Except Fault (List String)
  | none => pure c.names
  | some pattern => Pattern.select pattern c.names

/-- Put another table in the place of the first of its old name. -/
def replaceIn (name : String) (next : Table) : List Table → List Table
  | [] => []
  | t :: rest => if t.name == name then next :: rest else t :: replaceIn name next rest

def removeFrom (name : String) : List Table → List Table
  | [] => []
  | t :: rest => if t.name == name then rest else t :: removeFrom name rest

def replace (c : Catalog) (name : String) (next : Table) : Catalog :=
  { c with tables := replaceIn name next c.tables }

def remove (c : Catalog) (name : String) : Catalog := { c with tables := removeFrom name c.tables }

def add (c : Catalog) (t : Table) : Catalog := { c with tables := c.tables ++ [t] }

def filePath (c : Catalog) (name : String) : String := pathIn c.directory (tableFileName name)

variable {m : Type → Type} [Monad m] [Host m]

/-- Tables are in the files that have a name before the ending. -/
def isTableFile (name : String) : Bool :=
  tableFileEnding.toList.isSuffixOf name.toList && tableFileEnding.length < name.length

/-- The table in a file, which must have the name of the file. -/
def loadFile (directory file : String) : ExceptT Fault m Table := do
  let path := pathIn directory file
  let t ← Table.load path (← demand .disk (Host.readFile path))
  if t.fileName != file then throw (.misnamedFile path t.name)
  return t

/-- Read every table of a directory. A directory that is not there is made, if that is wanted. -/
def openAt (directory : String) (make : Bool) : ExceptT Fault m Catalog := do
  if !(← Host.pathExists directory) then
    if !make then throw (.noDirectory directory)
    demand .noNewDirectory (Host.makeDirectory directory)
  let files ← demand .disk (Host.fileNames directory)
  let files := (files.filter isTableFile).mergeSort fun a b => decide (a ≤ b)
  return { directory, tables := ← files.mapM (loadFile directory) }

end Catalog

end WideColumn
