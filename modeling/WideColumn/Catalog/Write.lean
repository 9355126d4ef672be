import WideColumn.Catalog.Basic

/-! # Writes to a catalog

A write works on a copy of a table, brings the copy to its file, and only then puts it into the
catalog. So memory never has what the file has not. -/
namespace WideColumn

open WideColumn.Schema

/-- Whether a table was not yet in the state that was asked for. -/
inductive StateChange where
  | changed
  | unchanged
  deriving DecidableEq, Repr

inductive Alteration where
  | created (family : String)
  | updated (family : String)
  | deleted (family : String)
  deriving DecidableEq, Repr

namespace Catalog

variable {m : Type → Type} [Monad m] [Host m]

/-- Run a check or a read that cannot change the catalog. -/
def ask {α : Type} (f : Catalog → Except Fault α) : CatalogM m α := do
  match f (← get) with
  | .ok a => return a
  | .error e => throw e

def readClock : CatalogM m Readings := return { version := ← Host.now, done := ← Host.now }

/-- Write a table to its file, in the directory, which is made anew if it went missing. -/
def save (t : Table) : CatalogM m Unit := do
  let c ← get
  demand .disk (Host.makeDirectory c.directory)
  demand .disk (Host.writeFile (c.filePath t.name) t.encode)

def mutate {α : Type} (name : String) (op : Readings → Table → Except Fault (α × Table)) :
    CatalogM m α := do
  let t ← ask (·.table name)
  let (answer, next) ← op (← readClock) t
  save next
  modify (·.replace name next)
  return answer

def mutate_ (name : String) (op : Readings → Table → Except Fault Table) : CatalogM m Unit :=
  mutate name fun r t => return ((), ← op r t)

/-- Add an enabled, empty table. Neither the catalog nor the directory may have its name. -/
def createTable (name : String) (families : List Family) : CatalogM m Unit := do
  checkTableName name
  let c ← get
  if c.contains name then throw (.tableExists name)
  if ← Host.pathExists (c.filePath name) then throw (.tableExists name)
  Table.checkNew name families
  let t := Table.blank name families (← Host.newId) (← Host.now)
  save t
  modify (·.add t)

def disable (name : String) : CatalogM m StateChange := do
  if ← ask (·.isDisabled name) then return .unchanged
  mutate_ name fun r t => t.disable r
  return .changed

def enable (name : String) : CatalogM m StateChange := do
  if ← ask (·.isEnabled name) then return .unchanged
  mutate_ name fun r t => t.enable r
  return .changed

/-- Remove a file, which may be gone already. -/
def removeFile (path : String) : CatalogM m Unit := do
  match ← Host.removeFile path with
  | .ok _ | .error .missing => pure ()
  | .error e => throw (.disk e.detail)

def dropTable (name : String) : CatalogM m Unit := do
  let c ← get
  let t ← ask (·.table name)
  if t.enabled then throw (.tableEnabled name)
  removeFile (c.filePath t.name)
  modify (·.remove name)

/-- Remove every table that matches a pattern, once the names are confirmed. All of them must be
disabled. The answer is their number. -/
def dropAll (pattern : String) (confirm : List String → m Bool) : CatalogM m Nat := do
  let matched ← ask (·.list (some pattern))
  if matched.isEmpty then return 0
  let c ← get
  let enabled := matched.filter fun name => (c.find? name).any (·.enabled)
  if !enabled.isEmpty then throw (.tablesEnabled enabled)
  if !(← confirm matched) then return 0
  matched.forM dropTable
  return matched.length

/-- The value of the first pair with a key, ignoring case. -/
def lookup (key : String) (pairs : Properties) : Option String :=
  (pairs.find? fun p => Text.sameWord p.1 key).map (·.2)

/-- Apply a property map to the family that it names: remove the family if that is the method,
update it if there is one, and create it otherwise. -/
def alter (name : String) (pairs : Properties) : CatalogM m Alteration := do
  let some family := lookup nameKey pairs | throw .alterWithoutName
  let batch := pairs.filter fun p => !Text.sameWord p.1 nameKey && !Text.sameWord p.1 methodKey
  match lookup methodKey pairs with
  | some method =>
    if Text.sameWord method "delete" then
      mutate_ name fun r t => t.deleteFamily r family
      return .deleted family
    else throw (.unknownMethod method)
  | none =>
    if ((← ask (·.table name)).family? family).isSome then
      mutate_ name fun r t => t.updateFamily r family batch
      return .updated family
    else
      mutate_ name fun r t => t.createFamily r family batch
      return .created family

def truncate (name : String) : CatalogM m Unit := do
  let t ← ask (·.table name)
  if t.enabled then discard (disable name)
  dropTable name
  createTable name (t.familyNames.map fun name => { name })

end Catalog

end WideColumn
