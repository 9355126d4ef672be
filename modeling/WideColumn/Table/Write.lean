import WideColumn.Table.Basic

/-! # Writes to a table

Every write checks first and changes the table last, so a refused write changes nothing. A
successful write refreshes the time of the last update. -/
namespace WideColumn
open WideColumn.Schema WideColumn.Time

/-- What the clock shows during one write: when a new version is made, and when the write is
done. -/
structure Readings where
  version : Instant
  done : Instant

namespace Table

def enable (t : Table) (r : Readings) : Except Fault Table :=
  if t.disabled then pure ({ t with disabled := false }.touch r.done)
  else throw (.alreadyEnabled t.name)

def disable (t : Table) (r : Readings) : Except Fault Table :=
  if t.disabled then throw (.alreadyDisabled t.name)
  else pure ({ t with disabled := true }.touch r.done)

/-- Add a family; properties that the batch leaves out take their defaults. -/
def createFamily (t : Table) (r : Readings) (name : String) (batch : Properties) :
    Except Fault Table := do
  t.checkEnabled .createFamily
  checkFamilyName name
  if (t.family? name).isSome then throw (.familyExists name)
  let family ← Family.ofProperties name batch
  return { t with families := t.families ++ [family] }.touch r.done

def replaceOptions (name : String) (options : Options) : List Family → List Family
  | [] => []
  | f :: rest =>
    if f.name == name then { f with options } :: rest else f :: replaceOptions name options rest

def updateFamily (t : Table) (r : Readings) (name : String) (batch : Properties) :
    Except Fault Table := do
  t.checkEnabled .updateFamily
  let family ← t.needFamily name
  let options ← family.options.apply batch
  return { t with families := replaceOptions name options t.families }.touch r.done

/-- Take a family out of the schema. Its cells stay and count, but no read shows them while the
family is absent. -/
def deleteFamily (t : Table) (r : Readings) (name : String) : Except Fault Table := do
  t.checkEnabled .deleteFamily
  t.checkFamily name
  return { t with families := t.families.filter fun f => f.name != name }.touch r.done

def lessRows (count : UInt64) (n : Nat) : UInt64 :=
  .ofNat (count.toNat - n)

def put (t : Table) (r : Readings) (row family qualifier value : String) :
    Except Fault (UInt32 × Table) := do
  t.checkEnabled .put
  t.checkFamily family
  let (entries, number, isNew) := Entries.put t.entries row family qualifier r.version value
  let rowCount := if isNew then t.rowCount + 1 else t.rowCount
  return (number, { t with entries, rowCount }.touch r.done)

def delete (t : Table) (r : Readings) (row family qualifier : String) : Except Fault Table := do
  t.checkEnabled .delete
  t.checkFamily family
  if (Entries.find? t.entries row family qualifier).isNone then
    throw (.noCell row family qualifier)
  let (entries, gone) := Entries.erase t.entries row family qualifier
  let rowCount := if gone then lessRows t.rowCount 1 else t.rowCount
  return { t with entries, rowCount }.touch r.done

/-- Remove every entry of a row, in every family; the answer is how many there were. -/
def deleteRow (t : Table) (r : Readings) (row : String) : Except Fault (Nat × Table) := do
  t.checkEnabled .deleteRow
  let removed := (Entries.ofRow t.entries row).length
  return (removed, { t with
    entries := Entries.withoutRow t.entries row
    rowCount := lessRows t.rowCount removed }.touch r.done)

/-- Count the entries anew. This is no write: it leaves the time of the last update alone and is
open to disabled tables. -/
def recount (t : Table) : Nat × Table :=
  let n := (t.entries.filter fun e => !e.cells.isEmpty).length
  (n, { t with rowCount := .ofNat n })

end Table

end WideColumn
