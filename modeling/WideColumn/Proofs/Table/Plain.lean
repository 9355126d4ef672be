import Mathlib.Data.Finmap
import Mathlib.Data.Finset.Sort
import Mathlib.Data.Prod.Lex
import Mathlib.Data.String.Basic
import WideColumn.Proofs.Table.Run

/-! # Tables as plain maps

A table without any order of storage: its families in order, whether it is disabled, and a finite
map from the places of cells to their values. It answers every call by looking at this map. -/
namespace WideColumn
open WideColumn.Schema

@[ext] structure CellPlace where
  row : String
  family : String
  qualifier : String

namespace CellPlace

/-- Places are in order of rows, then of families, then of qualifiers. -/
def toTriple (k : CellPlace) : String ×ₗ String ×ₗ String :=
  toLex (k.row, toLex (k.family, k.qualifier))

theorem toTriple_injective : Function.Injective toTriple := by
  intro j k h
  simp only [toTriple, toLex_inj, Prod.mk.injEq] at h
  exact CellPlace.ext h.1 h.2.1 h.2.2

instance : LinearOrder CellPlace := LinearOrder.lift' toTriple toTriple_injective

end CellPlace

/-- The values of a cell, the oldest first. There is always one. -/
abbrev Values := { values : List String // values ≠ [] }

/-- Add a value behind those that are there, if any are. -/
def Values.extend (values : Option Values) (value : String) : Values :=
  ⟨(match values with | some l => l.val | none => []) ++ [value], by simp⟩

/-- What a write reports of an answer of the map: the number of a version in 32 bits, every other
answer as it is. -/
def Table.Operation.report : Table.Operation → Option Nat → Option Nat
  | put .., answer => answer.map fun n => (UInt32.ofNat n).toNat
  | _, answer => answer

structure PlainTable where
  families : List Family
  disabled : Bool
  cells : Finmap fun _ : CellPlace => Values

/-- A value of a cell with its number in 32 bits, but not its time. -/
abbrev Reading := CellPlace × UInt32 × String

namespace PlainTable

def blank (families : List Family) : PlainTable := ⟨families, false, ∅⟩

def has (p : PlainTable) (family : String) : Bool := p.families.any fun f => f.name == family

def outside (cells : Finmap fun _ : CellPlace => Values) (row : String) :
    Finmap fun _ : CellPlace => Values :=
  ⟨cells.entries.filter fun e => e.1.row ≠ row,
    Multiset.nodup_keys.mp
      (Multiset.nodup_of_le (Multiset.map_le_map (Multiset.filter_le _ _))
        (Multiset.nodup_keys.mpr cells.nodupKeys))⟩

def familiesIn (p : PlainTable) (row : String) : Finset String :=
  (p.cells.keys.filter fun k => k.row = row).image (·.family)

def entries (p : PlainTable) : Finset (String × String) :=
  p.cells.keys.image fun k => (k.row, k.family)

/-- What a call answers and what becomes of the map. The name of the table only stands in
refusals. -/
def run (name : String) (p : PlainTable) : Table.Operation → Except Fault (Option Nat × PlainTable)
  | .put row family qualifier value => do
    if p.disabled then throw (.tableDisabled .put name)
    if !p.has family then throw (.noFamily family name)
    let values := Values.extend (p.cells.lookup ⟨row, family, qualifier⟩) value
    return (some values.val.length,
      { p with cells := p.cells.insert ⟨row, family, qualifier⟩ values })
  | .delete row family qualifier => do
    if p.disabled then throw (.tableDisabled .delete name)
    if !p.has family then throw (.noFamily family name)
    if (p.cells.lookup ⟨row, family, qualifier⟩).isNone then throw (.noCell row family qualifier)
    return (none, { p with cells := p.cells.erase ⟨row, family, qualifier⟩ })
  | .deleteRow row => do
    if p.disabled then throw (.tableDisabled .deleteRow name)
    return (some (p.familiesIn row).card, { p with cells := outside p.cells row })
  | .createFamily family batch => do
    if p.disabled then throw (.tableDisabled .createFamily name)
    if family = "" then throw .emptyFamilyName
    if ':' ∈ family.toList then throw (.badFamilyName family)
    if p.has family then throw (.familyExists family)
    let options ← Options.ofProperties batch
    return (none, { p with families := p.families ++ [{ name := family, options }] })
  | .updateFamily family batch => do
    if p.disabled then throw (.tableDisabled .updateFamily name)
    match p.families.find? fun f => f.name == family with
    | none => throw (.noFamily family name)
    | some f =>
      let options ← f.options.apply batch
      return (none, { p with families := p.families.map fun f =>
        if f.name = family then { f with options } else f })
  | .deleteFamily family => do
    if p.disabled then throw (.tableDisabled .deleteFamily name)
    if !p.has family then throw (.noFamily family name)
    return (none, { p with families := p.families.filter fun f => f.name ≠ family })
  | .enable => do
    if !p.disabled then throw (.alreadyEnabled name)
    return (none, { p with disabled := false })
  | .disable => do
    if p.disabled then throw (.alreadyDisabled name)
    return (none, { p with disabled := true })
  | .recount => return (some p.entries.card, p)

def step (name : String) (p : PlainTable) (op : Table.Operation) : PlainTable :=
  match p.run name op with
  | .ok (_, next) => next
  | .error _ => p

def after (name : String) (p : PlainTable) (ops : List Table.Operation) : PlainTable :=
  ops.foldl (step name) p

/-- What the calls of a history answer, one after the other. -/
def answers (name : String)
    (p : PlainTable) : List Table.Operation → List (Except Fault (Option Nat))
  | [] => []
  | op :: rest => (p.run name op).map (·.1) :: (p.step name op).answers name rest

/-- What the writes of a history report of the answers of the map, one after the other. -/
def reports (name : String) (p : PlainTable) (ops : List Table.Operation) :
    List (Except Fault (Option Nat)) :=
  List.zipWith (fun op answer => answer.map op.report) ops (p.answers name ops)

/-- A read of a row shows its cells of families in the schema, of one family and one qualifier where
these are given. -/
def Shows (p : PlainTable) (row : String) (family qualifier : Option String)
    (k : CellPlace) : Prop :=
  k.row = row ∧ (∀ f ∈ family, k.family = f) ∧ (∀ q ∈ qualifier, k.qualifier = q) ∧
    p.has k.family = true

instance (p : PlainTable) (row : String) (family qualifier : Option String) :
    DecidablePred (p.Shows row family qualifier) := fun k =>
  inferInstanceAs (Decidable (k.row = row ∧ (∀ f ∈ family, k.family = f) ∧
    (∀ q ∈ qualifier, k.qualifier = q) ∧ p.has k.family = true))

/-- The newest values of a cell, each with its number. -/
def newest (most : Nat) (k : CellPlace) (values : List String) : List Reading :=
  ((values.zipIdx 1).reverse.take most).map fun (value, number) => (k, .ofNat number, value)

/-- The newest values of a place, if it has any. -/
def valuesAt (p : PlainTable) (most : Nat) (k : CellPlace) : List Reading :=
  (p.cells.lookup k).toList.flatMap fun values => newest most k values.val

/-- The newest values of the cells of a row, cell after cell in the order of their places. -/
def getVersions (name : String) (p : PlainTable) (row : String) (family qualifier : Option String)
    (versions : Nat) : Except Fault (List Reading) := do
  if p.disabled then throw (.tableDisabled .get name)
  if qualifier.isSome && family.isNone then throw .qualifierWithoutFamily
  if let some f := family then if !p.has f then throw (.noFamily f name)
  return (p.cells.keys.filter (p.Shows row family qualifier)).sort.flatMap
    (p.valuesAt (max versions 1))

end PlainTable

end WideColumn
