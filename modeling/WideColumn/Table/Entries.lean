import WideColumn.Table.History

/-! # The store of a table: entries in order of row and family

An entry holds the cells of one row in one family. Entries ascend by row and, within a row, by
family, so that one pass finds a place or the entries of a row. -/
namespace WideColumn
open WideColumn.Time

/-- Pairs in ascending order of keys, each key at most once. Texts are ordered by code point, which
is also the order of their bytes in UTF-8. -/
abbrev KeyedList (β : Type) := List (String × β)

namespace KeyedList

variable {β : Type}

def Ascending (l : KeyedList β) : Prop := l.Pairwise fun a b => a.1 < b.1

/-- Put a pair in its place; an earlier pair of that key gives way. -/
def insert (k : String) (b : β) : KeyedList β → KeyedList β
  | [] => [(k, b)]
  | (j, a) :: rest =>
    if k < j then (k, b) :: (j, a) :: rest
    else if k = j then (k, b) :: rest
    else (j, a) :: insert k b rest

def find? (k : String) (l : KeyedList β) : Option β := (List.find? (fun p => p.1 == k) l).map (·.2)

def erase (k : String) (l : KeyedList β) : KeyedList β := l.filter fun p => p.1 != k

/-- The pairs in order of their keys; of several pairs with one key the last stays. -/
def ofPairs (pairs : List (String × β)) : KeyedList β :=
  pairs.foldl (fun l p => l.insert p.1 p.2) []

end KeyedList

structure Entry where
  row : String
  family : String
  /-- Histories by qualifier. -/
  cells : KeyedList History
  deriving DecidableEq

namespace Entry

/-- The order of entries, against the place of a row and a family. -/
def precedes (e : Entry) (row family : String) : Bool :=
  e.row < row || (e.row == row && e.family < family)

def isAt (e : Entry) (row family : String) : Bool := e.row == row && e.family == family

end Entry

/-- Where an entry is, or where it belongs. -/
inductive Place where
  | found (index : Nat)
  | vacant (index : Nat)
  deriving DecidableEq, Repr

namespace Entries

/-- Ascending by row and family, so that no two entries share both; none is without cells. -/
def Ordered (es : List Entry) : Prop :=
  es.Pairwise (fun a b => a.precedes b.row b.family = true) ∧ ∀ e ∈ es, e.cells ≠ []

def search (es : List Entry) (row family : String) : Place :=
  let i := (es.takeWhile fun e => e.precedes row family).length
  match es[i]? with
  | some e => if e.isAt row family then .found i else .vacant i
  | none => .vacant i

/-- The first index of the entries of a row, and the index after the last. -/
def rowRange (es : List Entry) (row : String) : Nat × Nat :=
  let start := (es.takeWhile fun e => e.row < row).length
  (start, start + ((es.drop start).takeWhile fun e => e.row == row).length)

def ofRow (es : List Entry) (row : String) : List Entry :=
  let (start, stop) := rowRange es row
  (es.take stop).drop start

def withoutRow (es : List Entry) (row : String) : List Entry :=
  let (start, stop) := rowRange es row
  es.take start ++ es.drop stop

def find? (es : List Entry) (row family qualifier : String) : Option History :=
  match search es row family with
  | .found i => (es[i]?).bind fun e => e.cells.find? qualifier
  | .vacant _ => none

/-- Add a version to a cell, in a new entry if there is none. The answer is the number of the
version and whether the entry is new. -/
def put (es : List Entry) (row family qualifier : String) (now : Instant) (value : String) :
    List Entry × UInt32 × Bool :=
  let history := match find? es row family qualifier with
    | some h => h.push now value
    | none => .start now value
  match search es row family with
  | .found i =>
    (es.modify i fun e => { e with cells := e.cells.insert qualifier history },
      history.count, false)
  | .vacant i =>
    (es.insertIdx i { row, family, cells := [(qualifier, history)] }, history.count, true)

/-- Remove a cell, and its entry if that leaves it without cells; whether the entry went, too. -/
def erase (es : List Entry) (row family qualifier : String) : List Entry × Bool :=
  match search es row family with
  | .found i =>
    match (es[i]?).map fun e => e.cells.erase qualifier with
    | some [] => (es.eraseIdx i, true)
    | _ => (es.modify i fun e => { e with cells := e.cells.erase qualifier }, false)
  | .vacant _ => (es, false)

end Entries

end WideColumn
