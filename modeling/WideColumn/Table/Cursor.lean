import WideColumn.Table.Read

/-! # Cursors over the cells of a table

A scan shows the latest version of every cell whose family is in the schema, in order of row, family
and qualifier. A cursor stands before one of them and can be moved. -/
namespace WideColumn

structure Cursor where
  table : Table
  /-- Cells of an entry that the cursor has come into but not passed. -/
  pending : List Cell
  /-- Entries that it has not come into. -/
  ahead : List Entry

namespace Cursor

def first (t : Table) : Cursor := { table := t, pending := [], ahead := t.entries }

/-- Before the first cell whose row is not below `row`. -/
def seek (c : Cursor) (row : String) : Cursor :=
  { c with pending := [], ahead := c.table.entries.dropWhile fun e => e.row < row }

def rewind (c : Cursor) : Cursor := first c.table

/-- Come into the first readable entry with a cell. -/
def enter (t : Table) : List Entry → Option (Cell × List Cell × List Entry)
  | [] => none
  | e :: rest =>
    if t.isReadable e then
      match e.latest with
      | [] => enter t rest
      | cell :: more => some (cell, more, rest)
    else enter t rest

/-- The cell after the cursor, which it passes. At the end it stays where it is. -/
def next (c : Cursor) : Option (Cell × Cursor) :=
  match c.pending with
  | cell :: more => some (cell, { c with pending := more })
  | [] => (enter c.table c.ahead).map fun (cell, pending, ahead) =>
    (cell, { c with pending, ahead })

/-- A bound on the cells after the cursor. -/
def room (c : Cursor) : Nat :=
  c.pending.length + (c.ahead.flatMap Entry.latest).length

private theorem room_of_enter {t : Table} {es : List Entry} {cell : Cell} {more : List Cell}
    {rest : List Entry} (h : enter t es = some (cell, more, rest)) :
    more.length + (rest.flatMap Entry.latest).length < (es.flatMap Entry.latest).length := by
  induction es with
  | nil => simp [enter] at h
  | cons e es ih =>
    unfold enter at h
    split at h
    · split at h
      · rename_i he
        have := ih h
        simpa [he] using this
      · rename_i he
        simp only [Option.some.injEq, Prod.mk.injEq] at h
        obtain ⟨-, rfl, rfl⟩ := h
        simp [he]
    · have := ih h
      rw [List.flatMap_cons, List.length_append]
      omega

theorem room_next {c d : Cursor} {cell : Cell} (h : c.next = some (cell, d)) : d.room < c.room := by
  unfold next at h
  split at h
  · rename_i hp
    simp only [Option.some.injEq, Prod.mk.injEq] at h
    obtain ⟨-, rfl⟩ := h
    simp [room, hp]
  · rename_i hp
    obtain ⟨⟨cell', more, rest⟩, he, heq⟩ := Option.map_eq_some_iff.1 h
    simp only [Prod.mk.injEq] at heq
    obtain ⟨-, rfl⟩ := heq
    simpa [room, hp] using room_of_enter he

def drain (c : Cursor) : List Cell × Cursor :=
  match h : c.next with
  | none => ([], c)
  | some (cell, d) =>
    have := room_next h
    let (cells, last) := drain d
    (cell :: cells, last)
  termination_by c.room

end Cursor

namespace Table

def scan (t : Table) : Except Fault Cursor := do
  t.checkEnabled .scan
  return .first t

end Table

end WideColumn
