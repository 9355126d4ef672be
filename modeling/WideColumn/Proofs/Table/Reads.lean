import WideColumn.Proofs.Table.Addressing

/-! # Reads as data

A scan and a read of a row both pick entries, of rows and of families, and pass over those whose
family is not in the schema. What they give is determined by the entries that they pick. -/
namespace WideColumn
open WideColumn.Schema WideColumn.Time

namespace Entries

variable {es before after : List Entry} {e : Entry} {family : String}

def ofFamily (es : List Entry) (family : String) : List Entry :=
  es.filter fun e => e.family == family

theorem ofFamily_append_cons (h : e.family ≠ family) :
    ofFamily (before ++ e :: after) family = ofFamily (before ++ after) family := by
  rw [ofFamily, ofFamily, List.filter_append, List.filter_append,
    List.filter_cons_of_neg (by simpa using h)]

/-- A cell is looked up among the entries of its family. -/
theorem Ordered.find?_ofFamily (h : Ordered es) (row family qualifier : String) :
    find? es row family qualifier =
      ((ofFamily es family).find? fun e => e.isAt row family).bind fun e =>
        e.cells.find? qualifier := by
  rw [h.find?_eq, ofFamily, List.find?_filter]
  congr 2
  funext e
  rw [Entry.isAt, Bool.decide_and, Bool.decide_eq_true, Bool.decide_eq_true, Bool.and_left_comm,
    Bool.and_self]

/-- In ordered entries those of lower rows stand before all others. -/
theorem Ordered.dropWhile_eq_filter (h : Ordered es) (row : String) :
    (es.dropWhile fun e => e.row < row) = es.filter fun e => row ≤ e.row := by
  obtain ⟨before, inside, after, hs⟩ := h.rowSplit row
  have hhigh : ∀ e ∈ inside ++ after, row ≤ e.row := by
    intro e he
    rcases List.mem_append.mp he with he | he
    · exact hs.same e he ▸ String.le_refl _
    · exact Std.le_of_lt (hs.above e he)
  have hstop : ∀ e ∈ (inside ++ after).head?, decide (e.row < row) = false := fun e he =>
    decide_eq_false (String.not_lt.mpr (hhigh e (List.mem_of_mem_head? he)))
  have hnone : (before.filter fun e => row ≤ e.row) = [] :=
    List.filter_eq_nil_iff.mpr fun e he hle =>
      String.not_lt.mpr (of_decide_eq_true hle) (hs.below e he)
  have hall : ((inside ++ after).filter fun e => row ≤ e.row) = inside ++ after :=
    List.filter_eq_self.mpr fun e he => decide_eq_true (hhigh e he)
  rw [hs.split, dropWhile_append_of_stop (fun e he => decide_eq_true (hs.below e he)) hstop,
    List.filter_append, hnone, hall, List.nil_append]

end Entries

inductive Read where
  /-- The whole table, or its rows from one on. -/
  | scan (start : Option String)
  /-- A row of it, all families or one, all qualifiers or one, up to a number of versions of each
  cell. -/
  | get (row : String) (family qualifier : Option String) (versions : Nat)

namespace Read

variable {t : Table} {read : Read} {e : Entry} {family : String}

def family? : Read → Option String
  | scan _ => none
  | get _ family _ _ => family

/-- Carry out a read. A scan goes on to its end. -/
def run (t : Table) : Read → Except Fault (List Cell)
  | scan start => do
    let c ← t.scan
    return (start.elim c c.seek).drain.1
  | get row family qualifier versions => t.getVersions row family qualifier versions

/-- What an enabled table has against a read. -/
def check (t : Table) : Read → Except Fault Unit
  | get _ (some family) _ _ => t.checkFamily family
  | get _ none (some _) _ => throw .qualifierWithoutFamily
  | _ => pure ()

/-- The read is of the row and of the family of the entry. -/
def wants : Read → Entry → Bool
  | scan start, e => start.all fun row => row ≤ e.row
  | get row family _ _, e => e.row == row && family.all (· == e.family)

def cells : Read → Entry → List Cell
  | scan _, e => e.latest
  | get _ _ qualifier versions, e =>
    (e.cells.filter fun c => qualifier.all (· == c.1)).flatMap fun c =>
      e.read (max versions 1) c.1 c.2

theorem eq_family_of_wants (hread : read.family? = some family) (h : read.wants e = true) :
    e.family = family := by
  cases read with
  | scan start => cases hread
  | get row _ qualifier versions =>
    cases hread
    exact (beq_iff_eq.mp (Bool.and_eq_true_iff.mp h).2).symm

/-- A read shows an entry under its row and its family. -/
theorem mem_cells {cell : Cell} (h : cell ∈ read.cells e) :
    cell.row = e.row ∧ cell.family = e.family := by
  cases read with
  | scan start => exact Entry.mem_latest h
  | get row family qualifier versions =>
    obtain ⟨c, -, hcell⟩ := List.mem_flatMap.mp h
    obtain ⟨⟨hrow, hfamily, -⟩, -⟩ := Entry.mem_read hcell
    exact ⟨hrow, hfamily⟩

/-- To pick cells by their row and their family is to pick entries. -/
theorem filter_cells (read : Read) (p : String → String → Bool) (es : List Entry) :
    ((es.flatMap read.cells).filter fun c => p c.row c.family) =
      (es.filter fun e => p e.row e.family).flatMap read.cells := by
  induction es with
  | nil => rfl
  | cons e es ih =>
    have hsame : ∀ c ∈ read.cells e, p c.row c.family = p e.row e.family := fun c hc => by
      rw [(mem_cells hc).1, (mem_cells hc).2]
    rw [List.flatMap_cons, List.filter_append, List.filter_congr hsame, ih]
    cases hp : p e.row e.family with
    | true => rw [List.filter_cons, if_pos hp, List.flatMap_cons, List.filter_true]
    | false => rw [List.filter_cons, if_neg (Bool.eq_false_iff.mp hp), List.filter_false,
      List.nil_append]

/-- On an enabled table every read picks entries of families in the schema, in the order in which
they are stored. -/
theorem run_eq (hs : Entries.Sound t.entries) (henabled : t.disabled = false) (read : Read) :
    read.run t = (read.check t).map fun _ =>
      (t.entries.filter fun e => read.wants e && t.isReadable e).flatMap read.cells := by
  cases read with
  | scan start =>
    have hscan : t.scan = .ok (Cursor.first t) := by
      rw [Table.scan, Table.checkEnabled, henabled]
      rfl
    rw [run, hscan]
    change Except.ok (start.elim (Cursor.first t) (Cursor.first t).seek).drain.1 = Except.ok _
    rw [(Cursor.drain_eq _).1]
    cases start with
    | none => rfl
    | some row =>
      change Except.ok (((t.entries.dropWhile fun e => e.row < row).filter t.isReadable).flatMap
        Entry.latest) = _
      rw [hs.ordered.dropWhile_eq_filter, List.filter_filter]
      simp only [wants, Option.all_some, Bool.and_comm]
      rfl
  | get row family qualifier versions =>
    have hshown : t.shown row family qualifier (max versions 1) =
        (t.entries.filter fun e => (get row family qualifier versions).wants e &&
          t.isReadable e).flatMap (get row family qualifier versions).cells := by
      rw [Table.shown, hs.ordered.ofRow_eq, List.filter_filter]
      simp only [wants, Bool.and_comm, Bool.and_left_comm]
      rfl
    have hmap (x : Except Fault Unit) (cells : List Cell) : (x >>= fun _ => .ok cells) =
        x.map fun _ => cells := by
      cases x <;> rfl
    rw [run, Table.getVersions, Table.checkEnabled, henabled, ← hshown]
    rcases family with _ | family <;> rcases qualifier with _ | qualifier
    · rfl
    · rfl
    · exact hmap (t.checkFamily family) _
    · exact hmap (t.checkFamily family) _

/-- Of what a read of an enabled table gives, the cells that are picked by their row and their
family. -/
theorem filter_run (hs : Entries.Sound t.entries) (henabled : t.disabled = false) (read : Read)
    (p : String → String → Bool) :
    (·.filter fun c => p c.row c.family) <$> read.run t = (read.check t).map fun _ =>
      (t.entries.filter fun e => p e.row e.family && (read.wants e && t.isReadable e)).flatMap
        read.cells := by
  have hmap (x : Except Fault Unit) (cells : List Cell) (g : List Cell → List Cell) :
      g <$> x.map (fun _ => cells) = x.map fun _ => g cells := by
    cases x <;> rfl
  rw [run_eq hs henabled, hmap, filter_cells, List.filter_filter]

/-- What stands against a read depends on the family that it names. -/
theorem check_congr {t next : Table}
    (h : ∀ family ∈ read.family?, next.checkFamily family = t.checkFamily family) :
    read.check next = read.check t := by
  rcases read with _ | ⟨row, _ | family, _ | qualifier, versions⟩
  · rfl
  · rfl
  · rfl
  · exact h family rfl
  · exact h family rfl

theorem check_of_family? (hread : read.family? = some family) :
    read.check t = t.checkFamily family := by
  cases read with
  | scan start => cases hread
  | get row _ qualifier versions =>
    cases hread
    rfl

/-- Of a family in the schema the entries that a read wants are seen. -/
theorem filter_ofFamily (hfamily : (t.family? family).isSome = true) (read : Read) :
    (t.entries.filter fun e => e.family == family && (read.wants e && t.isReadable e)) =
      (Entries.ofFamily t.entries family).filter read.wants := by
  rw [Entries.ofFamily, List.filter_filter]
  refine List.filter_congr fun e _ => ?_
  by_cases he : e.family = family
  · rw [Table.isReadable, he, hfamily, beq_self_eq_true, Bool.true_and, Bool.and_true]
  · rw [beq_eq_false_iff_ne.mpr he, Bool.false_and, Bool.and_false]

/-- A read that names a family wants no entry of another. -/
theorem filter_ofFamily_of_family? (hfamily : (t.family? family).isSome = true)
    (hread : read.family? = some family) :
    (t.entries.filter fun e => read.wants e && t.isReadable e) =
      (Entries.ofFamily t.entries family).filter read.wants := by
  rw [← filter_ofFamily hfamily]
  refine List.filter_congr fun e _ => ?_
  cases hwants : read.wants e with
  | false => simp
  | true => simp [eq_family_of_wants hread hwants]

end Read

end WideColumn
