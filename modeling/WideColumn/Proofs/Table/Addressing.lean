import WideColumn.Proofs.Command.Column
import WideColumn.Proofs.Table.Lawful
import WideColumn.Proofs.Table.Scan

/-! # Columns as addresses of cells

What is shown of a cell finds it again. Its column is read as its family and its qualifier, since no
family has a colon and no qualifier is empty. The families are checked when they are made, and the
qualifiers where a put is read, so it takes all writes together to keep this. -/
namespace WideColumn
open WideColumn.Schema WideColumn.Time

theorem History.version?_of_mem {h : History} {number : Nat} {v : Version}
    (hv : (number, v) ∈ h.numbered) :
    h.version? number = some v := by
  obtain ⟨hpos, hv⟩ := History.mem_numbered.mp hv
  rw [version?, if_neg (by simpa using Nat.ne_of_gt hpos), hv]

/-- A version of a cell of an entry is shown with its number, in 32 bits. -/
theorem Entry.mem_read {e : Entry} {most : Nat} {qualifier : String} {h : History} {cell : Cell}
    (hcell : cell ∈ e.read most qualifier h) :
    (cell.row = e.row ∧ cell.family = e.family ∧ cell.qualifier = qualifier) ∧
      ∃ n, cell.version = .ofNat n ∧ h.version? n = some ⟨cell.timestamp, cell.value⟩ := by
  obtain ⟨⟨number, v⟩, hv, rfl⟩ := List.mem_map.mp hcell
  exact ⟨⟨rfl, rfl, rfl⟩, number, rfl, History.version?_of_mem (List.mem_of_mem_take hv)⟩

theorem Cell.column_eq (cell : Cell) :
    cell.column = CellColumn.write ⟨cell.family, cell.qualifier⟩ := by
  rw [column, CellColumn.write, Column.write]

namespace Table

variable {t next : Table} {cell : Cell} {e : Entry} {h : History} {row family qualifier : String}
  {r : Readings}

/-- What a read shows of each cell that it names, up to a number of versions. -/
def shown (t : Table) (row : String) (family qualifier : Option String) (most : Nat) : List Cell :=
  ((Entries.ofRow t.entries row).filter fun e => family.all (· == e.family) &&
      t.isReadable e).flatMap fun e =>
    (e.cells.filter fun c => qualifier.all (· == c.1)).flatMap fun c => e.read most c.1 c.2

/-- A read goes through on an enabled table if it names a family of the schema, or none and no
qualifier. -/
theorem getVersions_eq_ok {family qualifier : Option String} {versions : Nat} {cells : List Cell} :
    t.getVersions row family qualifier versions = .ok cells ↔
      t.disabled = false ∧ (qualifier.isSome && family.isNone) = false ∧
        (∀ f ∈ family, (t.family? f).isSome = true) ∧
        t.shown row family qualifier (max versions 1) = cells := by
  rw [getVersions, bind_eq_ok]
  simp only [checkEnabled_eq_ok, exists_const]
  refine and_congr_right fun _ => ?_
  cases (qualifier.isSome && family.isNone) with
  | true =>
    constructor
    · intro h
      cases h
    · intro h
      obtain ⟨h, -⟩ := h
      cases h
  | false =>
    cases family with
    | none =>
      constructor
      · intro h
        cases h
        exact ⟨rfl, by simp, rfl⟩
      · intro h
        obtain ⟨-, -, rfl⟩ := h
        rfl
    | some f =>
      constructor
      · intro h
        obtain ⟨_, hf, h⟩ := bind_eq_ok.mp h
        cases h
        exact ⟨rfl, by simpa using checkFamily_eq_ok.mp hf, rfl⟩
      · intro h
        obtain ⟨-, hf, rfl⟩ := h
        exact bind_eq_ok.mpr ⟨(), checkFamily_eq_ok.mpr (hf f rfl), rfl⟩

/-- A scan or a read of the table shows the cell. -/
inductive Lists (t : Table) (cell : Cell) : Prop where
  | scanned {c : Cursor} (hscan : t.scan = .ok c) (hcell : cell ∈ c.drain.1)
  | gotten {row : String} {family qualifier : Option String} {versions : Nat} {cells : List Cell}
      (hget : t.getVersions row family qualifier versions = .ok cells) (hcell : cell ∈ cells)

/-- The table is enabled, the family is in the schema, and the cell has the version under its
number, which is shown in 32 bits. -/
structure Shows (t : Table) (cell : Cell) : Prop where
  enabled : t.disabled = false
  readable : (t.family? cell.family).isSome = true
  version : ∃ h, t.history? cell.row cell.family cell.qualifier = some h ∧
    ∃ n, cell.version = .ofNat n ∧ h.version? n = some ⟨cell.timestamp, cell.value⟩

theorem shows_of_mem_read {c : String × History} {most : Nat} (hs : Entries.Sound t.entries)
    (henabled : t.disabled = false) (he : e ∈ t.entries) (hread : t.isReadable e = true)
    (hc : c ∈ e.cells) (hcell : cell ∈ e.read most c.1 c.2) : t.Shows cell := by
  obtain ⟨⟨hrow, hfamily, hqualifier⟩, hversion⟩ := Entry.mem_read hcell
  refine ⟨henabled, hfamily ▸ hread, c.2, ?_, hversion⟩
  rw [hrow, hfamily, hqualifier, history?, hs.ordered.find?_of_mem he]
  exact KeyedList.find?_of_mem (hs.ascending e he).nodup_keys hc

theorem Lists.shows (hs : Entries.Sound t.entries) (hlists : t.Lists cell) : t.Shows cell := by
  cases hlists with
  | scanned hscan hcell =>
    obtain ⟨_, henabled, hscan⟩ := bind_eq_ok.mp hscan
    cases hscan
    rw [(Cursor.first t).drain_eq.1] at hcell
    obtain ⟨e, he, hread, hcell⟩ := mem_cellsAhead.mp hcell
    rw [Entry.latest_eq] at hcell
    obtain ⟨c, hc, hcell⟩ := List.mem_flatMap.mp hcell
    exact shows_of_mem_read hs (checkEnabled_eq_ok.mp henabled) he hread hc hcell
  | gotten hget hcell =>
    obtain ⟨henabled, -, -, rfl⟩ := getVersions_eq_ok.mp hget
    obtain ⟨e, he, hcell⟩ := List.mem_flatMap.mp hcell
    obtain ⟨c, hc, hcell⟩ := List.mem_flatMap.mp hcell
    obtain ⟨he, hwanted⟩ := List.mem_filter.mp he
    rw [hs.ordered.ofRow_eq] at he
    have hread : t.isReadable e = true := (Bool.and_eq_true_iff.mp hwanted).2
    exact shows_of_mem_read hs henabled (List.mem_of_mem_filter he) hread
      (List.mem_of_mem_filter hc) hcell

/-- A read that names a family and a qualifier shows the cell of that place. -/
theorem shown_eq_read (hs : Entries.Sound t.entries) (he : e ∈ t.entries)
    (hread : t.isReadable e = true) (hc : (qualifier, h) ∈ e.cells) (most : Nat) :
    t.shown e.row (some e.family) (some qualifier) most = e.read most qualifier h := by
  have hentry : ((Entries.ofRow t.entries e.row).filter fun a =>
      (some e.family).all (· == a.family) && t.isReadable a) = [e] := by
    rw [hs.ordered.ofRow_eq, List.filter_filter,
      ← filter_eq_singleton (inOrder_of_sound hs).distinct he]
    refine List.filter_congr fun a _ => ?_
    rw [Bool.eq_iff_iff]
    simp only [Option.all_some, Bool.and_eq_true, beq_iff_eq, decide_eq_true_iff, Prod.mk.injEq]
    constructor
    · intro h
      exact ⟨h.2, h.1.1.symm⟩
    · intro h
      obtain ⟨hrow, hfamily⟩ := h
      rw [isReadable, ← hfamily] at hread
      exact ⟨⟨hfamily.symm, hread⟩, hrow⟩
  have hcell : (e.cells.filter fun c => (some qualifier).all (· == c.1)) = [(qualifier, h)] := by
    rw [← filter_eq_singleton (hs.ascending e he).nodup_keys hc]
    refine List.filter_congr fun c _ => ?_
    rw [Bool.eq_iff_iff, Option.all_some, beq_iff_eq, decide_eq_true_iff]
    exact eq_comm
  rw [shown, hentry, List.flatMap_singleton, hcell, List.flatMap_singleton]

/-- On an enabled table, of a family in the schema, the last version of a cell is read. -/
theorem get_of_history (hs : Entries.Sound t.entries) (henabled : t.disabled = false)
    (hread : (t.family? family).isSome = true) (hh : t.history? row family qualifier = some h) :
    t.get row (some family) (some qualifier) =
      .ok [⟨row, family, qualifier, h.count, h.latest.timestamp, h.latest.value⟩] := by
  obtain ⟨e, he, rfl, rfl, hc⟩ := hs.ordered.mem_of_find? hh
  refine getVersions_eq_ok.mpr ⟨henabled, rfl, ?_, ?_⟩
  · intro f hf
    cases hf
    exact hread
  · exact shown_eq_read hs he hread (KeyedList.mem_of_find? hc) 1

/-- A cell that is there can be removed, and no other goes with it. -/
theorem delete_of_history (hs : Entries.Sound t.entries) (henabled : t.disabled = false)
    (hread : (t.family? family).isSome = true) (hh : t.history? row family qualifier = some h)
    (r : Readings) :
    ∃ t', t.delete r row family qualifier = .ok t' ∧ t'.families = t.families ∧
    ∀ row' family' qualifier',
      t'.history? row' family' qualifier' =
        if row' = row ∧ family' = family ∧ qualifier' = qualifier then none
        else t.history? row' family' qualifier' := by
  have hthere : (Entries.find? t.entries row family qualifier).isSome = true := by
    rw [← history?, hh]
    rfl
  refine ⟨_, delete_eq_ok.mpr ⟨henabled, hread, hthere, rfl⟩, rfl,
    fun row' family' qualifier' => ?_⟩
  exact hs.find?_erase row family qualifier

/-- The column of every cell can be read, and so can that of any cell which a put may add. -/
structure Addressable (t : Table) : Prop where
  renewable : t.Renewable
  sound : Entries.Sound t.entries
  columns : ∀ row family qualifier, (t.history? row family qualifier).isSome = true →
    CellColumn.WellFormed ⟨family, qualifier⟩

theorem Renewable.wellFormed (h : t.Renewable) (hfamily : (t.family? family).isSome = true)
    (hq : qualifier ≠ "") :
    CellColumn.WellFormed ⟨family, qualifier⟩ := by
  obtain ⟨hne, hcolon⟩ :=
    checkFamilyName_eq_ok_iff.mp (h.legal family (isSome_family?_iff.mp hfamily))
  exact ⟨hne, hcolon, fun heq => hq (Option.some.inj heq)⟩

theorem addressable_blank {name : String} {families : List Family} {id : Uuid} {now : Instant}
    (h : checkNew name families = .ok ()) : (blank name families id now).Addressable := by
  obtain ⟨-, -, hfamilies⟩ := bind_eq_ok.mp h
  refine ⟨checkFamilies_eq_ok.mp hfamilies, .nil, fun row family qualifier hthere => ?_⟩
  cases hthere

/-- Writes that put to no empty qualifier keep all columns readable. -/
theorem Addressable.run {op : Operation} {n : Option Nat} (h : t.Addressable)
    (hop : op.PutsTo (· ≠ "")) (hrun : op.run r t = .ok (n, next)) : next.Addressable := by
  refine ⟨h.renewable.run hrun, Operation.sound_run h.sound hrun,
    fun row family qualifier hthere => ?_⟩
  obtain ⟨-, -, -, hentries⟩ := Operation.run_eq_ok hrun
  rw [history?, hentries] at hthere
  cases Operation.effect_of_run hrun with
  | @put row' family' qualifier' value _ hput =>
    rw [Operation.onEntries, h.sound.find?_put] at hthere
    split at hthere
    · next hsame =>
      obtain ⟨-, rfl, rfl⟩ := hsame
      exact h.renewable.wellFormed (put_eq_ok.mp hput).2.1 hop
    · exact h.columns row family qualifier hthere
  | delete _ =>
    rw [Operation.onEntries, h.sound.find?_erase] at hthere
    split at hthere
    · cases hthere
    · exact h.columns row family qualifier hthere
  | deleteRow _ =>
    rw [Operation.onEntries, h.sound.find?_withoutRow] at hthere
    split at hthere
    · cases hthere
    · exact h.columns row family qualifier hthere
  | _ => exact h.columns row family qualifier hthere

/-- Read a row of the column that a text gives, as a command does. -/
def getAt (t : Table) (row column : String) : Except Fault (List Cell) := do
  let column ← Column.parse column
  t.get row (some column.family) column.qualifier

/-- Remove from a row the cell that a text gives, as a command does. -/
def deleteAt (t : Table) (r : Readings) (row column : String) : Except Fault Table := do
  let column ← CellColumn.parse column
  t.delete r row column.family column.qualifier

/-- The row and the text of the column lead to the cell: the text is read as its family and its
qualifier, a read shows the last version of it and nothing else, and a removal takes its history and
no other. -/
structure Addresses (t : Table) (row column : String) (cell : Cell) : Prop where
  parse : CellColumn.parse column = .ok ⟨cell.family, cell.qualifier⟩
  version : ∃ h, t.history? row cell.family cell.qualifier = some h ∧
    (∃ n, cell.version = .ofNat n ∧ h.version? n = some ⟨cell.timestamp, cell.value⟩) ∧
    t.getAt row column =
      .ok [⟨row, cell.family, cell.qualifier, h.count, h.latest.timestamp, h.latest.value⟩]
  delete : ∀ r, ∃ t', t.deleteAt r row column = .ok t' ∧ t'.families = t.families ∧
    ∀ row' family' qualifier', t'.history? row' family' qualifier' =
      if row' = row ∧ family' = cell.family ∧ qualifier' = cell.qualifier then none
      else t.history? row' family' qualifier'

theorem Addressable.addresses_of_lists (h : t.Addressable) (hlists : t.Lists cell) :
    t.Addresses cell.row cell.column cell := by
  obtain ⟨henabled, hread, history, hh, hversion⟩ := hlists.shows h.sound
  have hcolumn := h.columns cell.row cell.family cell.qualifier (by rw [hh]; rfl)
  rw [Cell.column_eq]
  refine ⟨CellColumn.parse_write hcolumn, ⟨history, hh, hversion, ?_⟩, fun r => ?_⟩
  · rw [getAt, CellColumn.write, Column.parse_write hcolumn]
    exact get_of_history h.sound henabled hread hh
  · rw [deleteAt, CellColumn.parse_write hcolumn]
    exact delete_of_history h.sound henabled hread hh r

/-- Two cells of a table that have one column are of one family and have one qualifier. -/
theorem Addressable.column_injective (h : t.Addressable) {a b : Cell}
    (ha : (t.history? a.row a.family a.qualifier).isSome = true)
    (hb : (t.history? b.row b.family b.qualifier).isSome = true) (heq : a.column = b.column) :
    a.family = b.family ∧ a.qualifier = b.qualifier := by
  rw [Cell.column_eq, Cell.column_eq] at heq
  exact CellColumn.mk.inj (CellColumn.write_injective (h.columns _ _ _ ha) (h.columns _ _ _ hb) heq)

end Table

end WideColumn
