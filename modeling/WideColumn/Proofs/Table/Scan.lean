import Mathlib.Data.Finset.Sort
import Mathlib.Data.String.Basic
import WideColumn.Proofs.Table.Agreement
import WideColumn.Table.Cursor

/-! # A scan shows what reads of all rows show

A cursor goes through the entries as they are stored, and a read looks up the entries of its row.
Since entries are in order of their rows, both come upon the same cells in the same order. -/
namespace WideColumn

def Cell.place (c : Cell) : CellPlace := ⟨c.row, c.family, c.qualifier⟩

namespace Entry

variable {e : Entry}

/-- The latest versions are those of a read that asks for one version of every cell. -/
theorem latest_eq (e : Entry) : e.latest = e.cells.flatMap fun c => e.read 1 c.1 c.2 := by
  rw [latest, List.map_eq_flatMap]
  rfl

theorem map_place_latest (e : Entry) : e.latest.map Cell.place = e.places := by
  rw [latest, List.map_map]
  rfl

theorem mem_latest {c : Cell} (h : c ∈ e.latest) : c.row = e.row ∧ c.family = e.family := by
  rw [latest, List.mem_map] at h
  obtain ⟨_, -, rfl⟩ := h
  exact ⟨rfl, rfl⟩

theorem exists_mem_latest (h : e.cells ≠ []) : ∃ c, c ∈ e.latest := by
  obtain ⟨c, hc⟩ := List.exists_mem_of_ne_nil _ h
  exact ⟨_, List.mem_map.mpr ⟨c, hc, rfl⟩⟩

end Entry

namespace Cursor

variable {t : Table} {c d : Cursor} {cell : Cell} {es : List Entry}

/-- The cells that a cursor has before it. -/
def cellsAhead (c : Cursor) : List Cell :=
  c.pending ++ (c.ahead.filter c.table.isReadable).flatMap Entry.latest

/-- To come into an entry passes over those that are not readable and those without a cell. -/
theorem enter_eq : (es.filter t.isReadable).flatMap Entry.latest =
    match enter t es with
    | some (cell, more, rest) => cell :: more ++ (rest.filter t.isReadable).flatMap Entry.latest
    | none => [] := by
  induction es with
  | nil => rfl
  | cons e es ih =>
    rw [enter]
    by_cases hread : t.isReadable e = true
    · rw [if_pos hread, List.filter_cons_of_pos hread, List.flatMap_cons]
      cases e.latest with
      | nil => exact ih
      | cons cell more => rfl
    · rw [if_neg hread, List.filter_cons_of_neg hread]
      exact ih

theorem cellsAhead_of_next (h : c.next = some (cell, d)) : c.cellsAhead = cell :: d.cellsAhead := by
  rw [next] at h
  split at h
  · next hpending =>
    cases h
    rw [cellsAhead, hpending]
    rfl
  · next hpending =>
    obtain ⟨⟨first, more, rest⟩, henter, hcell⟩ := Option.map_eq_some_iff.mp h
    cases hcell
    rw [cellsAhead, hpending, List.nil_append, enter_eq, henter]
    rfl

theorem cellsAhead_of_end (h : c.next = none) : c.cellsAhead = [] := by
  rw [next] at h
  split at h
  · cases h
  · next hpending => rw [cellsAhead, hpending, List.nil_append, enter_eq,
      Option.map_eq_none_iff.mp h]

/-- To pass all cells gives what lies ahead and stops where there is nothing more. -/
theorem drain_eq (c : Cursor) : c.drain.1 = c.cellsAhead ∧ c.drain.2.next = none := by
  induction c using drain.induct with
  | case1 c hend =>
    rw [drain]
    split
    · exact ⟨(cellsAhead_of_end hend).symm, hend⟩
    · next cell d hnext => cases hend.symm.trans hnext
  | case2 c cell d hnext _ cells last hdrain ih =>
    rw [drain]
    split
    · next hend => cases hend.symm.trans hnext
    · next _ _ hnext' =>
      cases hnext.symm.trans hnext'
      rw [cellsAhead_of_next hnext, ← ih.1]
      exact ⟨rfl, ih.2⟩

end Cursor

namespace Entries

variable {es : List Entry} {row : String}

/-- The entries of the first row stand before all others. -/
theorem filter_append_filter (h : es.Pairwise fun a b => a.row ≤ b.row)
    (hrow : ∀ e ∈ es, row ≤ e.row) :
    (es.filter fun e => e.row == row) ++ (es.filter fun e => e.row != row) = es := by
  induction es with
  | nil => rfl
  | cons e es ih =>
    obtain ⟨he, hes⟩ := List.pairwise_cons.mp h
    obtain ⟨hle, hrest⟩ := List.forall_mem_cons.mp hrow
    by_cases heq : e.row = row
    · rw [List.filter_cons_of_pos (by simp [heq]), List.filter_cons_of_neg (by simp [heq]),
        List.cons_append, ih hes hrest]
    · -- no entry after this one is of the row
      have hnone : ∀ a ∈ e :: es, a.row ≠ row := by
        intro a ha hsame
        rcases List.mem_cons.mp ha with rfl | ha
        · exact heq hsame
        · exact heq (String.le_antisymm (hsame ▸ he a ha) hle)
      have hleft : ((e :: es).filter fun e => e.row == row) = [] :=
        List.filter_eq_nil_iff.mpr fun a ha => by simp [hnone a ha]
      have hright : ((e :: es).filter fun e => e.row != row) = e :: es :=
        List.filter_eq_self.mpr fun a ha => by simp [hnone a ha]
      rw [hleft, hright, List.nil_append]

/-- Laid out row by row, entries that ascend by row are as they were. -/
theorem flatMap_rows {rows : List String} (h : es.Pairwise fun a b => a.row ≤ b.row)
    (hrows : rows.Pairwise (· < ·)) (hall : ∀ e ∈ es, e.row ∈ rows) :
    (rows.flatMap fun row => es.filter fun e => e.row == row) = es := by
  induction rows generalizing es with
  | nil => exact (List.eq_nil_iff_forall_not_mem.mpr fun e he => List.not_mem_nil (hall e he)).symm
  | cons row rows ih =>
    obtain ⟨hrow, hrows⟩ := List.pairwise_cons.mp hrows
    have hfirst : ∀ e ∈ es, row ≤ e.row := fun e he => by
      rcases List.mem_cons.mp (hall e he) with heq | hmem
      · exact heq ▸ String.le_refl _
      · exact Std.le_of_lt (hrow _ hmem)
    have hothers : ∀ e ∈ es.filter (fun e => e.row != row), e.row ∈ rows := fun e he => by
      obtain ⟨he, hne⟩ := List.mem_filter.mp he
      exact (List.mem_cons.mp (hall e he)).resolve_left (bne_iff_ne.mp hne)
    have hrest : (rows.flatMap fun r => es.filter fun e => e.row == r) =
        rows.flatMap fun r => (es.filter fun e => e.row != row).filter fun e => e.row == r := by
      refine List.flatMap_congr fun r hr => ?_
      rw [List.filter_filter]
      refine List.filter_congr fun e _ => ?_
      by_cases her : e.row = r
      · simp [her, (String.ne_of_lt (hrow r hr)).symm]
      · simp [her]
    rw [List.flatMap_cons, hrest, ih (h.filter _) hrows hothers, filter_append_filter h hfirst]

end Entries

namespace Table
open WideColumn.Time

variable {t : Table} {row : String}

def rows (t : Table) : List String := (t.entries.map (·.row)).toFinset.sort

theorem ascending_rows (t : Table) : t.rows.Pairwise (· < ·) :=
  (Finset.sortedLT_sort _).pairwise

theorem mem_rows : row ∈ t.rows ↔ ∃ e ∈ t.entries, e.row = row := by
  rw [rows, Finset.mem_sort, List.mem_toFinset, List.mem_map]

/-- What a read of a whole row shows. -/
theorem get_eq (h : Entries.Sound t.entries) (hd : t.disabled = false) (row : String) :
    t.get row none none =
      .ok (((t.entries.filter fun e => e.row == row).filter t.isReadable).flatMap
        Entry.latest) := by
  have hcells (e : Entry) : ((e.cells.filter fun _ => true).flatMap fun p => e.read 1 p.1 p.2) =
      e.latest := by
    rw [List.filter_true, e.latest_eq]
  rw [get, getVersions, checkEnabled, hd, h.ordered.ofRow_eq]
  -- without a family and a qualifier every entry of the row and every cell of it is wanted
  change Except.ok (((t.entries.filter fun e => e.row == row).filter t.isReadable).flatMap fun e =>
    (e.cells.filter fun _ => true).flatMap fun p => e.read 1 p.1 p.2) = _
  simp only [hcells]

theorem flatMap_reads (h : Entries.Sound t.entries) :
    (t.rows.flatMap fun row =>
      ((t.entries.filter fun e => e.row == row).filter t.isReadable).flatMap Entry.latest) =
      (Cursor.first t).cellsAhead := by
  have hrows : t.entries.Pairwise fun a b => a.row ≤ b.row :=
    h.ordered.1.imp fun hab => Entries.row_le_of_precedes hab
  have hall := Entries.flatMap_rows hrows (ascending_rows t) fun e he => mem_rows.mpr ⟨e, he, rfl⟩
  rw [← List.flatMap_assoc, ← List.filter_flatMap, hall]
  rfl

theorem ascending_cellsAhead (h : Entries.Sound t.entries) :
    ((Cursor.first t).cellsAhead.map Cell.place).Pairwise (· < ·) := by
  have hplaces : (Cursor.first t).cellsAhead.map Cell.place =
      (t.entries.filter t.isReadable).flatMap Entry.places := by
    rw [Cursor.cellsAhead, Cursor.first, List.nil_append, List.map_flatMap]
    exact List.flatMap_congr fun e _ => e.map_place_latest
  rw [hplaces]
  exact (ascending_places h).sublist (List.filter_sublist.flatMap Entry.places)

theorem mem_cellsAhead {c : Cell} : c ∈ (Cursor.first t).cellsAhead ↔
    ∃ e ∈ t.entries, t.isReadable e = true ∧ c ∈ e.latest := by
  rw [Cursor.cellsAhead, Cursor.first, List.nil_append, List.mem_flatMap]
  simp only [List.mem_filter, and_assoc]

/-- If every family is in the schema, every entry is seen. -/
theorem card_cellsAhead (h : Entries.Sound t.entries)
    (hall : ∀ e ∈ t.entries, t.isReadable e = true) :
    ((Cursor.first t).cellsAhead.map fun c => (c.row, c.family)).toFinset.card =
      t.entries.length := by
  have hset : ((Cursor.first t).cellsAhead.map fun c => (c.row, c.family)).toFinset =
      (t.entries.map fun e => (e.row, e.family)).toFinset := by
    ext key
    simp only [List.mem_toFinset, List.mem_map, mem_cellsAhead]
    constructor
    · intro h
      obtain ⟨c, ⟨e, he, -, hc⟩, rfl⟩ := h
      obtain ⟨hrow, hfamily⟩ := Entry.mem_latest hc
      exact ⟨e, he, Prod.ext hrow.symm hfamily.symm⟩
    · intro hkey
      obtain ⟨e, he, rfl⟩ := hkey
      obtain ⟨c, hc⟩ := Entry.exists_mem_latest (h.ordered.2 e he)
      obtain ⟨hrow, hfamily⟩ := Entry.mem_latest hc
      exact ⟨c, ⟨e, he, hall e he, hc⟩, Prod.ext hrow hfamily⟩
  rw [hset, List.toFinset_card_of_nodup (inOrder_of_sound h).distinct, List.length_map]

/-- On an enabled table a scan to its end gives the cells of the reads of all rows, row after row,
each cell once and in order. A row without a family of the schema gives nothing in either. If no
family is missing from the schema, as many rows and families are seen as there are entries. -/
theorem Reachable.scan_eq (h : Reachable t) (hd : t.disabled = false) :
    ∃ c reads, t.scan = .ok c ∧ t.rows.mapM (fun row => t.get row none none) = .ok reads ∧
      c.drain.1 = reads.flatten ∧ c.drain.2.next = none ∧
      (c.drain.1.map Cell.place).Pairwise (· < ·) ∧
      (∀ row, (∀ e ∈ t.entries, e.row = row → t.isReadable e = false) →
        t.get row none none = .ok [] ∧ ∀ cell ∈ c.drain.1, cell.row ≠ row) ∧
      ((∀ e ∈ t.entries, t.isReadable e = true) →
        (c.drain.1.map fun cell => (cell.row, cell.family)).toFinset.card = t.entries.length) := by
  have hs := h.sound
  obtain ⟨hdrain, hend⟩ := (Cursor.first t).drain_eq
  have hscan : t.scan = .ok (Cursor.first t) := by
    rw [scan, checkEnabled, hd]
    rfl
  refine ⟨_, _, hscan, mapM_eq_ok_map fun row _ => get_eq hs hd row, ?_, hend, ?_, ?_, ?_⟩
  · rw [hdrain, ← flatMap_reads hs, List.flatMap_def]
  · exact hdrain ▸ ascending_cellsAhead hs
  · intro row hrow
    have hnone : ((t.entries.filter fun e => e.row == row).filter t.isReadable) = [] := by
      refine List.filter_eq_nil_iff.mpr fun e he => ?_
      obtain ⟨he, heq⟩ := List.mem_filter.mp he
      simp [hrow e he (beq_iff_eq.mp heq)]
    refine ⟨by rw [get_eq hs hd, hnone]; rfl, fun cell hcell heq => ?_⟩
    obtain ⟨e, he, hread, hmem⟩ := mem_cellsAhead.mp (hdrain ▸ hcell)
    rw [hrow e he ((Entry.mem_latest hmem).1.symm.trans heq)] at hread
    cases hread
  · exact fun hall => hdrain ▸ card_cellsAhead hs hall

theorem scan_eq_threeEntries : Reachable threeEntries ∧ threeEntries.disabled = false ∧
    ∃ c reads, threeEntries.scan = .ok c ∧
      threeEntries.rows.mapM (fun row => threeEntries.get row none none) = .ok reads ∧
      c.drain.1 = reads.flatten := by
  obtain ⟨c, reads, hscan, hreads, hdrain, -⟩ := reachable_threeEntries.scan_eq rfl
  exact ⟨reachable_threeEntries, rfl, c, reads, hscan, hreads, hdrain⟩

end Table

end WideColumn
