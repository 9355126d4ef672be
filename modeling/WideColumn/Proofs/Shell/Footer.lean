import WideColumn.Proofs.Catalog.Settled
import WideColumn.Proofs.Shell.Footprint
import WideColumn.Proofs.Table.Scan

/-! # Rows are counted in passing

A scan counts a row wherever the row of a line is not that of the line before. Lines are in order of
their rows, also where entries between them are passed over, so no row is counted twice. -/
namespace WideColumn

/-- Items of one key have no other item between them. -/
def Adjacent (keys : List String) : Prop :=
  ∀ (i j k : Nat) (key : String), i ≤ j → j ≤ k → keys[i]? = some key → keys[k]? = some key →
    keys[j]? = some key

theorem getElem?_le {keys : List String} (h : keys.Pairwise (· ≤ ·)) {i j : Nat} {a b : String}
    (hij : i ≤ j) (ha : keys[i]? = some a) (hb : keys[j]? = some b) : a ≤ b := by
  obtain ⟨hi, rfl⟩ := List.getElem?_eq_some_iff.mp ha
  obtain ⟨hj, rfl⟩ := List.getElem?_eq_some_iff.mp hb
  rcases Nat.lt_or_eq_of_le hij with hlt | rfl
  · exact List.pairwise_iff_getElem.mp h i j hi hj hlt
  · exact String.le_refl _

theorem adjacent_of_pairwise {keys : List String} (h : keys.Pairwise (· ≤ ·)) : Adjacent keys := by
  intro i j k key hij hjk hi hk
  have hj : j < keys.length := Nat.lt_of_le_of_lt hjk (List.getElem?_eq_some_iff.mp hk).1
  have hkey := List.getElem?_eq_getElem hj
  rw [hkey, String.le_antisymm (getElem?_le h hjk hkey hk) (getElem?_le h hij hi hkey)]

/-- Among keys in order a key that is followed by another does not come again. -/
theorem countRuns_eq_card {keys : List String} (h : keys.Pairwise (· ≤ ·)) :
    Shell.countRuns keys = keys.toFinset.card := by
  induction keys with
  | nil => rfl
  | cons a keys ih =>
    obtain ⟨ha, hkeys⟩ := List.pairwise_cons.mp h
    cases keys with
    | nil => rfl
    | cons b rest =>
      rw [Shell.countRuns, ih hkeys, List.toFinset_cons (a := a)]
      by_cases heq : a = b
      · subst heq
        rw [if_pos (beq_self_eq_true a), Nat.zero_add, Finset.insert_eq_of_mem (by simp)]
      · have hnew : a ∉ (b :: rest).toFinset := by
          rw [List.mem_toFinset]
          intro hmem
          rcases List.mem_cons.mp hmem with rfl | hmem
          · exact heq rfl
          · exact heq (String.le_antisymm (ha b List.mem_cons_self)
              ((List.pairwise_cons.mp hkeys).1 a hmem))
        rw [if_neg (by simpa using heq), Finset.card_insert_of_notMem hnew, Nat.add_comm]

namespace Table

variable {t : Table} {place : CellPlace} {row : String}

/-- There is a cell, and its family is in the schema. -/
def Readable (t : Table) (place : CellPlace) : Prop :=
  (t.history? place.row place.family place.qualifier).isSome = true ∧
    (t.family? place.family).isSome = true

/-- A line of a scan shows the latest version of its cell. -/
theorem history?_of_mem_cellsAhead (h : Entries.Sound t.entries) {c : Cell}
    (hc : c ∈ (Cursor.first t).cellsAhead) :
    ∃ hist, t.history? c.row c.family c.qualifier = some hist ∧ (t.family? c.family).isSome = true ∧
      c.timestamp = hist.latest.timestamp ∧ c.value = hist.latest.value := by
  obtain ⟨e, he, hread, hc⟩ := mem_cellsAhead.mp hc
  rw [Entry.latest, List.mem_map] at hc
  obtain ⟨⟨qualifier, hist⟩, hmem, rfl⟩ := hc
  have hfind : t.history? e.row e.family qualifier = some hist := by
    rw [history?, h.ordered.find?_of_mem he]
    exact KeyedList.find?_of_mem (h.ascending e he).nodup_keys hmem
  exact ⟨hist, hfind, hread, rfl, rfl⟩

theorem mem_places_cellsAhead (h : Entries.Sound t.entries) :
    place ∈ (Cursor.first t).cellsAhead.map Cell.place ↔ t.Readable place := by
  constructor
  · intro hplace
    obtain ⟨c, hc, rfl⟩ := List.mem_map.mp hplace
    obtain ⟨hist, hfind, hfamily, -⟩ := history?_of_mem_cellsAhead h hc
    exact ⟨Option.isSome_of_eq_some hfind, hfamily⟩
  · intro hplace
    obtain ⟨hthere, hfamily⟩ := hplace
    obtain ⟨hist, hfind⟩ := Option.isSome_iff_exists.mp hthere
    obtain ⟨e, he, hrow, hfam, hcell⟩ := h.ordered.mem_of_find? hfind
    have hplace : place ∈ e.latest.map Cell.place := by
      rw [e.map_place_latest, Entry.places, List.mem_map]
      exact ⟨_, KeyedList.mem_of_find? hcell, CellPlace.ext hrow hfam rfl⟩
    obtain ⟨c, hc, hcp⟩ := List.mem_map.mp hplace
    exact List.mem_map.mpr ⟨c, mem_cellsAhead.mpr ⟨e, he, by rw [isReadable, hfam, hfamily], hc⟩,
      hcp⟩

theorem pairwise_rows_cellsAhead (h : Entries.Sound t.entries) :
    ((Cursor.first t).cellsAhead.map (·.row)).Pairwise (· ≤ ·) := by
  have hplaces := List.pairwise_map.mp (ascending_cellsAhead h)
  refine List.pairwise_map.mpr (hplaces.imp fun hlt => ?_)
  rcases CellPlace.lt_iff.mp hlt with hlt | ⟨heq, -⟩
  · exact Std.le_of_lt hlt
  · exact Std.le_of_eq heq

/-- The rows that a scan shows are rows of entries. -/
theorem card_rows_cellsAhead_le (t : Table) :
    ((Cursor.first t).cellsAhead.map (·.row)).toFinset.card ≤ t.entries.length := by
  have hsub : ((Cursor.first t).cellsAhead.map (·.row)).toFinset ⊆
      (t.entries.map (·.row)).toFinset := by
    intro row hrow
    obtain ⟨c, hc, rfl⟩ := List.mem_map.mp (List.mem_toFinset.mp hrow)
    obtain ⟨e, he, -, hc⟩ := mem_cellsAhead.mp hc
    exact List.mem_toFinset.mpr (List.mem_map.mpr ⟨e, he, (Entry.mem_latest hc).1.symm⟩)
  refine Nat.le_trans (Finset.card_le_card hsub) (Nat.le_trans (List.toFinset_card_le _) ?_)
  rw [List.length_map]

end Table

namespace Shell
open WideColumn.Catalog

variable {c : Catalog} {k : Machine} {turn : Turn} {name : String} {t : Table}

namespace InSession

/-- The entries of all tables are in order. -/
theorem sound (h : InSession c) : ∀ t ∈ c.tables, Entries.Sound t.entries := by
  induction h with
  | opened _ h => exact sound_of_openAt h
  | answered _ turn k ih =>
    have hstable : Stable fun d _ => ∀ t ∈ d.tables, Entries.Sound t.entries :=
      stable_forall (fun _ _ _ _ _ ht hrun => Table.Operation.sound_run ht hrun) fun _ _ _ _ _ =>
        Entries.Sound.nil
    exact Turn.step_of_preserves (R := fun d _ => ∀ t ∈ d.tables, Entries.Sound t.entries)
      (fun command _ => preserves_perform hstable turn.confirm command) ih

end InSession

/-- A line that scans an enabled table lists what lies ahead of its first place. -/
theorem outcome_of_scan (ht : c.find? name = some t) (hd : t.disabled = false)
    (hparse : Command.parse turn.line = .ok (.scan name)) (k : Machine) :
    (turn.answer c k).1.1.outcome = .ok (scanned (Cursor.first t).cellsAhead) := by
  have hscan : t.scan = .ok (.first t) := by
    rw [Table.scan, Table.checkEnabled, hd]
    rfl
  have hrun : exec (perform turn.confirm (.scan name)) c k.stopwatch.2 =
      ((.ok (scanned (Cursor.first t).cellsAhead), c), k.stopwatch.2) := by
    rw [perform, execute, exec_bind_ok (exec_table ht k.stopwatch.2),
      exec_bind_ok ((exec_lift _ c k.stopwatch.2).trans (by rw [hscan])),
        (Cursor.first t).drain_eq.1]
    rfl
  exact (turn.answer_of_exec hparse hrun).1

theorem outcome_of_count (ht : c.find? name = some t) (hd : t.disabled = false)
    (hparse : Command.parse turn.line = .ok (.count name)) (k : Machine) :
    (turn.answer c k).1.1.outcome = .ok (.count t.rowCount.toNat) := by
  have hcount : t.count = .ok t.rowCount := by
    rw [Table.count, Table.checkEnabled, hd]
    rfl
  have hrun : exec (perform turn.confirm (.count name)) c k.stopwatch.2 =
      ((.ok (.count t.rowCount.toNat), c), k.stopwatch.2) := by
    rw [perform, execute, exec_bind_ok (exec_table ht k.stopwatch.2),
      exec_bind_ok ((exec_lift _ c k.stopwatch.2).trans (by rw [hcount]))]
    rfl
  exact (turn.answer_of_exec hparse hrun).1

/-- A scan of an enabled table gives a line for each readable cell and for nothing else, the lines
of a row next to each other, and counts the rows that have a readable cell. There are no more of
them than lines, nor than a count of the table gives where the stored count is the number of
entries. -/
theorem InSession.scan_counts_rows (h : InSession c) (ht : c.find? name = some t)
    (hd : t.disabled = false) (hparse : Command.parse turn.line = .ok (.scan name)) (k : Machine) :
    ∃ (cells : List Cell) (rows : Nat), (turn.answer c k).1.1.outcome =
        .ok (.cells .rows (cells.map fun cell => ⟨cell.row, cell.display⟩) rows) ∧
      (cells.map Cell.place).Nodup ∧ (∀ place, place ∈ cells.map Cell.place ↔ t.Readable place) ∧
      (∀ cell ∈ cells, ∃ hist, t.history? cell.row cell.family cell.qualifier = some hist ∧
        cell.timestamp = hist.latest.timestamp ∧ cell.value = hist.latest.value) ∧
      Adjacent (cells.map (·.row)) ∧
      (∃ readableRows : Finset String, rows = readableRows.card ∧
        ∀ row, row ∈ readableRows ↔ ∃ family qualifier, t.Readable ⟨row, family, qualifier⟩) ∧
      rows ≤ cells.length ∧
      (t.rowCount.toNat = t.entries.length → ∀ counting : Turn,
        Command.parse counting.line = .ok (.count name) →
        ∃ n, (counting.answer c k).1.1.outcome = .ok (.count n) ∧ rows ≤ n) := by
  have hs := h.sound t (mem_of_find? ht).1
  have hrows := Table.pairwise_rows_cellsAhead hs
  refine ⟨(Cursor.first t).cellsAhead, _, outcome_of_scan ht hd hparse k, ?_,
    fun _ => Table.mem_places_cellsAhead hs, fun cell hcell => ?_, adjacent_of_pairwise hrows,
    ⟨_, countRuns_eq_card hrows, fun row => ?_⟩, ?_,
    fun hcount counting hcounting => ⟨_, outcome_of_count ht hd hcounting k, ?_⟩⟩
  · exact (Table.ascending_cellsAhead hs).imp ne_of_lt
  · obtain ⟨hist, hfind, -, htimestamp, hvalue⟩ := Table.history?_of_mem_cellsAhead hs hcell
    exact ⟨hist, hfind, htimestamp, hvalue⟩
  · rw [List.mem_toFinset, List.mem_map]
    constructor
    · rintro ⟨cell, hcell, rfl⟩
      exact ⟨_, _, (Table.mem_places_cellsAhead hs).mp (List.mem_map.mpr ⟨cell, hcell, rfl⟩)⟩
    · rintro ⟨family, qualifier, hplace⟩
      obtain ⟨cell, hcell, heq⟩ := List.mem_map.mp ((Table.mem_places_cellsAhead hs).mpr hplace)
      exact ⟨cell, hcell, congrArg CellPlace.row heq⟩
  · rw [countRuns_eq_card hrows]
    exact Nat.le_trans (List.toFinset_card_le _) (by rw [List.length_map])
  · rw [countRuns_eq_card hrows, hcount]
    exact Table.card_rows_cellsAhead_le t

/-- Cells of three rows, one row without a name. A family was removed, and with it all readable
cells of a row. -/
def withOrphans : Catalog × Machine :=
  afterTurns [⟨"create 't', 'f', 'g', 'h'", fun _ => true⟩,
    ⟨"put 't', '', 'f:a', '1', '', 'h:b', '2', 'q', 'g:c', '3', 'r', 'f:a', '4', 'r', 'g:b', '5', 'r', 'h:c', '6'",
      fun _ => true⟩,
    ⟨"alter 't', \x7bNAME => 'g', METHOD => 'delete'\x7d", fun _ => true⟩] (⟨"d", []⟩, opened.2)

theorem scan_counts_rows_withOrphans : InSession withOrphans.1 ∧
    ∃ cells, ((Turn.mk "scan 't'" fun _ => true).answer withOrphans.1 withOrphans.2).1.1.outcome =
      .ok (.cells .rows cells 2) ∧ cells.map (·.key) = ["", "", "r", "r"] := by
  have hsession : InSession withOrphans.1 :=
    (InSession.opened (k := blankMachine) List.nodup_nil opened_eq).after _ _
  have htable : (withOrphans.1.find? "t").map (·.disabled) = some false := by decide +kernel
  obtain ⟨t, ht, hd⟩ := Option.map_eq_some_iff.mp htable
  have hparse : Command.parse (Turn.mk "scan 't'" fun _ => true).line = .ok (.scan "t") :=
    eq_ok_of_toOption (by decide +kernel)
  obtain ⟨cells, rows, houtcome, -⟩ := hsession.scan_counts_rows ht hd hparse withOrphans.2
  have hshown : (((Turn.mk "scan 't'" fun _ => true).answer withOrphans.1
    withOrphans.2).1.1.outcome.toOption.map fun o => match o with
        | .cells _ lines rows => (lines.map (·.key), rows)
        | _ => ([], 0)) = some (["", "", "r", "r"], 2) := by
    decide +kernel
  rw [houtcome] at hshown
  obtain ⟨hkeys, hrows⟩ := Prod.mk.inj (Option.some.inj hshown)
  exact ⟨hsession, _, hrows ▸ houtcome, hkeys⟩

end Shell

end WideColumn
