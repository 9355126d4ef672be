import WideColumn.Proofs.Sequence
import WideColumn.Proofs.Table.Store
import WideColumn.Table.Document

/-! # The entries of a stored table

Whatever order a document has, the rows, families and qualifiers that are read from it ascend, and
so the entries that are made of them are in order. -/
namespace WideColumn.Document
open WideColumn.Json
open KeyedList (Ascending)

/-- Rows, families and qualifiers ascend. -/
def Ordered (rows : StoredRows) : Prop :=
  Ascending rows ∧ ∀ p ∈ rows, Ascending p.2 ∧ ∀ q ∈ p.2, Ascending q.2

theorem ascending_of_readMap? {β : Type} {read : Value → Option β} {v : Value} {l : KeyedList β}
    (h : readMap? read v = some l) : Ascending l ∧ ∀ p ∈ l, ∃ w, read w = some p.2 := by
  obtain ⟨members, -, h⟩ := Option.bind_eq_some_iff.mp h
  obtain ⟨pairs, hpairs, h⟩ := Option.bind_eq_some_iff.mp h
  cases h
  refine ⟨KeyedList.ascending_ofPairs pairs, fun p hp => ?_⟩
  obtain ⟨⟨key, w⟩, -, hw⟩ := exists_of_mapM_eq_some hpairs (KeyedList.mem_of_mem_ofPairs hp)
  obtain ⟨b, hb, rfl⟩ := Option.map_eq_some_iff.mp hw
  exact ⟨w, hb⟩

theorem ordered_of_readRows? {v : Value} {rows : StoredRows} (h : readRows? v = some rows) :
    Ordered rows := by
  obtain ⟨hrows, hmap⟩ := ascending_of_readMap? h
  refine ⟨hrows, fun p hp => ?_⟩
  obtain ⟨w, hw⟩ := hmap p hp
  obtain ⟨hfamilies, hmap⟩ := ascending_of_readMap? hw
  refine ⟨hfamilies, fun q hq => ?_⟩
  obtain ⟨u, hu⟩ := hmap q hq
  exact (ascending_of_readMap? hu).1

variable {row family : String}

theorem restoreEntry_eq_ok {cells : KeyedList StoredHistory} {e : Entry}
    (h : restoreEntry row family cells = .ok e) :
    e.row = row ∧ e.family = family ∧ e.cells.map (·.1) = cells.map (·.1) := by
  obtain ⟨restored, hr, h⟩ := bind_eq_ok.mp h
  cases h
  refine ⟨rfl, rfl, map_eq_of_mapM_eq_ok hr ?_⟩
  rintro ⟨qualifier, s⟩ b hb
  obtain ⟨x, -, hb⟩ := bind_eq_ok.mp hb
  cases hb
  rfl

/-- The families of one row make ordered entries. -/
theorem restored_row {families : KeyedList (KeyedList StoredHistory)} {es : List Entry}
    (hf : Ascending families) (hc : ∀ q ∈ families, Ascending q.2)
    (h : families.mapM (fun (family, cells) => restoreEntry row family cells) = .ok es) :
    es.Pairwise (fun a b => a.precedes b.row b.family = true) ∧
      ∀ e ∈ es, e.row = row ∧ Ascending e.cells := by
  have hnames : es.map (·.family) = families.map (·.1) :=
    map_eq_of_mapM_eq_ok h fun _ _ he => (restoreEntry_eq_ok he).2.1
  have hes : ∀ e ∈ es, e.row = row ∧ Ascending e.cells := by
    intro e he
    obtain ⟨⟨family, cells⟩, hmem, hrestore⟩ := exists_of_mapM_eq_ok h he
    obtain ⟨hrow, -, hkeys⟩ := restoreEntry_eq_ok hrestore
    have hcells := KeyedList.ascending_iff_keys.mp (hc _ hmem)
    exact ⟨hrow, KeyedList.ascending_iff_keys.mpr (hkeys ▸ hcells)⟩
  have horder : es.Pairwise fun a b => a.family < b.family := by
    rw [← List.pairwise_map (f := Entry.family) (R := (· < ·)), hnames]
    exact KeyedList.ascending_iff_keys.mp hf
  refine ⟨horder.imp_of_mem fun ha hb hlt => Entry.precedes_iff.mpr (.inr ⟨?_, hlt⟩), hes⟩
  exact (hes _ ha).1.trans (hes _ hb).1.symm

theorem restored_rows {rows : StoredRows} {ess : List (List Entry)} (hrows : Ordered rows)
    (h : rows.mapM (fun (row, families) =>
      families.mapM fun (family, cells) => restoreEntry row family cells) = .ok ess) :
    ess.flatten.Pairwise (fun a b => a.precedes b.row b.family = true) ∧
      ∀ e ∈ ess.flatten, e.row ∈ rows.map (·.1) ∧ Ascending e.cells := by
  induction rows generalizing ess with
  | nil => cases h; exact ⟨.nil, by simp⟩
  | cons p rows ih =>
    obtain ⟨row, families⟩ := p
    obtain ⟨hasc, hall⟩ := hrows
    obtain ⟨hp, hrest⟩ := KeyedList.ascending_cons.mp hasc
    obtain ⟨hfirst, hall⟩ := List.forall_mem_cons.mp hall
    obtain ⟨es, ess, hes, hess, rfl⟩ := mapM_cons_eq_ok.mp h
    obtain ⟨horder, hrow⟩ := restored_row hfirst.1 hfirst.2 hes
    obtain ⟨hordered, hmem⟩ := ih ⟨hrest, hall⟩ hess
    rw [List.flatten_cons]
    refine ⟨List.pairwise_append.mpr ⟨horder, hordered, fun a ha b hb => ?_⟩, ?_⟩
    · obtain ⟨q, hq, hqb⟩ := List.mem_map.mp (hmem b hb).1
      exact Entry.precedes_iff.mpr (.inl ((hrow a ha).1 ▸ hqb ▸ hp q hq))
    · refine List.forall_mem_append.mpr ⟨fun e he => ⟨?_, (hrow e he).2⟩, fun e he => ?_⟩
      · simp [(hrow e he).1]
      · exact ⟨List.mem_cons_of_mem _ (hmem e he).1, (hmem e he).2⟩

theorem ordered_of_read? {v : Value} {t : Table} {rows : StoredRows}
    (h : read? v = some (t, rows)) : Ordered rows := by
  obtain ⟨values, -, h⟩ := Option.bind_eq_some_iff.mp h
  split at h
  · obtain ⟨metadata, -, h⟩ := Option.bind_eq_some_iff.mp h
    obtain ⟨read, hread, h⟩ := Option.bind_eq_some_iff.mp h
    cases h
    exact ordered_of_readRows? hread
  · cases h

/-- Restored entries are in order, and none is without cells. -/
theorem sound_of_restoreEntries {rows : StoredRows} {es : List Entry} (hrows : Ordered rows)
    (h : restoreEntries rows = .ok es) : Entries.Sound es := by
  obtain ⟨ess, hess, h⟩ := bind_eq_ok.mp h
  cases h
  obtain ⟨horder, hmem⟩ := restored_rows hrows hess
  refine Entries.sound_iff.mpr ⟨horder.sublist List.filter_sublist, fun e he => ?_⟩
  obtain ⟨he, hne⟩ := List.mem_filter.mp he
  exact ⟨by simpa using hne, (hmem e he).2⟩

end WideColumn.Document

namespace WideColumn.Table

theorem sound_of_decode {text : String} {t : Table} (h : decode text = .ok t) :
    Entries.Sound t.entries := by
  rw [decode] at h
  split at h
  · next table rows hread =>
    obtain ⟨v, -, hread⟩ := Option.bind_eq_some_iff.mp hread
    obtain ⟨es, hes, h⟩ := bind_eq_ok.mp h
    cases h
    exact Document.sound_of_restoreEntries (Document.ordered_of_read? hread) hes
  · cases h

theorem load_eq_ok {path text : String} {t : Table} :
    load path text = .ok t ↔ decode text = .ok t ∧ Schema.checkTableName t.name = .ok () := by
  rw [load]
  cases hd : decode text with
  | error e =>
    constructor
    · intro h
      cases h
    · intro h
      obtain ⟨h, -⟩ := h
      cases h
  | ok s =>
    constructor
    · intro h
      obtain ⟨_, hs, h⟩ := bind_eq_ok.mp h
      cases hs
      obtain ⟨⟨⟩, hn, h⟩ := bind_eq_ok.mp h
      cases h
      exact ⟨rfl, hn⟩
    · intro h
      obtain ⟨h, hn⟩ := h
      cases h
      exact bind_eq_ok.mpr ⟨_, rfl, bind_eq_ok.mpr ⟨(), hn, rfl⟩⟩

end WideColumn.Table
