import WideColumn.Proofs.Table.Reachable
import WideColumn.Proofs.Table.StoredHistory

/-! # Stored entries

Entries in order are written row by row and family by family. What is read from that ascends on
every level, and laid out again it is the entries. -/
namespace WideColumn.Document
open WideColumn.Json WideColumn.Text
open KeyedList (Ascending)

variable {es rest : List Entry} {e : Entry}

/-- An entry joins the first row, if that is its own, or starts a row. -/
theorem groupRows_cons (e : Entry) (rest : List Entry) :
    (∃ fs more, groupRows rest = (e.row, fs) :: more ∧
        groupRows (e :: rest) = (e.row, e :: fs) :: more) ∨
      (∀ row fs more, groupRows rest = (row, fs) :: more → row ≠ e.row) ∧
        groupRows (e :: rest) = (e.row, [e]) :: groupRows rest := by
  rw [groupRows]
  split
  · next row fs more hrest =>
    by_cases hrow : row = e.row
    · subst hrow
      exact .inl ⟨fs, more, hrest, if_pos (beq_self_eq_true _)⟩
    · refine .inr ⟨?_, by rw [if_neg (mt eq_of_beq hrow), hrest]⟩
      intro _ _ _ h
      cases hrest.symm.trans h
      exact hrow
  · next hrest => exact .inr ⟨by simp [hrest], by rw [hrest]⟩

theorem flatten_groupRows (es : List Entry) : ((groupRows es).map (·.2)).flatten = es := by
  induction es with
  | nil => rfl
  | cons e rest ih =>
    rcases groupRows_cons e rest with ⟨fs, more, hrest, h⟩ | ⟨-, h⟩
    · rw [hrest, List.map_cons, List.flatten_cons] at ih
      rw [h, List.map_cons, List.flatten_cons, List.cons_append, ih]
    · rw [h, List.map_cons, List.flatten_cons, ih]
      rfl

/-- No row is without entries, and its entries are of that row. -/
theorem row_of_mem_groupRows {g : String × List Entry} (hg : g ∈ groupRows es) :
    g.2 ≠ [] ∧ ∀ e ∈ g.2, e.row = g.1 := by
  induction es generalizing g with
  | nil => cases hg
  | cons e rest ih =>
    rcases groupRows_cons e rest with ⟨fs, more, hrest, h⟩ | ⟨-, h⟩
    · rw [hrest] at ih
      rw [h] at hg
      rcases List.mem_cons.mp hg with rfl | hg
      · obtain ⟨-, hfs⟩ := ih List.mem_cons_self
        exact ⟨List.cons_ne_nil e fs, List.forall_mem_cons.mpr ⟨rfl, hfs⟩⟩
      · exact ih (List.mem_cons_of_mem _ hg)
    · rw [h] at hg
      rcases List.mem_cons.mp hg with rfl | hg
      · exact ⟨List.cons_ne_nil e [], by simp⟩
      · exact ih hg

theorem mem_of_mem_groupRows {g : String × List Entry} (hg : g ∈ groupRows es) (he : e ∈ g.2) :
    e ∈ es := by
  rw [← flatten_groupRows es]
  exact List.mem_flatten.mpr ⟨g.2, List.mem_map.mpr ⟨g, hg, rfl⟩, he⟩

/-- In ordered entries the rows ascend, so none is written twice. -/
theorem ascending_groupRows (h : es.Pairwise fun a b => a.precedes b.row b.family = true) :
    Ascending (groupRows es) := by
  induction es with
  | nil => exact .nil
  | cons e rest ih =>
    obtain ⟨he, hrest⟩ := List.pairwise_cons.mp h
    have ih := ih hrest
    rcases groupRows_cons e rest with ⟨fs, more, hmore, hcons⟩ | ⟨hne, hcons⟩
    · rw [hmore] at ih
      rw [hcons]
      obtain ⟨hfirst, hmore⟩ := KeyedList.ascending_cons.mp ih
      exact KeyedList.ascending_cons.mpr ⟨hfirst, hmore⟩
    · rw [hcons]
      refine KeyedList.ascending_cons.mpr ⟨?_, ih⟩
      cases hgroups : groupRows rest with
      | nil => simp
      | cons g more =>
        rw [hgroups] at ih
        obtain ⟨hnil, hrow⟩ := row_of_mem_groupRows (by rw [hgroups]; exact List.mem_cons_self)
        obtain ⟨d, hd⟩ := List.exists_mem_of_ne_nil _ hnil
        have hfirst : e.row < g.1 := by
          have hmem : d ∈ rest :=
            mem_of_mem_groupRows (by rw [hgroups]; exact List.mem_cons_self) hd
          rcases Entry.precedes_iff.mp (he d hmem) with hlt | ⟨heq, -⟩
          · exact hrow d hd ▸ hlt
          · exact absurd (heq.trans (hrow d hd)).symm (hne g.1 g.2 more hgroups)
        refine List.forall_mem_cons.mpr ⟨hfirst, fun q hq => ?_⟩
        exact String.lt_trans hfirst ((KeyedList.ascending_cons.mp ih).1 q hq)

theorem ascending_families {g : String × List Entry}
    (h : es.Pairwise fun a b => a.precedes b.row b.family = true) (hg : g ∈ groupRows es) :
    g.2.Pairwise fun a b => a.family < b.family := by
  rw [← flatten_groupRows es] at h
  have hpairs := (List.pairwise_flatten.mp h).1 g.2 (List.mem_map.mpr ⟨g, hg, rfl⟩)
  refine hpairs.imp_of_mem fun ha hb hab => ?_
  have hrow := (row_of_mem_groupRows hg).2
  rcases Entry.precedes_iff.mp hab with hlt | ⟨-, hlt⟩
  · exact absurd ((hrow _ ha).trans (hrow _ hb).symm) (String.ne_of_lt hlt)
  · exact hlt

def storedCells (e : Entry) : KeyedList StoredHistory :=
  e.cells.map fun (qualifier, h) => (qualifier, storeHistory h)

def storedRows (es : List Entry) : StoredRows :=
  (groupRows es).map fun (row, es) => (row, es.map fun e => (e.family, storedCells e))

/-- A map is read from its members if these ascend. -/
theorem readMap?_ofMembers {α β : Type} {read : Value → Option β} {key : α → String}
    {write : α → Value} {stored : α → β} {l : List α} (hl : (l.map key).Pairwise (· < ·))
    (h : ∀ a ∈ l, read (write a) = some (stored a)) :
    readMap? read (.ofMembers (l.map fun a => (key a, write a))) =
      some (l.map fun a => (key a, stored a)) := by
  have hread : (l.map fun a => (key a, write a)).mapM (fun m => (read m.2).map (m.1, ·)) =
      some (l.map fun a => (key a, stored a)) :=
    List.mapM_map.trans <| mapM_eq_some_map fun a ha => by simp [h a ha]
  have hascending : Ascending (l.map fun a => (key a, stored a)) :=
    KeyedList.ascending_iff_keys.mpr (by rw [List.map_map]; exact hl)
  refine (bind_of_eq_some (Value.members?_ofMembers _)).trans ?_
  apply (bind_of_eq_some hread).trans
  rw [KeyedList.ofPairs_of_ascending hascending]
  rfl

/-- Every history has less than 2^32 versions, so that their number can be stored. -/
def Storable (es : List Entry) : Prop := ∀ e ∈ es, ∀ cell ∈ e.cells, cell.2.length ≤ Numeral.max32

theorem readHistory?_storeHistory (h : History) :
    readHistory? (writeHistory (storeHistory h)) = some (storeHistory h) := by
  refine readHistory?_writeHistory (count_storeHistory_le h) (ascending_storeHistory h) ?_
  rintro ⟨key, v⟩ hp
  obtain ⟨number, rfl, -⟩ := mem_storeHistory.mp hp
  exact versionKey_ne_count number

theorem readMap?_writeEntry (he : Ascending e.cells) :
    readMap? readHistory? (writeEntry e) = some (storedCells e) :=
  readMap?_ofMembers (KeyedList.ascending_iff_keys.mp he) fun cell _ =>
    readHistory?_storeHistory cell.2

theorem readRows?_writeEntries (h : Entries.Sound es) :
    readRows? (writeEntries es) = some (storedRows es) := by
  refine readMap?_ofMembers (KeyedList.ascending_iff_keys.mp (ascending_groupRows h.ordered.1))
    fun g hg => ?_
  refine readMap?_ofMembers (List.pairwise_map.mpr (ascending_families h.ordered.1 hg))
    fun e he => ?_
  have hmem := mem_of_mem_groupRows hg he
  exact readMap?_writeEntry (h.ascending e hmem)

theorem restoreEntry_storedCells (hlength : ∀ cell ∈ e.cells, cell.2.length ≤ Numeral.max32) :
    restoreEntry e.row e.family (storedCells e) = .ok e := by
  have hcells : (storedCells e).mapM (fun p => do
      return (p.1, ← restoreHistory e.row p.1 p.2)) = .ok e.cells :=
    mapM_map_eq_ok fun cell hcell => by
      simp only [restoreHistory_storeHistory _ _ (hlength cell hcell)]
      rfl
  exact bind_eq_ok.mpr ⟨e.cells, hcells, rfl⟩

theorem restoreEntries_storedRows (h : Entries.Sound es) (hs : Storable es) :
    restoreEntries (storedRows es) = .ok es := by
  have hrows : (storedRows es).mapM (fun p => p.2.mapM fun q => restoreEntry p.1 q.1 q.2) =
      .ok ((groupRows es).map (·.2)) :=
    List.mapM_map.trans <| mapM_eq_ok_map fun g hg => mapM_map_eq_ok fun e he => by
      have hrow := (row_of_mem_groupRows hg).2 e he
      dsimp only
      rw [← hrow, restoreEntry_storedCells (hs e (mem_of_mem_groupRows hg he))]
  have hfilled : (es.filter fun e => !e.cells.isEmpty) = es :=
    List.filter_eq_self.mpr fun e he => by simp [h.ordered.2 e he]
  refine bind_eq_ok.mpr ⟨(groupRows es).map (·.2), hrows, ?_⟩
  rw [flatten_groupRows, hfilled]
  rfl

theorem isMade_writeEntries (es : List Entry) : (writeEntries es).IsMade := by
  refine Value.isMade_ofMembers (List.forall_mem_map.mpr fun g _ => ?_)
  refine Value.isMade_ofMembers (List.forall_mem_map.mpr fun e _ => ?_)
  refine Value.isMade_ofMembers (List.forall_mem_map.mpr fun cell _ => ?_)
  exact isMade_writeHistory (count_storeHistory_le cell.2)

end WideColumn.Document

namespace WideColumn.Table

/-- A table with its entries in order is read from its own text. -/
theorem decode_encode_of_sound {t : Table} (h : Entries.Sound t.entries)
    (hs : Document.Storable t.entries) : decode t.encode = .ok t := by
  have hmade := Document.isMade_write (Document.isMade_writeEntries t.entries)
  have hread := Document.read?_write (Document.readRows?_writeEntries h)
  rw [decode, encode, String.toList_ofList, Json.Reader.document_printed _ hmade,
    Option.bind_some, hread]
  simp only [Document.restoreEntries_storedRows h hs]
  rfl

/-- Whatever was created or loaded and then written to is read from its own text, all of it: the
metadata, and the entries in their order with every version. -/
theorem Reachable.decode_encode {t : Table} (h : Reachable t) (hs : Document.Storable t.entries) :
    decode t.encode = .ok t := decode_encode_of_sound h.sound hs

/-- Ten versions in a cell of an empty row, under a qualifier that is also a key of the document. -/
def tenVersions : Table :=
  (blank "t" [{ name := "f" }] (.ofRandom 7) .epoch).after
    ((List.range 10).map fun i => (.put "" "f" "version_count" (.ofList (List.replicate i '"')),
      ⟨.epoch, .epoch⟩))

theorem decode_encode_tenVersions : Reachable tenVersions ∧ Document.Storable tenVersions.entries ∧
    decode tenVersions.encode = .ok tenVersions := by
  have hreachable : Reachable tenVersions :=
    (Reachable.created (create_eq_ok.mpr ⟨rfl, rfl⟩)).after _
  have hstorable : Document.Storable tenVersions.entries := by
    rw [Document.Storable]
    decide
  exact ⟨hreachable, hstorable, hreachable.decode_encode hstorable⟩

end WideColumn.Table
