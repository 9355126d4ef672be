import WideColumn.Proofs.Table.Scan

/-! # A cursor goes through the list of a full scan

Moved forwards, to a row or back to the start, in any order, a cursor shows what a place in the list
of all shown cells shows. The same holds of a cursor that numbers the entries and looks each one up
by its number. -/
namespace WideColumn

inductive Move where
  | next
  /-- To the first cell whose row is not below this one. -/
  | seek (row : String)
  /-- To the first cell of all. -/
  | rewind

/-- Move a place in a list of cells. Only a move to the next cell shows one, and at the end it stays
there. -/
def Move.inList (cells : List Cell) : Move → StateM Nat (Option Cell)
  | next => modifyGet fun place =>
    (cells[place]?, if place < cells.length then place + 1 else place)
  | seek row => do
    set (cells.findIdx fun c => row ≤ c.row)
    return none
  | rewind => do
    set 0
    return none

/-- Pass the next cell if there is one. -/
def Cursor.pass (c : Cursor) : Option Cell × Cursor :=
  match c.next with
  | some (cell, d) => (some cell, d)
  | none => (none, c)

def Cursor.move : Move → StateM Cursor (Option Cell)
  | .next => modifyGet pass
  | .seek row => do
    modify (·.seek row)
    return none
  | .rewind => do
    modify (·.rewind)
    return none

/-- A cursor that knows the number of an entry and, once it has come into the entry, the cells of it
that it has not passed. -/
structure IndexedCursor where
  index : Nat
  inside : Option (List (String × History))

namespace IndexedCursor

/-- Go on to the next cell. There is no result if the cursor is inside an entry and no entry has its
number. -/
def next (t : Table) : IndexedCursor → Option (Option Cell × IndexedCursor)
  | ⟨index, some (cell :: more)⟩ =>
    if h : index < t.entries.length
      then some (some (t.entries[index].latestOf cell), ⟨index, some more⟩) else none
  | ⟨index, some []⟩ => if index < t.entries.length then next t ⟨index + 1, none⟩ else none
  | ⟨index, none⟩ =>
    if h : index < t.entries.length then
      if t.isReadable t.entries[index] then next t ⟨index, some t.entries[index].cells⟩
      else next t ⟨index + 1, none⟩
    else some (none, ⟨index, none⟩)
  -- to come into an entry leaves the number of the entry as it was
  termination_by c => (t.entries.length - c.index, if c.inside.isSome then 0 else 1)

def move (t : Table) : Move → StateT IndexedCursor Option (Option Cell)
  | .next => next t
  | .seek row => do
    set (⟨t.entries.findIdx fun e => row ≤ e.row, none⟩ : IndexedCursor)
    return none
  | .rewind => do
    set (⟨0, none⟩ : IndexedCursor)
    return none

end IndexedCursor

namespace Table

variable {t : Table} {e : Entry} {es : List Entry}

/-- The cells that entries show under the schema of the table. -/
def visible (t : Table) (es : List Entry) : List Cell :=
  (es.filter t.isReadable).flatMap Entry.latest

theorem visible_cons_of_readable (h : t.isReadable e = true) :
    t.visible (e :: es) = e.latest ++ t.visible es := by
  rw [visible, List.filter_cons_of_pos h, List.flatMap_cons, visible]

theorem visible_cons_of_hidden (h : ¬t.isReadable e = true) :
    t.visible (e :: es) = t.visible es := by
  rw [visible, List.filter_cons_of_neg h, visible]

theorem exists_of_mem_visible {c : Cell} (h : c ∈ t.visible es) : ∃ e ∈ es, c.row = e.row := by
  obtain ⟨e, he, hc⟩ := List.mem_flatMap.mp h
  exact ⟨e, List.mem_of_mem_filter he, (Entry.mem_latest hc).1⟩

/-- To skip the entries of lower rows is to skip the cells of lower rows, whether or not the entries
there are seen. -/
theorem visible_dropWhile (h : es.Pairwise fun a b => a.row ≤ b.row) (row : String) :
    t.visible (es.dropWhile fun e => e.row < row) = (t.visible es).dropWhile fun c =>
      c.row < row := by
  induction es with
  | nil => rfl
  | cons e es ih =>
    obtain ⟨he, hes⟩ := List.pairwise_cons.mp h
    by_cases hlt : e.row < row
    · rw [List.dropWhile_cons_of_pos (by simpa using hlt), ih hes]
      by_cases hread : t.isReadable e = true
      · have hskipped : ∀ c ∈ e.latest, decide (c.row < row) = true := fun c hc =>
          decide_eq_true ((Entry.mem_latest hc).1 ▸ hlt)
        rw [visible_cons_of_readable hread, List.dropWhile_append_of_pos hskipped]
      · rw [visible_cons_of_hidden hread]
    · -- no entry after this one is of a lower row
      have hstop : ∀ c ∈ (t.visible (e :: es)).head?, decide (c.row < row) = false := by
        intro c hc
        obtain ⟨a, ha, hrow⟩ := exists_of_mem_visible (List.mem_of_mem_head? hc)
        refine decide_eq_false fun hlow => hlt ?_
        rcases List.mem_cons.mp ha with rfl | ha
        · exact hrow ▸ hlow
        · exact Std.lt_of_le_of_lt (he a ha) (hrow ▸ hlow)
      have hall := dropWhile_append_of_stop (List.forall_mem_nil _) hstop
      rw [List.dropWhile_cons_of_neg (by simpa using hlt)]
      exact hall.symm

end Table

/-- What lies behind the items of a lower row starts at the first item of another row. -/
theorem dropWhile_eq_drop_findIdx {α : Type} (row : String) (key : α → String) (l : List α) :
    (l.dropWhile fun a => key a < row) = l.drop (l.findIdx fun a => row ≤ key a) := by
  rw [List.dropWhile_eq_drop_findIdx_not]
  congr 2
  funext a
  rw [← decide_not, decide_eq_decide, String.not_lt]

namespace IndexedCursor

variable {t : Table} {c : IndexedCursor} {cells : List Cell}

/-- What a cursor has before it. Inside an entry its number is the number of that entry. -/
inductive Faces (t : Table) : IndexedCursor → List Cell → Prop where
  | between (index : Nat) : Faces t ⟨index, none⟩ (t.visible (t.entries.drop index))
  | inside {index : Nat} (h : index < t.entries.length) (cells : List (String × History)) :
      Faces t ⟨index, some cells⟩
        (cells.map t.entries[index].latestOf ++ t.visible (t.entries.drop (index + 1)))

/-- The next cell is found, however many entries without one lie before it, and every entry that is
looked up has its number. -/
theorem Faces.exists_next (h : Faces t c cells) :
    ∃ d, c.next t = some (cells.head?, d) ∧ Faces t d cells.tail := by
  induction c using next.induct t generalizing cells with
  | case1 index cell more hindex =>
    cases h
    rw [next, dif_pos hindex]
    exact ⟨_, rfl, .inside hindex more⟩
  | case2 index cell more hout =>
    cases h with
    | inside hindex => exact absurd hindex hout
  | case3 index hindex ih =>
    cases h
    rw [next, if_pos hindex]
    exact ih (.between (index + 1))
  | case4 index hout =>
    cases h with
    | inside hindex => exact absurd hindex hout
  | case5 index hindex hread ih =>
    cases h
    rw [next, dif_pos hindex, if_pos hread, List.drop_eq_getElem_cons hindex,
      Table.visible_cons_of_readable hread, Entry.latest]
    exact ih (.inside hindex _)
  | case6 index hindex hread ih =>
    cases h
    rw [next, dif_pos hindex, if_neg hread, List.drop_eq_getElem_cons hindex,
      Table.visible_cons_of_hidden hread]
    exact ih (.between (index + 1))
  | case7 index hout =>
    have hnone : t.entries.drop index = [] := List.drop_eq_nil_iff.mpr (Nat.le_of_not_lt hout)
    have hend := Faces.between (t := t) index
    rw [hnone] at hend
    cases h
    rw [next, dif_neg hout, hnone]
    exact ⟨_, rfl, hend⟩

end IndexedCursor

namespace Cursor

variable {c d : Cursor} {cell : Cell}

theorem table_of_next (h : c.next = some (cell, d)) : d.table = c.table := by
  rw [next] at h
  split at h
  · cases h
    rfl
  · obtain ⟨_, -, hd⟩ := Option.map_eq_some_iff.mp h
    cases hd
    rfl

/-- The cell that is passed is the first one ahead, and at the end nothing changes. -/
theorem pass_spec (c : Cursor) :
    c.pass.1 = c.cellsAhead.head? ∧ c.pass.2.table = c.table ∧
    c.pass.2.cellsAhead = c.cellsAhead.tail := by
  rw [pass]
  split
  · next hnext =>
    rw [cellsAhead_of_next hnext]
    exact ⟨rfl, table_of_next hnext, rfl⟩
  · next hnext =>
    rw [cellsAhead_of_end hnext]
    exact ⟨rfl, rfl, rfl⟩

end Cursor

theorem run_mapM_cons {m : Type → Type} [Monad m] [LawfulMonad m] {σ α β : Type}
    {f : α → StateT σ m β} {a : α} {l : List α} {b : β} {bs : List β} {s s₁ s₂ : σ}
    (ha : (f a).run s = pure (b, s₁)) (hl : (l.mapM f).run s₁ = pure (bs, s₂)) :
    ((a :: l).mapM f).run s = pure (b :: bs, s₂) := by
  rw [List.mapM_cons, StateT.run_bind, ha, pure_bind, StateT.run_bind, hl, pure_bind]
  rfl

variable {t : Table} {place : Nat} {c : Cursor} {d : IndexedCursor}

/-- A place in the list of the cells that are shown, a cursor and a cursor with numbers stand before
the same cell. -/
structure Together (t : Table) (place : Nat) (c : Cursor) (d : IndexedCursor) : Prop where
  le_length : place ≤ (t.visible t.entries).length
  table : c.table = t
  ahead : c.cellsAhead = (t.visible t.entries).drop place
  faces : d.Faces t ((t.visible t.entries).drop place)

theorem together_first (t : Table) : Together t 0 (.first t) ⟨0, none⟩ where
  le_length := Nat.zero_le _
  table := rfl
  ahead := rfl
  faces := .between 0

theorem together_seek (h : t.entries.Pairwise fun a b => a.row ≤ b.row) (hc : c.table = t)
    (row : String) :
    Together t ((t.visible t.entries).findIdx fun c => row ≤ c.row) (c.seek row)
      ⟨t.entries.findIdx fun e => row ≤ e.row, none⟩ := by
  have hdrop : t.visible (t.entries.drop (t.entries.findIdx fun e => row ≤ e.row)) =
      (t.visible t.entries).drop ((t.visible t.entries).findIdx fun c => row ≤ c.row) := by
    rw [← dropWhile_eq_drop_findIdx row Entry.row, ← dropWhile_eq_drop_findIdx row Cell.row]
    exact Table.visible_dropWhile h row
  refine ⟨List.findIdx_le_length, hc, ?_, hdrop ▸ .between _⟩
  rw [← hdrop, ← dropWhile_eq_drop_findIdx row Entry.row, ← hc]
  rfl

/-- After the same move they stand before the same cell again, and have shown the same. -/
theorem Together.move (hrows : t.entries.Pairwise fun a b => a.row ≤ b.row)
    (h : Together t place c d) (m : Move) :
    ∃ answer place' c' d', (m.inList (t.visible t.entries)).run place = (answer, place') ∧
      (Cursor.move m).run c = (answer, c') ∧ (IndexedCursor.move t m).run d = some (answer, d') ∧
      Together t place' c' d' := by
  cases m with
  | next =>
    obtain ⟨d', hnext, hfaces⟩ := h.faces.exists_next
    obtain ⟨hanswer, htable, hahead⟩ := c.pass_spec
    have hplace : (t.visible t.entries)[place]? = ((t.visible t.entries).drop place).head? :=
      List.head?_drop.symm
    rw [h.ahead] at hanswer hahead
    refine ⟨_, if place < (t.visible t.entries).length then place + 1 else place, c.pass.2, d',
      Prod.ext hplace rfl, Prod.ext hanswer rfl, hnext, ?_⟩
    by_cases hlt : place < (t.visible t.entries).length
    · have htail : ((t.visible t.entries).drop place).tail = (t.visible t.entries).drop
        (place + 1) := List.tail_drop
      rw [htail] at hahead hfaces
      rw [if_pos hlt]
      exact ⟨hlt, htable.trans h.table, hahead, hfaces⟩
    · -- at the end there is nothing ahead, and no step is taken
      have hend : (t.visible t.entries).drop place = [] :=
        List.drop_eq_nil_iff.mpr (Nat.le_of_not_lt hlt)
      have htail : ((t.visible t.entries).drop place).tail = (t.visible t.entries).drop place := by
        rw [hend]; rfl
      rw [htail] at hahead hfaces
      rw [if_neg hlt]
      exact ⟨h.le_length, htable.trans h.table, hahead, hfaces⟩
  | seek row => exact ⟨none, _, _, _, rfl, rfl, rfl, together_seek hrows h.table row⟩
  | rewind =>
    obtain ⟨-, rfl, -, -⟩ := h
    exact ⟨none, _, _, _, rfl, rfl, rfl, together_first c.table⟩

/-- So they do after any moves. -/
theorem Together.moves (hrows : t.entries.Pairwise fun a b => a.row ≤ b.row)
    (h : Together t place c d) (moves : List Move) :
    ∃ answers place' c' d', (moves.mapM (Move.inList (t.visible t.entries))).run place =
      (answers, place') ∧
      (moves.mapM Cursor.move).run c = (answers, c') ∧
      (moves.mapM (IndexedCursor.move t)).run d = some (answers, d') ∧ Together t place' c' d' := by
  induction moves generalizing place c d with
  | nil => exact ⟨[], place, c, d, rfl, rfl, rfl, h⟩
  | cons m moves ih =>
    obtain ⟨answer, place₁, c₁, d₁, hplace, hc, hd, h₁⟩ := h.move hrows m
    obtain ⟨answers, place₂, c₂, d₂, hplaces, hcs, hds, h₂⟩ := ih h₁
    refine ⟨answer :: answers, place₂, c₂, d₂, ?_, ?_, ?_, h₂⟩
    · exact run_mapM_cons (m := Id) hplace hplaces
    · exact run_mapM_cons (m := Id) hc hcs
    · exact run_mapM_cons hd hds

namespace Table

/-- A cursor of a scan is a place in the list that the whole scan gives, whatever moves it makes: to
the next cell, which it passes and which at the end is none, to the first cell whose row is not
below a row, or back to the first cell. The moves come to an end, and no entry is looked up under a
number that no entry has. -/
theorem moves_scan {c : Cursor} (hrows : t.entries.Pairwise fun a b => a.row ≤ b.row)
    (hscan : t.scan = .ok c) (moves : List Move) :
    ∃ answers place c' d, (moves.mapM (Move.inList c.drain.1)).run 0 = (answers, place) ∧
      place ≤ c.drain.1.length ∧ (moves.mapM Cursor.move).run c = (answers, c') ∧
      c'.drain.1 = c.drain.1.drop place ∧ (moves.mapM (IndexedCursor.move t)).run ⟨0, none⟩ =
        some (answers, d) := by
  obtain ⟨-, -, h⟩ := bind_eq_ok.mp hscan
  cases h
  have hall : (Cursor.first t).drain.1 = t.visible t.entries := (Cursor.first t).drain_eq.1
  obtain ⟨answers, place, c', d, hplace, hc, hd, hend⟩ := (together_first t).moves hrows moves
  rw [hall]
  exact ⟨answers, place, c', d, hplace, hend.le_length, hc, c'.drain_eq.1.trans hend.ahead, hd⟩

theorem moves_scan_threeEntries : threeEntries.entries.Pairwise (fun a b => a.row ≤ b.row) ∧
    ∃ c, threeEntries.scan = .ok c ∧ ∃ answers place c' d,
      ([.next, .seek "s", .next, .next, .rewind, .next].mapM (Move.inList c.drain.1)).run 0 =
        (answers, place) ∧
      place ≤ c.drain.1.length ∧
      ([.next, .seek "s", .next, .next, .rewind, .next].mapM Cursor.move).run c = (answers, c') ∧
      c'.drain.1 = c.drain.1.drop place ∧
      ([.next, .seek "s", .next, .next, .rewind, .next].mapM (IndexedCursor.move threeEntries)).run
        ⟨0, none⟩ = some (answers, d) := by
  have hrows := reachable_threeEntries.sound.ordered.1.imp fun hab => Entries.row_le_of_precedes hab
  exact ⟨hrows, .first threeEntries, rfl, moves_scan hrows rfl _⟩

end Table

end WideColumn
