import WideColumn.Proofs.Sequence
import WideColumn.Proofs.Table.KeyedList
import WideColumn.Proofs.Table.Scan
import WideColumn.Table.Document
import WideColumn.Table.Write

/-! # Tables but for their times

A table without its times is the same table as if every clock always showed the epoch. No write and
no read looks at a time, so what each makes of a table without its times is what it makes of the
table, without its times. -/
namespace WideColumn
open WideColumn.Time

def Version.timeless (v : Version) : Version := { v with timestamp := .epoch }

def History.timeless (h : History) : History where
  latest := h.latest.timeless
  earlier := h.earlier.map Version.timeless

def Entry.timeless (e : Entry) : Entry := { e with cells := e.cells.mapValues History.timeless }

def Cell.timeless (c : Cell) : Cell := { c with timestamp := .epoch }

def Table.timeless (t : Table) : Table :=
  { t with createdAt := .epoch, updatedAt := .epoch, entries := t.entries.map Entry.timeless }

namespace History

variable {h : History}

theorem latest_epoch : Instant.latest .epoch .epoch = .epoch := ite_self _

theorem timeless_push (h : History) (now : Instant) (value : String) :
    (h.push now value).timeless = h.timeless.push .epoch value := by
  have hlatest : h.timeless.latest.timestamp.latest .epoch = .epoch := latest_epoch
  rw [push, push, hlatest]
  rfl

/-- The history of a cell after a value is put. -/
def pushed (h : Option History) (now : Instant) (value : String) : History :=
  match h with
  | some h => h.push now value
  | none => .start now value

theorem timeless_pushed (h : Option History) (now : Instant) (value : String) :
    (pushed h now value).timeless = pushed (h.map timeless) .epoch value := by
  cases h with
  | none => rfl
  | some h => exact timeless_push h now value

theorem length_timeless : h.timeless.length = h.length := by
  rw [length, timeless, List.length_map, length]

theorem count_timeless : h.timeless.count = h.count := by rw [count, length_timeless, count]

theorem newestFirst_timeless : h.timeless.newestFirst = h.newestFirst.map Version.timeless := rfl

theorem numbered_timeless (h : History) :
    h.timeless.numbered = h.numbered.map fun p => (p.1, p.2.timeless) := by
  have hgo (vs : List Version) (n : Nat) :
      numbered.go n (vs.map Version.timeless) = (numbered.go n vs).map fun p =>
        (p.1, p.2.timeless) := by
    induction vs generalizing n with
    | nil => rfl
    | cons v vs ih =>
      rw [List.map_cons, numbered.go, numbered.go, ih]
      rfl
  rw [numbered, length_timeless, newestFirst_timeless, hgo, numbered]

end History

namespace Entries

variable {es : List Entry} {row family qualifier : String}

theorem search_timeless : search (es.map Entry.timeless) row family = search es row family := by
  have hlength : ((es.map Entry.timeless).takeWhile fun e => e.precedes row family).length =
      (es.takeWhile fun e => e.precedes row family).length := by
    rw [List.takeWhile_map, List.length_map]
    rfl
  rw [search, search, hlength, List.getElem?_map]
  cases es[(es.takeWhile fun e => e.precedes row family).length]? <;> rfl

theorem find?_timeless : find? (es.map Entry.timeless) row family qualifier =
    (find? es row family qualifier).map History.timeless := by
  rw [find?, find?, search_timeless]
  cases search es row family with
  | vacant i => rfl
  | found i =>
    dsimp only
    rw [List.getElem?_map]
    cases es[i]? with
    | none => rfl
    | some e => exact KeyedList.find?_mapValues

theorem put_eq (es : List Entry) (row family qualifier : String) (now : Instant) (value : String) :
    put es row family qualifier now value =
      match search es row family with
      | .found i => (es.modify i fun e =>
          { e with
            cells := e.cells.insert qualifier (.pushed (find? es row family qualifier) now value) },
          (History.pushed (find? es row family qualifier) now value).count, false)
      | .vacant i => (es.insertIdx i
          { row, family,
            cells := [(qualifier, .pushed (find? es row family qualifier) now value)] },
          (History.pushed (find? es row family qualifier) now value).count, true) :=
  rfl

theorem map_modify_timeless {f g : Entry → Entry} (h : ∀ e, (f e).timeless = g e.timeless)
    (es : List Entry) (i : Nat) :
    (es.modify i f).map Entry.timeless = (es.map Entry.timeless).modify i g := by
  refine List.ext_getElem? fun j => ?_
  rw [List.getElem?_map, List.getElem?_modify, List.getElem?_modify, List.getElem?_map]
  cases es[j]? with
  | none => rfl
  | some e =>
    refine congrArg some ?_
    dsimp only
    split
    · exact h e
    · rfl

theorem put_timeless (es : List Entry) (row family qualifier : String) (now : Instant)
    (value : String) :
    put (es.map Entry.timeless) row family qualifier .epoch value =
      ((put es row family qualifier now value).1.map Entry.timeless,
        (put es row family qualifier now value).2) := by
  rw [put_eq, put_eq, search_timeless, find?_timeless, ← History.timeless_pushed _ now,
    History.count_timeless]
  cases search es row family with
  | vacant i =>
    dsimp only
    rw [List.map_insertIdx]
    rfl
  | found i =>
    dsimp only
    rw [map_modify_timeless fun e => ?_]
    simp only [Entry.timeless, KeyedList.insert_mapValues]

theorem erase_timeless (es : List Entry) (row family qualifier : String) :
    erase (es.map Entry.timeless) row family qualifier =
      ((erase es row family qualifier).1.map Entry.timeless,
        (erase es row family qualifier).2) := by
  have hcells (e : Entry) : { e with cells := e.cells.erase qualifier }.timeless =
      { e.timeless with cells := e.timeless.cells.erase qualifier } := by
    simp only [Entry.timeless, KeyedList.erase_mapValues]
  rw [erase, erase, search_timeless]
  cases search es row family with
  | vacant i => rfl
  | found i =>
    have hleft : ((es.map Entry.timeless)[i]?).map (fun e => e.cells.erase qualifier) =
        ((es[i]?).map fun e => e.cells.erase qualifier).map
            (KeyedList.mapValues History.timeless) := by
      rw [List.getElem?_map, Option.map_map, Option.map_map]
      exact Option.map_congr fun e _ => congrArg Entry.cells (hcells e).symm
    dsimp only
    rw [hleft]
    generalize (es[i]?).map (fun e => e.cells.erase qualifier) = left
    rcases left with _ | _ | ⟨p, l⟩
    · exact Prod.ext (map_modify_timeless hcells es i).symm rfl
    · exact Prod.ext (List.eraseIdx_map ..) rfl
    · exact Prod.ext (map_modify_timeless hcells es i).symm rfl

theorem rowRange_timeless : rowRange (es.map Entry.timeless) row = rowRange es row := by
  have hlength (p : Entry → Bool) (hp : ∀ e, p e.timeless = p e) (l : List Entry) :
      ((l.map Entry.timeless).takeWhile p).length = (l.takeWhile p).length := by
    rw [List.takeWhile_map, List.length_map, show p ∘ Entry.timeless = p from funext hp]
  rw [rowRange, rowRange, hlength _ fun _ => rfl, ← List.map_drop, hlength _ fun _ => rfl]

theorem ofRow_timeless : ofRow (es.map Entry.timeless) row = (ofRow es row).map Entry.timeless := by
  rw [ofRow, ofRow, rowRange_timeless, List.map_drop, List.map_take]

theorem withoutRow_timeless :
    withoutRow (es.map Entry.timeless) row = (withoutRow es row).map Entry.timeless := by
  rw [withoutRow, withoutRow, rowRange_timeless, List.map_append, List.map_drop, List.map_take]

end Entries

namespace Table
open WideColumn.Schema

variable {t : Table} {α : Type}

/-- What a write makes of a table does not depend on times, nor its answer. -/
def Blind (op : Readings → Table → Except Fault (α × Table)) : Prop :=
  ∀ r t, (fun p => (p.1, p.2.timeless)) <$> op r t = op ⟨.epoch, .epoch⟩ t.timeless

theorem timeless_blank (name : String) (families : List Family) (id : Uuid) (now : Instant) :
    (blank name families id now).timeless = blank name families id .epoch := rfl

theorem timeless_touch (t : Table) (now : Instant) :
    (t.touch now).timeless = t.timeless.touch .epoch := by
  have hlatest : t.timeless.updatedAt.latest .epoch = .epoch := History.latest_epoch
  rw [touch, touch, hlatest]
  rfl

/-- A write without an answer. -/
theorem blind_of_map {op : Readings → Table → Except Fault Table}
    (h : ∀ r t, timeless <$> op r t = op ⟨.epoch, .epoch⟩ t.timeless) :
    Blind fun r t => return ((), ← op r t) := by
  intro r t
  dsimp only
  rw [← h r t]
  cases op r t <;> rfl

theorem timeless_enable (r : Readings) (t : Table) :
    timeless <$> t.enable r = t.timeless.enable ⟨.epoch, .epoch⟩ := by
  by_cases h : t.disabled = true
  · rw [enable, enable, if_pos h, if_pos (show t.timeless.disabled = true from h)]
    exact congrArg Except.ok (timeless_touch _ _)
  · rw [enable, enable, if_neg h, if_neg (show ¬ t.timeless.disabled = true from h)]
    rfl

theorem timeless_disable (r : Readings) (t : Table) :
    timeless <$> t.disable r = t.timeless.disable ⟨.epoch, .epoch⟩ := by
  by_cases h : t.disabled = true
  · rw [disable, disable, if_pos h, if_pos (show t.timeless.disabled = true from h)]
    rfl
  · rw [disable, disable, if_neg h, if_neg (show ¬ t.timeless.disabled = true from h)]
    exact congrArg Except.ok (timeless_touch _ _)

variable {row family qualifier value : String} {batch : Properties}

theorem checkEnabled_timeless (action : Action) :
    t.timeless.checkEnabled action = t.checkEnabled action :=
  rfl

theorem needFamily_timeless : t.timeless.needFamily family = t.needFamily family := rfl

theorem checkFamily_timeless : t.timeless.checkFamily family = t.checkFamily family := rfl

theorem timeless_createFamily (r : Readings) (t : Table) :
    timeless <$> t.createFamily r family batch = t.timeless.createFamily ⟨.epoch, .epoch⟩ family
      batch := by
  simp only [createFamily, map_bind, checkEnabled_timeless]
  refine bind_congr fun _ => bind_congr fun _ => ?_
  by_cases hthere : (t.family? family).isSome = true
  · rw [if_pos hthere, if_pos (show (t.timeless.family? family).isSome = true from hthere)]
    rfl
  · rw [if_neg hthere, if_neg (show ¬ (t.timeless.family? family).isSome = true from hthere),
      map_bind]
    refine bind_congr fun f => ?_
    exact congrArg Except.ok (timeless_touch _ _)

theorem timeless_updateFamily (r : Readings) (t : Table) :
    timeless <$> t.updateFamily r family batch = t.timeless.updateFamily ⟨.epoch, .epoch⟩ family
      batch := by
  simp only [updateFamily, map_bind, checkEnabled_timeless, needFamily_timeless]
  refine bind_congr fun _ => bind_congr fun f => bind_congr fun options => ?_
  exact congrArg Except.ok (timeless_touch _ _)

theorem timeless_deleteFamily (r : Readings) (t : Table) :
    timeless <$> t.deleteFamily r family = t.timeless.deleteFamily ⟨.epoch, .epoch⟩ family := by
  simp only [deleteFamily, map_bind, checkEnabled_timeless, checkFamily_timeless]
  refine bind_congr fun _ => bind_congr fun _ => ?_
  exact congrArg Except.ok (timeless_touch _ _)

theorem timeless_delete (r : Readings) (t : Table) :
    timeless <$> t.delete r row family qualifier = t.timeless.delete ⟨.epoch, .epoch⟩ row family
      qualifier := by
  have herase := Entries.erase_timeless t.entries row family qualifier
  have hnone : (Entries.find? (t.entries.map Entry.timeless) row family qualifier).isNone =
      (Entries.find? t.entries row family qualifier).isNone := by
    rw [Entries.find?_timeless, Option.isNone_map]
  simp only [delete, map_bind, checkEnabled_timeless, checkFamily_timeless]
  refine bind_congr fun _ => bind_congr fun _ => ?_
  rw [show t.timeless.entries = t.entries.map Entry.timeless from rfl, hnone, herase]
  split
  · rfl
  · refine congrArg Except.ok ?_
    rw [timeless_touch]
    rfl

theorem blind_put : Blind fun r t => t.put r row family qualifier value := by
  intro r t
  have hput := Entries.put_timeless t.entries row family qualifier r.version value
  simp only [put, map_bind, checkEnabled_timeless, checkFamily_timeless]
  refine bind_congr fun _ => bind_congr fun _ => ?_
  rw [show t.timeless.entries = t.entries.map Entry.timeless from rfl, hput]
  refine congrArg Except.ok (Prod.ext rfl ?_)
  exact timeless_touch _ _

theorem blind_deleteRow : Blind fun r t => t.deleteRow r row := by
  intro r t
  simp only [deleteRow, map_bind, checkEnabled_timeless]
  refine bind_congr fun _ => ?_
  rw [show t.timeless.entries = t.entries.map Entry.timeless from rfl, Entries.ofRow_timeless,
    Entries.withoutRow_timeless, List.length_map]
  exact congrArg Except.ok (Prod.ext rfl (timeless_touch _ _))

end Table

namespace Entry

theorem read_timeless (e : Entry) (most : Nat) (qualifier : String) (h : History) :
    e.timeless.read most qualifier h.timeless = (e.read most qualifier h).map Cell.timeless := by
  rw [read, read, History.numbered_timeless, ← List.map_take, List.map_map, List.map_map]
  rfl

theorem latest_timeless (e : Entry) : e.timeless.latest = e.latest.map Cell.timeless := by
  rw [latest_eq, latest_eq, List.map_flatMap]
  exact (List.flatMap_map ..).trans (List.flatMap_congr fun p _ => e.read_timeless 1 p.1 p.2)

end Entry

namespace Table

variable {t : Table}

theorem flatMap_timeless (keep : Entry → Bool) {f : Entry → List Cell}
    (hkeep : ∀ e, keep e.timeless = keep e) (hf : ∀ e, f e.timeless = (f e).map Cell.timeless)
    (es : List Entry) :
    ((es.map Entry.timeless).filter keep).flatMap f = ((es.filter keep).flatMap f).map
      Cell.timeless := by
  rw [List.filter_map, show keep ∘ Entry.timeless = keep from funext hkeep, List.flatMap_map,
    List.map_flatMap]
  exact List.flatMap_congr fun e _ => hf e

theorem getVersions_timeless (t : Table) (row : String) (family qualifier : Option String)
    (versions : Nat) :
    t.timeless.getVersions row family qualifier versions =
      List.map Cell.timeless <$> t.getVersions row family qualifier versions := by
  let shown (e : Entry) : List Cell :=
    (e.cells.filter fun p => qualifier.all (· == p.1)).flatMap fun p =>
      e.read (max versions 1) p.1 p.2
  have hshown (e : Entry) : shown e.timeless = (shown e).map Cell.timeless := by
    rw [List.map_flatMap]
    refine (congrArg (List.flatMap _) List.filter_map).trans ((List.flatMap_map ..).trans ?_)
    exact List.flatMap_congr fun p _ => e.read_timeless _ p.1 p.2
  have hwanted := flatMap_timeless (fun e => family.all (· == e.family) && t.isReadable e)
    (fun _ => rfl) hshown (Entries.ofRow t.entries row)
  rw [← Entries.ofRow_timeless] at hwanted
  simp only [getVersions, map_bind, checkEnabled_timeless, checkFamily_timeless]
  refine bind_congr fun _ => ?_
  cases family with
  | none =>
    cases qualifier with
    | none => exact congrArg Except.ok hwanted
    | some q => rfl
  | some f =>
    rw [Option.isNone_some, Bool.and_false, if_neg Bool.false_ne_true, if_neg Bool.false_ne_true,
      map_bind]
    exact bind_congr fun _ => congrArg Except.ok hwanted

theorem cellsAhead_timeless (t : Table) :
    (Cursor.first t.timeless).cellsAhead = (Cursor.first t).cellsAhead.map Cell.timeless :=
  flatMap_timeless _ (fun _ => rfl) (fun e => e.latest_timeless) t.entries

/-- What a scan to its end shows. -/
theorem scan_timeless (t : Table) : (fun c : Cursor => c.drain.1) <$> t.timeless.scan =
    (fun c : Cursor => c.drain.1.map Cell.timeless) <$> t.scan := by
  rw [scan, scan, checkEnabled_timeless, map_bind, map_bind]
  refine bind_congr fun _ => congrArg Except.ok ?_
  dsimp only
  rw [(Cursor.first t.timeless).drain_eq.1, (Cursor.first t).drain_eq.1, cellsAhead_timeless]

theorem count_timeless (t : Table) : t.timeless.count = t.count := rfl

end Table

end WideColumn
