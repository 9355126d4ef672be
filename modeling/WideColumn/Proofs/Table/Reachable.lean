import WideColumn.Proofs.Table.Loading
import WideColumn.Proofs.Table.Run
import WideColumn.Proofs.Text.Utf8

/-! # The store of every table that can come about

The order of the store is kept by every write and holds in whatever is loaded. So a search finds an
entry wherever there is one, and the range of a row holds all its entries. -/
namespace WideColumn.Table
open WideColumn.Schema WideColumn.Time

/-- Tables that were created or loaded and then written to. A write may also have been refused. -/
inductive Reachable : Table → Prop where
  | created {name : String} {families : List Family} {id : Uuid} {now : Instant} {t : Table}
      (h : create name families id now = .ok t) : Reachable t
  | loaded {path text : String} {t : Table} (h : load path text = .ok t) : Reachable t
  | step {t : Table} (h : Reachable t) (op : Operation) (r : Readings) : Reachable (op.step r t)

variable {t : Table}

theorem create_eq_ok {name : String} {families : List Family} {id : Uuid} {now : Instant} :
    create name families id now = .ok t ↔
      checkNew name families = .ok () ∧ t = blank name families id now := by
  rw [create]
  cases hc : checkNew name families with
  | error e =>
    constructor
    · intro h
      cases h
    · intro h
      obtain ⟨h, -⟩ := h
      cases h
  | ok u =>
    constructor
    · intro h
      cases h
      exact ⟨rfl, rfl⟩
    · intro h
      obtain ⟨-, rfl⟩ := h
      rfl

theorem Reachable.sound (h : Reachable t) : Entries.Sound t.entries := by
  induction h with
  | created h =>
    obtain ⟨-, rfl⟩ := create_eq_ok.mp h
    exact Entries.Sound.nil
  | loaded h => exact sound_of_decode (load_eq_ok.mp h).1
  | step _ op r ih => exact Operation.sound_step ih

/-- A store that is in order, so that its places can be found by bisection. Texts are compared by
their bytes. -/
structure InOrder (es : List Entry) : Prop where
  ascending : es.Pairwise fun a b => Text.utf8 a.row < Text.utf8 b.row ∨
    a.row = b.row ∧ Text.utf8 a.family < Text.utf8 b.family
  distinct : (es.map fun e => (e.row, e.family)).Nodup
  /-- Every entry has a cell. -/
  filled : ∀ e ∈ es, e.cells ≠ []
  cells : ∀ e ∈ es, e.cells.Pairwise fun a b => Text.utf8 a.1 < Text.utf8 b.1
  /-- Every cell has a version. -/
  versions : ∀ e ∈ es, ∀ cell ∈ e.cells, 1 ≤ cell.2.oldestFirst.length
  search_iff : ∀ row family i, Entries.search es row family = .found i ↔
    ∃ e, es[i]? = some e ∧ e.row = row ∧ e.family = family
  rowRange_iff : ∀ row i, (Entries.rowRange es row).1 ≤ i ∧ i < (Entries.rowRange es row).2 ↔
    ∃ e, es[i]? = some e ∧ e.row = row

theorem inOrder_of_sound {es : List Entry} (h : Entries.Sound es) : InOrder es where
  ascending := h.ordered.1.imp fun hab => by
    rw [← Text.lt_iff_utf8_lt, ← Text.lt_iff_utf8_lt]
    exact Entry.precedes_iff.mp hab
  distinct := List.pairwise_map.mpr <| h.ordered.1.imp fun hab he => by
    obtain ⟨hrow, hfamily⟩ := Prod.mk.inj he
    have hat := Entry.not_isAt_of_precedes hab
    rw [Entry.isAt_iff.mpr ⟨hrow, hfamily⟩] at hat
    cases hat
  filled := h.ordered.2
  cells e he := (h.ascending e he).imp Text.lt_iff_utf8_lt.mp
  versions e _ cell _ := by simp [History.oldestFirst, History.newestFirst]
  search_iff _ _ _ := h.ordered.search_eq_found_iff
  rowRange_iff row i := by
    obtain ⟨before, inside, after, hs⟩ := h.ordered.rowSplit row
    exact hs.mem_rowRange_iff

/-- Created or loaded, and after any writes, accepted or refused, the store is in order. -/
theorem Reachable.inOrder (h : Reachable t) : InOrder t.entries := inOrder_of_sound h.sound

def after (t : Table) (ops : List (Operation × Readings)) : Table :=
  ops.foldl (fun t step => step.1.step step.2 t) t

theorem Reachable.after (h : Reachable t) (ops : List (Operation × Readings)) :
    Reachable (t.after ops) := by
  induction ops generalizing t with
  | nil => exact h
  | cons step ops ih => exact ih (h.step step.1 step.2)

/-- Entries of two rows, written backwards, one of them of a family that was deleted afterwards. -/
def threeEntries : Table :=
  (blank "t" [{ name := "f" }, { name := "g" }] (.ofRandom 7) .epoch).after
    [(.put "r2" "f" "q" "v", ⟨.epoch, .epoch⟩), (.put "r1" "g" "q" "v", ⟨.epoch, .epoch⟩),
      (.put "r1" "f" "q" "v", ⟨.epoch, .epoch⟩), (.deleteFamily "g", ⟨.epoch, .epoch⟩)]

theorem reachable_threeEntries : Reachable threeEntries :=
  (Reachable.created (create_eq_ok.mpr ⟨rfl, rfl⟩)).after _

theorem inOrder_threeEntries : Reachable threeEntries ∧ InOrder threeEntries.entries :=
  ⟨reachable_threeEntries, reachable_threeEntries.inOrder⟩

end WideColumn.Table
