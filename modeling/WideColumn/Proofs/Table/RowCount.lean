import Mathlib.Data.Finset.Card
import Mathlib.Data.Finset.Dedup
import Mathlib.Data.Fintype.EquivFin
import WideColumn.Proofs.Table.Reachable
import WideColumn.Proofs.Table.StoredEntries
import WideColumn.Table.Read

/-! # The stored count of entries

The count goes up with every entry that a write adds and down with every entry that it removes. So
it stays as far from the number of entries as it was at first, until it is made anew. -/
namespace WideColumn

namespace Entries

variable {es : List Entry}

theorem Ordered.length_put (h : Ordered es) (row family qualifier : String) (now : Time.Instant)
    (value : String) : (put es row family qualifier now value).1.length =
      if (put es row family qualifier now value).2.2 then es.length + 1 else es.length := by
  rcases h.split row family with ⟨before, e, after, hf⟩ | ⟨before, after, hv⟩
  · rw [hf.put_eq, hf.split]
    simp
  · rw [hv.put_eq, hv.split]
    simp only [List.length_append, List.length_cons, if_true]
    omega

theorem Ordered.length_erase (h : Ordered es) (row family qualifier : String) : es.length =
    if (erase es row family qualifier).2 then (erase es row family qualifier).1.length + 1
    else (erase es row family qualifier).1.length := by
  rcases h.split row family with ⟨before, e, after, hf⟩ | ⟨before, after, hv⟩
  · rw [hf.erase_eq, hf.split]
    split
    · simp only [List.length_append, List.length_cons, if_true]
      omega
    · simp
  · simp [hv.erase_eq]

theorem Ordered.length_withoutRow (h : Ordered es) (row : String) :
    es.length = (withoutRow es row).length + (ofRow es row).length := by
  obtain ⟨before, inside, after, hs⟩ := h.rowSplit row
  rw [hs.withoutRow_eq, hs.ofRow_eq, hs.split]
  simp only [List.length_append]
  omega

end Entries

namespace Table
open WideColumn.Time WideColumn.Schema

variable {t t' : Table} {d : Nat} {r : Readings} {op : Operation} {n : Option Nat}

/-- The rows and families that have a cell, whether or not the schema still has the family. -/
def rowFamilies (t : Table) : Finset (String × String) :=
  ((t.entries.filter fun e => !e.cells.isEmpty).map fun e => (e.row, e.family)).toFinset

/-- The stored count is the number of entries and `d` more. -/
def Exceeds (t : Table) (d : Nat) : Prop := t.rowCount.toNat = t.entries.length + d

/-- How many entries a write takes off the count. -/
def Operation.removed (t : Table) : Operation → Nat
  | delete row family qualifier => if (Entries.erase t.entries row family qualifier).2 then 1 else 0
  | deleteRow row => (Entries.ofRow t.entries row).length
  | _ => 0

theorem filter_filled (h : Entries.Sound t.entries) :
    (t.entries.filter fun e => !e.cells.isEmpty) = t.entries :=
  List.filter_eq_self.mpr fun e he => by simp [h.ordered.2 e he]

/-- No two entries share row and family, so there are as many pairs as entries. -/
theorem card_rowFamilies (h : Entries.Sound t.entries) : t.rowFamilies.card = t.entries.length := by
  rw [rowFamilies, filter_filled h, List.toFinset_card_of_nodup (inOrder_of_sound h).distinct,
    List.length_map]

theorem recount_eq (h : Entries.Sound t.entries) :
    t.recount = (t.entries.length, { t with rowCount := .ofNat t.entries.length }) := by
  rw [recount, filter_filled h]

theorem toNat_lessRows (count : UInt64) (n : Nat) : (lessRows count n).toNat = count.toNat - n := by
  rw [lessRows, UInt64.toNat_ofNat']
  exact Nat.mod_eq_of_lt (Nat.lt_of_le_of_lt (Nat.sub_le _ _) count.toNat_lt)

/-- A write takes away entries that are there. -/
theorem removed_le (h : Entries.Sound t.entries) (op : Operation) :
    op.removed t ≤ t.entries.length := by
  cases op with
  | delete row family qualifier =>
    have hlength := h.ordered.length_erase row family qualifier
    simp only [Operation.removed]
    split at hlength <;> simp_all
  | deleteRow row =>
    rw [Operation.removed, h.ordered.length_withoutRow row]
    exact Nat.le_add_left _ _
  | _ => exact Nat.zero_le _

theorem exceeds_put {row family qualifier value : String} {m : UInt32}
    (hs : Entries.Sound t.entries) (h : t.Exceeds d) (hfit : t'.entries.length + d < UInt64.size)
    (hrun : t.put r row family qualifier value = .ok (m, t')) : t'.Exceeds d := by
  obtain ⟨-, -, -, rfl⟩ := put_eq_ok.mp hrun
  have hlength := hs.ordered.length_put row family qualifier r.version value
  simp only [Exceeds, touch] at h hfit ⊢
  cases hnew : (Entries.put t.entries row family qualifier r.version value).2.2 with
  | false =>
    rw [hnew] at hlength
    simp only [Bool.false_eq_true, if_false] at hlength ⊢
    rw [h, hlength]
  | true =>
    rw [hnew] at hlength
    simp only [if_true] at hlength ⊢
    rw [hlength, UInt64.size] at hfit
    rw [hlength, UInt64.toNat_add, h, UInt64.toNat_one]
    omega

theorem exceeds_delete {row family qualifier : String} (hs : Entries.Sound t.entries)
    (h : t.Exceeds d) (hrun : t.delete r row family qualifier = .ok t') : t'.Exceeds d := by
  obtain ⟨-, -, -, rfl⟩ := delete_eq_ok.mp hrun
  have hlength := hs.ordered.length_erase row family qualifier
  simp only [Exceeds, touch] at h ⊢
  cases hgone : (Entries.erase t.entries row family qualifier).2 with
  | false =>
    rw [hgone] at hlength
    simp only [Bool.false_eq_true, if_false] at hlength ⊢
    rw [h, hlength]
  | true =>
    rw [hgone] at hlength
    simp only [if_true] at hlength ⊢
    rw [toNat_lessRows]
    omega

theorem exceeds_deleteRow {row : String} {m : Nat} (hs : Entries.Sound t.entries) (h : t.Exceeds d)
    (hrun : t.deleteRow r row = .ok (m, t')) : t'.Exceeds d := by
  obtain ⟨-, -, rfl⟩ := deleteRow_eq_ok.mp hrun
  have hlength := hs.ordered.length_withoutRow row
  simp only [Exceeds, touch] at h ⊢
  rw [toNat_lessRows]
  omega

theorem exceeds_recount (hs : Entries.Sound t.entries) (hfit : t.entries.length < UInt64.size) :
    t.recount.2.Exceeds 0 := by
  rw [recount_eq hs, Exceeds, UInt64.toNat_ofNat']
  exact Nat.mod_eq_of_lt hfit

/-- A write keeps the excess of the count. Only counting anew removes an excess. -/
theorem exceeds_run (hs : Entries.Sound t.entries) (h : t.Exceeds d) (hop : d = 0 ∨ op ≠ .recount)
    (hfit : t'.entries.length + d < UInt64.size) (hrun : op.run r t = .ok (n, t')) :
    t'.Exceeds d := by
  cases Operation.effect_of_run hrun with
  | put hput => exact exceeds_put hs h hfit hput
  | delete hdelete => exact exceeds_delete hs h hdelete
  | deleteRow hdelete => exact exceeds_deleteRow hs h hdelete
  | createFamily hcreate =>
    obtain ⟨-, -, -, -, -, rfl⟩ := createFamily_eq_ok.mp hcreate
    exact h
  | updateFamily hupdate =>
    obtain ⟨-, -, -, -, -, rfl⟩ := updateFamily_eq_ok.mp hupdate
    exact h
  | deleteFamily hdelete =>
    obtain ⟨-, -, rfl⟩ := deleteFamily_eq_ok.mp hdelete
    exact h
  | enable henable =>
    obtain ⟨-, rfl⟩ := enable_eq_ok.mp henable
    exact h
  | disable hdisable =>
    obtain ⟨-, rfl⟩ := disable_eq_ok.mp hdisable
    exact h
  | recount hcount =>
    cases hcount
    obtain rfl : d = 0 := hop.resolve_right fun hne => hne rfl
    exact exceeds_recount hs hfit

theorem exceeds_step (hs : Entries.Sound t.entries) (h : t.Exceeds d) (hop : d = 0 ∨ op ≠ .recount)
    (hfit : (op.step r t).entries.length + d < UInt64.size) : (op.step r t).Exceeds d := by
  rw [Operation.step] at hfit ⊢
  split at hfit
  · next hrun => exact exceeds_run hs h hop hfit hrun
  · exact h

theorem exceeds_after {ops : List (Operation × Readings)} (hs : Entries.Sound t.entries)
    (h : t.Exceeds d) (hops : d = 0 ∨ ∀ step ∈ ops, step.1 ≠ .recount)
    (hfit : ∀ before, before <+: ops → (t.after before).entries.length + d < UInt64.size) :
    (t.after ops).Exceeds d := by
  induction ops generalizing t with
  | nil => exact h
  | cons step ops ih =>
    have hfirst : d = 0 ∨ step.1 ≠ .recount := hops.imp_right fun hall =>
      hall step List.mem_cons_self
    have hrest : d = 0 ∨ ∀ s ∈ ops, s.1 ≠ .recount :=
      hops.imp_right fun hall s hmem => hall s (List.mem_cons_of_mem step hmem)
    have hstep : (step.1.step step.2 t).Exceeds d :=
      exceeds_step hs h hfirst (hfit [step] (List.cons_prefix_cons.mpr ⟨rfl, List.nil_prefix⟩))
    exact ih (Operation.sound_step hs) hstep hrest fun before hbefore =>
      hfit (step :: before) (List.cons_prefix_cons.mpr ⟨rfl, hbefore⟩)

/-- Tables whose stored count is known to be the number of their entries and `d` more. -/
inductive Counted : Table → Nat → Prop where
  | created {name : String} {families : List Family} {id : Uuid} {now : Instant} {t : Table}
      (h : create name families id now = .ok t) : Counted t 0
  | loaded {path text : String} {t : Table} {d : Nat} (h : load path text = .ok t)
      (hd : t.rowCount.toNat = t.entries.length + d) : Counted t d
  | recounted {t : Table} (h : Reachable t) (hfit : t.entries.length < UInt64.size) :
      Counted t.recount.2 0

theorem Counted.reachable (h : Counted t d) : Reachable t := by
  cases h with
  | created h => exact .created h
  | loaded h => exact .loaded h
  | recounted h => exact h.step .recount ⟨.epoch, .epoch⟩

theorem Counted.exceeds (h : Counted t d) : t.Exceeds d := by
  cases h with
  | created h =>
    obtain ⟨-, rfl⟩ := create_eq_ok.mp h
    rfl
  | loaded _ hd => exact hd
  | recounted h hfit => exact exceeds_recount h.sound hfit

/-- As long as the count fits, it is the number of rows and families that have a cell, and the
excess that it began with. To count anew gives that number without the excess. To subtract what a
write removes never goes below zero: adding it again gives the count from before. -/
theorem Counted.rowCount_after (h : Counted t d) (ops : List (Operation × Readings))
    (hops : d = 0 ∨ ∀ step ∈ ops, step.1 ≠ .recount)
    (hfit : ∀ before, before <+: ops → (t.after before).entries.length + d < UInt64.size) :
    (t.after ops).rowCount.toNat = (t.after ops).rowFamilies.card + d ∧
      (t.after ops).recount.1 = (t.after ops).rowFamilies.card ∧
      ((t.after ops).disabled = false → (t.after ops).count = .ok (t.after ops).rowCount) ∧
      ∀ op : Operation, (lessRows (t.after ops).rowCount (op.removed (t.after ops))).toNat +
        op.removed (t.after ops) = (t.after ops).rowCount.toNat := by
  have hs : Entries.Sound (t.after ops).entries := (h.reachable.after ops).sound
  have hafter : (t.after ops).Exceeds d := exceeds_after h.reachable.sound h.exceeds hops hfit
  rw [card_rowFamilies hs, recount_eq hs]
  refine ⟨hafter, rfl, fun hd => ?_, fun op => ?_⟩
  · simp [count, checkEnabled, hd]
  · have hremoved := removed_le hs op
    rw [toNat_lessRows]
    rw [Exceeds] at hafter
    omega

/-- A table whose file says that it has one more entry than it has. -/
def overcounted : Table := { threeEntries with rowCount := 4 }

/-- A cell is added to an entry, and the entries of its row are removed. -/
def twoWrites : List (Operation × Readings) :=
  [(.put "r1" "f" "p" "v", ⟨.epoch, .epoch⟩), (.deleteRow "r1", ⟨.epoch, .epoch⟩)]

theorem rowCount_after_twoWrites : Counted overcounted 1 ∧
    (overcounted.after twoWrites).rowCount.toNat = (overcounted.after twoWrites).rowFamilies.card +
      1 := by
  have hstorable : Document.Storable overcounted.entries := by
    rw [Document.Storable]
    decide
  have hload : load "t.json" overcounted.encode = .ok overcounted :=
    load_eq_ok.mpr ⟨decode_encode_of_sound reachable_threeEntries.sound hstorable, rfl⟩
  have hcounted : Counted overcounted 1 := .loaded hload rfl
  have hkept : ∀ step ∈ twoWrites, step.1 ≠ .recount := by simp [twoWrites]
  refine ⟨hcounted, (hcounted.rowCount_after _ (.inr hkept) ?_).1⟩
  simp only [← List.mem_inits]
  decide

end Table

end WideColumn
