import WideColumn.Proofs.Table.Entries

/-! # What writes do to the store

A write replaces, adds or removes one entry at its place. The order of entries and of the cells in
them is kept, and the history of every other cell. -/
namespace WideColumn

/-- The history of a cell after a value is written to it, given the one before, if there was one. -/
def History.extend (h : Option History) (now : Time.Instant) (value : String) : History :=
  match h with
  | some h => h.push now value
  | none => .start now value

namespace Entries

open KeyedList (Ascending)

variable {es before after : List Entry} {e : Entry} {row family qualifier value : String}
  {now : Time.Instant}

/-- Ordered entries, each with its cells in order of their qualifiers. -/
structure Sound (es : List Entry) : Prop where
  ordered : Ordered es
  ascending : ∀ e ∈ es, Ascending e.cells

theorem sound_iff : Sound es ↔ es.Pairwise (fun a b => a.precedes b.row b.family = true) ∧
    ∀ e ∈ es, e.cells ≠ [] ∧ Ascending e.cells :=
  ⟨fun h => ⟨h.ordered.1, fun e he => ⟨h.ordered.2 e he, h.ascending e he⟩⟩,
    fun h => ⟨⟨h.1, fun e he => (h.2 e he).1⟩, fun e he => (h.2 e he).2⟩⟩

theorem Sound.nil : Sound [] := ⟨⟨.nil, by simp⟩, by simp⟩

theorem Sound.sublist {fs : List Entry} (h : Sound es) (hs : fs.Sublist es) : Sound fs :=
  ⟨⟨h.ordered.1.sublist hs, fun e he => h.ordered.2 e (hs.subset he)⟩,
    fun e he => h.ascending e (hs.subset he)⟩

theorem FoundAt.find?_eq (h : FoundAt es row family before e after) :
    find? es row family qualifier = e.cells.find? qualifier := by
  rw [find?]
  simp only [h.search_eq]
  simp [h.split]

theorem VacantAt.find?_eq (h : VacantAt es row family before after) :
    find? es row family qualifier = none := by
  simp [find?, h.search_eq]

private theorem modify_split (f : Entry → Entry) :
    (before ++ e :: after).modify before.length f = before ++ f e :: after := by
  induction before with
  | nil => rfl
  | cons a before ih => simpa using ih

private theorem insertIdx_split :
    (before ++ after).insertIdx before.length e = before ++ e :: after := by
  induction before with
  | nil => rfl
  | cons a before ih => simpa using ih

private theorem eraseIdx_split :
    (before ++ e :: after).eraseIdx before.length = before ++ after := by
  induction before with
  | nil => rfl
  | cons a before ih => simpa using ih

/-- The entry with a value written to one of its cells. -/
def written (e : Entry) (qualifier : String) (now : Time.Instant) (value : String) : Entry :=
  { e with cells := e.cells.insert qualifier (.extend (e.cells.find? qualifier) now value) }

/-- The entry without one of its cells. -/
def withoutCell (e : Entry) (qualifier : String) : Entry :=
  { e with cells := e.cells.erase qualifier }

theorem FoundAt.put_eq (h : FoundAt es row family before e after) :
    put es row family qualifier now value =
      (before ++ written e qualifier now value :: after,
        (History.extend (e.cells.find? qualifier) now value).count, false) := by
  rw [put]
  simp only [h.find?_eq, h.search_eq]
  rw [h.split, modify_split]
  rfl

theorem VacantAt.put_eq (h : VacantAt es row family before after) :
    put es row family qualifier now value =
      (before ++ ⟨row, family, [(qualifier, .start now value)]⟩ :: after, 1, true) := by
  rw [put]
  simp only [h.find?_eq, h.search_eq]
  rw [h.split, insertIdx_split]
  rfl

theorem FoundAt.erase_eq (h : FoundAt es row family before e after) :
    erase es row family qualifier =
      if e.cells.erase qualifier = [] then (before ++ after, true)
      else (before ++ withoutCell e qualifier :: after, false) := by
  have hget : es[before.length]? = some e := by simp [h.split]
  rw [erase]
  simp only [h.search_eq, hget, Option.map_some]
  rw [h.split, modify_split, eraseIdx_split]
  split
  · next hcells => rw [if_pos (Option.some.inj hcells)]
  · next hcells => rw [if_neg fun he => hcells (congrArg some he), withoutCell]

theorem VacantAt.erase_eq (h : VacantAt es row family before after) :
    erase es row family qualifier = (es, false) := by
  simp [erase, h.search_eq]

/-- Another entry may stand in the place of one of the same row and family. -/
theorem Sound.replace (h : Sound (before ++ e :: after)) {f : Entry} (hrow : f.row = e.row)
    (hfamily : f.family = e.family) (hf : f.cells ≠ [] ∧ Ascending f.cells) :
    Sound (before ++ f :: after) := by
  rw [sound_iff, List.pairwise_append, List.pairwise_cons, List.forall_mem_append,
    List.forall_mem_cons] at h ⊢
  obtain ⟨⟨hbefore, ⟨he, hafter⟩, hcross⟩, hcb, -, hca⟩ := h
  have hleft (b : Entry) : f.precedes b.row b.family = e.precedes b.row b.family := by
    simp [Entry.precedes, hrow, hfamily]
  refine ⟨⟨hbefore, ⟨fun b hb => (hleft b).trans (he b hb), hafter⟩, fun a ha => ?_⟩, hcb, hf, hca⟩
  obtain ⟨hae, hab⟩ := List.forall_mem_cons.mp (hcross a ha)
  exact List.forall_mem_cons.mpr ⟨hrow ▸ hfamily ▸ hae, hab⟩

/-- A new entry may stand where its place is. -/
theorem VacantAt.sound_insert (h : VacantAt es row family before after) (hs : Sound es) {f : Entry}
    (hrow : f.row = row) (hfamily : f.family = family) (hf : f.cells ≠ [] ∧ Ascending f.cells) :
    Sound (before ++ f :: after) := by
  rw [sound_iff, h.split, List.pairwise_append, List.forall_mem_append] at hs
  rw [sound_iff, List.pairwise_append, List.pairwise_cons, List.forall_mem_append,
    List.forall_mem_cons]
  obtain ⟨⟨hbefore, hafter, hcross⟩, hcb, hca⟩ := hs
  have hbehind : ∀ b ∈ after, f.precedes b.row b.family = true := fun b hb =>
    Entry.precedes_iff.mpr (hrow ▸ hfamily ▸ h.follow b hb)
  refine ⟨⟨hbefore, ⟨hbehind, hafter⟩, fun a ha => ?_⟩, hcb, hf, hca⟩
  exact List.forall_mem_cons.mpr ⟨hrow ▸ hfamily ▸ h.precede a ha, hcross a ha⟩

protected theorem Sound.put (h : Sound es) (row family qualifier : String) (now : Time.Instant)
    (value : String) : Sound (put es row family qualifier now value).1 := by
  rcases h.ordered.split row family with ⟨before, e, after, hf⟩ | ⟨before, after, hv⟩
  · rw [hf.put_eq]
    have hs : Sound (before ++ e :: after) := hf.split ▸ h
    have he : Ascending e.cells := hs.ascending e (by simp)
    exact hs.replace rfl rfl ⟨KeyedList.insert_ne_nil, he.insert⟩
  · rw [hv.put_eq]
    exact hv.sound_insert h rfl rfl ⟨by simp, List.pairwise_singleton _ _⟩

protected theorem Sound.erase (h : Sound es) (row family qualifier : String) :
    Sound (erase es row family qualifier).1 := by
  rcases h.ordered.split row family with ⟨before, e, after, hf⟩ | ⟨before, after, hv⟩
  · rw [hf.erase_eq]
    have hs : Sound (before ++ e :: after) := hf.split ▸ h
    split
    · exact hs.sublist ((List.sublist_cons_self e after).append_left before)
    · next hne => exact hs.replace rfl rfl ⟨hne, (hs.ascending e (by simp)).erase⟩
  · rw [hv.erase_eq]
    exact h

protected theorem Sound.withoutRow (h : Sound es) (row : String) : Sound (withoutRow es row) := by
  rw [h.ordered.withoutRow_eq]
  exact h.sublist List.filter_sublist

variable {r f q : String}

/-- In ordered entries a cell is looked up in the one entry of its place. -/
theorem Ordered.find?_eq (h : Ordered es) (row family qualifier : String) :
    find? es row family qualifier =
      (es.find? fun e => e.isAt row family).bind fun e => e.cells.find? qualifier := by
  rcases h.split row family with ⟨before, e, after, hf⟩ | ⟨before, after, hv⟩
  · have hbefore : before.find? (fun e => e.isAt row family) = none :=
      List.find?_eq_none.mpr fun a ha => by simp [Entry.not_isAt_of_precedes (hf.precede a ha)]
    rw [hf.find?_eq, hf.split, List.find?_append, hbefore, Option.none_or]
    simp [hf.isAt]
  · have hnone : es.find? (fun e => e.isAt row family) = none :=
      List.find?_eq_none.mpr fun a ha => by simp [hv.not_isAt ha]
    rw [hv.find?_eq, hnone, Option.bind_none]

theorem Ordered.mem_of_find? (h : Ordered es) {x : History}
    (hx : find? es row family qualifier = some x) :
    ∃ e ∈ es, e.row = row ∧ e.family = family ∧ e.cells.find? qualifier = some x := by
  rw [h.find?_eq] at hx
  obtain ⟨e, he, hx⟩ := Option.bind_eq_some_iff.mp hx
  have hat : e.isAt row family = true := by simpa using List.find?_some he
  obtain ⟨hrow, hfamily⟩ := Entry.isAt_iff.mp hat
  exact ⟨e, List.mem_of_find?_eq_some he, hrow, hfamily, hx⟩

theorem Ordered.find?_of_mem (h : Ordered es) (he : e ∈ es) :
    find? es e.row e.family qualifier = e.cells.find? qualifier := by
  rcases h.split e.row e.family with ⟨before, a, after, hf⟩ | ⟨before, after, hv⟩
  · obtain ⟨i, hi⟩ := List.getElem?_of_mem he
    have hindex := hf.index_eq hi (Entry.isAt_iff.mpr ⟨rfl, rfl⟩)
    rw [hindex, hf.split, List.getElem?_append_right (Nat.le_refl _), Nat.sub_self] at hi
    rw [hf.find?_eq, Option.some.inj hi]
  · simpa [Entry.isAt] using hv.not_isAt he

/-- Looking past the entry of another place. -/
private theorem find?_split_of_ne (hne : ¬ (r = row ∧ f = family)) (he : e.isAt row family = true) :
    (before ++ e :: after).find? (fun a => a.isAt r f) =
      (before ++ after).find? fun a => a.isAt r f := by
  obtain ⟨hrow, hfamily⟩ := Entry.isAt_iff.mp he
  have hnot : ¬ e.isAt r f = true := fun h =>
    hne ⟨(Entry.isAt_iff.mp h).1.symm.trans hrow, (Entry.isAt_iff.mp h).2.symm.trans hfamily⟩
  simp [List.find?_append, hnot]

private theorem find?_split_self (hb : ∀ a ∈ before, a.precedes row family = true)
    (he : e.isAt row family = true) :
    (before ++ e :: after).find? (fun a => a.isAt row family) = some e := by
  have hbefore : before.find? (fun e => e.isAt row family) = none :=
    List.find?_eq_none.mpr fun a ha => by simp [Entry.not_isAt_of_precedes (hb a ha)]
  simp [List.find?_append, hbefore, he]

/-- A written cell has its history extended, and every other cell the history it had. -/
theorem Sound.find?_put (h : Sound es) (row family qualifier : String) (now : Time.Instant)
    (value : String) :
    find? (put es row family qualifier now value).1 r f q =
      if r = row ∧ f = family ∧ q = qualifier then
        some (.extend (find? es row family qualifier) now value)
      else find? es r f q := by
  have hput := h.put row family qualifier now value
  rw [hput.ordered.find?_eq, h.ordered.find?_eq r]
  rcases h.ordered.split row family with ⟨before, e, after, hf⟩ | ⟨before, after, hv⟩
  · have hw : (written e qualifier now value).isAt row family = true := hf.isAt
    rw [hf.put_eq, hf.find?_eq, hf.split]
    by_cases hplace : r = row ∧ f = family
    · obtain ⟨rfl, rfl⟩ := hplace
      rw [find?_split_self hf.precede hw, find?_split_self hf.precede hf.isAt]
      simp only [written, Option.bind_some, KeyedList.find?_insert, true_and]
    · rw [find?_split_of_ne hplace hw, find?_split_of_ne hplace hf.isAt,
        if_neg fun hc => hplace ⟨hc.1, hc.2.1⟩]
  · have hw : (⟨row, family, [(qualifier, .start now value)]⟩ : Entry).isAt row family = true :=
      Entry.isAt_iff.mpr ⟨rfl, rfl⟩
    rw [hv.put_eq, hv.find?_eq, hv.split]
    by_cases hplace : r = row ∧ f = family
    · obtain ⟨rfl, rfl⟩ := hplace
      have hnone : (before ++ after).find? (fun a => a.isAt r f) = none :=
        List.find?_eq_none.mpr fun a ha => by simp [hv.not_isAt (hv.split ▸ ha)]
      rw [find?_split_self hv.precede hw, hnone]
      simp only [Option.bind_some, Option.bind_none, KeyedList.find?_cons, KeyedList.find?_nil,
        true_and, History.extend, eq_comm]
    · rw [find?_split_of_ne hplace hw, if_neg fun hc => hplace ⟨hc.1, hc.2.1⟩]

/-- The number of a written version is the new length of the history. -/
theorem Ordered.put_number (h : Ordered es) :
    (put es row family qualifier now value).2.1 =
      (History.extend (find? es row family qualifier) now value).count := by
  rcases h.split row family with ⟨before, e, after, hf⟩ | ⟨before, after, hv⟩
  · rw [hf.put_eq, hf.find?_eq]
  · rw [hv.put_eq, hv.find?_eq]
    rfl

/-- An erased cell has no history, and every other cell the history it had. -/
theorem Sound.find?_erase (h : Sound es) (row family qualifier : String) :
    find? (erase es row family qualifier).1 r f q =
      if r = row ∧ f = family ∧ q = qualifier then none else find? es r f q := by
  have herase := h.erase row family qualifier
  rw [herase.ordered.find?_eq, h.ordered.find?_eq]
  rcases h.ordered.split row family with ⟨before, e, after, hf⟩ | ⟨before, after, hv⟩
  · have hcell := KeyedList.find?_erase (k := qualifier) (j := q) (l := e.cells)
    have hw : (withoutCell e qualifier).isAt row family = true := hf.isAt
    rw [hf.erase_eq, hf.split]
    by_cases hplace : r = row ∧ f = family
    · obtain ⟨rfl, rfl⟩ := hplace
      rw [find?_split_self hf.precede hf.isAt]
      split
      · next hempty =>
        have hnone : (before ++ after).find? (fun a => a.isAt r f) = none := by
          refine List.find?_eq_none.mpr fun a ha => ?_
          rcases List.mem_append.mp ha with ha | ha
          · simp [Entry.not_isAt_of_precedes (hf.precede a ha)]
          · simp [(hf.follow a ha).not_isAt]
        rw [hempty, KeyedList.find?_nil] at hcell
        rw [hnone]
        simpa using hcell
      · rw [find?_split_self hf.precede hw]
        simpa [withoutCell] using hcell
    · have hc : ¬ (r = row ∧ f = family ∧ q = qualifier) := fun hc => hplace ⟨hc.1, hc.2.1⟩
      rw [find?_split_of_ne hplace hf.isAt, if_neg hc]
      split
      · rfl
      · rw [find?_split_of_ne hplace hw]
  · rw [hv.erase_eq, ← h.ordered.find?_eq]
    split
    · next hc =>
      obtain ⟨rfl, rfl, rfl⟩ := hc
      exact hv.find?_eq
    · rfl

/-- No cell of an erased row has a history, and every other cell the history it had. -/
theorem Sound.find?_withoutRow (h : Sound es) (row : String) :
    find? (withoutRow es row) r f q = if r = row then none else find? es r f q := by
  rw [(h.withoutRow row).ordered.find?_eq, h.ordered.find?_eq, h.ordered.withoutRow_eq,
    List.find?_filter]
  by_cases hr : r = row
  · rw [if_pos hr, Option.bind_eq_none_iff]
    intro e he
    have hat : (e.row != row) = true ∧ e.isAt r f = true := by simpa using List.find?_some he
    exact absurd ((Entry.isAt_iff.mp hat.2).1.trans hr) (bne_iff_ne.mp hat.1)
  · rw [if_neg hr]
    congr 2
    funext a
    by_cases ha : a.isAt r f = true
    · simp [ha, (Entry.isAt_iff.mp ha).1, hr]
    · simp [ha]

end Entries

end WideColumn
