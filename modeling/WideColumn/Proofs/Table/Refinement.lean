import WideColumn.Proofs.Table.History
import WideColumn.Proofs.Table.Plain
import WideColumn.Proofs.Table.Reachable

/-! # Ordered entries answer as the plain map does

One write to a table and the same write to the plain map that it represents give the same answer and
again a table and the map that it represents. -/
namespace WideColumn
open WideColumn.Schema WideColumn.Time

namespace History

/-- The values of a history without their times. -/
def values (h : History) : Values :=
  ⟨h.oldestFirst.map (·.value), by simp [h.oldestFirst_ne_nil]⟩

theorem values_extend (h : Option History) (now : Instant) (value : String) :
    (extend h now value).values = .extend (h.map values) value := by
  cases h with
  | none => rfl
  | some h => simp [extend, push, values, Values.extend, oldestFirst, newestFirst]

theorem length_values (h : History) : h.values.val.length = h.length := by
  rw [values, List.length_map, length_oldestFirst]

end History

namespace PlainTable

variable {cells : Finmap fun _ : CellPlace => Values} {k : CellPlace} {row : String}

theorem lookup_outside :
    (outside cells row).lookup k = if k.row = row then none else cells.lookup k := by
  apply Option.ext
  intro values
  rw [Finmap.lookup_eq_some_iff, outside, Multiset.mem_filter, ← Finmap.lookup_eq_some_iff]
  by_cases h : k.row = row <;> simp [h]

end PlainTable

namespace Table

/-- The plain map has the schema, the state and the values of the table. Its families are distinct
and its entries are in order. -/
structure Represents (t : Table) (p : PlainTable) : Prop where
  sound : Entries.Sound t.entries
  distinct : (t.families.map (·.name)).Nodup
  families : p.families = t.families
  disabled : p.disabled = t.disabled
  lookup : ∀ k : CellPlace, p.cells.lookup k =
    (Entries.find? t.entries k.row k.family k.qualifier).map History.values

/-- A write reports the answer of the map, or refuses as the map does. After an answer the map
represents the table again. -/
inductive Corresponds (op : Operation) :
    Except Fault (Option Nat × Table) → Except Fault (Option Nat × PlainTable) → Prop
  | answered {n : Option Nat} {t : Table} {p : PlainTable} (h : Represents t p) :
      Corresponds op (.ok (op.report n, t)) (.ok (n, p))
  | refused {e : Fault} : Corresponds op (.error e) (.error e)

theorem Corresponds.answered' {op : Operation} {n m : Option Nat} {t : Table} {p : PlainTable}
    (hn : n = op.report m) (h : Represents t p) : Corresponds op (.ok (n, t)) (.ok (m, p)) :=
  hn ▸ .answered h

variable {t : Table} {p : PlainTable} {r : Readings} {name row family qualifier value : String}
  {batch : Properties}

theorem Represents.has_eq (h : Represents t p) (family : String) :
    p.has family = (t.family? family).isSome := by
  rw [PlainTable.has, h.families, family?, Bool.eq_iff_iff, List.any_eq_true, List.find?_isSome]

theorem Represents.mem_keys (h : Represents t p) {k : CellPlace} : k ∈ p.cells.keys ↔
    ∃ e ∈ t.entries, e.row = k.row ∧ e.family = k.family ∧ k.qualifier ∈ e.cells.map (·.1) := by
  rw [Finmap.mem_keys, ← Finmap.lookup_isSome, h.lookup, Option.isSome_map]
  constructor
  · intro hk
    obtain ⟨x, hx⟩ := Option.isSome_iff_exists.mp hk
    obtain ⟨e, he, hrow, hfamily, hq⟩ := h.sound.ordered.mem_of_find? hx
    exact ⟨e, he, hrow, hfamily, List.mem_map.mpr ⟨_, KeyedList.mem_of_find? hq, rfl⟩⟩
  · intro h
    obtain ⟨e, he, hrow, hfamily, hq⟩ := h
    obtain ⟨⟨q, x⟩, hx, hqx⟩ := List.mem_map.mp hq
    have hfind := KeyedList.find?_of_mem (h.sound.ascending e he).nodup_keys hx
    rw [← hrow, ← hfamily, h.sound.ordered.find?_of_mem he, ← hqx, hfind]
    rfl

/-- Every entry has a cell in the map, because no entry is empty. -/
theorem Represents.exists_key (h : Represents t p) {e : Entry} (he : e ∈ t.entries) :
    ∃ q, (⟨e.row, e.family, q⟩ : CellPlace) ∈ p.cells.keys := by
  obtain ⟨c, hc⟩ := List.exists_mem_of_ne_nil _ (h.sound.ordered.2 e he)
  exact ⟨c.1, h.mem_keys.mpr ⟨e, he, rfl, rfl, List.mem_map.mpr ⟨c, hc, rfl⟩⟩⟩

theorem Represents.card_familiesIn (h : Represents t p) (row : String) :
    (p.familiesIn row).card = (Entries.ofRow t.entries row).length := by
  rw [h.sound.ordered.ofRow_eq]
  have hnodup : ((t.entries.filter fun e => e.row == row).map (·.family)).Nodup := by
    refine List.pairwise_map.mpr <|
      ((List.pairwise_map.mp (inOrder_of_sound h.sound).distinct).filter _).imp_of_mem ?_
    intro a b ha hb hab hfamily
    rw [List.mem_filter, beq_iff_eq] at ha hb
    exact hab (Prod.ext (ha.2.trans hb.2.symm) hfamily)
  have hset : p.familiesIn row =
      ((t.entries.filter fun e => e.row == row).map (·.family)).toFinset := by
    ext f
    simp only [PlainTable.familiesIn, Finset.mem_image, Finset.mem_filter, List.mem_toFinset,
      List.mem_map, List.mem_filter, beq_iff_eq]
    constructor
    · intro h
      obtain ⟨k, ⟨hk, hrow⟩, hf⟩ := h
      obtain ⟨e, he, herow, hefamily, -⟩ := h.mem_keys.mp hk
      exact ⟨e, ⟨he, herow.trans hrow⟩, hefamily.trans hf⟩
    · intro h
      obtain ⟨e, ⟨he, hrow⟩, hf⟩ := h
      obtain ⟨q, hq⟩ := h.exists_key he
      exact ⟨_, ⟨hq, hrow⟩, hf⟩
  rw [hset, List.toFinset_card_of_nodup hnodup, List.length_map]

theorem Represents.card_entries (h : Represents t p) : p.entries.card = t.recount.1 := by
  have hset : p.entries = (t.entries.map fun e => (e.row, e.family)).toFinset := by
    ext ⟨row, family⟩
    simp only [PlainTable.entries, Finset.mem_image, List.mem_toFinset, List.mem_map]
    constructor
    · intro h
      obtain ⟨k, hk, hkey⟩ := h
      obtain ⟨e, he, herow, hefamily, -⟩ := h.mem_keys.mp hk
      exact ⟨e, he, hkey ▸ Prod.ext herow hefamily⟩
    · intro h
      obtain ⟨e, he, hkey⟩ := h
      obtain ⟨q, hq⟩ := h.exists_key he
      exact ⟨_, hq, hkey⟩
  have hfilled : (t.entries.filter fun e => !e.cells.isEmpty) = t.entries :=
    List.filter_eq_self.mpr fun e he => by simp [h.sound.ordered.2 e he]
  rw [hset, List.toFinset_card_of_nodup (inOrder_of_sound h.sound).distinct, List.length_map,
    recount, hfilled]

theorem checkFamily_eq : t.checkFamily family =
    if (t.family? family).isSome then .ok () else .error (.noFamily family t.name) := by
  cases h : t.family? family <;>
    simp [checkFamily, needFamily, h, discard, Functor.discard, Functor.mapConst, Except.map]

/-- The map of a table whose entries alone have changed. -/
theorem Represents.withCells (h : Represents t p) {es : List Entry} {n : UInt64} {now : Instant}
    {cells : Finmap fun _ : CellPlace => Values} (hs : Entries.Sound es)
    (hl : ∀ k : CellPlace, cells.lookup k =
      (Entries.find? es k.row k.family k.qualifier).map History.values) :
    Represents ({ t with entries := es, rowCount := n }.touch now) { p with cells } where
  sound := hs
  distinct := h.distinct
  families := h.families
  disabled := h.disabled
  lookup := hl

/-- The map of a table whose families alone have changed. -/
theorem Represents.withFamilies (h : Represents t p) {families : List Family} (now : Instant)
    (hd : (families.map (·.name)).Nodup) :
    Represents ({ t with families }.touch now) { p with families } where
  sound := h.sound
  distinct := hd
  families := rfl
  disabled := h.disabled
  lookup := h.lookup

theorem Represents.withDisabled (h : Represents t p) {disabled : Bool} {now : Instant} :
    Represents ({ t with disabled }.touch now) { p with disabled } where
  sound := h.sound
  distinct := h.distinct
  families := h.families
  disabled := rfl
  lookup := h.lookup

private theorem place_eq_iff {k : CellPlace} :
    k = ⟨row, family, qualifier⟩ ↔ k.row = row ∧ k.family = family ∧ k.qualifier = qualifier := by
  rw [CellPlace.ext_iff]

theorem Represents.put_number (h : Represents t p) {now : Instant} :
    (Entries.put t.entries row family qualifier now value).2.1 =
      .ofNat (Values.extend (p.cells.lookup ⟨row, family, qualifier⟩) value).val.length := by
  rw [h.sound.ordered.put_number, History.count, ← History.length_values, History.values_extend,
    h.lookup]

theorem Represents.lookup_put (h : Represents t p) {now : Instant} (k : CellPlace) :
    (p.cells.insert ⟨row, family, qualifier⟩
      (.extend (p.cells.lookup ⟨row, family, qualifier⟩) value)).lookup k =
    (Entries.find? (Entries.put t.entries row family qualifier now value).1 k.row k.family
      k.qualifier).map History.values := by
  rw [h.sound.find?_put]
  by_cases hk : k = ⟨row, family, qualifier⟩
  · rw [if_pos (place_eq_iff.mp hk), hk, Finmap.lookup_insert, Option.map_some,
      History.values_extend, h.lookup]
  · rw [if_neg (mt place_eq_iff.mpr hk), Finmap.lookup_insert_of_ne _ hk, h.lookup]

theorem Represents.lookup_delete (h : Represents t p) (k : CellPlace) :
    (p.cells.erase ⟨row, family, qualifier⟩).lookup k =
    (Entries.find? (Entries.erase t.entries row family qualifier).1 k.row k.family
      k.qualifier).map History.values := by
  rw [h.sound.find?_erase]
  by_cases hk : k = ⟨row, family, qualifier⟩
  · rw [if_pos (place_eq_iff.mp hk), hk, Finmap.lookup_erase]
    rfl
  · rw [if_neg (mt place_eq_iff.mpr hk), Finmap.lookup_erase_ne hk, h.lookup]

theorem Represents.lookup_deleteRow (h : Represents t p) (k : CellPlace) :
    (PlainTable.outside p.cells row).lookup k =
    (Entries.find? (Entries.withoutRow t.entries row) k.row k.family k.qualifier).map
      History.values := by
  rw [h.sound.find?_withoutRow, PlainTable.lookup_outside, h.lookup]
  split <;> rfl

theorem Represents.disabled_iff (h : Represents t p) : p.disabled = true ↔ t.disabled = true := by
  rw [h.disabled]

private theorem corresponds_put (h : Represents t p) :
    Corresponds (.put row family qualifier value)
      (Operation.run r t (.put row family qualifier value))
      (p.run t.name (.put row family qualifier value)) := by
  have hhas := h.has_eq family
  simp only [Operation.run, Table.put, PlainTable.run, checkEnabled, checkFamily_eq,
    h.disabled_iff, hhas]
  by_cases hd : t.disabled = true
  · simp only [if_pos hd]
    exact .refused
  · simp only [if_neg hd]
    cases (t.family? family).isSome with
    | false => exact .refused
    | true =>
      exact .answered' (congrArg (fun n => some n.toNat) h.put_number)
        (h.withCells (h.sound.put row family qualifier r.version value) h.lookup_put)

private theorem corresponds_delete (h : Represents t p) :
    Corresponds (.delete row family qualifier) (Operation.run r t (.delete row family qualifier))
      (p.run t.name (.delete row family qualifier)) := by
  have hhas := h.has_eq family
  have hnone : (p.cells.lookup ⟨row, family, qualifier⟩).isNone =
      (Entries.find? t.entries row family qualifier).isNone := by
    rw [h.lookup, Option.isNone_map]
  simp only [Operation.run, Table.delete, PlainTable.run, checkEnabled, checkFamily_eq,
    h.disabled_iff, hhas, hnone]
  by_cases hd : t.disabled = true
  · simp only [if_pos hd]
    exact .refused
  · simp only [if_neg hd]
    cases (t.family? family).isSome with
    | false => exact .refused
    | true =>
      cases (Entries.find? t.entries row family qualifier).isNone with
      | true => exact .refused
      | false => exact .answered (h.withCells (h.sound.erase row family qualifier) h.lookup_delete)

private theorem corresponds_deleteRow (h : Represents t p) :
    Corresponds (.deleteRow row) (Operation.run r t (.deleteRow row))
      (p.run t.name (.deleteRow row)) := by
  simp only [Operation.run, Table.deleteRow, PlainTable.run, checkEnabled, h.disabled_iff]
  by_cases hd : t.disabled = true
  · simp only [if_pos hd]
    exact .refused
  · simp only [if_neg hd]
    exact .answered' (congrArg some (h.card_familiesIn row).symm)
      (h.withCells (h.sound.withoutRow row) h.lookup_deleteRow)

/-- Where names are distinct, the first family of a name is the only one. -/
theorem replaceOptions_eq_map {options : Options} {families : List Family}
    (h : (families.map (·.name)).Nodup) : replaceOptions name options families =
      families.map fun f => if f.name = name then { f with options } else f := by
  induction families with
  | nil => rfl
  | cons f rest ih =>
    obtain ⟨hf, hrest⟩ := List.nodup_cons.mp h
    rw [replaceOptions, List.map_cons, ih hrest]
    by_cases hn : f.name = name
    · rw [if_pos (beq_iff_eq.mpr hn), if_pos hn, map_ite_of_not_mem (hn ▸ hf)]
    · rw [if_neg (mt beq_iff_eq.mp hn), if_neg hn]

theorem nodup_append_family {families : List Family} {f : Family}
    (h : (families.map (·.name)).Nodup) (hf : families.find? (fun g => g.name == f.name) = none) :
    ((families ++ [f]).map (·.name)).Nodup := by
  rw [List.map_append, List.map_singleton]
  refine List.nodup_append.mpr ⟨h, List.nodup_singleton _, ?_⟩
  intro _ hg _ hn heq
  subst heq
  obtain ⟨g, hmem, rfl⟩ := List.mem_map.mp hg
  exact List.find?_eq_none.mp hf g hmem (beq_iff_eq.mpr (List.mem_singleton.mp hn))

private theorem corresponds_createFamily (h : Represents t p) :
    Corresponds (.createFamily family batch)
      (Operation.run r t (.createFamily family batch))
      (p.run t.name (.createFamily family batch)) := by
  have hhas := h.has_eq family
  have hempty : family.toList.isEmpty = true ↔ family = "" := by simp
  simp only [Operation.run, Table.createFamily, PlainTable.run, checkEnabled, checkFamilyName,
    h.disabled_iff, hhas, hempty, Family.ofProperties]
  by_cases hd : t.disabled = true
  · simp only [if_pos hd]
    exact .refused
  by_cases hn : family = ""
  · simp only [if_neg hd, if_pos hn]
    exact .refused
  by_cases hc : ':' ∈ family.toList
  · simp only [if_neg hd, if_neg hn, if_pos hc]
    exact .refused
  simp only [if_neg hd, if_neg hn, if_neg hc]
  cases hf : t.family? family with
  | some f => exact .refused
  | none =>
    cases Options.ofProperties batch with
    | error e => exact .refused
    | ok options =>
      have hdistinct := nodup_append_family (f := { name := family, options }) h.distinct hf
      rw [h.families]
      exact .answered (h.withFamilies r.done hdistinct)

private theorem corresponds_updateFamily (h : Represents t p) :
    Corresponds (.updateFamily family batch)
      (Operation.run r t (.updateFamily family batch))
      (p.run t.name (.updateFamily family batch)) := by
  simp only [Operation.run, Table.updateFamily, PlainTable.run, checkEnabled, needFamily,
    h.disabled_iff, h.families, family?]
  by_cases hd : t.disabled = true
  · simp only [if_pos hd]
    exact .refused
  simp only [if_neg hd]
  cases hf : t.families.find? fun f => f.name == family with
  | none => exact .refused
  | some f =>
    simp only [pure_bind]
    cases f.options.apply batch with
    | error e => exact .refused
    | ok options =>
      have hdistinct : ((t.families.map fun f => if f.name = family then { f with options }
        else f).map (·.name)).Nodup := by
        rw [names_map_ite (·.name) (fun f => { f with options }) t.families fun _ hf => hf]
        exact h.distinct
      have hafter := h.withFamilies r.done hdistinct
      rw [← replaceOptions_eq_map h.distinct] at hafter
      simp only [ok_bind, ← replaceOptions_eq_map h.distinct]
      exact .answered hafter

private theorem corresponds_deleteFamily (h : Represents t p) :
    Corresponds (.deleteFamily family) (Operation.run r t (.deleteFamily family))
      (p.run t.name (.deleteFamily family)) := by
  have hhas := h.has_eq family
  simp only [Operation.run, Table.deleteFamily, PlainTable.run, checkEnabled, checkFamily_eq,
    h.disabled_iff, hhas, h.families]
  by_cases hd : t.disabled = true
  · simp only [if_pos hd]
    exact .refused
  simp only [if_neg hd]
  cases (t.family? family).isSome with
  | false => exact .refused
  | true =>
    have hdistinct : ((t.families.filter fun f => f.name != family).map (·.name)).Nodup :=
      h.distinct.sublist (List.filter_sublist.map _)
    have hsame : (t.families.filter fun f => f.name ≠ family) =
        t.families.filter fun f => f.name != family :=
      List.filter_congr fun f _ => Bool.eq_iff_iff.mpr (by simp)
    rw [hsame]
    exact .answered (h.withFamilies r.done hdistinct)

private theorem corresponds_enable (h : Represents t p) :
    Corresponds .enable (Operation.run r t .enable) (p.run t.name .enable) := by
  cases hd : t.disabled with
  | true =>
    simp only [Operation.run, Table.enable, PlainTable.run, h.disabled, hd]
    exact .answered h.withDisabled
  | false =>
    simp only [Operation.run, Table.enable, PlainTable.run, h.disabled, hd]
    exact .refused

private theorem corresponds_disable (h : Represents t p) :
    Corresponds .disable (Operation.run r t .disable) (p.run t.name .disable) := by
  cases hd : t.disabled with
  | true =>
    simp only [Operation.run, Table.disable, PlainTable.run, h.disabled, hd]
    exact .refused
  | false =>
    simp only [Operation.run, Table.disable, PlainTable.run, h.disabled, hd]
    exact .answered h.withDisabled

private theorem corresponds_recount (h : Represents t p) :
    Corresponds .recount (Operation.run r t .recount) (p.run t.name .recount) :=
  .answered' (congrArg some h.card_entries.symm) ⟨h.sound, h.distinct, h.families, h.disabled,
    h.lookup⟩

/-- Every write answers as the same write to the map does, and leaves what the map is then. -/
theorem Represents.run (h : Represents t p) (op : Operation) :
    Corresponds op (op.run r t) (p.run t.name op) := by
  cases op with
  | put => exact corresponds_put h
  | delete => exact corresponds_delete h
  | deleteRow => exact corresponds_deleteRow h
  | createFamily => exact corresponds_createFamily h
  | updateFamily => exact corresponds_updateFamily h
  | deleteFamily => exact corresponds_deleteFamily h
  | enable => exact corresponds_enable h
  | disable => exact corresponds_disable h
  | recount => exact corresponds_recount h

end Table

end WideColumn
