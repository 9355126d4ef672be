import Mathlib.Data.List.TakeWhile
import WideColumn.Command.Writer
import WideColumn.Proofs.Sequence

/-! # Columns read back

The text of a column is read as that column: a family has no colon, so the first colon ends it. -/
namespace WideColumn

/-- No part is empty, and the family has no colon. -/
structure Column.WellFormed (c : Column) : Prop where
  family_ne : c.family ≠ ""
  no_colon : ':' ∉ c.family.toList
  qualifier_ne : c.qualifier ≠ some ""

instance (c : Column) : Decidable c.WellFormed :=
  decidable_of_iff (c.family ≠ "" ∧ ':' ∉ c.family.toList ∧ c.qualifier ≠ some "")
    ⟨fun h => ⟨h.1, h.2.1, h.2.2⟩, fun h => ⟨h.family_ne, h.no_colon, h.qualifier_ne⟩⟩

def CellColumn.WellFormed (c : CellColumn) : Prop := Column.WellFormed ⟨c.family, some c.qualifier⟩

instance (c : CellColumn) : Decidable c.WellFormed :=
  inferInstanceAs (Decidable (Column.WellFormed _))

namespace Column

variable {c : Column} {family qualifier : String}

theorem parse_family (hne : family ≠ "") (hcolon : ':' ∉ family.toList) :
    parse family = .ok ⟨family, none⟩ := by
  have hall : ∀ d ∈ family.toList, (d != ':') = true := fun d hd => bne_iff_ne.mpr fun h =>
    hcolon (h ▸ hd)
  rw [parse, List.takeWhile_eq_self_iff.mpr hall, List.dropWhile_eq_nil_iff.mpr hall,
    if_neg (by simpa [List.isEmpty_iff] using hne)]
  rfl

theorem parse_qualified (hne : family ≠ "") (hcolon : ':' ∉ family.toList) (hq : qualifier ≠ "") :
    parse (family ++ ":" ++ qualifier) = .ok ⟨family, some qualifier⟩ := by
  have hall : ∀ d ∈ family.toList, (d != ':') = true := fun d hd => bne_iff_ne.mpr fun h =>
    hcolon (h ▸ hd)
  have hlist : (family ++ ":" ++ qualifier).toList = family.toList ++ ':' :: qualifier.toList := by
    simp [String.toList_append]
  have hstop : ∀ d ∈ (':' :: qualifier.toList).head?, (d != ':') = false := by
    intro d hd
    cases hd
    rfl
  have hqualifier : qualifier.toList ≠ [] := by simpa using hq
  obtain ⟨d, ds, hds⟩ := List.exists_cons_of_ne_nil hqualifier
  rw [parse, hlist, takeWhile_append_of_stop hall hstop, dropWhile_append_of_stop hall hstop,
    if_neg (by simpa [List.isEmpty_iff] using hne), hds]
  dsimp only
  rw [← hds, String.ofList_toList, String.ofList_toList]
  rfl

/-- What is read as a column is well-formed. -/
theorem wellFormed_of_parse {text : String} (h : parse text = .ok c) : c.WellFormed := by
  have hcolon : ':' ∉ text.toList.takeWhile (· != ':') := fun hmem => by
    simpa using List.all_eq_true.mp List.all_takeWhile ':' hmem
  have hsplit := List.takeWhile_append_dropWhile (p := (· != ':')) (l := text.toList)
  rw [parse] at h
  by_cases hempty : (text.toList.takeWhile (· != ':')).isEmpty = true
  · rw [if_pos hempty] at h
    cases h
  · rw [if_neg hempty] at h
    rw [List.isEmpty_iff] at hempty
    split at h
    · next hrest =>
      cases h
      rw [hrest, List.append_nil] at hsplit
      rw [hsplit] at hcolon hempty
      exact ⟨by simpa using hempty, hcolon, (Option.some_ne_none "").symm⟩
    · cases h
    · next _ qualifier hqualifier _ =>
      cases h
      refine ⟨by simpa using hempty, by simpa using hcolon, fun hq => hqualifier ?_⟩
      simpa using hq

theorem parse_write (h : c.WellFormed) : parse c.write = .ok c := by
  obtain ⟨family, qualifier⟩ := c
  cases qualifier with
  | none => exact parse_family h.family_ne h.no_colon
  | some qualifier =>
    exact parse_qualified h.family_ne h.no_colon fun hq => h.qualifier_ne (congrArg some hq)

end Column

theorem CellColumn.parse_write {c : CellColumn} (h : c.WellFormed) :
    CellColumn.parse c.write = .ok c := by
  rw [CellColumn.parse, CellColumn.write, Column.parse_write h]
  rfl

theorem CellColumn.write_injective {c d : CellColumn} (hc : c.WellFormed) (hd : d.WellFormed)
    (h : c.write = d.write) : c = d := by
  have hread := CellColumn.parse_write hc
  rw [h, CellColumn.parse_write hd] at hread
  exact (Except.ok.inj hread).symm

theorem CellColumn.wellFormed_of_parse {c : CellColumn} {text : String}
    (h : CellColumn.parse text = .ok c) :
    c.WellFormed := by
  obtain ⟨⟨family, qualifier⟩, hcolumn, h⟩ := bind_eq_ok.mp h
  cases qualifier with
  | none => cases h
  | some qualifier =>
    cases h
    exact Column.wellFormed_of_parse hcolumn

end WideColumn
