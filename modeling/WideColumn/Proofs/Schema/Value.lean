import WideColumn.Proofs.Sequence
import WideColumn.Proofs.Text.Character
import WideColumn.Proofs.Text.Numeral
import WideColumn.Schema.Value

/-! # What the texts of values mean

A text that is read as a value means this value and no other, and the label of a value means the
value. -/
namespace WideColumn.Schema
open WideColumn.Text

/-- All values of the set are listed, no two of them have one label, and labels are in upper case
without blanks. -/
class LawfulChoice (α : Type) [Choice α] : Prop where
  mem_all : ∀ a : α, a ∈ Choice.all
  label_injective : ∀ a b : α, Choice.label a = Choice.label b → a = b
  raised_label : ∀ a : α, raised (trimmed (Choice.label a)) = (Choice.label a).toList

instance : LawfulChoice BlockEncoding where
  mem_all a := by cases a <;> decide
  label_injective a b := by cases a <;> cases b <;> decide
  raised_label a := by cases a <;> decide

instance : LawfulChoice BloomFilter where
  mem_all a := by cases a <;> decide
  label_injective a b := by cases a <;> cases b <;> decide
  raised_label a := by cases a <;> decide

instance : LawfulChoice Compression where
  mem_all a := by cases a <;> decide
  label_injective a b := by cases a <;> cases b <;> decide
  raised_label a := by cases a <;> decide

namespace Choice

variable {α : Type} [Choice α] [LawfulChoice α] {a : α} {text : String}

theorem ofLabel?_label (a : α) : ofLabel? (label a) = some a := by
  refine (find?_eq_some_iff_of_unique LawfulChoice.mem_all fun b c hb hc => ?_).mpr
    (beq_self_eq_true _)
  exact LawfulChoice.label_injective b c ((beq_iff_eq.mp hb).trans (beq_iff_eq.mp hc).symm)

theorem read?_eq_some_iff : read? text = some a ↔ raised text = (label a).toList := by
  rw [read?, find?_eq_some_iff_of_unique LawfulChoice.mem_all fun b c hb hc => ?_,
    beq_iff_eq, eq_comm]
  exact LawfulChoice.label_injective b c
    (String.toList_inj.mp ((beq_iff_eq.mp hb).trans (beq_iff_eq.mp hc).symm))

end Choice

variable {text : String} {n : UInt32} {b : Bool}

theorem readNumber?_eq_some_iff :
    readNumber? text = some n ↔ Numeral.Denotes text.toList n.toNat := by
  rw [readNumber?, Option.map_eq_some_iff]
  constructor
  · intro h
    obtain ⟨m, hm, rfl⟩ := h
    obtain ⟨hdenotes, hmax⟩ := Numeral.readUpTo_eq_some_iff.mp hm
    rwa [UInt32.toNat_ofNat_of_lt' (Nat.lt_succ_of_le hmax)]
  · intro h
    exact ⟨n.toNat, Numeral.readUpTo_eq_some_iff.mpr ⟨h, Nat.le_of_lt_succ n.toNat_lt⟩,
      UInt32.ofNat_toNat⟩

theorem readFlag?_eq_some_iff : readFlag? text = some b ↔ lowered text = (flagLabel b).toList := by
  have hne : (flagLabel true).toList ≠ (flagLabel false).toList := by decide
  rw [readFlag?]
  simp only [beq_iff_eq]
  split
  · next htrue =>
    rw [htrue]
    cases b <;> simp [hne]
  · next hother =>
    split
    · next hfalse =>
      rw [hfalse]
      cases b <;> simp [hne.symm]
    · next hother' => cases b <;> simp [hother, hother']

namespace Ttl

/-- What a text without blanks around it means as the life of a cell: `FOREVER` in any case, or a
number of seconds with or without its unit. -/
def Means (cs : List Char) : Ttl → Prop
  | forever => lowered (.ofList cs) = lowered "FOREVER"
  | seconds n => ∃ number,
    (cs = number ∨ cs = number ++ "SECONDS".toList ∨ cs = number ++ "seconds".toList) ∧
      Numeral.Denotes (trim number) n.toNat

section

variable {number cs : List Char} {m : Nat}

/-- What denotes a number has a digit, which no letter of a word is. -/
private theorem not_forever (h : Numeral.Denotes (trim number) m) (hcs : number ⊆ cs) :
    lowered (.ofList cs) ≠ lowered "FOREVER" := by
  obtain ⟨digits, htext, hne, hdigits, -⟩ := h
  obtain ⟨d, rest, rfl⟩ := List.exists_cons_of_ne_nil hne
  have hd := hdigits d List.mem_cons_self
  have hmem : d ∈ trim number := by
    rcases htext with htext | htext <;> rw [htext] <;> simp
  intro hforever
  have hlowered : d ∈ lowered (.ofList cs) := by
    rw [lowered, String.toList_ofList, ← toLower_of_isDigit hd]
    exact List.mem_map_of_mem (hcs (mem_of_mem_trim hmem))
  rw [hforever] at hlowered
  have hletters : ((lowered "FOREVER").all fun c => !c.isDigit) = true := by decide
  exact absurd hd (by simpa using List.all_eq_true.mp hletters d hlowered)

/-- What denotes a number does not end in a unit. -/
private theorem not_suffix {unit : List Char} (h : Numeral.Denotes (trim number) m) {c : Char}
    (hc : c ∈ unit) (hblank : isBlank c = false) (hsign : c ≠ '+') (hdigit : c.isDigit = false) :
    ¬unit <:+ number := by
  intro hsuffix
  have hmem := mem_trim (hsuffix.mem hc) hblank
  obtain ⟨digits, htext, -, hdigits, -⟩ := h
  have hc : c ∈ digits := by
    rcases htext with htext | htext
    · rwa [htext] at hmem
    · rw [htext] at hmem
      exact (List.mem_cons.mp hmem).resolve_left hsign
  exact absurd (hdigits c hc) (by simp [hdigit])

private theorem withoutUnit_of_denotes (h : Numeral.Denotes (trim number) m) :
    withoutUnit number = number := by
  have hupper : ¬"SECONDS".toList <:+ number :=
    not_suffix h (c := 'S') (by decide) (by decide) (by decide) (by decide)
  have hlower : ¬"seconds".toList <:+ number :=
    not_suffix h (c := 's') (by decide) (by decide) (by decide) (by decide)
  rw [withoutUnit, if_neg]
  simpa using ⟨hupper, hlower⟩

private theorem withoutUnit_append {unit : List Char}
    (hunit : unit = "SECONDS".toList ∨ unit = "seconds".toList) :
    withoutUnit (number ++ unit) = number := by
  have hsuffix : ("SECONDS".toList.isSuffixOf (number ++ unit) ||
      "seconds".toList.isSuffixOf (number ++ unit)) = true := by
    rw [Bool.or_eq_true, List.isSuffixOf_iff_suffix, List.isSuffixOf_iff_suffix]
    rcases hunit with rfl | rfl
    · exact .inl (List.suffix_append _ _)
    · exact .inr (List.suffix_append _ _)
  have hlength : unit.length = 7 := by
    rcases hunit with rfl | rfl <;> rfl
  rw [withoutUnit, if_pos hsuffix, List.length_append, hlength, Nat.add_sub_cancel, List.take_left]

private theorem eq_withoutUnit_append (cs : List Char) :
    cs = withoutUnit cs ∨ cs = withoutUnit cs ++ "SECONDS".toList ∨
    cs = withoutUnit cs ++ "seconds".toList := by
  by_cases hupper : "SECONDS".toList <:+ cs
  · obtain ⟨number, rfl⟩ := hupper
    rw [withoutUnit_append (.inl rfl)]
    exact .inr (.inl rfl)
  by_cases hlower : "seconds".toList <:+ cs
  · obtain ⟨number, rfl⟩ := hlower
    rw [withoutUnit_append (.inr rfl)]
    exact .inr (.inr rfl)
  · left
    rw [withoutUnit, if_neg]
    simpa using ⟨hupper, hlower⟩

end

theorem read?_eq_some_iff {text : String} {ttl : Ttl} :
    read? text = some ttl ↔ ttl.Means (trim text.toList) := by
  rw [read?]
  simp only [sameWord_iff]
  cases ttl with
  | forever =>
    by_cases hforever : lowered (.ofList (trim text.toList)) = lowered "FOREVER"
    · simp [Means, hforever]
    · simp [Means, hforever]
  | seconds n =>
    constructor
    · intro h
      split at h
      · cases h
      · obtain ⟨m, hm, heq⟩ := Option.map_eq_some_iff.mp h
        cases heq
        obtain ⟨hdenotes, hmax⟩ := Numeral.readUpTo_eq_some_iff.mp hm
        refine ⟨withoutUnit (trim text.toList), eq_withoutUnit_append _, ?_⟩
        rwa [UInt64.toNat_ofNat_of_lt' (Nat.lt_succ_of_le hmax)]
    · intro h
      obtain ⟨number, htext, hdenotes⟩ := h
      have hnumber : withoutUnit (trim text.toList) = number := by
        rcases htext with htext | htext | htext
        · rw [htext, withoutUnit_of_denotes hdenotes]
        · rw [htext, withoutUnit_append (.inl rfl)]
        · rw [htext, withoutUnit_append (.inr rfl)]
      have hsubset : number ⊆ trim text.toList := by
        rcases htext with htext | htext | htext <;> rw [htext] <;> simp
      have hmax : n.toNat ≤ Numeral.max64 := Nat.le_of_lt_succ n.toNat_lt
      rw [if_neg (not_forever hdenotes hsubset), hnumber,
        Numeral.readUpTo_eq_some_iff.mpr ⟨hdenotes, hmax⟩, Option.map_some, UInt64.ofNat_toNat]

theorem means_label (ttl : Ttl) : ttl.Means ttl.label.toList := by
  cases ttl with
  | forever => rfl
  | seconds n =>
    -- the blank before the unit does not count
    have hdigits : ∀ c ∈ Numeral.write n.toNat, c.isDigit = true :=
      fun _ => Numeral.isDigit_of_mem_write
    have htrim : trim (Numeral.write n.toNat ++ [' ']) = Numeral.write n.toNat := by
      have hwrite := trim_digits hdigits
      rw [trim, ← List.append_nil (Numeral.write n.toNat),
        trimStart_append (Numeral.write_ne_nil _) hdigits, List.append_nil] at hwrite
      rw [trim, trimStart_append (Numeral.write_ne_nil _) hdigits,
        trimEnd_blank (by decide), hwrite]
    refine ⟨Numeral.write n.toNat ++ [' '], .inr (.inl ?_), ?_⟩
    · rw [label, String.toList_ofList, List.append_assoc]
      rfl
    · rw [htrim]
      exact Numeral.denotes_write _

theorem trim_label (ttl : Ttl) : trim ttl.label.toList = ttl.label.toList := by
  cases ttl with
  | forever => decide
  | seconds n =>
    have hne := Numeral.write_ne_nil n.toNat
    rw [label, String.toList_ofList]
    refine trim_eq_self ?_ ?_
    · rw [List.head?_append, List.head?_eq_some_head hne, Option.some_or]
      intro c hc
      cases hc
      exact not_isBlank_of_isDigit (Numeral.isDigit_of_mem_write (List.head_mem hne))
    · intro c hc
      rw [List.getLast?_append] at hc
      cases hc
      decide

theorem read?_label (ttl : Ttl) : read? ttl.label = some ttl := by
  rw [read?_eq_some_iff, trim_label]
  exact means_label ttl

end Ttl

end WideColumn.Schema
