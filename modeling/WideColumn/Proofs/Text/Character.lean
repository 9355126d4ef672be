import Mathlib.Data.List.TakeWhile
import WideColumn.Proofs.Sequence
import WideColumn.Text.Basic

/-! # Texts without blanks around them -/
namespace WideColumn.Text

variable {c : Char} {cs run rest : List Char}

/-- No visible character of ASCII is a blank. -/
theorem not_isBlank (h : 0x20 < c.toNat ∧ c.toNat < 0x7f) : isBlank c = false := by
  obtain ⟨hlow, hhigh⟩ := h
  simp only [isBlank, within, blankRanges]
  simp
  omega

theorem not_isBlank_of_isDigit (h : c.isDigit = true) : isBlank c = false := by
  have hc : 48 ≤ c.toNat ∧ c.toNat ≤ 57 := by
    simpa [Char.isDigit, UInt32.le_iff_toNat_le] using h
  exact not_isBlank (by omega)

theorem trimStart_cons (h : isBlank c = false) : trimStart (c :: cs) = c :: cs := by
  rw [trimStart, List.dropWhile_cons_of_neg (by simp [h])]

theorem trimStart_append (hne : run ≠ []) (hrun : ∀ c ∈ run, c.isDigit = true) :
    trimStart (run ++ rest) = run ++ rest := by
  obtain ⟨c, cs, rfl⟩ := List.exists_cons_of_ne_nil hne
  exact trimStart_cons (not_isBlank_of_isDigit (hrun c List.mem_cons_self))

theorem trimEnd_concat (h : isBlank c = false) : trimEnd (cs ++ [c]) = cs ++ [c] := by
  rw [trimEnd, List.reverse_append, List.reverse_singleton, List.singleton_append,
    List.dropWhile_cons_of_neg (by simp [h]), List.reverse_cons, List.reverse_reverse]

theorem trimEnd_blank (h : isBlank c = true) : trimEnd (cs ++ [c]) = trimEnd cs := by
  rw [trimEnd, List.reverse_append, List.reverse_singleton, List.singleton_append,
    List.dropWhile_cons_of_pos h, trimEnd]

/-- Nothing is left of a text exactly when it is blank. -/
theorem trim_eq_nil_iff : trim cs = [] ↔ ∀ c ∈ cs, isBlank c = true := by
  rw [trim, trimEnd, List.reverse_eq_nil_iff, List.dropWhile_eq_nil_iff]
  constructor
  · intro h
    have hstart : trimStart cs = [] := by
      cases hcs : trimStart cs with
      | nil => rfl
      | cons c rest =>
        -- the first character that is left is not blank
        have hc := List.head?_dropWhile_not isBlank cs
        rw [← trimStart, hcs] at hc
        have hblank := h c (by simp [hcs])
        exact absurd hblank (by simpa using hc)
    exact List.dropWhile_eq_nil_iff.mp hstart
  · intro h c hc
    exact h c ((List.dropWhile_suffix isBlank).mem (List.mem_reverse.mp hc))

/-- A text stays as it is when no blank stands first or last in it. -/
theorem trim_eq_self (hfirst : ∀ c ∈ cs.head?, isBlank c = false)
    (hlast : ∀ c ∈ cs.getLast?, isBlank c = false) :
    trim cs = cs := by
  have hstart : trimStart cs = cs := by
    cases cs with
    | nil => rfl
    | cons c cs => exact trimStart_cons (hfirst c rfl)
  rw [trim, hstart]
  cases hcs : cs.getLast? with
  | none =>
    rw [List.getLast?_eq_none_iff.mp hcs]
    rfl
  | some c =>
    obtain ⟨front, rfl⟩ := List.getLast?_eq_some_iff.mp hcs
    exact trimEnd_concat (hlast c hcs)

/-- Digits have no blanks around them. -/
theorem trim_digits (hrun : ∀ c ∈ run, c.isDigit = true) : trim run = run :=
  trim_eq_self (fun c hc => not_isBlank_of_isDigit (hrun c (List.mem_of_mem_head? hc)))
    fun c hc => not_isBlank_of_isDigit (hrun c (List.mem_of_mem_getLast? hc))

theorem not_isBlank_getLast?_trim : ∀ c ∈ (trim cs).getLast?, isBlank c = false := by
  rw [trim, trimEnd, List.getLast?_reverse]
  exact eq_false_of_mem_head?_dropWhile

theorem not_isBlank_head?_trim : ∀ c ∈ (trim cs).head?, isBlank c = false := by
  intro c hc
  -- what is dropped at the end does not change the first character
  have hprefix : trim cs <+: trimStart cs := by
    rw [trim, trimEnd, ← List.reverse_suffix, List.reverse_reverse]
    exact List.dropWhile_suffix isBlank
  obtain ⟨blanks, hblanks⟩ := hprefix
  have hstart : c ∈ (trimStart cs).head? := by
    rw [← hblanks, List.head?_append, hc, Option.some_or]
    exact Option.mem_some_self c
  exact eq_false_of_mem_head?_dropWhile c hstart

theorem mem_of_mem_trim (h : c ∈ trim cs) : c ∈ cs := by
  rw [trim, trimEnd, List.mem_reverse] at h
  have hstart := (List.dropWhile_suffix isBlank).mem h
  exact (List.dropWhile_suffix isBlank).mem (List.mem_reverse.mp hstart)

private theorem mem_dropWhile (h : c ∈ cs) (hc : isBlank c = false) : c ∈ cs.dropWhile isBlank := by
  rw [← List.takeWhile_append_dropWhile (p := isBlank) (l := cs), List.mem_append] at h
  refine h.resolve_left fun hfront => ?_
  exact absurd (List.mem_takeWhile_imp hfront) (by simp [hc])

/-- Nothing but blanks is dropped. -/
theorem mem_trim (h : c ∈ cs) (hc : isBlank c = false) : c ∈ trim cs := by
  rw [trim, trimEnd, List.mem_reverse]
  exact mem_dropWhile (List.mem_reverse.mpr (mem_dropWhile h hc)) hc

@[simp] theorem trim_trim (cs : List Char) : trim (trim cs) = trim cs :=
  trim_eq_self not_isBlank_head?_trim not_isBlank_getLast?_trim

/-- A digit has no case. -/
theorem toLower_of_isDigit (h : c.isDigit = true) : c.toLower = c := by
  have hc : c.val ≤ '9'.val := by
    simp only [Char.isDigit, Bool.and_eq_true, decide_eq_true_eq] at h
    exact h.2
  refine dif_neg fun hletter => ?_
  exact absurd (UInt32.le_trans hletter.1 hc) (by decide)

end WideColumn.Text
