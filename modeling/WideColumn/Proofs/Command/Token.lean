import WideColumn.Command.Writer
import WideColumn.Proofs.Command.Refusal
import WideColumn.Proofs.Text.Character

/-! # Tokens read back

A text in which tokens are written out, with blanks anywhere between them and none needed except
between two words, is cut into exactly these tokens. -/
namespace WideColumn.Token
open WideColumn.Text

variable {c : Char} {s : String} {cs ds rest content after : List Char} {t : Token}
  {ts : List Token}

theorem exists_of_within {ranges : List (Nat × Nat)} {n : Nat} (h : within ranges n = true) :
    ∃ r ∈ ranges, r.1 ≤ n ∧ n ≤ r.2 := by
  induction ranges with
  | nil => cases h
  | cons r ranges ih =>
    rw [within] at h
    split at h
    · cases h
    · next hlow =>
      rcases Bool.or_eq_true_iff.mp h with hhigh | h
      · exact ⟨r, List.mem_cons_self, Nat.le_of_not_lt hlow, of_decide_eq_true hhigh⟩
      · obtain ⟨r', hr', hn⟩ := ih h
        exact ⟨r', List.mem_cons_of_mem r hr', hn⟩

/-- No blank is a letter or a number. -/
private theorem not_alphanumeric_of_mem_blankRanges : ∀ r ∈ blankRanges, ∀ i < r.2 + 1 - r.1,
    (within Alphabetic.ranges (r.1 + i) || within Numeric.ranges (r.1 + i)) = false := by
  decide +kernel

theorem not_isBare_of_isBlank (h : isBlank c = true) : isBare c = false := by
  -- every blank lies in one of a few short ranges, whose members are compared with the letters and
  -- numbers
  obtain ⟨r, hr, hlow, hhigh⟩ := exists_of_within h
  have halpha := not_alphanumeric_of_mem_blankRanges r hr (c.toNat - r.1) (by omega)
  rw [Nat.add_sub_cancel' hlow] at halpha
  have hother : isAlphanumeric c = false := halpha
  have hne : c ≠ '_' ∧ c ≠ '.' ∧ c ≠ '-' ∧ c ≠ ':' := by
    refine ⟨?_, ?_, ?_, ?_⟩ <;> (rintro rfl; exact absurd h (by decide))
  simp [isBare, hother, hne]

theorem not_isBlank_of_isBare (h : isBare c = true) : isBlank c = false := by
  cases hblank : isBlank c with
  | false => rfl
  | true =>
    rw [not_isBare_of_isBlank hblank] at h
    cases h

theorem isBare_of_isDigit (h : c.isDigit = true) : isBare c = true := by
  have hc : 48 ≤ c.toNat ∧ c.toNat ≤ 57 := by
    simpa [Char.isDigit, UInt32.le_iff_toNat_le] using h
  have hall : ∀ i < 10, within Numeric.ranges (48 + i) = true := by decide +kernel
  have hnumeric := hall (c.toNat - 48) (by omega)
  rw [Nat.add_sub_cancel' hc.1] at hnumeric
  have hnum : isNumeric c = true := hnumeric
  simp [isBare, isAlphanumeric, hnum]

theorem unquote_escape : unquote (escape cs ++ '\'' :: rest) = some (cs, rest) := by
  induction cs with
  | nil => rfl
  | cons c cs ih =>
    rw [escape, List.flatMap_cons, ← escape]
    split
    · next hc =>
      rw [List.cons_append, List.cons_append, List.singleton_append, List.cons_append, unquote,
        if_pos hc, ih]
      rfl
    · next hc =>
      simp only [Bool.or_eq_true, beq_iff_eq, not_or] at hc
      rw [List.singleton_append, List.cons_append, unquote, if_neg (by simp [hc.1]), ih]
      · rfl
      · intro d ds hd
        exact absurd hd hc.2

theorem ofChars_blank (h : isBlank c = true) : ofChars (c :: cs) = ofChars cs := by
  rw [ofChars.eq_def]
  exact if_pos h

theorem ofChars_quote (h : unquote cs = some (content, after)) :
    ofChars ('\'' :: cs) = (.string (.ofList content) :: ·) <$> ofChars after := by
  have hblank : isBlank '\'' = false := not_isBlank (by decide)
  rw [ofChars.eq_def]
  dsimp only
  rw [if_neg (by simp [hblank]), if_neg (by decide), if_neg (by decide), if_neg (by decide),
    if_neg (by decide), if_pos (by decide)]
  split
  · next hnone =>
    rw [h] at hnone
    cases hnone
  · next hsome =>
    rw [h] at hsome
    cases hsome
    rfl

/-- A token that is no word is read whatever comes after it. -/
theorem ofChars_write (h : ∀ spelling, t ≠ .word spelling) :
    ofChars (t.write ++ cs) = (t :: ·) <$> ofChars cs := by
  cases t with
  | string content =>
    have hread : ofChars ('\'' :: (escape content.toList ++ '\'' :: cs)) = _ :=
      ofChars_quote unquote_escape
    rw [String.ofList_toList] at hread
    rw [write, quoted, List.append_assoc, List.singleton_append]
    exact hread
  | word spelling => exact absurd rfl (h spelling)
  | _ =>
    rw [ofChars.eq_def]
    rfl

/-- A word is read as far as it goes. -/
theorem ofChars_word (hne : ds ≠ []) (hds : ∀ d ∈ ds, isBare d = true)
    (hstop : ∀ d ∈ cs.head?, isBare d = false) :
    ofChars (ds ++ cs) = (.word (.ofList ds) :: ·) <$> ofChars cs := by
  obtain ⟨c, ds, rfl⟩ := List.exists_cons_of_ne_nil hne
  obtain ⟨hc, hds⟩ := List.forall_mem_cons.mp hds
  have hmark : c ≠ ',' ∧ c ≠ '\x7b' ∧ c ≠ '\x7d' ∧ c ≠ '=' ∧ c ≠ '\'' := by
    refine ⟨?_, ?_, ?_, ?_, ?_⟩ <;> (rintro rfl; exact absurd hc (by decide +kernel))
  rw [List.cons_append, ofChars.eq_def]
  dsimp only
  rw [takeWhile_append_of_stop hds hstop, dropWhile_append_of_stop hds hstop]
  simp only [not_isBlank_of_isBare hc, beq_eq_false_iff_ne.mpr, hmark, hc, ne_eq, not_false_eq_true]
  rfl

/-- A text that cannot be cut into tokens is an invalid argument. -/
theorem gives_ofChars (cs : List Char) : Gives (fun _ => True) (ofChars cs) := by
  fun_induction ofChars cs with
  | case1 => trivial
  | case2 _ _ _ ih => exact ih
  | case7 | case8 | case11 => exact rfl
  | case3 _ _ _ _ ih | case4 _ _ _ _ _ ih | case5 _ _ _ _ _ _ ih | case6 _ _ _ _ _ _ _ ih
  | case9 _ _ _ _ _ _ _ _ _ _ _ _ ih | case10 _ _ _ _ _ _ _ _ _ _ ih =>
    exact ih.bind fun _ _ => trivial

/-- A text does not go on with a character of words. -/
def Stops (cs : List Char) : Prop := ∀ c ∈ cs.head?, isBare c = false

theorem Stops.cons (h : isBare c = false) : Stops (c :: cs) := by
  intro d hd
  cases hd
  exact h

/-- `Written ts cs`: the text `cs` consists of the tokens `ts` and blanks. -/
inductive Written : List Token → List Char → Prop where
  | nil : Written [] []
  | blank {c : Char} {ts : List Token} {cs : List Char} (hc : isBlank c = true)
      (h : Written ts cs) :
      Written ts (c :: cs)
  | token {t : Token} {ts : List Token} {cs : List Char} (ht : ∀ spelling, t ≠ .word spelling)
      (h : Written ts cs) : Written (t :: ts) (t.write ++ cs)
  | word {s : String} {ts : List Token} {cs : List Char} (hne : s.toList ≠ [])
      (hs : ∀ c ∈ s.toList, isBare c = true) (hstop : Stops cs) (h : Written ts cs) :
      Written (.word s :: ts) (s.toList ++ cs)

namespace Written

/-- A text of tokens is cut into these tokens. -/
theorem ofChars_eq (h : Written ts cs) : ofChars cs = .ok ts := by
  induction h with
  | nil => rw [ofChars.eq_def]; rfl
  | blank hc _ ih => rw [ofChars_blank hc, ih]
  | token ht _ ih => rw [ofChars_write ht, ih]; rfl
  | word hne hs hstop _ ih => rw [ofChars_word hne hs hstop, ih, String.ofList_toList]; rfl

theorem blanks (h : ∀ c ∈ cs, isBlank c = true) (hw : Written ts ds) : Written ts (cs ++ ds) := by
  induction cs with
  | nil => exact hw
  | cons c cs ih =>
    obtain ⟨hc, hcs⟩ := List.forall_mem_cons.mp h
    exact .blank hc (ih hcs)

end Written

end WideColumn.Token
