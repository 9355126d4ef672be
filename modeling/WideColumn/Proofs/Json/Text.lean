import WideColumn.Json.Reader

/-! # Escaped texts read back

What a text is escaped to ends at the first bare quote after it, and its content is the text. -/
namespace WideColumn.Json

namespace Text

/-- A character stands for itself, or as a letter after a backslash, or as four digits. -/
theorem escapeChar_cases (c : Char) :
    (escapeChar c = [c] ∧ c ≠ '"' ∧ c ≠ '\\' ∧ ¬ c.toNat < 0x20) ∨
      (∃ d, escapeChar c = ['\\', d] ∧ d ≠ 'u' ∧ shortEscape? d = some c) ∨
      ∃ a b, escapeChar c = ['\\', 'u', '0', '0', a, b] ∧ unit? '0' '0' a b = some c.toNat ∧
        c.toNat < 0x20 := by
  have hunit : ∀ n < 0x20, unit? '0' '0' (hexDigit (n / 16)) (hexDigit (n % 16)) = some n := by
    decide
  by_cases h : c ∈ ['"', '\\', '\x08', '\x0c', '\n', '\r', '\t']
  · simp only [List.mem_cons, List.not_mem_nil, or_false] at h
    refine .inr (.inl ?_)
    rcases h with rfl | rfl | rfl | rfl | rfl | rfl | rfl <;> exact ⟨_, rfl, by decide, rfl⟩
  · simp only [List.mem_cons, List.not_mem_nil, or_false, not_or] at h
    obtain ⟨hquote, hslash, hb, hf, hn, hr, ht⟩ := h
    have hescape : escapeChar c = if c.toNat < 0x20 then
        ['\\', 'u', '0', '0', hexDigit (c.toNat / 16), hexDigit (c.toNat % 16)] else [c] := by
      simp [escapeChar, hquote, hslash, hb, hf, hn, hr, ht]
    by_cases hc : c.toNat < 0x20
    · exact .inr (.inr ⟨_, _, by rw [hescape, if_pos hc], hunit _ hc, hc⟩)
    · exact .inl ⟨by rw [hescape, if_neg hc], hquote, hslash, hc⟩

theorem escape_cons (c : Char) (cs : List Char) : escape (c :: cs) = escapeChar c ++ escape cs :=
  rfl

private theorem unescape_plain {c : Char} (hc : c ≠ '\\') (rest : List Char) :
    unescape (c :: rest) = (unescape rest).map (c :: ·) := by
  rw [unescape]
  · simp [hc]
  all_goals simp [hc]

private theorem unescape_letter {c d : Char} (hd : d ≠ 'u') (h : shortEscape? d = some c)
    (rest : List Char) : unescape ('\\' :: d :: rest) = (unescape rest).map (c :: ·) := by
  rw [unescape]
  · rw [h]
    cases unescape rest <;> rfl
  all_goals simp [hd]

/-- Four digits that denote no surrogate do not look at what follows them. -/
private theorem unescape_unit {a b c d : Char} {n : Nat} (h : unit? a b c d = some n)
    (hhigh : isHighSurrogate n = false) (hlow : isLowSurrogate n = false) (rest : List Char) :
    unescape ('\\' :: 'u' :: a :: b :: c :: d :: rest) =
      (unescape rest).map (Char.ofNat n :: ·) := by
  by_cases hpair : ∃ e f g h more, rest = '\\' :: 'u' :: e :: f :: g :: h :: more
  · obtain ⟨e, f, g, i, more, rfl⟩ := hpair
    rw [unescape, h, Option.bind_eq_bind, Option.bind_some, hhigh, hlow]
    cases unescape ('\\' :: 'u' :: e :: f :: g :: i :: more) <;> rfl
  · rw [unescape, h, Option.bind_eq_bind, Option.bind_some, hhigh, hlow]
    · cases unescape rest <;> rfl
    · exact fun e f g i more hrest => hpair ⟨e, f, g, i, more, hrest⟩

theorem unescape_escapeChar (c : Char) (rest : List Char) :
    unescape (escapeChar c ++ rest) = (unescape rest).map (c :: ·) := by
  rcases escapeChar_cases c with ⟨he, -, hslash, -⟩ | ⟨d, he, hd, hc⟩ | ⟨a, b, he, hunit, hc⟩
  · rw [he]
    exact unescape_plain hslash rest
  · rw [he]
    exact unescape_letter hd hc rest
  · have hhigh : isHighSurrogate c.toNat = false := by simp [isHighSurrogate]; omega
    have hlow : isLowSurrogate c.toNat = false := by simp [isLowSurrogate]; omega
    have hread := unescape_unit hunit hhigh hlow rest
    rw [Char.ofNat_toNat] at hread
    rw [he]
    exact hread

theorem unescape_escape (cs : List Char) : unescape (escape cs) = some cs := by
  induction cs with
  | nil => rfl
  | cons c cs ih => rw [escape_cons, unescape_escapeChar, ih, Option.map_some]

end Text

namespace Reader

private theorem rawText_plain {c : Char} (hquote : c ≠ '"') (hslash : c ≠ '\\')
    (hc : ¬ c.toNat < 0x20) (rest : List Char) :
    rawText (c :: rest) = (rawText rest).map fun p => (c :: p.1, p.2) := by
  rw [rawText]
  · simp [hslash, hc]
  all_goals simp [hquote, hslash]

private theorem rawText_letter {c d : Char} (hd : d ≠ 'u') (h : Text.shortEscape? d = some c)
    (rest : List Char) :
    rawText ('\\' :: d :: rest) = (rawText rest).map fun p => ('\\' :: d :: p.1, p.2) := by
  rw [rawText]
  · rw [h]
    cases rawText rest <;> rfl
  all_goals simp [hd]

private theorem rawText_unit {a b c d : Char} {n : Nat} (h : Text.unit? a b c d = some n)
    (rest : List Char) :
    rawText ('\\' :: 'u' :: a :: b :: c :: d :: rest) =
      (rawText rest).map fun p => ('\\' :: 'u' :: a :: b :: c :: d :: p.1, p.2) := by
  rw [rawText, h]
  cases rawText rest <;> rfl

theorem rawText_escapeChar (c : Char) (rest : List Char) :
    rawText (Text.escapeChar c ++ rest) = (rawText rest).map fun p =>
      (Text.escapeChar c ++ p.1, p.2) := by
  rcases Text.escapeChar_cases c
    with ⟨he, hquote, hslash, hc⟩ | ⟨d, he, hd, hc⟩ | ⟨a, b, he, hunit, -⟩
  · rw [he]
    exact rawText_plain hquote hslash hc rest
  · rw [he]
    exact rawText_letter hd hc rest
  · rw [he]
    exact rawText_unit hunit rest

theorem rawText_escape (cs rest : List Char) :
    rawText (Text.escape cs ++ '"' :: rest) = some (Text.escape cs, rest) := by
  induction cs with
  | nil => rfl
  | cons c cs ih => rw [Text.escape_cons, List.append_assoc, rawText_escapeChar, ih,
    Option.map_some]

end Reader

end WideColumn.Json
