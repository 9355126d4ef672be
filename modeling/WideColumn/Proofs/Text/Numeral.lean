import WideColumn.Text.Basic

/-! # Numerals read back

A written number is read as itself, with or without zeros in front. -/
namespace WideColumn.Text.Numeral

theorem isSome_digit? (c : Char) : (digit? c).isSome = c.isDigit := by
  simp only [digit?, Char.le_def]
  split
  · next h => simpa [Char.isDigit, ge_iff_le] using h
  · next h => simpa [Char.isDigit, ge_iff_le] using h

theorem digit?_of_isDigit {c : Char} (h : c.isDigit) : digit? c = some (c.toNat - '0'.toNat) := by
  rw [← isSome_digit?] at h
  rw [digit?] at h ⊢
  split at h
  · next hc => exact if_pos hc
  · cases h

private theorem foldlM_digits (cs : List Char) (n : Nat) (h : ∀ c ∈ cs, c.isDigit) :
    cs.foldlM (fun n c => (digit? c).map (n * 10 + ·)) n = some (Nat.ofDigitChars 10 cs n) := by
  induction cs generalizing n with
  | nil => rfl
  | cons c cs ih =>
    rw [List.foldlM_cons, digit?_of_isDigit (h c (by simp)), Nat.ofDigitChars_cons, Nat.mul_comm 10]
    exact ih _ fun d hd => h d (by simp [hd])

theorem read_of_isDigit {cs : List Char} (hne : cs ≠ []) (h : ∀ c ∈ cs, c.isDigit) :
    read cs = some (Nat.ofDigitChars 10 cs 0) := by
  rw [read, if_neg (by simpa using hne)]
  exact foldlM_digits cs 0 h

theorem write_ne_nil (n : Nat) : write n ≠ [] := Nat.toDigits_ne_nil

theorem isDigit_of_mem_write {n : Nat} {c : Char} (h : c ∈ write n) : c.isDigit :=
  Nat.isDigit_of_mem_toDigits (by decide) (by decide) h

/-- There are no leading zeros. -/
theorem head?_write_ne {n : Nat} (h : 0 < n) : (write n).head? ≠ some '0' := by
  induction n using Nat.strongRecOn with
  | ind n ih =>
    by_cases hn : n < 10
    · have hdigit : ∀ n < 10, 0 < n → [Nat.digitChar n].head? ≠ some '0' := by decide
      rw [write, Nat.toDigits_of_lt_base hn]
      exact hdigit n hn h
    · obtain ⟨c, cs, hcs⟩ := List.exists_cons_of_ne_nil (write_ne_nil (n / 10))
      have hne := ih (n / 10) (by omega) (by omega)
      rw [write] at hcs hne
      rw [write, Nat.toDigits_of_base_le (by decide) (by omega), hcs]
      rw [hcs] at hne
      exact hne

theorem read_write (n : Nat) : read (write n) = some n := by
  rw [read_of_isDigit (write_ne_nil n) fun c hc => isDigit_of_mem_write hc]
  simp [write]

theorem readUpTo_write {limit n : Nat} (h : n ≤ limit) : readUpTo limit (write n) = some n := by
  unfold readUpTo
  split
  · next rest hw =>
    -- a written number has no sign
    have hd := isDigit_of_mem_write (n := n) (c := '+') (by simp [hw])
    exact absurd hd (by decide)
  · rw [read_write, Option.filter_some, if_pos (by simpa using h)]

theorem le_of_readUpTo {limit n : Nat} {cs : List Char} (h : readUpTo limit cs = some n) :
    n ≤ limit :=
  of_decide_eq_true (Option.filter_eq_some_iff.mp h).2

private theorem isDigit_of_foldlM {cs : List Char} {m n : Nat}
    (h : cs.foldlM (fun n c => (digit? c).map (n * 10 + ·)) m = some n) : ∀ c ∈ cs, c.isDigit := by
  induction cs generalizing m with
  | nil => exact List.forall_mem_nil _
  | cons c cs ih =>
    obtain ⟨next, hc, hcs⟩ := Option.bind_eq_some_iff.mp h
    obtain ⟨d, hd, -⟩ := Option.map_eq_some_iff.mp hc
    have hdigit : c.isDigit = true := by rw [← isSome_digit?, hd, Option.isSome_some]
    exact List.forall_mem_cons.mpr ⟨hdigit, ih hcs⟩

theorem read_eq_some_iff {cs : List Char} {n : Nat} :
    read cs = some n ↔ cs ≠ [] ∧ (∀ c ∈ cs, c.isDigit) ∧ Nat.ofDigitChars 10 cs 0 = n := by
  constructor
  · intro h
    have hne : cs ≠ [] := by
      rintro rfl
      cases h
    have hdigits : ∀ c ∈ cs, c.isDigit := by
      rw [read, if_neg (by simpa using hne)] at h
      exact isDigit_of_foldlM h
    rw [read_of_isDigit hne hdigits] at h
    exact ⟨hne, hdigits, Option.some.inj h⟩
  · intro h
    obtain ⟨hne, hdigits, rfl⟩ := h
    exact read_of_isDigit hne hdigits

/-- A text denotes a number: at least one digit, perhaps behind a plus sign. -/
def Denotes (cs : List Char) (n : Nat) : Prop :=
  ∃ digits, (cs = digits ∨ cs = '+' :: digits) ∧ digits ≠ [] ∧ (∀ c ∈ digits, c.isDigit) ∧
    Nat.ofDigitChars 10 digits 0 = n

theorem readUpTo_eq_some_iff {limit n : Nat} {cs : List Char} :
    readUpTo limit cs = some n ↔ Denotes cs n ∧ n ≤ limit := by
  unfold readUpTo
  rw [Option.filter_eq_some_iff, decide_eq_true_iff]
  refine and_congr_left fun _ => ?_
  split
  · next rest =>
    rw [read_eq_some_iff]
    constructor
    · exact fun h => ⟨rest, .inr rfl, h⟩
    · intro h
      obtain ⟨digits, rfl | hsign, h⟩ := h
      · -- a sign is no digit
        exact absurd (h.2.1 '+' List.mem_cons_self) (by decide)
      · cases hsign
        exact h
  · next hsign =>
    rw [read_eq_some_iff]
    constructor
    · exact fun h => ⟨cs, .inl rfl, h⟩
    · intro h
      obtain ⟨digits, rfl | rfl, h⟩ := h
      · exact h
      · exact absurd rfl (hsign digits)

theorem Denotes.unique {cs : List Char} {m n : Nat} (hm : Denotes cs m) (hn : Denotes cs n) :
    m = n := by
  have hleft := readUpTo_eq_some_iff.mpr ⟨hm, Nat.le_max_left m n⟩
  have hright := readUpTo_eq_some_iff.mpr ⟨hn, Nat.le_max_right m n⟩
  exact Option.some.inj (hleft.symm.trans hright)

theorem denotes_write (n : Nat) : Denotes (write n) n :=
  (readUpTo_eq_some_iff.mp (readUpTo_write n.le_refl)).1

theorem padded_ne_nil (width n : Nat) : padded width n ≠ [] := by
  simp [padded, write_ne_nil]

theorem isDigit_of_mem_padded {width n : Nat} {c : Char} (h : c ∈ padded width n) : c.isDigit := by
  rcases List.mem_append.mp h with h | h
  · rw [List.eq_of_mem_replicate h]
    decide
  · exact isDigit_of_mem_write h

theorem read_padded (width n : Nat) : read (padded width n) = some n := by
  rw [read_of_isDigit (padded_ne_nil width n) fun c hc => isDigit_of_mem_padded hc]
  simp [padded, write, Nat.ofDigitChars_append]

/-- A number that fits is written with exactly that width. -/
theorem length_padded {width n : Nat} (hwidth : 0 < width) (h : n < Nat.pow 10 width) :
    (padded width n).length = width := by
  have hw : (write n).length ≤ width := (Nat.length_toDigits_le_iff (by decide) hwidth).mpr h
  simp only [padded, List.length_append, List.length_replicate]
  omega

end WideColumn.Text.Numeral
