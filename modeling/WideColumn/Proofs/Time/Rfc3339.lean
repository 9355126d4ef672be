import WideColumn.Proofs.Sequence
import WideColumn.Proofs.Text.Character
import WideColumn.Proofs.Text.Numeral
import WideColumn.Time.Rfc3339

/-! # Written instants read back

Every part of an instant is written with digits that end where the next part begins, so each step of
the reader takes exactly what one step of the writer gave. -/
namespace WideColumn.Time.Rfc3339
open WideColumn.Text

variable {c : Char} {cs rest run : List Char} {most n : Nat}

theorem skip_cons (h : isBlank c = false) : skip c (c :: rest) = some rest := by
  rw [skip, trimStart_cons h]
  simp

/-- Digits are read up to the most that are taken, or up to a character that is none. -/
theorem readDigits_append (hrun : ∀ c ∈ run, c.isDigit = true) (hread : Numeral.read run = some n)
    (hmost : run.length ≤ most) (hstop : run.length = most ∨ ∀ c ∈ rest.head?, c.isDigit = false) :
    readDigits most (run ++ rest) = some (n, rest) := by
  have hrun : ∀ c ∈ run, (Numeral.digit? c).isSome = true := fun c hc => by
    rw [Numeral.isSome_digit?, hrun c hc]
  have hrest : (rest.take (most - run.length)).takeWhile (fun c => (Numeral.digit? c).isSome) =
      [] := by
    rcases hstop with hall | hstop
    · rw [hall, Nat.sub_self]
      rfl
    · cases most - run.length with
      | zero => rfl
      | succ k =>
        cases rest with
        | nil => rfl
        | cons c rest =>
          rw [List.take_succ_cons, List.takeWhile_cons_of_neg]
          rw [Numeral.isSome_digit?, hstop c rfl]
          exact Bool.false_ne_true
  have htake : ((run ++ rest).take most).takeWhile (fun c => (Numeral.digit? c).isSome) = run := by
    rw [List.take_append, List.take_of_length_le hmost, List.takeWhile_append_of_pos hrun, hrest,
      List.append_nil]
  simp only [readDigits, htake, hread, List.drop_left, Option.map_some]

theorem readDigits_padded {width : Nat} (hwidth : 0 < width) (h : n < Nat.pow 10 width) :
    readDigits width (Numeral.padded width n ++ rest) = some (n, rest) :=
  readDigits_append (fun _ => Numeral.isDigit_of_mem_padded) (Numeral.read_padded width n)
    (Nat.le_of_eq (Numeral.length_padded hwidth h)) (.inl (Numeral.length_padded hwidth h))

/-- Two digits at the front, as all parts but years and fractions have them. -/
theorem readField_padded (h : n < 100) (rest : List Char) :
    readField 2 (Numeral.padded 2 n ++ rest) = some (n, rest) := by
  rw [readField, trimStart_append (Numeral.padded_ne_nil 2 n) fun _ =>
    Numeral.isDigit_of_mem_padded, readDigits_padded (by decide) h]

theorem length_padded_four {year : Int} (h : 0 ≤ year ∧ year ≤ 9999) :
    (Numeral.padded 4 year.toNat).length = 4 := by
  apply Numeral.length_padded (by decide)
  change year.toNat < 10000
  omega

private theorem isDigit_head_padded {width n : Nat} {c : Char} {cs rest : List Char}
    (h : Numeral.padded width n ++ rest = c :: cs) : c.isDigit = true := by
  obtain ⟨d, ds, hds⟩ := List.exists_cons_of_ne_nil (Numeral.padded_ne_nil width n)
  rw [hds, List.cons_append, List.cons.injEq] at h
  have hmem : d ∈ Numeral.padded width n := by simp [hds]
  exact h.1 ▸ Numeral.isDigit_of_mem_padded hmem

theorem readYear_writeYear (year : Int) (rest : List Char) :
    readYear (writeYear year ++ '-' :: rest) = some (year, '-' :: rest) := by
  have hdigits (n : Nat) : ∀ c ∈ Numeral.padded 4 n, c.isDigit = true :=
    fun _ => Numeral.isDigit_of_mem_padded
  have hsigned (n : Nat) : readDigits (Numeral.padded 4 n ++ '-' :: rest).length
      (Numeral.padded 4 n ++ '-' :: rest) = some (n, '-' :: rest) :=
    readDigits_append (hdigits n) (Numeral.read_padded 4 n) (by simp) (.inr (by rintro c ⟨⟩; rfl))
  rw [writeYear]
  split
  · next h =>
    have hread : readDigits 4 (Numeral.padded 4 year.toNat ++ '-' :: rest) =
        some (year.toNat, '-' :: rest) :=
      readDigits_append (hdigits year.toNat) (Numeral.read_padded 4 year.toNat)
        (Nat.le_of_eq (length_padded_four h)) (.inl (length_padded_four h))
    rw [readYear, trimStart_append (Numeral.padded_ne_nil 4 _) (hdigits _)]
    split
    · next hmore => exact absurd (isDigit_head_padded hmore) (by decide)
    · next hmore => exact absurd (isDigit_head_padded hmore) (by decide)
    · simp only [hread, Option.map_some, Int.toNat_of_nonneg h.1]
  · next h =>
    split
    · next hneg =>
      rw [List.cons_append, readYear, trimStart_cons (by decide)]
      simp only [hsigned, Option.map_some]
      rw [show -(year.natAbs : Int) = year by omega]
    · next hpos =>
      rw [List.cons_append, readYear, trimStart_cons (by decide)]
      simp only [hsigned, Option.map_some]
      rw [show (year.natAbs : Int) = year by omega]

/-- What stands after a fraction. -/
theorem exists_mark (mark : Mark) : ∃ c cs, mark.write = c :: cs ∧ c.isDigit = false ∧ c ≠ '.' := by
  cases mark <;> exact ⟨_, _, rfl, by decide⟩

private theorem readFraction_padded {width : Nat} (mark : Mark) (hwidth : 0 < width ∧ width ≤ 9)
    (h : n < Nat.pow 10 width) :
    readFraction ('.' :: (Numeral.padded width n ++ mark.write)) =
      some (n * Nat.pow 10 (9 - width), mark.write) := by
  obtain ⟨c, cs, hmark, hc, -⟩ := exists_mark mark
  have hlength := Numeral.length_padded hwidth.1 h
  have hread : readDigits 9 (Numeral.padded width n ++ mark.write) = some (n, mark.write) :=
    readDigits_append (fun _ => Numeral.isDigit_of_mem_padded) (Numeral.read_padded width n)
      (by omega) (.inr (by rw [hmark]; rintro d ⟨⟩; exact hc))
  have hdrop : mark.write.dropWhile (fun c => (Numeral.digit? c).isSome) = mark.write := by
    rw [hmark, List.dropWhile_cons_of_neg (by simp [Numeral.isSome_digit?, hc])]
  have hwritten : (Numeral.padded width n ++ mark.write).length - mark.write.length = width := by
    rw [List.length_append, hlength]
    omega
  simp only [readFraction, hread, hdrop, hwritten, Option.bind_eq_bind, Option.bind_some,
    Option.pure_def]

theorem readFraction_writeFraction {nanosecond : Nat} (h : nanosecond < 1_000_000_000)
    (mark : Mark) :
    readFraction (writeFraction nanosecond ++ mark.write) = some (nanosecond, mark.write) := by
  rw [writeFraction]
  split
  · next hzero =>
    obtain ⟨c, cs, hmark, -, hc⟩ := exists_mark mark
    rw [eq_of_beq hzero, hmark, List.nil_append, readFraction]
    intro rest h
    cases h
    exact hc rfl
  split
  · next hmilli =>
    have hdvd : nanosecond % 1_000_000 = 0 := eq_of_beq hmilli
    have hn : nanosecond / 1_000_000 < Nat.pow 10 3 := by
      change _ < 1000
      omega
    rw [List.cons_append, readFraction_padded mark (by decide) hn]
    rw [show nanosecond / 1_000_000 * Nat.pow 10 (9 - 3) = nanosecond by
      change nanosecond / 1_000_000 * 1_000_000 = nanosecond
      omega]
  split
  · next hmicro =>
    have hdvd : nanosecond % 1_000 = 0 := eq_of_beq hmicro
    have hn : nanosecond / 1_000 < Nat.pow 10 6 := by
      change _ < 1_000_000
      omega
    rw [List.cons_append, readFraction_padded mark (by decide) hn]
    rw [show nanosecond / 1_000 * Nat.pow 10 (9 - 6) = nanosecond by
      change nanosecond / 1_000 * 1_000 = nanosecond
      omega]
  · rw [List.cons_append, readFraction_padded mark (by decide) h]
    rw [show nanosecond * Nat.pow 10 (9 - 9) = nanosecond by
      change nanosecond * 1 = nanosecond
      omega]

theorem readOffset_mark (mark : Mark) : readOffset (trimStart mark.write) = some (0, []) := by
  cases mark <;> decide

theorem of?_date (d : Date) : Date.of? d.year d.month d.day = some d := dif_pos d.valid

theorem of?_instant (t : Instant) :
    Instant.of? t.date t.hour t.minute t.second t.nanosecond = some t := dif_pos t.valid

/-- A clock that shows universal time. -/
theorem behind?_zero (t : Instant) : t.behind? 0 = some t := by
  have hvalid := t.valid
  have hhour : ((((t.hour : Int) * 60 + t.minute - 0) % (24 * 60)).toNat) / 60 = t.hour := by omega
  have hminute : ((((t.hour : Int) * 60 + t.minute - 0) % (24 * 60)).toNat) % 60 = t.minute := by
    omega
  rw [Instant.behind?]
  simp only [hhour, hminute]
  rw [if_neg (by omega), if_neg (by omega), Option.bind_some, of?_instant]

theorem daysInMonth_le (year : Int) (month : Nat) : daysInMonth year month ≤ 31 := by
  rw [daysInMonth]
  split
  · split <;> decide
  · split <;> decide

theorem readChars_writeChars (mark : Mark) (t : Instant) :
    readChars (writeChars mark t) = some t := by
  obtain ⟨-, -, -, hmonth, -, hday⟩ := t.date.valid
  have hdays := daysInMonth_le t.date.year t.date.month
  obtain ⟨hhour, hminute, hsecond, hnanosecond⟩ := t.valid
  have hmonth := readField_padded (n := t.date.month) (by omega)
  have hday := readField_padded (n := t.date.day) (by omega)
  have hhour := readField_padded (n := t.hour) (by omega)
  have hminute := readField_padded (n := t.minute) (by omega)
  have hsecond := readField_padded (n := t.second) (by omega)
  have hfraction := readFraction_writeFraction hnanosecond mark
  simp only [writeChars, List.append_assoc, List.cons_append]
  apply (bind_of_eq_some (readYear_writeYear _ _)).trans
  apply (bind_of_eq_some (skip_cons (by decide))).trans
  apply (bind_of_eq_some (hmonth _)).trans
  apply (bind_of_eq_some (skip_cons (by decide))).trans
  apply (bind_of_eq_some (hday _)).trans
  apply (bind_of_eq_some (a := Numeral.padded 2 t.hour ++ _) rfl).trans
  apply (bind_of_eq_some (hhour _)).trans
  apply (bind_of_eq_some (skip_cons (by decide))).trans
  apply (bind_of_eq_some (hminute _)).trans
  apply (bind_of_eq_some (skip_cons (by decide))).trans
  apply (bind_of_eq_some (hsecond _)).trans
  apply (bind_of_eq_some hfraction).trans
  apply (bind_of_eq_some (readOffset_mark mark)).trans
  refine (bind_of_eq_some (of?_date t.date)).trans ?_
  exact (bind_of_eq_some (of?_instant t)).trans (behind?_zero t)

theorem read?_write (mark : Mark) (t : Instant) : read? (write mark t) = some t := by
  rw [read?, write, String.toList_ofList, readChars_writeChars]

end WideColumn.Time.Rfc3339
