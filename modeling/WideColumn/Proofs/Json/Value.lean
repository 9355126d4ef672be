import WideColumn.Proofs.Json.Document
import WideColumn.Proofs.Sequence

/-! # What is made of texts, numbers and members gives them back -/
namespace WideColumn.Json.Value

variable {v : Value} {members : List (String × Value)} {n limit : Nat}

theorem isMade_ofString (s : String) : (ofString s).IsMade := ⟨s.toList, rfl⟩

theorem isMade_ofNat (h : n ≤ WideColumn.Text.Numeral.max64) : (ofNat n).IsMade := ⟨n, h, rfl⟩

theorem areMade_iff {items : List Value} : AreMade items ↔ ∀ v ∈ items, v.IsMade := by
  induction items with
  | nil => simp [AreMade]
  | cons v items ih => rw [AreMade, ih, List.forall_mem_cons]

theorem isMade_ofMembers (h : ∀ m ∈ members, m.2.IsMade) : (ofMembers members).IsMade := by
  change MembersAreMade _
  induction members with
  | nil => trivial
  | cons m members ih =>
    obtain ⟨hm, hmembers⟩ := List.forall_mem_cons.mp h
    exact ⟨⟨m.1.toList, rfl⟩, hm, ih hmembers⟩

@[simp] theorem string?_ofString (s : String) : (ofString s).string? = some s := by
  rw [ofString, string?, Text.unescape_escape, Option.map_some, String.ofList_toList]

theorem natural?_ofNat (h : n ≤ limit) : (ofNat n).natural? limit = some n := by
  rw [ofNat, natural?, WideColumn.Text.Numeral.read_write, Option.filter_some,
    if_pos (by simpa using h)]

@[simp] theorem members?_ofMembers (members : List (String × Value)) :
    (ofMembers members).members? = some members :=
  mapM_map_eq_some fun (key, v) _ => by
    simp only [Text.unescape_escape, Option.map_some, String.ofList_toList]

section

open WideColumn.Text (Numeral.write Numeral.isDigit_of_mem_write Numeral.read_write)

variable {p : Char → Bool}

private theorem takeWhile_write (hp : ∀ c, c.isDigit = true → p c = true) (n : Nat) :
    (Numeral.write n).takeWhile p = Numeral.write n := by
  have happend : (Numeral.write n ++ []).takeWhile p = _ :=
    List.takeWhile_append_of_pos fun c hc => hp c (Numeral.isDigit_of_mem_write hc)
  simpa using happend

private theorem dropWhile_write (hp : ∀ c, c.isDigit = true → p c = true) (n : Nat) :
    (Numeral.write n).dropWhile p = [] := by
  have happend : (Numeral.write n ++ []).dropWhile p = _ :=
    List.dropWhile_append_of_pos fun c hc => hp c (Numeral.isDigit_of_mem_write hc)
  simpa using happend

private theorem dropWhile_minus_write (n : Nat) :
    (Numeral.write n).dropWhile (· == '-') = Numeral.write n := by
  obtain ⟨c, cs, hcs⟩ := List.exists_cons_of_ne_nil (WideColumn.Text.Numeral.write_ne_nil n)
  have hc : c.isDigit = true := Numeral.isDigit_of_mem_write (n := n) (by simp [hcs])
  rw [hcs, List.dropWhile_cons_of_neg]
  intro h
  rw [eq_of_beq h] at hc
  exact absurd hc (by decide)

private theorem ne_of_isDigit {c d : Char} (hd : d.isDigit = false) (hc : c.isDigit = true) :
    (c != d) = true := by
  rw [bne_iff_ne]
  intro heq
  subst heq
  exact Bool.noConfusion (hc.symm.trans hd)

/-- No number of 64 bits rounds to infinity. -/
theorem isFinite_write (h : n ≤ WideColumn.Text.Numeral.max64) :
    isFinite (Numeral.write n) = true := by
  have hletter (c : Char) (hc : c.isDigit = true) : (c != 'e' && c != 'E') = true := by
    rw [ne_of_isDigit rfl hc, ne_of_isDigit rfl hc]
    rfl
  have hpoint (c : Char) (hc : c.isDigit = true) : (c != '.') = true := ne_of_isDigit rfl hc
  have hlimit : n < (1 <<< 1024) - (1 <<< 970) := Nat.lt_of_le_of_lt h (by decide)
  rw [isFinite]
  simp only [dropWhile_minus_write, takeWhile_write hletter, takeWhile_write hpoint,
    dropWhile_write hletter, dropWhile_write hpoint, List.drop_nil, List.append_nil,
      Numeral.read_write]
  have hsize : WideColumn.Text.Numeral.read
    (([] : List Char).dropWhile fun c => c == '-' || c == '+') = none := rfl
  simp only [hsize, Option.getD_some, Option.getD_none, List.length_nil]
  by_cases hn : (n == 0) = true
  · rw [if_pos hn]
  · rw [if_neg hn, if_neg (by decide), if_neg (by decide), show Nat.pow 10 0 = 1 from rfl,
      Nat.mul_one, Nat.mul_one]
    exact decide_eq_true hlimit

end

mutual

/-- Whatever the program makes has content and is finite. -/
theorem isSound_of_isMade : ∀ v : Value, v.IsMade → v.isSound = true
  | .null, _ => rfl
  | .bool _, _ => rfl
  | .number spelling, h => by
    obtain ⟨n, hn, rfl⟩ := h
    exact isFinite_write hn
  | .text raw, h => by
    obtain ⟨cs, rfl⟩ := h
    rw [isSound, Text.unescape_escape]
    rfl
  | .array items, h => soundItems_of_areMade items h
  | .object members, h => soundMembers_of_areMade members h

private theorem soundItems_of_areMade :
    ∀ items : List Value, AreMade items → soundItems items = true
  | [], _ => rfl
  | v :: rest, h => by
    rw [soundItems, isSound_of_isMade v h.1, soundItems_of_areMade rest h.2]
    rfl

private theorem soundMembers_of_areMade : ∀ members : List (List Char × Value),
    MembersAreMade members → soundMembers members = true
  | [], _ => rfl
  | (key, v) :: rest, h => by
    obtain ⟨⟨cs, rfl⟩, hv, hrest⟩ := h
    rw [soundMembers, isSound_of_isMade v hv, soundMembers_of_areMade rest hrest,
      Text.unescape_escape]
    rfl

end

end WideColumn.Json.Value
