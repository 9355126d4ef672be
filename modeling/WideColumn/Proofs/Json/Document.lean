import WideColumn.Json.Printer
import WideColumn.Proofs.Json.Text
import WideColumn.Proofs.Text.Numeral

/-! # Printed documents read back

Numbers are whole and texts are escaped in every value that the program makes. Such a value is read
from what is printed of it, whatever the layout. -/
namespace WideColumn.Json
open WideColumn.Text (Numeral.write Numeral.write_ne_nil Numeral.isDigit_of_mem_write
  Numeral.head?_write_ne)

namespace Value

mutual

/-- The values that the program makes. -/
def IsMade : Value → Prop
  | .number spelling => ∃ n ≤ WideColumn.Text.Numeral.max64, spelling = Numeral.write n
  | .text raw => ∃ cs, raw = Text.escape cs
  | .array items => AreMade items
  | .object members => MembersAreMade members
  | _ => True

def AreMade : List Value → Prop
  | [] => True
  | v :: rest => v.IsMade ∧ AreMade rest

def MembersAreMade : List (List Char × Value) → Prop
  | [] => True
  | (key, v) :: rest => (∃ cs, key = Text.escape cs) ∧ v.IsMade ∧ MembersAreMade rest

end

end Value

namespace Reader

variable {cs rest : List Char} {c : Char}

theorem skipSpace_append {blanks : List Char} (h : ∀ c ∈ blanks, isSpace c = true) :
    skipSpace (blanks ++ cs) = skipSpace cs := List.dropWhile_append_of_pos h

theorem skipSpace_cons (h : isSpace c = false) : skipSpace (c :: cs) = c :: cs := by
  rw [skipSpace, List.dropWhile_cons_of_neg (by simp [h])]

theorem isSpace_lineAt (level : Nat) : ∀ c ∈ Printer.lineAt level, isSpace c = true := by
  intro c hc
  rcases List.mem_cons.mp hc with rfl | hc
  · rfl
  · rw [List.eq_of_mem_replicate hc]
    rfl

theorem value_blanks {blanks : List Char} (h : ∀ c ∈ blanks, isSpace c = true) (fuel : Nat) :
    value fuel (blanks ++ cs) = value fuel cs := by
  cases fuel with
  | zero => rfl
  | succ fuel => rw [value, value, skipSpace_append h]

theorem items_blanks {blanks : List Char} (h : ∀ c ∈ blanks, isSpace c = true) (fuel : Nat) :
    items fuel (blanks ++ cs) = items fuel cs := by
  cases fuel with
  | zero => rfl
  | succ fuel => rw [items, items, value_blanks h]

theorem members_blanks {blanks : List Char} (h : ∀ c ∈ blanks, isSpace c = true) (fuel : Nat) :
    members fuel (blanks ++ cs) = members fuel cs := by
  cases fuel with
  | zero => rfl
  | succ fuel => rw [members, members, skipSpace_append h]

/-- No number goes on here. -/
def Stops (cs : List Char) : Prop := ∀ c ∈ cs.head?, c.isDigit = false ∧ c ≠ '.' ∧ c ≠ 'e' ∧ c ≠ 'E'

theorem digits_append {run : List Char} (hne : run ≠ []) (hrun : ∀ c ∈ run, c.isDigit = true)
    (hrest : Stops rest) : digits (run ++ rest) = some (run, rest) := by
  have htake : rest.takeWhile Char.isDigit = [] ∧ rest.dropWhile Char.isDigit = rest := by
    cases rest with
    | nil => exact ⟨rfl, rfl⟩
    | cons c rest => simp [(hrest c rfl).1]
  rw [digits, List.takeWhile_append_of_pos hrun, List.dropWhile_append_of_pos hrun,
    htake.1, htake.2, List.append_nil]
  cases run with
  | nil => exact absurd rfl hne
  | cons c run => rfl

theorem digits_eq_none (h : Stops cs) : digits cs = none := by
  cases cs with
  | nil => rfl
  | cons c cs => simp [digits, (h c rfl).1]

theorem whole_write (n : Nat) (hrest : Stops rest) :
    whole (Numeral.write n ++ rest) = some (Numeral.write n, rest) := by
  unfold whole
  split
  · next more hmore =>
    obtain ⟨c, cs, hcs⟩ := List.exists_cons_of_ne_nil (Numeral.write_ne_nil n)
    rw [hcs, List.cons_append, List.cons.injEq] at hmore
    obtain ⟨rfl, rfl⟩ := hmore
    rcases Nat.eq_zero_or_pos n with rfl | hn
    · cases hcs
      rw [List.nil_append, digits_eq_none hrest]
      rfl
    · exact absurd (by rw [hcs]; rfl) (Numeral.head?_write_ne hn)
  · exact digits_append (Numeral.write_ne_nil n) (fun _ => Numeral.isDigit_of_mem_write) hrest

theorem fraction_of_stops (h : Stops cs) : fraction cs = some ([], cs) := by
  unfold fraction
  split
  · exact absurd rfl (h '.' rfl).2.1
  · rfl

theorem exponent_of_stops (h : Stops cs) : exponent cs = some ([], cs) := by
  cases cs with
  | nil => rfl
  | cons c cs =>
    obtain ⟨-, -, hlower, hupper⟩ := h c rfl
    simp [exponent, hlower, hupper]

/-- A written number is read up to where it stops. -/
theorem number_write (n : Nat) (hrest : Stops rest) :
    number (Numeral.write n ++ rest) = some (Numeral.write n, rest) := by
  have hunsigned (more : List Char) : Numeral.write n ++ rest ≠ '-' :: more := by
    intro h
    obtain ⟨c, cs, hcs⟩ := List.exists_cons_of_ne_nil (Numeral.write_ne_nil n)
    rw [hcs, List.cons_append, List.cons.injEq] at h
    have hdigit : '-'.isDigit = true :=
      Numeral.isDigit_of_mem_write (n := n) (by rw [hcs, h.1]; exact List.mem_cons_self)
    exact absurd hdigit (by decide)
  unfold number
  split
  next sign cs h =>
  split at h
  · next more hmore => exact absurd hmore (hunsigned more)
  · cases h
    rw [whole_write n hrest]
    simp only [fraction_of_stops hrest, exponent_of_stops hrest, Option.bind_eq_bind,
      Option.bind_some, List.nil_append, List.append_nil, Option.pure_def]

open Value

theorem isSpace_of_isDigit (h : c.isDigit = true) : isSpace c = false := by
  simp only [isSpace, Bool.or_eq_false_iff, beq_eq_false_iff_ne]
  refine ⟨⟨⟨?_, ?_⟩, ?_⟩, ?_⟩ <;> (rintro rfl; exact absurd h (by decide))

/-- What a value starts with. -/
theorem exists_head_value (v : Value) (hv : v.IsMade) (level : Nat) :
    ∃ c cs, Printer.value level v = c :: cs ∧ isSpace c = false ∧ c ≠ ']' := by
  cases v with
  | null => exact ⟨_, _, by rw [Printer.value], by decide⟩
  | bool b => cases b <;> exact ⟨_, _, by rw [Printer.value], by decide⟩
  | number spelling =>
    obtain ⟨n, -, rfl⟩ := hv
    obtain ⟨c, cs, hcs⟩ := List.exists_cons_of_ne_nil (Numeral.write_ne_nil n)
    have hc : c.isDigit = true := Numeral.isDigit_of_mem_write (n := n) (by simp [hcs])
    refine ⟨c, cs, by rw [Printer.value, hcs], ?_, ?_⟩
    · exact isSpace_of_isDigit hc
    · intro heq
      subst heq
      exact absurd hc (by decide)
  | text raw => exact ⟨'"', raw ++ ['"'], by rw [Printer.value]; rfl, by decide⟩
  | array items =>
    cases items with
    | nil => exact ⟨_, _, by rw [Printer.value], by decide⟩
    | cons v rest => exact ⟨_, _, by rw [Printer.value]; rfl, by decide⟩
  | object members =>
    cases members with
    | nil => exact ⟨_, _, by rw [Printer.value], by decide⟩
    | cons m rest => exact ⟨_, _, by rw [Printer.value]; rfl, by decide⟩

private theorem value_number {n fuel : Nat} (hrest : Stops rest) :
    value (fuel + 1) (Numeral.write n ++ rest) = some (.number (Numeral.write n), rest) := by
  obtain ⟨c, cs, hcs⟩ := List.exists_cons_of_ne_nil (Numeral.write_ne_nil n)
  have hc : c.isDigit = true := Numeral.isDigit_of_mem_write (n := n) (by simp [hcs])
  have hskip : skipSpace (Numeral.write n ++ rest) = Numeral.write n ++ rest := by
    rw [hcs, List.cons_append, skipSpace_cons (isSpace_of_isDigit hc)]
  have hletter {d : Char} {ds : List Char} (hd : d.isDigit = false) :
      Numeral.write n ++ rest ≠ d :: ds := by
    rw [hcs, List.cons_append]
    intro h
    cases h
    exact Bool.noConfusion (hc.symm.trans hd)
  rw [value, hskip]
  split
  · next h => exact absurd h (hletter rfl)
  · next h => exact absurd h (hletter rfl)
  · next h => exact absurd h (hletter rfl)
  · next h => exact absurd h (hletter rfl)
  · next h => exact absurd h (hletter rfl)
  · next h => exact absurd h (hletter rfl)
  · rw [number_write n hrest]
    rfl

theorem stops_cons {c : Char} {cs : List Char}
    (h : c.isDigit = false ∧ c ≠ '.' ∧ c ≠ 'e' ∧ c ≠ 'E') : Stops (c :: cs) := by
  intro d h
  cases h
  exact h

/-- After an item or a member comes a comma or a new line. -/
theorem stops_items (level outer : Nat) (vs : List Value) :
    Stops (Printer.items level vs ++ (Printer.lineAt outer ++ rest)) := by
  cases vs <;> exact stops_cons (by decide)

theorem stops_members (level outer : Nat) (ms : List (List Char × Value)) :
    Stops (Printer.members level ms ++ (Printer.lineAt outer ++ rest)) := by
  cases ms with
  | nil => exact stops_cons (by decide)
  | cons m ms => exact stops_cons (by decide)

private theorem value_after_colon (fuel : Nat) : value fuel (' ' :: cs) = value fuel cs :=
  value_blanks (List.forall_mem_singleton.mpr rfl) fuel

/-! One step of the recursion on each form of text -/

section Steps

variable {blanks more : List Char} (hblanks : ∀ c ∈ blanks, isSpace c = true) {v : Value}
  {fuel : Nat}
include hblanks

private theorem value_array (hc : isSpace c = false) (hend : c ≠ ']') :
    value (fuel + 1) ('[' :: (blanks ++ c :: cs)) =
      (items fuel (c :: cs)).map fun p => (.array p.1, p.2) := by
  rw [value, skipSpace_cons (by decide)]
  simp only [skipSpace_append hblanks, skipSpace_cons hc]
  split
  · next h => cases h; exact absurd rfl hend
  · rfl

private theorem value_object :
    value (fuel + 1) ('\x7b' :: (blanks ++ '"' :: cs)) =
      (members fuel ('"' :: cs)).map fun p => (.object p.1, p.2) := by
  rw [value, skipSpace_cons (by decide)]
  simp only [skipSpace_append hblanks]
  rfl

private theorem items_end (h : value fuel cs = some (v, blanks ++ ']' :: rest)) :
    items (fuel + 1) cs = some ([v], rest) := by
  rw [items, h, Option.bind_eq_bind, Option.bind_some]
  simp only [skipSpace_append hblanks]
  rfl

private theorem items_next (h : value fuel cs = some (v, ',' :: (blanks ++ rest))) :
    items (fuel + 1) cs = (items fuel rest).map fun p => (v :: p.1, p.2) := by
  rw [items, h, Option.bind_eq_bind, Option.bind_some]
  simp only [skipSpace_cons (show isSpace ',' = false by decide), items_blanks hblanks]
  cases items fuel rest <;> rfl

variable {key : List Char}

private theorem members_end (hkey : rawText cs = some (key, ':' :: ' ' :: more))
    (h : value fuel more = some (v, blanks ++ '\x7d' :: rest)) :
    members (fuel + 1) ('"' :: cs) = some ([(key, v)], rest) := by
  rw [← value_after_colon] at h
  rw [members, skipSpace_cons (by decide)]
  simp only [hkey, Option.bind_eq_bind, Option.bind_some,
    skipSpace_cons (show isSpace ':' = false by decide), h, skipSpace_append hblanks]
  rfl

private theorem members_next (hkey : rawText cs = some (key, ':' :: ' ' :: more))
    (h : value fuel more = some (v, ',' :: (blanks ++ rest))) :
    members (fuel + 1) ('"' :: cs) = (members fuel rest).map fun p => ((key, v) :: p.1, p.2) := by
  rw [← value_after_colon] at h
  rw [members, skipSpace_cons (by decide)]
  simp only [hkey, Option.bind_eq_bind, Option.bind_some,
    skipSpace_cons (show isSpace ':' = false by decide), h,
    skipSpace_cons (show isSpace ',' = false by decide), members_blanks hblanks]
  cases members fuel rest <;> rfl

end Steps

mutual

/-- A value is read from what is printed of it. Each two steps of the recursion take at least one
character, so fuel of twice the length is enough. -/
theorem value_printed : ∀ (v : Value) (level fuel : Nat) (rest : List Char), v.IsMade → Stops rest →
    2 * (Printer.value level v).length ≤ fuel →
      value fuel (Printer.value level v ++ rest) = some (v, rest)
  | v, level, 0, rest, hv, _, hfuel => by
    obtain ⟨c, cs, hcs, -⟩ := exists_head_value v hv level
    rw [hcs, List.length_cons] at hfuel
    omega
  | .null, level, fuel + 1, rest, _, _, _ => by rw [Printer.value]; rfl
  | .bool true, level, fuel + 1, rest, _, _, _ => by rw [Printer.value]; rfl
  | .bool false, level, fuel + 1, rest, _, _, _ => by rw [Printer.value]; rfl
  | .number spelling, level, fuel + 1, rest, hv, hrest, _ => by
    obtain ⟨n, -, rfl⟩ := hv
    rw [Printer.value, value_number hrest]
  | .text raw, level, fuel + 1, rest, hv, _, _ => by
    obtain ⟨cs, rfl⟩ := hv
    have hraw := rawText_escape cs rest
    rw [Printer.value, Printer.quoted, List.cons_append, List.cons_append, List.append_assoc,
      List.singleton_append, value, skipSpace_cons (by decide)]
    simp only [hraw, Option.map_some]
  | .array [], level, fuel + 1, rest, _, _, _ => by rw [Printer.value]; rfl
  | .array (v :: vs), level, fuel + 1, rest, hv, hrest, hfuel => by
    rw [Printer.value, List.length_append, List.length_append, List.length_cons, List.length_append,
      List.length_append] at hfuel
    have hitems := items_printed v vs (level + 1) level fuel rest hv.1 hv.2 (by omega)
    obtain ⟨c, cs, hcs, hc, hend⟩ := exists_head_value v hv.1 (level + 1)
    rw [hcs, List.cons_append] at hitems
    rw [Printer.value, hcs]
    simp only [List.cons_append, List.append_assoc, List.nil_append]
    rw [value_array (isSpace_lineAt _) hc hend, hitems, Option.map_some]
  | .object [], level, fuel + 1, rest, _, _, _ => by rw [Printer.value]; rfl
  | .object ((key, v) :: ms), level, fuel + 1, rest, hv, hrest, hfuel => by
    rw [Printer.value, List.length_append, List.length_append, List.length_cons, List.length_append,
      List.length_append, List.length_append, List.length_append] at hfuel
    have hmembers := members_printed key v ms (level + 1) level fuel rest hv (by omega)
    rw [Printer.quoted] at hmembers
    rw [Printer.value, Printer.quoted]
    simp only [List.cons_append, List.append_assoc, List.nil_append] at hmembers ⊢
    rw [value_object (isSpace_lineAt _), hmembers, Option.map_some]
termination_by structural _ _ fuel => fuel

theorem items_printed : ∀ (v : Value) (vs : List Value) (level outer fuel : Nat) (rest : List Char),
    v.IsMade → AreMade vs →
    2 * ((Printer.value level v).length + (Printer.items level vs).length) < fuel →
      items fuel (Printer.value level v ++
        (Printer.items level vs ++ (Printer.lineAt outer ++ ']' :: rest))) = some (v :: vs, rest)
  | v, vs, level, outer, 0, rest, _, _, hfuel => by omega
  | v, [], level, outer, fuel + 1, rest, hv, _, hfuel => by
    have hvalue := value_printed v level fuel
      (Printer.items level [] ++ (Printer.lineAt outer ++ ']' :: rest)) hv
        (stops_items level outer []) (by omega)
    exact items_end (isSpace_lineAt outer) hvalue
  | v, w :: ws, level, outer, fuel + 1, rest, hv, hvs, hfuel => by
    have hvalue := value_printed v level fuel
      (Printer.items level (w :: ws) ++ (Printer.lineAt outer ++ ']' :: rest))
      hv (stops_items level outer (w :: ws)) (by omega)
    rw [Printer.items, List.length_append, List.length_cons, List.length_append] at hfuel
    have hitems := items_printed w ws level outer fuel rest hvs.1 hvs.2 (by omega)
    rw [Printer.items] at hvalue ⊢
    simp only [List.cons_append, List.append_assoc] at hvalue ⊢
    rw [items_next (isSpace_lineAt level) hvalue, hitems, Option.map_some]
termination_by structural _ _ _ _ fuel => fuel

theorem members_printed : ∀ (key : List Char) (v : Value) (ms : List (List Char × Value))
    (level outer fuel : Nat) (rest : List Char), MembersAreMade ((key, v) :: ms) →
    2 * ((Printer.value level v).length + (Printer.members level ms).length) < fuel →
      members fuel (Printer.quoted key ++ ':' :: ' ' :: (Printer.value level v ++
        (Printer.members level ms ++ (Printer.lineAt outer ++ '\x7d' :: rest)))) =
          some ((key, v) :: ms, rest)
  | key, v, ms, level, outer, 0, rest, _, hfuel => by omega
  | key, v, [], level, outer, fuel + 1, rest, hm, hfuel => by
    obtain ⟨⟨cs, rfl⟩, hv, -⟩ := hm
    have hvalue := value_printed v level fuel
      (Printer.members level [] ++ (Printer.lineAt outer ++ '\x7d' :: rest))
      hv (stops_members level outer []) (by omega)
    rw [Printer.quoted, List.cons_append, List.cons_append, List.append_assoc,
      List.singleton_append]
    exact members_end (isSpace_lineAt outer) (rawText_escape _ _) hvalue
  | key, v, (next, w) :: ms, level, outer, fuel + 1, rest, hm, hfuel => by
    obtain ⟨⟨cs, rfl⟩, hv, hms⟩ := hm
    have hvalue := value_printed v level fuel
      (Printer.members level ((next, w) :: ms) ++ (Printer.lineAt outer ++ '\x7d' :: rest))
      hv (stops_members level outer ((next, w) :: ms)) (by omega)
    rw [Printer.members, List.length_append, List.length_cons, List.length_append,
      List.length_append, List.length_append] at hfuel
    have hmembers := members_printed next w ms level outer fuel rest hms (by omega)
    rw [Printer.members] at hvalue ⊢
    simp only [List.cons_append, List.append_assoc, List.nil_append] at hvalue ⊢
    rw [Printer.quoted, List.cons_append, List.cons_append, List.append_assoc,
      List.singleton_append, members_next (isSpace_lineAt level) (rawText_escape _ _) hvalue,
      hmembers, Option.map_some]
termination_by structural _ _ _ _ _ fuel => fuel

end

theorem document_printed (v : Value) (hv : v.IsMade) :
    document (Printer.document v) = some v := by
  have hvalue := value_printed v 0 (2 * (Printer.value 0 v).length + 2) [] hv
    (by rintro c ⟨⟩) (by omega)
  rw [List.append_nil] at hvalue
  rw [document, Printer.document, hvalue]
  rfl

end Reader

end WideColumn.Json
