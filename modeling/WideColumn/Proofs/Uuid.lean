import WideColumn.Proofs.Sequence
import WideColumn.Uuid

/-! # Identifiers read back -/
namespace WideColumn.Uuid

theorem readDigit?_writeDigit : ∀ d : Fin 16, readDigit? (writeDigit d) = some d := by decide

theorem ofDigits?_writeDigit (u : Uuid) : ofDigits? (u.digits.map writeDigit) = some u := by
  rw [ofDigits?, mapM_map_eq_some fun d _ => readDigit?_writeDigit d, Option.bind_some,
    dif_pos u.size]

section

variable {a b c d e : List Char}

theorem intercalate_five : ['-'].intercalate [a, b, c, d, e] =
    a ++ '-' :: (b ++ '-' :: (c ++ '-' :: (d ++ '-' :: e))) := by
  simp [List.intercalate]

variable (ha : a.length = 8) (hb : b.length = 4) (hc : c.length = 4) (hd : d.length = 4)
include ha hb hc hd

private theorem groups_append : groups (a ++ (b ++ (c ++ (d ++ e)))) = [a, b, c, d, e] := by
  simp [groups, List.drop_append, List.drop_of_length_le, ha, hb, hc, hd]

private theorem bare_intercalate {cs : List Char}
    (h : cs = a ++ '-' :: (b ++ '-' :: (c ++ '-' :: (d ++ '-' :: e)))) :
    cs.take 8 ++ (cs.drop 9).take 4 ++ (cs.drop 14).take 4 ++ (cs.drop 19).take 4 ++ cs.drop 24 =
      a ++ (b ++ (c ++ (d ++ e))) := by
  subst h
  simp [List.drop_append, List.drop_of_length_le, ha, hb, hc, hd]

/-- Text in five groups is read without its hyphens. -/
private theorem ofHyphenated?_groups :
    ofHyphenated? (['-'].intercalate (groups (a ++ (b ++ (c ++ (d ++ e)))))) =
      ofDigits? (a ++ (b ++ (c ++ (d ++ e)))) := by
  have hbare := bare_intercalate (e := e) ha hb hc hd intercalate_five
  rw [groups_append ha hb hc hd]
  rw [ofHyphenated?]
  simp only [hbare, groups_append ha hb hc hd, beq_self_eq_true, if_true]

end

theorem exists_groups {l : List Char} (h : l.length = 32) :
    ∃ a b c d e : List Char, a.length = 8 ∧ b.length = 4 ∧ c.length = 4 ∧ d.length = 4 ∧
      e.length = 12 ∧ l = a ++ (b ++ (c ++ (d ++ e))) := by
  have hsplit (n m : Nat) : l.drop n = (l.drop n).take m ++ l.drop (n + m) := by
    rw [← List.drop_drop, List.take_append_drop]
  refine ⟨l.take 8, (l.drop 8).take 4, (l.drop 12).take 4, (l.drop 16).take 4, l.drop 20, ?_⟩
  refine ⟨by simp [h], by simp [h], by simp [h], by simp [h], by simp [h], ?_⟩
  rw [← hsplit 16 4, ← hsplit 12 4, ← hsplit 8 4, List.take_append_drop]

theorem read?_write (u : Uuid) : read? u.write = some u := by
  have hsize : (u.digits.map writeDigit).length = 32 := (List.length_map _).trans u.size
  obtain ⟨a, b, c, d, e, ha, hb, hc, hd, he, hl⟩ := exists_groups hsize
  have hread := ofHyphenated?_groups (e := e) ha hb hc hd
  rw [← hl, ofDigits?_writeDigit] at hread
  have hlength : (['-'].intercalate (groups (u.digits.map writeDigit))).length = 36 := by
    rw [hl, groups_append ha hb hc hd, intercalate_five]
    simp [ha, hb, hc, hd, he]
  have hhead : ∀ x rest, ['-'].intercalate (groups (u.digits.map writeDigit)) = x :: rest →
      x ≠ '\x7b' ∧ x ≠ 'u' := by
    intro x rest hx
    obtain ⟨y, ys, rfl⟩ :=
      List.exists_cons_of_ne_nil (List.ne_nil_of_length_pos (l := a) (by omega))
    have hmem : y ∈ u.digits.map writeDigit := by rw [hl]; simp
    obtain ⟨digit, -, rfl⟩ := List.mem_map.mp hmem
    rw [hl, groups_append ha hb hc hd, intercalate_five, List.cons_append, List.cons.injEq] at hx
    have hdigit : ∀ d : Fin 16, writeDigit d ≠ '\x7b' ∧ writeDigit d ≠ 'u' := by decide
    exact hx.1 ▸ hdigit digit
  rw [read?, write, String.toList_ofList, writeChars, readChars]
  · rw [if_neg (by simp [hlength]), hread]
  · exact fun rest hrest => (hhead _ _ hrest).1 rfl
  · exact fun rest hrest => (hhead _ _ hrest).2 rfl

end WideColumn.Uuid
