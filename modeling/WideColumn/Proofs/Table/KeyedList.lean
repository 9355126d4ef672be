import WideColumn.Table.Entries

/-! # What the operations on ordered lists of pairs keep

Insertion and erasure keep the order of keys and change what is found under one key only. -/
namespace WideColumn.KeyedList

variable {β : Type} {k j : String} {b : β} {l : KeyedList β}

theorem ascending_cons {p : String × β} :
    Ascending (p :: l) ↔ (∀ q ∈ l, p.1 < q.1) ∧ Ascending l := List.pairwise_cons

theorem ascending_iff_keys : Ascending l ↔ (l.map (·.1)).Pairwise (· < ·) := List.pairwise_map.symm

theorem Ascending.nodup_keys (h : Ascending l) : (l.map (·.1)).Nodup :=
  (ascending_iff_keys.mp h).imp String.ne_of_lt

theorem lt_of_not_lt (h : ¬ k < j) (hne : k ≠ j) : j < k :=
  Std.lt_of_le_of_ne (String.not_lt.mp h) (Ne.symm hne)

@[simp] theorem find?_nil : find? k ([] : KeyedList β) = none := rfl

theorem find?_cons {p : String × β} :
    find? k (p :: l) = if p.1 = k then some p.2 else find? k l := by
  by_cases h : p.1 = k <;> simp [find?, h]

theorem mem_of_find? (h : find? k l = some b) : (k, b) ∈ l := by
  obtain ⟨⟨j, a⟩, hp, rfl⟩ := Option.map_eq_some_iff.mp h
  have hk : j = k := by simpa using List.find?_some hp
  exact hk ▸ List.mem_of_find?_eq_some hp

theorem find?_of_mem (hl : (l.map (·.1)).Nodup) (h : (k, b) ∈ l) : find? k l = some b := by
  induction l with
  | nil => cases h
  | cons p l ih =>
    obtain ⟨hp, hl⟩ := List.nodup_cons.mp hl
    rcases List.mem_cons.mp h with rfl | h
    · rw [find?_cons, if_pos rfl]
    · have hne : p.1 ≠ k := by
        intro heq
        subst heq
        exact hp (List.mem_map.mpr ⟨_, h, rfl⟩)
      rw [find?_cons, if_neg hne, ih hl h]

theorem find?_eq_none_iff : find? k l = none ↔ k ∉ l.map (·.1) := by
  rw [find?, Option.map_eq_none_iff, List.find?_eq_none]
  simp only [beq_iff_eq, List.mem_map, not_exists, not_and]

theorem mem_insert {q : String × β} (h : q ∈ insert k b l) : q = (k, b) ∨ q ∈ l := by
  induction l with
  | nil => exact .inl (by simpa [insert] using h)
  | cons p l ih =>
    simp only [insert] at h
    split at h
    · exact List.mem_cons.mp h
    · split at h
      · exact (List.mem_cons.mp h).imp_right (List.mem_cons_of_mem p)
      · rcases List.mem_cons.mp h with rfl | h
        · exact .inr List.mem_cons_self
        · exact (ih h).imp_right (List.mem_cons_of_mem p)

theorem insert_ne_nil : insert k b l ≠ [] := by
  cases l with
  | nil => simp [insert]
  | cons p l => simp only [insert]; split <;> (try split) <;> simp

theorem Ascending.insert (h : Ascending l) : Ascending (insert k b l) := by
  induction l with
  | nil => exact List.pairwise_singleton _ _
  | cons p l ih =>
    obtain ⟨hp, hl⟩ := ascending_cons.mp h
    simp only [KeyedList.insert]
    split
    · next hk =>
      refine ascending_cons.mpr ⟨fun q hq => ?_, h⟩
      rcases List.mem_cons.mp hq with rfl | hq
      · exact hk
      · exact String.lt_trans hk (hp q hq)
    · next hk =>
      split
      · next he => exact ascending_cons.mpr ⟨fun q hq => he ▸ hp q hq, hl⟩
      · next hne =>
        refine ascending_cons.mpr ⟨fun q hq => ?_, ih hl⟩
        rcases mem_insert hq with rfl | hq
        · exact lt_of_not_lt hk hne
        · exact hp q hq

theorem find?_insert : find? j (insert k b l) = if j = k then some b else find? j l := by
  induction l with
  | nil => simp only [insert, find?_cons, find?_nil, eq_comm]
  | cons p l ih =>
    simp only [insert]
    split
    · simp only [find?_cons, eq_comm]
    · split
      · next he =>
        subst he
        by_cases hj : j = p.1
        · simp [find?_cons, hj]
        · simp [find?_cons, hj, Ne.symm hj]
      · next hne =>
        rw [find?_cons, ih, find?_cons]
        by_cases hp : p.1 = j
        · simp [hp, show j ≠ k from fun h => hne (h ▸ hp).symm]
        · simp [hp]

/-- A key behind all others is put at the end. -/
theorem insert_of_forall_lt (h : ∀ q ∈ l, q.1 < k) : insert k b l = l ++ [(k, b)] := by
  induction l with
  | nil => rfl
  | cons p l ih =>
    have hp : p.1 < k := h p List.mem_cons_self
    have hne : k ≠ p.1 := (String.ne_of_lt hp).symm
    rw [insert, if_neg (String.lt_asymm hp), if_neg hne,
      ih fun q hq => h q (List.mem_cons_of_mem p hq)]
    rfl

/-- A new key is only added. -/
theorem insert_perm (h : k ∉ l.map (·.1)) : (insert k b l).Perm ((k, b) :: l) := by
  induction l with
  | nil => exact .refl _
  | cons p l ih =>
    rw [List.map_cons, List.mem_cons, not_or] at h
    simp only [insert, if_neg h.1]
    split
    · exact .refl _
    · exact ((ih h.2).cons p).trans (.swap _ _ _)

theorem Ascending.erase (h : Ascending l) : Ascending (erase k l) := h.filter _

theorem find?_erase : find? j (erase k l) = if j = k then none else find? j l := by
  induction l with
  | nil => simp [erase]
  | cons p l ih =>
    have herase : erase k (p :: l) = if p.1 = k then erase k l else p :: erase k l := by
      by_cases hp : p.1 = k <;> simp [erase, hp]
    rw [herase]
    by_cases hp : p.1 = k
    · rw [if_pos hp, ih, find?_cons]
      by_cases hj : j = k
      · simp [hj]
      · simp [hj, show p.1 ≠ j from fun h => hj (h ▸ hp)]
    · rw [if_neg hp, find?_cons, ih, find?_cons]
      by_cases hpj : p.1 = j
      · simp [hpj, show j ≠ k from fun h => hp (hpj.trans h)]
      · simp [hpj]

theorem ascending_ofPairs (pairs : List (String × β)) : Ascending (ofPairs pairs) := by
  have hfold (l : KeyedList β) (hl : Ascending l) :
      Ascending (pairs.foldl (fun l p => l.insert p.1 p.2) l) := by
    induction pairs generalizing l with
    | nil => exact hl
    | cons p pairs ih => exact ih _ hl.insert
  exact hfold [] .nil

theorem mem_of_mem_ofPairs {pairs : List (String × β)} {q : String × β} (h : q ∈ ofPairs pairs) :
    q ∈ pairs := by
  have hfold (rest : List (String × β)) (l : KeyedList β)
      (hq : q ∈ rest.foldl (fun l p => l.insert p.1 p.2) l) : q ∈ rest ∨ q ∈ l := by
    induction rest generalizing l with
    | nil => exact .inr hq
    | cons p rest ih =>
      rcases ih (l.insert p.1 p.2) hq with hq | hq
      · exact .inl (List.mem_cons_of_mem p hq)
      · rcases mem_insert hq with rfl | hq
        · exact .inl List.mem_cons_self
        · exact .inr hq
  exact (hfold pairs [] h).resolve_right List.not_mem_nil

theorem length_insert_le : (insert k b l).length ≤ l.length + 1 := by
  induction l with
  | nil => exact Nat.le_refl 1
  | cons p l ih =>
    simp only [insert]
    split
    · exact Nat.le_refl _
    · split
      · exact Nat.le_succ _
      · exact Nat.succ_le_succ ih

theorem length_ofPairs_le (pairs : List (String × β)) : (ofPairs pairs).length ≤ pairs.length := by
  have hfold (l : KeyedList β) :
      (pairs.foldl (fun l p => l.insert p.1 p.2) l).length ≤ l.length + pairs.length := by
    induction pairs generalizing l with
    | nil => exact Nat.le_refl _
    | cons p pairs ih =>
      refine Nat.le_trans (ih (l.insert p.1 p.2)) ?_
      rw [List.length_cons, Nat.add_comm pairs.length, ← Nat.add_assoc]
      exact Nat.add_le_add_right length_insert_le _
  simpa [ofPairs] using hfold []

theorem ofPairs_of_ascending (h : Ascending l) : ofPairs l = l := by
  have hfold (done rest : KeyedList β) (h : Ascending (done ++ rest)) :
      rest.foldl (fun l p => l.insert p.1 p.2) done = done ++ rest := by
    induction rest generalizing done with
    | nil => simp
    | cons p rest ih =>
      have hp : ∀ q ∈ done, q.1 < p.1 := fun q hq =>
        (List.pairwise_append.mp h).2.2 q hq p List.mem_cons_self
      rw [List.foldl_cons, insert_of_forall_lt hp, ih _ (by simpa using h)]
      simp
  exact hfold [] l h

theorem ofPairs_perm {pairs : List (String × β)} (h : (pairs.map (·.1)).Nodup) :
    (ofPairs pairs).Perm pairs := by
  have hfold (rest : List (String × β)) (done : KeyedList β)
      (h : (rest.map (·.1) ++ done.map (·.1)).Nodup) :
      (rest.foldl (fun l p => l.insert p.1 p.2) done).Perm (rest ++ done) := by
    induction rest generalizing done with
    | nil => exact .refl _
    | cons p rest ih =>
      rw [List.map_cons, List.cons_append, List.nodup_cons] at h
      have hins := insert_perm (b := p.2) fun hp => h.1 (List.mem_append_right _ hp)
      have hkeys : (rest.map (·.1) ++ (done.insert p.1 p.2).map (·.1)).Nodup := by
        apply List.Perm.nodup (List.Perm.append_left _ (hins.map _).symm)
        exact List.perm_middle.symm.nodup (List.nodup_cons.mpr h)
      exact (ih _ hkeys).trans ((hins.append_left rest).trans List.perm_middle)
  simpa [ofPairs] using hfold pairs [] (by simpa using h)

variable {γ : Type} {f : β → γ}

def mapValues (f : β → γ) (l : KeyedList β) : KeyedList γ := l.map fun p => (p.1, f p.2)

theorem find?_mapValues : find? k (mapValues f l) = (find? k l).map f := by
  induction l with
  | nil => rfl
  | cons p l ih =>
    rw [mapValues, List.map_cons, find?_cons, find?_cons]
    split
    · rfl
    · exact ih

theorem insert_mapValues : insert k (f b) (mapValues f l) = mapValues f (insert k b l) := by
  induction l with
  | nil => rfl
  | cons p l ih =>
    simp only [mapValues, List.map_cons, insert]
    split
    · rfl
    · split
      · rfl
      · exact congrArg _ ih

theorem erase_mapValues : erase k (mapValues f l) = mapValues f (erase k l) := List.filter_map

end WideColumn.KeyedList
