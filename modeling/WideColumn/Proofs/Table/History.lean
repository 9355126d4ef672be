import WideColumn.Table.History

/-! # Histories and their numbers -/
namespace WideColumn.History
open WideColumn.Time

theorem oldestFirst_ne_nil (h : History) : h.oldestFirst ≠ [] := by
  simp [oldestFirst, newestFirst]

theorem length_oldestFirst (h : History) : h.oldestFirst.length = h.length := by
  simp [oldestFirst, newestFirst, length]

theorem toNat_count (h : History) : h.count.toNat = h.length % UInt32.size := UInt32.toNat_ofNat'

theorem count_push (h : History) (now : Instant) (value : String) :
    (h.push now value).count = h.count + 1 :=
  UInt32.ofNat_add h.length 1

/-- Below 2^32 versions the 32 bits of their number are all of it. -/
theorem toNat_count_of_lt {h : History} (hlength : h.length < UInt32.size) :
    h.count.toNat = h.length := by
  rw [toNat_count, Nat.mod_eq_of_lt hlength]

theorem ofOldestFirst?_oldestFirst (h : History) : ofOldestFirst? h.oldestFirst = some h := by
  simp [ofOldestFirst?, oldestFirst, newestFirst]

theorem exists_of_ne_nil {versions : List Version} (h : versions ≠ []) :
    ∃ history, ofOldestFirst? versions = some history ∧ history.oldestFirst = versions := by
  obtain ⟨latest, earlier, hrev⟩ := List.exists_cons_of_ne_nil (List.reverse_ne_nil_iff.mpr h)
  refine ⟨{ latest, earlier }, by rw [ofOldestFirst?, hrev], ?_⟩
  rw [oldestFirst, newestFirst, ← hrev, List.reverse_reverse]

theorem version?_of_pos {h : History} {number : Nat} (hpos : 1 ≤ number) :
    h.version? number = h.oldestFirst[number - 1]? :=
  if_neg (by simpa using Nat.ne_of_gt hpos)

theorem version?_eq_some_iff {h : History} {number : Nat} {v : Version} :
    h.version? number = some v ↔ 1 ≤ number ∧ h.oldestFirst[number - 1]? = some v := by
  cases number <;> simp [version?]

/-- Versions are numbered from the oldest. -/
theorem numbered_eq (h : History) :
    h.numbered = (h.oldestFirst.zipIdx 1).reverse.map Prod.swap := by
  have hgo (vs : List Version) :
      numbered.go vs.length vs = (vs.reverse.zipIdx 1).reverse.map Prod.swap := by
    induction vs with
    | nil => rfl
    | cons v older ih =>
      rw [numbered.go, List.length_cons, Nat.add_sub_cancel, ih, List.reverse_cons,
        List.zipIdx_append, List.reverse_append, List.length_reverse, Nat.add_comm 1]
      rfl
  exact hgo h.newestFirst

theorem length_numbered (h : History) : h.numbered.length = h.length := by
  rw [numbered_eq, List.length_map, List.length_reverse, List.length_zipIdx, length_oldestFirst]

theorem mem_numbered {h : History} {number : Nat} {v : Version} :
    (number, v) ∈ h.numbered ↔ 1 ≤ number ∧ h.oldestFirst[number - 1]? = some v := by
  rw [numbered_eq, List.mem_map]
  constructor
  · intro h
    obtain ⟨⟨w, k⟩, hmem, hk⟩ := h
    cases hk
    rw [List.mem_reverse, List.mem_zipIdx_iff_le_and_getElem?_sub] at hmem
    exact hmem
  · intro hv
    refine ⟨(v, number), ?_, rfl⟩
    rw [List.mem_reverse, List.mem_zipIdx_iff_le_and_getElem?_sub]
    exact hv

/-- No number stands twice. -/
theorem nodup_numbers (h : History) : (h.numbered.map (·.1)).Nodup := by
  have hnumbers : h.numbered.map (·.1) = ((h.oldestFirst.zipIdx 1).map (·.2)).reverse := by
    rw [numbered_eq, List.map_map, ← List.map_reverse]
    rfl
  rw [hnumbers, List.zipIdx_map_snd]
  exact (List.reverse_perm _).symm.nodup List.nodup_range'

end WideColumn.History
