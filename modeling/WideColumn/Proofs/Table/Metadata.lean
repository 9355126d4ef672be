import WideColumn.Proofs.Json.Value
import WideColumn.Proofs.Schema.Value
import WideColumn.Proofs.Time.Rfc3339
import WideColumn.Proofs.Uuid
import WideColumn.Table.Document

/-! # The metadata of a stored table

Every field is read from what is written of it. -/
namespace WideColumn.Document
open WideColumn.Json WideColumn.Schema WideColumn.Text WideColumn.Time

theorem depth_ofMembers_le {members : List (String × Value)} {k : Nat}
    (h : ∀ m ∈ members, m.2.depth ≤ k) : (Value.ofMembers members).depth ≤ k + 1 := by
  have hmembers : Value.depthMembers
      (members.map fun m => (Json.Text.escape m.1.toList, m.2)) ≤ k := by
    induction members with
    | nil => exact Nat.zero_le k
    | cons m members ih =>
      obtain ⟨hm, hmembers⟩ := List.forall_mem_cons.mp h
      exact Nat.max_le.mpr ⟨hm, ih hmembers⟩
  exact Nat.succ_le_succ hmembers

theorem soundMembers?_ofMembers (level : Nat) {members : List (String × Value)}
    (hmade : ∀ m ∈ members, m.2.IsMade) (hdepth : ∀ m ∈ members, level + m.2.depth ≤ maxDepth) :
    soundMembers? level (.ofMembers members) = some members := by
  have hall : (members.all fun m => m.2.isSound && level + m.2.depth ≤ maxDepth) = true :=
    List.all_eq_true.mpr fun m hm => by
      simp [Value.isSound_of_isMade m.2 (hmade m hm), hdepth m hm]
  exact (bind_of_eq_some (Value.members?_ofMembers members)).trans (if_pos hall)

theorem readNumber?_ofNat (n : UInt32) : readNumber? (.ofNat n.toNat) = some n := by
  have hmax : n.toNat ≤ Numeral.max32 := Nat.le_of_lt_succ n.toNat_lt
  rw [readNumber?, Value.natural?_ofNat hmax, Option.map_some, UInt32.ofNat_toNat]

theorem readChoice?_ofString {α : Type} [Choice α] (s : String) :
    (readChoice? (.ofString s) : Option α) = Choice.ofLabel? s := by
  have hstring := Value.string?_ofString s
  rw [Value.ofString] at hstring ⊢
  rw [readChoice?, hstring, Option.bind_some]
  intro members h
  cases h

theorem readInstant?_writeInstant (t : Instant) : readInstant? (writeInstant t) = some t := by
  rw [readInstant?, writeInstant, Value.string?_ofString, Option.bind_some, Rfc3339.read?_write]

theorem isMade_number (n : UInt32) : (Value.ofNat n.toNat).IsMade :=
  Value.isMade_ofNat (Nat.le_trans (Nat.le_of_lt n.toNat_lt) (by decide))

theorem isMade_bool (b : Bool) : (Value.bool b).IsMade := trivial

theorem isMade_writeFamily (f : Family) : (writeFamily f).IsMade :=
  Value.isMade_ofMembers (by simp [Value.isMade_ofString, isMade_number, isMade_bool])

theorem readLabel_label {α : Type} [Choice α] [LawfulChoice α] (a : α) :
    readChoice? (.ofString (Choice.label a)) = some a := by
  rw [readChoice?_ofString, Choice.ofLabel?_label]

theorem readTtl?_label (ttl : Ttl) :
    (Value.ofString ttl.label).string?.bind Ttl.read? = some ttl := by
  rw [Value.string?_ofString, Option.bind_some, Ttl.read?_label]

/-- Every option is found under its field and read from there. -/
theorem readFamily?_writeFamily (f : Family) : readFamily? (writeFamily f) = some f := by
  refine (bind_of_eq_some (soundMembers?_ofMembers 4 ?_ ?_)).trans ?_
  · simp [Value.isMade_ofString, isMade_number, isMade_bool]
  · simp [Value.ofString, Value.ofNat, Value.depth, maxDepth]
  apply (bind_bind_of_eq_some rfl (Value.string?_ofString _)).trans
  apply (bind_bind_of_eq_some rfl (readLabel_label _)).trans
  apply (bind_bind_of_eq_some rfl (readLabel_label _)).trans
  apply (bind_bind_of_eq_some rfl (readNumber?_ofNat _)).trans
  apply (bind_bind_of_eq_some rfl (readNumber?_ofNat _)).trans
  apply (bind_bind_of_eq_some rfl (readLabel_label _)).trans
  apply (bind_bind_of_eq_some rfl (readNumber?_ofNat _)).trans
  apply (bind_bind_of_eq_some rfl (readTtl?_label _)).trans
  apply (bind_bind_of_eq_some rfl rfl).trans
  apply (bind_bind_of_eq_some rfl (readNumber?_ofNat _)).trans
  apply (bind_bind_of_eq_some rfl rfl).trans
  exact bind_bind_of_eq_some rfl rfl

theorem fields?_ofMembers (names : List String) (members : List (String × Value)) :
    (Value.ofMembers members).fields? names = names.mapM (Value.single? members) := by
  have hmembers := Value.members?_ofMembers members
  rw [Value.ofMembers] at hmembers ⊢
  rw [Value.fields?, hmembers, Option.bind_some]
  intro items h
  cases h

theorem isMade_write {t : Table} (h : (writeEntries t.entries).IsMade) : (write t).IsMade := by
  have hrows : t.rowCount.toNat ≤ Numeral.max64 := Nat.le_of_lt_succ t.rowCount.toNat_lt
  have hfamilies : (Value.array (t.families.map writeFamily)).IsMade :=
    Value.areMade_iff.mpr (List.forall_mem_map.mpr fun f _ => isMade_writeFamily f)
  refine Value.isMade_ofMembers (List.forall_mem_cons.mpr ⟨Value.isMade_ofMembers ?_, ?_⟩)
  · simp [Value.isMade_ofString, Value.isMade_ofNat hrows, isMade_bool, writeInstant, hfamilies]
  · simpa using h

/-- A table is read from what is written of it up to its entries, which are read for themselves. -/
theorem read?_write {t : Table} {rows : StoredRows}
    (h : readRows? (writeEntries t.entries) = some rows) :
    read? (write t) = some ({ t with entries := [] }, rows) := by
  have hrows : t.rowCount.toNat ≤ Numeral.max64 := Nat.le_of_lt_succ t.rowCount.toNat_lt
  have hfamilies : (t.families.map writeFamily).mapM readFamily? = some t.families :=
    mapM_map_eq_some fun f _ => readFamily?_writeFamily f
  rw [read?, write, fields?_ofMembers]
  simp [Value.single?, h, readMetadata?, fields?_ofMembers, Value.items?, hfamilies,
    Uuid.read?_write, Value.bool?, readInstant?_writeInstant, Value.natural?_ofNat hrows]

end WideColumn.Document
