import WideColumn.Proofs.Table.History
import WideColumn.Proofs.Table.KeyedList
import WideColumn.Proofs.Table.Metadata

/-! # Stored histories

The versions of a cell are stored in the order of their keys, in which the tenth comes before the
second. Every key still gives its number back, so the history is put together as it was. -/
namespace WideColumn.Document
open WideColumn.Json WideColumn.Text
open KeyedList (Ascending)

theorem toList_versionKey (n : Nat) : (versionKey n).toList = "version".toList ++ Numeral.write n :=
  String.toList_ofList

theorem versionNumber?_versionKey (n : Nat) : versionNumber? (versionKey n) = some n := by
  have hdrop : (versionKey n).toList.drop "version".length = Numeral.write n := by
    rw [toList_versionKey]
    exact List.drop_left' rfl
  rw [versionNumber?, hdrop, Numeral.read_write, Option.filter_some, if_pos (beq_self_eq_true _)]

theorem versionKey_injective : Function.Injective versionKey := by
  intro m n h
  have hn := versionNumber?_versionKey n
  rw [← h, versionNumber?_versionKey] at hn
  exact Option.some.inj hn

theorem versionKey_ne_count (n : Nat) : versionKey n ≠ "version_count" := by
  intro h
  have hlist := congrArg String.toList h
  obtain ⟨c, cs, hcs⟩ := List.exists_cons_of_ne_nil (Numeral.write_ne_nil n)
  have hc : c.isDigit = true := Numeral.isDigit_of_mem_write (n := n) (by simp [hcs])
  rw [toList_versionKey, hcs] at hlist
  have hunderscore : c = '_' := by
    have := congrArg (fun l => l[7]?) hlist
    exact Option.some.inj this
  rw [hunderscore] at hc
  exact absurd hc (by decide)

variable {h : History}

theorem storeHistory_perm (h : History) :
    (storeHistory h).versions.Perm (h.numbered.map fun (number, v) => (versionKey number, v)) := by
  apply KeyedList.ofPairs_perm
  have hkeys : (h.numbered.map fun (number, v) => (versionKey number, v)).map (·.1) =
      (h.numbered.map (·.1)).map versionKey := by
    rw [List.map_map, List.map_map]
    rfl
  rw [hkeys]
  exact List.pairwise_map.mpr (h.nodup_numbers.imp fun hne hkey => hne (versionKey_injective hkey))

theorem ascending_storeHistory (h : History) : Ascending (storeHistory h).versions :=
  KeyedList.ascending_ofPairs _

theorem length_storeHistory (h : History) : (storeHistory h).versions.length = h.length := by
  rw [(storeHistory_perm h).length_eq, List.length_map, h.length_numbered]

theorem count_storeHistory_le (h : History) : (storeHistory h).count ≤ Numeral.max32 :=
  Nat.le_of_lt_succ h.count.toNat_lt

theorem mem_storeHistory {key : String} {v : Version} : (key, v) ∈ (storeHistory h).versions ↔
    ∃ number, key = versionKey number ∧ 1 ≤ number ∧ h.oldestFirst[number - 1]? = some v := by
  rw [(storeHistory_perm h).mem_iff, List.mem_map]
  constructor
  · intro h
    obtain ⟨⟨number, w⟩, hmem, hkey⟩ := h
    cases hkey
    exact ⟨number, rfl, History.mem_numbered.mp hmem⟩
  · intro h
    obtain ⟨number, rfl, hv⟩ := h
    exact ⟨(number, v), History.mem_numbered.mpr hv, rfl⟩

theorem find?_storeHistory {i : Nat} (hi : i < h.length) :
    (storeHistory h).versions.find? (versionKey (i + 1)) = h.oldestFirst[i]? := by
  rw [← h.length_oldestFirst] at hi
  rw [List.getElem?_eq_getElem hi]
  refine KeyedList.find?_of_mem (ascending_storeHistory h).nodup_keys (mem_storeHistory.mpr ?_)
  exact ⟨i + 1, rfl, Nat.le_add_left 1 i, List.getElem?_eq_getElem hi⟩

private theorem filterMap_range {α : Type} {l : List α} {f : Nat → Option α} {n : Nat}
    (h : ∀ i < n, f i = l[i]?) : (List.range n).filterMap f = l.take n := by
  induction n with
  | zero => rfl
  | succ n ih =>
    rw [List.range_succ, List.filterMap_append, ih fun i hi => h i (Nat.lt_succ_of_lt hi),
      List.take_add_one, ← h n (Nat.lt_succ_self n)]
    cases hn : f n <;> simp [hn]

theorem restoreHistory_storeHistory (row qualifier : String) (hlength : h.length ≤ Numeral.max32) :
    restoreHistory row qualifier (storeHistory h) = .ok h := by
  have hcount : (storeHistory h).count = h.length :=
    History.toNat_count_of_lt (Nat.lt_succ_of_le hlength)
  have hkeys : ((storeHistory h).versions.map (·.1)).find? (fun key =>
      !(versionNumber? key).any fun n => 1 ≤ n && n ≤ h.length) = none := by
    refine List.find?_eq_none.mpr fun key hkey => ?_
    obtain ⟨⟨_, v⟩, hmem, rfl⟩ := List.mem_map.mp hkey
    obtain ⟨number, rfl, hone, hv⟩ := mem_storeHistory.mp hmem
    obtain ⟨hlt, -⟩ := List.getElem?_eq_some_iff.mp hv
    rw [h.length_oldestFirst] at hlt
    simp [versionNumber?_versionKey]
    omega
  have hversions : ((List.range h.length).filterMap fun i =>
      (storeHistory h).versions.find? (versionKey (i + 1))) = h.oldestFirst := by
    rw [filterMap_range fun _ => find?_storeHistory, ← h.length_oldestFirst, List.take_length]
  rw [restoreHistory, length_storeHistory, hcount]
  simp only [hkeys, hversions, History.ofOldestFirst?_oldestFirst]
  simp

theorem isMade_writeVersion (v : Version) : (writeVersion v).IsMade :=
  Value.isMade_ofMembers (by simp [writeInstant, Value.isMade_ofString])

theorem depth_writeVersion (v : Version) : (writeVersion v).depth ≤ 1 :=
  depth_ofMembers_le (by simp [writeInstant, Value.ofString, Value.depth])

theorem readVersion?_writeVersion (v : Version) : readVersion? (writeVersion v) = some v := by
  rw [readVersion?, writeVersion, fields?_ofMembers]
  simp [Value.single?, readInstant?_writeInstant]

variable {s : StoredHistory}

/-- The versions of a stored history as members of its object. -/
def versionMembers (s : StoredHistory) : List (String × Value) :=
  s.versions.map fun p => (p.1, writeVersion p.2)

/-- The members of a stored history: the number of versions, then the versions. -/
private theorem forall_mem_history {P : String × Value → Prop} :
    (∀ m ∈ ("version_count", Value.ofNat s.count) :: versionMembers s, P m) ↔
      P ("version_count", .ofNat s.count) ∧ ∀ p ∈ s.versions, P (p.1, writeVersion p.2) := by
  rw [List.forall_mem_cons, versionMembers, List.forall_mem_map]

theorem isMade_writeHistory (h : s.count ≤ Numeral.max32) : (writeHistory s).IsMade :=
  Value.isMade_ofMembers <| forall_mem_history.mpr
    ⟨Value.isMade_ofNat (Nat.le_trans h (by decide)), fun p _ => isMade_writeVersion p.2⟩

theorem readHistory?_writeHistory (hcount : s.count ≤ Numeral.max32) (hs : Ascending s.versions)
    (hkeys : ∀ p ∈ s.versions, p.1 ≠ "version_count") : readHistory? (writeHistory s) = some s := by
  have hmembers := soundMembers?_ofMembers 5
    (forall_mem_history.mpr ⟨Value.isMade_ofNat (Nat.le_trans hcount (by decide)), fun p _ =>
      isMade_writeVersion p.2⟩)
    (forall_mem_history.mpr ⟨by simp [Value.ofNat, Value.depth, maxDepth], fun p _ =>
      Nat.le_trans (Nat.add_le_add_left (depth_writeVersion p.2) 5) (by decide)⟩)
  have hnone : (versionMembers s).filter (fun m => m.1 == "version_count") = [] := by
    refine List.filter_eq_nil_iff.mpr (List.forall_mem_map.mpr fun p hp => ?_)
    simpa using hkeys p hp
  have hall : (versionMembers s).filter (fun m => m.1 != "version_count") = versionMembers s := by
    refine List.filter_eq_self.mpr (List.forall_mem_map.mpr fun p hp => ?_)
    simpa using hkeys p hp
  have hversions : (versionMembers s).mapM (fun m => (readVersion? m.2).map (m.1, ·)) =
      some s.versions :=
    mapM_map_eq_some fun p _ => by simp [readVersion?_writeVersion]
  have hsingle : Value.single? (("version_count", Value.ofNat s.count) :: versionMembers s)
      "version_count" = some (.ofNat s.count) := by
    rw [Value.single?, List.filter_cons_of_pos (by rfl), hnone]
  have hread : ((("version_count", Value.ofNat s.count) :: versionMembers s).filter
      (fun m => m.1 != "version_count")).mapM (fun m => (readVersion? m.2).map (m.1, ·)) =
        some s.versions := by
    rw [List.filter_cons_of_neg (by simp), hall, hversions]
  apply (bind_of_eq_some hmembers).trans
  apply (bind_bind_of_eq_some hsingle (Value.natural?_ofNat hcount)).trans
  apply (bind_of_eq_some hread).trans
  rw [KeyedList.ofPairs_of_ascending hs]
  rfl

end WideColumn.Document
