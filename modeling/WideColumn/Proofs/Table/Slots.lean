import Mathlib.Data.List.Nodup
import Mathlib.Data.List.Perm.Subperm
import WideColumn.Proofs.Table.StoredHistory

/-! # Histories restored in slots

A stored history can be restored into slots, as many as it claims versions. It has as many keys, and
each is the key of one slot and of no other, so no slot stays empty. -/
namespace WideColumn.Document
open WideColumn.Json WideColumn.Text
open KeyedList (Ascending)

/-- A program on slots for versions. It has no outcome if it comes to a slot that is not there. -/
abbrev Slotted := ExceptT Fault (StateT (List (Option Version)) Option)

/-- The slot, among `count` of them, that a key names: a number of 64 bits, spelled as it is
written. -/
def slotNumber? (count : Nat) (key : String) : Option Nat :=
  if "version".toList.isPrefixOf key.toList then
    (Numeral.readUpTo Numeral.max64 (key.toList.drop "version".length)).filter fun n =>
      1 ≤ n && n ≤ count && key == versionKey n
  else none

/-- Put a version into a slot. The first slot has the number 1. -/
def fillSlot (number : Nat) (v : Version) : Slotted Unit := do
  let slots ← get
  if 1 ≤ number ∧ number ≤ slots.length then set (slots.set (number - 1) (some v))
  else liftM (none : Option Unit)

def placeVersion (row qualifier : String) (count : Nat) (p : String × Version) : Slotted Unit :=
  match slotNumber? count p.1 with
  | some number => fillSlot number p.2
  | none => throw (.badVersionKey row qualifier p.1)

/-- Restore a history by putting each version into the slot that its key names. -/
def restoreInSlots (row qualifier : String) (s : StoredHistory) : Slotted History := do
  if s.versions.length ≠ s.count then
    throw (.versionsMiscounted row qualifier s.count s.versions.length)
  set (List.replicate s.count (none : Option Version))
  s.versions.forM (placeVersion row qualifier s.count)
  match History.ofOldestFirst? ((← get).filterMap id) with
  | some h => return h
  | none => throw (.noVersions row qualifier)

/-- There is at least one version, and the keys are those of the numbers from 1 to the claimed
one. -/
structure Complete (s : StoredHistory) : Prop where
  pos : 1 ≤ s.count
  keys : ∀ key, key ∈ s.versions.map (·.1) ↔ ∃ n, 1 ≤ n ∧ n ≤ s.count ∧ key = versionKey n

variable {s : StoredHistory} {key row qualifier : String} {count n : Nat}

theorem versionNumber?_eq_some_iff : versionNumber? key = some n ↔ key = versionKey n := by
  constructor
  · intro h
    exact (beq_iff_eq.mp (Option.filter_eq_some_iff.mp h).2).symm
  · rintro rfl
    exact versionNumber?_versionKey n

/-- The key is that of a number from 1 to `count`. -/
def IsNumbered (count : Nat) (key : String) : Prop := ∃ n, 1 ≤ n ∧ n ≤ count ∧ key = versionKey n

theorem any_versionNumber?_iff :
    ((versionNumber? key).any fun n => 1 ≤ n && n ≤ count) = true ↔ IsNumbered count key := by
  rw [Option.any_eq_true]
  constructor
  · rintro ⟨n, hn, hle⟩
    simp only [Bool.and_eq_true, decide_eq_true_eq] at hle
    exact ⟨n, hle.1, hle.2, versionNumber?_eq_some_iff.mp hn⟩
  · rintro ⟨n, hpos, hle, hkey⟩
    exact ⟨n, versionNumber?_eq_some_iff.mpr hkey, by simp [hpos, hle]⟩

/-- No number of a slot is too large to be read in 64 bits. -/
theorem slotNumber?_eq_some_iff (hcount : count ≤ Numeral.max64) :
    slotNumber? count key = some n ↔ 1 ≤ n ∧ n ≤ count ∧ key = versionKey n := by
  rw [slotNumber?]
  constructor
  · intro h
    split at h
    · have hn := (Option.filter_eq_some_iff.mp h).2
      simpa only [Bool.and_eq_true, decide_eq_true_eq, beq_iff_eq, and_assoc] using hn
    · cases h
  · rintro ⟨hpos, hle, rfl⟩
    have hprefix : "version".toList.isPrefixOf (versionKey n).toList = true := by
      rw [toList_versionKey, List.isPrefixOf_iff_prefix]
      exact List.prefix_append _ _
    have hdrop : (versionKey n).toList.drop "version".length = Numeral.write n := by
      rw [toList_versionKey]
      exact List.drop_left' rfl
    rw [if_pos hprefix, hdrop, Numeral.readUpTo_write (Nat.le_trans hle hcount), Option.filter_some,
      if_pos (by simp [hpos, hle])]

def numberedKeys (count : Nat) : List String := (List.range count).map fun i => versionKey (i + 1)

theorem mem_numberedKeys : key ∈ numberedKeys count ↔ IsNumbered count key := by
  rw [numberedKeys, List.mem_map]
  constructor
  · rintro ⟨i, hi, rfl⟩
    exact ⟨i + 1, Nat.le_add_left 1 i, List.mem_range.mp hi, rfl⟩
  · rintro ⟨n, hpos, hle, rfl⟩
    exact ⟨n - 1, List.mem_range.mpr (by omega), by rw [Nat.sub_add_cancel hpos]⟩

theorem nodup_numberedKeys (count : Nat) : (numberedKeys count).Nodup :=
  List.Nodup.map (fun _ _ h => Nat.succ.inj (versionKey_injective h)) List.nodup_range

theorem length_numberedKeys (count : Nat) : (numberedKeys count).length = count := by
  simp [numberedKeys]

/-- As many keys of numbers as there are numbers are the keys of all of them. -/
theorem mem_keys_iff {l : KeyedList Version} (hl : Ascending l) (hlength : l.length = count)
    (hall : ∀ key ∈ l.map (·.1), IsNumbered count key) :
    key ∈ l.map (·.1) ↔ IsNumbered count key := by
  have hsub := hl.nodup_keys.subperm fun key hkey => mem_numberedKeys.mpr (hall key hkey)
  have hperm := hsub.perm_of_length_le (by simp [length_numberedKeys, hlength])
  rw [hperm.mem_iff, mem_numberedKeys]

theorem Complete.length_eq (h : Complete s) (hs : Ascending s.versions) :
    s.versions.length = s.count := by
  have hperm : (s.versions.map (·.1)).Perm (numberedKeys s.count) :=
    (List.perm_ext_iff_of_nodup hs.nodup_keys (nodup_numberedKeys _)).mpr fun key =>
      (h.keys key).trans mem_numberedKeys.symm
  simpa [length_numberedKeys] using hperm.length_eq

/-- The first key that is not that of a number from 1 to `count`. -/
def badKey? (count : Nat) (l : KeyedList Version) : Option String :=
  (l.map (·.1)).find? fun key => !(versionNumber? key).any fun n => 1 ≤ n && n ≤ count

theorem badKey?_eq_none_iff {l : KeyedList Version} :
    badKey? count l = none ↔ ∀ key ∈ l.map (·.1), IsNumbered count key := by
  simp only [badKey?, List.find?_eq_none, Bool.not_eq_true', Bool.not_eq_false,
    any_versionNumber?_iff]

theorem badKey?_cons_of_isNumbered {p : String × Version} {l : KeyedList Version}
    (h : IsNumbered count p.1) :
    badKey? count (p :: l) = badKey? count l := by
  rw [badKey?, List.map_cons, List.find?_cons_of_neg (by simpa using any_versionNumber?_iff.mpr h),
    badKey?]

theorem badKey?_cons_of_not_isNumbered {p : String × Version} {l : KeyedList Version}
    (h : ¬ IsNumbered count p.1) :
    badKey? count (p :: l) = some p.1 := by
  rw [badKey?, List.map_cons, List.find?_cons_of_pos]
  simpa using mt any_versionNumber?_iff.mp h

def inOrder (count : Nat) (l : KeyedList Version) : List (Option Version) :=
  (List.range count).map fun i => l.find? (versionKey (i + 1))

theorem restoreHistory_eq (row qualifier : String) (s : StoredHistory) :
    restoreHistory row qualifier s =
      if s.versions.length ≠ s.count then
        .error (.versionsMiscounted row qualifier s.count s.versions.length)
      else match badKey? s.count s.versions with
        | some key => .error (.badVersionKey row qualifier key)
        | none => match History.ofOldestFirst? ((inOrder s.count s.versions).filterMap id) with
          | some h => .ok h
          | none => .error (.noVersions row qualifier) := by
  rw [restoreHistory, badKey?, inOrder, List.filterMap_map]
  by_cases hlength : s.versions.length = s.count
  · simp only [hlength, ne_eq, not_true_eq_false, if_false]
    cases (s.versions.map (·.1)).find? fun key =>
      !(versionNumber? key).any fun n => 1 ≤ n && n ≤ s.count <;> rfl
  · simp only [ne_eq, hlength, not_false_eq_true, if_true]
    rfl

/-- Where something is found under every key, nothing is missing from the list. -/
theorem getElem?_filterMap_inOrder {l : KeyedList Version}
    (h : ∀ n, 1 ≤ n → n ≤ count → versionKey n ∈ l.map (·.1)) :
    ((inOrder count l).filterMap id).length = count ∧
      ∀ i < count, ((inOrder count l).filterMap id)[i]? = l.find? (versionKey (i + 1)) := by
  induction count with
  | zero => exact ⟨rfl, fun i hi => absurd hi (Nat.not_lt_zero i)⟩
  | succ count ih =>
    obtain ⟨hlength, hget⟩ := ih fun n hpos hle => h n hpos (Nat.le_succ_of_le hle)
    have hmem := h (count + 1) (Nat.le_add_left 1 count) (Nat.le_refl _)
    obtain ⟨v, hv⟩ := Option.ne_none_iff_exists'.mp fun hnone =>
      KeyedList.find?_eq_none_iff.mp hnone hmem
    have hlast : (inOrder (count + 1) l).filterMap id = (inOrder count l).filterMap id ++ [v] := by
      rw [inOrder, List.range_succ, List.map_append, List.filterMap_append]
      simp [inOrder, hv]
    rw [hlast]
    refine ⟨by rw [List.length_append, hlength]; rfl, fun i hi => ?_⟩
    rcases Nat.lt_succ_iff_lt_or_eq.mp hi with hi | rfl
    · rw [List.getElem?_append_left (by omega), hget i hi]
    · rw [List.getElem?_append_right (by omega), hlength, Nat.sub_self, hv]
      rfl

/-- A complete history is restored, each version under its number. -/
theorem Complete.restoreHistory_eq_ok (h : Complete s) (hs : Ascending s.versions) :
    ∃ history, restoreHistory row qualifier s = .ok history ∧ history.length = s.count ∧
      ∀ n, history.version? n = s.versions.find? (versionKey n) := by
  have hmem (n : Nat) : versionKey n ∈ s.versions.map (·.1) ↔ 1 ≤ n ∧ n ≤ s.count := by
    rw [h.keys]
    constructor
    · rintro ⟨m, hpos, hle, hkey⟩
      rw [versionKey_injective hkey]
      exact ⟨hpos, hle⟩
    · rintro ⟨hpos, hle⟩
      exact ⟨n, hpos, hle, rfl⟩
  obtain ⟨hlength, hget⟩ := getElem?_filterMap_inOrder fun n hpos hle => (hmem n).mpr ⟨hpos, hle⟩
  obtain ⟨history, hhistory, holdest⟩ := History.exists_of_ne_nil
    (List.ne_nil_of_length_pos (hlength ▸ h.pos))
  refine ⟨history, ?_, ?_, fun n => ?_⟩
  · rw [restoreHistory_eq, if_neg (not_not_intro (h.length_eq hs)),
      badKey?_eq_none_iff.mpr fun key hkey => (h.keys key).mp hkey, hhistory]
  · rw [← history.length_oldestFirst, holdest, hlength]
  · by_cases hn : 1 ≤ n ∧ n ≤ s.count
    · obtain ⟨hpos, hle⟩ := hn
      rw [History.version?_of_pos hpos, holdest, hget (n - 1) (by omega), Nat.sub_add_cancel hpos]
    · rw [KeyedList.find?_eq_none_iff.mpr (mt (hmem n).mp hn), Option.eq_none_iff_forall_ne_some]
      intro v hv
      obtain ⟨hpos, hv⟩ := History.version?_eq_some_iff.mp hv
      obtain ⟨hlt, -⟩ := List.getElem?_eq_some_iff.mp hv
      rw [holdest, hlength] at hlt
      exact hn ⟨hpos, by omega⟩

/-- Every other history is refused. -/
theorem restoreHistory_eq_error (hs : Ascending s.versions) (h : ¬ Complete s) :
    ∃ e, restoreHistory row qualifier s = .error e ∧ e.code = .corruption := by
  rw [restoreHistory_eq]
  by_cases hlength : s.versions.length = s.count
  · rw [if_neg (not_not_intro hlength)]
    cases hbad : badKey? s.count s.versions with
    | some key => exact ⟨_, rfl, rfl⟩
    | none =>
      have hkeys (key : String) : key ∈ s.versions.map (·.1) ↔ IsNumbered s.count key :=
        mem_keys_iff hs hlength (badKey?_eq_none_iff.mp hbad)
      have hzero : s.count = 0 := Nat.eq_zero_of_not_pos fun hpos => h ⟨hpos, hkeys⟩
      rw [hzero]
      exact ⟨_, rfl, rfl⟩
  · rw [if_pos hlength]
    exact ⟨_, rfl, rfl⟩

variable {slots : List (Option Version)} {l : KeyedList Version}

/-- Slots into which the versions of a list have been put. -/
def filled (l : KeyedList Version) (slots : List (Option Version)) : List (Option Version) :=
  slots.mapIdx fun i old => (l.find? (versionKey (i + 1))).or old

theorem getElem?_filled (i : Nat) :
    (filled l slots)[i]? = slots[i]?.map fun old => (l.find? (versionKey (i + 1))).or old :=
  List.getElem?_mapIdx

theorem filled_nil : filled [] slots = slots := by
  refine List.ext_getElem? fun i => ?_
  rw [getElem?_filled]
  exact Option.map_id'

/-- A version put into its slot is not replaced by one under another key. -/
theorem filled_set {v : Version} (hpos : 1 ≤ n) (hn : versionKey n ∉ l.map (·.1)) :
    filled l (slots.set (n - 1) (some v)) = filled ((versionKey n, v) :: l) slots := by
  refine List.ext_getElem? fun i => ?_
  rw [getElem?_filled, getElem?_filled, List.getElem?_set, KeyedList.find?_cons]
  by_cases hi : n - 1 = i
  · obtain rfl : n = i + 1 := by omega
    rw [if_pos hi, if_pos rfl, KeyedList.find?_eq_none_iff.mpr hn]
    by_cases hlt : i < slots.length <;> simp [hlt]
  · rw [if_neg hi, if_neg fun hkey => hi (by have := versionKey_injective hkey; omega)]

theorem filled_replicate : filled l (List.replicate count none) = inOrder count l := by
  refine List.ext_getElem? fun i => ?_
  rw [getElem?_filled]
  by_cases hi : i < count <;> simp [inOrder, hi]

theorem run_bind_ok {α β : Type} {x : Slotted α} {f : α → Slotted β} {a : α}
    {slots slots' : List (Option Version)} (h : x.run.run slots = some (.ok a, slots')) :
    (x >>= f).run.run slots = (f a).run.run slots' := by
  rw [ExceptT.run_bind, StateT.run_bind, h]
  rfl

theorem run_bind_error {α β : Type} {x : Slotted α} {f : α → Slotted β}
    {slots slots' : List (Option Version)} {e : Fault}
    (h : x.run.run slots = some (.error e, slots')) :
    (x >>= f).run.run slots = some (.error e, slots') := by
  rw [ExceptT.run_bind, StateT.run_bind, h]
  rfl

theorem run_get (slots : List (Option Version)) :
    (get : Slotted (List (Option Version))).run.run slots = some (.ok slots, slots) := rfl

theorem run_set (slots slots' : List (Option Version)) :
    (set slots' : Slotted Unit).run.run slots = some (.ok (), slots') := rfl

theorem run_fillSlot {v : Version} (hpos : 1 ≤ n) (hle : n ≤ slots.length) :
    (fillSlot n v).run.run slots = some (.ok (), slots.set (n - 1) (some v)) := by
  rw [fillSlot, run_bind_ok (run_get slots), if_pos ⟨hpos, hle⟩]
  rfl

theorem placeVersion_of_isNumbered (hcount : count ≤ Numeral.max64) {p : String × Version}
    (hpos : 1 ≤ n) (hle : n ≤ count) (hkey : p.1 = versionKey n) :
    placeVersion row qualifier count p = fillSlot n p.2 := by
  rw [placeVersion, (slotNumber?_eq_some_iff hcount).mpr ⟨hpos, hle, hkey⟩]

theorem placeVersion_of_not_isNumbered (hcount : count ≤ Numeral.max64) {p : String × Version}
    (h : ¬ IsNumbered count p.1) :
    placeVersion row qualifier count p = throw (.badVersionKey row qualifier p.1) := by
  have hnone : slotNumber? count p.1 = none :=
    Option.eq_none_iff_forall_ne_some.mpr fun n hn => h ⟨n, (slotNumber?_eq_some_iff hcount).mp hn⟩
  rw [placeVersion, hnone]

/-- Each version comes into its slot. -/
theorem run_placeVersions (hcount : count ≤ Numeral.max64) (hl : Ascending l)
    (hslots : slots.length = count) (hbad : badKey? count l = none) :
    (l.forM (placeVersion row qualifier count)).run.run slots = some (.ok (), filled l slots) := by
  induction l generalizing slots with
  | nil =>
    rw [filled_nil]
    rfl
  | cons p l ih =>
    obtain ⟨hp, hl⟩ := KeyedList.ascending_cons.mp hl
    obtain ⟨n, hpos, hle, hkey⟩ := badKey?_eq_none_iff.mp hbad p.1 List.mem_cons_self
    rw [badKey?_cons_of_isNumbered ⟨n, hpos, hle, hkey⟩] at hbad
    have hnew : versionKey n ∉ l.map (·.1) := by
      rw [← hkey]
      exact fun hmem => absurd (List.forall_mem_map.mpr hp p.1 hmem) (String.lt_irrefl p.1)
    rw [List.forM, placeVersion_of_isNumbered hcount hpos hle hkey,
      run_bind_ok (run_fillSlot hpos (hslots ▸ hle)), ih hl (by rw [List.length_set, hslots]) hbad,
      filled_set hpos hnew, ← hkey]

/-- The first key that names no slot ends the run. There are as many slots as there were. -/
theorem run_placeVersions_of_badKey (hcount : count ≤ Numeral.max64) (hslots : slots.length = count)
    {key : String} (hbad : badKey? count l = some key) :
    ∃ slots', slots'.length = count ∧ (l.forM (placeVersion row qualifier count)).run.run slots =
      some (.error (.badVersionKey row qualifier key), slots') := by
  induction l generalizing slots with
  | nil => cases hbad
  | cons p l ih =>
    rw [List.forM]
    by_cases hp : IsNumbered count p.1
    · obtain ⟨n, hpos, hle, hkey⟩ := hp
      rw [badKey?_cons_of_isNumbered ⟨n, hpos, hle, hkey⟩] at hbad
      rw [placeVersion_of_isNumbered hcount hpos hle hkey,
        run_bind_ok (run_fillSlot hpos (hslots ▸ hle))]
      exact ih (by rw [List.length_set, hslots]) hbad
    · rw [badKey?_cons_of_not_isNumbered hp] at hbad
      cases hbad
      rw [placeVersion_of_not_isNumbered hcount hp]
      exact ⟨slots, hslots, rfl⟩

/-- Restoring in slots gives what restoring gives: it never comes to a slot that is not there. There
are never more slots than versions. -/
theorem run_restoreInSlots (row qualifier : String) (hs : Ascending s.versions)
    (hcount : s.count ≤ Numeral.max64) :
    ∃ slots, (restoreInSlots row qualifier s).run.run [] =
      some (restoreHistory row qualifier s, slots) ∧
      slots.length ≤ s.versions.length := by
  rw [restoreHistory_eq, restoreInSlots]
  by_cases hlength : s.versions.length = s.count
  · rw [if_neg (not_not_intro hlength), if_neg (not_not_intro hlength), hlength,
      run_bind_ok (run_set [] _)]
    cases hbad : badKey? s.count s.versions with
    | some key =>
      obtain ⟨slots, hslots, hrun⟩ := run_placeVersions_of_badKey hcount List.length_replicate hbad
      exact ⟨slots, run_bind_error hrun, Nat.le_of_eq hslots⟩
    | none =>
      have hrun : (s.versions.forM (placeVersion row qualifier s.count)).run.run
        (List.replicate s.count none) = some (.ok (), inOrder s.count s.versions) :=
        filled_replicate ▸ run_placeVersions hcount hs List.length_replicate hbad
      refine ⟨inOrder s.count s.versions, ?_, by simp [inOrder]⟩
      rw [run_bind_ok hrun, run_bind_ok (run_get _)]
      cases History.ofOldestFirst? ((inOrder s.count s.versions).filterMap id) <;> rfl
  · rw [if_pos hlength, if_pos hlength]
    exact ⟨[], rfl, Nat.zero_le _⟩

/-- A record that is read has no more versions than its text has keys for them. -/
theorem length_of_readHistory? {v : Value} (h : readHistory? v = some s)
    {members : List (String × Value)} (hmembers : v.members? = some members) :
    s.versions.length ≤ (members.filter fun m => m.1 != "version_count").length := by
  obtain ⟨sound, hsound, h⟩ := Option.bind_eq_some_iff.mp h
  obtain ⟨all, hall, hsound⟩ := Option.bind_eq_some_iff.mp hsound
  obtain rfl : all = members := Option.some.inj (hall.symm.trans hmembers)
  split at hsound
  · cases hsound
    obtain ⟨_, -, h⟩ := Option.bind_eq_some_iff.mp h
    obtain ⟨_, -, h⟩ := Option.bind_eq_some_iff.mp h
    obtain ⟨pairs, hpairs, h⟩ := Option.bind_eq_some_iff.mp h
    cases h
    rw [← length_of_mapM_eq_some hpairs]
    exact KeyedList.length_ofPairs_le pairs
  · cases hsound

/-- A record is restored exactly if it is complete. The history then has as many versions as the
record claims, and each is the one under its key. Slots for the versions are never missed, and there
are no more of them than keys for versions, in the record and in any text that it is read from. -/
theorem restoreHistory_exact (row qualifier : String) (hs : Ascending s.versions)
    (hcount : s.count ≤ Numeral.max32) :
    (Complete s → ∃ history, restoreHistory row qualifier s = .ok history ∧
      history.length = s.count ∧
      ∀ n, history.version? n = s.versions.find? (versionKey n)) ∧
    (¬ Complete s → ∃ e, restoreHistory row qualifier s = .error e ∧ e.code = .corruption) ∧
    ∃ slots, (restoreInSlots row qualifier s).run.run [] =
      some (restoreHistory row qualifier s, slots) ∧
      slots.length ≤ s.versions.length ∧
      ∀ v members, readHistory? v = some s → v.members? = some members →
        slots.length ≤ (members.filter fun m => m.1 != "version_count").length := by
  refine ⟨fun h => h.restoreHistory_eq_ok hs, fun h => restoreHistory_eq_error hs h, ?_⟩
  obtain ⟨slots, hrun, hlength⟩ :=
    run_restoreInSlots row qualifier hs (Nat.le_trans hcount (by decide))
  refine ⟨slots, hrun, hlength, fun v members hread hmembers => ?_⟩
  exact Nat.le_trans hlength (length_of_readHistory? hread hmembers)

/-- Ten versions, the tenth before the second. -/
def tenVersions : StoredHistory where
  count := 10
  versions := [("version1", ⟨.epoch, "a"⟩), ("version10", ⟨.epoch, "j"⟩),
    ("version2", ⟨.epoch, "b"⟩), ("version3", ⟨.epoch, "c"⟩), ("version4", ⟨.epoch, "d"⟩),
    ("version5", ⟨.epoch, "e"⟩),
    ("version6", ⟨.epoch, "f"⟩), ("version7", ⟨.epoch, "g"⟩), ("version8", ⟨.epoch, "h"⟩),
    ("version9", ⟨.epoch, "i"⟩)]

/-- The ten versions, one of them under another spelling of its number. -/
def misspelled : StoredHistory where
  count := 10
  versions := ("version01", ⟨.epoch, "a"⟩) :: tenVersions.versions.tail

theorem ascending_tenVersions : Ascending tenVersions.versions := by
  unfold Ascending
  decide +kernel

theorem ascending_misspelled : Ascending misspelled.versions := by
  unfold Ascending
  decide +kernel

theorem complete_tenVersions : Complete tenVersions where
  pos := by decide
  keys := fun _ => mem_keys_iff ascending_tenVersions rfl
    (badKey?_eq_none_iff.mp (by decide +kernel))

theorem not_complete_misspelled : ¬ Complete misspelled := by
  intro h
  have hnumbered := any_versionNumber?_iff.mpr ((h.keys "version01").mp (by decide +kernel))
  exact absurd hnumbered (by decide +kernel)

theorem restoreHistory_exact_tenVersions :
    (∃ history, restoreHistory "r" "q" tenVersions = .ok history ∧ history.length = 10 ∧
      history.version? 10 = some ⟨.epoch, "j"⟩) ∧
    ∃ e, restoreHistory "r" "q" misspelled = .error e ∧ e.code = .corruption := by
  obtain ⟨hcomplete, -, -⟩ := restoreHistory_exact "r" "q" ascending_tenVersions (by decide)
  obtain ⟨-, hother, -⟩ := restoreHistory_exact "r" "q" ascending_misspelled (by decide)
  obtain ⟨history, hok, hcount, hversion⟩ := hcomplete complete_tenVersions
  exact ⟨⟨history, hok, hcount, (hversion 10).trans (by decide +kernel)⟩,
    hother not_complete_misspelled⟩

end WideColumn.Document
