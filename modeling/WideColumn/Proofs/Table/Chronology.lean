import Mathlib.Data.List.Chain
import Mathlib.Order.Bounds.Basic
import WideColumn.Proofs.Table.History
import WideColumn.Proofs.Table.InPlace
import WideColumn.Proofs.Table.Reachable
import WideColumn.Proofs.Table.StoredEntries
import WideColumn.Table.Read

/-! # Time does not run backwards in a table

Whatever the clock shows, a version that is added is not older than the one before it, and the time
of the last update is never put back. What a file brings in is not held to this: a history that was
loaded with its times in disorder keeps them, and only goes on in order. -/
namespace WideColumn
open WideColumn.Schema WideColumn.Time

namespace Time.Instant

variable {s t u : Instant}

theorem le_refl (s : Instant) : s ≤ s := Int.le_refl s.place

theorem le_trans (h : s ≤ t) (h' : t ≤ u) : s ≤ u := Int.le_trans h h'

theorem isGreatest_latest (s now : Instant) : IsGreatest {s, now} (s.latest now) := by
  obtain ⟨hold, hnow, heq⟩ := Table.latest_spec s now
  refine ⟨heq, fun t ht => ?_⟩
  rcases ht with rfl | rfl
  · exact hold
  · exact hnow

end Time.Instant

namespace History

variable {old : Option History} {g h : History} {now : Instant} {value : String}
  {before added : List Version}

/-- No version is older than the one before it. -/
def Chronological (versions : List Version) : Prop :=
  versions.IsChain fun a b => a.timestamp ≤ b.timestamp

theorem getLast?_oldestFirst (h : History) : h.oldestFirst.getLast? = some h.latest := by
  simp [oldestFirst, newestFirst]

theorem oldestFirst_push (h : History) (now : Instant) (value : String) :
    (h.push now value).oldestFirst = h.oldestFirst ++ [⟨h.latest.timestamp.latest now, value⟩] := by
  simp [push, oldestFirst, newestFirst]

/-- What is added to versions in order is in order, if it does not come before the last of them. -/
theorem Chronological.append (h : Chronological before)
    (h' : Chronological (before.getLast?.toList ++ added)) :
    Chronological (before ++ added) := by
  obtain ⟨-, hadded, hnext⟩ := List.isChain_append.mp h'
  refine List.isChain_append.mpr ⟨h, hadded, fun a ha b hb => hnext a ?_ b hb⟩
  rw [Option.mem_def.mp ha]
  rfl

/-- A version was added to those of a cell. It has the time that the clock showed, or the time of
the version before it if that is later. -/
def Adds (old : Option History) (now : Instant) (value : String) (h : History) : Prop :=
  match old with
  | none => h.oldestFirst = [⟨now, value⟩]
  | some g => ∃ timestamp, IsGreatest {g.latest.timestamp, now} timestamp ∧
      h.oldestFirst = g.oldestFirst ++ [⟨timestamp, value⟩]

theorem adds_extend (old : Option History) (now : Instant) (value : String) :
    Adds old now value (extend old now value) := by
  cases old with
  | none => rfl
  | some g => exact ⟨_, Instant.isGreatest_latest .., g.oldestFirst_push now value⟩

/-- A history goes on from what there was of it, or has begun anew. No version that was added is
older than the one before it. -/
def Continues (old : Option History) (h : History) : Prop :=
  ∃ before added, h.oldestFirst = before ++ added ∧
    (before = [] ∨ ∃ g, old = some g ∧ before = g.oldestFirst) ∧
    Chronological (before.getLast?.toList ++ added)

theorem continues_self (g : History) : Continues (some g) g :=
  ⟨g.oldestFirst, [], (List.append_nil _).symm, .inr ⟨g, rfl, rfl⟩, by
    rw [getLast?_oldestFirst]
    exact .singleton _⟩

theorem Continues.push (h : Continues old g) (now : Instant) (value : String) :
    Continues old (g.push now value) := by
  obtain ⟨before, added, hg, hbefore, hchain⟩ := h
  refine ⟨before, added ++ [⟨g.latest.timestamp.latest now, value⟩], ?_, hbefore, ?_⟩
  · rw [oldestFirst_push, hg, List.append_assoc]
  have hlast : (before.getLast?.toList ++ added).getLast? = some g.latest := by
    rw [← getLast?_oldestFirst, hg, List.getLast?_append, List.getLast?_append]
    cases before.getLast? <;> rfl
  rw [← List.append_assoc]
  refine List.isChain_append.mpr ⟨hchain, .singleton _, fun a ha b hb => ?_⟩
  rw [hlast] at ha
  cases ha
  cases hb
  exact (Instant.isGreatest_latest _ now).2 (.inl rfl)

/-- What is done to a history by a write leaves it a continuation. -/
theorem continues_extend {current : Option History} (h : ∀ g, current = some g → Continues old g)
    (now : Instant) (value : String) : Continues old (extend current now value) := by
  cases current with
  | none => exact ⟨[], [⟨now, value⟩], rfl, .inl rfl, .singleton _⟩
  | some g => exact (h g rfl).push now value

theorem Continues.chronological (h : Continues old g)
    (hold : ∀ g, old = some g → Chronological g.oldestFirst) :
    Chronological g.oldestFirst := by
  obtain ⟨before, added, hg, hbefore, hchain⟩ := h
  rw [hg]
  refine Chronological.append ?_ hchain
  rcases hbefore with rfl | ⟨g', hg', rfl⟩
  · exact .nil
  · exact hold g' hg'

end History

namespace Table

variable {t s : Table} {row family qualifier : String} {h h' : History}

/-- A write leaves a history as it is, takes it away or adds a version to it. -/
theorem find?_onEntries {es : List Entry} (hs : Entries.Sound es) (op : Operation) (now : Instant)
    (row family qualifier : String) :
    Entries.find? (op.onEntries now es) row family qualifier =
      Entries.find? es row family qualifier ∨
      Entries.find? (op.onEntries now es) row family qualifier = none ∨
      ∃ value, Entries.find? (op.onEntries now es) row family qualifier =
        some (.extend (Entries.find? es row family qualifier) now value) := by
  cases op with
  | put row' family' qualifier' value =>
    rw [Operation.onEntries, hs.find?_put]
    split
    · next hcell =>
      obtain ⟨rfl, rfl, rfl⟩ := hcell
      exact .inr (.inr ⟨value, rfl⟩)
    · exact .inl rfl
  | delete row' family' qualifier' =>
    rw [Operation.onEntries, hs.find?_erase]
    split
    · exact .inr (.inl rfl)
    · exact .inl rfl
  | deleteRow row' =>
    rw [Operation.onEntries, hs.find?_withoutRow]
    split
    · exact .inr (.inl rfl)
    · exact .inl rfl
  | _ => exact .inl rfl

theorem continues_step {old : Option History} (hs : Entries.Sound s.entries)
    (hold : ∀ g, s.history? row family qualifier = some g → History.Continues old g)
    (op : Operation) (r : Readings) (hh : (op.step r s).history? row family qualifier = some h) :
    History.Continues old h := by
  rw [Operation.step] at hh
  split at hh
  · next hrun =>
    obtain ⟨-, -, -, hentries⟩ := Operation.run_eq_ok hrun
    rw [history?, hentries] at hh
    rcases find?_onEntries hs op r.version row family qualifier with hsame | hnone | ⟨value, hmore⟩
    · exact hold h (hsame.symm.trans hh)
    · cases hnone.symm.trans hh
    · cases hmore.symm.trans hh
      exact History.continues_extend hold r.version value
  · exact hold h hh

theorem continues_after {old : Option History} (hs : Entries.Sound s.entries)
    (hold : ∀ g, s.history? row family qualifier = some g → History.Continues old g)
    (ops : List (Operation × Readings))
    (hh : (s.after ops).history? row family qualifier = some h) :
    History.Continues old h := by
  induction ops generalizing s with
  | nil => exact hold h hh
  | cons step ops ih =>
    refine ih (Operation.sound_step hs) (fun g hg => ?_) hh
    exact continues_step hs hold step.1 step.2 hg

theorem updatedAt_le_step (op : Operation) (r : Readings) (t : Table) :
    t.updatedAt ≤ (op.step r t).updatedAt := by
  rw [Operation.step]
  split
  · next n next hrun =>
    have hkeeps := keeps_of_run hrun
    cases op with
    | put | delete | deleteRow => exact hkeeps.2.2.le_updatedAt
    | createFamily | updateFamily | deleteFamily => exact hkeeps.2.2.2.le_updatedAt
    | enable | disable => exact hkeeps.2.le_updatedAt
    | recount =>
      cases hrun
      exact t.updatedAt.le_refl
  · exact t.updatedAt.le_refl

theorem updatedAt_le_after (ops : List (Operation × Readings)) (t : Table) :
    t.updatedAt ≤ (t.after ops).updatedAt := by
  induction ops generalizing t with
  | nil => exact t.updatedAt.le_refl
  | cons step ops ih =>
    exact Instant.le_trans (updatedAt_le_step step.1 step.2 t) (ih (step.1.step step.2 t))

/-- Tables that were created, written to, and loaded from what was saved of them. -/
inductive Born : Table → Prop where
  | created {name : String} {families : List Family} {id : Uuid} {now : Instant} {t : Table}
      (h : create name families id now = .ok t) : Born t
  | step {t : Table} (h : Born t) (op : Operation) (r : Readings) : Born (op.step r t)
  | reloaded {path : String} {t s : Table} (h : Born t) (hs : Document.Storable t.entries)
      (hload : load path t.encode = .ok s) : Born s

namespace Born

theorem sound (h : Born t) : Entries.Sound t.entries := by
  induction h with
  | created h => exact (Reachable.created h).sound
  | step _ op r ih => exact Operation.sound_step ih
  | reloaded _ _ hload _ => exact (Reachable.loaded hload).sound

theorem after (h : Born t) (ops : List (Operation × Readings)) : Born (t.after ops) := by
  induction ops generalizing t with
  | nil => exact h
  | cons step ops ih => exact ih (h.step step.1 step.2)

theorem createdAt_le_updatedAt (h : Born t) : t.createdAt ≤ t.updatedAt := by
  induction h with
  | created h =>
    obtain ⟨-, rfl⟩ := create_eq_ok.mp h
    exact Instant.le_refl _
  | @step t _ op r ih =>
    have hcreated : (op.step r t).createdAt = t.createdAt := by
      rw [Operation.step]
      split
      · next hrun => exact (Operation.run_eq_ok hrun).2.2.1
      · rfl
    exact hcreated ▸ Instant.le_trans ih (updatedAt_le_step op r t)
  | reloaded h hs hload ih =>
    cases (decode_encode_of_sound h.sound hs).symm.trans (load_eq_ok.mp hload).1
    exact ih

theorem chronological (h : Born t) (hh : t.history? row family qualifier = some h') :
    History.Chronological h'.oldestFirst := by
  induction h generalizing h' with
  | created h =>
    obtain ⟨-, rfl⟩ := create_eq_ok.mp h
    cases hh
  | step h op r ih =>
    have hgoes := continues_step h.sound (fun g hg => hg ▸ History.continues_self g) op r hh
    exact hgoes.chronological fun g hg => ih hg
  | reloaded h hs hload ih =>
    cases (decode_encode_of_sound h.sound hs).symm.trans (load_eq_ok.mp hload).1
    exact ih hh

end Born

/-- What is true of a table `s` that writes have made of `t`. -/
structure InTime (t s : Table) : Prop where
  /-- A put adds a version to its cell, and leaves every other cell alone. -/
  put : ∀ r row family qualifier value n next, s.put r row family qualifier value = .ok (n, next) →
    (∃ h, next.history? row family qualifier = some h ∧
      History.Adds (s.history? row family qualifier) r.version value h) ∧
    ∀ row' family' qualifier', ¬ (row' = row ∧ family' = family ∧ qualifier' = qualifier) →
      next.history? row' family' qualifier' = s.history? row' family' qualifier'
  /-- What was added to a history was added in order. -/
  continues : ∀ row family qualifier h, s.history? row family qualifier = some h →
    History.Continues (t.history? row family qualifier) h
  updatedAt : t.updatedAt ≤ s.updatedAt
  /-- If the table was not brought in, all of a history is in order. -/
  chronological : Born t → ∀ row family qualifier h, s.history? row family qualifier = some h →
    History.Chronological h.oldestFirst
  createdAt : Born t → s.createdAt ≤ s.updatedAt

/-- Whatever the clock shows in the course of the writes, time does not run backwards in a table
that was created or loaded. -/
theorem Reachable.inTime (h : Reachable t) (ops : List (Operation × Readings)) :
    InTime t (t.after ops) where
  put r row family qualifier value n next hput := by
    obtain ⟨-, -, -, rfl⟩ := put_eq_ok.mp hput
    have hs := (h.after ops).sound
    refine ⟨⟨_, ?_,
      History.adds_extend ((t.after ops).history? row family qualifier) r.version value⟩, ?_⟩
    · exact (hs.find?_put ..).trans (if_pos ⟨rfl, rfl, rfl⟩)
    · exact fun _ _ _ hne => (hs.find?_put ..).trans (if_neg hne)
  continues _ _ _ _ hh := continues_after h.sound (fun g hg => hg ▸ History.continues_self g) ops hh
  updatedAt := updatedAt_le_after ops t
  chronological hborn _ _ _ _ hh := (hborn.after ops).chronological hh
  createdAt hborn := (hborn.after ops).createdAt_le_updatedAt

def oneOClock : Instant := { Instant.epoch with hour := 1, valid := by decide }

/-- A value of one o'clock, and a later version of midnight. -/
def disordered : Table :=
  { blank "t" [{ name := "f" }] (.ofRandom 7) .epoch with
    rowCount := 1
    entries := [⟨"r", "f", [("q", ⟨⟨.epoch, "w"⟩, [⟨oneOClock, "v"⟩]⟩)]⟩] }

/-- The clock goes back from one o'clock to midnight. -/
def backwards : List (Operation × Readings) :=
  [(.put "r" "f" "q" "x", ⟨oneOClock, oneOClock⟩), (.put "r" "f" "q" "y", ⟨.epoch, .epoch⟩)]

theorem inTime_backwards :
    (Reachable disordered ∧ InTime disordered (disordered.after backwards) ∧
      ((disordered.after backwards).history? "r" "f" "q").map History.oldestFirst =
        some [⟨oneOClock, "v"⟩, ⟨.epoch, "w"⟩, ⟨oneOClock, "x"⟩, ⟨oneOClock, "y"⟩]) ∧
    ∃ t, Born t ∧ t.createdAt = .epoch ∧
    (t.after backwards).createdAt ≤ (t.after backwards).updatedAt ∧
      ((t.after backwards).history? "r" "f" "q").map History.oldestFirst =
        some [⟨oneOClock, "x"⟩, ⟨oneOClock, "y"⟩] := by
  have hsound : Entries.Sound disordered.entries :=
    Entries.sound_iff.mpr ⟨List.pairwise_singleton .., by simp [disordered, KeyedList.Ascending]⟩
  have hstorable : Document.Storable disordered.entries := by
    unfold Document.Storable
    decide +kernel
  have hloaded : load "d/t.json" disordered.encode = .ok disordered :=
    load_eq_ok.mpr ⟨decode_encode_of_sound hsound hstorable, rfl⟩
  have hborn : Born (blank "t" [{ name := "f" }] (.ofRandom 7) .epoch) :=
    .created (create_eq_ok.mpr ⟨rfl, rfl⟩)
  have hcreated : Reachable (blank "t" [{ name := "f" }] (.ofRandom 7) .epoch) :=
    .created (create_eq_ok.mpr ⟨rfl, rfl⟩)
  refine ⟨⟨.loaded hloaded, Reachable.inTime (.loaded hloaded) backwards, by decide +kernel⟩, _,
    hborn, rfl, ?_, ?_⟩
  · exact (hcreated.inTime backwards).createdAt hborn
  · decide +kernel

end Table

end WideColumn
