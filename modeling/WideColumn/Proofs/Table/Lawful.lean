import WideColumn.Proofs.Schema.Options
import WideColumn.Proofs.Table.Families
import WideColumn.Proofs.Table.Reachable
import WideColumn.Proofs.Table.StoredEntries

/-! # The rules of a schema

The families of a table have legal, distinct names and options that can be set. Tables that are
created and then written to obey these rules. A file is taken in whether or not its table does. -/
namespace WideColumn.Table
open WideColumn.Schema WideColumn.Time

variable {t next : Table} {name path text : String} {options : Options} {families : List Family}
  {r : Readings}

/-- The rules that every write to a schema enforces. -/
structure Lawful (t : Table) : Prop where
  distinct : t.familyNames.Nodup
  named : ∀ f ∈ t.families, f.name ≠ "" ∧ ':' ∉ f.name.toList
  options : ∀ f ∈ t.families, f.options.Lawful

theorem checkFamilyName_eq_ok_iff :
    checkFamilyName name = .ok () ↔ name ≠ "" ∧ ':' ∉ name.toList := by
  rw [checkFamilyName]
  by_cases hempty : name = ""
  · simp [hempty]
  · by_cases hcolon : ':' ∈ name.toList <;> simp [hempty, hcolon]

theorem lawful_iff : t.Lawful ↔ t.Renewable ∧ ∀ f ∈ t.families, f.options.Lawful := by
  constructor
  · intro h
    refine ⟨⟨h.distinct, fun name hname => ?_⟩, h.options⟩
    obtain ⟨f, hf, rfl⟩ := List.mem_map.mp hname
    exact checkFamilyName_eq_ok_iff.mpr (h.named f hf)
  · intro h
    obtain ⟨hnames, hoptions⟩ := h
    refine ⟨hnames.distinct, fun f hf => ?_, hoptions⟩
    exact checkFamilyName_eq_ok_iff.mp (hnames.legal f.name (List.mem_map.mpr ⟨f, hf, rfl⟩))

theorem lawful_replaceOptions (hall : ∀ f ∈ families, f.options.Lawful) (h : options.Lawful) :
    ∀ f ∈ replaceOptions name options families, f.options.Lawful := by
  induction families with
  | nil => exact List.forall_mem_nil _
  | cons f rest ih =>
    obtain ⟨hf, hrest⟩ := List.forall_mem_cons.mp hall
    rw [replaceOptions]
    split
    · exact List.forall_mem_cons.mpr ⟨h, hrest⟩
    · exact List.forall_mem_cons.mpr ⟨hf, ih hrest⟩

/-- Whatever write it is, new options come from properties that were set. -/
theorem Lawful.run {op : Operation} {n : Option Nat} (h : t.Lawful)
    (hrun : op.run r t = .ok (n, next)) :
    next.Lawful := by
  obtain ⟨hnames, hoptions⟩ := lawful_iff.mp h
  refine lawful_iff.mpr ⟨hnames.run hrun, ?_⟩
  cases regrouped_of_run hrun with
  | same hnext => exact hnext ▸ hoptions
  | added hlegal hnew hfamily hnext =>
    obtain ⟨options, hmade, hfamily⟩ := bind_eq_ok.mp hfamily
    cases hfamily
    rw [hnext]
    exact List.forall_mem_append.mpr
      ⟨hoptions, List.forall_mem_singleton.mpr (Options.lawful_ofProperties hmade)⟩
  | updated hfamily happly hnext =>
    have hfound := hoptions _ (List.mem_of_find?_eq_some hfamily)
    rw [hnext]
    exact lawful_replaceOptions hoptions (hfound.apply happly)
  | removed hnext =>
    rw [hnext]
    exact fun f hf => hoptions f (List.mem_filter.mp hf).1

/-- Tables that were created with families made of properties, and then written to. A write may also
have been refused. -/
inductive Built : Table → Prop where
  | created {name : String} {families : List Family} {id : Uuid} {now : Instant} {t : Table}
      (hfamilies : ∀ f ∈ families, ∃ batch, Family.ofProperties f.name batch = .ok f)
      (h : create name families id now = .ok t) : Built t
  | step {t : Table} (h : Built t) (op : Operation) (r : Readings) : Built (op.step r t)

theorem Built.lawful (h : Built t) : t.Lawful := by
  induction h with
  | created hfamilies h =>
    obtain ⟨hnew, rfl⟩ := create_eq_ok.mp h
    obtain ⟨-, -, hcheck⟩ := bind_eq_ok.mp hnew
    refine lawful_iff.mpr ⟨checkFamilies_eq_ok.mp hcheck, fun f hf => ?_⟩
    obtain ⟨batch, hbatch⟩ := hfamilies f hf
    obtain ⟨made, hmade, hbatch⟩ := bind_eq_ok.mp hbatch
    rw [← Except.ok.inj hbatch]
    exact Options.lawful_ofProperties hmade
  | step _ op r ih =>
    rw [Operation.step]
    split
    · next hrun => exact ih.run hrun
    · exact ih

theorem Built.after (h : Built t) (ops : List (Operation × Readings)) : Built (t.after ops) := by
  induction ops generalizing t with
  | nil => exact h
  | cons step ops ih => exact ih (h.step step.1 step.2)

/-- A text is loaded only as a table that obeys the rules. -/
def EnforcesRules (text : String) : Prop := ∀ path t, load path text = .ok t → t.Lawful

/-- What is saved of a table is loaded as that table, whatever its families are. -/
theorem load_encode (hname : checkTableName t.name = .ok ()) (hsound : Entries.Sound t.entries)
    (hs : Document.Storable t.entries) (path : String) : load path t.encode = .ok t :=
  load_eq_ok.mpr ⟨decode_encode_of_sound hsound hs, hname⟩

/-- Every table of a legal name is loaded from what is saved of it. So any text of a table is held
to the rules just where the table obeys them, as it does if it was created and written to. -/
theorem enforcesRules_iff (hname : checkTableName t.name = .ok ())
    (hsound : Entries.Sound t.entries) (hs : Document.Storable t.entries) :
    (∀ path, load path t.encode = .ok t) ∧
    (∀ path text, load path text = .ok t → (EnforcesRules text ↔ t.Lawful)) ∧
    (Built t → t.Lawful) := by
  refine ⟨load_encode hname hsound hs, fun path text hload => ⟨fun h => h path t hload, ?_⟩,
    Built.lawful⟩
  intro h path' s hload'
  -- the path is only for the message of a fault
  obtain ⟨hdecode, -⟩ := load_eq_ok.mp hload
  obtain ⟨hdecode', -⟩ := load_eq_ok.mp hload'
  cases hdecode.symm.trans hdecode'
  exact h

theorem enforcesRules_threeEntries : Built threeEntries ∧ EnforcesRules threeEntries.encode := by
  have hcreated : Built (blank "t" [{ name := "f" }, { name := "g" }] (.ofRandom 7) .epoch) := by
    refine .created (fun f hf => ⟨[], ?_⟩) (create_eq_ok.mpr ⟨rfl, rfl⟩)
    simp only [List.mem_cons, List.not_mem_nil, or_false] at hf
    rcases hf with rfl | rfl <;> rfl
  have hbuilt : Built threeEntries := hcreated.after _
  have hstorable : Document.Storable threeEntries.entries := by
    unfold Document.Storable
    decide +kernel
  obtain ⟨hload, hiff, hlawful⟩ :=
    enforcesRules_iff (t := threeEntries) rfl reachable_threeEntries.sound hstorable
  exact ⟨hbuilt, (hiff "" _ (hload "")).mpr (hlawful hbuilt)⟩

def unlawful : Table :=
  blank "t" [{ name := "" }, { name := "" },
    { name := "a:b", options := { versions := 0, blockSize := 0 } }] (.ofRandom 7) .epoch

theorem not_enforcesRules_unlawful : load "d/t.json" unlawful.encode = .ok unlawful ∧
    ¬ unlawful.familyNames.Nodup ∧ (∃ f ∈ unlawful.families, f.name = "") ∧
    (∃ f ∈ unlawful.families, ':' ∈ f.name.toList) ∧
    (∃ f ∈ unlawful.families, f.options.versions = 0) ∧
    (∃ f ∈ unlawful.families, f.options.blockSize = 0) ∧ ¬ EnforcesRules unlawful.encode := by
  have hload := load_encode (t := unlawful) rfl .nil (List.forall_mem_nil _)
  refine ⟨hload _, by decide, by decide, by decide, by decide, by decide, fun h => ?_⟩
  exact absurd (h "d/t.json" unlawful (hload _)).distinct (by decide)

end WideColumn.Table
