import WideColumn.Proofs.Sequence
import WideColumn.Proofs.Table.Store
import WideColumn.Table.Document
import WideColumn.Table.Write

/-! # Runs of writes to a table

A table comes from a schema or from a file and then goes through writes, some of which are refused.
A successful write does to the entries what the store does, and a refused write does nothing. -/
namespace WideColumn.Table
open WideColumn.Schema WideColumn.Time

variable {t t' : Table} {r : Readings} {name family row qualifier value : String}
  {batch : Properties}

theorem checkEnabled_eq_ok {action : Action} {u : Unit} :
    t.checkEnabled action = .ok u ↔ t.disabled = false := by
  cases h : t.disabled <;> simp [checkEnabled, h]

theorem needFamily_eq_ok {f : Family} : t.needFamily name = .ok f ↔ t.family? name = some f := by
  cases h : t.family? name <;> simp [needFamily, h]

theorem checkFamily_eq_ok {u : Unit} :
    t.checkFamily name = .ok u ↔ (t.family? name).isSome = true := by
  cases h : t.family? name <;>
    simp [checkFamily, needFamily, h, discard, Functor.discard, Functor.mapConst, Except.map]

theorem put_eq_ok {n : UInt32} : t.put r row family qualifier value = .ok (n, t') ↔
    t.disabled = false ∧ (t.family? family).isSome = true ∧
      n = (Entries.put t.entries row family qualifier r.version value).2.1 ∧
      t' = { t with
        entries := (Entries.put t.entries row family qualifier r.version value).1
        rowCount := if (Entries.put t.entries row family qualifier r.version value).2.2
          then t.rowCount + 1 else t.rowCount }.touch r.done := by
  simp only [put, bind_eq_ok, checkEnabled_eq_ok, checkFamily_eq_ok]
  constructor
  · intro h
    obtain ⟨-, hd, -, hf, h⟩ := h
    cases h
    exact ⟨hd, hf, rfl, rfl⟩
  · intro h
    obtain ⟨hd, hf, rfl, rfl⟩ := h
    exact ⟨(), hd, (), hf, rfl⟩

theorem delete_eq_ok : t.delete r row family qualifier = .ok t' ↔
    t.disabled = false ∧ (t.family? family).isSome = true ∧
      (Entries.find? t.entries row family qualifier).isSome = true ∧
      t' = { t with
        entries := (Entries.erase t.entries row family qualifier).1
        rowCount := if (Entries.erase t.entries row family qualifier).2
          then lessRows t.rowCount 1 else t.rowCount }.touch r.done := by
  simp only [delete, bind_eq_ok, checkEnabled_eq_ok, checkFamily_eq_ok]
  cases hc : Entries.find? t.entries row family qualifier with
  | none =>
    constructor
    · intro h
      obtain ⟨-, hd, -, hf, h⟩ := h
      cases h
    · intro h
      obtain ⟨hd, hf, hs, -⟩ := h
      cases hs
  | some x =>
    constructor
    · intro h
      obtain ⟨-, hd, -, hf, h⟩ := h
      cases h
      exact ⟨hd, hf, rfl, rfl⟩
    · intro h
      obtain ⟨hd, hf, -, rfl⟩ := h
      exact ⟨(), hd, (), hf, rfl⟩

theorem deleteRow_eq_ok {n : Nat} : t.deleteRow r row = .ok (n, t') ↔
    t.disabled = false ∧ n = (Entries.ofRow t.entries row).length ∧
      t' = { t with
        entries := Entries.withoutRow t.entries row
        rowCount := lessRows t.rowCount (Entries.ofRow t.entries row).length }.touch r.done := by
  simp only [deleteRow, bind_eq_ok, checkEnabled_eq_ok]
  constructor
  · intro h
    obtain ⟨-, hd, h⟩ := h
    cases h
    exact ⟨hd, rfl, rfl⟩
  · intro h
    obtain ⟨hd, rfl, rfl⟩ := h
    exact ⟨(), hd, rfl⟩

theorem createFamily_eq_ok : t.createFamily r name batch = .ok t' ↔
    t.disabled = false ∧ checkFamilyName name = .ok () ∧ t.family? name = none ∧
      ∃ family, Family.ofProperties name batch = .ok family ∧
        t' = { t with families := t.families ++ [family] }.touch r.done := by
  simp only [createFamily, bind_eq_ok, checkEnabled_eq_ok]
  cases hf : t.family? name with
  | none =>
    constructor
    · intro h
      obtain ⟨-, hd, ⟨⟩, hn, h⟩ := h
      obtain ⟨family, hfamily, h⟩ := bind_eq_ok.mp h
      cases h
      exact ⟨hd, hn, rfl, family, hfamily, rfl⟩
    · intro h
      obtain ⟨hd, hn, -, family, hfamily, rfl⟩ := h
      exact ⟨(), hd, (), hn, bind_eq_ok.mpr ⟨family, hfamily, rfl⟩⟩
  | some f =>
    constructor
    · intro h
      obtain ⟨-, hd, -, hn, h⟩ := h
      cases h
    · intro h
      obtain ⟨hd, hn, h, -⟩ := h
      cases h

theorem updateFamily_eq_ok : t.updateFamily r name batch = .ok t' ↔
    t.disabled = false ∧ ∃ family options, t.family? name = some family ∧
      family.options.apply batch = .ok options ∧
        t' = { t with families := replaceOptions name options t.families }.touch r.done := by
  simp only [updateFamily, bind_eq_ok, checkEnabled_eq_ok, needFamily_eq_ok]
  constructor
  · intro h
    obtain ⟨-, hd, family, hf, options, ho, h⟩ := h
    cases h
    exact ⟨hd, family, options, hf, ho, rfl⟩
  · intro h
    obtain ⟨hd, family, options, hf, ho, rfl⟩ := h
    exact ⟨(), hd, family, hf, options, ho, rfl⟩

theorem deleteFamily_eq_ok : t.deleteFamily r name = .ok t' ↔
    t.disabled = false ∧ (t.family? name).isSome = true ∧
      t' = { t with families := t.families.filter fun f => f.name != name }.touch r.done := by
  simp only [deleteFamily, bind_eq_ok, checkEnabled_eq_ok, checkFamily_eq_ok]
  constructor
  · intro h
    obtain ⟨-, hd, -, hf, h⟩ := h
    cases h
    exact ⟨hd, hf, rfl⟩
  · intro h
    obtain ⟨hd, hf, rfl⟩ := h
    exact ⟨(), hd, (), hf, rfl⟩

theorem enable_eq_ok : t.enable r = .ok t' ↔
    t.disabled = true ∧ t' = { t with disabled := false }.touch r.done := by
  cases h : t.disabled <;> simp [enable, h, eq_comm]

theorem disable_eq_ok : t.disable r = .ok t' ↔
    t.disabled = false ∧ t' = { t with disabled := true }.touch r.done := by
  cases h : t.disabled <;> simp [disable, h, eq_comm]

/-- A write to a table with its arguments. -/
inductive Operation where
  | put (row family qualifier value : String)
  | delete (row family qualifier : String)
  | deleteRow (row : String)
  | createFamily (name : String) (batch : Properties)
  | updateFamily (name : String) (batch : Properties)
  | deleteFamily (name : String)
  | enable
  | disable
  | recount

namespace Operation

/-- Carry out a write. It answers with a number or with nothing. -/
def run (r : Readings) (t : Table) : Operation → Except Fault (Option Nat × Table)
  | put row family qualifier value => do
    let (n, t) ← t.put r row family qualifier value
    return (some n.toNat, t)
  | delete row family qualifier => return (none, ← t.delete r row family qualifier)
  | deleteRow row => do
    let (n, t) ← t.deleteRow r row
    return (some n, t)
  | createFamily name batch => return (none, ← t.createFamily r name batch)
  | updateFamily name batch => return (none, ← t.updateFamily r name batch)
  | deleteFamily name => return (none, ← t.deleteFamily r name)
  | enable => return (none, ← t.enable r)
  | disable => return (none, ← t.disable r)
  | recount => return (some t.recount.1, t.recount.2)

/-- The table after a write, which a refused write leaves as it was. -/
def step (op : Operation) (r : Readings) (t : Table) : Table :=
  match op.run r t with
  | .ok (_, next) => next
  | .error _ => t

/-- What a successful write does to the entries. -/
def onEntries (now : Instant) (es : List Entry) : Operation → List Entry
  | put row family qualifier value => (Entries.put es row family qualifier now value).1
  | delete row family qualifier => (Entries.erase es row family qualifier).1
  | deleteRow row => Entries.withoutRow es row
  | _ => es

/-- The write is no put, or it puts to one of certain qualifiers. -/
def PutsTo (allowed : String → Prop) : Operation → Prop
  | put _ _ qualifier _ => allowed qualifier
  | _ => True

theorem putsTo_true (op : Operation) : op.PutsTo fun _ => True := by
  cases op <;> trivial

variable {op : Operation} {n : Option Nat}

/-- A table is what a write made of another. -/
inductive Effect (r : Readings) (t t' : Table) : Operation → Prop where
  | put {row family qualifier value : String} {n : UInt32}
      (h : t.put r row family qualifier value = .ok (n, t')) :
      Effect r t t' (.put row family qualifier value)
  | delete {row family qualifier : String} (h : t.delete r row family qualifier = .ok t') :
      Effect r t t' (.delete row family qualifier)
  | deleteRow {row : String} {n : Nat} (h : t.deleteRow r row = .ok (n, t')) :
    Effect r t t' (.deleteRow row)
  | createFamily {name : String} {batch : Properties} (h : t.createFamily r name batch = .ok t') :
      Effect r t t' (.createFamily name batch)
  | updateFamily {name : String} {batch : Properties} (h : t.updateFamily r name batch = .ok t') :
      Effect r t t' (.updateFamily name batch)
  | deleteFamily {name : String} (h : t.deleteFamily r name = .ok t') :
    Effect r t t' (.deleteFamily name)
  | enable (h : t.enable r = .ok t') : Effect r t t' .enable
  | disable (h : t.disable r = .ok t') : Effect r t t' .disable
  | recount (h : t' = t.recount.2) : Effect r t t' .recount

/-- Every successful write had its effect. -/
theorem effect_of_run (h : op.run r t = .ok (n, t')) : Effect r t t' op := by
  cases op with
  | put | deleteRow =>
    obtain ⟨⟨m, s⟩, hs, h⟩ := bind_eq_ok.mp h
    cases h
    constructor
    exact hs
  | recount =>
    cases h
    exact .recount rfl
  | _ =>
    obtain ⟨s, hs, h⟩ := bind_eq_ok.mp h
    cases h
    constructor
    exact hs

/-- A successful write keeps what identifies the table. -/
theorem run_eq_ok (hrun : op.run r t = .ok (n, t')) :
    t'.name = t.name ∧ t'.id = t.id ∧ t'.createdAt = t.createdAt ∧
      t'.entries = op.onEntries r.version t.entries := by
  cases effect_of_run hrun with
  | put h =>
    obtain ⟨-, -, -, rfl⟩ := put_eq_ok.mp h
    exact ⟨rfl, rfl, rfl, rfl⟩
  | delete h =>
    obtain ⟨-, -, -, rfl⟩ := delete_eq_ok.mp h
    exact ⟨rfl, rfl, rfl, rfl⟩
  | deleteRow h =>
    obtain ⟨-, -, rfl⟩ := deleteRow_eq_ok.mp h
    exact ⟨rfl, rfl, rfl, rfl⟩
  | createFamily h =>
    obtain ⟨-, -, -, -, -, rfl⟩ := createFamily_eq_ok.mp h
    exact ⟨rfl, rfl, rfl, rfl⟩
  | updateFamily h =>
    obtain ⟨-, -, -, -, -, rfl⟩ := updateFamily_eq_ok.mp h
    exact ⟨rfl, rfl, rfl, rfl⟩
  | deleteFamily h =>
    obtain ⟨-, -, rfl⟩ := deleteFamily_eq_ok.mp h
    exact ⟨rfl, rfl, rfl, rfl⟩
  | enable h =>
    obtain ⟨-, rfl⟩ := enable_eq_ok.mp h
    exact ⟨rfl, rfl, rfl, rfl⟩
  | disable h =>
    obtain ⟨-, rfl⟩ := disable_eq_ok.mp h
    exact ⟨rfl, rfl, rfl, rfl⟩
  | recount h =>
    cases h
    exact ⟨rfl, rfl, rfl, rfl⟩

theorem sound_onEntries {es : List Entry} (h : Entries.Sound es) (now : Instant) :
    Entries.Sound (op.onEntries now es) := by
  cases op with
  | put row family qualifier value => exact h.put row family qualifier now value
  | delete row family qualifier => exact h.erase row family qualifier
  | deleteRow row => exact h.withoutRow row
  | _ => exact h

theorem sound_run (ht : Entries.Sound t.entries) (h : op.run r t = .ok (n, t')) :
    Entries.Sound t'.entries := by
  obtain ⟨-, -, -, he⟩ := run_eq_ok h
  exact he ▸ sound_onEntries ht r.version

theorem sound_step (ht : Entries.Sound t.entries) : Entries.Sound (op.step r t).entries := by
  rw [step]
  split
  · next h => exact sound_run ht h
  · exact ht

end Operation

end WideColumn.Table
