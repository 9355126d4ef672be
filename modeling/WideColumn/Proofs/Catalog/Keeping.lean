import WideColumn.Proofs.Catalog.Outcome
import WideColumn.Proofs.Table.Run

/-! # Writes to a catalog keep it in agreement with its directory

One table is changed in memory after it was changed on disk. What is made of such steps keeps the
agreement, too, wherever a fault may stop it. -/
namespace WideColumn.Catalog
open WideColumn.Schema

variable {directory name : String} {c : Catalog} {v : Volume} {t : Table}

theorem triple_save (h : AgreesIn directory c v) (hlegal : checkTableName t.name = .ok ()) :
    Triple directory (fun c' v' => c' = c ∧ v' = v) (save t) fun _ c' w => c' = c ∧
    Saves c v w t := by
  refine Triple.bind Triple.get fun c => Triple.fix ?_
  intro _ _ h
  obtain ⟨rfl, rfl, rfl⟩ := h
  refine Triple.bind (triple_makeDirectory h) fun _ => Triple.fix ?_
  intro _ w h
  obtain ⟨rfl, hw⟩ := h
  rw [Volume.makeDirectory_of_find? h.2.directory] at hw
  cases hw
  refine (triple_writeFile h).mono (fun _ _ h => h) ?_
  intro _ _ w h
  obtain ⟨rfl, hw⟩ := h
  rw [path_filePath _ hlegal] at hw
  obtain ⟨hplaced, hfound⟩ := Volume.write_eq_ok h.2.directory hw
  exact ⟨rfl, hplaced, hfound⟩

theorem triple_removeFile {path : String} {content : Content}
    (hfile : v.find? (Volume.path path) = .ok (.file content)) :
    Triple directory (fun c' v' => c' = c ∧ v' = v) (removeFile path)
      fun _ c' w => c' = c ∧ w = v.without (Volume.path path) := by
  intro c k hk h
  obtain ⟨rfl, rfl⟩ := h
  have hcall := Machine.change_of_calm hk (Volume.remove · (Volume.path path))
  rw [Volume.remove_of_find? hfile] at hcall
  have hexec : exec (Host.removeFile path) c k =
      ((.ok (Machine.change (Volume.remove · (Volume.path path)) k).1, c),
        (Machine.change (Volume.remove · (Volume.path path)) k).2) := rfl
  rw [hcall] at hexec
  rw [removeFile, exec_bind_ok hexec]
  exact ⟨.ok (), c, _, rfl, hk, rfl, rfl⟩

/-- The program keeps the agreement, whether it comes to an answer or to a fault. -/
def Keeps {α : Type} (directory : String) (x : Program α) : Prop :=
  Triple directory (AgreesIn directory) x fun _ => AgreesIn directory

/-- On a disk that does not fail, memory and disk agree. -/
def Settled (directory : String) (c : Catalog) (k : Machine) : Prop :=
  k.Calm ∧ AgreesIn directory c k.volume

theorem Settled.calm {k : Machine} (h : Settled directory c k) : k.Calm := h.1

theorem Settled.agrees {k : Machine} (h : Settled directory c k) : Agrees c k.volume := h.2.2

theorem Keeps.preserves {α : Type} {x : Program α} (h : Keeps directory x) :
    Preserves (Settled directory) x := by
  intro c k hck
  obtain ⟨r, c', k', hrun, hk', hr⟩ := h c k hck.1 hck.2
  refine ⟨r, c', k', hrun, ?_⟩
  cases r <;> exact ⟨hk', hr⟩

/-- An operation on a table that does what one of the writes does. -/
def IsProper {α : Type} (op : Readings → Table → Except Fault (α × Table)) : Prop :=
  ∃ write : Table.Operation, ∀ r t a next, op r t = .ok (a, next) → ∃ n,
    write.run r t = .ok (n, next)

namespace IsProper

variable {α : Type} {op : Readings → Table → Except Fault (α × Table)} {r : Readings} {a : α}
  {next : Table}

theorem name_eq (h : IsProper op) (hrun : op r t = .ok (a, next)) : next.name = t.name := by
  obtain ⟨write, h⟩ := h
  obtain ⟨n, hwrite⟩ := h r t a next hrun
  exact (Table.Operation.run_eq_ok hwrite).1

theorem sound (h : IsProper op) (hrun : op r t = .ok (a, next)) (ht : Entries.Sound t.entries) :
    Entries.Sound next.entries := by
  obtain ⟨write, h⟩ := h
  obtain ⟨n, hwrite⟩ := h r t a next hrun
  exact Table.Operation.sound_run ht hwrite

end IsProper

theorem isProper_run (op : Table.Operation) : IsProper fun r t => op.run r t :=
  ⟨op, fun _ _ n _ h => ⟨n, h⟩⟩

/-- An operation on a table that does what one of the writes does which put to certain qualifiers
only. -/
def PutsOnly {α : Type} (allowed : String → Prop) (op : Readings → Table → Except Fault (α × Table))
    : Prop :=
  ∃ write : Table.Operation, write.PutsTo allowed ∧
    ∀ r t a next, op r t = .ok (a, next) → ∃ n, write.run r t = .ok (n, next)

theorem PutsOnly.isProper {α : Type} {allowed : String → Prop}
    {op : Readings → Table → Except Fault (α × Table)} (h : PutsOnly allowed op) : IsProper op := by
  obtain ⟨write, -, h⟩ := h
  exact ⟨write, h⟩

theorem IsProper.putsOnly {α : Type} {op : Readings → Table → Except Fault (α × Table)}
    (h : IsProper op) :
    PutsOnly (fun _ => True) op := by
  obtain ⟨write, h⟩ := h
  exact ⟨write, write.putsTo_true, h⟩

/-- A write without an answer does what one of the writes of a table does. -/
theorem putsOnly_of_run {allowed : String → Prop} {op : Readings → Table → Except Fault Table}
    (write : Table.Operation) (hwrite : write.PutsTo allowed)
    (hop : ∀ r t, write.run r t = do return (none, ← op r t)) :
    PutsOnly allowed fun r t => do return ((), ← op r t) := by
  refine ⟨write, hwrite, fun r t _ next h => ⟨none, ?_⟩⟩
  obtain ⟨s, hs, h⟩ := bind_eq_ok.mp h
  cases h
  rw [hop, hs]
  rfl

theorem isProper_of_run {op : Readings → Table → Except Fault Table} (write : Table.Operation)
    (hop : ∀ r t, write.run r t = do return (none, ← op r t)) :
    IsProper fun r t => do return ((), ← op r t) :=
  (putsOnly_of_run write write.putsTo_true hop).isProper

theorem find?_of_table (h : c.table name = .ok t) : c.find? name = some t := by
  rw [table] at h
  split at h
  · next s hs =>
    cases h
    exact hs
  · cases h

theorem keeps_mutate {α : Type} {op : Readings → Table → Except Fault (α × Table)}
    (hop : IsProper op) :
    Keeps directory (mutate name op) := by
  refine Triple.bind (Triple.ask fun _ _ h => h) fun t => ?_
  refine Triple.bind Triple.readClock fun r => ?_
  refine Triple.bind (Triple.lift fun _ _ h => h.2) ?_
  intro h
  obtain ⟨answer, next⟩ := h
  refine Triple.fix ?_
  intro c v h
  obtain ⟨hrun, htable, h⟩ := h
  obtain ⟨ht, rfl⟩ := mem_of_find? (find?_of_table htable)
  have hname := hop.name_eq hrun
  refine Triple.bind (triple_save h (hname ▸ h.2.legal t ht)) fun _ => ?_
  refine Triple.bind (Q := fun _ => AgreesIn directory) (Triple.modify ?_) fun _ =>
    Triple.pure fun _ _ h => h
  intro c w h
  obtain ⟨rfl, hw⟩ := h
  exact ⟨h.1, h.2.replace ht hname hw (hop.sound hrun (h.2.entries t ht))⟩

theorem keeps_createTable (families : List Family) :
    Keeps directory (createTable name families) := by
  refine Triple.bind (Triple.lift fun _ _ h => h) fun _ => ?_
  refine Triple.bind Triple.get fun c => Triple.fix ?_
  intro _ v h
  obtain ⟨rfl, hlegal, h⟩ := h
  have hstill : ∀ c' v', c' = c ∧ v' = v → AgreesIn directory c' v' := by
    intro _ _ h
    obtain ⟨rfl, rfl⟩ := h
    exact h
  refine Triple.check hstill fun hnew => ?_
  refine Triple.bind Triple.pathExists fun _ => Triple.check hstill fun _ => ?_
  refine Triple.bind (Triple.lift hstill) fun _ => ?_
  refine Triple.bind Triple.newId fun id => Triple.bind Triple.now fun now => ?_
  have hsave := triple_save (t := Table.blank name families id now) h hlegal
  have hnone : c.find? name = none := by simpa [contains] using hnew
  refine Triple.bind (hsave.mono (fun _ _ h => h.2) fun _ _ _ h => h) fun _ => Triple.modify ?_
  intro _ w h
  obtain ⟨rfl, hw⟩ := h
  exact ⟨h.1, h.2.add hw hlegal Entries.Sound.nil (not_mem_names_of_find? hnone)⟩

theorem keeps_dropTable : Keeps directory (dropTable name) := by
  refine Triple.bind Triple.get fun c => ?_
  refine Triple.bind (Triple.ask fun _ _ h => h.2) fun t => Triple.fix ?_
  intro _ v h
  obtain ⟨htable, rfl, h⟩ := h
  obtain ⟨ht, rfl⟩ := mem_of_find? (find?_of_table htable)
  obtain ⟨text, -, hfile⟩ := h.2.stored t ht
  have hpath := path_filePath c (h.2.legal t ht)
  refine Triple.check (fun _ _ hsame => ?_) fun _ => ?_
  · obtain ⟨rfl, rfl⟩ := hsame
    exact h
  rw [Table.fileName, ← hpath] at hfile
  refine Triple.bind (triple_removeFile hfile) fun _ => Triple.modify ?_
  intro _ w h
  obtain ⟨rfl, hw⟩ := h
  exact ⟨h.1, h.2.remove (hpath ▸ hw)⟩

end WideColumn.Catalog
