import WideColumn.Proofs.Catalog.Removal

/-! # Names and the order of tables

A catalog has no two tables of one name, so a name stands for one table, and every write goes to the
table it was meant for. Tables keep their order: a new table comes last, one that goes leaves the
others in place, and a table that is written to stays where it is. None of this depends on the
files. -/
namespace WideColumn.Catalog
open WideColumn.Schema

variable {name : String} {c d : Catalog} {t next : Table} {k : Machine}

/-- The tables in order, each by its name and its identifier. -/
def keys (c : Catalog) : List (String × Uuid) := c.tables.map fun t => (t.name, t.id)

theorem find?_eq_some_iff (h : c.names.Nodup) :
    c.find? name = some t ↔ t ∈ c.tables ∧ t.name = name := by
  constructor
  · exact mem_of_find?
  · intro ht
    obtain ⟨ht, rfl⟩ := ht
    exact find?_of_mem h ht

variable {keys : List (String × Uuid)}

/-- A path that the creation of a table may overwrite: that of its own file, if the disk does not
say whether there is something. -/
def MayOverwrite (c : Catalog) (name : String) (k : Machine) (q : Path) : Prop :=
  (k.outages k.calls).isSome = true ∧ q = Volume.path (c.filePath name)

/-- If the answer was that nothing is at a path, and the disk could answer, then nothing is
there. -/
def Vacant (path : String) (k : Machine) (found : Bool) : Prop :=
  found = false → k.outages k.calls = none → ∀ n, k.volume.find? (Volume.path path) ≠ .ok n

/-- What is saved where nothing was leaves everything that was there. -/
theorem Underway.keepsBut {k k' : Machine} (h : Underway (· == name) c k.volume d k')
    (hlegal : checkTableName name = .ok ()) (hvacant : Vacant (c.filePath name) k false) :
    k.volume.KeepsBut k'.volume (c.MayOverwrite name k) := by
  refine h.2.keepsBut.mono fun q n hq hn => ?_
  obtain ⟨_, ⟨other, hother, -, rfl⟩, rfl⟩ := hq
  rw [beq_iff_eq.mp hother, ← path_filePath c hlegal] at hn ⊢
  exact ⟨Option.isSome_iff_ne_none.mpr fun hcall => hvacant rfl hcall n hn, rfl⟩

end WideColumn.Catalog
