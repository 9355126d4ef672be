import WideColumn.Proofs.Catalog.Truncation
import WideColumn.Proofs.Table.Lawful

/-! # Truncation makes a table anew

From an empty directory on, every table has a file and families that a new table may have, whatever
calls of the disk failed meanwhile. So a truncation whose own calls do not fail goes through: the
table is empty, comes last and is what its file holds, and everything else stays as it was. -/
namespace WideColumn.Catalog
open WideColumn.Schema

variable {name : String} {c d : Catalog} {v w : Volume} {k k' : Machine} {t fresh : Table}

private theorem housed_makeDirectory (h : Housed c k.volume) (p : Path) :
    Housed c (Machine.change (Volume.makeDirectory · p) k).2.volume := by
  rcases Machine.volume_change (Volume.makeDirectory · p) k with hsame | hmade
  · exact hsame ▸ h
  · exact h.mono (.ofMakeDirectory hmade)

/-- A write that fails half-way leaves a file, too. -/
private theorem housed_writeFile (h : Housed c k.volume) (hlegal : checkTableName name = .ok ())
    (text : String) :
    Housed c (Machine.writeFile (Volume.path (c.filePath name)) text k).2.volume := by
  rw [path_filePath c hlegal]
  rcases Machine.volume_writeFile (Volume.path c.directory ++ [tableFileName name]) text k with
    hsame | ⟨content, hwrite⟩
  · exact hsame ▸ h
  · exact h.mono (.ofWrite hwrite)

/-- A removal that is refused leaves every file, and the table may go whether its file was there or
not. -/
private theorem housed_removeFile (h : Housed c k.volume) (ht : t ∈ c.tables)
    {r : Except DiskError Unit}
    (hcall : Machine.change (Volume.remove · (Volume.path (c.filePath t.name))) k = (r, k')) :
    Housed (c.remove t.name) k'.volume ∧ ∀ e, r = .error e → Housed c k'.volume := by
  cases r with
  | ok u =>
    obtain ⟨_, -, hw⟩ := Volume.remove_eq_ok (Machine.change_eq_ok hcall)
    exact ⟨hw ▸ h.remove (h.named.legal t ht), fun _ he => by cases he⟩
  | error e =>
    have hsame : Housed c k'.volume := Machine.change_eq_error hcall ▸ h
    exact ⟨hsame.forget t.name, fun _ _ => hsame⟩

private theorem preserves_save_housed (hlegal : checkTableName t.name = .ok ()) :
    Preserves (fun d k => d = c ∧ Housed c k.volume) (save t) := by
  refine Ends.bind Ends.get fun d => ?_
  intro d' k h
  obtain ⟨rfl, rfl, h⟩ := h
  refine Preserves.bind (Preserves.demand fun d' k hd => ?_)
    (fun _ => Preserves.demand fun d' k hd => ?_) d k ⟨rfl, h⟩
  · exact ⟨hd.1, housed_makeDirectory hd.2 _⟩
  · exact ⟨hd.1, housed_writeFile hd.2 hlegal t.encode⟩

private theorem preserves_mutate_housed {α : Type}
    {op : Readings → Table → Except Fault (α × Table)} (hop : IsProper op) (name : String) :
    Preserves (fun c k => Housed c k.volume) (mutate name op) := by
  refine Ends.bind (Ends.ask fun _ _ _ hc _ => hc) fun t => ?_
  refine Ends.bind (Q := fun _ c k => c.table name = .ok t ∧ Housed c k.volume) ?_ fun r => ?_
  · exact fun c k hc => ⟨.ok _, c, _, rfl, hc⟩
  refine Ends.bind (Ends.lift fun _ _ _ hc => hc.2) fun answer => ?_
  obtain ⟨a, next⟩ := answer
  intro c k hc
  obtain ⟨hrun, htable, hc⟩ := hc
  have hfind := find?_of_table htable
  obtain ⟨hmem, hname⟩ := mem_of_find? hfind
  have hnext : next.name = name := (hop.name_eq hrun).trans hname
  have hsave := preserves_save_housed (c := c) (t := next) (hnext ▸ hname ▸ hc.named.legal t hmem)
  refine Ends.bind (hsave.weaken fun _ d k hd => hd.1 ▸ hd.2) (fun _ => ?_) c k ⟨rfl, hc⟩
  refine Ends.bind (Q := fun _ d k => Housed d k.volume) (Ends.modify fun d k hd => ?_) fun _ =>
    Ends.pure fun _ _ h => h
  obtain ⟨rfl, hd⟩ := hd
  exact hd.replace hfind hnext

private theorem preserves_createTable_housed (name : String) (families : List Family) :
    Preserves (fun c k => Housed c k.volume) (createTable name families) := by
  refine Ends.bind (Ends.lift fun _ _ _ hd => hd) fun _ => ?_
  refine Ends.bind Ends.get fun c => ?_
  intro d k hd
  obtain ⟨rfl, hlegal, hd⟩ := hd
  refine Ends.check (E := fun _ d k => Housed d k.volume)
    (P := fun d k => d = c ∧ Housed c k.volume) (fun _ d k hd => hd.1 ▸ hd.2) (fun hnew => ?_) c k ⟨rfl, hd⟩
  refine Ends.bind (Q := fun _ d k => d = c ∧ Housed c k.volume) ?_ fun _ =>
    Ends.check (fun _ d k hd => hd.1 ▸ hd.2) fun _ => ?_
  · intro d k hd
    let look (v : Volume) : Except DiskError Unit :=
      (v.find? (Volume.path (c.filePath name))).map fun _ => ()
    exact ⟨.ok _, d, (Machine.look look k).2, rfl, hd.1, (Machine.volume_look look k).symm ▸ hd.2⟩
  refine Ends.bind (Ends.lift fun d k _ hd => hd.1 ▸ hd.2) fun _ => ?_
  refine Ends.bind (Q := fun _ d k => d = c ∧ Housed c k.volume)
    (fun d k hd => ⟨.ok _, d, _, rfl, hd.2⟩) fun id => ?_
  refine Ends.bind (Q := fun _ d k => d = c ∧ Housed c k.volume)
    (fun d k hd => ⟨.ok _, d, _, rfl, hd⟩) fun now => ?_
  have hnone : c.find? name = none := by simpa [contains] using hnew
  let t := Table.blank name families id now
  have hsave := (ends_save (c := c) (t := t) hlegal).and
    (preserves_save_housed (c := c) (t := t) hlegal)
  refine Ends.bind ((hsave.weaken fun _ d k hd => hd.2.1 ▸ hd.2.2).pre fun d k hd => ⟨hd.1, hd⟩)
    fun _ => ?_
  refine Ends.modify fun d k hd => ?_
  obtain ⟨⟨rfl, hread⟩, -, hd⟩ := hd
  exact hd.add hlegal hnone ⟨.text t.encode, Volume.read_eq_ok_iff.mp hread⟩

private theorem preserves_dropTable_housed (name : String) :
    Preserves (fun c k => Housed c k.volume) (dropTable name) := by
  refine Ends.bind Ends.get fun c => ?_
  refine Ends.bind (Ends.ask fun d k _ hd _ => hd.2) fun t => ?_
  intro d k hd
  obtain ⟨htable, rfl, hd⟩ := hd
  obtain ⟨hmem, rfl⟩ := mem_of_find? (find?_of_table htable)
  have hlegal := hd.named.legal t hmem
  refine Ends.check (E := fun _ d k => Housed d k.volume)
    (P := fun d k => d = c ∧ Housed c k.volume) (fun _ d k hd => hd.1 ▸ hd.2) (fun _ => ?_) c k ⟨rfl, hd⟩
  refine Ends.bind (Q := fun _ d k => d = c ∧ Housed (c.remove t.name) k.volume) ?_ fun _ =>
    Ends.modify ?_
  · refine Ends.bind (Q := fun r d k => d = c ∧ Housed (c.remove t.name) k.volume ∧
        ∀ e, r = .error e → Housed c k.volume)
      (Ends.observe (Machine.change (Volume.remove · (Volume.path (c.filePath t.name))))
        fun d k hd => ?_) fun r => ?_
    · obtain ⟨rfl, hd⟩ := hd
      exact ⟨rfl, housed_removeFile hd hmem rfl⟩
    · split
      · exact Ends.pure fun _ _ hd => ⟨hd.1, hd.2.1⟩
      · exact Ends.pure fun _ _ hd => ⟨hd.1, hd.2.1⟩
      · exact Ends.throw fun d k hd => hd.1 ▸ hd.2.2 _ rfl
  · intro d k hd
    obtain ⟨rfl, hd⟩ := hd
    exact hd

/-- Whatever the disk does, every table keeps a file. -/
theorem stable_housed : Stable fun c k => Housed c k.volume where
  mutate hop name := preserves_mutate_housed hop name
  createTable := preserves_createTable_housed
  dropTable := preserves_dropTable_housed

/-- The catalog and the volume of a directory that had no files when it was opened. It was written
to, and opened again while its files held what was in memory. Calls of the disk may have failed in
the course of the writes, and between two writes the machine may have become another. -/
inductive FromEmpty : Catalog → Volume → Prop where
  | opened {directory : String} {make : Bool} {k k' : Machine} {c : Catalog} (hk : k.Calm)
    (hsound : k.volume.Sound)
      (hempty : k.volume.children (Volume.path directory) = [])
      (h : outcome (openAt directory make) k = (.ok c, k')) : FromEmpty c k'.volume
  | written {c : Catalog} {k : Machine} (h : FromEmpty c k.volume) (op : Operation) :
      FromEmpty (op.step (c, k)).1 (op.step (c, k)).2.volume
  | reopened {c d : Catalog} {make : Bool} {k k' : Machine} (h : FromEmpty c k.volume) (hk : k.Calm)
      (hagrees : Agrees c k.volume) (hs : ∀ t ∈ c.tables, Document.Storable t.entries)
      (hopen : outcome (openAt c.directory make) k = (.ok d, k')) : FromEmpty d k'.volume

namespace FromEmpty

theorem after (h : FromEmpty c k.volume) (ops : List Operation) :
    FromEmpty (after ops (c, k)).1 (after ops (c, k)).2.volume := by
  induction ops generalizing c k with
  | nil => exact h
  | cons op ops ih => exact ih (h.written op)

theorem housed (h : FromEmpty c v) : Housed c v := by
  induction h with
  | opened hk hsound _ h => exact (settled_of_openAt hk hsound h).housed
  | written _ op ih => exact stable_housed.step op ih
  | reopened _ hk hagrees _ hopen _ => exact (settled_of_openAt hk hagrees.sound hopen).housed

theorem renewable (h : FromEmpty c v) : ∀ t ∈ c.tables, t.Renewable := by
  induction h with
  | opened _ _ hempty h =>
    rw [tables_of_openAt hempty h]
    exact List.forall_mem_nil _
  | @written _ k _ op ih => exact stable_renewable.step op (k := k) ih
  | @reopened c d make k k' _ hk hagrees hs hopen ih =>
    obtain ⟨k'', hrun, -⟩ := openAt_of_directory hk hagrees.directory make
    rw [hopen, catalogIn_of_agreesIn ⟨rfl, hagrees⟩ hs] at hrun
    cases hrun
    exact fun t ht => ih t (List.mem_mergeSort.mp ht)

end FromEmpty

/-- A new table has taken the place of another, and nothing else has changed. -/
structure Renews (t fresh : Table) (c : Catalog) (v : Volume) (d : Catalog)
  (w : Volume) : Prop where
  name : fresh.name = t.name
  enabled : fresh.enabled = true
  entries : fresh.entries = []
  rowCount : fresh.rowCount = 0
  /-- The families have the names that they had, in their order, and each has the options of a new
  family. -/
  families : fresh.families = t.familyNames.map fun name => { name, options := {} }
  directory : d.directory = c.directory
  /-- The new table comes last, behind the others in their order, and there is no second one of its
  name. -/
  tables : d.tables = (c.tables.filter fun s => s.name != t.name) ++ [fresh]
  once : d.names.count t.name = 1
  /-- The file holds the new table, and is read as that table. -/
  file : w.find? (Volume.path (c.filePath t.name)) = .ok (.file (.text fresh.encode))
  loads : ∀ path, Table.load path fresh.encode = .ok fresh
  /-- What is elsewhere on the volume is there still, in its order. -/
  others : w.without (Volume.path (c.filePath t.name)) = v.without (Volume.path (c.filePath t.name))

theorem Housed.renews (h : Housed c v) (ht : t ∈ c.tables) (id : Uuid) (now : Time.Instant) :
    Renews t (t.renewed id now) c v ((c.remove t.name).add (t.renewed id now))
      (v.place (Volume.path (c.filePath t.name)) (.file (.text (t.renewed id now).encode))) where
  name := rfl
  enabled := rfl
  entries := rfl
  rowCount := rfl
  families := rfl
  directory := rfl
  tables := by rw [Catalog.add, Catalog.remove, removeFrom_eq_filter h.named.distinct]
  once := by
    rw [names, Catalog.add, List.map_append, List.count_append, List.count_eq_zero_of_not_mem]
    · simp [Table.renewed, Table.blank]
    · exact not_mem_names_of_find? (find?_remove_self h.named.distinct)
  file := by
    obtain ⟨content, hfile⟩ := h.files t ht
    rw [path_filePath c (h.named.legal t ht)] at hfile ⊢
    exact Volume.find?_place_of_find? hfile _
  loads := Table.load_encode (h.named.legal t ht) .nil (List.forall_mem_nil _)
  others := Volume.without_place ..

/-- In every state that an empty directory came to, and for every table, a truncation whose calls of
the disk do not fail goes through and makes the table anew. -/
theorem FromEmpty.truncates (h : FromEmpty c k.volume) (ht : t ∈ c.tables) (hk : k.Calm) :
    ∃ fresh d k', exec (truncate t.name) c k = ((.ok (), d), k') ∧
    Renews t fresh c k.volume d k'.volume := by
  obtain ⟨id, now, k', hrun⟩ := h.housed.exec_truncate hk (find?_of_mem h.housed.named.distinct ht)
  rw [Table.checkFamilies_eq_ok.mpr (h.renewable t ht)] at hrun
  obtain ⟨hrun, hv⟩ := hrun
  exact ⟨_, _, k', hrun, hv ▸ h.housed.renews ht id now⟩

/-- Two tables, one of them with a value and an altered family. -/
def oneAltered : Catalog × Machine :=
  after [.createTable "t" [{ name := "f" }, { name := "g" }], .createTable "a" [],
    .mutate "t" (.put "r" "f" "q" "v"), .alter "t" [("NAME", "f"), ("VERSIONS", "3")]]
      (⟨"d", []⟩, opened.2)

/-- The next write of a file fails and leaves bytes that are no text. -/
def full : Machine :=
  { oneAltered.2 with
    outages := fun n =>
      if n = oneAltered.2.calls + 1 then some ⟨.other "full", some (.bytes [0])⟩ else none }

def halfWritten : Catalog × Machine :=
  (Operation.mutate "t" (.put "r" "f" "q" "w")).step (oneAltered.1, full)

/-- The disk is well again, and the file of a table is spoiled. -/
def spoiled : Machine := { halfWritten.2 with outages := fun _ => none }

theorem fromEmpty_halfWritten : FromEmpty halfWritten.1 halfWritten.2.volume := by
  have hopened : FromEmpty ⟨"d", []⟩ opened.2.volume :=
    .opened (k := blankMachine) (fun _ => rfl) List.nodup_nil rfl opened_eq
  have hfull : FromEmpty oneAltered.1 full.volume := hopened.after _
  exact hfull.written _

theorem truncates_spoiled : (spoiled.volume.read (Volume.path "d/t.json")).isOk = false ∧
    ∃ t ∈ halfWritten.1.tables, t.entries.length = 1 ∧
    ∃ (fresh : Table) (d : Catalog) (k' : Machine),
      exec (truncate "t") halfWritten.1 spoiled = ((.ok (), d), k') ∧ d.names = ["a", "t"] ∧
        fresh.familyNames = ["f", "g"] ∧
        k'.volume.read (Volume.path "d/t.json") = .ok fresh.encode := by
  have hfound : (halfWritten.1.find? "t").map (fun t => (t.familyNames, t.entries.length)) =
      some (["f", "g"], 1) := by
    decide +kernel
  have hothers : (halfWritten.1.tables.filter fun s => s.name != "t").map (·.name) = ["a"] := by
    decide +kernel
  have hpath : halfWritten.1.filePath "t" = "d/t.json" := by decide +kernel
  have hunread : (spoiled.volume.read (Volume.path "d/t.json")).isOk = false := by decide +kernel
  obtain ⟨t, ht, htable⟩ := Option.map_eq_some_iff.mp hfound
  obtain ⟨hmem, hname⟩ := mem_of_find? ht
  obtain ⟨hnames, hentries⟩ := Prod.mk.inj htable
  obtain ⟨fresh, d, k', hrun, hd⟩ := fromEmpty_halfWritten.truncates (k := spoiled) hmem fun _ =>
    rfl
  rw [hname] at hrun
  refine ⟨hunread, t, hmem, hentries, fresh, d, k', hrun, ?_, ?_, ?_⟩
  · rw [names, hd.tables, List.map_append, hname, hothers, List.map_singleton, hd.name, hname]
    rfl
  · rw [Table.familyNames, hd.families, List.map_map, ← hnames]
    exact List.map_id' _
  · exact Volume.read_eq_ok_iff.mpr (hpath ▸ hname ▸ hd.file)

end WideColumn.Catalog
