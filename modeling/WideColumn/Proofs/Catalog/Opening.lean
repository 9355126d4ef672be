import WideColumn.Proofs.Catalog.Outcome
import WideColumn.Proofs.Table.Loading

/-! # Opening a directory that agrees with a catalog

What is opened depends on the volume alone. It agrees with the directory, and from a directory that
agrees with a catalog comes the same catalog, with its tables in order of their files. -/
namespace WideColumn.Catalog
open WideColumn.Schema

variable {directory file : String} {v : Volume} {k k' : Machine} {c : Catalog} {t : Table}

/-- The table in a file. -/
def tableIn (directory file : String) (v : Volume) : Except Fault Table := do
  let path := pathIn directory file
  let t ← Table.load path (← (v.read (Volume.path path)).mapError (Fault.disk ·.detail))
  if t.fileName != file then throw (.misnamedFile path t.name)
  return t

/-- The files of tables, in order. -/
def tableFiles (files : List String) : List String :=
  (files.filter isTableFile).mergeSort fun a b => decide (a ≤ b)

/-- The catalog in a directory. -/
def catalogIn (directory : String) (v : Volume) : Except Fault Catalog := do
  let files ← ((v.list (Volume.path directory)).map Machine.filesOf).mapError (Fault.disk ·.detail)
  return { directory, tables := ← (tableFiles files).mapM (tableIn directory · v) }

abbrev Reading (α : Type) := ExceptT Fault (StateM Machine) α

/-- What a program comes to and leaves behind. -/
def outcome {α : Type} (x : Reading α) (k : Machine) : Except Fault α × Machine := x.run.run k

/-- If no call of the disk fails, the program leaves the volume as it is and comes to `f` of it. -/
def Looks {α : Type} (x : Reading α) (f : Volume → Except Fault α) : Prop :=
  ∀ k : Machine, k.Calm → ∃ k', outcome x k = (f k.volume, k') ∧ k'.Calm ∧ k'.volume = k.volume

section

variable {α β : Type} {x : Reading α} {f : Volume → Except Fault α} {g : α → Reading β}

theorem outcome_bind_ok {a : α} (h : outcome x k = (.ok a, k')) :
    outcome (x >>= g) k = outcome (g a) k' := by
  rw [outcome] at h
  rw [outcome, ExceptT.run_bind, StateT.run_bind, h]
  rfl

theorem outcome_bind_error {e : Fault} (h : outcome x k = (.error e, k')) :
    outcome (x >>= g) k = (.error e, k') := by
  rw [outcome] at h
  rw [outcome, ExceptT.run_bind, StateT.run_bind, h]
  rfl

theorem outcome_demand {fault : String → Fault} (call : StateM Machine (Except DiskError α)) :
    outcome (demand fault call) k = ((call k).1.mapError (fault ·.detail), (call k).2) := by
  have hlift : outcome (ExceptT.lift call) k = (.ok (call k).1, (call k).2) := rfl
  rw [demand, outcome_bind_ok hlift]
  cases (call k).1 <;> rfl

namespace Looks

protected theorem pure (a : α) : Looks (Pure.pure a) fun _ => .ok a := fun k hk => ⟨k, rfl, hk, rfl⟩

protected theorem throw (e : Fault) : Looks (MonadExcept.throw e : Reading α) fun _ => .error e :=
  fun k hk => ⟨k, rfl, hk, rfl⟩

protected theorem lift (y : Except Fault α) : Looks (liftM y) fun _ => y :=
  fun k hk => ⟨k, by cases y <;> rfl, hk, rfl⟩

protected theorem bind {h : α → Volume → Except Fault β} (hx : Looks x f)
    (hg : ∀ a, Looks (g a) (h a)) : Looks (x >>= g) fun v => f v >>= (h · v) := by
  intro k hk
  obtain ⟨k', hrun, hk', hv⟩ := hx k hk
  dsimp only
  cases hf : f k.volume with
  | error e => exact ⟨k', outcome_bind_error (hf ▸ hrun), hk', hv⟩
  | ok a =>
    obtain ⟨k'', hrest, hk'', hv'⟩ := hg a k' hk'
    refine ⟨k'', ?_, hk'', hv'.trans hv⟩
    rw [outcome_bind_ok (hf ▸ hrun), hrest, hv]
    rfl

protected theorem mapM {h : α → Volume → Except Fault β} (hg : ∀ a, Looks (g a) (h a))
    (l : List α) :
    Looks (l.mapM g) fun v => l.mapM (h · v) := by
  induction l with
  | nil => exact Looks.pure []
  | cons a l ih =>
    simp only [List.mapM_cons]
    exact (hg a).bind fun b => ih.bind fun bs => Looks.pure (b :: bs)

protected theorem demand {fault : String → Fault} (g : Volume → Except DiskError α) :
    Looks (demand fault (Machine.look g)) fun v => (g v).mapError (fault ·.detail) := by
  intro k hk
  rw [outcome_demand, Machine.look_of_calm hk]
  exact ⟨_, rfl, hk, rfl⟩

end Looks

end

theorem looks_loadFile (directory file : String) :
    Looks (loadFile directory file) (tableIn directory file) := by
  apply (Looks.demand (Volume.read · (Volume.path (pathIn directory file)))).bind
  intro text
  apply (Looks.lift (Table.load (pathIn directory file) text)).bind
  intro t
  by_cases hname : (t.fileName != file) = true
  · simp only [if_pos hname]
    exact (Looks.throw _).bind fun _ => Looks.pure t
  · simp only [if_neg hname]
    exact Looks.pure t

/-- Opening, once the directory is there. -/
private def openThere (directory : String) : Reading Catalog := do
  let files ← demand .disk (Host.fileNames directory)
  return { directory, tables := ← (tableFiles files).mapM (loadFile directory) }

private theorem looks_openThere (directory : String) :
    Looks (openThere directory) (catalogIn directory) := by
  refine (Looks.demand fun v => (v.list (Volume.path directory)).map Machine.filesOf).bind
    fun files => ?_
  apply (Looks.mapM (looks_loadFile directory) (tableFiles files)).bind
  intro tables
  exact Looks.pure (Catalog.mk directory tables)

private theorem outcome_pathExists (hk : k.Calm) : outcome (Host.pathExists directory) k =
    (.ok (k.volume.find? (Volume.path directory)).isOk, { k with calls := k.calls + 1 }) := by
  let look (v : Volume) : Except DiskError Unit := (v.find? (Volume.path directory)).map fun _ => ()
  have houtcome : outcome (Host.pathExists directory) k =
      (.ok (Machine.look look k).1.isOk, (Machine.look look k).2) := rfl
  rw [houtcome, Machine.look_of_calm hk]
  dsimp only [look]
  cases k.volume.find? (Volume.path directory) <;> rfl

private theorem outcome_makeDirectory (hk : k.Calm) :
    outcome (demand .noNewDirectory (Host.makeDirectory directory)) k =
      match k.volume.makeDirectory (Volume.path directory) with
      | .ok v => (.ok (), { k with volume := v, calls := k.calls + 1 })
      | .error e => (.error (.noNewDirectory e.detail), { k with calls := k.calls + 1 }) := by
  have hcall : (Host.makeDirectory directory : StateM Machine _) k = _ :=
    Machine.change_of_calm hk (Volume.makeDirectory · (Volume.path directory))
  rw [outcome_demand, hcall]
  cases k.volume.makeDirectory (Volume.path directory) <;> rfl

private theorem outcome_openAt (hk : k.Calm) (make : Bool) :
    outcome (openAt directory make) k =
      if (k.volume.find? (Volume.path directory)).isOk = true then
        outcome (openThere directory) { k with calls := k.calls + 1 }
      else if make = true then
        match k.volume.makeDirectory (Volume.path directory) with
        | .ok v => outcome (openThere directory) { k with volume := v, calls := k.calls + 1 + 1 }
        | .error e => (.error (.noNewDirectory e.detail), { k with calls := k.calls + 1 + 1 })
      else (.error (.noDirectory directory), { k with calls := k.calls + 1 }) := by
  rw [openAt, outcome_bind_ok (outcome_pathExists hk)]
  cases (k.volume.find? (Volume.path directory)).isOk with
  | true => rfl
  | false =>
    cases make with
    | false => rfl
    | true =>
      have hmake : outcome (demand .noNewDirectory (Host.makeDirectory directory))
          { k with calls := k.calls + 1 } = _ := outcome_makeDirectory hk
      cases hv : k.volume.makeDirectory (Volume.path directory) with
      | error e =>
        simp only [hv] at hmake
        exact outcome_bind_error hmake
      | ok v =>
        simp only [hv] at hmake
        exact outcome_bind_ok hmake

/-- The volume of a machine on which a directory was opened has the catalog in that directory. -/
theorem catalogIn_of_openAt {make : Bool} (hk : k.Calm) (hsound : k.volume.Sound)
    (h : outcome (openAt directory make) k = (.ok c, k')) :
    k'.Calm ∧ k'.volume.Sound ∧ catalogIn directory k'.volume = .ok c := by
  have hthere {k : Machine} (hk : k.Calm) (hsound : k.volume.Sound)
      (h : outcome (openThere directory) k = (.ok c, k')) :
      k'.Calm ∧ k'.volume.Sound ∧ catalogIn directory k'.volume = .ok c := by
    obtain ⟨k'', hrun, hk'', hv⟩ := looks_openThere directory k hk
    rw [h, Prod.mk.injEq] at hrun
    obtain ⟨hc, rfl⟩ := hrun
    exact ⟨hk'', hv ▸ hsound, hv ▸ hc.symm⟩
  rw [outcome_openAt hk] at h
  split at h
  · exact hthere (k := { k with calls := k.calls + 1 }) hk hsound h
  · split at h
    · split at h
      · next v hv =>
        exact hthere (k := { k with volume := v, calls := k.calls + 1 + 1 }) hk
          (Volume.sound_of_makeDirectory hsound hv) h
      · cases h
    · cases h

/-- To open a directory that is there changes nothing. -/
theorem openAt_of_directory (hk : k.Calm)
    (hd : k.volume.find? (Volume.path directory) = .ok .directory) (make : Bool) :
    ∃ k', outcome (openAt directory make) k = (catalogIn directory k.volume, k') ∧
      k'.volume = k.volume := by
  obtain ⟨k', hrun, -, hv⟩ := looks_openThere directory { k with calls := k.calls + 1 } hk
  refine ⟨k', ?_, hv⟩
  have hthere : (k.volume.find? (Volume.path directory)).isOk = true := by rw [hd]; rfl
  rw [outcome_openAt hk, if_pos hthere, hrun]

section

variable {α β : Type} {x : Reading α} {g : α → Reading β} {b : β}

theorem outcome_bind_eq_ok : outcome (x >>= g) k = (.ok b, k') ↔
    ∃ a k₁, outcome x k = (.ok a, k₁) ∧ outcome (g a) k₁ = (.ok b, k') := by
  cases hx : outcome x k with
  | mk r k₁ =>
    cases r with
    | ok a =>
      rw [outcome_bind_ok hx]
      constructor
      · exact fun h => ⟨a, k₁, rfl, h⟩
      · intro h
        obtain ⟨_, _, heq, h⟩ := h
        cases heq
        exact h
    | error e =>
      rw [outcome_bind_error hx]
      constructor
      · intro h
        cases h
      · intro h
        obtain ⟨_, _, heq, -⟩ := h
        cases heq

theorem map_eq_of_mapM {name : β → α} {p : β → Prop} {l : List α} {bs : List β}
    (hg : ∀ a k b k', outcome (g a) k = (.ok b, k') → name b = a ∧ p b)
    (h : outcome (l.mapM g) k = (.ok bs, k')) : bs.map name = l ∧ ∀ b ∈ bs, p b := by
  induction l generalizing k bs with
  | nil =>
    cases h
    exact ⟨rfl, List.forall_mem_nil _⟩
  | cons a l ih =>
    rw [List.mapM_cons] at h
    obtain ⟨b, k₁, hb, h⟩ := outcome_bind_eq_ok.mp h
    obtain ⟨cs, k₂, hcs, h⟩ := outcome_bind_eq_ok.mp h
    cases h
    obtain ⟨hname, hp⟩ := hg a _ _ _ hb
    obtain ⟨hnames, hps⟩ := ih hcs
    exact ⟨List.cons_eq_cons.mpr ⟨hname, hnames⟩, List.forall_mem_cons.mpr ⟨hp, hps⟩⟩

end

theorem demand_eq_ok {α : Type} {fault : String → Fault}
    {call : StateM Machine (Except DiskError α)} {a : α}
    (h : outcome (demand fault call) k = (.ok a, k')) : call k = (.ok a, k') := by
  rw [outcome_demand] at h
  obtain ⟨hok, rfl⟩ := Prod.mk.inj h
  exact Prod.ext (mapError_eq_ok.mp hok) rfl

/-- The text of a loaded table is that of some file, and the table has the file of its name. -/
theorem loadFile_eq_ok (h : outcome (loadFile directory file) k = (.ok t, k')) :
    t.fileName = file ∧ ∃ path text, Table.load path text = .ok t := by
  obtain ⟨text, k₁, -, h⟩ := outcome_bind_eq_ok.mp h
  obtain ⟨s, k₂, hload, h⟩ := outcome_bind_eq_ok.mp h
  have hloaded : Table.load (pathIn directory file) text = .ok s := by
    cases hs : Table.load (pathIn directory file) text with
    | error e =>
      rw [hs] at hload
      cases hload
    | ok r =>
      rw [hs] at hload
      cases hload
      rfl
  by_cases hname : (s.fileName != file) = true
  · rw [if_pos hname] at h
    cases h
  · rw [if_neg hname] at h
    cases h
    exact ⟨by simpa using hname, _, _, hloaded⟩

theorem nodup_filesOf {l : List (String × Node)} (h : (l.map (·.1)).Nodup) :
    (Machine.filesOf l).Nodup := by
  refine List.pairwise_filterMap.mpr ((List.pairwise_map.mp h).imp ?_)
  rintro ⟨name, n⟩ ⟨name', n'⟩ hne file hfile file' hfile' rfl
  cases n <;> cases hfile
  cases n' <;> cases hfile'
  exact hne rfl

/-- Whether or not a call of the disk failed on the way, the tables are those of the files that the
directory had, and if it was made, there are none. Each was loaded from a text. -/
theorem loaded_of_openAt {make : Bool} (h : outcome (openAt directory make) k = (.ok c, k')) :
    c.tables.map Table.fileName =
      tableFiles (Machine.filesOf (k.volume.children (Volume.path directory))) ∧
      ∀ t ∈ c.tables, ∃ path text, Table.load path text = .ok t := by
  have hthere {k : Machine} (h : outcome (openThere directory) k = (.ok c, k')) :
      c.tables.map Table.fileName =
        tableFiles (Machine.filesOf (k.volume.children (Volume.path directory))) ∧
        ∀ t ∈ c.tables, ∃ path text, Table.load path text = .ok t := by
    obtain ⟨files, k₁, hfiles, h⟩ := (outcome_bind_eq_ok
      (x := demand .disk (Host.fileNames directory))).mp h
    obtain ⟨tables, k₂, htables, h⟩ := (outcome_bind_eq_ok
      (x := (tableFiles files).mapM (loadFile directory))).mp h
    cases h
    have hcall : Machine.look (fun v => (v.list (Volume.path directory)).map Machine.filesOf) k =
      (.ok files, k₁) := demand_eq_ok hfiles
    have hlook := Machine.look_eq_ok hcall
    cases hlist : k.volume.list (Volume.path directory) with
    | error e =>
      rw [hlist] at hlook
      cases hlook
    | ok l =>
      rw [hlist] at hlook
      obtain ⟨-, rfl⟩ := Volume.list_eq_ok_iff.mp hlist
      rw [Except.ok.inj hlook]
      exact map_eq_of_mapM (g := loadFile directory) (fun _ _ _ _ h => loadFile_eq_ok h) htables
  obtain ⟨there, k₁, hexists, h⟩ := outcome_bind_eq_ok.mp h
  have hvolume : k₁.volume = k.volume := by
    obtain ⟨-, rfl⟩ := Prod.mk.inj hexists
    exact Machine.volume_look (fun v => (v.find? (Volume.path directory)).map fun _ => ()) k
  rw [← hvolume]
  cases there with
  | true => exact hthere h
  | false =>
    cases make with
    | false => cases h
    | true =>
      obtain ⟨_, k₂, hmake, h⟩ := (outcome_bind_eq_ok
        (x := demand .noNewDirectory (Host.makeDirectory directory))
          (g := fun _ => openThere directory)).mp h
      rw [← Volume.children_of_makeDirectory (Machine.change_eq_ok (demand_eq_ok hmake))]
      exact hthere h

theorem fileNames_of_openAt {make : Bool} (h : outcome (openAt directory make) k = (.ok c, k')) :
    c.tables.map Table.fileName =
      tableFiles (Machine.filesOf (k.volume.children (Volume.path directory))) ∧
      ∀ t ∈ c.tables, checkTableName t.name = .ok () := by
  obtain ⟨hfiles, hloaded⟩ := loaded_of_openAt h
  refine ⟨hfiles, fun t ht => ?_⟩
  obtain ⟨path, text, hload⟩ := hloaded t ht
  exact (Table.load_eq_ok.mp hload).2

/-- The entries of the tables are in order, whatever order the files had. -/
theorem sound_of_openAt {make : Bool} (h : outcome (openAt directory make) k = (.ok c, k')) :
    ∀ t ∈ c.tables, Entries.Sound t.entries := by
  intro t ht
  obtain ⟨path, text, hload⟩ := (loaded_of_openAt h).2 t ht
  exact Table.sound_of_decode (Table.load_eq_ok.mp hload).1

/-- A directory without files is opened without tables. -/
theorem tables_of_openAt {make : Bool} (hempty : k.volume.children (Volume.path directory) = [])
    (h : outcome (openAt directory make) k = (.ok c, k')) : c.tables = [] := by
  have hnone : tableFiles (Machine.filesOf []) = [] := List.mergeSort_nil
  obtain ⟨hfiles, -⟩ := fileNames_of_openAt h
  rw [hempty, hnone] at hfiles
  exact List.map_eq_nil_iff.mp hfiles

end WideColumn.Catalog
