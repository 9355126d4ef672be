import WideColumn.Proofs.Catalog.Opening

/-! # The catalog in a directory

A catalog that was read from a directory agrees with it. From a directory that agrees with a catalog
that catalog is read, its tables in order of their files, as long as every history is short enough
to be stored. -/
namespace WideColumn.Catalog
open WideColumn.Schema

variable {directory file : String} {v : Volume} {c : Catalog} {t : Table} {files : List String}

theorem mem_tableFiles : file ∈ tableFiles files ↔ file ∈ files ∧ isTableFile file = true := by
  rw [tableFiles, List.mem_mergeSort, List.mem_filter]

theorem nodup_tableFiles (h : files.Nodup) : (tableFiles files).Nodup :=
  (List.mergeSort_perm _ _).nodup_iff.mpr (h.sublist List.filter_sublist)

theorem mem_filesOf {l : List (String × Node)} :
    file ∈ Machine.filesOf l ↔ ∃ content, (file, .file content) ∈ l := by
  rw [Machine.filesOf, List.mem_filterMap]
  constructor
  · intro h
    obtain ⟨⟨name, n⟩, hmem, h⟩ := h
    cases n with
    | directory => cases h
    | file content => cases h; exact ⟨content, hmem⟩
  · intro h
    obtain ⟨content, hmem⟩ := h
    exact ⟨_, hmem, rfl⟩

/-- The tables in order of their files. -/
def byFile (tables : List Table) : List Table :=
  tables.mergeSort fun s t => decide (s.fileName ≤ t.fileName)

theorem pairwise_mergeSort_name (l : List String) :
    (l.mergeSort fun a b => decide (a ≤ b)).Pairwise fun a b => decide (a ≤ b) = true := by
  refine List.pairwise_mergeSort (fun a b c hab hbc => ?_) (fun a b => ?_) l
  · exact decide_eq_true (String.le_trans (of_decide_eq_true hab) (of_decide_eq_true hbc))
  · simpa using String.le_total a b

/-- The files of tables are the files of the tables in order. -/
theorem tableFiles_eq_map {tables : List Table} (hfiles : files.Nodup)
    (hnames : (tables.map Table.fileName).Nodup)
    (h : ∀ file, file ∈ files ∧ isTableFile file = true ↔ file ∈ tables.map Table.fileName) :
    tableFiles files = (byFile tables).map Table.fileName := by
  rw [byFile, List.map_mergeSort (s := fun a b => decide (a ≤ b)) fun _ _ _ _ => rfl]
  refine List.Perm.eq_of_pairwise (fun a b _ _ hab hba => ?_) (pairwise_mergeSort_name _)
    (pairwise_mergeSort_name _) ?_
  · exact String.le_antisymm (of_decide_eq_true hab) (of_decide_eq_true hba)
  · refine (List.perm_ext_iff_of_nodup (nodup_tableFiles hfiles) ?_).mpr fun file => ?_
    · exact (List.mergeSort_perm _ _).nodup_iff.mpr hnames
    · rw [mem_tableFiles, List.mem_mergeSort, h]

theorem mem_filesOf_children (h : v.Sound) {p : Path} :
    file ∈ Machine.filesOf (v.children p) ↔ ∃ content,
    v.node? (p ++ [file]) = some (.file content) := by
  rw [mem_filesOf]
  exact exists_congr fun _ => Volume.mem_children_iff h

theorem tableIn_eq_ok_iff : tableIn directory file v = .ok t ↔
    t.fileName = file ∧ checkTableName t.name = .ok () ∧ ∃ text, Table.decode text = .ok t ∧
      v.find? (Volume.path directory ++ [file]) = .ok (.file (.text text)) := by
  have hpath (h : checkTableName t.name = .ok ()) :
      Volume.path (pathIn directory t.fileName) = Volume.path directory ++ [t.fileName] :=
    path_filePath ⟨directory, []⟩ h
  simp only [tableIn, bind_eq_ok, mapError_eq_ok, Volume.read_eq_ok_iff, Table.load_eq_ok]
  constructor
  · intro h
    obtain ⟨text, hfind, s, ⟨hdecode, hlegal⟩, h⟩ := h
    by_cases hname : s.fileName = file
    · rw [if_neg (by simp [hname])] at h
      cases h
      subst hname
      exact ⟨rfl, hlegal, text, hdecode, hpath hlegal ▸ hfind⟩
    · rw [if_pos (by simp [hname])] at h
      cases h
  · intro h
    obtain ⟨rfl, hlegal, text, hdecode, hfind⟩ := h
    refine ⟨text, (hpath hlegal).symm ▸ hfind, t, ⟨hdecode, hlegal⟩, ?_⟩
    rw [if_neg (by simp)]
    rfl

theorem catalogIn_eq_ok_iff : catalogIn directory v = .ok c ↔
    c.directory = directory ∧ v.find? (Volume.path directory) = .ok .directory ∧
      (tableFiles (Machine.filesOf (v.children (Volume.path directory)))).mapM
        (tableIn directory · v) = .ok c.tables := by
  simp only [catalogIn, bind_eq_ok, mapError_eq_ok]
  constructor
  · intro h
    obtain ⟨files, hfiles, tables, htables, h⟩ := h
    cases h
    cases hlist : v.list (Volume.path directory) with
    | error e => rw [hlist] at hfiles; cases hfiles
    | ok l =>
      rw [hlist] at hfiles
      cases hfiles
      obtain ⟨hdirectory, rfl⟩ := Volume.list_eq_ok_iff.mp hlist
      exact ⟨rfl, hdirectory, htables⟩
  · intro h
    obtain ⟨rfl, hdirectory, htables⟩ := h
    refine ⟨_, ?_, c.tables, htables, rfl⟩
    rw [Volume.list_eq_ok_iff.mpr ⟨hdirectory, rfl⟩]
    rfl

theorem agreesIn_of_catalogIn (hsound : v.Sound) (h : catalogIn directory v = .ok c) :
    AgreesIn directory c v := by
  obtain ⟨rfl, hdirectory, htables⟩ := catalogIn_eq_ok_iff.mp h
  have hread : ∀ t ∈ c.tables, ∃ file, tableIn c.directory file v = .ok t := fun t ht => by
    obtain ⟨file, -, hfile⟩ := exists_of_mapM_eq_ok htables ht
    exact ⟨file, hfile⟩
  have hfiles : c.tables.map Table.fileName =
      tableFiles (Machine.filesOf (v.children (Volume.path c.directory))) :=
    (map_eq_of_mapM_eq_ok (g := id) htables fun _ _ ht => (tableIn_eq_ok_iff.mp ht).1).trans
      (List.map_id _)
  refine ⟨rfl, hsound, hdirectory, fun t ht => ?_, ?_, fun t ht => ?_, fun t ht => ?_, ?_⟩
  · obtain ⟨file, hfile⟩ := hread t ht
    exact (tableIn_eq_ok_iff.mp hfile).2.1
  · have hnodup : (c.tables.map Table.fileName).Nodup :=
      hfiles ▸ nodup_tableFiles (nodup_filesOf (Volume.nodup_children hsound))
    refine List.pairwise_map.mpr ((List.pairwise_map.mp hnodup).imp fun hne hname => hne ?_)
    exact congrArg tableFileName hname
  · obtain ⟨file, hfile⟩ := hread t ht
    obtain ⟨-, -, text, hdecode, -⟩ := tableIn_eq_ok_iff.mp hfile
    exact Table.sound_of_decode hdecode
  · obtain ⟨file, hfile⟩ := hread t ht
    obtain ⟨rfl, -, text, hdecode, hfind⟩ := tableIn_eq_ok_iff.mp hfile
    exact ⟨text, .inl hdecode, hfind⟩
  · intro file content hending hnode
    have hmem : file ∈ c.tables.map Table.fileName := by
      rw [hfiles, mem_tableFiles, mem_filesOf_children hsound]
      exact ⟨⟨content, hnode⟩, hending⟩
    exact List.mem_map.mp hmem

/-- The files of tables are those of the tables in memory. -/
theorem Agrees.mem_files_iff (h : Agrees c v) :
    file ∈ Machine.filesOf (v.children (Volume.path c.directory)) ∧ isTableFile file = true ↔
      file ∈ c.tables.map Table.fileName := by
  rw [mem_filesOf_children h.sound, List.mem_map]
  constructor
  · intro h
    obtain ⟨⟨content, hnode⟩, hending⟩ := h
    exact h.known file content hending hnode
  · intro h
    obtain ⟨t, ht, rfl⟩ := h
    obtain ⟨text, -, hfind⟩ := h.stored t ht
    exact ⟨⟨.text text, (Volume.find?_eq_ok_iff.mp hfind).2.2⟩,
      isTableFile_tableFileName (h.legal t ht)⟩

theorem Agrees.tableIn (h : Agrees c v) (ht : t ∈ c.tables) (hs : Document.Storable t.entries) :
    tableIn c.directory t.fileName v = .ok t := by
  obtain ⟨text, htext, hfind⟩ := h.stored t ht
  refine tableIn_eq_ok_iff.mpr ⟨rfl, h.legal t ht, text, ?_, hfind⟩
  rcases htext with hdecode | rfl
  · exact hdecode
  · exact Table.decode_encode_of_sound (h.entries t ht) hs

theorem catalogIn_of_agreesIn (h : AgreesIn directory c v)
    (hs : ∀ t ∈ c.tables, Document.Storable t.entries) :
    catalogIn directory v = .ok { directory, tables := byFile c.tables } := by
  obtain ⟨rfl, h⟩ := h
  have hnames : (c.tables.map Table.fileName).Nodup :=
    List.pairwise_map.mpr ((List.pairwise_map.mp h.distinct).imp fun hne hfile =>
      hne (tableFileName_injective hfile))
  refine catalogIn_eq_ok_iff.mpr ⟨rfl, h.directory, ?_⟩
  rw [tableFiles_eq_map (nodup_filesOf (Volume.nodup_children h.sound)) hnames fun _ =>
    h.mem_files_iff]
  apply mapM_map_eq_ok
  intro t ht
  have hmem : t ∈ c.tables := List.mem_mergeSort.mp ht
  exact h.tableIn hmem (hs t hmem)

end WideColumn.Catalog
