import WideColumn.Catalog.Basic
import WideColumn.Proofs.Host.Volume
import WideColumn.Proofs.Table.StoredEntries

/-! # Catalogs that agree with their directory

Every table in memory is in the file of its name, and every table file of the directory is of a
table in memory. This is kept if one table is written to its file and then put into the catalog, or
if its file is removed and then the table. -/
namespace WideColumn.Catalog
open WideColumn.Schema

variable {name other : String}

theorem exists_of_checkTableName (h : checkTableName name = .ok ()) :
    ∃ c cs, name.toList = c :: cs ∧ ∀ d ∈ c :: cs, isNameChar d = true := by
  rw [checkTableName] at h
  split at h
  · cases h
  · next c cs hcs =>
    split at h
    · cases h
    · split at h
      · cases h
      · next hnone =>
        refine ⟨c, cs, hcs, fun d hd => ?_⟩
        simpa using List.find?_eq_none.mp hnone d hd

theorem toList_tableFileName (name : String) :
    (tableFileName name).toList = name.toList ++ tableFileEnding.toList := String.toList_append

theorem slash_not_mem_tableFileName (h : checkTableName name = .ok ()) :
    '/' ∉ (tableFileName name).toList := by
  obtain ⟨c, cs, hcs, hall⟩ := exists_of_checkTableName h
  rw [toList_tableFileName, hcs, List.mem_append, not_or]
  exact ⟨fun hmem => absurd (hall _ hmem) (by decide), by decide⟩

theorem tableFileName_ne (name : String) :
    tableFileName name ≠ "" ∧ tableFileName name ≠ "." ∧ tableFileName name ≠ ".." := by
  have hlength : 5 ≤ (tableFileName name).toList.length := by
    rw [toList_tableFileName, List.length_append]
    exact Nat.le_add_left 5 _
  refine ⟨?_, ?_, ?_⟩ <;> (intro h; rw [h] at hlength; exact absurd hlength (by decide))

theorem tableFileName_injective : Function.Injective tableFileName := by
  intro s t h
  have hlist := congrArg String.toList h
  rw [toList_tableFileName, toList_tableFileName] at hlist
  exact String.toList_inj.mp (List.append_cancel_right hlist)

theorem isTableFile_tableFileName (h : checkTableName name = .ok ()) :
    isTableFile (tableFileName name) = true := by
  obtain ⟨c, cs, hcs, -⟩ := exists_of_checkTableName h
  have hlength : tableFileEnding.length < (tableFileName name).length := by
    rw [← String.length_toList, ← String.length_toList, toList_tableFileName, hcs]
    simp only [List.length_append, List.length_cons]
    omega
  rw [isTableFile, Bool.and_eq_true, List.isSuffixOf_iff_suffix, toList_tableFileName]
  exact ⟨List.suffix_append _ _, decide_eq_true hlength⟩

/-- The path of the file of a table is the path of the directory and the name of the file. -/
theorem path_filePath (c : Catalog) (h : checkTableName name = .ok ()) :
    Volume.path (c.filePath name) = Volume.path c.directory ++ [tableFileName name] :=
  Volume.path_pathIn _ (slash_not_mem_tableFileName h) (tableFileName_ne name)

/-- The text that a table was loaded from or saved as. -/
def IsTextOf (text : String) (t : Table) : Prop := Table.decode text = .ok t ∨ text = t.encode

structure Agrees (c : Catalog) (v : Volume) : Prop where
  sound : v.Sound
  directory : v.find? (Volume.path c.directory) = .ok .directory
  legal : ∀ t ∈ c.tables, checkTableName t.name = .ok ()
  distinct : c.names.Nodup
  entries : ∀ t ∈ c.tables, Entries.Sound t.entries
  /-- Every table is in its file. -/
  stored : ∀ t ∈ c.tables, ∃ text, IsTextOf text t ∧
    v.find? (Volume.path c.directory ++ [t.fileName]) = .ok (.file (.text text))
  /-- Every file is of a table. -/
  known : ∀ file content, isTableFile file = true →
    v.node? (Volume.path c.directory ++ [file]) = some (.file content) → ∃ t ∈ c.tables,
      t.fileName = file

variable {c : Catalog} {v w : Volume} {t : Table} {tables : List Table}

/-- A table is saved, and the catalog has it in place of any other of its name. -/
theorem Agrees.saved (h : Agrees c v) (hlegal : checkTableName t.name = .ok ())
    (hentries : Entries.Sound t.entries)
    (hw : w = v.place (Volume.path c.directory ++ [t.fileName]) (.file (.text t.encode)))
    (hfile : w.find? (Volume.path c.directory ++ [t.fileName]) = .ok (.file (.text t.encode)))
    (hdistinct : (tables.map (·.name)).Nodup)
    (hmem : ∀ s, s ∈ tables ↔ s = t ∨ s ∈ c.tables ∧ s.name ≠ t.name) :
    Agrees { c with tables } w := by
  have hbut : v.SameBut w (Volume.path c.directory) t.fileName := hw ▸ Volume.sameBut_place _ _
  have hother {s : Table} (hs : s.name ≠ t.name) : s.fileName ≠ t.fileName := fun hf =>
    hs (tableFileName_injective hf)
  refine ⟨hbut.sound h.sound, hbut.directory h.directory, ?_, hdistinct, ?_, ?_, ?_⟩
  · intro s hs
    rcases (hmem s).mp hs with rfl | ⟨hs, -⟩
    · exact hlegal
    · exact h.legal s hs
  · intro s hs
    rcases (hmem s).mp hs with rfl | ⟨hs, -⟩
    · exact hentries
    · exact h.entries s hs
  · intro s hs
    rcases (hmem s).mp hs with rfl | ⟨hs, hne⟩
    · exact ⟨s.encode, .inr rfl, hfile⟩
    · obtain ⟨text, htext, hfind⟩ := h.stored s hs
      exact ⟨text, htext, (hbut.find?_child h.directory (hother hne)).trans hfind⟩
  · intro file content hending hnode
    by_cases hf : file = t.fileName
    · exact ⟨t, (hmem t).mpr (.inl rfl), hf.symm⟩
    · have hsame : w.node? (Volume.path c.directory ++ [file]) = _ :=
        hbut.node _ (by simpa using hf)
      obtain ⟨s, hs, rfl⟩ := h.known file content hending (hsame.symm.trans hnode)
      exact ⟨s, (hmem s).mpr (.inr ⟨hs, fun hn => hf (congrArg tableFileName hn)⟩), rfl⟩

/-- The file of a table is removed, and then the table. -/
theorem Agrees.removed (h : Agrees c v)
    (hw : w = v.without (Volume.path c.directory ++ [tableFileName name]))
    (hdistinct : (tables.map (·.name)).Nodup)
    (hmem : ∀ s, s ∈ tables ↔ s ∈ c.tables ∧ s.name ≠ name) : Agrees { c with tables } w := by
  have hbut : v.SameBut w (Volume.path c.directory) (tableFileName name) :=
    hw ▸ Volume.sameBut_without _
  have hother {s : Table} (hs : s.name ≠ name) : s.fileName ≠ tableFileName name := fun hf =>
    hs (tableFileName_injective hf)
  refine ⟨hbut.sound h.sound, hbut.directory h.directory, ?_, hdistinct, ?_, ?_, ?_⟩
  · exact fun s hs => h.legal s ((hmem s).mp hs).1
  · exact fun s hs => h.entries s ((hmem s).mp hs).1
  · intro s hs
    obtain ⟨hs, hne⟩ := (hmem s).mp hs
    obtain ⟨text, htext, hfind⟩ := h.stored s hs
    exact ⟨text, htext, (hbut.find?_child h.directory (hother hne)).trans hfind⟩
  · intro file content hending hnode
    by_cases hf : file = tableFileName name
    · subst hw hf
      rw [Volume.node?_without (by simp), if_pos rfl] at hnode
      cases hnode
    · have hsame : w.node? (Volume.path c.directory ++ [file]) = _ :=
        hbut.node _ (by simpa using hf)
      obtain ⟨s, hs, rfl⟩ := h.known file content hending (hsame.symm.trans hnode)
      exact ⟨s, (hmem s).mpr ⟨hs, fun hn => hf (congrArg tableFileName hn)⟩, rfl⟩

theorem mem_of_find? (h : c.find? name = some t) : t ∈ c.tables ∧ t.name = name :=
  ⟨List.mem_of_find?_eq_some h, by simpa using List.find?_some h⟩

theorem not_mem_names_of_find? (h : c.find? name = none) : name ∉ c.names := by
  intro hmem
  obtain ⟨t, ht, rfl⟩ := List.mem_map.mp hmem
  exact List.find?_eq_none.mp h t ht (beq_self_eq_true t.name)

/-- The names of the tables are distinct, so a name is found in one place only. -/
theorem replaceIn_eq_map {next : Table} {l : List Table} (hl : (l.map (·.name)).Nodup) :
    replaceIn name next l = l.map fun s => if s.name = name then next else s := by
  induction l with
  | nil => rfl
  | cons s l ih =>
    obtain ⟨hs, hl⟩ := List.nodup_cons.mp hl
    rw [replaceIn, List.map_cons, ih hl]
    by_cases hn : s.name = name
    · rw [if_pos (beq_iff_eq.mpr hn), if_pos hn, map_ite_of_not_mem (hn ▸ hs)]
    · rw [if_neg (mt beq_iff_eq.mp hn), if_neg hn]

theorem removeFrom_eq_filter {l : List Table} (hl : (l.map (·.name)).Nodup) :
    removeFrom name l = l.filter fun s => s.name != name := by
  induction l with
  | nil => rfl
  | cons s l ih =>
    obtain ⟨hs, hl⟩ := List.nodup_cons.mp hl
    rw [removeFrom]
    by_cases hn : s.name = name
    · rw [if_pos (beq_iff_eq.mpr hn), List.filter_cons_of_neg (by simp [hn])]
      refine (List.filter_eq_self.mpr fun r hr => ?_).symm
      rw [bne_iff_ne]
      intro hrn
      exact hs (List.mem_map.mpr ⟨r, hr, hrn.trans hn.symm⟩)
    · rw [if_neg (mt beq_iff_eq.mp hn), List.filter_cons_of_pos (by simp [hn]), ih hl]

/-- A table and its text are put into the volume. -/
structure Saves (c : Catalog) (v w : Volume) (t : Table) : Prop where
  placed : w = v.place (Volume.path c.directory ++ [t.fileName]) (.file (.text t.encode))
  found : w.find? (Volume.path c.directory ++ [t.fileName]) = .ok (.file (.text t.encode))

theorem Agrees.add (h : Agrees c v) (hw : Saves c v w t) (hlegal : checkTableName t.name = .ok ())
    (hentries : Entries.Sound t.entries) (hnew : t.name ∉ c.names) : Agrees (c.add t) w := by
  refine h.saved hlegal hentries hw.placed hw.found ?_ fun s => ?_
  · rw [List.map_append, List.map_singleton]
    refine List.nodup_append.mpr ⟨h.distinct, List.pairwise_singleton _ _, ?_⟩
    intro n hn _ ht heq
    subst heq
    exact hnew (List.mem_singleton.mp ht ▸ hn)
  · rw [List.mem_append, List.mem_singleton, or_comm]
    refine or_congr_right (iff_self_and.mpr fun hs hn => hnew ?_)
    exact hn ▸ List.mem_map.mpr ⟨s, hs, rfl⟩

theorem Agrees.replace {next : Table} (h : Agrees c v) (ht : t ∈ c.tables)
    (hname : next.name = t.name) (hw : Saves c v w next) (hentries : Entries.Sound next.entries) :
    Agrees (c.replace t.name next) w := by
  have hnames : ((replaceIn t.name next c.tables).map (·.name)) = c.names := by
    rw [replaceIn_eq_map h.distinct, names_map_ite _ _ _ fun _ _ => hname, names]
  apply h.saved (hname ▸ h.legal t ht) hentries hw.placed hw.found (hnames ▸ h.distinct)
  intro s
  rw [replaceIn_eq_map h.distinct, List.mem_map, hname]
  constructor
  · intro h
    obtain ⟨r, hr, rfl⟩ := h
    by_cases hn : r.name = t.name
    · exact .inl (if_pos hn)
    · exact .inr (by rw [if_neg hn]; exact ⟨hr, hn⟩)
  · intro h
    rcases h with rfl | ⟨hs, hn⟩
    · exact ⟨t, ht, if_pos rfl⟩
    · exact ⟨s, hs, if_neg hn⟩

theorem Agrees.remove (h : Agrees c v)
    (hw : w = v.without (Volume.path c.directory ++ [tableFileName name])) :
    Agrees (c.remove name) w := by
  refine h.removed hw ?_ fun s => ?_
  · rw [removeFrom_eq_filter h.distinct]
    exact h.distinct.sublist (List.filter_sublist.map _)
  · rw [removeFrom_eq_filter h.distinct, List.mem_filter, bne_iff_ne]

end WideColumn.Catalog
