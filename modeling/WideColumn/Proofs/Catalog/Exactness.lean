import WideColumn.Proofs.Catalog.Run
import WideColumn.Proofs.Text.Utf8

/-! # What opening a directory takes and refuses

A directory that is there is opened if each of its table files holds a table in its right place.
Otherwise the answer is what is wrong with the first of them that does not. -/
namespace WideColumn.Catalog
open WideColumn.Schema WideColumn.Text

variable {directory file : String} {v : Volume} {c : Catalog} {t : Table} {e : Fault}
  {files : List String} {k : Machine}

/-- What comes after the last dot of a name, if something comes before it. -/
def extension? (name : String) : Option String :=
  match name.toList.reverse.dropWhile (· != '.') with
  | [] | [_] => none
  | _ :: _ => some (.ofList (name.toList.reverse.takeWhile (· != '.')).reverse)

private theorem extension?_of_ending {stem ending : List Char} (hne : stem ≠ [])
    (hdot : '.' ∉ ending) (h : file.toList = stem ++ '.' :: ending) :
    extension? file = some (.ofList ending) := by
  -- the last dot is the first in the reversed name
  have hreverse : file.toList.reverse = ending.reverse ++ '.' :: stem.reverse := by rw [h]; simp
  have hrun : ∀ c ∈ ending.reverse, (c != '.') = true := fun c hc =>
    bne_iff_ne.mpr fun heq => hdot (heq ▸ List.mem_reverse.mp hc)
  have hstop : ∀ c ∈ ('.' :: stem.reverse).head?, (c != '.') = false := by
    intro c hc
    cases hc
    rfl
  obtain ⟨c, cs, hcs⟩ := List.exists_cons_of_ne_nil (List.reverse_ne_nil_iff.mpr hne)
  rw [extension?, hreverse, takeWhile_append_of_stop hrun hstop,
    dropWhile_append_of_stop hrun hstop, hcs, List.reverse_reverse]

private theorem exists_of_extension? {ending : String} (h : extension? file = some ending) :
    ∃ stem, stem ≠ [] ∧ file.toList = stem ++ '.' :: ending.toList := by
  have hsplit := List.takeWhile_append_dropWhile (p := (· != '.')) (l := file.toList.reverse)
  have hstop := eq_false_of_mem_head?_dropWhile (p := (· != '.')) (l := file.toList.reverse)
  rw [extension?] at h
  split at h
  · cases h
  · cases h
  · next dot stem hne hdrop =>
    cases h
    rw [hdrop] at hsplit hstop
    have hdot : dot = '.' := by simpa using hstop dot rfl
    refine ⟨stem.reverse, List.reverse_ne_nil_iff.mpr hne, ?_⟩
    rw [String.toList_ofList, ← List.reverse_inj]
    refine (hdot ▸ hsplit.symm).trans ?_
    simp

/-- Table files are those with the extension of tables. -/
theorem isTableFile_iff : isTableFile file = true ↔ extension? file = some "json" := by
  rw [isTableFile, Bool.and_eq_true, List.isSuffixOf_iff_suffix, decide_eq_true_iff]
  constructor
  · intro h
    obtain ⟨⟨stem, hstem⟩, hlength⟩ := h
    have hfile : file.toList = stem ++ '.' :: "json".toList := hstem.symm
    have hne : stem ≠ [] := by
      intro hnil
      rw [← String.length_toList, ← String.length_toList, hfile, hnil, List.nil_append] at hlength
      exact Nat.lt_irrefl _ hlength
    exact extension?_of_ending hne (by decide) hfile
  · intro h
    obtain ⟨stem, hne, hfile⟩ := exists_of_extension? h
    refine ⟨⟨stem, hfile.symm⟩, ?_⟩
    have := List.length_pos_iff.mpr hne
    rw [← String.length_toList, ← String.length_toList, hfile, List.length_append]
    exact Nat.lt_add_of_pos_left this

/-- A file of the directory that has to hold a table. -/
def IsTableFileOf (directory : String) (v : Volume) (file : String) : Prop :=
  extension? file = some "json" ∧ ∃ content,
    v.node? (Volume.path directory ++ [file]) = some (.file content)

/-- A file holds a table that has a legal name, and the name of the file is that of the table. -/
structure Holds (directory : String) (v : Volume) (file : String) (t : Table) : Prop where
  decoded : ∃ text, v.find? (Volume.path directory ++ [file]) = .ok (.file (.text text)) ∧
    Table.decode text = .ok t
  legal : checkTableName t.name = .ok ()
  named : file = t.name ++ ".json"

/-- What is wrong with a file. -/
inductive Offends (directory : String) (v : Volume) (file : String) : Fault → Prop where
  | unreadable {e : DiskError} (hread : v.read (Volume.path (pathIn directory file)) = .error e) :
      Offends directory v file (.disk e.detail)
  | malformed {text : String} {e : Fault}
    (hread : v.read (Volume.path (pathIn directory file)) = .ok text)
      (hdecode : Table.decode text = .error e) :
        Offends directory v file (.inFile (pathIn directory file) e)
  | illegal {text : String} {t : Table} {e : Fault}
      (hread : v.read (Volume.path (pathIn directory file)) = .ok text)
        (hdecode : Table.decode text = .ok t)
      (hlegal : checkTableName t.name = .error e) : Offends directory v file e
  | misnamed {text : String} {t : Table}
    (hread : v.read (Volume.path (pathIn directory file)) = .ok text)
      (hdecode : Table.decode text = .ok t) (hlegal : checkTableName t.name = .ok ())
      (hname : file ≠ t.name ++ ".json") :
        Offends directory v file (.misnamedFile (pathIn directory file) t.name)

theorem holds_iff : Holds directory v file t ↔ tableIn directory file v = .ok t := by
  rw [tableIn_eq_ok_iff]
  constructor
  · intro h
    obtain ⟨text, hfind, hdecode⟩ := h.decoded
    exact ⟨h.named.symm, h.legal, text, hdecode, hfind⟩
  · intro h
    obtain ⟨hname, hlegal, text, hdecode, hfind⟩ := h
    exact ⟨⟨text, hfind, hdecode⟩, hlegal, hname.symm⟩

private theorem tableIn_of_read {text : String}
    (h : v.read (Volume.path (pathIn directory file)) = .ok text) :
    tableIn directory file v = (Table.load (pathIn directory file) text >>= fun t =>
      if t.fileName != file then throw (.misnamedFile (pathIn directory file) t.name)
      else pure t) := by
  rw [tableIn, h, Except.mapError, ok_bind]
  cases Table.load (pathIn directory file) text with
  | error e => rfl
  | ok t =>
    rw [ok_bind, ok_bind]
    split <;> rfl

theorem offends_iff : Offends directory v file e ↔ tableIn directory file v = .error e := by
  constructor
  · intro h
    cases h with
    | unreadable hread => rw [tableIn, hread]; rfl
    | malformed hread hdecode => rw [tableIn_of_read hread, Table.load, hdecode]; rfl
    | illegal hread hdecode hlegal =>
      rw [tableIn_of_read hread, Table.load, hdecode, Except.mapError, ok_bind, hlegal]
      rfl
    | misnamed hread hdecode hlegal hname =>
      have hne := bne_iff_ne.mpr (Ne.symm hname)
      rw [tableIn_of_read hread, Table.load_eq_ok.mpr ⟨hdecode, hlegal⟩, ok_bind]
      exact if_pos hne
  · intro h
    cases hread : v.read (Volume.path (pathIn directory file)) with
    | error e' =>
      rw [tableIn, hread] at h
      cases h
      exact .unreadable hread
    | ok text =>
      rw [tableIn_of_read hread] at h
      cases hdecode : Table.decode text with
      | error e' =>
        rw [Table.load, hdecode] at h
        cases h
        exact .malformed hread hdecode
      | ok t =>
        cases hlegal : checkTableName t.name with
        | error e' =>
          rw [Table.load, hdecode, Except.mapError, ok_bind, hlegal] at h
          cases h
          exact .illegal hread hdecode hlegal
        | ok =>
          rw [Table.load_eq_ok.mpr ⟨hdecode, hlegal⟩, ok_bind] at h
          split at h
          · next hne =>
            cases h
            exact .misnamed hread hdecode hlegal (Ne.symm (bne_iff_ne.mp hne))
          · cases h

theorem pairwise_tableFiles (h : files.Nodup) :
    (tableFiles files).Pairwise fun file other => utf8 file < utf8 other := by
  have hsorted : (tableFiles files).Pairwise fun a b => decide (a ≤ b) = true :=
    pairwise_mergeSort_name _
  refine hsorted.imp₂ (fun a b hle hne => ?_) (nodup_tableFiles h)
  exact lt_iff_utf8_lt.mp (Std.lt_of_le_of_ne (of_decide_eq_true hle) hne)

theorem mem_tableFiles_iff (hsound : v.Sound) :
    file ∈ tableFiles (Machine.filesOf (v.children (Volume.path directory))) ↔
    IsTableFileOf directory v file := by
  rw [mem_tableFiles, mem_filesOf_children hsound, isTableFile_iff]
  exact and_comm

/-- A catalog has the tables of a directory: one for each table file, in order of the bytes of the
file names. -/
structure TablesOf (directory : String) (v : Volume) (c : Catalog) : Prop where
  place : c.directory = directory
  files : ∀ file, file ∈ c.tables.map Table.fileName ↔ IsTableFileOf directory v file
  held : ∀ t ∈ c.tables, Holds directory v t.fileName t
  ordered : c.tables.Pairwise fun s t => utf8 s.fileName < utf8 t.fileName
  distinct : c.names.Nodup

/-- A fault is what is wrong with the first table file, in order of the bytes of the file names,
that does not hold a table. -/
def IsFirstOffence (directory : String) (v : Volume) (e : Fault) : Prop :=
  ∃ file, IsTableFileOf directory v file ∧ Offends directory v file e ∧
    ∀ other, IsTableFileOf directory v other → utf8 other < utf8 file → ∃ t,
      Holds directory v other t

theorem tablesOf_of_catalogIn (hsound : v.Sound) (h : catalogIn directory v = .ok c) :
    TablesOf directory v c := by
  obtain ⟨rfl, hdirectory, htables⟩ := catalogIn_eq_ok_iff.mp h
  have hfiles : c.tables.map Table.fileName =
      tableFiles (Machine.filesOf (v.children (Volume.path c.directory))) :=
    (map_eq_of_mapM_eq_ok (g := id) htables fun _ _ ht => (tableIn_eq_ok_iff.mp ht).1).trans
      (List.map_id _)
  have hnodup := nodup_filesOf (Volume.nodup_children hsound (p := Volume.path c.directory))
  refine ⟨rfl, fun file => ?_, fun t ht => ?_, ?_, (agreesIn_of_catalogIn hsound h).2.distinct⟩
  · rw [hfiles, mem_tableFiles_iff hsound]
  · obtain ⟨file, -, hfile⟩ := exists_of_mapM_eq_ok htables ht
    obtain ⟨rfl, -⟩ := tableIn_eq_ok_iff.mp hfile
    exact holds_iff.mpr hfile
  · have hordered := pairwise_tableFiles hnodup
    rw [← hfiles, List.pairwise_map] at hordered
    exact hordered

theorem isFirstOffence_of_catalogIn (hsound : v.Sound)
    (hd : v.find? (Volume.path directory) = .ok .directory) (h : catalogIn directory v = .error e) :
    IsFirstOffence directory v e := by
  have htables : (tableFiles (Machine.filesOf (v.children (Volume.path directory)))).mapM
      (tableIn directory · v) = .error e := by
    rw [catalogIn, Volume.list_eq_ok_iff.mpr ⟨hd, rfl⟩, Except.map, Except.mapError, ok_bind] at h
    cases hm : (tableFiles (Machine.filesOf (v.children (Volume.path directory)))).mapM
        (tableIn directory · v) with
    | error e' =>
      rw [hm] at h
      cases h
      rfl
    | ok tables =>
      rw [hm] at h
      cases h
  obtain ⟨before, file, after, hfiles, hfile, hbefore⟩ := exists_of_mapM_eq_error htables
  have hnodup := nodup_filesOf (Volume.nodup_children hsound (p := Volume.path directory))
  have hordered := pairwise_tableFiles hnodup
  rw [hfiles, List.pairwise_append, List.pairwise_cons] at hordered
  have hmem (other : String) : IsTableFileOf directory v other ↔
      other ∈ before ++ file :: after := by
    rw [← mem_tableFiles_iff hsound, hfiles]
  refine ⟨file, (hmem file).mpr (by simp), offends_iff.mpr hfile, fun other hother hlt => ?_⟩
  -- a smaller file stands before the first that fails
  rcases List.mem_append.mp ((hmem other).mp hother) with hin | hin
  · obtain ⟨t, ht⟩ := hbefore other hin
    exact ⟨t, holds_iff.mpr ht⟩
  · rcases List.mem_cons.mp hin with rfl | hin
    · exact absurd hlt (List.lt_irrefl _)
    · exact absurd (hordered.2.1.1 other hin) (List.lt_asymm hlt)

/-- A directory that is there is opened exactly if each of its table files holds a table. The
catalog then has these tables, and otherwise the fault is that of the first file that holds none.
Nothing is changed. -/
theorem openAt_exact (hk : k.Calm) (hsound : k.volume.Sound)
    (hd : k.volume.find? (Volume.path directory) = .ok .directory) (make : Bool) :
    ∃ r k', outcome (openAt directory make) k = (r, k') ∧ k'.volume = k.volume ∧
      ((∃ c, r = .ok c) ↔
        ∀ file, IsTableFileOf directory k.volume file → ∃ t, Holds directory k.volume file t) ∧
      (∀ c, r = .ok c → TablesOf directory k.volume c) ∧
      ∀ e, r = .error e → IsFirstOffence directory k.volume e := by
  obtain ⟨k', hrun, hv⟩ := openAt_of_directory hk hd make
  refine ⟨_, k', hrun, hv, ⟨fun h => ?_, fun h => ?_⟩, fun c hc => tablesOf_of_catalogIn hsound hc,
    fun e he => isFirstOffence_of_catalogIn hsound hd he⟩
  · obtain ⟨c, hc⟩ := h
    have htables := tablesOf_of_catalogIn hsound hc
    intro file hfile
    obtain ⟨t, ht, rfl⟩ := List.mem_map.mp ((htables.files file).mpr hfile)
    exact ⟨t, htables.held t ht⟩
  · cases hc : catalogIn directory k.volume with
    | ok c => exact ⟨c, rfl⟩
    | error e =>
      obtain ⟨file, hfile, hoffends, -⟩ := isFirstOffence_of_catalogIn hsound hd hc
      obtain ⟨t, ht⟩ := h file hfile
      rw [offends_iff, holds_iff.mp ht] at hoffends
      cases hoffends

/-- A directory with a table file that is empty. -/
def emptyFileMachine : Machine :=
  { blankMachine with volume := ⟨[(["d"], .directory), (["d", "t.json"], .file (.text ""))]⟩ }

theorem openAt_exact_emptyFile :
    ∃ e k', outcome (openAt "d" false) emptyFileMachine = (.error e, k') ∧
    IsFirstOffence "d" emptyFileMachine.volume e := by
  have hsound : emptyFileMachine.volume.Sound := by
    unfold Volume.Sound
    decide
  have hd : emptyFileMachine.volume.find? (Volume.path "d") = .ok .directory := by rfl
  obtain ⟨r, k', hrun, -, hiff, -, herror⟩ := openAt_exact (fun _ => rfl) hsound hd false
  cases r with
  | error e => exact ⟨e, k', hrun, herror e rfl⟩
  | ok c =>
    obtain ⟨t, ht⟩ := hiff.mp ⟨c, rfl⟩ "t.json" ⟨by decide, .text "", rfl⟩
    obtain ⟨text, hfind, hdecode⟩ := ht.decoded
    cases hfind
    cases hdecode

end WideColumn.Catalog
