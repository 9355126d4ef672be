import WideColumn.Proofs.Catalog.Outcome
import WideColumn.Proofs.Catalog.Run

/-! # Writes that fail leave the catalog as it was

A write to one table changes memory last, after the file is in place, so a fault on the way leaves
the catalog alone. The removal of several tables stops at the first file that the disk refuses to
remove. -/
namespace WideColumn.Catalog
open WideColumn.Schema

variable {name other : String} {c d : Catalog} {v : Volume} {k : Machine} {t next : Table}

/-- Names of tables are legal and distinct. -/
structure WellNamed (c : Catalog) : Prop where
  legal : ∀ t ∈ c.tables, checkTableName t.name = .ok ()
  distinct : c.names.Nodup

/-- What a write to the table of a name makes of a catalog. -/
inductive Changed (name : String) (c : Catalog) : Catalog → Prop where
  | added {t : Table} (ht : t.name = name) (hlegal : checkTableName name = .ok ())
      (hnew : c.find? name = none) : Changed name c (c.add t)
  | replaced {s t : Table} (hs : c.find? name = some s) (ht : t.name = name) :
    Changed name c (c.replace name t)
  | removed : Changed name c (c.remove name)

theorem names_replace (h : c.names.Nodup) (hnext : next.name = name) :
    (c.replace name next).names = c.names := by
  rw [names, replace, replaceIn_eq_map h, names_map_ite _ _ _ fun _ _ => hnext, names]

theorem names_remove (h : c.names.Nodup) :
    (c.remove name).names = c.names.filter fun n => n != name := by
  rw [names, remove, removeFrom_eq_filter h, names, List.filter_map]
  rfl

theorem WellNamed.changed (h : c.WellNamed) (hd : Changed name c d) : d.WellNamed := by
  cases hd with
  | @added t ht hlegal hnew =>
    refine ⟨List.forall_mem_append.mpr ⟨h.legal, by simpa [ht] using hlegal⟩, ?_⟩
    rw [names, add, List.map_append, List.map_singleton, ht]
    refine List.nodup_append.mpr ⟨h.distinct, List.pairwise_singleton _ _, fun n hn _ hm heq => ?_⟩
    rw [List.mem_singleton.mp hm] at heq
    exact not_mem_names_of_find? hnew (heq ▸ hn)
  | @replaced s t hs ht =>
    obtain ⟨hmem, hname⟩ := mem_of_find? hs
    refine ⟨fun r hr => ?_, names_replace h.distinct ht ▸ h.distinct⟩
    rw [replace, replaceIn_eq_map h.distinct, List.mem_map] at hr
    obtain ⟨q, hq, rfl⟩ := hr
    split
    · exact (ht.trans hname.symm) ▸ h.legal s hmem
    · exact h.legal q hq
  | removed =>
    refine ⟨fun r hr => ?_, names_remove h.distinct ▸ h.distinct.filter _⟩
    rw [remove, removeFrom_eq_filter h.distinct] at hr
    exact h.legal r (List.mem_filter.mp hr).1

theorem find?_eq_none_iff : c.find? name = none ↔ name ∉ c.names := by
  rw [find?, List.find?_eq_none, names, List.mem_map, not_exists]
  simp

theorem find?_add (h : c.find? t.name = none) : (c.add t).find? t.name = some t := by
  rw [find?] at h
  rw [find?, add, List.find?_append, h]
  simp

theorem find?_replace (h : c.find? name = some t) (hnext : next.name = name) :
    (c.replace name next).find? name = some next := by
  obtain ⟨directory, tables⟩ := c
  rw [find?] at h
  rw [find?, replace]
  dsimp only at h ⊢
  induction tables with
  | nil => cases h
  | cons s tables ih =>
    rw [replaceIn]
    by_cases hs : s.name = name
    · simp [hs, hnext]
    · rw [if_neg (by simpa using hs), List.find?_cons_of_neg (by simpa using hs)]
      rw [List.find?_cons_of_neg (by simpa using hs)] at h
      exact ih h

theorem find?_remove_self (h : c.names.Nodup) : (c.remove name).find? name = none := by
  rw [find?_eq_none_iff, names_remove h]
  simp

theorem find?_remove (h : c.names.Nodup) (hne : other ≠ name) :
    (c.remove name).find? other = c.find? other := by
  rw [find?, remove, removeFrom_eq_filter h, List.find?_filter, find?]
  congr 1
  funext s
  by_cases hs : s.name = other <;> simp [hs, hne]

/-- The table of a name is what its file holds. -/
def InFile (name : String) (c : Catalog) (v : Volume) : Prop :=
  ∃ t, c.find? name = some t ∧ v.read (Volume.path (c.filePath name)) = .ok t.encode

/-- There is no table of that name, and no file for it. -/
def Gone (name : String) (c : Catalog) (v : Volume) : Prop :=
  c.find? name = none ∧ v.find? (Volume.path (c.filePath name)) = .error .missing

/-- A fault leaves the catalog as it was. -/
abbrev Unless (c : Catalog) : Fault → Catalog → Machine → Prop := fun _ d _ => d = c

/-- A call of the disk failed, which leaves the catalog as it was. -/
abbrev Struck (c : Catalog) : Fault → Catalog → Machine → Prop :=
  fun e d _ => d = c ∧ ∃ detail, e = .disk detail

theorem ends_save (hlegal : checkTableName t.name = .ok ()) :
    Ends (Struck c) (fun d _ => d = c) (save t) fun _ d k =>
      d = c ∧ k.volume.read (Volume.path (c.filePath t.name)) = .ok t.encode := by
  refine Ends.bind Ends.get fun d => ?_
  refine Ends.bind
    (Q := fun _ d' k =>
      (d = d' ∧ d' = c) ∧ k.volume.find? (Volume.path d.directory) = .ok .directory)
    (Ends.demand ?_ ?_) fun _ => ?_
  · intro d' k _ k' hd hcall
    exact ⟨hd, Volume.find?_of_makeDirectory (Machine.change_eq_ok hcall)⟩
  · exact fun _ _ e _ hd _ => ⟨hd.2, e.detail, rfl⟩
  · refine Ends.demand ?_ ?_
    · intro d' k _ k' hd hcall
      obtain ⟨⟨rfl, rfl⟩, hdirectory⟩ := hd
      have hwrite := Machine.writeFile_eq_ok hcall
      rw [path_filePath d hlegal] at hwrite ⊢
      exact ⟨rfl, Volume.read_eq_ok_iff.mpr (Volume.write_eq_ok hdirectory hwrite).2⟩
    · exact fun _ _ e _ hd _ => ⟨hd.1.2, e.detail, rfl⟩

/-- The disk refused to remove a file that is not known to be missing. -/
def Refused (path : String) (e : Fault) (k' : Machine) : Prop :=
  ∃ k error, Machine.change (Volume.remove · (Volume.path path)) k = (.error error, k') ∧
    error ≠ .missing ∧ e = .disk error.detail

theorem ends_removeFile {path : String} {H : Prop} (hpath : Volume.path path ≠ []) :
    Ends (fun e d k => d = c ∧ Refused path e k) (fun d k => d = c ∧ (H → k.Honest))
      (removeFile path)
      fun _ d k => d = c ∧ (H → k.volume.find? (Volume.path path) = .error .missing) := by
  refine Ends.bind (Q := fun r d k => d = c ∧
      ((r.isOk ∨ r = .error .missing) → H → k.volume.find? (Volume.path path) = .error .missing) ∧
      ∀ error, r = .error error → error ≠ .missing → Refused path (.disk error.detail) k)
    (Ends.observe (Machine.change (Volume.remove · (Volume.path path))) ?_) fun r => ?_
  · intro d k hd
    obtain ⟨rfl, hk⟩ := hd
    cases hcall : Machine.change (Volume.remove · (Volume.path path)) k with
    | mk r k' =>
      refine ⟨rfl, fun hr hH => ?_, fun error hr hne => ⟨k, error, hr ▸ hcall, hne, rfl⟩⟩
      cases r with
      | ok u =>
        obtain ⟨content, hfile, hw⟩ := Volume.remove_eq_ok (Machine.change_eq_ok hcall)
        exact hw ▸ Volume.find?_without hfile hpath
      | error e =>
        obtain rfl : e = .missing := Except.error.inj (hr.resolve_left Bool.false_ne_true)
        obtain ⟨hmissing, hsame⟩ := Machine.change_eq_missing (hk hH) hcall
        exact hsame ▸ Volume.find?_of_remove_missing hmissing
  · split
    · exact Ends.pure fun d k h => ⟨h.1, h.2.1 (.inl rfl)⟩
    · exact Ends.pure fun d k h => ⟨h.1, h.2.1 (.inr rfl)⟩
    · next e hne => exact Ends.throw fun d k h => ⟨h.1, h.2.2 e rfl fun he => hne (he ▸ rfl)⟩

/-- The catalog of a write to the table of a name, with the table in its file. -/
def Written (c : Catalog) (name : String) (d : Catalog) (k : Machine) : Prop :=
  Changed name c d ∧ InFile name d k.volume

/-- A write to one table puts into the catalog, in place of the table, what the operation makes of
it, and the file holds that. If there is no such table or the operation refuses, nothing changes, in
memory or on the disk; otherwise only the disk can fail. -/
theorem ends_mutate_exact {α : Type} {op : Readings → Table → Except Fault (α × Table)}
    (name : String) (h : c.WellNamed) (hop : IsProper op) :
    Ends (fun e d k => d = c ∧
        ((∃ detail, e = .disk detail) ∧
          (∃ r t a next, c.find? name = some t ∧ op r t = .ok (a, next)) ∨
          k.volume = v ∧ ∀ t, c.find? name = some t → ∃ r, op r t = .error e))
      (fun d k => d = c ∧ k.volume = v) (mutate name op) fun a d k => ∃ r t next,
      c.find? name = some t ∧
        op r t = .ok (a, next) ∧ d = c.replace name next ∧
          k.volume.read (Volume.path (c.filePath name)) = .ok next.encode := by
  refine Ends.bind (Ends.ask fun d k e hd htable => ⟨hd.1, .inr ⟨hd.2, fun t ht => ?_⟩⟩) fun t => ?_
  · rw [hd.1, table, ht] at htable
    cases htable
  refine Ends.bind (Q := fun _ d k => c.table name = .ok t ∧ d = c ∧ k.volume = v) ?_ fun r => ?_
  · intro d k hd
    obtain ⟨htable, rfl, hv⟩ := hd
    exact ⟨.ok _, d, _, rfl, htable, rfl, hv⟩
  intro d k hd
  obtain ⟨htable, rfl, hv⟩ := hd
  have hfind := find?_of_table htable
  cases hrun : op r t with
  | error e =>
    refine ⟨_, d, k, exec_bind_error (exec_lift _ d k), rfl, .inr ⟨hv, fun s hs => ⟨r, ?_⟩⟩⟩
    rw [hfind] at hs
    cases hs
    exact hrun
  | ok result =>
    obtain ⟨answer, next⟩ := result
    obtain ⟨hmem, hname⟩ := mem_of_find? hfind
    have hnext : next.name = name := (hop.name_eq hrun).trans hname
    have hsave := ends_save (c := d) (t := next) (hnext ▸ hname ▸ h.legal t hmem)
    rw [hnext] at hsave
    rw [exec_bind_ok (exec_lift _ d k)]
    refine Ends.bind (hsave.weaken fun e d' k' he =>
      ⟨he.1, .inl ⟨he.2, r, t, answer, next, hfind, hrun⟩⟩) (fun _ => ?_) d k rfl
    refine Ends.bind
      (Q := fun _ d' k => d' = d.replace name next ∧
        k.volume.read (Volume.path (d.filePath name)) = .ok next.encode)
      (Ends.modify fun d' k hd => ?_) fun _ => ?_
    · exact ⟨congrArg (·.replace name next) hd.1, hd.2⟩
    · exact Ends.pure fun d' k hd => ⟨r, t, next, hfind, hrun, hd⟩

theorem ends_mutate {α : Type} {op : Readings → Table → Except Fault (α × Table)} (h : c.WellNamed)
    (hop : IsProper op) :
    Ends (Unless c) (fun d _ => d = c) (mutate name op) fun _ => Written c name := by
  intro d k hd
  refine ((ends_mutate_exact name h hop).weaken fun _ _ _ he => he.1).post
    (fun _ d k hd => ?_) d k ⟨hd, rfl⟩
  obtain ⟨r, t, next, hfind, hrun, rfl, hfile⟩ := hd
  have hnext : next.name = name := (hop.name_eq hrun).trans (mem_of_find? hfind).2
  exact ⟨.replaced hfind hnext, next, find?_replace hfind hnext, hfile⟩

theorem ends_createTable (families : List Family) :
    Ends (Unless c) (fun d _ => d = c) (createTable name families) fun _ => Written c name := by
  refine Ends.bind (Ends.lift fun _ _ _ hd => hd) fun _ => ?_
  refine Ends.bind Ends.get fun d => ?_
  intro d' k hd
  obtain ⟨rfl, hlegal, rfl⟩ := hd
  refine Ends.check (E := Unless d) (P := fun d' _ => d' = d) (fun _ _ _ hd => hd)
    (fun hnew => ?_) d k rfl
  refine Ends.bind (Q := fun _ d' _ => d' = d) ?_ fun _ => Ends.check (fun _ _ _ hd => hd)
    fun _ => ?_
  · exact fun d' k hd => ⟨.ok _, d', _, rfl, hd⟩
  refine Ends.bind (Ends.lift fun _ _ _ hd => hd) fun _ => ?_
  refine Ends.bind (Q := fun _ d' _ => d' = d) (fun d' k hd => ⟨.ok _, d', _, rfl, hd.2⟩)
    fun id => ?_
  refine Ends.bind (Q := fun _ d' _ => d' = d) (fun d' k hd => ⟨.ok _, d', _, rfl, hd⟩)
    fun now => ?_
  have hnone : d.find? name = none := by simpa [contains] using hnew
  have hsave := ends_save (c := d) (t := Table.blank name families id now) hlegal
  refine Ends.bind (hsave.weaken fun _ _ _ he => he.1) fun _ => Ends.modify ?_
  intro d' k hd
  obtain ⟨rfl, hfile⟩ := hd
  exact ⟨.added rfl hlegal hnone, _, find?_add (t := Table.blank name families id now) hnone, hfile⟩

/-- A disabled table is in the catalog. -/
def Droppable (name : String) (c : Catalog) : Prop := ∃ t, c.find? name = some t ∧ t.enabled = false

theorem ends_dropTable {H : Prop} (h : c.WellNamed) :
    Ends (fun e d k => d = c ∧ (Droppable name c → Refused (c.filePath name) e k))
      (fun d k => d = c ∧ (H → k.Honest)) (dropTable name)
      fun _ d k => d = c.remove name ∧ (H → Gone name d k.volume) := by
  refine Ends.bind Ends.get fun d => ?_
  refine Ends.bind (Ends.ask fun d' k e hd htable => ⟨hd.2.1, fun hdrop => ?_⟩) fun t => ?_
  · obtain ⟨rfl, rfl, -⟩ := hd
    obtain ⟨t, hfind, -⟩ := hdrop
    rw [table, hfind] at htable
    cases htable
  intro d' k hd
  obtain ⟨htable, rfl, rfl, hk⟩ := hd
  have hfind := find?_of_table htable
  obtain ⟨hmem, rfl⟩ := mem_of_find? hfind
  refine Ends.check
    (E := fun e d' k => d' = d ∧ (Droppable t.name d → Refused (d.filePath t.name) e k))
    (P := fun d' k => d' = d ∧ (H → k.Honest)) (fun henabled _ _ hd' => ⟨hd'.1, ?_⟩)
    (fun _ => ?_) d k ⟨rfl, hk⟩
  · intro hdrop
    obtain ⟨s, hs, hdisabled⟩ := hdrop
    rw [hfind] at hs
    cases hs
    rw [hdisabled] at henabled
    cases henabled
  · have hpath : Volume.path (d.filePath t.name) ≠ [] := by
      rw [path_filePath d (h.legal t hmem)]
      simp
    refine Ends.bind ((ends_removeFile (H := H) hpath).weaken fun _ _ _ he => ⟨he.1, fun _ => he.2⟩)
      fun _ => ?_
    refine Ends.modify fun d' k hd => ?_
    obtain ⟨rfl, hmissing⟩ := hd
    exact ⟨rfl, fun hH => ⟨find?_remove_self h.distinct, hmissing hH⟩⟩

theorem ends_mutate_ {op : Readings → Table → Except Fault Table} (h : c.WellNamed)
    (write : Table.Operation) (hop : ∀ r t, write.run r t = do return (none, ← op r t)) :
    Ends (Unless c) (fun d _ => d = c) (mutate_ name op) fun _ => Written c name :=
  ends_mutate h (isProper_of_run write hop)

/-- A table that is in the wanted state already is left alone. -/
theorem ends_disable (h : c.WellNamed) :
    Ends (Unless c) (fun d k => d = c ∧ k.volume = v) (disable name) fun _ d k =>
      (d = c ∧ k.volume = v) ∨ Written c name d k := by
  refine Ends.bind (Ends.ask fun _ _ _ hd _ => hd.1) fun disabled => ?_
  cases disabled with
  | true => exact Ends.pure fun _ _ hd => .inl hd.2
  | false =>
    refine Ends.bind ((ends_mutate_ h .disable fun _ _ => rfl).pre fun _ _ hd => hd.2.1) fun _ => ?_
    exact Ends.pure fun _ _ hd => .inr hd

theorem ends_enable (h : c.WellNamed) :
    Ends (Unless c) (fun d k => d = c ∧ k.volume = v) (enable name) fun _ d k =>
      (d = c ∧ k.volume = v) ∨ Written c name d k := by
  refine Ends.bind (Ends.ask fun _ _ _ hd _ => hd.1) fun enabled => ?_
  cases enabled with
  | true => exact Ends.pure fun _ _ hd => .inl hd.2
  | false =>
    refine Ends.bind ((ends_mutate_ h .enable fun _ _ => rfl).pre fun _ _ hd => hd.2.1) fun _ => ?_
    exact Ends.pure fun _ _ hd => .inr hd

theorem ends_alter (h : c.WellNamed) (pairs : Properties) :
    Ends (Unless c) (fun d _ => d = c) (alter name pairs) fun _ => Written c name := by
  have hanswer {op : Readings → Table → Except Fault Table} (write : Table.Operation)
    (a : Alteration) (hop : ∀ r t, write.run r t = do return (none, ← op r t)) :
      Ends (Unless c) (fun d _ => d = c) (mutate_ name op >>= fun _ => Pure.pure a) fun _ =>
        Written c name :=
    Ends.bind (ends_mutate_ h write hop) fun _ => Ends.pure fun _ _ hd => hd
  rw [alter]
  split
  · next family hfamily =>
    split
    · split
      · exact hanswer (.deleteFamily family) _ fun _ _ => rfl
      · exact Ends.throw fun _ _ hd => hd
    · refine Ends.bind (Ends.ask fun _ _ _ hd _ => hd) fun t => ?_
      split
      · exact (hanswer (.updateFamily family _) _ fun _ _ => rfl).pre fun _ _ hd => hd.2
      · exact (hanswer (.createFamily family _) _ fun _ _ => rfl).pre fun _ _ hd => hd.2
  · exact Ends.throw fun _ _ hd => hd

/-- The catalog of a directory that was opened and then written to. Calls of the disk may have
failed at any time, and between two writes the machine may have become another. -/
inductive Reachable : Catalog → Prop where
  | opened {directory : String} {make : Bool} {k k' : Machine} {c : Catalog}
    (hsound : k.volume.Sound)
      (h : outcome (openAt directory make) k = (.ok c, k')) : Reachable c
  | written {c : Catalog} (h : Reachable c) (op : Operation) (k : Machine) :
    Reachable (op.step (c, k)).1

theorem wellNamed_of_openAt {directory : String} {make : Bool} {k k' : Machine}
    (hsound : k.volume.Sound) (h : outcome (openAt directory make) k = (.ok c, k')) :
    c.WellNamed := by
  obtain ⟨hfiles, hlegal⟩ := fileNames_of_openAt h
  have hdistinct : (c.tables.map Table.fileName).Nodup :=
    hfiles ▸ nodup_tableFiles (nodup_filesOf (Volume.nodup_children hsound))
  refine ⟨hlegal, List.pairwise_map.mpr ?_⟩
  exact (List.pairwise_map.mp hdistinct).imp fun hne hname => hne (congrArg tableFileName hname)

theorem preserves_wellNamed {α : Type} {x : Program α}
    (h : ∀ c, c.WellNamed → Ends (Unless c) (fun d _ => d = c) x fun _ d _ => Changed name c d) :
    Preserves (fun c _ => c.WellNamed) x := by
  intro c k hc
  obtain ⟨r, d, k', hrun, hr⟩ := h c hc c k rfl
  refine ⟨r, d, k', hrun, ?_⟩
  cases r with
  | ok a => exact hc.changed hr
  | error e => exact hr ▸ hc

theorem stable_wellNamed : Stable fun c _ => c.WellNamed where
  mutate hop _ := preserves_wellNamed fun _ hc =>
    (ends_mutate hc hop).post fun _ _ _ hd => hd.1
  createTable _ families := preserves_wellNamed fun _ _ =>
    (ends_createTable families).post fun _ _ _ hd => hd.1
  dropTable _ := preserves_wellNamed fun _ hc =>
    (((ends_dropTable (H := False) hc).weaken fun _ _ _ he => he.1).pre fun _ _ hd =>
      ⟨hd, False.elim⟩).post fun _ _ _ hd => by rw [hd.1]; exact .removed

theorem Reachable.wellNamed (h : Reachable c) : c.WellNamed := by
  induction h with
  | opened hsound h => exact wellNamed_of_openAt hsound h
  | @written c _ op k ih => exact stable_wellNamed.step op ih

/-- The catalog without the tables of some names. -/
def without (c : Catalog) (names : List String) : Catalog :=
  { c with tables := c.tables.filter fun t => !names.contains t.name }

theorem without_nil : c.without [] = c := by
  have hall : c.tables.filter (fun t => !([] : List String).contains t.name) = c.tables :=
    List.filter_eq_self.mpr fun _ _ => rfl
  rw [without, hall]

theorem without_cons {names : List String} (h : c.names.Nodup) :
    (c.remove name).without names = c.without (name :: names) := by
  rw [without, remove, removeFrom_eq_filter h, List.filter_filter, without]
  congr 2
  funext t
  rw [List.contains_cons, Bool.not_or, Bool.and_comm, bne]

/-- A sequence of removals came to a table whose file the disk refused to remove. The tables before
it are gone, and no other. -/
def StoppedAt (c : Catalog) (names : List String) (e : Fault) (d : Catalog) (k' : Machine) : Prop :=
  ∃ before failing after, names = before ++ failing :: after ∧ d = c.without before ∧
    Refused (c.filePath failing) e k'

theorem Droppable.remove (h : Droppable other c) (hc : c.names.Nodup) (hne : other ≠ name) :
    Droppable other (c.remove name) := by
  obtain ⟨t, ht, hdisabled⟩ := h
  exact ⟨t, (find?_remove hc hne).trans ht, hdisabled⟩

theorem ends_dropTables {names : List String} (h : c.WellNamed) (hnodup : names.Nodup)
    (hdrop : ∀ name ∈ names, Droppable name c) :
    Ends (fun e d k => StoppedAt c names e d k) (fun d _ => d = c) (names.forM dropTable)
      fun _ d _ => d = c.without names := by
  induction names generalizing c with
  | nil => exact Ends.pure fun d k hd => hd.trans without_nil.symm
  | cons name names ih =>
    obtain ⟨hname, hnames⟩ := List.forall_mem_cons.mp hdrop
    obtain ⟨hnew, hnodup⟩ := List.nodup_cons.mp hnodup
    have hrest := ih (c := c.remove name) (h.changed .removed) hnodup fun other hother =>
      (hnames other hother).remove h.distinct fun heq => hnew (heq ▸ hother)
    refine Ends.bind (Q := fun _ d _ => d = c.remove name) ?_ fun _ => ?_
    · have hfirst := ((ends_dropTable (H := False) h).pre (P := fun d _ => d = c)
        fun _ _ hd => ⟨hd, False.elim⟩).post (Q := fun _ d _ => d = c.remove name) fun _ _ _ hd =>
          hd.1
      refine hfirst.weaken fun e d k he => ?_
      exact ⟨[], name, names, rfl, he.1.trans without_nil.symm, he.2 hname⟩
    · refine (hrest.weaken fun e d k he => ?_).post fun _ d _ hd => ?_
      · obtain ⟨before, failing, after, rfl, rfl, hrefused⟩ := he
        exact ⟨name :: before, failing, after, rfl, without_cons h.distinct, hrefused⟩
      · exact hd.trans (without_cons h.distinct)

theorem sublist_of_list {pattern : String} {matched : List String}
    (h : c.list (some pattern) = .ok matched) :
    matched.Sublist c.names := by
  obtain ⟨n, -, h⟩ := bind_eq_ok.mp h
  cases h
  exact List.filter_sublist

theorem droppable_of_enabled {names : List String} (hsub : names.Sublist c.names)
    (h : (names.filter fun name => (c.find? name).any (·.enabled)) = []) :
    ∀ name ∈ names, Droppable name c := by
  intro name hname
  obtain ⟨t, ht⟩ := Option.ne_none_iff_exists'.mp fun hnone =>
    find?_eq_none_iff.mp hnone (hsub.subset hname)
  have hdisabled := List.filter_eq_nil_iff.mp h name hname
  rw [ht] at hdisabled
  exact ⟨t, ht, by simpa using hdisabled⟩

theorem ends_dropAll (h : c.WellNamed) (pattern : String) (confirm : List String → Bool) :
    Ends (fun e d k' => (d = c ∧ k' = k) ∨
        ∃ matched, c.list (some pattern) = .ok matched ∧ StoppedAt c matched e d k')
      (fun d k' => d = c ∧ k' = k) (dropAll pattern fun names => Pure.pure (confirm names))
      fun n d k' => (n = 0 ∧ d = c ∧ k' = k) ∨
        ∃ matched, c.list (some pattern) = .ok matched ∧ n = matched.length ∧
        d = c.without matched := by
  refine Ends.bind (Ends.ask fun _ _ _ hd _ => .inl hd) fun matched => ?_
  split
  · exact Ends.pure fun _ _ hd => .inl ⟨rfl, hd.2⟩
  refine Ends.bind Ends.get fun d => ?_
  intro d' k' hd
  obtain ⟨rfl, hlist, rfl, rfl⟩ := hd
  have hsub := sublist_of_list hlist
  refine Ends.check
    (E := fun e d' k => (d' = d ∧ k = k') ∨
      ∃ matched, d.list (some pattern) = .ok matched ∧ StoppedAt d matched e d' k)
    (P := fun d' k => d' = d ∧ k = k') (fun _ _ _ hd => .inl hd) (fun henabled => ?_)
    d k' ⟨rfl, rfl⟩
  have hdrop := droppable_of_enabled hsub (by simpa using henabled)
  refine Ends.bind (Q := fun _ d' k => d' = d ∧ k = k')
    (fun d' k hd => ⟨.ok (confirm matched), d', k, rfl, hd⟩) fun confirmed => ?_
  split
  · exact Ends.pure fun _ _ hd => .inl ⟨rfl, hd⟩
  have hall := ends_dropTables h (h.distinct.sublist hsub) hdrop
  refine Ends.bind ((hall.weaken fun e d k he => .inr ⟨matched, hlist, he⟩).pre fun _ _ hd => hd.1)
    fun _ => ?_
  exact Ends.pure fun d k hd => .inr ⟨matched, hlist, rfl, hd⟩

/-- The table of a write to one table. -/
def Operation.target? : Operation → Option String
  | createTable name _ | mutate name _ | enable name | disable name | alter name _
  | dropTable name => some name
  | dropAll _ _ | truncate _ => none

/-- What a write to the table of a name leaves behind once it went through. -/
def Operation.Leaves (op : Operation) (name : String) (c : Catalog) (k : Machine) (d : Catalog)
    (k' : Machine) : Prop :=
  match op with
  | dropTable _ => d = c.remove name ∧ (k.Honest → Gone name d k'.volume)
  | enable _ | disable _ => (d = c ∧ k'.volume = k.volume) ∨ Written c name d k'
  | _ => Written c name d k'

theorem Operation.ends_run (op : Operation) (h : c.WellNamed) (hname : op.target? = some name)
    (k : Machine) :
    Ends (Unless c) (fun d k' => d = c ∧ k' = k) op.run fun _ d k' => op.Leaves name c k d k' := by
  have hsame {d k'} (hd : d = c ∧ k' = k) : d = c ∧ k'.volume = k.volume := ⟨hd.1, hd.2 ▸ rfl⟩
  cases op with
  | dropAll | truncate => cases hname
  | createTable _ families =>
    cases hname
    exact (ends_createTable families).pre fun _ _ hd => hd.1
  | mutate _ write =>
    cases hname
    exact Ends.discard ((ends_mutate h (isProper_run write)).pre fun _ _ hd => hd.1)
  | enable =>
    cases hname
    exact Ends.discard ((ends_enable h).pre fun _ _ hd => hsame hd)
  | disable =>
    cases hname
    exact Ends.discard ((ends_disable h).pre fun _ _ hd => hsame hd)
  | alter _ pairs =>
    cases hname
    exact Ends.discard ((ends_alter h pairs).pre fun _ _ hd => hd.1)
  | dropTable =>
    cases hname
    exact ((ends_dropTable h).weaken fun _ _ _ he => he.1).pre fun _ _ hd =>
      ⟨hd.1, fun hk => hd.2 ▸ hk⟩

/-- Whatever the disk does, a write to one table that comes to a fault leaves the catalog as it was,
and one that went through has the table in its file. Where the removal of several tables comes to a
fault, either nothing was done, or the tables before the one whose file could not be removed are
gone. -/
theorem Reachable.atomic (h : Reachable c) (k : Machine) :
    (∀ op name, Operation.target? op = some name →
      match exec op.run c k with
      | ((.ok _, d), k') => op.Leaves name c k d k'
      | ((.error _, d), _) => d = c) ∧
    ∀ (pattern : String) (confirm : List String → Bool),
      match exec (dropAll pattern fun names => Pure.pure (confirm names)) c k with
      | ((.ok n, d), k') => (n = 0 ∧ d = c ∧ k' = k) ∨
          ∃ matched, c.list (some pattern) = .ok matched ∧ n = matched.length ∧
            d = c.without matched
      | ((.error e, d), k') => (d = c ∧ k' = k) ∨
          ∃ matched, c.list (some pattern) = .ok matched ∧ StoppedAt c matched e d k' := by
  refine ⟨fun op name hname => ?_, fun pattern confirm => ?_⟩
  · obtain ⟨r, d, k', hrun, hr⟩ := op.ends_run h.wellNamed hname k c k ⟨rfl, rfl⟩
    rw [hrun]
    cases r <;> exact hr
  · obtain ⟨r, d, k', hrun, hr⟩ := ends_dropAll h.wellNamed pattern confirm c k ⟨rfl, rfl⟩
    rw [hrun]
    cases r <;> exact hr

/-- Two disabled tables. -/
def twoDisabled : Catalog × Machine :=
  after [.createTable "a" [], .createTable "b" [], .disable "a", .disable "b"] (⟨"d", []⟩, opened.2)

/-- The machine refuses to remove the second of two files. -/
def stubborn : Machine :=
  { twoDisabled.2 with
    outages := fun n => if n = twoDisabled.2.calls + 1 then some ⟨.other "busy", none⟩ else none }

theorem reachable_twoDisabled : Reachable twoDisabled.1 := by
  have hopened : Reachable ⟨"d", []⟩ := .opened (k := blankMachine) List.nodup_nil opened_eq
  exact (((hopened.written _ _).written _ _).written _ _).written _ _

theorem atomic_stubborn : Reachable twoDisabled.1 ∧
    ∃ e d k', exec (dropAll ".*" fun _ => Pure.pure true) twoDisabled.1 stubborn =
      ((.error e, d), k') ∧
      d.names = ["b"] ∧ StoppedAt twoDisabled.1 ["a", "b"] e d k' := by
  have hlist : (twoDisabled.1.list (some ".*")).toOption = some ["a", "b"] := by decide +kernel
  have herror : (exec (dropAll ".*" fun _ => Pure.pure true) twoDisabled.1 stubborn).1.1.isOk =
      false := by
    decide +kernel
  have hnames : (exec (dropAll ".*" fun _ => Pure.pure true) twoDisabled.1 stubborn).1.2.names =
      ["b"] := by
    decide +kernel
  have hbefore : twoDisabled.1.names = ["a", "b"] := by decide +kernel
  have hatomic := (reachable_twoDisabled.atomic stubborn).2 ".*" fun _ => true
  refine ⟨reachable_twoDisabled, ?_⟩
  cases hrun : exec (dropAll ".*" fun _ => Pure.pure true) twoDisabled.1 stubborn with
  | mk p k' =>
    obtain ⟨r, d⟩ := p
    rw [hrun] at herror hnames hatomic
    cases r with
    | ok n => cases herror
    | error e =>
      refine ⟨e, d, k', rfl, hnames, ?_⟩
      rcases hatomic with ⟨rfl, -⟩ | ⟨matched, hmatched, hstopped⟩
      · exact absurd (hbefore.symm.trans hnames) (by decide)
      · rw [hmatched] at hlist
        cases hlist
        exact hstopped

end WideColumn.Catalog
