import WideColumn.Proofs.Catalog.Atomicity
import WideColumn.Proofs.Host.Footprint

/-! # The footprint of a write to a catalog

A write has touched only the tables of some names if every other table is in memory as it was, in
the order it had, and nothing on the volume has changed but the files of these names. Each step of a
write to one table touches that table only, whatever the disk does: a call that fails may have left
its residue in the file of the table, and nowhere else. -/
namespace WideColumn.Catalog
open WideColumn.Schema

variable {name other : String} {touched touched' : String → Bool} {c d e : Catalog} {v w x : Volume}
  {t next : Table} {files : String → Prop}

/-- The file of a table whose name is one of those touched, and legal. -/
def FileOf (touched : String → Bool) (file : String) : Prop :=
  ∃ name, touched name = true ∧ checkTableName name = .ok () ∧ file = tableFileName name

theorem fileOf (hname : touched name = true) (hlegal : checkTableName name = .ok ()) :
    FileOf touched (tableFileName name) := ⟨name, hname, hlegal, rfl⟩

theorem not_fileOf (hname : touched name = false) : ¬ FileOf touched (tableFileName name) := by
  intro h
  obtain ⟨other, hother, -, heq⟩ := h
  rw [tableFileName_injective heq, hother] at hname
  cases hname

/-- The tables whose names are not touched. -/
def others (touched : String → Bool) (c : Catalog) : List Table :=
  c.tables.filter fun t => !touched t.name

structure TouchesOnly (touched : String → Bool) (c : Catalog) (v : Volume) (d : Catalog)
  (w : Volume) : Prop where
  directory : d.directory = c.directory
  others : d.others touched = c.others touched
  files : v.TouchesOnly w (Volume.path c.directory) (FileOf touched)

namespace TouchesOnly

theorem refl (touched : String → Bool) (c : Catalog) (v : Volume) : TouchesOnly touched c v c v :=
  ⟨rfl, rfl, .refl ..⟩

theorem trans (h : TouchesOnly touched c v d w) (h' : TouchesOnly touched d w e x) :
    TouchesOnly touched c v e x where
  directory := h'.directory.trans h.directory
  others := h'.others.trans h.others
  files := h.files.trans (h.directory ▸ h'.files)

theorem mono (h : TouchesOnly touched c v d w)
    (hsub : ∀ name, touched name = true → touched' name = true) :
    TouchesOnly touched' c v d w where
  directory := h.directory
  others := by
    have hfilter (c : Catalog) : c.others touched' = (c.others touched).filter fun t =>
      !touched' t.name := by
      rw [Catalog.others, Catalog.others, List.filter_filter]
      refine List.filter_congr fun t _ => ?_
      cases htouched : touched t.name with
      | false => simp
      | true => simp [hsub _ htouched]
    rw [hfilter d, hfilter c, h.others]
  files := h.files.mono fun file hfile => by
    obtain ⟨name, htouched, hlegal, rfl⟩ := hfile
    exact ⟨name, hsub name htouched, hlegal, rfl⟩

theorem find?_eq (h : TouchesOnly touched c v d w) (hname : touched name = false) :
    d.find? name = c.find? name := by
  have hothers (c : Catalog) : (c.others touched).find? (fun t => t.name == name) =
      c.find? name := by
    rw [Catalog.others, List.find?_filter, find?]
    congr 1
    funext t
    by_cases ht : t.name = name <;> simp [ht, hname]
  rw [← hothers d, ← hothers c, h.others]

theorem node?_filePath (h : TouchesOnly touched c v d w) (hname : touched name = false)
    (hlegal : checkTableName name = .ok ()) :
    w.node? (Volume.path (c.filePath name)) = v.node? (Volume.path (c.filePath name)) := by
  rw [path_filePath c hlegal]
  exact h.files.node_child (not_fileOf hname)

theorem find?_filePath {n : Node} (h : TouchesOnly touched c v d w) (hname : touched name = false)
    (hlegal : checkTableName name = .ok ())
    (hfind : v.find? (Volume.path (c.filePath name)) = .ok n) :
    w.find? (Volume.path (c.filePath name)) = .ok n := by
  rw [path_filePath c hlegal] at hfind ⊢
  exact h.files.find?_child (not_fileOf hname) hfind

end TouchesOnly

private theorem touchesOnly_makeDirectory (p : Path) (k : Machine) :
    k.volume.TouchesOnly (Machine.change (Volume.makeDirectory · p) k).2.volume p files := by
  rcases Machine.volume_change (Volume.makeDirectory · p) k with hsame | hmade
  · exact hsame ▸ .refl ..
  · exact Volume.touchesOnly_of_makeDirectory hmade

private theorem touchesOnly_writeFile {p : Path} {file : String} (hfile : files file)
    (text : String) (k : Machine) :
    k.volume.TouchesOnly (Machine.writeFile (p ++ [file]) text k).2.volume p files := by
  rcases Machine.volume_writeFile (p ++ [file]) text k with hsame | ⟨content, hwrite⟩
  · exact hsame ▸ .refl ..
  · exact .ofSameBut (Volume.sameBut_of_write hwrite) hfile

private theorem touchesOnly_remove {p : Path} {file : String} (hfile : files file) (k : Machine) :
    k.volume.TouchesOnly (Machine.change (Volume.remove · (p ++ [file])) k).2.volume p files := by
  rcases Machine.volume_change (Volume.remove · (p ++ [file])) k with hsame | hremove
  · exact hsame ▸ .refl ..
  · exact .ofSameBut (Volume.sameBut_of_remove hremove) hfile

/-- The catalog is as it was, and a file of the tables touched may have changed. -/
def Underway (touched : String → Bool) (c : Catalog) (v : Volume) (d : Catalog)
    (k : Machine) : Prop :=
  d = c ∧ v.TouchesOnly k.volume (Volume.path c.directory) (FileOf touched)

theorem Underway.touchesOnly {k : Machine} (h : Underway touched c v d k) :
    TouchesOnly touched c v d k.volume := by
  obtain ⟨rfl, hv⟩ := h
  exact ⟨rfl, rfl, hv⟩

theorem preserves_save (hname : touched t.name = true) (hlegal : checkTableName t.name = .ok ()) :
    Preserves (Underway touched c v) (save t) := by
  refine Ends.bind Ends.get fun d => ?_
  intro d' k h
  obtain ⟨rfl, rfl, hv⟩ := h
  refine Preserves.bind (Preserves.demand fun d' k hd => ?_)
    (fun _ => Preserves.demand fun d' k hd => ?_) d k ⟨rfl, hv⟩
  · exact ⟨hd.1, hd.2.trans (touchesOnly_makeDirectory _ k)⟩
  · have hwrite := touchesOnly_writeFile (p := Volume.path d.directory) (fileOf hname hlegal)
      t.encode k
    rw [← path_filePath d hlegal] at hwrite
    exact ⟨hd.1, hd.2.trans hwrite⟩

theorem preserves_removeFile (hname : touched name = true) (hlegal : checkTableName name = .ok ()) :
    Preserves (Underway touched c v) (removeFile (c.filePath name)) := by
  refine Preserves.bind (Preserves.observe fun d k hd => ?_) fun r => ?_
  · have hremove := touchesOnly_remove (p := Volume.path c.directory) (fileOf hname hlegal) k
    rw [← path_filePath c hlegal] at hremove
    exact ⟨hd.1, hd.2.trans hremove⟩
  · split
    · exact Preserves.pure _
    · exact Preserves.pure _
    · exact Preserves.throw _

theorem others_replace (hname : touched name = true) (hnext : next.name = name) :
    (c.replace name next).others touched = c.others touched := by
  obtain ⟨directory, tables⟩ := c
  rw [others, others, replace]
  dsimp only
  induction tables with
  | nil => rfl
  | cons t tables ih =>
    rw [replaceIn]
    by_cases ht : t.name = name
    · simp [ht, hnext, hname]
    · rw [if_neg (by simpa using ht), List.filter_cons, List.filter_cons, ih]

theorem others_remove (hname : touched name = true) :
    (c.remove name).others touched = c.others touched := by
  obtain ⟨directory, tables⟩ := c
  rw [others, others, remove]
  dsimp only
  induction tables with
  | nil => rfl
  | cons t tables ih =>
    rw [removeFrom]
    by_cases ht : t.name = name
    · simp [ht, hname]
    · rw [if_neg (by simpa using ht), List.filter_cons, List.filter_cons, ih]

theorem others_add (hname : touched t.name = true) :
    (c.add t).others touched = c.others touched := by
  rw [others, add, List.filter_append, others]
  simp [hname]

/-- A program that starts from a catalog on a volume touches only the tables of some names, whether
it comes to an answer or to a fault. -/
def StaysWithin {α : Type} (touched : String → Bool) (c : Catalog) (v : Volume)
    (p : Program α) : Prop :=
  Ends (fun _ d k => TouchesOnly touched c v d k.volume) (fun d k => d = c ∧ k.volume = v) p
    fun _ d k => TouchesOnly touched c v d k.volume

/-- Legal, distinct names, and only some tables touched. -/
def Within (touched : String → Bool) (c : Catalog) (v : Volume) (d : Catalog)
    (k : Machine) : Prop :=
  d.WellNamed ∧ TouchesOnly touched c v d k.volume

theorem preserves_within {α : Type} {p : Program α} (hnamed : Preserves (fun c _ => c.WellNamed) p)
    (h : ∀ c v, c.WellNamed → StaysWithin touched c v p) : Preserves (Within touched c v) p := by
  intro d k hd
  obtain ⟨r, d', k', hrun, hr⟩ := hnamed d k hd.1
  obtain ⟨r', d'', k'', hrun', hr'⟩ := h d k.volume hd.1 d k ⟨rfl, rfl⟩
  rw [hrun] at hrun'
  cases hrun'
  refine ⟨r, d', k', hrun, ?_⟩
  cases r <;> exact ⟨hr, hd.2.trans hr'⟩

/-- What keeps to the tables on the way stays within them. -/
theorem staysWithin_of_preserves {α : Type} {p : Program α} (h : c.WellNamed)
    (hp : Preserves (Within touched c v) p) : StaysWithin touched c v p := by
  refine ((hp.weaken fun _ _ _ hd => hd.2).post fun _ _ _ hd => hd.2).pre fun d k hd => ?_
  obtain ⟨rfl, rfl⟩ := hd
  exact ⟨h, .refl ..⟩

theorem staysWithin_of_underway {α : Type} {p : Program α}
    (h : Ends (fun _ d k => TouchesOnly touched c v d k.volume) (Underway touched c v) p
      fun _ d k => TouchesOnly touched c v d k.volume) : StaysWithin touched c v p :=
  h.pre fun _ _ hd => ⟨hd.1, hd.2 ▸ .refl ..⟩

theorem staysWithin_mutate {α : Type} {op : Readings → Table → Except Fault (α × Table)}
    (hop : IsProper op) (hname : touched name = true) (h : c.WellNamed) :
    StaysWithin touched c v (mutate name op) := by
  apply staysWithin_of_underway
  refine Ends.bind (Ends.ask fun _ _ _ hd _ => hd.touchesOnly) fun t => ?_
  refine Ends.bind (Q := fun _ d k => d.table name = .ok t ∧ Underway touched c v d k) ?_
    fun r => ?_
  · exact fun d k hd => ⟨.ok _, d, _, rfl, hd⟩
  refine Ends.bind (Ends.lift fun _ _ _ hd => hd.2.touchesOnly) fun p => ?_
  obtain ⟨answer, next⟩ := p
  intro d k hd
  obtain ⟨hrun, htable, rfl, hv⟩ := hd
  obtain ⟨hmem, ht⟩ := mem_of_find? (find?_of_table htable)
  have hnext : next.name = name := (hop.name_eq hrun).trans ht
  have hsave := preserves_save (c := d) (v := v) (hnext.symm ▸ hname) (hnext ▸ ht ▸ h.legal t hmem)
  refine Ends.bind (hsave.weaken fun _ _ _ hd => hd.touchesOnly) (fun _ => ?_) d k ⟨rfl, hv⟩
  refine Ends.bind (Q := fun _ d' k => TouchesOnly touched d v d' k.volume)
    (Ends.modify fun d' k hd => ?_) fun _ => Ends.pure fun _ _ h => h
  obtain ⟨rfl, hv⟩ := hd
  exact ⟨rfl, others_replace hname hnext, hv⟩

theorem staysWithin_createTable (hname : touched name = true) (families : List Family) :
    StaysWithin touched c v (createTable name families) := by
  apply staysWithin_of_underway
  refine Ends.bind (Ends.lift fun _ _ _ hd => hd.touchesOnly) fun _ => ?_
  refine Ends.bind Ends.get fun d => ?_
  intro d' k hd
  obtain ⟨rfl, hlegal, hd⟩ := hd
  refine Ends.check (E := fun _ d k => TouchesOnly touched c v d k.volume)
    (P := Underway touched c v) (fun _ _ _ hd => hd.touchesOnly) (fun _ => ?_) d k hd
  refine Ends.bind (Q := fun _ => Underway touched c v) ?_ fun _ =>
    Ends.check (fun _ _ _ hd => hd.touchesOnly) fun _ => ?_
  · intro d' k hd
    let look (v : Volume) : Except DiskError Unit :=
      (v.find? (Volume.path (d.filePath name))).map fun _ => ()
    exact ⟨.ok _, d', (Machine.look look k).2, rfl, hd.1, (Machine.volume_look look k).symm ▸ hd.2⟩
  refine Ends.bind (Ends.lift fun _ _ _ hd => hd.touchesOnly) fun _ => ?_
  refine Ends.bind (Q := fun _ => Underway touched c v) (fun d' k hd => ⟨.ok _, d', _, rfl, hd.2⟩)
    fun id => ?_
  refine Ends.bind (Q := fun _ => Underway touched c v) (fun d' k hd => ⟨.ok _, d', _, rfl, hd⟩)
    fun now => ?_
  have hsave := preserves_save (c := c) (v := v) (t := Table.blank name families id now)
    hname hlegal
  refine Ends.bind (hsave.weaken fun _ _ _ hd => hd.touchesOnly) fun _ =>
    Ends.modify fun d' k hd => ?_
  obtain ⟨rfl, hv⟩ := hd
  exact ⟨rfl, others_add hname, hv⟩

theorem staysWithin_dropTable (hname : touched name = true) (h : c.WellNamed) :
    StaysWithin touched c v (dropTable name) := by
  apply staysWithin_of_underway
  refine Ends.bind Ends.get fun d => ?_
  refine Ends.bind (Ends.ask fun _ _ _ hd _ => hd.2.touchesOnly) fun t => ?_
  intro d' k hd
  obtain ⟨htable, rfl, rfl, hv⟩ := hd
  obtain ⟨hmem, rfl⟩ := mem_of_find? (find?_of_table htable)
  refine Ends.check (E := fun _ d' k => TouchesOnly touched d v d' k.volume)
    (P := Underway touched d v) (fun _ _ _ hd => hd.touchesOnly) (fun _ => ?_) d k ⟨rfl, hv⟩
  have hremove := preserves_removeFile (c := d) (v := v) hname (h.legal t hmem)
  refine Ends.bind (hremove.weaken fun _ _ _ hd => hd.touchesOnly) fun _ =>
    Ends.modify fun d' k hd => ?_
  obtain ⟨rfl, hv⟩ := hd
  exact ⟨rfl, others_remove hname, hv⟩

/-- Whatever is made of steps that are taken for one table touches that table only. -/
theorem stableAt_within (hname : touched name = true) : StableAt (Within touched c v) name where
  mutate hop := preserves_within (stable_wellNamed.mutate hop name) fun _ _ =>
    staysWithin_mutate hop hname
  createTable families := preserves_within (stable_wellNamed.createTable name families)
    fun _ _ _ => staysWithin_createTable hname families
  dropTable := preserves_within (stable_wellNamed.dropTable name) fun _ _ =>
    staysWithin_dropTable hname

/-- The names that a pattern lists. -/
def listed (c : Catalog) (pattern : String) (name : String) : Bool :=
  match c.list (some pattern) with
  | .ok matched => matched.contains name
  | .error _ => false

theorem listed_of_list {pattern : String} {matched : List String}
    (h : c.list (some pattern) = .ok matched) :
    c.listed pattern = matched.contains := by
  funext name
  rw [listed, h]

theorem staysWithin_dropAll (h : c.WellNamed) (pattern : String) (confirm : List String → Bool) :
    StaysWithin (c.listed pattern) c v
      (dropAll pattern fun names => Pure.pure (confirm names)) := by
  refine Ends.bind (Ends.ask fun d k _ hd _ => ?_) fun matched => ?_
  · obtain ⟨rfl, rfl⟩ := hd
    exact .refl ..
  intro d k hd
  obtain ⟨hlist, hd⟩ := hd
  have hlisted := hd.1 ▸ listed_of_list hlist
  refine staysWithin_of_preserves h ?_ d k hd
  refine Preserves.ite (Preserves.pure _) (Preserves.get.bind fun d => ?_)
  refine Preserves.ite ((Preserves.throw _).bind fun _ => ?_) ?_
  all_goals
    refine Preserves.bind (Preserves.pure (confirm matched)) fun _ =>
      Preserves.ite (Preserves.pure _) ?_
    refine (Preserves.forM fun name hname => (stableAt_within ?_).dropTable).bind fun _ =>
      Preserves.pure _
    simpa [hlisted] using hname

end WideColumn.Catalog
