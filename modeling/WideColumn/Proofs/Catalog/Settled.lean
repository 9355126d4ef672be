import WideColumn.Proofs.Catalog.Removal

/-! # Writes on a disk that does not fail

Where every table has a file, as it does where memory and disk agree, and no call of the disk fails,
the file of a table can always be written and removed. A write then comes to what its checks and its
operation on the table come to. -/
namespace WideColumn.Catalog
open WideColumn.Schema WideColumn.Time

variable {directory name : String} {c : Catalog} {k k' : Machine} {t : Table}

theorem exec_save {w : Volume} (hk : k.Calm)
    (hdirectory : k.volume.find? (Volume.path c.directory) = .ok .directory)
    (hwrite : k.volume.write (Volume.path (c.filePath t.name)) (.text t.encode) = .ok w) :
    exec (save t) c k = ((.ok (), c), { k with volume := w, calls := k.calls + 2 }) := by
  have hmake : Machine.change (Volume.makeDirectory · (Volume.path c.directory)) k =
      (.ok (), { k with calls := k.calls + 1 }) := by
    rw [Machine.change_of_calm hk, Volume.makeDirectory_of_find? hdirectory]
  have hcall : Machine.writeFile (Volume.path (c.filePath t.name)) t.encode
    { k with calls := k.calls + 1 } = (.ok (), { k with volume := w, calls := k.calls + 2 }) := by
    have hcalm : Machine.Calm { k with calls := k.calls + 1 } := hk
    rw [Machine.writeFile_of_calm hcalm]
    dsimp only
    rw [hwrite]
  have hfirst : exec (demand .disk (Host.makeDirectory c.directory)) c k =
      ((.ok (), c), { k with calls := k.calls + 1 }) := exec_demand_ok hmake
  rw [save, exec_bind_ok (exec_get c k), exec_bind_ok hfirst]
  exact exec_demand_ok hcall

theorem exec_pathExists_of_missing {path : String} (hk : k.Calm)
    (hmissing : k.volume.find? (Volume.path path) = .error .missing) :
    exec (Host.pathExists path) c k = ((.ok false, c), { k with calls := k.calls + 1 }) := by
  let look (v : Volume) : Except DiskError Unit := (v.find? (Volume.path path)).map fun _ => ()
  have hexec : exec (Host.pathExists path) c k =
      ((.ok (Machine.look look k).1.isOk, c), (Machine.look look k).2) := rfl
  rw [hexec, Machine.look_of_calm hk]
  dsimp only [look]
  rw [hmissing]
  rfl

/-- Where the directory is there, the file of a table can be written, whether there is one or
not. -/
theorem exec_save_of_find? (hk : k.Calm)
    (hdirectory : k.volume.find? (Volume.path c.directory) = .ok .directory)
    (hlegal : checkTableName t.name = .ok ())
    (hfile : (∃ content, k.volume.find? (Volume.path (c.filePath t.name)) = .ok (.file content)) ∨
      k.volume.find? (Volume.path (c.filePath t.name)) = .error .missing) :
    ∃ k', exec (save t) c k = ((.ok (), c), k') ∧ k'.Calm ∧
      k'.volume = k.volume.place (Volume.path (c.filePath t.name)) (.file (.text t.encode)) := by
  have hpath := path_filePath c hlegal
  obtain ⟨w, hwrite⟩ := Volume.exists_write hdirectory (hpath ▸ hfile) (.text t.encode)
  refine ⟨_, exec_save hk hdirectory (hpath ▸ hwrite), hk, ?_⟩
  exact hpath ▸ (Volume.write_eq_ok hdirectory hwrite).1

/-- A file that is there is removed. -/
theorem exec_removeFile_of_find? {path : String} {content : Content} (hk : k.Calm)
    (hfile : k.volume.find? (Volume.path path) = .ok (.file content)) :
    exec (removeFile path) c k =
      ((.ok (), c),
        { k with volume := k.volume.without (Volume.path path), calls := k.calls + 1 }) := by
  have hcall := Machine.change_of_calm hk (Volume.remove · (Volume.path path))
  rw [Volume.remove_of_find? hfile] at hcall
  have hexec : exec (Host.removeFile path) c k =
      ((.ok (Machine.change (Volume.remove · (Volume.path path)) k).1, c),
        (Machine.change (Volume.remove · (Volume.path path)) k).2) := rfl
  rw [hcall] at hexec
  rw [removeFile, exec_bind_ok hexec]
  rfl

/-- Every table has a file, whatever is in it. -/
structure Housed (c : Catalog) (v : Volume) : Prop where
  named : c.WellNamed
  directory : v.find? (Volume.path c.directory) = .ok .directory
  files : ∀ t ∈ c.tables, ∃ content, v.find? (Volume.path (c.filePath t.name)) = .ok (.file content)

namespace Housed

variable {v w : Volume} {s : Table}

theorem mono (h : Housed c v) (hw : v.KeepsFiles w) : Housed c w where
  named := h.named
  directory := hw.directory _ h.directory
  files t ht := by
    obtain ⟨content, hfile⟩ := h.files t ht
    exact hw.file _ content hfile

/-- The file of a table is written. -/
theorem place (h : Housed c v) (ht : c.find? name = some t) (content : Content) :
    Housed c (v.place (Volume.path (c.filePath name)) (.file content)) := by
  obtain ⟨hmem, rfl⟩ := mem_of_find? ht
  obtain ⟨content', hfile⟩ := h.files t hmem
  have hpath := path_filePath c (h.named.legal t hmem)
  rw [hpath] at hfile ⊢
  exact h.mono (.ofPlace (fun heq => by rw [heq] at hfile; cases hfile) content)

theorem replace (h : Housed c v) (ht : c.find? name = some t) (hname : s.name = name) :
    Housed (c.replace name s) v where
  named := h.named.changed (.replaced ht hname)
  directory := h.directory
  files r hr := by
    obtain ⟨hmem, rfl⟩ := mem_of_find? ht
    rcases mem_replaceIn hr with rfl | hr
    · exact hname.symm ▸ h.files t hmem
    · exact h.files r hr

theorem add (h : Housed c v) (hlegal : checkTableName t.name = .ok ())
    (hnew : c.find? t.name = none)
    (hfile : ∃ content, v.find? (Volume.path (c.filePath t.name)) = .ok (.file content)) :
    Housed (c.add t) v where
  named := h.named.changed (.added rfl hlegal hnew)
  directory := h.directory
  files := List.forall_mem_append.mpr ⟨h.files, List.forall_mem_singleton.mpr hfile⟩

theorem forget (h : Housed c v) (name : String) : Housed (c.remove name) v where
  named := h.named.changed .removed
  directory := h.directory
  files t ht := h.files t ((sublist_removeFrom name c.tables).subset ht)

theorem remove (h : Housed c v) (hlegal : checkTableName name = .ok ()) :
    Housed (c.remove name) (v.without (Volume.path (c.filePath name))) where
  named := h.named.changed .removed
  directory := by
    rw [path_filePath c hlegal]
    exact (Volume.sameBut_without _).directory h.directory
  files s hs := by
    rw [Catalog.remove, removeFrom_eq_filter h.named.distinct, List.mem_filter, bne_iff_ne] at hs
    obtain ⟨content, hfile⟩ := h.files s hs.1
    have hpath := path_filePath c (h.named.legal s hs.1)
    have hpath' : Volume.path ((c.remove name).filePath s.name) = _ := hpath
    refine ⟨content, ?_⟩
    rw [hpath', path_filePath c hlegal, (Volume.sameBut_without _).find?_child h.directory,
      ← hpath, hfile]
    exact fun heq => hs.2 (tableFileName_injective heq)

/-- A write to a table comes to what its operation does to the table, at the times that the clock
shows. -/
theorem exec_mutate {α : Type} (h : Housed c k.volume) (hk : k.Calm)
    (op : Readings → Table → Except Fault (α × Table)) (ht : c.find? name = some t)
    (hname : ∀ r a next, op r t = .ok (a, next) → next.name = t.name) :
    ∃ r k', match op r t with
      | .ok (a, next) => exec (mutate name op) c k = ((.ok a, c.replace name next), k') ∧ k'.Calm ∧
          k'.volume = k.volume.place (Volume.path (c.filePath name)) (.file (.text next.encode))
      | .error e => exec (mutate name op) c k = ((.error e, c), k') := by
  obtain ⟨hmem, rfl⟩ := mem_of_find? ht
  obtain ⟨r, k₁, hclock, hk₁, hv₁⟩ : ∃ r k₁, exec readClock c k = ((.ok r, c), k₁) ∧ k₁.Calm ∧
      k₁.volume = k.volume := ⟨_, _, rfl, hk, rfl⟩
  refine ⟨r, ?_⟩
  have hlift := exec_lift (op r t) c k₁
  rw [mutate, exec_bind_ok (exec_table ht k), exec_bind_ok hclock]
  cases hrun : op r t with
  | error e =>
    rw [hrun] at hlift
    exact ⟨k₁, exec_bind_error hlift⟩
  | ok result =>
    obtain ⟨a, next⟩ := result
    rw [hrun] at hlift
    have hsame := hname r a next hrun
    obtain ⟨k₂, hsave, hk₂, hv₂⟩ := exec_save_of_find? (t := next) hk₁ (hv₁ ▸ h.directory)
      (hsame ▸ h.named.legal t hmem) (.inl (hsame ▸ hv₁ ▸ h.files t hmem))
    refine ⟨k₂, ?_, hk₂, by rw [hv₂, hv₁, hsame]⟩
    rw [exec_bind_ok hlift, exec_bind_ok hsave]
    rfl

theorem exec_mutate_ (h : Housed c k.volume) (hk : k.Calm)
    (op : Readings → Table → Except Fault Table) (ht : c.find? name = some t)
    (hname : ∀ r next, op r t = .ok next → next.name = t.name) :
    ∃ r k', match op r t with
      | .ok next => exec (mutate_ name op) c k = ((.ok (), c.replace name next), k') ∧ k'.Calm ∧
          k'.volume = k.volume.place (Volume.path (c.filePath name)) (.file (.text next.encode))
      | .error e => exec (mutate_ name op) c k = ((.error e, c), k') := by
  have hsame : ∀ r (a : Unit) next, (do return ((), ← op r t) : Except Fault (Unit × Table)) =
    .ok (a, next) →
      next.name = t.name := by
    intro r _ next hok
    obtain ⟨_, hs, hok⟩ := bind_eq_ok.mp hok
    cases hok
    exact hname r next hs
  obtain ⟨r, k', hrun⟩ := h.exec_mutate hk (fun r t => do return ((), ← op r t)) ht hsame
  refine ⟨r, k', ?_⟩
  cases hop : op r t with
  | error e =>
    rw [hop] at hrun
    exact hrun
  | ok next =>
    rw [hop] at hrun
    obtain ⟨hrun, hk', hv⟩ := hrun
    exact ⟨hrun, hk', hv⟩

theorem exec_disable (h : Housed c k.volume) (hk : k.Calm) (ht : c.find? name = some t)
    (henabled : t.enabled = true) :
    ∃ s k', exec (disable name) c k = ((.ok .changed, c.replace name s), k') ∧ s.name = name ∧
      s.enabled = false ∧ k'.Calm ∧
      k'.volume = k.volume.place (Volume.path (c.filePath name)) (.file (.text s.encode)) := by
  obtain ⟨-, rfl⟩ := mem_of_find? ht
  have hon : t.disabled = false := by simpa [Table.enabled] using henabled
  have hask : exec (ask (·.isDisabled t.name)) c k = ((.ok false, c), k) := by
    rw [exec_ask, isDisabled, table, ht, ← hon]
    rfl
  obtain ⟨r, k', hmutate⟩ := h.exec_mutate_ hk (fun r t => t.disable r) ht fun r next hok =>
    (Table.disable_eq_ok.mp hok).2 ▸ rfl
  obtain ⟨s, hok, hname, hoff⟩ : ∃ s, t.disable r = .ok s ∧ s.name = t.name ∧ s.enabled = false :=
    ⟨_, Table.disable_eq_ok.mpr ⟨hon, rfl⟩, rfl, rfl⟩
  rw [hok] at hmutate
  obtain ⟨hmutate, hk', hv⟩ := hmutate
  refine ⟨s, k', ?_, hname, hoff, hk', hv⟩
  rw [disable, exec_bind_ok hask, if_neg Bool.false_ne_true, exec_bind_ok hmutate]
  rfl

/-- A disabled table is dropped with its file. -/
theorem exec_dropTable (h : Housed c k.volume) (hk : k.Calm) (ht : c.find? name = some t)
    (hdisabled : t.enabled = false) :
    exec (dropTable name) c k =
      ((.ok (), c.remove name), { k with
        volume := k.volume.without (Volume.path (c.filePath name)), calls := k.calls + 1 }) := by
  obtain ⟨hmem, rfl⟩ := mem_of_find? ht
  obtain ⟨content, hfile⟩ := h.files t hmem
  rw [dropTable, exec_bind_ok (exec_get c k), exec_bind_ok (exec_table ht k), hdisabled,
    if_neg Bool.false_ne_true, exec_bind_ok (exec_removeFile_of_find? hk hfile)]
  rfl

end Housed

/-- Where neither the catalog nor the directory has its name, a table is created if its families
pass the check. -/
theorem exec_createTable_of_missing (hk : k.Calm)
    (hdirectory : k.volume.find? (Volume.path c.directory) = .ok .directory)
    (hlegal : checkTableName name = .ok ()) (hnew : c.find? name = none)
    (hmissing : k.volume.find? (Volume.path (c.filePath name)) = .error .missing)
    (families : List Family) :
    ∃ id now k', match Table.checkFamilies [] families with
      | .ok _ => exec (createTable name families) c k =
        ((.ok (), c.add (.blank name families id now)), k') ∧
          k'.volume = k.volume.place (Volume.path (c.filePath name))
            (.file (.text (Table.blank name families id now).encode))
      | .error e => exec (createTable name families) c k = ((.error e, c), k') ∧
          k'.volume = k.volume := by
  have hname : exec (liftM (checkTableName name)) c k = ((.ok (), c), k) := by
    rw [exec_lift, hlegal]
  have hcontains : c.contains name = false := by rw [contains, hnew]; rfl
  have hexists := exec_pathExists_of_missing (c := c) hk hmissing
  have hcheck (k : Machine) : exec (liftM (Table.checkNew name families)) c k =
      ((Table.checkFamilies [] families, c), k) := by
    rw [exec_lift, Table.checkNew, hlegal]
    rfl
  obtain ⟨id, k₁, hid, hk₁, hv₁⟩ : ∃ id k₁, exec Host.newId c { k with calls := k.calls + 1 } =
    ((.ok id, c), k₁) ∧
      k₁.Calm ∧ k₁.volume = k.volume := ⟨_, _, rfl, hk, rfl⟩
  obtain ⟨now, k₂, hnow, hk₂, hv₂⟩ : ∃ now k₂, exec Host.now c k₁ = ((.ok now, c), k₂) ∧
      k₂.Calm ∧ k₂.volume = k.volume := ⟨_, _, rfl, hk₁, hv₁⟩
  refine ⟨id, now, ?_⟩
  rw [createTable, exec_bind_ok hname, exec_bind_ok (exec_get c k), hcontains,
    if_neg Bool.false_ne_true, exec_bind_ok hexists, if_neg Bool.false_ne_true]
  -- nothing is asked of the machine but whether the file is there, until the families pass
  cases hfamilies : Table.checkFamilies [] families with
  | error e =>
    have hrefused := (hcheck { k with calls := k.calls + 1 }).trans (by rw [hfamilies])
    exact ⟨_, exec_bind_error hrefused, rfl⟩
  | ok =>
    have hpassed := (hcheck { k with calls := k.calls + 1 }).trans (by rw [hfamilies])
    obtain ⟨k₃, hsave, -, hv₃⟩ := exec_save_of_find? (t := Table.blank name families id now) hk₂
      (hv₂ ▸ hdirectory) hlegal (.inr (hv₂ ▸ hmissing))
    rw [exec_bind_ok hpassed, exec_bind_ok hid, exec_bind_ok hnow, exec_bind_ok hsave]
    exact ⟨k₃, rfl, hv₂ ▸ hv₃⟩

theorem Agrees.housed {v : Volume} (h : Agrees c v) : Housed c v where
  named := ⟨h.legal, h.distinct⟩
  directory := h.directory
  files t ht := h.exists_file (List.mem_map.mpr ⟨t, ht, rfl⟩)

namespace Settled

theorem housed (h : Settled directory c k) : Housed c k.volume := h.agrees.housed

theorem wellNamed (h : Settled directory c k) : c.WellNamed := h.housed.named

/-- What a program that keeps the agreement leaves behind is settled. -/
theorem of_exec {α : Type} {x : Program α} {r : Except Fault α} {d : Catalog}
    (h : Settled directory c k) (hx : Preserves (Settled directory) x)
    (hrun : exec x c k = ((r, d), k')) : Settled directory d k' := by
  obtain ⟨r', d', k'', hrun', hr⟩ := hx c k h
  rw [hrun] at hrun'
  cases hrun'
  cases r <;> exact hr

theorem exec_mutate_ (h : Settled directory c k) (op : Readings → Table → Except Fault Table)
    (ht : c.find? name = some t) (hname : ∀ r next, op r t = .ok next → next.name = t.name) :
    ∃ r k', match op r t with
      | .ok next => exec (mutate_ name op) c k = ((.ok (), c.replace name next), k')
      | .error e => exec (mutate_ name op) c k = ((.error e, c), k') := by
  obtain ⟨r, k', hrun⟩ := h.housed.exec_mutate_ h.calm op ht hname
  refine ⟨r, k', ?_⟩
  cases hop : op r t with
  | error e => rwa [hop] at hrun
  | ok next =>
    rw [hop] at hrun
    exact hrun.1

theorem exec_createTable (h : Settled directory c k) (hlegal : checkTableName name = .ok ())
    (hnew : c.find? name = none)
    (hmissing : k.volume.find? (Volume.path (c.filePath name)) = .error .missing)
    (families : List Family) :
    ∃ id now k', match Table.checkFamilies [] families with
      | .ok _ => exec (createTable name families) c k =
        ((.ok (), c.add (.blank name families id now)), k')
      | .error e => exec (createTable name families) c k = ((.error e, c), k') ∧
          k'.volume = k.volume := by
  obtain ⟨id, now, k', hrun⟩ :=
    exec_createTable_of_missing h.calm h.agrees.directory hlegal hnew hmissing families
  refine ⟨id, now, k', ?_⟩
  cases hfamilies : Table.checkFamilies [] families with
  | error e => rwa [hfamilies] at hrun
  | ok =>
    rw [hfamilies] at hrun
    exact hrun.1

end Settled

end WideColumn.Catalog
