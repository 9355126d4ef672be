import Mathlib.Data.List.Nodup
import WideColumn.Proofs.Catalog.Footprint

/-! # Removal by pattern is all or nothing

The tables that match a pattern are listed once. They are removed all of them, or none is: none if
one is enabled or their names are not confirmed, and all otherwise, as no single removal can then be
refused. -/
namespace WideColumn.Catalog
open WideColumn.Schema

variable {name pattern : String} {names matched : List String} {c : Catalog} {k : Machine}
  {t : Table}

theorem exec_removeFile {path file : String} {p : Path} (hk : k.Calm)
    (hpath : Volume.path path = p ++ [file]) (hfile : k.volume.Removable (Volume.path path)) :
    ∃ w, exec (removeFile path) c k = ((.ok (), c), { k with volume := w, calls := k.calls + 1 }) ∧
      k.volume.Clears w p [file] := by
  have hcall := Machine.change_of_calm hk (Volume.remove · (Volume.path path))
  have hexec : exec (Host.removeFile path) c k =
      ((.ok (Machine.change (Volume.remove · (Volume.path path)) k).1, c),
        (Machine.change (Volume.remove · (Volume.path path)) k).2) := rfl
  cases hremove : k.volume.remove (Volume.path path) with
  | ok w =>
    rw [hremove] at hcall
    rw [hcall] at hexec
    rw [removeFile, exec_bind_ok hexec]
    exact ⟨w, rfl, .ofRemove (hpath ▸ hremove)⟩
  | error e =>
    obtain rfl := hfile e hremove
    rw [hremove] at hcall
    rw [hcall] at hexec
    rw [removeFile, exec_bind_ok hexec]
    exact ⟨k.volume, rfl, .ofMissing (hpath ▸ hremove)⟩

theorem exec_table (ht : c.find? name = some t) (k : Machine) :
    exec (ask (·.table name)) c k = ((.ok t, c), k) := by
  rw [exec_ask, table, ht]
  rfl

theorem exec_dropTable_of_enabled (ht : c.find? name = some t) (henabled : t.enabled = true) :
    exec (dropTable name) c k = ((.error (.tableEnabled name), c), k) := by
  rw [dropTable, exec_bind_ok (exec_get c k), exec_bind_ok (exec_table ht k), if_pos henabled]
  rfl

theorem exec_dropTable (h : c.WellNamed) (hk : k.Calm) (hdrop : Droppable name c)
    (hfile : k.volume.Removable (Volume.path (c.filePath name))) :
    ∃ w, exec (dropTable name) c k =
        ((.ok (), c.remove name), { k with volume := w, calls := k.calls + 1 }) ∧
      k.volume.Clears w (Volume.path c.directory) [tableFileName name] := by
  obtain ⟨t, ht, hdisabled⟩ := hdrop
  obtain ⟨hmem, rfl⟩ := mem_of_find? ht
  obtain ⟨w, hremove, hw⟩ := exec_removeFile (c := c) hk (path_filePath c (h.legal t hmem)) hfile
  refine ⟨w, ?_, hw⟩
  rw [dropTable, exec_bind_ok (exec_get c k), exec_bind_ok (exec_table ht k), hdisabled,
    if_neg Bool.false_ne_true, exec_bind_ok hremove]
  rfl

/-- Disabled tables are removed one after another, and no removal stands in the way of the next. -/
theorem exec_dropTables (h : c.WellNamed) (hk : k.Calm) (hnodup : names.Nodup)
    (hdrop : ∀ name ∈ names, Droppable name c)
    (hfiles : ∀ name ∈ names, k.volume.Removable (Volume.path (c.filePath name))) :
    ∃ w, exec (names.forM dropTable) c k =
        ((.ok (), c.without names), { k with volume := w, calls := k.calls + names.length }) ∧
      k.volume.Clears w (Volume.path c.directory) (names.map tableFileName) := by
  induction names generalizing c k with
  | nil =>
    refine ⟨k.volume, ?_, .nil ..⟩
    rw [without_nil]
    rfl
  | cons name names ih =>
    obtain ⟨hname, hnames⟩ := List.forall_mem_cons.mp hdrop
    obtain ⟨hfile, hfiles⟩ := List.forall_mem_cons.mp hfiles
    obtain ⟨hnew, hnodup⟩ := List.nodup_cons.mp hnodup
    have hne {other : String} (hother : other ∈ names) : other ≠ name :=
      fun heq => hnew (heq ▸ hother)
    obtain ⟨v, hfirst, hv⟩ := exec_dropTable h hk hname hfile
    -- The first removal leaves the other tables disabled and their files where they were.
    have hdrop' : ∀ other ∈ names, Droppable other (c.remove name) := fun other hother =>
      (hnames other hother).remove h.distinct (hne hother)
    have hfiles' : ∀ other ∈ names, v.Removable (Volume.path (c.filePath other)) := by
      intro other hother
      obtain ⟨s, hs, -⟩ := hnames other hother
      obtain ⟨hmem, rfl⟩ := mem_of_find? hs
      have hpath := path_filePath c (h.legal s hmem)
      refine hpath ▸ hv.removable (fun heq => ?_) (hpath ▸ hfiles s.name hother)
      exact hne hother (tableFileName_injective (List.mem_singleton.mp heq))
    obtain ⟨w, hrest, hw⟩ :=
      ih (c := c.remove name) (k := { k with volume := v, calls := k.calls + 1 })
      (h.changed .removed) hk hnodup hdrop' hfiles'
    refine ⟨w, ?_, hv.cons hw⟩
    have hthen : exec ((name :: names).forM dropTable) c k =
        exec (names.forM dropTable) (c.remove name) { k with volume := v, calls := k.calls + 1 } :=
      exec_bind_ok hfirst
    rw [hthen, hrest, without_cons h.distinct, List.length_cons, Nat.add_right_comm, Nat.add_assoc]

theorem Agrees.exists_file {v : Volume} (h : Agrees c v) (hname : name ∈ c.names) :
    ∃ content, v.find? (Volume.path (c.filePath name)) = .ok (.file content) := by
  obtain ⟨t, ht, rfl⟩ := List.mem_map.mp hname
  obtain ⟨text, -, hfind⟩ := h.stored t ht
  exact ⟨.text text, path_filePath c (h.legal t ht) ▸ hfind⟩

/-- Every table of a catalog that agrees with its directory has a file that can be removed. -/
theorem Agrees.removable {v : Volume} (h : Agrees c v) (hname : name ∈ c.names) :
    v.Removable (Volume.path (c.filePath name)) := by
  obtain ⟨content, hfile⟩ := h.exists_file hname
  exact Volume.removable_of_find? hfile

/-- The names among some of which the tables are enabled, in catalog order. -/
def enabledAmong (c : Catalog) (names : List String) : List String :=
  (c.tables.filter fun t => names.contains t.name && t.enabled).map (·.name)

theorem find?_of_mem (h : c.names.Nodup) (ht : t ∈ c.tables) : c.find? t.name = some t := by
  cases hfind : c.find? t.name with
  | none => exact absurd (List.mem_map.mpr ⟨t, ht, rfl⟩) (find?_eq_none_iff.mp hfind)
  | some s =>
    obtain ⟨hs, hname⟩ := mem_of_find? hfind
    rw [List.inj_on_of_nodup_map h hs ht hname]

theorem filter_enabled_eq (h : c.names.Nodup) (hlist : c.list (some pattern) = .ok matched) :
    matched.filter (fun name => (c.find? name).any (·.enabled)) = c.enabledAmong matched := by
  obtain ⟨n, -, hlist⟩ := bind_eq_ok.mp hlist
  cases hlist
  rw [List.filter_filter, names, List.filter_map, enabledAmong]
  refine congrArg _ (List.filter_congr fun t ht => ?_)
  have hname : ∃ s ∈ c.tables, s.name = t.name := ⟨t, ht, rfl⟩
  simp [find?_of_mem h ht, hname, Bool.and_comm]

/-- What the removal of the tables that match a pattern comes to. -/
structure AllOrNothing (c : Catalog) (pattern : String) (matched : List String)
    (confirm : List String → StateM Machine Bool) (k : Machine) : Prop where
  /-- Nobody is asked about no tables. -/
  unmatched : matched = [] → exec (dropAll pattern confirm) c k = ((.ok 0, c), k)
  /-- Nobody is asked as long as one of the tables is enabled. -/
  refused : c.enabledAmong matched ≠ [] → ∃ e : Fault, e.code = .preconditionFailed ∧
    e = .tablesEnabled (c.enabledAmong matched) ∧
      exec (dropAll pattern confirm) c k = ((.error e, c), k)
  declined : ∀ k', matched ≠ [] → c.enabledAmong matched = [] → confirm matched k = (false, k') →
    exec (dropAll pattern confirm) c k = ((.ok 0, c), k')
  confirmed : ∀ k', matched ≠ [] → c.enabledAmong matched = [] → confirm matched k = (true, k') →
    k'.Calm →
    (∀ name ∈ matched, k'.volume.Removable (Volume.path (c.filePath name))) →
    ∃ w, exec (dropAll pattern confirm) c k =
        ((.ok matched.length, c.without matched),
          { k' with volume := w, calls := k'.calls + matched.length }) ∧
      k'.volume.Clears w (Volume.path c.directory) (matched.map tableFileName)

theorem allOrNothing (h : c.WellNamed) (hlist : c.list (some pattern) = .ok matched)
    (confirm : List String → StateM Machine Bool) (k : Machine) :
    AllOrNothing c pattern matched confirm k := by
  have hask : exec (ask (·.list (some pattern))) c k = ((.ok matched, c), k) := by
    rw [exec_ask, hlist]
  have hconfirm {b : Bool} {k' : Machine} (hanswer : confirm matched k = (b, k')) :
      exec (liftM (confirm matched)) c k = ((.ok b, c), k') := by
    have hlift : exec (liftM (confirm matched)) c k =
      ((.ok (confirm matched k).1, c), (confirm matched k).2) := rfl
    rw [hlift, hanswer]
  have henabled := filter_enabled_eq h.distinct hlist
  have hbusy : matched ≠ [] → ¬ matched.isEmpty = true :=
    fun hne hempty => hne (List.isEmpty_iff.mp hempty)
  refine ⟨fun hempty => ?_, fun hsome => ?_, fun k' hne hnone hno => ?_,
    fun k' hne hnone hyes hk' hfiles => ?_⟩
  · rw [dropAll, exec_bind_ok hask, hempty]
    rfl
  · have hne : matched ≠ [] := by
      rintro rfl
      exact hsome henabled.symm
    refine ⟨_, rfl, rfl, ?_⟩
    rw [dropAll, exec_bind_ok hask, if_neg (hbusy hne), exec_bind_ok (exec_get c k), henabled,
      if_pos (by simpa using hsome)]
    rfl
  · rw [dropAll, exec_bind_ok hask, if_neg (hbusy hne), exec_bind_ok (exec_get c k),
      henabled, hnone, if_neg (by simp), exec_bind_ok (hconfirm hno)]
    rfl
  · rw [hnone] at henabled
    obtain ⟨w, hdrop, hw⟩ := exec_dropTables h hk' (h.distinct.sublist (sublist_of_list hlist))
      (droppable_of_enabled (sublist_of_list hlist) henabled) hfiles
    refine ⟨w, ?_, hw⟩
    rw [dropAll, exec_bind_ok hask, if_neg (hbusy hne), exec_bind_ok (exec_get c k), henabled,
      if_neg (by simp), exec_bind_ok (hconfirm hyes), if_neg (by simp), exec_bind_ok hdrop]
    rfl

def Operation.Removes : Operation → Prop
  | dropTable _ | dropAll _ _ => True
  | _ => False

/-- A table is still there, and its file is what it was. -/
structure Spared (t : Table) (c : Catalog) (v : Volume) (d : Catalog) (w : Volume) : Prop where
  table : t ∈ d.tables
  file : w.node? (Volume.path (c.filePath t.name)) = v.node? (Volume.path (c.filePath t.name))

/-- A table that the write does not touch is spared. -/
private theorem spared_of_staysWithin {touched : String → Bool} {op : Operation} (h : c.WellNamed)
    (ht : t ∈ c.tables) (hstays : StaysWithin touched c k.volume op.run)
    (hname : touched t.name = false) :
    Spared t c k.volume (op.step (c, k)).1 (op.step (c, k)).2.volume := by
  obtain ⟨r, d, k', hrun, hr⟩ := hstays c k ⟨rfl, rfl⟩
  have htouches : TouchesOnly touched c k.volume d k'.volume := by cases r <;> exact hr
  rw [Operation.step, hrun]
  have hfind := (htouches.find?_eq hname).trans (find?_of_mem h.distinct ht)
  exact ⟨(mem_of_find? hfind).1, htouches.node?_filePath hname (h.legal t ht)⟩

/-- Whatever the disk does, a removal spares the tables that are enabled. -/
theorem spared_of_enabled (h : c.WellNamed) (ht : t ∈ c.tables) (henabled : t.enabled = true)
    {op : Operation} (hop : op.Removes) (k : Machine) :
    Spared t c k.volume (op.step (c, k)).1 (op.step (c, k)).2.volume := by
  cases op with
  | createTable | mutate | enable | disable | alter | truncate => exact hop.elim
  | dropTable name =>
    by_cases hname : t.name = name
    · have hrun := exec_dropTable_of_enabled (k := k) (hname ▸ find?_of_mem h.distinct ht) henabled
      rw [Operation.step, Operation.run, hrun]
      exact ⟨ht, rfl⟩
    · have hstays : StaysWithin (· == name) c k.volume (dropTable name) :=
        staysWithin_dropTable (beq_self_eq_true name) h
      exact spared_of_staysWithin h ht hstays (beq_eq_false_iff_ne.mpr hname)
  | dropAll pattern confirm =>
    cases hlisted : c.listed pattern t.name with
    | false =>
      have hstays := staysWithin_dropAll (v := k.volume) h pattern confirm
      exact spared_of_staysWithin h ht (Ends.discard hstays) hlisted
    | true =>
      rw [listed] at hlisted
      split at hlisted
      · next matched hlist =>
        have hmem : t.name ∈ c.enabledAmong matched :=
          List.mem_map.mpr ⟨t, List.mem_filter.mpr ⟨ht, by rw [hlisted, henabled]; rfl⟩, rfl⟩
        obtain ⟨e, -, -, hrun⟩ :=
          (allOrNothing h hlist (fun names => Pure.pure (confirm names)) k).refused
          (List.ne_nil_of_mem hmem)
        have hdone : exec (Operation.dropAll pattern confirm).run c k = ((.error e, c), k) :=
          exec_bind_error hrun
        rw [Operation.step, hdone]
        exact ⟨ht, rfl⟩
      · cases hlisted

/-- In every catalog that writes lead to, the tables that match a pattern are removed all of them or
not at all, and an enabled table by no removal. -/
theorem Reachable.removes_allOrNothing (h : Reachable c) :
    (∀ pattern matched, c.list (some pattern) = .ok matched →
      ∀ confirm k, AllOrNothing c pattern matched confirm k) ∧
    ∀ op : Operation, op.Removes → ∀ t ∈ c.tables, t.enabled = true → ∀ k,
      Spared t c k.volume (op.step (c, k)).1 (op.step (c, k)).2.volume :=
  ⟨fun _ _ hlist confirm k => allOrNothing h.wellNamed hlist confirm k,
    fun _ hop _ ht henabled k => spared_of_enabled h.wellNamed ht henabled hop k⟩

def oneEnabled : Catalog × Machine := after [.createTable "c" []] twoDisabled

theorem removes_oneEnabled : Reachable oneEnabled.1 ∧
    (∃ w, exec (dropAll "a|b" fun _ => Pure.pure true) oneEnabled.1 oneEnabled.2 =
        ((.ok 2, oneEnabled.1.without ["a", "b"]),
          { oneEnabled.2 with volume := w, calls := oneEnabled.2.calls + 2 }) ∧
      oneEnabled.2.volume.Clears w (Volume.path oneEnabled.1.directory) ["a.json", "b.json"]) ∧
    exec (dropAll ".*" fun _ => Pure.pure true) oneEnabled.1 oneEnabled.2 =
      ((.error (.tablesEnabled ["c"]), oneEnabled.1), oneEnabled.2) ∧
    ∃ t ∈ oneEnabled.1.tables, t.enabled = true ∧
    t ∈ ((Operation.dropTable t.name).step oneEnabled).1.tables := by
  have hreachable : Reachable oneEnabled.1 := reachable_twoDisabled.written _ _
  have hbefore : Settled "d" twoDisabled.1 twoDisabled.2 := stable_settled.after _ settled_opened
  have hsettled : Settled "d" oneEnabled.1 oneEnabled.2 :=
    stable_settled.after (c := twoDisabled.1) (k := twoDisabled.2) _ hbefore
  have hnames : oneEnabled.1.names = ["a", "b", "c"] := by decide +kernel
  have hsome : (oneEnabled.1.list (some "a|b")).toOption = some ["a", "b"] := by decide +kernel
  have hall : (oneEnabled.1.list (some ".*")).toOption = some ["a", "b", "c"] := by decide +kernel
  have hdisabled : oneEnabled.1.enabledAmong ["a", "b"] = [] := by decide +kernel
  have henabled : oneEnabled.1.enabledAmong ["a", "b", "c"] = ["c"] := by decide +kernel
  obtain ⟨hlisted, hspared⟩ := hreachable.removes_allOrNothing
  refine ⟨hreachable, ?_, ?_, ?_⟩
  · refine (hlisted "a|b" _ (eq_ok_of_toOption hsome) (fun _ => Pure.pure true)
      oneEnabled.2).confirmed oneEnabled.2
      (by simp) hdisabled rfl hsettled.calm fun name hname => hsettled.agrees.removable ?_
    rw [hnames]
    exact List.mem_of_mem_take (i := 2) hname
  · obtain ⟨e, -, rfl, hrun⟩ := (hlisted ".*" _ (eq_ok_of_toOption hall) (fun _ => Pure.pure true)
      oneEnabled.2).refused (by simp [henabled])
    rw [hrun, henabled]
  · obtain ⟨t, ht, -⟩ := List.mem_map.mp (henabled ▸ List.mem_singleton_self "c")
    obtain ⟨ht, hboth⟩ := List.mem_filter.mp ht
    have hon := (Bool.and_eq_true _ _ ▸ hboth).2
    exact ⟨t, ht, hon, (hspared (.dropTable t.name) trivial t ht hon oneEnabled.2).table⟩

end WideColumn.Catalog
