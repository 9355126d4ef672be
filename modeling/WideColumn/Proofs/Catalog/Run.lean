import WideColumn.Proofs.Catalog.Keeping
import WideColumn.Proofs.Catalog.Reopening

/-! # Runs of writes to a catalog

A directory is opened and then written to, one write after another, some of which are refused. After
each of them the directory, opened anew, gives the tables that are in memory. -/
namespace WideColumn.Catalog
open WideColumn.Schema

/-- A write to a catalog with its arguments. -/
inductive Operation where
  | createTable (name : String) (families : List Family)
  | mutate (name : String) (write : Table.Operation)
  | enable (name : String)
  | disable (name : String)
  | alter (name : String) (pairs : Properties)
  | dropTable (name : String)
  /-- Remove the tables that match a pattern if their names are confirmed. -/
  | dropAll (pattern : String) (confirm : List String → Bool)
  | truncate (name : String)

/-- Carry out a write. Its answer is left aside. -/
def Operation.run : Operation → Program Unit
  | createTable name families => Catalog.createTable name families
  | mutate name write => discard (Catalog.mutate name fun r t => write.run r t)
  | enable name => discard (Catalog.enable name)
  | disable name => discard (Catalog.disable name)
  | alter name pairs => discard (Catalog.alter name pairs)
  | dropTable name => Catalog.dropTable name
  | dropAll pattern confirm => discard (Catalog.dropAll pattern fun names => pure (confirm names))
  | truncate name => Catalog.truncate name

/-- The catalog and the machine after a write, whether it went through or came to a fault. -/
def Operation.step (op : Operation) (s : Catalog × Machine) : Catalog × Machine :=
  ((exec op.run s.1 s.2).1.2, (exec op.run s.1 s.2).2)

def after (ops : List Operation) (s : Catalog × Machine) : Catalog × Machine :=
  ops.foldl (fun s op => op.step s) s

/-- The steps keep the invariant of which every write is made. -/
structure Stable (I : Catalog → Machine → Prop) : Prop where
  mutate {α : Type} {op : Readings → Table → Except Fault (α × Table)} (hop : IsProper op)
    (name : String) : Preserves I (Catalog.mutate name op)
  createTable (name : String) (families : List Family) :
    Preserves I (Catalog.createTable name families)
  dropTable (name : String) : Preserves I (Catalog.dropTable name)

/-- The writes to the table of one name that put to certain qualifiers only keep the invariant. -/
structure KeptByWrites (allowed : String → Prop) (I : Catalog → Machine → Prop)
  (name : String) : Prop where
  mutate {α : Type} {op : Readings → Table → Except Fault (α × Table)} (hop : PutsOnly allowed op) :
    Preserves I (Catalog.mutate name op)

namespace KeptByWrites

variable {allowed : String → Prop} {I : Catalog → Machine → Prop} {name : String}

theorem mutate_ (h : KeptByWrites allowed I name) {op : Readings → Table → Except Fault Table}
    (write : Table.Operation) (hwrite : write.PutsTo allowed)
    (hop : ∀ r t, write.run r t = do return (none, ← op r t)) :
    Preserves I (Catalog.mutate_ name op) := h.mutate (putsOnly_of_run write hwrite hop)

theorem disable (h : KeptByWrites allowed I name) : Preserves I (Catalog.disable name) :=
  (Preserves.ask _).bind fun _ => Preserves.ite (Preserves.pure _) <|
    (h.mutate_ .disable trivial fun _ _ => rfl).bind fun _ => Preserves.pure _

theorem enable (h : KeptByWrites allowed I name) : Preserves I (Catalog.enable name) :=
  (Preserves.ask _).bind fun _ => Preserves.ite (Preserves.pure _) <|
    (h.mutate_ .enable trivial fun _ _ => rfl).bind fun _ => Preserves.pure _

theorem alter (h : KeptByWrites allowed I name) (pairs : Properties) :
    Preserves I (Catalog.alter name pairs) := by
  rw [Catalog.alter]
  split
  · split
    · refine Preserves.ite ?_ (Preserves.throw _)
      exact (h.mutate_ (.deleteFamily _) trivial fun _ _ => rfl).bind fun _ => Preserves.pure _
    · refine (Preserves.ask _).bind fun _ => Preserves.ite ?_ ?_
      · exact (h.mutate_ (.updateFamily _ _) trivial fun _ _ => rfl).bind fun _ => Preserves.pure _
      · exact (h.mutate_ (.createFamily _ _) trivial fun _ _ => rfl).bind fun _ => Preserves.pure _
  · exact Preserves.throw _

end KeptByWrites

/-- The steps that are taken for the table of one name keep the invariant, as long as they put to
certain qualifiers only. -/
structure StableFor (allowed : String → Prop) (I : Catalog → Machine → Prop)
  (name : String) : Prop where
  writes : KeptByWrites allowed I name
  createTable (families : List Family) : Preserves I (Catalog.createTable name families)
  dropTable : Preserves I (Catalog.dropTable name)

theorem StableFor.truncate {allowed : String → Prop} {I : Catalog → Machine → Prop} {name : String}
    (h : StableFor allowed I name) : Preserves I (Catalog.truncate name) := by
  refine (Preserves.ask _).bind fun t =>
    Preserves.ite (h.writes.disable.discard.bind fun _ => ?_) ?_
  all_goals exact h.dropTable.bind fun _ => h.createTable _

/-- The steps that are taken for the table of one name keep the invariant. -/
structure StableAt (I : Catalog → Machine → Prop) (name : String) : Prop where
  mutate {α : Type} {op : Readings → Table → Except Fault (α × Table)} (hop : IsProper op) :
    Preserves I (Catalog.mutate name op)
  createTable (families : List Family) : Preserves I (Catalog.createTable name families)
  dropTable : Preserves I (Catalog.dropTable name)

theorem StableAt.stableFor {I : Catalog → Machine → Prop} {name : String} (h : StableAt I name) :
    StableFor (fun _ => True) I name where
  writes := ⟨fun hop => h.mutate hop.isProper⟩
  createTable := h.createTable
  dropTable := h.dropTable

/-- To remove what matches a pattern keeps what every removal keeps. -/
theorem preserves_dropAll {I : Catalog → Machine → Prop}
    (h : ∀ name, Preserves I (Catalog.dropTable name)) (pattern : String)
    (answer : List String → Bool) :
    Preserves I (Catalog.dropAll pattern fun names => pure (answer names)) := by
  refine (Preserves.ask _).bind fun matched => Preserves.ite (Preserves.pure _) ?_
  refine Preserves.get.bind fun d => Preserves.ite ((Preserves.throw _).bind fun _ => ?_) ?_
  all_goals
    refine Preserves.bind (Preserves.pure (answer matched)) fun _ =>
      Preserves.ite (Preserves.pure _) ?_
    exact (Preserves.forM fun name _ => h name).bind fun _ => Preserves.pure _

namespace Stable

variable {I : Catalog → Machine → Prop}

theorem forTable (h : Stable I) (name : String) : StableAt I name where
  mutate hop := h.mutate hop name
  createTable := h.createTable name
  dropTable := h.dropTable name

theorem run (h : Stable I) (op : Operation) : Preserves I op.run := by
  cases op with
  | createTable name families => exact h.createTable name families
  | mutate name write => exact (h.mutate (isProper_run write) name).discard
  | enable name => exact (h.forTable name).stableFor.writes.enable.discard
  | disable name => exact (h.forTable name).stableFor.writes.disable.discard
  | alter name pairs => exact ((h.forTable name).stableFor.writes.alter pairs).discard
  | dropTable name => exact h.dropTable name
  | dropAll pattern confirm => exact (preserves_dropAll h.dropTable pattern confirm).discard
  | truncate name => exact (h.forTable name).stableFor.truncate

theorem step (h : Stable I) (op : Operation) {c : Catalog} {k : Machine} (hck : I c k) :
    I (op.step (c, k)).1 (op.step (c, k)).2 := by
  obtain ⟨r, c', k', hrun, hr⟩ := h.run op c k hck
  rw [Operation.step, hrun]
  cases r <;> exact hr

theorem after (h : Stable I) (ops : List Operation) {c : Catalog} {k : Machine} (hck : I c k) :
    I (after ops (c, k)).1 (after ops (c, k)).2 := by
  induction ops generalizing c k with
  | nil => exact hck
  | cons op ops ih => exact ih (h.step op hck)

end Stable

theorem mem_replaceIn {name : String} {s next : Table} {tables : List Table}
    (h : s ∈ replaceIn name next tables) :
    s = next ∨ s ∈ tables := by
  induction tables with
  | nil => cases h
  | cons t tables ih =>
    rw [replaceIn] at h
    split at h
    · exact (List.mem_cons.mp h).imp_right (List.mem_cons_of_mem t)
    · rcases List.mem_cons.mp h with rfl | h
      · exact .inr List.mem_cons_self
      · exact (ih h).imp_right (List.mem_cons_of_mem t)

theorem sublist_removeFrom (name : String) (tables : List Table) :
    (removeFrom name tables).Sublist tables := by
  induction tables with
  | nil => exact .slnil
  | cons t tables ih =>
    rw [removeFrom]
    split
    · exact List.sublist_cons_self t tables
    · exact ih.cons_cons t

/-- To save a table does not change the catalog. -/
theorem preserves_save_catalog {J : Catalog → Prop} (t : Table) :
    Preserves (fun c _ => J c) (save t) :=
  Preserves.get.bind fun _ => (Preserves.demand fun _ _ h => h).bind fun _ =>
    Preserves.demand fun _ _ h => h

/-- What new tables have and certain writes to a table keep holds for all tables of a catalog. -/
theorem stableFor_forall {P : Table → Prop} {allowed : String → Prop}
    (hwrite : ∀ (write : Table.Operation) r t n next, write.PutsTo allowed → P t →
      write.run r t = .ok (n, next) → P next)
    (hblank : ∀ name families id now, Table.checkNew name families = .ok () →
      P (.blank name families id now))
    (name : String) : StableFor allowed (fun c _ => ∀ t ∈ c.tables, P t) name where
  writes := by
    refine ⟨fun hop => ?_⟩
    obtain ⟨write, hallowed, hop⟩ := hop
    refine Ends.bind (Ends.ask fun _ _ _ hc _ => hc) fun t => ?_
    refine Ends.bind (Q := fun _ c _ => P t ∧ ∀ t ∈ c.tables, P t) ?_ fun r => ?_
    · intro c k hc
      exact ⟨.ok _, c, _, rfl, hc.2 t (mem_of_find? (find?_of_table hc.1)).1, hc.2⟩
    refine Ends.bind (Ends.lift fun _ _ _ hc => hc.2) fun answer => ?_
    obtain ⟨a, next⟩ := answer
    intro c k hc
    obtain ⟨hrun, ht, hc⟩ := hc
    obtain ⟨n, hrun⟩ := hop r t a next hrun
    have hnext := hwrite write r t n next hallowed ht hrun
    refine Preserves.bind (preserves_save_catalog next) (fun _ => ?_) c k hc
    refine Preserves.bind (Ends.modify fun c k hc s hs => ?_) fun _ => Preserves.pure a
    exact (mem_replaceIn hs).elim (fun heq => heq ▸ hnext) (hc s)
  createTable families := by
    refine Preserves.bind (Preserves.lift _) fun _ => Preserves.get.bind fun c => ?_
    refine Ends.check (fun _ _ _ hc => hc) fun _ => ?_
    refine Preserves.bind (Preserves.observe fun _ _ hc => hc) fun _ =>
      Ends.check (fun _ _ _ hc => hc) fun _ => ?_
    refine Ends.bind (Ends.lift fun _ _ _ hc => hc) fun _ => ?_
    intro c k hc
    obtain ⟨hnew, hc⟩ := hc
    refine Preserves.bind (Preserves.observe fun _ _ hc => hc) (fun id => ?_) c k hc
    refine Preserves.bind (Preserves.observe fun _ _ hc => hc) fun now => ?_
    refine Preserves.bind (preserves_save_catalog _) fun _ => Ends.modify fun c k hc => ?_
    exact List.forall_mem_append.mpr
      ⟨hc, List.forall_mem_singleton.mpr (hblank name families id now hnew)⟩
  dropTable := by
    refine Preserves.get.bind fun c => Preserves.bind (Preserves.ask _) fun t => ?_
    refine Ends.check (fun _ _ _ hc => hc) fun _ => ?_
    refine Preserves.bind (Preserves.bind (Preserves.observe fun _ _ hc => hc) fun r => ?_)
      fun _ => ?_
    · split
      · exact Preserves.pure _
      · exact Preserves.pure _
      · exact Preserves.throw _
    · exact Ends.modify fun c k hc s hs => hc s ((sublist_removeFrom name c.tables).subset hs)

/-- What new tables have and writes to a table keep holds for all tables of a catalog. -/
theorem stable_forall {P : Table → Prop}
    (hwrite : ∀ (write : Table.Operation) r t n next, P t → write.run r t = .ok (n, next) → P next)
    (hblank : ∀ name families id now, Table.checkNew name families = .ok () →
      P (.blank name families id now)) :
    Stable fun c _ => ∀ t ∈ c.tables, P t := by
  have hname (name : String) : StableFor (fun _ => True) (fun c _ => ∀ t ∈ c.tables, P t) name :=
    stableFor_forall (fun write r t n next _ => hwrite write r t n next) hblank name
  exact {
    mutate := fun hop name => (hname name).writes.mutate hop.putsOnly
    createTable := fun name => (hname name).createTable
    dropTable := fun name => (hname name).dropTable }

variable {directory : String} {c d : Catalog} {k k' : Machine}

theorem stable_settled : Stable (Settled directory) where
  mutate hop _ := (keeps_mutate hop).preserves
  createTable _ families := (keeps_createTable families).preserves
  dropTable _ := keeps_dropTable.preserves

theorem settled_of_openAt {make : Bool} (hk : k.Calm) (hsound : k.volume.Sound)
    (hopen : outcome (openAt directory make) k = (.ok c, k')) : Settled directory c k' := by
  obtain ⟨hk', hsound', hcatalog⟩ := catalogIn_of_openAt hk hsound hopen
  exact ⟨hk', agreesIn_of_catalogIn hsound' hcatalog⟩

/-- A directory that agrees with a catalog is opened to its tables, in order of their files. -/
theorem openAt_of_settled (h : Settled directory c k)
    (hs : ∀ t ∈ c.tables, Document.Storable t.entries) (make : Bool) :
    ∃ k', outcome (openAt directory make) k = (.ok { directory, tables := byFile c.tables }, k') ∧
      k'.volume = k.volume := by
  obtain ⟨hcalm, hagrees⟩ := h
  have hdirectory := hagrees.1 ▸ hagrees.2.directory
  obtain ⟨k', hrun, hv⟩ := openAt_of_directory hcalm hdirectory make
  exact ⟨k', catalogIn_of_agreesIn hagrees hs ▸ hrun, hv⟩

/-- Whatever was written since a directory was opened, the directory opened anew gives the tables in
memory, in order of their files: no write leaves memory and disk apart, and none leaves a file that
cannot be read. -/
theorem openAt_after {make : Bool} (hk : k.Calm) (hsound : k.volume.Sound)
    (hopen : outcome (openAt directory make) k = (.ok c, k')) (ops : List Operation)
    (hs : ∀ t ∈ (after ops (c, k')).1.tables, Document.Storable t.entries) (make' : Bool) :
    ∃ k'', outcome (openAt directory make') (after ops (c, k')).2 =
        (.ok { directory, tables := byFile (after ops (c, k')).1.tables }, k'') ∧
      k''.volume = (after ops (c, k')).2.volume :=
  openAt_of_settled (stable_settled.after ops (settled_of_openAt hk hsound hopen)) hs make'

/-- A machine without files, on which every call of the disk goes through. -/
def blankMachine : Machine where
  volume := .blank
  clock _ := .epoch
  ids n := .ofRandom n
  watch n := n
  outages _ := none
  readings := 0
  drawn := 0
  looks := 0
  calls := 0

def opened : Except Fault Catalog × Machine := outcome (openAt "d" true) blankMachine

theorem opened_eq : opened = (.ok ⟨"d", []⟩, opened.2) := by
  have hopened : opened.1.toOption = some ⟨"d", []⟩ := by decide +kernel
  exact Prod.ext (eq_ok_of_toOption hopened) rfl

theorem settled_opened : Settled "d" ⟨"d", []⟩ opened.2 :=
  settled_of_openAt (k := blankMachine) (fun _ => rfl) List.nodup_nil opened_eq

/-- The second table of a name is refused, and so is dropping an enabled one. -/
def someWrites : List Operation :=
  [.createTable "t" [{ name := "f" }], .mutate "t" (.put "r" "f" "q" "v"), .createTable "a" [],
    .createTable "t" [], .dropTable "a", .mutate "t" (.put "r" "f" "q" "w"), .disable "t",
      .truncate "a"]

theorem openAt_after_someWrites :
    ∃ k', outcome (openAt "d" false) (after someWrites (⟨"d", []⟩, opened.2)).2 =
        (.ok ⟨"d", byFile (after someWrites (⟨"d", []⟩, opened.2)).1.tables⟩, k') ∧
      (after someWrites (⟨"d", []⟩, opened.2)).1.names = ["t", "a"] := by
  have hstorable : ∀ t ∈ (after someWrites (⟨"d", []⟩, opened.2)).1.tables,
      Document.Storable t.entries := by
    unfold Document.Storable
    decide +kernel
  have hnames : (after someWrites (⟨"d", []⟩, opened.2)).1.names = ["t", "a"] := by decide +kernel
  have hsound : blankMachine.volume.Sound := List.nodup_nil
  obtain ⟨k', hrun, -⟩ := openAt_after (fun _ => rfl) hsound opened_eq someWrites hstorable false
  exact ⟨k', hrun, hnames⟩

end WideColumn.Catalog
