import WideColumn.Proofs.Catalog.Triple
import WideColumn.Proofs.Host.Clocks
import WideColumn.Proofs.Table.Timeless
import WideColumn.Shell.Console

/-! # Work at two terminals

The same commands are carried out at two terminals whose machines differ in their clocks, on
catalogs that differ in the times of their tables. They come to the same but for times, and no input
is read and nothing shown on the way. -/
namespace WideColumn

namespace Catalog

def timeless (c : Catalog) : Catalog := { c with tables := c.tables.map Table.timeless }

variable {c c' : Catalog} {name : String} {t t' : Table}

theorem directory_of_timeless (h : c.timeless = c'.timeless) : c.directory = c'.directory := by
  have hdirectory : c.timeless.directory = c'.timeless.directory := by rw [h]
  exact hdirectory

theorem name_of_timeless (h : t.timeless = t'.timeless) : t.name = t'.name := by
  have hname : t.timeless.name = t'.timeless.name := by rw [h]
  exact hname

theorem enabled_of_timeless (h : t.timeless = t'.timeless) : t.enabled = t'.enabled := by
  have henabled : t.timeless.enabled = t'.timeless.enabled := by rw [h]
  exact henabled

theorem families_of_timeless (h : t.timeless = t'.timeless) : t.families = t'.families := by
  have hfamilies : t.timeless.families = t'.timeless.families := by rw [h]
  exact hfamilies

theorem family?_of_timeless (h : t.timeless = t'.timeless) : t.family? name = t'.family? name := by
  rw [Table.family?, families_of_timeless h, Table.family?]

theorem names_timeless (c : Catalog) : c.timeless.names = c.names := by
  rw [names, names, timeless, List.map_map]
  rfl

theorem find?_timeless (c : Catalog) (name : String) :
    c.timeless.find? name = (c.find? name).map Table.timeless := by
  rw [find?, timeless, List.find?_map]
  rfl

theorem table_timeless (c : Catalog) (name : String) :
    c.timeless.table name = Table.timeless <$> c.table name := by
  rw [table, find?_timeless, table]
  cases c.find? name <;> rfl

theorem isEnabled_timeless (c : Catalog) (name : String) :
    c.timeless.isEnabled name = c.isEnabled name := by
  rw [isEnabled, table_timeless, isEnabled]
  cases c.table name <;> rfl

theorem isDisabled_timeless (c : Catalog) (name : String) :
    c.timeless.isDisabled name = c.isDisabled name := by
  rw [isDisabled, table_timeless, isDisabled]
  cases c.table name <;> rfl

theorem list_timeless (c : Catalog) (pattern : Option String) :
    c.timeless.list pattern = c.list pattern := by
  cases pattern with
  | none => exact congrArg Except.ok c.names_timeless
  | some pattern => rw [list, list, names_timeless]

theorem replaceIn_timeless (name : String) (next : Table) (ts : List Table) :
    replaceIn name next.timeless (ts.map Table.timeless) = (replaceIn name next ts).map
      Table.timeless := by
  induction ts with
  | nil => rfl
  | cons t ts ih =>
    by_cases h : (t.name == name) = true
    · rw [List.map_cons, replaceIn, if_pos (show (t.timeless.name == name) = true from h),
        replaceIn, if_pos h]
      rfl
    · rw [List.map_cons, replaceIn, if_neg (show ¬ (t.timeless.name == name) = true from h),
        replaceIn, if_neg h, ih]
      rfl

theorem removeFrom_timeless (name : String) (ts : List Table) :
    removeFrom name (ts.map Table.timeless) = (removeFrom name ts).map Table.timeless := by
  induction ts with
  | nil => rfl
  | cons t ts ih =>
    by_cases h : (t.name == name) = true
    · rw [List.map_cons, removeFrom, if_pos (show (t.timeless.name == name) = true from h),
        removeFrom, if_pos h]
    · rw [List.map_cons, removeFrom, if_neg (show ¬ (t.timeless.name == name) = true from h),
        removeFrom, if_neg h, ih]
      rfl

theorem timeless_replace (c : Catalog) (name : String) (next : Table) :
    (c.replace name next).timeless = c.timeless.replace name next.timeless := by
  rw [replace, replace, timeless, timeless, replaceIn_timeless]

theorem timeless_remove (c : Catalog) (name : String) :
    (c.remove name).timeless = c.timeless.remove name := by
  rw [remove, remove, timeless, timeless, removeFrom_timeless]

theorem timeless_add (c : Catalog) (t : Table) :
    (c.add t).timeless = c.timeless.add t.timeless := by
  rw [add, add, timeless, timeless, List.map_append]
  rfl

/-- Texts of one table but for its times. -/
def SameTable (s s' : String) : Prop :=
  ∃ t t' : Table, t.timeless = t'.timeless ∧ s = t.encode ∧ s' = t'.encode

end Catalog

namespace Shell
open WideColumn.Catalog WideColumn.Schema

/-- Work on a catalog at a terminal. -/
abbrev Work (α : Type) := CatalogM (StateM Terminal) α

/-- What work answers and leaves behind. -/
def runAt {α : Type} (x : Work α) (c : Catalog)
    (T : Terminal) : (Except Fault α × Catalog) × Terminal :=
  (x.run.run c).run T

variable {α β α' β' : Type} {R : α → β → Prop} {S : α' → β' → Prop}

/-- On catalogs and machines that are the same but for times, two works come to related results or
to one fault, and leave catalogs and machines that are the same but for times. -/
def Agree (R : α → β → Prop) (x : Work α) (y : Work β) : Prop :=
  ∀ (c c' : Catalog) (T T' : Terminal), c.timeless = c'.timeless →
    T.machine.Alike SameTable T'.machine →
    ∃ r d k r' d' k', runAt x c T = ((r, d), { T with machine := k }) ∧
      runAt y c' T' = ((r', d'), { T' with machine := k' }) ∧ Both R r r' ∧
        d.timeless = d'.timeless ∧
      k.Alike SameTable k'

theorem runAt_bind_ok {x : Work α} {f : α → Work β} {a : α} {c d : Catalog} {T U : Terminal}
    (h : runAt x c T = ((.ok a, d), U)) : runAt (x >>= f) c T = runAt (f a) d U := by
  rw [runAt] at h
  rw [runAt, ExceptT.run_bind, StateT.run_bind, StateT.run_bind, h]
  rfl

theorem runAt_bind_error {x : Work α} {f : α → Work β} {e : Fault} {c d : Catalog} {T U : Terminal}
    (h : runAt x c T = ((.error e, d), U)) : runAt (x >>= f) c T = ((.error e, d), U) := by
  rw [runAt] at h
  rw [runAt, ExceptT.run_bind, StateT.run_bind, StateT.run_bind, h]
  rfl

namespace Agree

variable {x : Work α} {y : Work β}

protected theorem pure {a : α} {b : β} (h : R a b) : Agree R (Pure.pure a) (Pure.pure b) :=
  fun c c' T T' hc hT => ⟨.ok a, c, T.machine, .ok b, c', T'.machine, rfl, rfl, .ok h, hc, hT⟩

protected theorem throw (e : Fault) : Agree R (MonadExcept.throw e) (MonadExcept.throw e) :=
  fun c c' T T' hc hT =>
    ⟨.error e, c, T.machine, .error e, c', T'.machine, rfl, rfl, .error e, hc, hT⟩

protected theorem bind {f : α → Work α'} {g : β → Work β'} (h : Agree R x y)
    (hf : ∀ a b, R a b → Agree S (f a) (g b)) : Agree S (x >>= f) (y >>= g) := by
  intro c c' T T' hc hT
  obtain ⟨r, d, k, r', d', k', hx, hy, hr, hd, hk⟩ := h c c' T T' hc hT
  cases hr with
  | ok hr =>
    rw [runAt_bind_ok hx, runAt_bind_ok hy]
    exact hf _ _ hr d d' { T with machine := k } { T' with machine := k' } hd hk
  | error e =>
    rw [runAt_bind_error hx, runAt_bind_error hy]
    exact ⟨_, _, _, _, _, _, rfl, rfl, .error e, hd, hk⟩

/-- A check that stops both works or neither. -/
protected theorem check {b : Bool} {e : Fault} {f : Unit → Work α} {g : Unit → Work β}
    (h : Agree R (f ()) (g ())) :
    Agree R (if b = true then MonadExcept.throw e >>= f else f ())
      (if b = true then MonadExcept.throw e >>= g else g ()) := by
  cases b with
  | true => exact Agree.bind (R := fun _ _ => True) (.throw e) fun _ _ _ => h
  | false => exact h

protected theorem get :
    Agree (fun c c' => c.timeless = c'.timeless) MonadState.get MonadState.get :=
  fun c c' T T' hc hT => ⟨.ok c, c, T.machine, .ok c', c', T'.machine, rfl, rfl, .ok hc, hc, hT⟩

protected theorem modify {f g : Catalog → Catalog}
    (h : ∀ c c', c.timeless = c'.timeless → (f c).timeless = (g c').timeless) :
    Agree Eq (modify f : Work Unit) (modify g) :=
  fun c c' T T' hc hT =>
    ⟨.ok (), f c, T.machine, .ok (), g c', T'.machine, rfl, rfl, .ok rfl, h c c' hc, hT⟩

protected theorem lift {x : Except Fault α} {y : Except Fault β} (h : Both R x y) :
    Agree R (liftM x : Work α) (liftM y : Work β) := by
  intro c c' T T' hc hT
  exact ⟨x, c, T.machine, y, c', T'.machine, by cases x <;> rfl, by cases y <;> rfl, h, hc, hT⟩

protected theorem ask {f : Catalog → Except Fault α} {g : Catalog → Except Fault β}
    (h : ∀ c c', c.timeless = c'.timeless → Both R (f c) (g c')) :
    Agree R (ask f : Work α) (ask g : Work β) := by
  refine Agree.get.bind fun c c' hc => ?_
  have hr := h c c' hc
  generalize f c = a at hr
  generalize g c' = b at hr
  cases hr with
  | ok hr => exact .pure hr
  | error e => exact .throw e

/-- A call of the machine. -/
protected theorem call {f : StateM Machine α} {g : StateM Machine β}
    (h : ∀ k k' : Machine, k.Alike SameTable k' → R (f k).1 (g k').1 ∧
      (f k).2.Alike SameTable (g k').2) :
    Agree R (liftM (liftM (onMachine f) : StateT Catalog (StateM Terminal) α) : Work α)
      (liftM (liftM (onMachine g) : StateT Catalog (StateM Terminal) β)) := by
  intro c c' T T' hc hT
  obtain ⟨hr, hk⟩ := h _ _ hT
  exact ⟨.ok (f T.machine).1, c, (f T.machine).2, .ok (g T'.machine).1, c', (g T'.machine).2, rfl,
    rfl, .ok hr, hc, hk⟩

protected theorem demand {fault : String → Fault} {f : StateM Machine (Except DiskError α)}
    {g : StateM Machine (Except DiskError β)}
    (h : ∀ k k' : Machine, k.Alike SameTable k' → Both R (f k).1 (g k').1 ∧
      (f k).2.Alike SameTable (g k').2) :
    Agree R (demand fault (liftM (onMachine f)) : Work α) (demand fault (liftM (onMachine g))) := by
  refine (Agree.call h).bind fun a b hab => ?_
  cases hab with
  | ok hab => exact .pure hab
  | error e => exact .throw _

protected theorem discard (h : Agree R x y) : Agree Eq (discard x) (discard y) :=
  h.bind fun _ _ _ => .pure rfl

protected theorem now : Agree (fun _ _ => True) (Host.now : Work Time.Instant) Host.now :=
  Agree.call (f := Host.now) (g := Host.now) fun _ _ hk =>
    ⟨trivial, hk.volume, hk.ids, hk.drawn, hk.outages, hk.calls⟩

protected theorem newId : Agree Eq (Host.newId : Work Uuid) Host.newId :=
  Agree.call (f := Host.newId) (g := Host.newId) fun k k' hk => by
    refine ⟨?_, hk.volume, hk.ids, congrArg (· + 1) hk.drawn, hk.outages, hk.calls⟩
    change k.ids k.drawn = k'.ids k'.drawn
    rw [hk.ids, hk.drawn]

protected theorem mapM {f g : α → Work β} {l : List α} (h : ∀ a ∈ l, Agree Eq (f a) (g a)) :
    Agree Eq (l.mapM f) (l.mapM g) := by
  induction l with
  | nil => exact .pure rfl
  | cons a l ih =>
    rw [List.mapM_cons, List.mapM_cons]
    obtain ⟨ha, hl⟩ := List.forall_mem_cons.mp h
    refine ha.bind fun b b' hb => (ih hl).bind fun bs bs' hbs => ?_
    exact .pure (by rw [hb, hbs])

protected theorem forM {f g : α → Work Unit} {l : List α} (h : ∀ a ∈ l, Agree Eq (f a) (g a)) :
    Agree Eq (l.forM f) (l.forM g) := by
  induction l with
  | nil => exact .pure rfl
  | cons a l ih =>
    obtain ⟨ha, hl⟩ := List.forall_mem_cons.mp h
    exact ha.bind fun _ _ _ => ih hl

protected theorem readClock : Agree (fun _ _ => True) (readClock : Work Readings) readClock := by
  intro c c' T T' hc hT
  exact ⟨.ok _, c, T.machine.now.2.now.2, .ok _, c', T'.machine.now.2.now.2, rfl, rfl,
    .ok trivial, hc, hT.volume, hT.ids, hT.drawn, hT.outages, hT.calls⟩

variable {name : String} {t t' : Table}

protected theorem ask_timeless {f : Catalog → Except Fault α} (h : ∀ c, f c.timeless = f c) :
    Agree Eq (ask f : Work α) (ask f) := by
  refine Agree.ask fun c c' hc => ?_
  rw [← h c, hc, h c']
  exact .refl _

protected theorem table (name : String) :
    Agree (fun t t' => t.timeless = t'.timeless) (ask (·.table name) : Work Table)
      (ask (·.table name)) := by
  refine Agree.ask fun c c' hc => Both.of_map_eq ?_
  rw [← table_timeless, hc, table_timeless]

protected theorem save (ht : t.timeless = t'.timeless) :
    Agree Eq (save t : Work Unit) (save t') := by
  have hname := name_of_timeless ht
  refine Agree.get.bind fun c c' hc => ?_
  have hdirectory := directory_of_timeless hc
  rw [filePath, filePath, hdirectory, hname]
  refine (Agree.demand (R := Eq) fun k k' hk => hk.change fun v w h => h.makeDirectory _).bind
    fun _ _ _ => ?_
  exact Agree.demand fun k k' hk => hk.writeFile ⟨t, t', ht, rfl, rfl⟩ _

protected theorem mutate {op : Readings → Table → Except Fault (α × Table)} (hop : Table.Blind op) :
    Agree Eq (mutate name op : Work α) (mutate name op) := by
  refine (Agree.table name).bind fun t t' ht => Agree.readClock.bind fun r r' _ => ?_
  have hresult := Both.of_map_eq ((hop r t).trans (ht ▸ (hop r' t').symm))
  refine (Agree.lift hresult).bind fun p p' hp => ?_
  obtain ⟨hanswer, hnext⟩ := Prod.mk.inj hp
  refine (Agree.save hnext).bind fun _ _ _ => ?_
  refine (Agree.modify fun c c' hc => ?_).bind fun _ _ _ => .pure hanswer
  rw [timeless_replace, timeless_replace, hc, hnext]

protected theorem mutate_ {op : Readings → Table → Except Fault Table}
    (h : ∀ r t, Table.timeless <$> op r t = op ⟨.epoch, .epoch⟩ t.timeless) :
    Agree Eq (mutate_ name op : Work Unit) (mutate_ name op) :=
  .mutate (Table.blind_of_map h)

protected theorem disable (name : String) :
    Agree Eq (disable name : Work StateChange) (disable name) := by
  refine (Agree.ask_timeless (isDisabled_timeless · name)).bind fun b b' hb => ?_
  rw [hb]
  split
  · exact .pure rfl
  · exact (Agree.mutate_ Table.timeless_disable).bind fun _ _ _ => .pure rfl

protected theorem enable (name : String) :
    Agree Eq (enable name : Work StateChange) (enable name) := by
  refine (Agree.ask_timeless (isEnabled_timeless · name)).bind fun b b' hb => ?_
  rw [hb]
  split
  · exact .pure rfl
  · exact (Agree.mutate_ Table.timeless_enable).bind fun _ _ _ => .pure rfl

protected theorem pathExists (path : String) :
    Agree Eq (Host.pathExists path : Work Bool) (Host.pathExists path) := by
  refine Agree.call (f := Host.pathExists path) (g := Host.pathExists path) fun k k' hk => ?_
  obtain ⟨hr, hk⟩ :=
    hk.look (S := fun _ _ => True) (f := fun v => (v.find? (Volume.path path)).map fun _ => ())
    fun v w h => (h.find? (Volume.path path)).bind fun _ _ _ => .ok trivial
  exact ⟨hr.isOk_eq, hk⟩

protected theorem removeFile (path : String) :
    Agree Eq (removeFile path : Work Unit) (removeFile path) := by
  refine (Agree.call (f := Host.removeFile path) (g := Host.removeFile path) (R := Both Eq)
    fun k k' hk => hk.change fun v w h => h.remove _).bind fun a b hab => ?_
  cases hab with
  | ok _ => exact .pure rfl
  | error e =>
    cases e with
    | missing => exact .pure rfl
    | _ => exact .throw _

protected theorem dropTable (name : String) :
    Agree Eq (dropTable name : Work Unit) (dropTable name) := by
  refine Agree.get.bind fun c c' hc => (Agree.table name).bind fun t t' ht => ?_
  rw [enabled_of_timeless ht, filePath, filePath, directory_of_timeless hc, name_of_timeless ht]
  refine Agree.check ((Agree.removeFile _).bind fun _ _ _ => Agree.modify fun c c' hc => ?_)
  rw [timeless_remove, timeless_remove, hc]

protected theorem createTable (name : String) (families : List Family) :
    Agree Eq (createTable name families : Work Unit) (createTable name families) := by
  refine (Agree.lift (Both.refl _)).bind fun _ _ _ => Agree.get.bind fun c c' hc => ?_
  have hcontains : c.contains name = c'.contains name := by
    have hfound : (c.timeless.find? name).isSome = (c'.timeless.find? name).isSome := by rw [hc]
    rwa [find?_timeless, find?_timeless, Option.isSome_map, Option.isSome_map] at hfound
  rw [hcontains, filePath, filePath, directory_of_timeless hc]
  refine Agree.check ((Agree.pathExists _).bind fun b b' hb => ?_)
  rw [hb]
  refine Agree.check ((Agree.lift (Both.refl _)).bind fun _ _ _ => ?_)
  refine (Agree.newId).bind fun id id' hid => Agree.now.bind fun now now' _ => ?_
  have hblank : (Table.blank name families id now).timeless =
      (Table.blank name families id' now').timeless := by
    rw [Table.timeless_blank, Table.timeless_blank, hid]
  refine (Agree.save hblank).bind fun _ _ _ => Agree.modify fun c c' hc => ?_
  rw [timeless_add, timeless_add, hc, hblank]

protected theorem truncate (name : String) :
    Agree Eq (truncate name : Work Unit) (truncate name) := by
  refine (Agree.table name).bind fun t t' ht => ?_
  rw [enabled_of_timeless ht, Table.familyNames, families_of_timeless ht]
  have hrest (fs : List Family) : Agree Eq (do dropTable name; createTable name fs : Work Unit)
      (do dropTable name; createTable name fs) :=
    (Agree.dropTable name).bind fun _ _ _ => .createTable name fs
  split
  · exact ((Agree.disable name).discard).bind fun _ _ _ => hrest _
  · exact hrest _

protected theorem alter (name : String) (pairs : Properties) :
    Agree Eq (alter name pairs : Work Alteration) (alter name pairs) := by
  rw [alter]
  split
  · split
    · split
      · exact (Agree.mutate_ Table.timeless_deleteFamily).bind fun _ _ _ => .pure rfl
      · exact .throw _
    · refine (Agree.table name).bind fun t t' ht => ?_
      rw [family?_of_timeless ht]
      split
      · exact (Agree.mutate_ Table.timeless_updateFamily).bind fun _ _ _ => .pure rfl
      · exact (Agree.mutate_ Table.timeless_createFamily).bind fun _ _ _ => .pure rfl
  · exact .throw _

end Agree

end Shell

end WideColumn
