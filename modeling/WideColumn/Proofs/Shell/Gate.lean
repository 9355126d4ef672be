import WideColumn.Proofs.Command.Parser
import WideColumn.Proofs.Shell.Footprint

/-! # The gate of a disabled table

A disabled table stays as it is, and its file with it, whatever lines a session goes through, unless
a line enables, drops or truncates the table, or drops what matches a pattern that lists it. Every
line that works on its data or its families is refused, since the state of the table is looked at
before anything else. -/
namespace WideColumn

namespace Table

variable {t : Table}

/-- A step behind the gate of a disabled table is not reached. -/
theorem checkEnabled_bind {α : Type} (h : t.disabled = true) (action : Action)
    (f : Unit → Except Fault α) :
    (t.checkEnabled action >>= f) = .error (.tableDisabled action t.name) := by
  rw [checkEnabled, if_pos h]
  rfl

end Table

namespace Catalog

variable {α β : Type} {name : String} {c : Catalog} {v : Volume} {t : Table}

/-- The program is refused by the state of a table, and nothing changes. -/
def Barred (c : Catalog) (v : Volume) (p : Program α) : Prop :=
  Ends (fun e d k => e.code = .disabledStateConflict ∧ d = c ∧ k.volume = v) (fun d k => d = c ∧
    k.volume = v) p fun _ _ _ => False

def IsConflict (x : Except Fault α) : Prop := ∃ e, x = .error e ∧ e.code = .disabledStateConflict

theorem isConflict_checkEnabled (h : t.disabled = true) (action : Action)
    (f : Unit → Except Fault α) :
    IsConflict (t.checkEnabled action >>= f) := ⟨_, Table.checkEnabled_bind h action f, rfl⟩

namespace Barred

variable {p : Program α} {f : α → Program β}

theorem bind (h : Barred c v p) : Barred c v (p >>= f) := Ends.bind h fun _ _ _ h => h.elim

theorem preserves (h : Barred c v p) : Preserves (fun d k => d = c ∧ k.volume = v) p :=
  (h.weaken fun _ _ _ he => he.2).post fun _ _ _ h => h.elim

theorem lift {x : Except Fault α} (h : IsConflict x) : Barred c v (liftM x) := by
  obtain ⟨e, rfl, hcode⟩ := h
  exact fun d k hd => ⟨.error e, d, k, rfl, hcode, hd⟩

/-- A read of a table that is there goes on with that table. -/
theorem ask_table {g : Table → Program β} (ht : c.find? name = some t) (hg : Barred c v (g t)) :
    Barred c v (Catalog.ask (·.table name) >>= g) := by
  have htable : c.table name = .ok t := by
    rw [table, ht]
    rfl
  intro d k hd
  obtain ⟨rfl, hv⟩ := hd
  have hask : exec (Catalog.ask (·.table name)) d k = ((.ok t, d), k) := by rw [exec_ask, htable]
  rw [exec_bind_ok hask]
  exact hg d k ⟨rfl, hv⟩

theorem mutate {op : Readings → Table → Except Fault (α × Table)} (ht : c.find? name = some t)
    (hop : ∀ r, IsConflict (op r t)) : Barred c v (Catalog.mutate name op) := by
  refine ask_table ht ?_
  refine Ends.bind (Q := fun _ d k => d = c ∧ k.volume = v) (fun d k hd => ⟨.ok _, d, _, rfl, hd⟩)
    fun r => ?_
  exact (lift (hop r)).bind

theorem mutate_ {op : Readings → Table → Except Fault Table} (ht : c.find? name = some t)
    (hop : ∀ r, IsConflict (op r t)) : Barred c v (Catalog.mutate_ name op) := by
  refine mutate ht fun r => ?_
  obtain ⟨e, he, hcode⟩ := hop r
  refine ⟨e, ?_, hcode⟩
  rw [he]
  rfl

theorem forM {g : β → Program Unit} {b : β} {l : List β} (h : Barred c v (g b)) :
    Barred c v ((b :: l).forM g) := h.bind

theorem mapM {g : β → Program α} {b : β} {l : List β} (h : Barred c v (g b)) :
    Barred c v ((b :: l).mapM g) := by
  rw [List.mapM_cons]
  exact h.bind

end Barred

end Catalog

namespace Command
open WideColumn.Catalog WideColumn.Schema

/-- The command works on the data or the families of the table of a name. -/
def Gated (name : String) : Command → Prop
  | put table _ | get table _ _ _ | scan table | count table | delete table _ _
  | deleteRow table _ => table = name
  | alter table (pairs :: _) => table = name ∧ (lookup nameKey pairs).isSome = true ∧
      ∀ method, lookup methodKey pairs = some method → Text.sameWord method "delete" = true
  | _ => False

/-- The command is none that may change the state of the table of a name, or remove it. -/
def spares (c : Catalog) (name : String) : Command → Bool
  | enable table | drop table | truncate table => table != name
  | dropAll pattern => !c.listed pattern name
  | _ => true

end Command

namespace Shell
open WideColumn.Catalog WideColumn.Schema

variable {name : String} {c : Catalog} {v : Volume} {t : Table} {command : Command}
  {confirm : List String → Bool}

theorem barred_alter (ht : c.find? name = some t) (hdisabled : t.disabled = true)
    {pairs : Properties} (hname : (lookup nameKey pairs).isSome = true)
    (hmethod : ∀ method, lookup methodKey pairs = some method →
      Text.sameWord method "delete" = true) :
    Barred c v (alter name pairs) := by
  obtain ⟨family, hfamily⟩ := Option.isSome_iff_exists.mp hname
  rw [alter, hfamily]
  dsimp only
  split
  · next method heq =>
    rw [if_pos (hmethod method heq)]
    exact (Barred.mutate_ ht fun r => isConflict_checkEnabled hdisabled ..).bind
  · refine Barred.ask_table ht ?_
    split
    · exact (Barred.mutate_ ht fun r => isConflict_checkEnabled hdisabled ..).bind
    · exact (Barred.mutate_ ht fun r => isConflict_checkEnabled hdisabled ..).bind

/-- A command that works on a disabled table is refused. -/
theorem barred_perform (ht : c.find? name = some t) (hdisabled : t.disabled = true)
    (hgated : command.Gated name) (hcells : command.HasCells) :
    Barred c v (perform confirm command) := by
  cases command with
  | put table cells =>
    obtain rfl : table = name := hgated
    cases cells with
    | nil => exact absurd rfl hcells
    | cons w cells =>
      have hfirst : Barred c v (discard <| mutate table fun r t =>
          t.put r w.row w.column.family w.column.qualifier w.value) :=
        (Barred.mutate ht fun r => isConflict_checkEnabled hdisabled ..).bind
      exact Barred.bind (Barred.forM (l := cells) hfirst)
  | get table =>
    obtain rfl : table = name := hgated
    exact Barred.ask_table ht (Barred.lift (isConflict_checkEnabled hdisabled ..)).bind
  | scan table =>
    obtain rfl : table = name := hgated
    exact Barred.ask_table ht (Barred.lift (isConflict_checkEnabled hdisabled ..)).bind
  | count table =>
    obtain rfl : table = name := hgated
    exact Barred.ask_table ht (Barred.lift (isConflict_checkEnabled hdisabled ..)).bind
  | delete table =>
    obtain rfl : table = name := hgated
    exact (Barred.mutate_ ht fun r => isConflict_checkEnabled hdisabled ..).bind
  | deleteRow table =>
    obtain rfl : table = name := hgated
    exact (Barred.mutate ht fun r => isConflict_checkEnabled hdisabled ..).bind
  | alter table maps =>
    cases maps with
    | nil => cases hgated
    | cons pairs maps =>
      obtain ⟨rfl, hname, hmethod⟩ := hgated
      exact (Barred.mapM (barred_alter ht hdisabled hname hmethod)).bind
  | _ => cases hgated

abbrev Same (c : Catalog) (v : Volume) (d : Catalog) (k : Machine) : Prop := d = c ∧ k.volume = v

theorem preserves_alter (ht : c.find? name = some t) (hdisabled : t.disabled = true)
    (pairs : Properties) :
    Preserves (Same c v) (alter name pairs) := by
  by_cases hname : (lookup nameKey pairs).isSome = true
  · by_cases hmethod : ∀ method, lookup methodKey pairs = some method →
      Text.sameWord method "delete" = true
    · exact (barred_alter ht hdisabled hname hmethod).preserves
    · simp only [not_forall] at hmethod
      obtain ⟨method, heq, hother⟩ := hmethod
      obtain ⟨family, hfamily⟩ := Option.isSome_iff_exists.mp hname
      rw [alter, hfamily]
      dsimp only
      rw [heq]
      dsimp only
      rw [if_neg hother]
      exact Preserves.throw _
  · rw [alter, Option.not_isSome_iff_eq_none.mp hname]
    exact Preserves.throw _

/-- There is a table of that name already. -/
theorem preserves_createTable (ht : c.find? name = some t) (families : List Family) :
    Preserves (Same c v) (createTable name families) := by
  refine (Preserves.lift _).bind fun _ => ?_
  refine Ends.bind Ends.get fun d => ?_
  intro d' k hd
  obtain ⟨rfl, rfl, hv⟩ := hd
  refine Ends.check (E := fun _ => Same d v) (P := Same d v) (fun _ _ _ hd => hd)
    (fun hnew => ?_) d k ⟨rfl, hv⟩
  rw [contains, ht] at hnew
  cases hnew

theorem preserves_disable (ht : c.find? name = some t) (hdisabled : t.disabled = true) :
    Preserves (Same c v) (disable name) := by
  refine Ends.bind (Ends.ask fun _ _ _ hd _ => hd) fun disabled => ?_
  intro d k hd
  obtain ⟨hanswer, rfl, hv⟩ := hd
  have hstate : d.isDisabled name = .ok t.disabled := by
    rw [isDisabled, table, ht]
    rfl
  obtain rfl : t.disabled = disabled := Except.ok.inj (hstate.symm.trans hanswer)
  rw [if_pos hdisabled]
  exact Preserves.pure (I := Same d v) _ d k ⟨rfl, hv⟩

/-- A command that is given a disabled table and spares it changes nothing. -/
theorem preserves_of_spares (ht : c.find? name = some t) (hdisabled : t.disabled = true)
    (hname : command.target? = some name) (hspares : command.spares c name = true) :
    Preserves (Same c v) (perform confirm command) := by
  cases command with
  | create =>
    cases hname
    refine (Preserves.mapM fun f _ => Preserves.lift _).bind fun families => ?_
    exact (preserves_createTable ht families).bind fun _ => Preserves.pure _
  | disable => cases hname; exact (preserves_disable ht hdisabled).bind fun _ => Preserves.pure _
  | alter _ maps =>
    cases hname
    exact (Preserves.mapM fun pairs _ => preserves_alter ht hdisabled pairs).bind fun _ =>
      Preserves.pure _
  | put _ cells =>
    cases hname
    refine (Preserves.forM fun w _ => Preserves.discard (Barred.preserves ?_)).bind fun _ =>
      Preserves.pure _
    exact Barred.mutate ht fun r => isConflict_checkEnabled hdisabled ..
  | delete | deleteRow =>
    cases hname
    exact Barred.preserves (barred_perform ht hdisabled rfl trivial)
  | enable | drop | truncate =>
    cases hname
    simp [Command.spares] at hspares
  | _ => cases hname

/-- The table of a name and its file are what they were, also if there was none. -/
structure Frozen (name : String) (c : Catalog) (v : Volume) (d : Catalog) (w : Volume) : Prop where
  directory : d.directory = c.directory
  table : d.find? name = c.find? name
  node : w.node? (Volume.path (c.filePath name)) = v.node? (Volume.path (c.filePath name))
  file : ∀ n, v.find? (Volume.path (c.filePath name)) = .ok n →
    w.find? (Volume.path (c.filePath name)) = .ok n

theorem Frozen.refl (name : String) (c : Catalog) (v : Volume) : Frozen name c v c v :=
  ⟨rfl, rfl, rfl, fun _ h => h⟩

theorem Frozen.trans {d e : Catalog} {w x : Volume} (h : Frozen name c v d w)
    (h' : Frozen name d w e x) :
    Frozen name c v e x := by
  have hpath : d.filePath name = c.filePath name := by rw [filePath, h.directory, filePath]
  have hnode := h'.node
  have hfile := h'.file
  rw [hpath] at hnode hfile
  exact ⟨h'.directory.trans h.directory, h'.table.trans h.table, hnode.trans h.node,
    fun n hn => hfile n (h.file n hn)⟩

theorem frozen_of_touchesOnly {touched : String → Bool} {d : Catalog} {w : Volume}
    (h : Catalog.TouchesOnly touched c v d w) (hname : touched name = false)
    (hlegal : checkTableName name = .ok ()) : Frozen name c v d w :=
  ⟨h.directory, h.find?_eq hname, h.node?_filePath hname hlegal,
    fun _ => h.find?_filePath hname hlegal⟩

/-- Whether a pattern lists a table does not depend on the other tables. -/
theorem listed_congr {d : Catalog} {s : Table} (hc : c.find? name = some t)
    (hd : d.find? name = some s) (pattern : String) :
    c.listed pattern name = d.listed pattern name := by
  have hmem {c : Catalog} {t : Table} (h : c.find? name = some t) : name ∈ c.names := by
    obtain ⟨ht, rfl⟩ := mem_of_find? h
    exact List.mem_map.mpr ⟨t, ht, rfl⟩
  rw [listed, listed, list, list, Pattern.select, Pattern.select]
  cases Pattern.ofText pattern with
  | error e => rfl
  | ok n =>
    have hcontains {l : List String} (hl : name ∈ l) :
        (l.filter fun name => n.matchesIn name.toList).contains name = n.matchesIn name.toList := by
      rw [Bool.eq_iff_iff, List.contains_iff_mem, List.mem_filter, and_iff_right hl]
    exact (hcontains (hmem hc)).trans (hcontains (hmem hd)).symm

theorem spares_congr {d : Catalog} {s : Table} (hc : c.find? name = some t)
    (hd : d.find? name = some s) (command : Command) :
    command.spares c name = command.spares d name := by
  cases command with
  | dropAll pattern => rw [Command.spares, Command.spares, listed_congr hc hd]
  | _ => rfl

namespace InSession

variable {turn : Turn} {k : Machine}

theorem frozen_step (h : InSession c) (ht : c.find? name = some t) (hdisabled : t.disabled = true)
    (hspares : ∀ command, Command.parse turn.line = .ok command → command.spares c name = true) :
    Frozen name c k.volume (turn.step (c, k)).1 (turn.step (c, k)).2.volume := by
  obtain ⟨hmem, hname⟩ := mem_of_find? ht
  have hlegal : checkTableName name = .ok () := hname ▸ h.wellNamed.legal t hmem
  cases hparse : Command.parse turn.line with
  | error e =>
    obtain ⟨-, hc, hv⟩ := turn.answer_of_error hparse c k
    rw [hc, hv]
    exact .refl ..
  | ok command =>
    by_cases htarget : command.target? = some name
    · have hsame := Turn.step_of_ends (k := k) hparse (R := fun d v => d = c ∧ v = k.volume)
        (preserves_of_spares ht hdisabled htarget (hspares command hparse))
      rw [hsame.1, hsame.2]
      exact .refl ..
    · refine frozen_of_touchesOnly (h.touchesOnly_step k hparse) ?_ hlegal
      cases command with
      | dropAll pattern =>
        have hunlisted := hspares _ hparse
        rw [Command.spares, Bool.not_eq_true'] at hunlisted
        exact hunlisted
      | _ => exact beq_eq_false_iff_ne.mpr htarget

/-- Lines that spare a disabled table leave it and its file as they were, whatever else they do. -/
theorem frozen_after (h : InSession c) (k : Machine) (ht : c.find? name = some t)
    (hdisabled : t.disabled = true) (turns : List Turn)
    (hspares : ∀ turn ∈ turns, ∀ command, Command.parse turn.line = .ok command →
      command.spares c name = true) :
    (afterTurns turns (c, k)).1.find? name = some t ∧
      Frozen name c k.volume (afterTurns turns (c, k)).1 (afterTurns turns (c, k)).2.volume := by
  induction turns generalizing c k with
  | nil => exact ⟨ht, .refl ..⟩
  | cons turn turns ih =>
    obtain ⟨hturn, hturns⟩ := List.forall_mem_cons.mp hspares
    have hstep := h.frozen_step (k := k) ht hdisabled hturn
    have ht' := hstep.table.trans ht
    have hrest := ih (h.answered turn k) (turn.step (c, k)).2 ht' fun other hother command hparse =>
      (spares_congr ht' ht command).trans (hturns other hother command hparse)
    exact ⟨hrest.1, hstep.trans hrest.2⟩

theorem refused_of_gated (ht : c.find? name = some t) (hdisabled : t.disabled = true)
    (hparse : Command.parse turn.line = .ok command) (hgated : command.Gated name) (k : Machine) :
    ∃ e, (turn.answer c k).1.1.outcome = .error e ∧ e.code = .disabledStateConflict := by
  have hends := Turn.answer_of_ends (c := c) (k := k) hparse
    (E := fun e d v => e.code = .disabledStateConflict ∧ d = c ∧ v = k.volume)
      (Q := fun _ _ _ => False)
    (barred_perform ht hdisabled hgated (Command.hasCells_of_parse hparse))
  cases houtcome : (turn.answer c k).1.1.outcome with
  | ok o =>
    rw [houtcome] at hends
    exact hends.elim
  | error e =>
    rw [houtcome] at hends
    exact ⟨e, rfl, hends.1⟩

/-- Whatever lines a session goes through and whether or not the disk fails, as long as no line
enables, drops or truncates a disabled table or drops what matches a pattern that lists it, the
table and its file stay as they are, and every line that works on its data or its families is
refused. -/
theorem gate_of_disabled (h : InSession c) (k : Machine) (ht : c.find? name = some t)
    (hdisabled : t.disabled = true) (turns : List Turn)
    (hspares : ∀ turn ∈ turns, ∀ command, Command.parse turn.line = .ok command →
      command.spares c name = true) :
    (afterTurns turns (c, k)).1.find? name = some t ∧
      Frozen name c k.volume (afterTurns turns (c, k)).1 (afterTurns turns (c, k)).2.volume ∧
      ∀ (turn : Turn) (command : Command), Command.parse turn.line = .ok command →
      command.Gated name →
        ∃ e, (turn.answer (afterTurns turns (c, k)).1 (afterTurns turns (c, k)).2).1.1.outcome =
          .error e ∧ e.code = .disabledStateConflict := by
  obtain ⟨hsame, hfrozen⟩ := h.frozen_after k ht hdisabled turns hspares
  exact ⟨hsame, hfrozen,
    fun turn command hparse hgated => refused_of_gated hsame hdisabled hparse hgated _⟩

end InSession

/-- Of two tables the first is disabled. -/
def firstDisabled : Catalog × Machine := afterTurns [⟨"disable 'a'", fun _ => true⟩] twoTables

def sparing : List Turn :=
  [⟨"put 'a', 'r', 'f:q', 'v'", fun _ => true⟩,
    ⟨"alter 'a', \x7bNAME => 'f', METHOD => 'delete'\x7d", fun _ => true⟩,
    ⟨"create 'a', 'g'", fun _ => true⟩, ⟨"put 'b', 'r', 'f:q', 'v'", fun _ => true⟩,
    ⟨"disable 'b'", fun _ => true⟩,
    ⟨"drop_all '[b-z]'", fun _ => true⟩]

theorem gate_of_disabled_sparing :
    InSession firstDisabled.1 ∧ (afterTurns sparing firstDisabled).1.names = ["a"] ∧
      ∃ t, firstDisabled.1.find? "a" = some t ∧
      (afterTurns sparing firstDisabled).1.find? "a" = some t ∧
        ∃ e, (Turn.answer ⟨"scan 'a'", fun _ => true⟩ (afterTurns sparing firstDisabled).1
          (afterTurns sparing firstDisabled).2).1.1.outcome = .error e ∧
          e.code = .disabledStateConflict := by
  have hsession : InSession firstDisabled.1 := inSession_twoTables.after _ _
  have hnames : (afterTurns sparing firstDisabled).1.names = ["a"] := by decide +kernel
  have hdisabled : (firstDisabled.1.find? "a").map (·.disabled) = some true := by decide +kernel
  obtain ⟨t, ht, hdisabled⟩ := Option.map_eq_some_iff.mp hdisabled
  have hspares : sparing.all (fun turn =>
      (Command.parse turn.line).toOption.all (·.spares firstDisabled.1 "a")) = true := by
    decide +kernel
  have hall : ∀ turn ∈ sparing, ∀ command, Command.parse turn.line = .ok command →
      command.spares firstDisabled.1 "a" = true := by
    intro turn hturn command hparse
    have hturn := List.all_eq_true.mp hspares turn hturn
    rw [hparse] at hturn
    exact hturn
  have hscan : (Command.parse "scan 'a'").toOption = some (.scan "a") := by decide +kernel
  obtain ⟨hsame, -, hrefused⟩ := hsession.gate_of_disabled firstDisabled.2 ht hdisabled sparing hall
  refine ⟨hsession, hnames, t, ht, hsame, hrefused ⟨"scan 'a'", fun _ => true⟩ (.scan "a") ?_ rfl⟩
  cases hparse : Command.parse "scan 'a'" with
  | error e => rw [hparse] at hscan; cases hscan
  | ok command => rw [hparse] at hscan; cases hscan; rfl

end Shell

end WideColumn
