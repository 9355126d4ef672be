import WideColumn.Proofs.Catalog.Footprint
import WideColumn.Shell.Session

/-! # What a line may touch

A line that only asks changes nothing. A line that writes to one table touches that table and its
file, and no line touches a file that is not that of a legal table name. None of this depends on
what the disk does: a call that fails half-way may leave its residue in the file it was writing, so
a file that no line changes on any machine is one that no line ever writes or removes. -/
namespace WideColumn

namespace Command

def reads : Command → Bool
  | list _ | isEnabled _ | isDisabled _ | describe _ | get .. | scan _ | count _ | help _ | exit
  | unknown _ | empty => true
  | _ => false

/-- The table that a command writes to. -/
def target? : Command → Option String
  | create table _ | disable table | enable table | alter table _ | drop table | put table _
  | delete table _ _ | deleteRow table _ | truncate table => some table
  | _ => none

/-- A command asks, writes to one table, or removes what matches a pattern. -/
theorem reads_or_target? (command : Command) :
    command.reads = true ∨ (∃ name, command.target? = some name) ∨ ∃ pattern,
    command = dropAll pattern := by
  cases command <;> simp [reads, target?]

end Command

namespace Shell
open WideColumn.Catalog WideColumn.Schema

variable {I : Catalog → Machine → Prop} {name : String} {command : Command}
  {confirm : List String → Bool} {c : Catalog} {k : Machine} {v : Volume}

abbrev perform (confirm : List String → Bool) (command : Command) : Program Outcome :=
  execute (fun names => pure (confirm names)) command

theorem putsOnly_put {allowed : String → Prop} {w : CellWrite} (hw : allowed w.column.qualifier) :
    PutsOnly allowed fun r t => Table.put t r w.row w.column.family w.column.qualifier w.value := by
  refine ⟨.put w.row w.column.family w.column.qualifier w.value,
    hw, fun r t n next h => ⟨some n.toNat, ?_⟩⟩
  dsimp only at h
  rw [Table.Operation.run, h]
  rfl

private theorem putsOnly_deleteRow {allowed : String → Prop} (row : String) :
    PutsOnly allowed fun r t => Table.deleteRow t r row := by
  refine ⟨.deleteRow row, trivial, fun r t n next h => ⟨some n, ?_⟩⟩
  dsimp only at h
  rw [Table.Operation.run, h]
  rfl

theorem preserves_of_reads (h : command.reads = true) : Preserves I (perform confirm command) := by
  cases command with
  | list | isEnabled | isDisabled => exact (Preserves.ask _).bind fun _ => Preserves.pure _
  | describe => exact (Preserves.ask _).bind fun _ => Preserves.pure _
  | get | scan | count =>
    exact (Preserves.ask _).bind fun _ => (Preserves.lift _).bind fun _ => Preserves.pure _
  | help | exit | unknown | empty => exact Preserves.pure _
  | _ => cases h

/-- What a command writes to one table keeps what such writes keep, as long as its puts are to
certain qualifiers only. -/
theorem preserves_of_putsTo {allowed : String → Prop} (h : StableFor allowed I name)
    (hname : command.target? = some name)
    (hputs : ∀ cells, command = .put name cells → ∀ w ∈ cells, allowed w.column.qualifier) :
    Preserves I (perform confirm command) := by
  cases command with
  | create _ families =>
    cases hname
    refine (Preserves.mapM fun f _ => Preserves.lift _).bind fun families => ?_
    exact (h.createTable families).bind fun _ => Preserves.pure _
  | disable => cases hname; exact h.writes.disable.bind fun _ => Preserves.pure _
  | enable => cases hname; exact h.writes.enable.bind fun _ => Preserves.pure _
  | alter _ maps =>
    cases hname
    exact (Preserves.mapM fun pairs _ => h.writes.alter pairs).bind fun _ => Preserves.pure _
  | drop => cases hname; exact h.dropTable.bind fun _ => Preserves.pure _
  | put _ cells =>
    cases hname
    refine (Preserves.forM fun w hw => ?_).bind fun _ => Preserves.pure _
    exact (h.writes.mutate (putsOnly_put (hputs cells rfl w hw))).discard
  | delete _ row column =>
    cases hname
    exact (h.writes.mutate_ (.delete row column.family column.qualifier) trivial fun _ _ =>
        rfl).bind fun _ =>
      Preserves.pure _
  | deleteRow _ row =>
    cases hname; exact (h.writes.mutate (putsOnly_deleteRow row)).bind fun _ => Preserves.pure _
  | truncate => cases hname; exact h.truncate.bind fun _ => Preserves.pure _
  | _ => cases hname

theorem preserves_of_target (h : StableAt I name) (hname : command.target? = some name) :
    Preserves I (perform confirm command) :=
  preserves_of_putsTo h.stableFor hname fun _ _ _ _ => trivial

/-- What every write keeps, every command keeps. -/
theorem preserves_perform (h : Stable I) (confirm : List String → Bool) (command : Command) :
    Preserves I (perform confirm command) := by
  rcases command.reads_or_target? with hreads | ⟨name, hname⟩ | ⟨pattern, rfl⟩
  · exact preserves_of_reads hreads
  · exact preserves_of_target (h.forTable name) hname
  · exact (preserves_dropAll h.dropTable pattern confirm).bind fun _ => Preserves.pure _

/-- The names of the tables that a command may touch. -/
def touched (c : Catalog) : Command → String → Bool
  | .dropAll pattern => c.listed pattern
  | command => fun name => command.target? == some name

theorem touched_iff {other : String} (hname : command.target? = some name) :
    touched c command other = true ↔ other = name := by
  cases command <;> cases hname <;> exact beq_iff_eq.trans (Option.some_inj.trans eq_comm)

theorem staysWithin_perform (h : c.WellNamed) (command : Command) :
    StaysWithin (touched c command) c v (perform confirm command) := by
  rcases command.reads_or_target? with hreads | ⟨name, hname⟩ | ⟨pattern, rfl⟩
  · exact staysWithin_of_preserves h (preserves_of_reads hreads)
  · have htouched : touched c command name = true := (touched_iff hname).mpr rfl
    exact staysWithin_of_preserves h (preserves_of_target (stableAt_within htouched) hname)
  · exact Ends.bind (staysWithin_dropAll h pattern confirm) fun _ => Ends.pure fun _ _ h => h

/-- A line, and what is answered if it asks for a confirmation. -/
structure Turn where
  line : String
  confirm : List String → Bool

namespace Turn

def answer (turn : Turn) (c : Catalog) (k : Machine) : (Reply × Catalog) × Machine :=
  let run : StateT Catalog (StateM Machine) Reply :=
    runLine (fun names => pure (turn.confirm names)) turn.line
  (run.run c).run k

def step (turn : Turn) (s : Catalog × Machine) : Catalog × Machine :=
  ((turn.answer s.1 s.2).1.2, (turn.answer s.1 s.2).2)

variable {turn : Turn} {e : Fault} {α : Type}

private theorem run_bind_eq {β : Type} {x : StateT Catalog (StateM Machine) α}
    {f : α → StateT Catalog (StateM Machine) β} {a : α} {d : Catalog} {k' : Machine}
    (h : (x.run c).run k = ((a, d), k')) : ((x >>= f).run c).run k = ((f a).run d).run k' := by
  rw [StateT.run_bind, StateT.run_bind, h]
  rfl

/-- The time is taken before and after the line is carried out. -/
private theorem answer_eq (turn : Turn) {r : Except Fault Outcome} {d : Catalog} {k' : Machine}
    (h : exec (runCommand (fun names => pure (turn.confirm names)) turn.line) c k.stopwatch.2 =
      ((r, d), k')) :
    (turn.answer c k).1.1.outcome = r ∧ turn.step (c, k) = (d, k'.stopwatch.2) := by
  have hwatch (c : Catalog) (k : Machine) :
      ((Host.stopwatch : StateT Catalog (StateM Machine) Nat).run c).run k =
          ((k.stopwatch.1, c), k.stopwatch.2) :=
    rfl
  have hrun : turn.answer c k = ((⟨r, .ofNanoseconds (k'.stopwatch.1 - k.stopwatch.1)⟩, d),
      k'.stopwatch.2) :=
    (run_bind_eq (hwatch c k)).trans <| (run_bind_eq h).trans <| run_bind_eq (hwatch d k')
  rw [step, hrun]
  exact ⟨rfl, rfl⟩

/-- A line that cannot be read does nothing. -/
theorem answer_of_error (h : Command.parse turn.line = .error e) (c : Catalog) (k : Machine) :
    (turn.answer c k).1.1.outcome = .error e ∧ (turn.step (c, k)).1 = c ∧
      (turn.step (c, k)).2.volume = k.volume := by
  have hparse : exec (liftM (Command.parse turn.line)) c k.stopwatch.2 =
      ((.error e, c), k.stopwatch.2) := by
    rw [exec_lift, h]
  obtain ⟨houtcome, hstep⟩ := answer_eq turn (exec_bind_error hparse)
  rw [hstep]
  exact ⟨houtcome, rfl, rfl⟩

/-- A line comes to what its command comes to. -/
theorem answer_of_exec (h : Command.parse turn.line = .ok command) {r : Except Fault Outcome}
    {d : Catalog} {k' : Machine}
    (hrun : exec (perform turn.confirm command) c k.stopwatch.2 = ((r, d), k')) :
    (turn.answer c k).1.1.outcome = r ∧ turn.step (c, k) = (d, k'.stopwatch.2) := by
  have hparse : exec (liftM (Command.parse turn.line)) c k.stopwatch.2 =
      ((.ok command, c), k.stopwatch.2) := by
    rw [exec_lift, h]
  exact answer_eq turn ((exec_bind_ok hparse).trans hrun)

/-- A line ends in what its command ends in. -/
theorem answer_of_ends (h : Command.parse turn.line = .ok command)
    {E : Fault → Catalog → Volume → Prop} {Q : Outcome → Catalog → Volume → Prop}
    (hends : Ends (fun e d k => E e d k.volume) (fun d k' => d = c ∧ k'.volume = k.volume)
      (perform turn.confirm command) fun o d k => Q o d k.volume) :
    match (turn.answer c k).1.1.outcome with
    | .ok o => Q o (turn.step (c, k)).1 (turn.step (c, k)).2.volume
    | .error e => E e (turn.step (c, k)).1 (turn.step (c, k)).2.volume := by
  obtain ⟨r, d, k', hrun, hr⟩ := hends c k.stopwatch.2 ⟨rfl, rfl⟩
  obtain ⟨houtcome, hstep⟩ := answer_of_exec h hrun
  rw [houtcome, hstep]
  cases r <;> exact hr

theorem step_of_ends (h : Command.parse turn.line = .ok command) {R : Catalog → Volume → Prop}
    (hends : Ends (fun _ d k => R d k.volume) (fun d k' => d = c ∧ k'.volume = k.volume)
      (perform turn.confirm command) fun _ d k => R d k.volume) :
    R (turn.step (c, k)).1 (turn.step (c, k)).2.volume := by
  have hr := answer_of_ends h hends
  split at hr <;> exact hr

/-- What the command of a line keeps, the line keeps. -/
theorem step_of_preserves {R : Catalog → Volume → Prop}
    (h : ∀ command, Command.parse turn.line = .ok command →
      Preserves (fun d k => R d k.volume) (perform turn.confirm command))
    (hck : R c k.volume) : R (turn.step (c, k)).1 (turn.step (c, k)).2.volume := by
  cases hparse : Command.parse turn.line with
  | error e =>
    obtain ⟨-, hc, hv⟩ := turn.answer_of_error hparse c k
    rw [hc, hv]
    exact hck
  | ok command =>
    refine step_of_ends hparse ((h command hparse).pre fun d k' hd => ?_)
    rw [hd.1, hd.2]
    exact hck

end Turn

def afterTurns (turns : List Turn) (s : Catalog × Machine) : Catalog × Machine :=
  turns.foldl (fun s turn => turn.step s) s

/-- What every line keeps of a catalog, all lines keep. -/
theorem afterTurns_of_step {J : Catalog → Prop}
    (hstep : ∀ c turn k, J c → J (Turn.step turn (c, k)).1) (hc : J c) (turns : List Turn)
    (k : Machine) : J (afterTurns turns (c, k)).1 := by
  induction turns generalizing c k with
  | nil => exact hc
  | cons turn turns ih => exact ih (hstep c turn k hc) (turn.step (c, k)).2

/-- The catalog of a shell that was opened and then given lines. Calls of the disk may have failed
at any time, and between two lines the machine may have become another. -/
inductive InSession : Catalog → Prop where
  | opened {directory : String} {make : Bool} {k k' : Machine} {c : Catalog}
    (hsound : k.volume.Sound)
      (h : outcome (openAt directory make) k = (.ok c, k')) : InSession c
  | answered {c : Catalog} (h : InSession c) (turn : Turn) (k : Machine) :
    InSession (turn.step (c, k)).1

namespace InSession

variable {turn : Turn}

theorem wellNamed (h : InSession c) : c.WellNamed := by
  induction h with
  | opened hsound h => exact wellNamed_of_openAt hsound h
  | answered _ turn k ih =>
    exact Turn.step_of_preserves (R := fun d _ => d.WellNamed)
      (fun command _ => preserves_perform stable_wellNamed turn.confirm command) ih

theorem after (h : InSession c) (turns : List Turn) (k : Machine) :
    InSession (afterTurns turns (c, k)).1 :=
  afterTurns_of_step (fun _ turn k h => h.answered turn k) h turns k

/-- What is asked is asked of the catalog in memory. -/
theorem step_of_reads
    (hreads : ∀ command, Command.parse turn.line = .ok command → command.reads = true) (c : Catalog)
    (k : Machine) :
    (turn.step (c, k)).1 = c ∧ (turn.step (c, k)).2.volume = k.volume :=
  Turn.step_of_preserves (R := fun d v => d = c ∧ v = k.volume)
    (fun command hparse => preserves_of_reads (hreads command hparse)) ⟨rfl, rfl⟩

theorem touchesOnly_step {command : Command} (h : InSession c) (k : Machine)
    (hparse : Command.parse turn.line = .ok command) :
    TouchesOnly (touched c command) c k.volume (turn.step (c, k)).1 (turn.step (c, k)).2.volume :=
  Turn.step_of_ends hparse (staysWithin_perform h.wellNamed command)

/-- A line that only asks, or is not understood, changes nothing. A line that writes to one table
leaves every other table as it was and where it was, and every other file. No line writes or removes
a file other than those of legal table names in the data directory. -/
theorem step_touches (h : InSession c) (k : Machine) (turn : Turn) :
    ((∀ command, Command.parse turn.line = .ok command → command.reads = true) →
      (turn.step (c, k)).1 = c ∧ (turn.step (c, k)).2.volume = k.volume) ∧
    (∀ command name, Command.parse turn.line = .ok command → command.target? = some name →
      TouchesOnly (· == name) c k.volume (turn.step (c, k)).1 (turn.step (c, k)).2.volume) ∧
    k.volume.TouchesOnly (turn.step (c, k)).2.volume (Volume.path c.directory)
      fun file => ∃ name, checkTableName name = .ok () ∧ file = tableFileName name := by
  refine ⟨fun hreads => step_of_reads hreads c k, fun command name hparse hname => ?_, ?_⟩
  · exact (h.touchesOnly_step k hparse).mono fun other hother =>
      beq_iff_eq.mpr ((touched_iff hname).mp hother)
  · cases hparse : Command.parse turn.line with
    | error e =>
      rw [(turn.answer_of_error hparse c k).2.2]
      exact .refl ..
    | ok command =>
      refine (h.touchesOnly_step k hparse).files.mono fun file hfile => ?_
      obtain ⟨name, -, hlegal, rfl⟩ := hfile
      exact ⟨name, hlegal, rfl⟩

end InSession

def twoTables : Catalog × Machine :=
  afterTurns [⟨"create 'a', 'f'", fun _ => true⟩, ⟨"create 'b', 'f'", fun _ => true⟩]
    (⟨"d", []⟩, opened.2)

theorem inSession_twoTables : InSession twoTables.1 :=
  (InSession.opened (k := blankMachine) List.nodup_nil opened_eq).after _ _

/-- The second group of the line is refused, and the first is done. -/
def halfPut : Turn := ⟨"put 'a', 'r', 'f:q', 'v', 'r', 'g:q', 'v'", fun _ => true⟩

theorem step_touches_halfPut :
    InSession twoTables.1 ∧ ((halfPut.step twoTables).1.tables.map (·.entries.length)) = [1, 0] ∧
      TouchesOnly (· == "a") twoTables.1 twoTables.2.volume (halfPut.step twoTables).1
        (halfPut.step twoTables).2.volume := by
  have hcommand : (Command.parse halfPut.line).toOption.bind Command.target? = some "a" := by
    decide +kernel
  have hentries : ((halfPut.step twoTables).1.tables.map (·.entries.length)) = [1, 0] := by
    decide +kernel
  refine ⟨inSession_twoTables, hentries, ?_⟩
  cases hparse : Command.parse halfPut.line with
  | error e =>
    rw [hparse] at hcommand
    cases hcommand
  | ok command =>
    rw [hparse] at hcommand
    exact (inSession_twoTables.step_touches twoTables.2 halfPut).2.1 command "a" hparse hcommand

end Shell

end WideColumn
