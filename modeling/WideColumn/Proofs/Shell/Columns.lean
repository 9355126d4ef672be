import WideColumn.Proofs.Catalog.Settled
import WideColumn.Proofs.Command.Line
import WideColumn.Proofs.Command.Parser
import WideColumn.Proofs.Shell.Footprint
import WideColumn.Proofs.Table.Addressing

/-! # Listed cells can be addressed

In a session that began without tables, what a listing shows of a cell can be typed in again. Files
that were there before the session are not held to the rules of columns, so the directory has to be
empty at first. -/
namespace WideColumn

namespace Catalog

/-- What is done to one table leaves all columns readable, as long as it puts to no empty
qualifier. -/
theorem stableFor_addressable (name : String) :
    StableFor (· ≠ "") (fun c _ => ∀ t ∈ c.tables, t.Addressable) name :=
  stableFor_forall (fun _ _ _ _ _ hputs ht hrun => ht.run hputs hrun)
    (fun _ _ _ _ hnew => Table.addressable_blank hnew) name

end Catalog

namespace Shell
open WideColumn.Catalog

variable {c : Catalog} {k : Machine} {turn : Turn} {directory name row column : String} {t : Table}

/-- A line that reads a column shows what is at the text of it. -/
theorem outcome_of_get (ht : c.find? name = some t)
    (hline : Command.Reads turn.line .get [.string name, .string row, .string column])
    (k : Machine) :
    (turn.answer c k).1.1.outcome = gotten <$> t.getAt row column := by
  have hparse : Command.parse turn.line = (fun parsed => .get name row (some parsed) 1) <$>
      Column.parse column := by
    rw [hline.parse_eq, Command.ofArguments, Command.ofGet_request, Command.getRequest]
    cases Column.parse column <;> rfl
  rw [Table.getAt]
  cases hcolumn : Column.parse column with
  | error e =>
    rw [hcolumn] at hparse
    exact (turn.answer_of_error hparse c k).1
  | ok parsed =>
    rw [hcolumn] at hparse
    have hrun : exec (perform turn.confirm (.get name row (some parsed) 1)) c k.stopwatch.2 =
        ((gotten <$> t.get row (some parsed.family) parsed.qualifier, c), k.stopwatch.2) := by
      rw [perform, execute, exec_bind_ok (exec_table ht k.stopwatch.2)]
      cases hget : t.get row (some parsed.family) parsed.qualifier with
      | error e => exact exec_bind_error ((exec_lift _ c k.stopwatch.2).trans (by rw [← hget]; rfl))
      | ok cells => exact exec_bind_ok ((exec_lift _ c k.stopwatch.2).trans (by rw [← hget]; rfl))
    exact (turn.answer_of_exec hparse hrun).1

/-- On a disk that does not fail, a line that removes a cell takes away what is at the text of its
column. -/
theorem answer_of_delete (h : Settled directory c k) (ht : c.find? name = some t)
    (hline : Command.Reads turn.line .delete [.string name, .string row, .string column]) :
    ∃ r, (∀ next, t.deleteAt r row column = .ok next →
        (turn.answer c k).1.1.outcome = .ok .done ∧ (turn.step (c, k)).1 = c.replace name next) ∧
      ∀ e, t.deleteAt r row column = .error e →
        (turn.answer c k).1.1.outcome = .error e ∧ (turn.step (c, k)).1 = c := by
  have hparse := hline.parse_eq.trans Command.ofArguments_delete
  simp only [Table.deleteAt]
  cases hcolumn : CellColumn.parse column with
  | error e =>
    rw [hcolumn] at hparse
    obtain ⟨houtcome, hstep, -⟩ := turn.answer_of_error hparse c k
    refine ⟨⟨.epoch, .epoch⟩, fun next hok => ?_, fun e' herr => ?_⟩
    · cases hok
    · cases herr
      exact ⟨houtcome, hstep⟩
  | ok parsed =>
    rw [hcolumn] at hparse
    have hwatch : Settled directory c k.stopwatch.2 := h
    obtain ⟨r, k', hmutate⟩ :=
      hwatch.exec_mutate_ (fun r t => t.delete r row parsed.family parsed.qualifier) ht
      fun r next hok => by
        obtain ⟨-, -, -, rfl⟩ := Table.delete_eq_ok.mp hok
        rfl
    have hanswer {result : Except Fault Unit} {d : Catalog} (hrun : exec (mutate_ name fun r t =>
        t.delete r row parsed.family parsed.qualifier) c k.stopwatch.2 = ((result, d), k')) :
        (turn.answer c k).1.1.outcome = (fun _ => .done) <$> result ∧ (turn.step (c, k)).1 = d := by
      have hcommand : exec (perform turn.confirm (.delete name row parsed)) c k.stopwatch.2 =
          (((fun _ => .done) <$> result, d), k') := by
        cases result with
        | ok _ => exact exec_bind_ok hrun
        | error e => exact exec_bind_error hrun
      obtain ⟨houtcome, hstep⟩ := turn.answer_of_exec hparse hcommand
      exact ⟨houtcome, by rw [hstep]⟩
    refine ⟨r, fun next hok => ?_, fun e herr => ?_⟩
    · simp only [show t.delete r row parsed.family parsed.qualifier = .ok next from hok] at hmutate
      exact hanswer hmutate
    · simp only [show t.delete r row parsed.family parsed.qualifier = .error e from herr] at hmutate
      exact hanswer hmutate

/-- The catalog of a shell that was opened on an empty directory, or on one that was not there, and
then given lines. Calls of the disk may have failed at any time, and between two lines the machine
may have become another. -/
inductive SinceEmpty : Catalog → Prop where
  | opened {directory : String} {make : Bool} {k k' : Machine} {c : Catalog}
      (hempty : k.volume.children (Volume.path directory) = [])
      (h : outcome (openAt directory make) k = (.ok c, k')) : SinceEmpty c
  | answered {c : Catalog} (h : SinceEmpty c) (turn : Turn) (k : Machine) :
    SinceEmpty (turn.step (c, k)).1

/-- No line puts to an empty qualifier, since it could not be read. -/
theorem preserves_addressable {line : String} {command : Command}
    (hparse : Command.parse line = .ok command) (confirm : List String → Bool) :
    Preserves (fun c _ => ∀ t ∈ c.tables, t.Addressable) (perform confirm command) := by
  rcases command.reads_or_target? with hreads | ⟨name, hname⟩ | ⟨pattern, rfl⟩
  · exact preserves_of_reads hreads
  · refine preserves_of_putsTo (stableFor_addressable name) hname fun cells hput w hw hempty => ?_
    subst hput
    have hcolumn : Column.WellFormed ⟨w.column.family, some w.column.qualifier⟩ :=
      Command.wellFormed_of_parse hparse w hw
    exact hcolumn.qualifier_ne (congrArg some hempty)
  · exact (preserves_dropAll (fun name => (stableFor_addressable name).dropTable) pattern
        confirm).bind fun _ =>
      Preserves.pure _

namespace SinceEmpty

theorem addressable (h : SinceEmpty c) : ∀ t ∈ c.tables, t.Addressable := by
  induction h with
  | opened hempty h =>
    rw [tables_of_openAt hempty h]
    exact List.forall_mem_nil _
  | answered _ turn k ih =>
    exact Turn.step_of_preserves (R := fun d _ => ∀ t ∈ d.tables, t.Addressable)
      (fun _ hparse => preserves_addressable hparse turn.confirm) ih

theorem after (h : SinceEmpty c) (turns : List Turn) (k : Machine) :
    SinceEmpty (afterTurns turns (c, k)).1 :=
  afterTurns_of_step (fun _ turn k h => h.answered turn k) h turns k

/-- Whatever lines a session has had since it was opened on an empty directory, the row and the
column that a scan or a read shows of a cell lead to that cell and to no other: the column is read
as its family and its qualifier, a read by them shows the latest version, and a removal by them
takes its history and nothing else. No two cells that differ in their family or their qualifier have
one column. -/
theorem addresses (h : SinceEmpty c) (ht : c.find? name = some t) :
    (∀ cell, t.Lists cell → t.Addresses cell.row cell.column cell) ∧
      ∀ a b : Cell, (t.history? a.row a.family a.qualifier).isSome = true →
        (t.history? b.row b.family b.qualifier).isSome = true → a.column = b.column →
          a.family = b.family ∧ a.qualifier = b.qualifier := by
  have hcolumns := h.addressable t (mem_of_find? ht).1
  exact ⟨fun cell hcell => hcolumns.addresses_of_lists hcell,
    fun a b ha hb heq => hcolumns.column_injective ha hb heq⟩

end SinceEmpty

def withColon : Catalog × Machine :=
  afterTurns [⟨"create 't', 'f', 'g'", fun _ => true⟩,
    ⟨"put 't', 'r', 'f:a:b', 'v', 'r', 'g:a', 'v'", fun _ => true⟩,
    ⟨"put 't', 'r', 'f:a:b', 'w'", fun _ => true⟩] (⟨"d", []⟩, opened.2)

theorem addresses_withColon :
    SinceEmpty withColon.1 ∧ ∃ t cell, withColon.1.find? "t" = some t ∧ t.Lists cell ∧
    cell.column = "f:a:b" ∧ t.Addresses cell.row cell.column cell := by
  have hsession : SinceEmpty withColon.1 :=
    (SinceEmpty.opened (k := blankMachine) rfl opened_eq).after _ _
  have hlisted : (withColon.1.find? "t").bind (fun t => (t.getVersions "r" none none 2).toOption.map
      fun cells => cells.map Cell.column) = some ["f:a:b", "f:a:b", "g:a"] := by decide +kernel
  obtain ⟨t, ht, hlisted⟩ := Option.bind_eq_some_iff.mp hlisted
  obtain ⟨cells, hcells, hcolumns⟩ := Option.map_eq_some_iff.mp hlisted
  have hmem : "f:a:b" ∈ cells.map Cell.column := hcolumns ▸ List.mem_cons_self
  obtain ⟨cell, hcell, hcolumn⟩ := List.mem_map.mp hmem
  have hlists : t.Lists cell := .gotten (eq_ok_of_toOption hcells) hcell
  exact ⟨hsession, t, cell, ht, hlists, hcolumn, (hsession.addresses ht).1 cell hlists⟩

end Shell

end WideColumn
