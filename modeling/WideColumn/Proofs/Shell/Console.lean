import Mathlib.Data.List.Forall2
import WideColumn.Proofs.Catalog.Run
import WideColumn.Proofs.Shell.Clocks
import WideColumn.Proofs.Table.Chronology
import WideColumn.Proofs.Text.Character

/-! # Lines given in advance and lines read

Lines that are given in advance are answered up to the first that fails or leaves, and lines that
are read up to the first that leaves. As far as both go they say the same and do the same, whatever
their clocks show. -/
namespace WideColumn.Shell
open WideColumn.Catalog WideColumn.Schema WideColumn.Text

/-- The same outcome; or listings of cells that are the same but for their times, or descriptions of
tables that are. -/
inductive Outcome.Alike : Outcome → Outcome → Prop
  | same (o : Outcome) : Alike o o
  | scanned {cells cells' : List Cell} (h : cells.map Cell.timeless = cells'.map Cell.timeless) :
    Alike (scanned cells) (scanned cells')
  | gotten {cells cells' : List Cell} (h : cells.map Cell.timeless = cells'.map Cell.timeless) :
    Alike (gotten cells) (gotten cells')
  | described {t t' : Table} (h : t.timeless = t'.timeless) :
    Alike (.description t.describe t.families.length) (.description t'.describe t'.families.length)

/-- The same fault, or outcomes that are the same but for times. The replies may have taken any
time. -/
def Reply.Alike (r r' : Reply) : Prop := Both Outcome.Alike r.outcome r'.outcome

namespace Agree

variable {α : Type} {x y : Work α} {f : α → Outcome}
  {confirm confirm' : List String → StateM Terminal Bool}

protected theorem outcome (f : α → Outcome) (h : Agree Eq x y) :
    Agree Outcome.Alike (do return f (← x)) (do return f (← y)) := by
  refine h.bind fun a b hab => .pure ?_
  rw [hab]
  exact .same _

protected theorem getVersions {row : String} {family qualifier : Option String} {versions : Nat}
    {t t' : Table} (h : t.timeless = t'.timeless) :
    Agree (fun cells cells' : List Cell => cells.map Cell.timeless = cells'.map Cell.timeless)
      (liftM (t.getVersions row family qualifier versions) : Work (List Cell))
      (liftM (t'.getVersions row family qualifier versions)) := by
  refine Agree.lift (Both.of_map_eq ?_)
  rw [← Table.getVersions_timeless, h, Table.getVersions_timeless]

protected theorem scan {t t' : Table} (h : t.timeless = t'.timeless) :
    Agree (fun c c' : Cursor => c.drain.1.map Cell.timeless = c'.drain.1.map Cell.timeless)
      (liftM t.scan : Work Cursor) (liftM t'.scan) := by
  refine Agree.lift (Both.of_map_eq ?_)
  rw [← Table.scan_timeless, h, Table.scan_timeless]

protected theorem count {t t' : Table} (h : t.timeless = t'.timeless) :
    Agree Eq (liftM t.count : Work UInt64) (liftM t'.count) := by
  rw [← t.count_timeless, h, t'.count_timeless]
  exact .lift (.refl _)

/-- No command but one that asks for a confirmation depends on who is asked. -/
protected theorem execute {command : Command} (h : ∀ pattern, command ≠ .dropAll pattern) :
    Agree Outcome.Alike (execute confirm command) (execute confirm' command) := by
  cases command with
  | create table families =>
    refine (Agree.mapM fun f _ => Agree.lift (Both.refl _)).bind fun fs fs' hfs => ?_
    rw [hfs]
    exact (Agree.createTable table fs').outcome _
  | list pattern => exact (Agree.ask_timeless fun c => c.list_timeless pattern).outcome _
  | disable table => exact (Agree.disable table).outcome _
  | enable table => exact (Agree.enable table).outcome _
  | isEnabled table => exact (Agree.ask_timeless (isEnabled_timeless · table)).outcome _
  | isDisabled table => exact (Agree.ask_timeless (isDisabled_timeless · table)).outcome _
  | alter table maps => exact (Agree.mapM fun pairs _ => Agree.alter table pairs).outcome _
  | drop table => exact (Agree.dropTable table).outcome _
  | dropAll pattern => exact absurd rfl (h pattern)
  | describe table => exact (Agree.table table).bind fun t t' ht => .pure (.described ht)
  | put table cells =>
    exact (Agree.forM fun w _ => (Agree.mutate Table.blind_put).discard).outcome _
  | get table row column versions =>
    refine (Agree.table table).bind fun t t' ht => ?_
    exact (Agree.getVersions ht).bind fun cells cells' hcells => .pure (.gotten hcells)
  | scan table =>
    refine (Agree.table table).bind fun t t' ht => ?_
    exact (Agree.scan ht).bind fun cursor cursor' hcells => .pure (.scanned hcells)
  | delete table row column => exact (Agree.mutate_ Table.timeless_delete).outcome _
  | deleteRow table row => exact (Agree.mutate Table.blind_deleteRow).outcome _
  | count table =>
    refine (Agree.table table).bind fun t t' ht => ?_
    exact (Agree.count ht).outcome fun n => .count n.toNat
  | truncate table => exact (Agree.truncate table).outcome _
  | help | exit | unknown | empty => exact .pure (.same _)

end Agree

section

variable {α β : Type} {x : StateT Catalog (StateM Terminal) α}
  {f : α → StateT Catalog (StateM Terminal) β} {c c' d : Catalog} {T T' U : Terminal} {r r' : Reply}
  {line line' : String} {confirm confirm' : List String → StateM Terminal Bool}

/-- What a session at a terminal comes to and leaves behind. -/
def driveAt (x : StateT Catalog (StateM Terminal) α) (c : Catalog)
    (T : Terminal) : (α × Catalog) × Terminal :=
  (x.run c).run T

theorem driveAt_bind {a : α} (h : driveAt x c T = ((a, d), U)) :
    driveAt (x >>= f) c T = driveAt (f a) d U := by
  rw [driveAt] at h
  rw [driveAt, StateT.run_bind, StateT.run_bind, h]
  rfl

theorem Agree.runCommand (confirm confirm' : List String → StateM Terminal Bool)
    (hline : Command.parse line = Command.parse line')
    (h : ∀ pattern, Command.parse line ≠ .ok (.dropAll pattern)) :
    Agree Outcome.Alike (runCommand confirm line) (runCommand confirm' line') := by
  rw [Shell.runCommand, Shell.runCommand, ← hline]
  cases hparse : Command.parse line with
  | error e => exact Agree.bind (R := fun _ _ => False) (.lift (.error e)) fun _ _ hab => hab.elim
  | ok command =>
    refine Agree.bind (R := fun a b => a = command ∧ b = command) (.lift (.ok ⟨rfl, rfl⟩))
      fun a b hab => ?_
    obtain ⟨rfl, rfl⟩ := hab
    exact .execute fun pattern heq => h pattern (hparse.trans (congrArg _ heq))

end

/-- A reply that ends the work given in advance. -/
def Reply.stops (r : Reply) : Bool := r.isError || r.exits

/-- There is a reply to each line up to the first reply of the kind, or to each line. The rest has
none. -/
inductive AnswersUntil (p : Reply → Bool) : List String → List Reply → List String → Prop
  | all : AnswersUntil p [] [] []
  | stop {line : String} {lines : List String} {r : Reply} (h : p r = true) :
    AnswersUntil p (line :: lines) [r] lines
  | go {line : String} {lines rest : List String} {r : Reply} {rs : List Reply} (h : p r = false)
    (hrest : AnswersUntil p lines rs rest) : AnswersUntil p (line :: lines) (r :: rs) rest

def lastIs (p : Reply → Bool) (rs : List Reply) : Bool := rs.getLast?.any p

theorem lastIs_cons {p : Reply → Bool} {r : Reply} {rs : List Reply} (h : p r = false) :
    lastIs p (r :: rs) = lastIs p rs := by
  cases rs with
  | nil => exact h
  | cons r' rs => rw [lastIs, lastIs, List.getLast?_cons_cons]

namespace AnswersUntil

variable {p : Reply → Bool} {lines rest : List String} {rs : List Reply}

theorem length_le (h : AnswersUntil p lines rs rest) : rs.length ≤ lines.length := by
  induction h with
  | all => exact Nat.le_refl _
  | stop _ => exact Nat.succ_le_succ (Nat.zero_le _)
  | go _ _ ih => exact Nat.succ_le_succ ih

end AnswersUntil

section

variable {c c' d e : Catalog} {T T' : Terminal} {k m : Machine} {r : Reply} {rs : List Reply}
  {line : String} {lines rest : List String}

/-- How a reply to a line given in advance appears. -/
def inAdvance (r : Reply) : Output := if r.isError then .failure r else .reply r

/-- Lines given in advance are answered by some replies, and lead to a catalog and a machine. Other
lines behind those that were answered would not have mattered. -/
structure AnsweredInAdvance (lines : List String) (c : Catalog) (T : Terminal)
  (replies : List Reply) (d : Catalog) (k : Machine) : Prop where
  run : driveAt (runAll lines) c T = ((if lastIs Reply.isError replies then 1 else 0, d),
    { T with machine := k, shown := T.shown ++ replies.map inAdvance })
  others : lastIs Reply.stops replies = true → ∀ others,
    driveAt (runAll (lines.take replies.length ++ others)) c T = driveAt (runAll lines) c T

theorem driveAt_emit (o : Output) (c : Catalog) (T : Terminal) :
    driveAt (Console.emit o) c T = (((), c), { T with shown := T.shown ++ [o] }) := rfl

theorem driveAt_runAll_cons (lines : List String)
    (h : driveAt (runLine (fun _ => pure true) line) c T = ((r, d), { T with machine := k })) :
    driveAt (runAll (line :: lines)) c T =
      if r.stops then
        ((if r.isError then 1 else 0, d),
          { T with machine := k, shown := T.shown ++ [inAdvance r] })
      else driveAt (runAll lines) d { T with machine := k, shown := T.shown ++ [inAdvance r] } := by
  rw [runAll, driveAt_bind h, Reply.stops, inAdvance]
  cases r.isError with
  | true => rfl
  | false =>
    simp only [Bool.false_or, Bool.false_eq_true, if_false]
    rw [driveAt_bind (driveAt_emit _ d _)]
    cases r.exits <;> rfl

namespace AnsweredInAdvance

theorem nil : AnsweredInAdvance [] c T [] c T.machine where
  run := by
    rw [List.map_nil, List.append_nil]
    rfl
  others h := absurd h Bool.false_ne_true

theorem stop
    (h : driveAt (runLine (fun _ => pure true) line) c T = ((r, d), { T with machine := k }))
    (hstops : r.stops = true) : AnsweredInAdvance (line :: lines) c T [r] d k := by
  have hall (lines : List String) := (driveAt_runAll_cons lines h).trans (if_pos hstops)
  exact ⟨hall lines, fun _ others => (hall others).trans (hall lines).symm⟩

theorem go (h : driveAt (runLine (fun _ => pure true) line) c T = ((r, d), { T with machine := k }))
    (hgoes : r.stops = false)
    (hrest : AnsweredInAdvance lines d { T with machine := k, shown := T.shown ++ [inAdvance r] }
      rs e m) :
    AnsweredInAdvance (line :: lines) c T (r :: rs) e m := by
  have hall (lines : List String) :=
    (driveAt_runAll_cons lines h).trans (if_neg (Bool.eq_false_iff.mp hgoes))
  refine ⟨?_, fun hlast others => ?_⟩
  · rw [hall, hrest.run, lastIs_cons (Bool.or_eq_false_iff.mp hgoes).1, List.map_cons,
      List.append_assoc]
    rfl
  · rw [lastIs_cons hgoes] at hlast
    exact (hall _).trans ((hrest.others hlast others).trans (hall lines).symm)

end AnsweredInAdvance

/-- In as many turns the shell gives some replies and comes to a catalog, a machine and the rest of
the input. From there it goes on, unless the last of the replies has left it. -/
def Dialogue (number : Nat) (c : Catalog) (T : Terminal) (replies : List Reply) (rest : List String)
    (d : Catalog) (k : Machine) : Prop :=
  ∀ turns, driveAt (shellTurns number (replies.length + turns)) c T =
    if lastIs Reply.exits replies then (((), d), ⟨k, rest, T.shown ++ replies.map .reply⟩)
    else driveAt (shellTurns (number + replies.length) turns) d
      ⟨k, rest, T.shown ++ replies.map .reply⟩

theorem driveAt_shellTurns_cons (number turns : Nat) (hinput : T.input = line :: lines)
    (h : driveAt (runLine askToDrop (trimmed line)) c { T with input := lines } =
      ((r, d), { T with input := lines, machine := k })) :
    driveAt (shellTurns number (turns + 1)) c T =
      if r.exits then (((), d), ⟨k, lines, T.shown ++ [.reply r]⟩)
      else driveAt (shellTurns (number + 1) turns) d ⟨k, lines, T.shown ++ [.reply r]⟩ := by
  have hread : driveAt (Console.readLine (shellPrompt number)) c T =
      ((some line, c), { T with input := lines }) := by
    obtain ⟨machine, input, shown⟩ := T
    obtain rfl : input = line :: lines := hinput
    rfl
  rw [shellTurns, driveAt_bind hread]
  dsimp only
  rw [driveAt_bind h, driveAt_bind (driveAt_emit _ d _)]
  cases r.exits <;> rfl

namespace Dialogue

variable {number : Nat}

theorem nil : Dialogue number c T [] T.input c T.machine := by
  intro turns
  rw [List.map_nil, List.append_nil, List.length_nil, Nat.zero_add]
  rfl

theorem one (hinput : T.input = line :: lines)
    (h : driveAt (runLine askToDrop (trimmed line)) c { T with input := lines } =
      ((r, d), { T with input := lines, machine := k })) :
    Dialogue number c T [r] lines d k := by
  intro turns
  rw [List.length_singleton, Nat.add_comm 1]
  exact driveAt_shellTurns_cons number turns hinput h

theorem go (hinput : T.input = line :: lines)
    (h : driveAt (runLine askToDrop (trimmed line)) c { T with input := lines } =
      ((r, d), { T with input := lines, machine := k }))
    (hgoes : r.exits = false)
    (hrest : Dialogue (number + 1) d ⟨k, lines, T.shown ++ [.reply r]⟩ rs rest e m) :
    Dialogue number c T (r :: rs) rest e m := by
  intro turns
  rw [List.length_cons, Nat.add_right_comm, driveAt_shellTurns_cons number _ hinput h, hgoes,
    if_neg Bool.false_ne_true, hrest, lastIs_cons hgoes, List.map_cons, List.append_assoc,
      Nat.add_assoc,
    Nat.add_comm 1]
  rfl

end Dialogue

end

/-- The command waits for a confirmation. -/
def asks : Command → Bool
  | .dropAll _ => true
  | _ => false

end WideColumn.Shell
