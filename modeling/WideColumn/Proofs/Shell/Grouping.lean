import WideColumn.Proofs.Catalog.Alteration
import WideColumn.Proofs.Catalog.Stopwatch
import WideColumn.Proofs.Command.Groups
import WideColumn.Proofs.Shell.Footprint

/-! # One line with many groups, many lines with one

The groups of a put and the maps of an alteration are carried out one after the other, each with its
own write to the file of the table. So the line does what the lines with one group each do, up to
the first of them that fails. -/
namespace WideColumn

namespace Catalog

variable {α β γ : Type} {c d : Catalog} {k k' : Machine} {v : Volume} {name : String}

theorem exec_map {x : Program α} {r : Except Fault α} (f : α → β) (h : exec x c k = ((r, d), k')) :
    exec (f <$> x) c k = ((f <$> r, d), k') := by
  rw [map_eq_pure_bind]
  cases r with
  | ok a => exact exec_bind_ok h
  | error e => exact exec_bind_error h

theorem forM_discard (f : α → Program β) (l : List α) :
    (l.forM fun a => discard (f a)) = (fun _ => ()) <$> l.mapM f := by
  induction l with
  | nil =>
    rw [List.mapM_nil, map_pure]
    rfl
  | cons a l ih =>
    have hdiscard : discard (f a) = (fun _ => ()) <$> f a := by
      rw [Functor.discard, LawfulFunctor.map_const]
      rfl
    change (discard (f a) >>= fun _ => l.forM fun a => discard (f a)) = _
    rw [ih, hdiscard, List.mapM_cons]
    simp only [map_eq_pure_bind, bind_assoc, pure_bind]

/-- What a program leaves that was refused: nothing has changed in memory, and nothing on the disk
unless the disk failed. -/
abbrev Undone (c : Catalog) (v : Volume) : Fault → Catalog → Machine → Prop :=
  fun e d k => d = c ∧ (k.volume = v ∨ ∃ detail, e = .disk detail)

theorem ends_mutate_undone {op : Readings → Table → Except Fault (α × Table)} (h : c.WellNamed)
    (hop : IsProper op) :
    Ends (Undone c v) (fun d k => d = c ∧ k.volume = v) (mutate name op) fun _ _ _ => True := by
  refine ((ends_mutate_exact name h hop).weaken fun e d k he => ?_).post fun _ _ _ _ => trivial
  obtain ⟨hd, ⟨hdisk, -⟩ | ⟨hv, -⟩⟩ := he
  · exact ⟨hd, .inr hdisk⟩
  · exact ⟨hd, .inl hv⟩

theorem ends_alter_undone (h : c.WellNamed) (pairs : Schema.Properties) :
    Ends (Undone c v) (fun d k => d = c ∧ k.volume = v) (alter name pairs) fun _ _ _ => True := by
  intro d k hd
  obtain ⟨rfl, rfl⟩ := hd
  have hends := (ends_alter_exact (k := k) h name pairs).weaken (E := Undone d k.volume)
    fun e c' k' he => ?_
  · exact hends.post (fun _ _ _ _ => trivial) d k ⟨rfl, rfl⟩
  · obtain ⟨hd, ⟨hdisk, -⟩ | ⟨hv, -⟩⟩ := he
    · exact ⟨hd, .inr hdisk⟩
    · exact ⟨hd, .inl hv⟩

end Catalog

namespace Shell
open WideColumn.Catalog WideColumn.Schema

variable {β γ : Type} {c : Catalog} {k : Machine} {turn : Turn} {turns : List Turn}
  {s s' : Catalog × Machine} {e : Fault}

private theorem exists_of_forall₂ {α : Type} {R : α → β → Prop} {l : List α} {l' : List β}
    (h : List.Forall₂ R l l') {a : α} (ha : a ∈ l) : ∃ b, R a b := by
  induction h with
  | nil => cases ha
  | cons hab _ ih =>
    rcases List.mem_cons.mp ha with rfl | ha
    · exact ⟨_, hab⟩
    · exact ih ha

/-- Carry out lines up to the first that fails. -/
def untilFault : List Turn → Catalog × Machine → Except Fault (List Outcome) × Catalog × Machine
  | [], s => (.ok [], s)
  | turn :: turns, s =>
    match (turn.answer s.1 s.2).1.1.outcome with
    | .error e => (.error e, turn.step s)
    | .ok outcome =>
      let (outcomes, s) := untilFault turns (turn.step s)
      ((outcome :: ·) <$> outcomes, s)

theorem untilFault_cons_error (h : (turn.answer s.1 s.2).1.1.outcome = .error e)
    (turns : List Turn) :
    untilFault (turn :: turns) s = (.error e, turn.step s) := by
  rw [untilFault, h]

theorem untilFault_cons_ok {outcome : Outcome} (h : (turn.answer s.1 s.2).1.1.outcome = .ok outcome)
    (turns : List Turn) : untilFault (turn :: turns) s =
      ((outcome :: ·) <$> (untilFault turns (turn.step s)).1,
        (untilFault turns (turn.step s)).2) := by
  rw [untilFault, h]

/-- A fault is that of a line before which all lines went through. -/
theorem exists_of_untilFault (h : untilFault turns s = (.error e, s')) :
    ∃ before failing after outcomes, turns = before ++ failing :: after ∧
      untilFault before s = (.ok outcomes, afterTurns before s) ∧
      (failing.answer (afterTurns before s).1 (afterTurns before s).2).1.1.outcome = .error e ∧
      s' = failing.step (afterTurns before s) := by
  induction turns generalizing s with
  | nil => cases h
  | cons turn turns ih =>
    cases hanswer : (turn.answer s.1 s.2).1.1.outcome with
    | error e' =>
      rw [untilFault_cons_error hanswer] at h
      cases h
      exact ⟨[], turn, turns, [], rfl, rfl, hanswer, rfl⟩
    | ok outcome =>
      rw [untilFault_cons_ok hanswer] at h
      have hrest : untilFault turns (turn.step s) = (.error e, s') := by
        cases hr : (untilFault turns (turn.step s)).1 with
        | ok outcomes =>
          rw [hr] at h
          cases h
        | error e' =>
          rw [hr] at h
          exact Prod.ext (hr.trans (Prod.mk.inj h).1) (Prod.mk.inj h).2
      obtain ⟨before, failing, after, outcomes, rfl, hbefore, hfailing, hs'⟩ := ih hrest
      refine ⟨turn :: before, failing, after, outcome :: outcomes, rfl, ?_, hfailing, hs'⟩
      rw [untilFault_cons_ok hanswer, hbefore]
      rfl

/-- The line is read as a command that comes to a program. -/
def Turn.Performs (turn : Turn) (p : Program Outcome) : Prop :=
  ∃ command, Command.parse turn.line = .ok command ∧ perform turn.confirm command = p

/-- The stopwatch is read twice, and the program does not see it. -/
theorem Turn.Performs.answer {p : Program Outcome} (h : turn.Performs p) (hp : Catalog.Unwatched p)
    (c : Catalog) (k : Machine) : (turn.answer c k).1.1.outcome = (exec p c k).1.1 ∧
      turn.step (c, k) = ((exec p c k).1.2, (exec p c k).2.lookedAt (k.looks + 2)) := by
  obtain ⟨command, hparse, rfl⟩ := h
  have hrun : exec (perform turn.confirm command) c k.stopwatch.2 = _ := hp c k (k.looks + 1)
  exact turn.answer_of_exec hparse hrun

/-- Lines that carry out a program for one item each do together what the programs do in a row. -/
theorem untilFault_of_performs {g : β → Program γ} {single : γ → Outcome}
    (hg : ∀ b, Catalog.Unwatched (g b)) {items : List β}
    (h : List.Forall₂ (fun turn b => Turn.Performs turn (single <$> g b)) turns items) (c : Catalog)
    (k : Machine) :
    ∃ n, untilFault turns (c, k) = (List.map single <$> (exec (items.mapM g) c k).1.1,
      (exec (items.mapM g) c k).1.2, (exec (items.mapM g) c k).2.lookedAt n) := by
  induction h generalizing c k with
  | nil => exact ⟨k.looks, rfl⟩
  | @cons turn b turns items hturn _ ih =>
    obtain ⟨houtcome, hstep⟩ := hturn.answer ((hg b).map single) c k
    obtain ⟨r, d, k', hrun⟩ : ∃ r d k', exec (g b) c k = ((r, d), k') := ⟨_, _, _, rfl⟩
    rw [exec_map single hrun] at houtcome hstep
    rw [List.mapM_cons]
    cases r with
    | error e =>
      rw [untilFault_cons_error (s := (c, k)) houtcome, hstep, exec_bind_error hrun]
      exact ⟨_, rfl⟩
    | ok a =>
      -- the lines after the first find the machine with its stopwatch read, and the programs do not
      -- see that
      obtain ⟨n, hrest⟩ := ih d (k'.lookedAt (k.looks + 2))
      obtain ⟨r, d', k'', hitems⟩ : ∃ r d' k'', exec (items.mapM g) d k' = ((r, d'), k'') :=
        ⟨_, _, _, rfl⟩
      have hmap := exec_map (a :: ·) hitems
      rw [map_eq_pure_bind] at hmap
      rw [(Unwatched.mapM hg items) d k', hitems] at hrest
      rw [untilFault_cons_ok (s := (c, k)) houtcome, hstep, hrest, exec_bind_ok hrun, hmap]
      refine ⟨n, ?_⟩
      cases r <;> rfl

/-- The outcomes of lines with one group each as the outcome of a line with all of them: a put has
nothing to show, and an alteration shows the alterations of all maps. -/
def joined (keyword : Keyword) (outcomes : List Outcome) : Outcome :=
  match keyword with
  | .alter => .altered (outcomes.flatMap fun
    | .altered changes => changes
    | _ => [])
  | _ => .done

/-- After some lines that went through, one failed, and left nothing in memory or on the disk. What
a failed call of the disk may have left is another matter. -/
structure StopsAfter (before turns : List Turn) (e : Fault) (s s' : Catalog × Machine) : Prop where
  split : ∃ failing after, turns = before ++ failing :: after ∧
    (failing.answer (afterTurns before s).1 (afterTurns before s).2).1.1.outcome = .error e
  through : ∃ outcomes, untilFault before s = (.ok outcomes, afterTurns before s)
  catalog : s'.1 = (afterTurns before s).1
  volume : s'.2.volume = (afterTurns before s).2.volume ∨ ∃ detail, e = .disk detail

/-- A line does what some lines do up to the first of them that fails. -/
structure DoesAll (keyword : Keyword) (turn : Turn) (turns : List Turn) (c : Catalog)
  (k : Machine) : Prop where
  outcome : (turn.answer c k).1.1.outcome = joined keyword <$> (untilFault turns (c, k)).1
  catalog : (turn.step (c, k)).1 = (untilFault turns (c, k)).2.1
  /-- Only the stopwatch was read less often. -/
  machine : ∃ n, (turn.step (c, k)).2 = (untilFault turns (c, k)).2.2.lookedAt n
  stops : ∀ e, (turn.answer c k).1.1.outcome = .error e → ∃ before,
    StopsAfter before turns e (c, k) (turn.step (c, k))
  settled : ∀ directory, Settled directory c k →
    Settled directory (turn.step (c, k)).1 (turn.step (c, k)).2

/-- A command carries out a program for one item after the other, and the groups of a line are read
as commands for one item each. -/
structure Sequential (keyword : Keyword) (table : String) (groups : List (List Argument))
  (command : Command) (items : List β) (g : β → Program γ) (single : γ → Outcome) : Prop where
  unwatched : ∀ b, Catalog.Unwatched (g b)
  undone : ∀ b (c : Catalog) (v : Volume), c.WellNamed →
    Ends (Undone c v) (fun d k => d = c ∧ k.volume = v) (g b) fun _ _ _ => True
  whole : ∀ confirm,
    perform confirm command = (fun as => joined keyword (as.map single)) <$> items.mapM g
  parts : List.Forall₂ (fun args b => ∃ one, Command.ofArguments (.string table :: args) keyword =
    .ok one ∧
    ∀ confirm, perform confirm one = single <$> g b) groups items

/-- Lines with one group each carry out the program for one item each. -/
theorem forall₂_performs {keyword : Keyword} {table : String} {groups : List (List Argument)}
    {items : List β} {p : β → Program Outcome}
    (hparts : List.Forall₂ (fun args b => ∃ one,
      Command.ofArguments (.string table :: args) keyword = .ok one ∧
      ∀ confirm, perform confirm one = p b) groups items)
    (hlines : List.Forall₂ (fun line args => Command.Reads line keyword (.string table :: args))
      (turns.map (·.line)) groups) :
    List.Forall₂ (fun turn b => Turn.Performs turn (p b)) turns items := by
  rw [List.forall₂_map_left_iff] at hlines
  induction hlines generalizing items with
  | nil =>
    cases hparts
    exact .nil
  | @cons turn args turns groups hline _ ih =>
    cases hparts with
    | cons hpart hparts =>
      obtain ⟨one, hone, hperform⟩ := hpart
      exact .cons ⟨one, hline.parse_eq.trans hone, hperform _⟩ (ih hparts)

theorem sequential_put {table : String} {groups : List (List Argument)} {command : Command}
    (hsize : ∀ g ∈ groups, g.length = 3)
    (h : Command.ofArguments (.string table :: groups.flatten) .put = .ok command) :
    ∃ cells : List CellWrite, Sequential .put table groups command cells
      (fun w => mutate table fun r t => t.put r w.row w.column.family w.column.qualifier w.value)
        fun _ => .done := by
  obtain ⟨cells, rfl, hparts⟩ := Command.forall₂_of_put hsize h
  have hperform (confirm : List String → Bool) (cells : List CellWrite) :
    perform confirm (.put table cells) = (fun _ => .done) <$> cells.mapM fun w =>
        mutate table fun r t => t.put r w.row w.column.family w.column.qualifier w.value := by
    rw [perform, execute, forM_discard]
    simp only [map_eq_pure_bind, bind_assoc, pure_bind]
  have hputs (w : CellWrite) :
      PutsOnly (fun _ => True) fun r t =>
        t.put r w.row w.column.family w.column.qualifier w.value := putsOnly_put trivial
  refine ⟨cells, fun w => .mutate _, fun w c v hc => ends_mutate_undone hc (hputs w).isProper,
    (hperform · cells), ?_⟩
  refine hparts.imp fun g w hg => ⟨_, hg, fun confirm => ?_⟩
  rw [hperform, List.mapM_cons, List.mapM_nil]
  simp only [map_eq_pure_bind, bind_assoc, pure_bind]

theorem sequential_alter {table : String} {groups : List (List Argument)} {command : Command}
    (hsize : ∀ g ∈ groups, g.length = 1)
    (h : Command.ofArguments (.string table :: groups.flatten) .alter = .ok command) :
    ∃ maps, Sequential .alter table groups command maps (alter table) fun a => .altered [a] := by
  obtain ⟨maps, rfl, hparts⟩ := Command.forall₂_of_alter hsize h
  have hperform (confirm : List String → Bool) (maps : List Properties) :
    perform confirm (.alter table maps) =
      Outcome.altered <$> maps.mapM (alter table) := (map_eq_pure_bind ..).symm
  refine ⟨maps, fun m => .alter m, fun m c v hc => ends_alter_undone hc m, fun confirm => ?_, ?_⟩
  · rw [hperform]
    refine congrArg (· <$> maps.mapM (alter table)) (funext fun as => ?_)
    rw [joined, List.flatMap_map, List.flatMap_singleton']
  · refine hparts.imp fun g m hg => ⟨_, hg, fun confirm => ?_⟩
    rw [hperform, List.mapM_cons, List.mapM_nil]
    simp only [map_eq_pure_bind, bind_assoc, pure_bind]

namespace Sequential

variable {keyword : Keyword} {table : String} {groups : List (List Argument)} {command : Command}
  {items : List β} {g : β → Program γ} {single : γ → Outcome}

/-- A line that fails has left nothing. -/
theorem undone_step (h : Sequential keyword table groups command items g single) (hc : c.WellNamed)
    {b : β} (hturn : turn.Performs (single <$> g b))
    (hfault : (turn.answer c k).1.1.outcome = .error e) :
    (turn.step (c, k)).1 = c ∧
    ((turn.step (c, k)).2.volume = k.volume ∨ ∃ detail, e = .disk detail) := by
  obtain ⟨one, hparse, hperform⟩ := hturn
  have hends : Ends (fun e d k' => d = c ∧ (k'.volume = k.volume ∨ ∃ detail, e = .disk detail))
      (fun d k' => d = c ∧ k'.volume = k.volume) (perform turn.confirm one) fun _ _ _ => True := by
    rw [hperform, map_eq_pure_bind]
    exact Ends.bind (h.undone b c k.volume hc) fun _ => Ends.pure fun _ _ h => h
  have hanswer := Turn.answer_of_ends
    (E := fun e d v => d = c ∧ (v = k.volume ∨ ∃ detail, e = .disk detail))
    (Q := fun _ _ _ => True) hparse hends
  rw [hfault] at hanswer
  exact hanswer

/-- The line at which the lines stop has left nothing. -/
theorem exists_stopsAfter (h : Sequential keyword table groups command items g single)
    (hsession : InSession c)
    (hturns : List.Forall₂ (fun turn b => Turn.Performs turn (single <$> g b)) turns items)
    (huntil : untilFault turns (c, k) = (.error e, s)) :
    ∃ before, StopsAfter before turns e (c, k) s := by
  obtain ⟨before, failing, after, outcomes, hsplit, hbefore, hfailing, rfl⟩ :=
    exists_of_untilFault huntil
  obtain ⟨b, hb⟩ := exists_of_forall₂ hturns (a := failing) (by simp [hsplit])
  obtain ⟨hcatalog, hvolume⟩ := h.undone_step (hsession.after before k).wellNamed hb hfailing
  exact ⟨before, ⟨failing, after, hsplit, hfailing⟩, ⟨outcomes, hbefore⟩, hcatalog, hvolume⟩

theorem doesAll (h : Sequential keyword table groups command items g single)
    (hsession : InSession c) (k : Machine) (hparse : Command.parse turn.line = .ok command)
    (hlines : List.Forall₂ (fun line args => Command.Reads line keyword (.string table :: args))
      (turns.map (·.line)) groups) : DoesAll keyword turn turns c k := by
  have hturns := forall₂_performs h.parts hlines
  have hwhole : turn.Performs ((fun as => joined keyword (as.map single)) <$> items.mapM g) :=
    ⟨command, hparse, h.whole _⟩
  obtain ⟨houtcome, hstep⟩ := hwhole.answer ((Unwatched.mapM h.unwatched items).map _) c k
  obtain ⟨n, huntil⟩ := untilFault_of_performs h.unwatched hturns c k
  obtain ⟨r, d, k', hrun⟩ : ∃ r d k', exec (items.mapM g) c k = ((r, d), k') := ⟨_, _, _, rfl⟩
  have hmap := exec_map (fun as => joined keyword (as.map single)) hrun
  rw [hmap] at houtcome hstep
  rw [hrun] at huntil
  refine ⟨?_, ?_, ⟨k.looks + 2, ?_⟩, fun e he => ?_, fun directory hsettled => ?_⟩
  · rw [houtcome, huntil]
    cases r <;> rfl
  · rw [hstep, huntil]
  · rw [hstep, huntil]
    rfl
  · rw [houtcome] at he
    have hfault : r = .error e := by
      cases r with
      | ok as => cases he
      | error e' =>
        cases he
        rfl
    rw [hfault] at huntil
    obtain ⟨before, hstops⟩ := h.exists_stopsAfter hsession hturns huntil
    rw [hstep]
    exact ⟨before, hstops.split, hstops.through, hstops.catalog, hstops.volume⟩
  · have hstable : Stable (Settled directory) := stable_settled
    have hkeeps := preserves_perform hstable turn.confirm command
    rw [h.whole] at hkeeps
    have hafter : Settled directory d k' := hsettled.of_exec hkeeps hmap
    rw [hstep]
    exact hafter

end Sequential

/-- A line that cannot be read does nothing, also if some of its groups could be read alone. A put
or an alteration that is read can be divided into lines with one group each, and whatever these
lines are, it does what they do, one after the other, up to the first that fails: the outcome is
that fault or what all the lines show, memory is the same, and so is the disk. What a line that
fails leaves is what the lines before the fault have left, in memory and, unless the disk failed, on
the disk; where no call of the disk fails, memory and disk agree. -/
theorem InSession.divided (h : InSession c) (k : Machine) (turn : Turn) :
    (∀ e, Command.parse turn.line = .error e → (turn.answer c k).1.1.outcome = .error e ∧
      (turn.step (c, k)).1 = c ∧ (turn.step (c, k)).2.volume = k.volume) ∧
    ∀ keyword size args command, Command.Grouped keyword size →
    Command.Reads turn.line keyword args →
      Command.parse turn.line = .ok command → (∃ lines, Command.Divides keyword size args lines) ∧
        ∀ turns, Command.Divides keyword size args (turns.map (·.line)) →
        DoesAll keyword turn turns c k := by
  refine ⟨fun e he => turn.answer_of_error he c k,
    fun keyword size args command hk hline hparse => ?_⟩
  have hcommand : Command.ofArguments args keyword = .ok command := hline.parse_eq.symm.trans hparse
  refine ⟨Command.exists_divides hk hcommand, fun turns hdivides => ?_⟩
  cases hdivides with
  | intro hsize hlines =>
    cases hk with
    | put =>
      obtain ⟨cells, hseq⟩ := sequential_put hsize hcommand
      exact hseq.doesAll h k hparse hlines
    | alter =>
      obtain ⟨maps, hseq⟩ := sequential_alter hsize hcommand
      exact hseq.doesAll h k hparse hlines

def halves : List Turn :=
  ["put 'a', 'r', 'f:q', 'v'", "put 'a', 'r', 'g:q', 'v'"].map fun line => ⟨line, fun _ => true⟩

/-- The second map changes the family that the first has made. -/
def twoMaps : Turn :=
  ⟨"alter 'a', \x7bNAME => 'g'\x7d, \x7bNAME => 'g', VERSIONS => '3'\x7d", fun _ => true⟩

def eachMap : List Turn :=
  ["alter 'a', \x7bNAME => 'g'\x7d", "alter 'a', \x7bNAME => 'g', VERSIONS => '3'\x7d"].map
  fun line => ⟨line, fun _ => true⟩

theorem divided_twoTables :
    InSession twoTables.1 ∧ DoesAll .put halfPut halves twoTables.1 twoTables.2 ∧
    DoesAll .alter twoMaps eachMap twoTables.1 twoTables.2 ∧
    (twoMaps.answer twoTables.1 twoTables.2).1.1.outcome.toOption =
      some (.altered [.created "g", .updated "g"]) := by
  have hsession := inSession_twoTables
  obtain ⟨put, hput⟩ := Option.isSome_iff_exists.mp <|
    show (Command.parse halfPut.line).toOption.isSome = true by decide +kernel
  obtain ⟨alter, halter⟩ := Option.isSome_iff_exists.mp <|
    show (Command.parse twoMaps.line).toOption.isSome = true by decide +kernel
  have hhalves : Command.Divides .put 3 (.string "a" ::
      [[.string "r", .string "f:q", .string "v"],
        [.string "r", .string "g:q", .string "v"]].flatten)
      (halves.map (·.line)) :=
        .intro (by decide) (.cons (by decide +kernel) (.cons (by decide +kernel) .nil))
  have hmaps : Command.Divides .alter 1 (.string "a" ::
      [[.map [("NAME", "g")]], [.map [("NAME", "g"), ("VERSIONS", "3")]]].flatten)
      (eachMap.map (·.line)) :=
        .intro (by decide) (.cons (by decide +kernel) (.cons (by decide +kernel) .nil))
  refine ⟨hsession, ?_, ?_, by decide +kernel⟩
  · exact ((hsession.divided _ halfPut).2 .put 3 _ put .put (by decide +kernel)
      (eq_ok_of_toOption hput)).2 _ hhalves
  · exact ((hsession.divided _ twoMaps).2 .alter 1 _ alter .alter (by decide +kernel)
      (eq_ok_of_toOption halter)).2 _ hmaps

end Shell

end WideColumn
