import WideColumn.Proofs.Command.Line
import WideColumn.Proofs.Command.Places

/-! # What a command line gives

Reading a line comes to a well-formed command, or the line is refused as an invalid argument. What
is well-formed is built from arguments that were checked. -/
namespace WideColumn
open WideColumn.Schema WideColumn.Text

variable {k : Keyword} {args : List Argument} {number : Nat} {cells : List CellWrite}
  {table line : String}

theorem Column.gives_parse (text : String) : Gives Column.WellFormed (Column.parse text) := by
  have hrefuses : Gives (fun _ => True) (Column.parse text) := by
    rw [Column.parse]
    split
    · exact rfl
    · split <;> first | exact rfl | trivial
  exact hrefuses.strengthen fun _ h => Column.wellFormed_of_parse h

theorem CellColumn.gives_parse (text : String) :
    Gives CellColumn.WellFormed (CellColumn.parse text) := by
  have hrefuses : Gives (fun _ => True) (CellColumn.parse text) := by
    refine (Column.gives_parse text).bind fun c _ => ?_
    split
    · trivial
    · exact rfl
  exact hrefuses.strengthen fun _ h => CellColumn.wellFormed_of_parse h

namespace Keyword

theorem gives_string (k : Keyword) (number : Nat) (a : Argument) :
    Gives (fun s => a = .string s) (k.string number a) := by
  cases a <;> exact rfl

theorem gives_stringAt (k : Keyword) (args : List Argument) (index : Nat) :
    Gives (fun s => args[index]? = some (.string s)) (k.stringAt args index) := by
  rw [stringAt]
  split
  · next a ha => exact (k.gives_string _ a).mono fun s hs => hs ▸ ha
  · exact rfl

theorem gives_takes (k : Keyword) (args : List Argument) (n : Nat) :
    Gives (fun _ => args.length = n) (k.takes args n) := by
  rw [takes]
  split
  · next h => exact h
  · exact rfl

theorem gives_only (k : Keyword) (args : List Argument) : Gives (fun _ => True) (k.only args) :=
  (k.gives_takes args 1).bind fun _ _ => (k.gives_stringAt args 0).mono fun _ _ => trivial

theorem gives_optional (k : Keyword) (args : List Argument) :
    Gives (fun _ => True) (k.optional args) := by
  unfold optional
  split
  · trivial
  · exact (k.gives_string _ _).map fun _ _ => trivial
  · exact rfl

end Keyword

namespace Command

theorem gives_familySpec (a : Argument) :
    Gives (fun f => ∀ p ∈ f.properties, isKey p.1 nameKey = false) (familySpec a) := by
  cases a with
  | string name => exact List.forall_mem_nil _
  | map pairs =>
    rw [familySpec]
    split
    · intro p hp
      simpa using (List.mem_filter.mp hp).2
    · exact rfl

theorem gives_alterMap (a : Argument) : Gives (fun _ => True) (alterMap a) := by
  cases a with
  | string content => exact rfl
  | map pairs => trivial

/-- Three arguments give one value to write. -/
theorem gives_cellWrites (hargs : 3 ∣ args.length) :
    Gives (fun cells => args.length = 3 * cells.length ∧ ∀ w ∈ cells, w.column.WellFormed)
      (cellWrites number args) := by
  induction number, args using cellWrites.induct with
  | case1 number row column value rest ih =>
    have hrest : 3 ∣ rest.length := (Nat.dvd_add_iff_left (Nat.dvd_refl 3)).mpr hargs
    rw [cellWrites]
    refine (Keyword.gives_string _ _ _).bind fun _ _ =>
      (Keyword.gives_string _ _ _).bind fun text _ => ?_
    refine (CellColumn.gives_parse text).bind fun column hcolumn =>
      (Keyword.gives_string _ _ _).bind fun _ _ => ?_
    refine (ih hrest).bind fun cells hcells => ⟨?_, List.forall_mem_cons.mpr ⟨hcolumn, hcells.2⟩⟩
    simp only [List.length_cons, hcells.1]
    omega
  | case2 args number hshort =>
    rw [eq_nil_of_no_group hshort hargs]
    exact ⟨rfl, List.forall_mem_nil _⟩

/-- As many as the arguments after the first, if there are any. -/
theorem ne_nil_of_rest {α : Type} {items : List α} (hfew : ¬args.length < 2)
    (hlength : items.length = (args.drop 1).length) : items ≠ [] := by
  rintro rfl
  rw [List.length_nil, List.length_drop] at hlength
  omega

theorem gives_getOptions {column : Option Column} {versions : Nat}
    (hcolumn : ∀ c ∈ column, c.WellFormed) (hlow : 1 ≤ versions) (hhigh : versions ≤ Numeral.max64)
    (options : Properties) :
    Gives (fun r => (∀ c ∈ r.1, c.WellFormed) ∧ 1 ≤ r.2 ∧ r.2 ≤ Numeral.max64)
      (getOptions column versions options) := by
  induction options generalizing column versions with
  | nil => exact ⟨hcolumn, hlow, hhigh⟩
  | cons option options ih =>
    rw [getOptions]
    split
    · refine (Column.gives_parse option.2).bind fun c hc => ih (fun d hd => ?_) hlow hhigh
      cases hd
      exact hc
    · split
      · split
        · next n hn =>
          obtain ⟨hread, hpos⟩ := Option.filter_eq_some_iff.mp hn
          exact ih hcolumn (of_decide_eq_true hpos) (Numeral.le_of_readUpTo hread)
        · exact rfl
      · exact rfl

theorem gives_getRequest (a : Option Argument) :
    Gives (fun r => (∀ c ∈ r.1, c.WellFormed) ∧ 1 ≤ r.2 ∧ r.2 ≤ Numeral.max64) (getRequest a) := by
  have hone : 1 ≤ Numeral.max64 := by decide
  cases a with
  | none => exact ⟨nofun, Nat.le_refl 1, hone⟩
  | some a =>
    cases a with
    | string text =>
      refine (Column.gives_parse text).bind fun c hc => ⟨fun d hd => ?_, Nat.le_refl 1, hone⟩
      cases hd
      exact hc
    | map options =>
      have hnone : ∀ c ∈ (none : Option Column), c.WellFormed := nofun
      exact gives_getOptions hnone (Nat.le_refl 1) hone options

/-- A command to write values is made of a table and of three arguments for each value. -/
def MadeOf (args : List Argument) : Command → Prop
  | put table cells => ∃ groups, args = .string table :: groups ∧ groups.length = 3 * cells.length
  | _ => True

theorem gives_ofGet (args : List Argument) :
    Gives (fun c => c.WellFormed ∧ c.MadeOf args) (ofGet args) := by
  refine (Keyword.gives_stringAt _ _ _).bind fun table _ =>
    (Keyword.gives_stringAt _ _ _).bind fun row _ => ?_
  refine (gives_getRequest _).bind fun r hr => ?_
  dsimp only
  -- arguments are counted only when the request has been read
  split
  · exact rfl
  · exact ⟨hr, trivial⟩

/-- What a keyword makes of arguments is well-formed. -/
theorem gives_ofArguments (args : List Argument) (k : Keyword) :
    Gives (fun c => c.WellFormed ∧ c.MadeOf args) (ofArguments args k) := by
  cases k with
  | create =>
    rw [ofArguments]
    refine (Keyword.gives_stringAt _ _ _).bind fun table _ => ?_
    split
    · exact rfl
    · next hfew =>
      refine (Gives.mapM fun a _ => gives_familySpec a).bind fun families hfamilies =>
        ⟨⟨?_, hfamilies.2⟩, trivial⟩
      exact ne_nil_of_rest hfew hfamilies.1
  | alter =>
    rw [ofArguments]
    refine (Keyword.gives_stringAt _ _ _).bind fun table _ => ?_
    split
    · exact rfl
    · next hfew =>
      refine (Gives.mapM fun a _ => gives_alterMap a).bind fun maps hmaps => ⟨?_, trivial⟩
      exact ne_nil_of_rest hfew hmaps.1
  | put =>
    rw [ofArguments]
    refine (Keyword.gives_stringAt _ _ _).bind fun table htable => ?_
    dsimp only
    split
    · exact rfl
    · next hwhole =>
      simp only [Bool.or_eq_true, bne_iff_ne, not_or, List.isEmpty_iff, Decidable.not_not] at hwhole
      obtain ⟨hne, hgroups⟩ := hwhole
      refine (gives_cellWrites (Nat.dvd_of_mod_eq_zero hgroups)).bind fun cells hcells => ?_
      obtain ⟨hlength, hcells⟩ := hcells
      obtain ⟨groups, rfl⟩ := List.head?_eq_some_iff.mp (List.head?_eq_getElem?.trans htable)
      refine ⟨⟨?_, hcells⟩, groups, rfl, hlength⟩
      rintro rfl
      exact hne (List.eq_nil_of_length_eq_zero hlength)
  | get =>
    rw [ofArguments]
    exact gives_ofGet args
  | delete =>
    rw [ofArguments]
    refine (Keyword.gives_takes _ _ _).bind fun _ _ =>
      (Keyword.gives_stringAt _ _ _).bind fun text _ => ?_
    refine (CellColumn.gives_parse text).bind fun column hcolumn => ?_
    exact (Keyword.gives_stringAt _ _ _).bind fun table _ =>
      (Keyword.gives_stringAt _ _ _).bind fun row _ =>
      ⟨hcolumn, trivial⟩
  | deleteAll =>
    rw [ofArguments]
    exact (Keyword.gives_takes _ _ _).bind fun _ _ =>
      (Keyword.gives_stringAt _ _ _).bind fun table _ =>
      (Keyword.gives_stringAt _ _ _).bind fun row _ => ⟨trivial, trivial⟩
  | exit =>
    rw [ofArguments]
    exact (Keyword.gives_takes _ _ _).bind fun _ _ => ⟨trivial, trivial⟩
  | list | help =>
    rw [ofArguments]
    exact (Keyword.gives_optional _ _).map fun _ _ => ⟨trivial, trivial⟩
  | _ =>
    rw [ofArguments]
    exact (Keyword.gives_only _ _).map fun _ _ => ⟨trivial, trivial⟩

/-- A line gives no command, an unknown one, or a well-formed one that is made of its arguments. -/
theorem gives_parse (line : String) :
    Gives (fun c => c = .empty ∨ (∃ text, c = .unknown text) ∨
      c.WellFormed ∧ ∃ k args, Reads line k args ∧ c.MadeOf args) (parse line) := by
  rw [parse]
  split
  · exact Or.inl rfl
  · split
    · exact Or.inr (Or.inl ⟨_, rfl⟩)
    · next k rest hdispatch =>
      have hargs : Gives (fun args => Reads line k args)
          ((Argument.ofString (.ofList rest)).mapError (Fault.inCommand k)) := by
        cases hread : Argument.ofString (.ofList rest) with
        | ok args => exact ⟨rest, hdispatch, hread⟩
        | error e => exact rfl
      exact hargs.bind fun args hreads => (gives_ofArguments args k).mono fun c hc =>
        Or.inr (Or.inr ⟨hc.1, k, args, hreads, hc.2⟩)

theorem parse_eq_empty_iff : parse line = .ok .empty ↔ ∀ c ∈ line.toList, isBlank c = true := by
  rw [← trim_eq_nil_iff, ← List.isEmpty_iff, parse]
  constructor
  · intro h
    by_contra hblank
    rw [if_neg hblank] at h
    split at h
    · cases h
    · obtain ⟨args, -, h⟩ := bind_eq_ok.mp h
      exact ((gives_ofArguments args _).of_eq_ok h).1
  · intro h
    rw [if_pos h]
    rfl

/-- Reading a line never goes to a place that is not there. Only a blank line gives no command, what
follows a keyword is read as a well-formed one, and any other line is unknown or refused as an
invalid argument. -/
theorem parse_wellFormed (line : String) :
    (parseByPlaces line).run = some (parse line) ∧
      (parse line = .ok .empty ↔ ∀ c ∈ line.toList, isBlank c = true) ∧
      Gives (fun c => c = .empty ∨ (∃ text, c = .unknown text) ∨
        c.WellFormed ∧ ∃ k args, Reads line k args ∧ c.MadeOf args) (parse line) :=
  ⟨run_parseByPlaces line, parse_eq_empty_iff, gives_parse line⟩

/-- A command to write values has a value to write. -/
def HasCells : Command → Prop
  | put _ cells => cells ≠ []
  | _ => True

theorem wellFormed_put (h : parse line = .ok (.put table cells)) :
    (put table cells).WellFormed := by
  rcases (gives_parse line).of_eq_ok h with hempty | ⟨text, hunknown⟩ | ⟨hput, -⟩
  · cases hempty
  · cases hunknown
  · exact hput

theorem hasCells_of_parse {command : Command} (h : parse line = .ok command) :
    command.HasCells := by
  cases command with
  | put table cells => exact (wellFormed_put h).1
  | _ => trivial

/-- A line that writes values names whole columns. -/
theorem wellFormed_of_parse (h : parse line = .ok (.put table cells)) :
    ∀ w ∈ cells, w.column.WellFormed :=
  (wellFormed_put h).2

end Command

end WideColumn
