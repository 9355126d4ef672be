import WideColumn.Proofs.Command.Column
import WideColumn.Proofs.Command.Keyword
import WideColumn.Proofs.Command.Wording
import WideColumn.Proofs.Text.Numeral

/-! # The line of a command gives the command

Every well-formed command has a line that is read as exactly this command, whatever its texts
contain. -/
namespace WideColumn.Command
open WideColumn.Schema WideColumn.Text

variable {line : String} {k : Keyword} {args : List Argument} {gap rest : List Char}
  {ws : List Wording} {c : Command}

/-- A line has a keyword and a list of arguments. -/
def Reads (line : String) (k : Keyword) (args : List Argument) : Prop :=
  ∃ rest, dispatch Keyword.all (trim line.toList) = some (k, rest) ∧
    Argument.ofString (.ofList rest) = .ok args

theorem Reads.parse_eq (h : Reads line k args) : parse line = ofArguments args k := by
  obtain ⟨rest, hdispatch, hargs⟩ := h
  rw [parse]
  split
  · next hempty =>
    rw [List.isEmpty_iff.mp hempty] at hdispatch
    cases hdispatch
  · rw [hdispatch]
    dsimp only
    rw [hargs]
    rfl

theorem reads_iff : Reads line k args ↔ ((dispatch Keyword.all (trim line.toList)).bind fun p =>
    (Argument.ofString (.ofList p.2)).toOption.map (p.1, ·)) = some (k, args) := by
  rw [Option.bind_eq_some_iff]
  constructor
  · intro h
    obtain ⟨rest, hdispatch, hargs⟩ := h
    exact ⟨(k, rest), hdispatch, by rw [hargs]; rfl⟩
  · intro h
    obtain ⟨p, hdispatch, hargs⟩ := h
    obtain ⟨args, hargs, heq⟩ := Option.map_eq_some_iff.mp hargs
    cases heq
    exact ⟨p.2, hdispatch, eq_ok_of_toOption hargs⟩

instance : Decidable (Reads line k args) := decidable_of_iff _ reads_iff.symm

private theorem trimStart_text : trimStart (k.text.toList ++ rest) = k.text.toList ++ rest := by
  have hall : ∀ k ∈ Keyword.all, k.text.toList.head?.any (!isBlank ·) = true := by decide
  obtain ⟨d, hd, hblank⟩ := (Option.any_eq_true _ _).mp (hall k k.mem_all)
  obtain ⟨ds, hds⟩ := List.head?_eq_some_iff.mp hd
  rw [hds, List.cons_append]
  exact trimStart_cons (by simpa using hblank)

private theorem trimEnd_text : trimEnd k.text.toList = k.text.toList := by
  have hall : ∀ k ∈ Keyword.all, trimEnd k.text.toList = k.text.toList := by decide
  exact hall k k.mem_all

/-- A keyword and written arguments are read as the keyword and the arguments. -/
theorem reads_line (hgap : ∀ d ∈ gap, isBlank d = true) (hws : ∀ w ∈ ws, w.Legible) :
    Reads (.ofList (k.text.toList ++ ' ' :: separated gap (ws.map Wording.write))) k
      (ws.map Wording.argument) := by
  rw [Reads, String.toList_ofList, trim, trimStart_text]
  by_cases hne : ws = []
  · -- without arguments the line ends with the blank after its keyword, which is trimmed away
    have hend : trimEnd (k.text.toList ++ [' ']) = k.text.toList ++ [] := by
      rw [trimEnd_blank (by decide), trimEnd_text, List.append_nil]
    rw [hne]
    refine ⟨[], ?_, Argument.ofString_eq_ok .nil .none⟩
    have hdispatch : dispatch Keyword.all (k.text.toList ++ []) = some (k, []) :=
      Keyword.dispatch_text (by rintro d ⟨⟩)
    rw [← hend] at hdispatch
    exact hdispatch
  · obtain ⟨cs, d, hcs, hd⟩ := Wording.exists_separated_eq_concat gap hne
    have hwritten := Wording.written_separated hgap hws
    have hstop : ∀ d ∈ (' ' :: separated gap (ws.map Wording.write)).head?,
        isWordChar d = false := by
      intro d hd
      cases hd
      decide +kernel
    have hend : trimEnd (k.text.toList ++ ' ' :: separated gap (ws.map Wording.write)) =
        k.text.toList ++ ' ' :: separated gap (ws.map Wording.write) := by
      rw [hcs, ← List.cons_append, ← List.append_assoc]
      exact trimEnd_concat hd
    rw [hend]
    exact ⟨_, Keyword.dispatch_text hstop,
      Argument.ofString_eq_ok (.blank (by decide) hwritten) (.some (Wording.lists_listed hne))⟩

/-- What a line can express: the names of columns can be told apart, no property stands for the name
of a family, and nothing that has to be there is left out. -/
def WellFormed : Command → Prop
  | create _ families =>
    families ≠ [] ∧ ∀ f ∈ families, ∀ p ∈ f.properties, isKey p.1 nameKey = false
  | alter _ maps => maps ≠ []
  | put _ cells => cells ≠ [] ∧ ∀ w ∈ cells, w.column.WellFormed
  | get _ _ column versions =>
    (∀ c ∈ column, c.WellFormed) ∧ 1 ≤ versions ∧ versions ≤ Numeral.max64
  | delete _ _ column => column.WellFormed
  | unknown _ | empty => False
  | _ => True

instance : DecidablePred WellFormed
  | create .. | get .. | put .. => inferInstanceAs (Decidable (_ ∧ _))
  | alter .. => inferInstanceAs (Decidable (_ ≠ _))
  | delete _ _ column => inferInstanceAs (Decidable column.WellFormed)
  | unknown .. | empty => inferInstanceAs (Decidable False)
  | list .. | disable .. | enable .. | isEnabled .. | isDisabled .. | drop .. | dropAll ..
  | describe .. | scan .. | deleteRow .. | count .. | truncate .. | help .. | exit =>
    inferInstanceAs (Decidable True)

private theorem legible_word : ∀ s ∈ [nameKey, "COLUMN", "VERSIONS"], (Literal.bare s).Legible := by
  have hall : ∀ s ∈ [nameKey, "COLUMN", "VERSIONS"], s.toList ≠ [] ∧
      s.toList.all Token.isBare = true := by
    decide +kernel
  exact fun s hs => ⟨(hall s hs).1, List.all_eq_true.mp (hall s hs).2⟩

private theorem legible_number (n : Nat) : (Literal.bare (.ofList (Numeral.write n))).Legible := by
  rw [Literal.Legible, String.toList_ofList]
  exact ⟨Numeral.write_ne_nil n,
    fun c hc => Token.isBare_of_isDigit (Numeral.isDigit_of_mem_write hc)⟩

theorem legible_properties {batch : Properties} :
    ∀ p ∈ Wording.properties batch, p.1.Legible ∧ p.2.Legible := by
  intro p hp
  obtain ⟨q, -, rfl⟩ := List.mem_map.mp hp
  exact ⟨trivial, trivial⟩

private theorem legible_family (f : FamilySpec) : (Wording.family f).Legible :=
  List.forall_mem_cons.mpr ⟨⟨legible_word _ (by simp), trivial⟩, legible_properties⟩

private theorem legible_options {column : Option Column} {versions : Nat} :
    (Wording.options column versions).Legible := by
  intro p hp
  rcases List.mem_append.mp hp with hp | hp
  · obtain ⟨c, -, rfl⟩ := List.mem_map.mp hp
    exact ⟨legible_word _ (by simp), trivial⟩
  · rw [List.mem_singleton.mp hp]
    exact ⟨legible_word _ (by simp), legible_number versions⟩

theorem legible_wordings (h : c.wordings = some (k, ws)) : ∀ w ∈ ws, w.Legible := by
  cases c with
  | create table families =>
    cases h
    refine List.forall_mem_cons.mpr ⟨trivial, List.forall_mem_map.mpr ?_⟩
    exact fun f _ => legible_family f
  | alter table maps =>
    cases h
    refine List.forall_mem_cons.mpr ⟨trivial, List.forall_mem_map.mpr ?_⟩
    exact fun m _ => legible_properties
  | put table cells =>
    cases h
    refine List.forall_mem_cons.mpr ⟨trivial, List.forall_mem_flatMap.mpr ?_⟩
    intro w _
    simp [Wording.cell, Wording.Legible]
  | get table row column versions =>
    cases h
    exact List.forall_mem_cons.mpr ⟨trivial, List.forall_mem_cons.mpr
      ⟨trivial, List.forall_mem_singleton.mpr legible_options⟩⟩
  | list pattern | help pattern =>
    cases h
    exact List.forall_mem_map.mpr fun _ _ => trivial
  | unknown line => cases h
  | empty => cases h
  | _ =>
    cases h
    simp [Wording.Legible]

theorem texts_properties (batch : Properties) :
    (Wording.properties batch).map (fun p => (p.1.text, p.2.text)) = batch := by
  rw [Wording.properties, List.map_map]
  exact List.map_id' batch

/-- A map with one name gives the family of that name. -/
theorem familySpec_cons (name : String) {batch : Properties}
    (h : ∀ p ∈ batch, isKey p.1 nameKey = false) :
    familySpec (.map ((nameKey, name) :: batch)) = .ok ⟨name, batch⟩ := by
  have hname : isKey nameKey nameKey = true := by decide
  have hnames : (((nameKey, name) :: batch).filter fun p => isKey p.1 nameKey) =
      [(nameKey, name)] := by
    rw [List.filter_cons_of_pos (by simpa using hname), List.filter_eq_nil_iff.mpr fun p hp => by
      simp [h p hp]]
  have hothers : (((nameKey, name) :: batch).filter fun p => !isKey p.1 nameKey) = batch := by
    rw [List.filter_cons_of_neg (by simp [hname]), List.filter_eq_self.mpr fun p hp => by
      simp [h p hp]]
  rw [familySpec, hnames, hothers]
  rfl

theorem familySpec_family {f : FamilySpec} (h : ∀ p ∈ f.properties, isKey p.1 nameKey = false) :
    familySpec (Wording.family f).argument = .ok f := by
  have hargument : (Wording.family f).argument = .map ((nameKey, f.name) :: f.properties) := by
    rw [Wording.family, Wording.argument, List.map_cons, texts_properties]
    rfl
  rw [hargument, familySpec_cons _ h]

theorem cellWrites_cells {cells : List CellWrite} {number : Nat}
    (h : ∀ w ∈ cells, w.column.WellFormed) :
    cellWrites number ((cells.flatMap Wording.cell).map Wording.argument) = .ok cells := by
  induction cells generalizing number with
  | nil => rfl
  | cons w cells ih =>
    obtain ⟨hw, hcells⟩ := List.forall_mem_cons.mp h
    rw [List.flatMap_cons, List.map_append, Wording.cell]
    simp only [List.map_cons, List.map_nil, List.cons_append, List.nil_append, Wording.argument,
      cellWrites, Keyword.string, pure_eq_ok, ok_bind, CellColumn.parse_write hw, ih hcells]

private theorem getOptions_versions {column : Option Column} {n versions : Nat}
    (hlow : 1 ≤ versions) (hhigh : versions ≤ Numeral.max64) :
    getOptions column n [("VERSIONS", .ofList (Numeral.write versions))] =
      .ok (column, versions) := by
  have hcolumn : ¬isKey "VERSIONS" "COLUMN" = true := by decide
  have hversions : isKey "VERSIONS" "VERSIONS" = true := by decide
  have hpos : 0 < versions := hlow
  rw [getOptions, if_neg hcolumn, if_pos hversions, String.toList_ofList,
    Numeral.readUpTo_write hhigh, Option.filter_some, if_pos (decide_eq_true hpos)]
  rfl

theorem getRequest_options {column : Option Column} {versions : Nat}
    (hcolumn : ∀ c ∈ column, c.WellFormed) (hlow : 1 ≤ versions)
    (hhigh : versions ≤ Numeral.max64) :
    getRequest (some (Wording.options column versions).argument) = .ok (column, versions) := by
  cases column with
  | none => exact getOptions_versions hlow hhigh
  | some c =>
    have hkey : isKey "COLUMN" "COLUMN" = true := by decide
    have hparse := Column.parse_write (hcolumn c rfl)
    have hargument : (Wording.options (some c) versions).argument =
        .map [("COLUMN", c.write), ("VERSIONS", .ofList (Numeral.write versions))] := rfl
    rw [hargument, getRequest, getOptions, if_pos hkey, hparse, ok_bind]
    exact getOptions_versions hlow hhigh

private theorem stringAt_zero {s : String} : k.stringAt (.string s :: args) 0 = .ok s := rfl

private theorem not_length_lt_two {a : Argument} (h : args ≠ []) : ¬(a :: args).length < 2 := by
  have := List.length_pos_iff.mpr h
  rw [List.length_cons]
  omega

theorem ofArguments_create {table : String} (h : args ≠ []) :
    ofArguments (.string table :: args) .create = .create table <$> args.mapM familySpec := by
  rw [ofArguments, stringAt_zero, ok_bind, if_neg (not_length_lt_two h)]
  rfl

theorem ofArguments_alter {table : String} (h : args ≠ []) :
    ofArguments (.string table :: args) .alter = .alter table <$> args.mapM alterMap := by
  rw [ofArguments, stringAt_zero, ok_bind, if_neg (not_length_lt_two h)]
  rfl

theorem ofArguments_put {table : String} (h : args ≠ []) (hgroups : 3 ∣ args.length) :
    ofArguments (.string table :: args) .put = .put table <$> cellWrites 2 args := by
  have hwhole : ¬(args.isEmpty || args.length % 3 != 0) = true := by
    simp [h, Nat.mod_eq_zero_of_dvd hgroups]
  rw [ofArguments, stringAt_zero, ok_bind, List.drop_one, List.tail_cons, if_neg hwhole]
  rfl

theorem ofGet_request {table row : String} {a : Argument} :
    ofGet [.string table, .string row, a] = (fun r => .get table row r.1 r.2) <$> getRequest
      (some a) :=
  rfl

theorem ofArguments_delete {table row column : String} :
    ofArguments [.string table, .string row, .string column] .delete =
      .delete table row <$> CellColumn.parse column :=
  rfl

private theorem length_cells (cells : List CellWrite) :
    (cells.flatMap Wording.cell).length = 3 * cells.length := by
  induction cells with
  | nil => rfl
  | cons w cells ih =>
    rw [List.flatMap_cons, List.length_append, ih, Wording.cell, List.length_cons]
    simp only [List.length_cons, List.length_nil]
    omega

/-- The arguments that are written for a command are those that its keyword makes this command
of. -/
theorem ofArguments_wordings (h : c.WellFormed) (hws : c.wordings = some (k, ws)) :
    ofArguments (ws.map Wording.argument) k = .ok c := by
  cases c with
  | create table families =>
    cases hws
    obtain ⟨hne, hfamilies⟩ := h
    have hspecs : ((families.map Wording.family).map Wording.argument).mapM familySpec =
        .ok families := by
      rw [List.map_map]
      exact mapM_map_eq_ok fun f hf => familySpec_family (hfamilies f hf)
    rw [List.map_cons, Wording.argument, ofArguments_create (by simpa using hne), hspecs]
    rfl
  | alter table maps =>
    cases hws
    have hne : maps ≠ [] := h
    have hmaps : ((maps.map fun m => Wording.map (Wording.properties m)).map Wording.argument).mapM
      alterMap = .ok maps := by
      rw [List.map_map]
      exact mapM_map_eq_ok fun m _ => congrArg Except.ok (texts_properties m)
    rw [List.map_cons, Wording.argument, ofArguments_alter (by simpa using hne), hmaps]
    rfl
  | put table cells =>
    cases hws
    obtain ⟨hne, hcells⟩ := h
    have hlength : ((cells.flatMap Wording.cell).map Wording.argument).length =
        3 * cells.length := by
      rw [List.length_map, length_cells]
    have hpos := List.length_pos_iff.mpr hne
    rw [List.map_cons, Wording.argument,
      ofArguments_put (List.ne_nil_of_length_pos (by omega)) ⟨_, hlength⟩, cellWrites_cells hcells]
    rfl
  | get table row column versions =>
    cases hws
    obtain ⟨hcolumn, hlow, hhigh⟩ := h
    rw [List.map_cons, List.map_cons, List.map_singleton, ofArguments, Wording.argument,
      Wording.argument, ofGet_request, getRequest_options hcolumn hlow hhigh]
    rfl
  | delete table row column =>
    cases hws
    rw [List.map_cons, List.map_cons, List.map_singleton, Wording.argument, Wording.argument,
      Wording.argument, ofArguments_delete, CellColumn.parse_write h]
    rfl
  | list pattern | help pattern =>
    cases hws
    cases pattern <;> rfl
  | unknown line => cases h
  | empty => cases h
  | _ =>
    cases hws
    rfl

/-- Every well-formed command is what its line is read as, with any blanks after the commas between
its arguments. -/
theorem parse_line (c : Command) (h : c.WellFormed) (gap : List Char)
    (hgap : ∀ d ∈ gap, isBlank d = true) :
    parse (c.line gap) = .ok c := by
  cases hws : c.wordings with
  | none =>
    -- only lines without a keyword have no wording
    cases c with
    | unknown | empty => cases h
    | _ => cases hws
  | some w =>
    obtain ⟨k, ws⟩ := w
    have hline : c.line gap =
        .ofList (k.text.toList ++ ' ' :: separated gap (ws.map Wording.write)) := by
      rw [line.eq_def, hws]
    rw [hline, (reads_line hgap (legible_wordings hws)).parse_eq]
    exact ofArguments_wordings h hws

theorem parse_line_with_quotes :
    parse "create 'it\\'s',\x7bNAME => 'put \\\\', 'k\n' => '\x7d, \x7b'\x7d" =
      .ok (.create "it's" [⟨"put \\", [("k\n", "\x7d, \x7b")]⟩]) := by
  have hparse := parse_line (.create "it's" [⟨"put \\", [("k\n", "\x7d, \x7b")]⟩])
    (by decide) [] nofun
  have hline : line [] (.create "it's" [⟨"put \\", [("k\n", "\x7d, \x7b")]⟩]) =
      "create 'it\\'s',\x7bNAME => 'put \\\\', 'k\n' => '\x7d, \x7b'\x7d" := by decide
  rw [← hline]
  exact hparse

end WideColumn.Command
