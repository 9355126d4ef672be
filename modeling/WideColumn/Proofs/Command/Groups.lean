import Mathlib.Data.List.Forall2
import Mathlib.Tactic.Choose
import WideColumn.Proofs.Command.Parser

/-! # Lines with many groups of arguments

After the name of a table, a put has groups of three arguments and an alteration has maps. A line
that is read gives one item for each group, and a line with the table and one of the groups alone
gives the item of that group. -/
namespace WideColumn.Command
open WideColumn.Schema

variable {keyword : Keyword} {size number : Nat} {args : List Argument}
  {groups : List (List Argument)} {table : String} {command : Command}

/-- The keywords with groups of arguments after the name of a table, and the number of arguments in
a group. -/
inductive Grouped : Keyword → Nat → Prop where
  | put : Grouped .put 3
  | alter : Grouped .alter 1

/-- There is a line for each group of the arguments, with the table and the group. -/
inductive Divides (keyword : Keyword) (size : Nat) : List Argument → List String → Prop where
  | intro {table : String} {groups : List (List Argument)} {lines : List String}
    (hsize : ∀ g ∈ groups, g.length = size)
      (hlines : List.Forall₂ (fun line g => Reads line keyword (.string table :: g)) lines groups) :
      Divides keyword size (.string table :: groups.flatten) lines

theorem exists_groups {α : Type} {l : List α} (h : size ∣ l.length) :
    ∃ groups : List (List α), l = groups.flatten ∧ ∀ g ∈ groups, g.length = size := by
  obtain ⟨n, hn⟩ := h
  induction n generalizing l with
  | zero => exact ⟨[], List.eq_nil_of_length_eq_zero hn, List.forall_mem_nil _⟩
  | succ n ih =>
    rw [Nat.mul_succ] at hn
    obtain ⟨groups, hrest, hsize⟩ :=
      ih (l := l.drop size) (by rw [List.length_drop, hn, Nat.add_sub_cancel])
    refine ⟨l.take size :: groups, ?_, List.forall_mem_cons.mpr ⟨?_, hsize⟩⟩
    · rw [List.flatten_cons, ← hrest, List.take_append_drop]
    · rw [List.length_take, hn, Nat.min_eq_left (Nat.le_add_left size _)]

theorem exists_reads (keyword : Keyword) (args : List Argument) :
    ∃ line, Reads line keyword args := by
  have hwording (a : Argument) : ∃ w : Wording, w.Legible ∧ w.argument = a := by
    cases a with
    | string content => exact ⟨.string content, trivial, rfl⟩
    | map pairs => exact ⟨.map (Wording.properties pairs), legible_properties,
      congrArg _ (texts_properties pairs)⟩
  choose wording hlegible hargument using hwording
  have hgap : ∀ d ∈ ([] : List Char), Text.isBlank d = true := List.forall_mem_nil _
  have hws : ∀ w ∈ args.map wording, w.Legible := List.forall_mem_map.mpr fun a _ => hlegible a
  have hline := reads_line (k := keyword) hgap hws
  have hid : Wording.argument ∘ wording = id := funext hargument
  have hargs : (args.map wording).map Wording.argument = args := by
    rw [List.map_map, hid, List.map_id]
  exact ⟨_, hargs ▸ hline⟩

theorem exists_of_stringAt (h : keyword.stringAt args 0 = .ok table) :
    ∃ rest, args = .string table :: rest := by
  have hhead := (Keyword.gives_stringAt keyword args 0).of_eq_ok h
  exact List.head?_eq_some_iff.mp (List.head?_eq_getElem?.trans hhead)

/-- What is read as a command has a table and whole groups. -/
theorem exists_divides (hk : Grouped keyword size) (h : ofArguments args keyword = .ok command) :
    ∃ lines, Divides keyword size args lines := by
  have hwhole : ∃ table rest, args = .string table :: rest ∧ size ∣ rest.length := by
    cases hk with
    | put =>
      rw [ofArguments] at h
      obtain ⟨table, htable, h⟩ := bind_eq_ok.mp h
      obtain ⟨rest, rfl⟩ := exists_of_stringAt htable
      dsimp only at h
      split at h
      · cases h
      · next hgroups =>
        refine ⟨table, rest, rfl, Nat.dvd_of_mod_eq_zero ?_⟩
        simp only [Bool.or_eq_true, bne_iff_ne, not_or, Decidable.not_not] at hgroups
        exact hgroups.2
    | alter =>
      rw [ofArguments] at h
      obtain ⟨table, htable, -⟩ := bind_eq_ok.mp h
      obtain ⟨rest, rfl⟩ := exists_of_stringAt htable
      exact ⟨table, rest, rfl, Nat.one_dvd _⟩
  obtain ⟨table, rest, rfl, hdvd⟩ := hwhole
  obtain ⟨groups, rfl, hsize⟩ := exists_groups hdvd
  choose line hline using fun g => exists_reads keyword (.string table :: g)
  refine ⟨groups.map line, .intro hsize ?_⟩
  rw [List.forall₂_map_left_iff]
  exact List.forall₂_same.mpr fun g _ => hline g

/-- A group gives the same value alone, as the first of its line. -/
theorem forall₂_of_cellWrites (hsize : ∀ g ∈ groups, g.length = 3) {cells : List CellWrite}
    (h : cellWrites number groups.flatten = .ok cells) :
    List.Forall₂ (fun g w => g.length = 3 ∧ cellWrites 2 g = .ok [w]) groups cells := by
  induction groups generalizing number cells with
  | nil =>
    cases h
    exact .nil
  | cons g groups ih =>
    obtain ⟨hg, hgroups⟩ := List.forall_mem_cons.mp hsize
    obtain ⟨a, b, c, rfl⟩ := List.length_eq_three.mp hg
    rw [List.flatten_cons, List.cons_append, List.cons_append, List.cons_append, List.nil_append,
      cellWrites] at h
    obtain ⟨row, hrow, h⟩ := bind_eq_ok.mp h
    obtain ⟨text, htext, h⟩ := bind_eq_ok.mp h
    obtain ⟨column, hcolumn, h⟩ := bind_eq_ok.mp h
    obtain ⟨value, hvalue, h⟩ := bind_eq_ok.mp h
    obtain ⟨rest, hrest, h⟩ := bind_eq_ok.mp h
    cases h
    obtain rfl := (Keyword.gives_string _ _ _).of_eq_ok hrow
    obtain rfl := (Keyword.gives_string _ _ _).of_eq_ok htext
    obtain rfl := (Keyword.gives_string _ _ _).of_eq_ok hvalue
    refine .cons ⟨rfl, ?_⟩ (ih hgroups hrest)
    simp only [cellWrites, Keyword.string, pure_eq_ok, ok_bind, hcolumn]

theorem forall₂_of_put (hsize : ∀ g ∈ groups, g.length = 3)
    (h : ofArguments (.string table :: groups.flatten) .put = .ok command) :
    ∃ cells, command = .put table cells ∧
      List.Forall₂ (fun g w => ofArguments (.string table :: g) .put = .ok (.put table [w])) groups
        cells := by
  have hlength : 3 ∣ groups.flatten.length := by
    rw [List.length_flatten, List.map_congr_left hsize, List.map_const', List.sum_replicate_nat]
    exact Nat.dvd_mul_left 3 groups.length
  by_cases hne : groups.flatten = []
  · rw [hne] at h
    cases h
  rw [ofArguments_put hne hlength] at h
  obtain ⟨cells, hcells, rfl⟩ := map_eq_ok.mp h
  refine ⟨cells, rfl, (forall₂_of_cellWrites hsize hcells).imp fun g w hg => ?_⟩
  rw [ofArguments_put (List.ne_nil_of_length_eq_add_one hg.1) ⟨1, hg.1⟩, hg.2]
  rfl

theorem forall₂_of_mapM_alterMap (hsize : ∀ g ∈ groups, g.length = 1) {maps : List Properties}
    (h : groups.flatten.mapM alterMap = .ok maps) :
    List.Forall₂ (fun g m => g.length = 1 ∧ g.mapM alterMap = .ok [m]) groups maps := by
  induction groups generalizing maps with
  | nil =>
    cases h
    exact .nil
  | cons g groups ih =>
    obtain ⟨hg, hgroups⟩ := List.forall_mem_cons.mp hsize
    obtain ⟨a, rfl⟩ := List.length_eq_one_iff.mp hg
    rw [List.flatten_cons, List.singleton_append] at h
    obtain ⟨m, rest, hm, hrest, rfl⟩ := mapM_cons_eq_ok.mp h
    exact .cons ⟨rfl, mapM_cons_eq_ok.mpr ⟨m, [], hm, rfl, rfl⟩⟩ (ih hgroups hrest)

theorem forall₂_of_alter (hsize : ∀ g ∈ groups, g.length = 1)
    (h : ofArguments (.string table :: groups.flatten) .alter = .ok command) :
    ∃ maps, command = .alter table maps ∧
      List.Forall₂ (fun g m => ofArguments (.string table :: g) .alter = .ok (.alter table [m]))
        groups maps := by
  by_cases hne : groups.flatten = []
  · rw [hne] at h
    cases h
  rw [ofArguments_alter hne] at h
  obtain ⟨maps, hmaps, rfl⟩ := map_eq_ok.mp h
  refine ⟨maps, rfl, (forall₂_of_mapM_alterMap hsize hmaps).imp fun g m hg => ?_⟩
  rw [ofArguments_alter (List.ne_nil_of_length_eq_add_one hg.1), hg.2]
  rfl

end WideColumn.Command
