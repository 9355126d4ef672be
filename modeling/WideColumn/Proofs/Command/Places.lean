import WideColumn.Command.Places
import WideColumn.Proofs.Command.Keyword

/-! # No place of a line is out of range

Reading a line by places always has an answer, and it is the one of reading the line piece by
piece. -/
namespace WideColumn
open WideColumn.Text

variable {k : Keyword} {rest cs : List Char} {args before groups : List Argument}

namespace Placed

theorem itemsFrom_of_le {α : Type} {items : List α} {place : Nat} (h : place ≤ items.length) :
    itemsFrom items place = pure (items.drop place) :=
  if_pos h

theorem lift_bind {α β : Type} (x : Except Fault α) (f : α → Except Fault β) :
    (liftM (x >>= f) : Placed β) = liftM x >>= fun a => liftM (f a) := by
  cases x <;> rfl

theorem textFrom_cons (c : Char) (text : List Char) (byte : Nat) :
    textFrom (c :: text) (c.utf8Size + byte) = textFrom text byte := by
  obtain ⟨n, hn⟩ := Nat.exists_eq_succ_of_ne_zero (Nat.ne_of_gt c.utf8Size_pos)
  rw [hn, Nat.succ_add, textFrom, hn, if_pos (by omega)]
  congr 1
  omega

/-- The end of a text is a place in every text that starts with it. -/
theorem textFrom_append (word rest : List Char) :
    textFrom (word ++ rest) (String.ofList word).utf8ByteSize = pure rest := by
  induction word with
  | nil =>
    rw [List.nil_append, String.ofList_nil, String.utf8ByteSize_empty, textFrom.eq_def]
  | cons c word ih =>
    have hsize : (String.ofList (c :: word)).utf8ByteSize = c.utf8Size +
        (String.ofList word).utf8ByteSize := by
      rw [String.ofList_cons, String.utf8ByteSize_append, String.utf8ByteSize_singleton]
    rw [hsize, List.cons_append, textFrom_cons]
    exact ih

end Placed

namespace Keyword

theorem ending?_eq (line : List Char) :
    k.ending? line = (k.after? line).map fun _ => k.text.utf8ByteSize := by
  rw [ending?, after?]
  by_cases hprefix : k.text.toList.isPrefixOf line = true
  · rw [if_pos hprefix, hprefix, Bool.true_and]
    dsimp only
    cases (line.drop k.text.toList.length).head?.any isWordChar <;> rfl
  · rw [if_neg hprefix, Bool.eq_false_iff.mpr hprefix]
    rfl

/-- The text after a keyword starts in the byte in which the keyword ends. -/
theorem textFrom_of_after? (h : k.after? cs = some rest) :
    Placed.textFrom cs k.text.utf8ByteSize = pure rest := by
  obtain ⟨rfl, -⟩ := after?_eq_some_iff_append.mp h
  have hend := Placed.textFrom_append k.text.toList rest
  rw [String.ofList_toList] at hend
  exact hend

theorem findSome?_ending? (keywords : List Keyword) (line : List Char) :
    (keywords.findSome? fun k => (k.ending? line).map (k, ·)) =
      (Command.dispatch keywords line).map fun found => (found.1, found.1.text.utf8ByteSize) := by
  rw [Command.dispatch, List.map_findSome?]
  congr 1
  funext k
  rw [ending?_eq, Option.map_map, Function.comp_apply, Option.map_map]
  rfl

end Keyword

namespace Command
open Placed

theorem stringAt_of_getElem? {a : Argument} {place : Nat} (h : args[place]? = some a) :
    k.stringAt args place = k.string (place + 1) a := by
  rw [Keyword.stringAt, h]

theorem eq_nil_of_no_group {α : Type} {items : List α}
    (hshort : ∀ a b c rest, items = a :: b :: c :: rest → False) (h : 3 ∣ items.length) :
    items = [] := by
  rcases items with _ | ⟨a, _ | ⟨b, _ | ⟨c, rest⟩⟩⟩
  · rfl
  · exact absurd h (by simp)
  · exact absurd h (by simp)
  · exact (hshort a b c rest rfl).elim

/-- The value that three arguments in a row give is the one of the group that they are. -/
theorem cellWriteAt_eq {row column value : Argument}
    (hargs : args = before ++ row :: column :: value :: groups) :
    cellWriteAt args before.length = (do
      let row ← Keyword.put.string (before.length + 1) row
      let column ← CellColumn.parse (← Keyword.put.string (before.length + 2) column)
      let value ← Keyword.put.string (before.length + 3) value
      return { row, column, value }) := by
  have hrow : args[before.length]? = some row := by simp [hargs]
  have hcolumn : args[before.length + 1]? = some column := by simp [hargs]
  have hvalue : args[before.length + 2]? = some value := by simp [hargs]
  rw [cellWriteAt, stringAt_of_getElem? hrow, stringAt_of_getElem? hcolumn,
    stringAt_of_getElem? hvalue]

/-- The places that are three apart are those at which the groups of three start. -/
theorem mapM_cellWriteAt {number : Nat} (hargs : args = before ++ groups)
    (hnumber : number = before.length + 1) (hgroups : 3 ∣ groups.length) :
    (List.range' before.length (groups.length / 3) 3).mapM (cellWriteAt args) =
      cellWrites number groups := by
  induction number, groups using cellWrites.induct generalizing before with
  | case1 number row column value rest ih =>
    have hlength : (row :: column :: value :: rest).length / 3 = rest.length / 3 + 1 := by
      simp only [List.length_cons]
      omega
    have hnext : args = (before ++ [row, column, value]) ++ rest := by simp [hargs]
    have hrest := ih hnext (by simp [hnumber]) ((Nat.dvd_add_iff_left (Nat.dvd_refl 3)).mpr hgroups)
    rw [List.length_append] at hrest
    rw [hlength, List.range'_succ, List.mapM_cons, cellWriteAt_eq hargs, cellWrites,
      ← hrest, hnumber]
    simp only [bind_assoc, pure_bind]
    rfl
  | case2 groups number hshort =>
    rw [eq_nil_of_no_group hshort hgroups]
    rfl

/-- Where the arguments after the first make up groups of three, the places that are visited are
those of the groups. -/
theorem mapM_groupPlaces (hne : args.drop 1 ≠ []) (hgroups : 3 ∣ (args.drop 1).length) :
    (groupPlaces args).mapM (cellWriteAt args) = cellWrites 2 (args.drop 1) := by
  obtain ⟨first, groups, rfl⟩ := List.exists_cons_of_ne_nil fun h : args = [] =>
    hne (congrArg (List.drop 1) h)
  rw [List.drop_one, List.tail_cons] at hgroups ⊢
  have hplaces : groupPlaces (first :: groups) = List.range' [first].length
      (groups.length / 3) 3 := by
    rw [groupPlaces, List.length_cons, Nat.add_sub_cancel, List.length_singleton]
    congr 1
    omega
  rw [hplaces]
  exact mapM_cellWriteAt rfl rfl hgroups

theorem ofArgumentsByPlaces_eq (args : List Argument) (k : Keyword) :
    ofArgumentsByPlaces args k = liftM (ofArguments args k) := by
  cases k with
  | create | alter =>
    rw [ofArgumentsByPlaces, ofArguments, lift_bind]
    refine bind_congr fun table => ?_
    split
    · rfl
    · have hplace : 1 ≤ args.length := by omega
      rw [itemsFrom_of_le hplace, pure_bind, lift_bind]
      rfl
  | put =>
    have hdrop : args.drop (min 1 args.length) = args.drop 1 := by cases args <;> simp
    rw [ofArgumentsByPlaces, ofArguments, lift_bind]
    refine bind_congr fun table => ?_
    rw [itemsFrom_of_le (Nat.min_le_right _ _), pure_bind, hdrop]
    dsimp only
    split
    · rfl
    · next hwhole =>
      simp only [Bool.or_eq_true, bne_iff_ne, not_or, List.isEmpty_iff, Decidable.not_not] at hwhole
      rw [mapM_groupPlaces hwhole.1 (Nat.dvd_of_mod_eq_zero hwhole.2), lift_bind]
      rfl
  | _ => rfl

/-- Reading by places always has an answer, the one of reading piece by piece. -/
theorem run_parseByPlaces (line : String) : (parseByPlaces line).run = some (parse line) := by
  have hlift : parseByPlaces line = liftM (parse line) := by
    rw [parseByPlaces, parse]
    split
    · rfl
    · rw [Keyword.findSome?_ending?]
      cases hdispatch : dispatch Keyword.all (trim line.toList) with
      | none => rfl
      | some found =>
        obtain ⟨k, rest⟩ := found
        have hrest := Keyword.textFrom_of_after? (Keyword.dispatch_eq_some_iff.mp hdispatch).2
        rw [Option.map_some]
        dsimp only
        rw [hrest, pure_bind, lift_bind]
        exact bind_congr fun args => ofArgumentsByPlaces_eq args k
  rw [hlift]
  rfl

end Command

end WideColumn
