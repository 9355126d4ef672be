import WideColumn.Command.Parser
import WideColumn.Proofs.Sequence

/-! # The keyword of a line

A line is for the keyword that is its first word, whatever the order in which keywords are tried. -/
namespace WideColumn.Keyword
open WideColumn.Text

variable {k k' : Keyword} {line rest rest' : List Char} {keywords : List Keyword}

theorem mem_all (k : Keyword) : k ∈ all := by
  cases k <;> decide

theorem eq_of_text_eq (h : k.text = k'.text) : k = k' := by
  have hall : ∀ k ∈ all, ∀ k' ∈ all, k.text = k'.text → k = k' := by decide
  exact hall k k.mem_all k' k'.mem_all h

theorem isWordChar_of_mem_text : ∀ c ∈ k.text.toList, isWordChar c = true := by
  have hall : ∀ k ∈ all, k.text.toList.all isWordChar = true := by decide +kernel
  exact List.all_eq_true.mp (hall k k.mem_all)

theorem after?_eq_some_iff_append : k.after? line = some rest ↔
    line = k.text.toList ++ rest ∧ ∀ c ∈ rest.head?, isWordChar c = false := by
  constructor
  · intro h
    rw [after?] at h
    split at h
    · next hprefix =>
      obtain ⟨tail, rfl⟩ := List.isPrefixOf_iff_prefix.mp hprefix
      rw [List.drop_left] at h
      dsimp only at h
      split at h
      · cases h
      · next hstop =>
        cases h
        rw [Option.any_eq_true, not_exists] at hstop
        exact ⟨rfl, fun c hc => Bool.eq_false_iff.mpr fun hw => hstop c ⟨hc, hw⟩⟩
    · cases h
  · intro h
    obtain ⟨rfl, hstop⟩ := h
    have hany : rest.head?.any isWordChar = false := by
      cases rest with
      | nil => rfl
      | cons c rest => exact hstop c rfl
    rw [after?, if_pos (List.isPrefixOf_iff_prefix.mpr (List.prefix_append _ _)), List.drop_left]
    dsimp only
    rw [hany]
    rfl

/-- The text after a keyword starts where the first word of the line ends. -/
theorem after?_eq_some_iff : k.after? line = some rest ↔
    line.takeWhile isWordChar = k.text.toList ∧ line.dropWhile isWordChar = rest := by
  rw [after?_eq_some_iff_append]
  constructor
  · intro h
    obtain ⟨rfl, hstop⟩ := h
    exact ⟨takeWhile_append_of_stop isWordChar_of_mem_text hstop,
      dropWhile_append_of_stop isWordChar_of_mem_text hstop⟩
  · intro h
    obtain ⟨hword, hrest⟩ := h
    rw [← hword, ← hrest, List.takeWhile_append_dropWhile]
    exact ⟨rfl, eq_false_of_mem_head?_dropWhile⟩

/-- At most one keyword is the first word of a line. -/
theorem eq_of_after? (h : k.after? line = some rest) (h' : k'.after? line = some rest') :
    k = k' ∧ rest = rest' := by
  obtain ⟨hword, hrest⟩ := after?_eq_some_iff.mp h
  obtain ⟨hword', hrest'⟩ := after?_eq_some_iff.mp h'
  exact ⟨eq_of_text_eq (String.toList_inj.mp (hword.symm.trans hword')), hrest.symm.trans hrest'⟩

/-- The order of the keywords does not matter. -/
theorem dispatch_eq_some_iff :
    Command.dispatch keywords line = some (k, rest) ↔ k ∈ keywords ∧ k.after? line = some rest := by
  constructor
  · intro h
    obtain ⟨k', hk', h⟩ := List.exists_of_findSome?_eq_some h
    obtain ⟨rest', hrest', h⟩ := Option.map_eq_some_iff.mp h
    cases h
    exact ⟨hk', hrest'⟩
  · intro h
    obtain ⟨hk, hrest⟩ := h
    cases hd : Command.dispatch keywords line with
    | none =>
      have hnone := List.findSome?_eq_none_iff.mp hd k hk
      rw [hrest] at hnone
      cases hnone
    | some found =>
      obtain ⟨k', -, h⟩ := List.exists_of_findSome?_eq_some hd
      obtain ⟨rest', hrest', rfl⟩ := Option.map_eq_some_iff.mp h
      obtain ⟨rfl, rfl⟩ := eq_of_after? hrest hrest'
      rfl

theorem dispatch_of_forall_mem (h : ∀ k, k ∈ keywords) :
    Command.dispatch keywords line = Command.dispatch all line := by
  refine Option.ext fun found => ?_
  obtain ⟨k, rest⟩ := found
  rw [dispatch_eq_some_iff, dispatch_eq_some_iff]
  exact and_congr_left fun _ => iff_of_true (h k) k.mem_all

theorem dispatch_text (hstop : ∀ c ∈ rest.head?, isWordChar c = false) :
    Command.dispatch all (k.text.toList ++ rest) = some (k, rest) :=
  dispatch_eq_some_iff.mpr ⟨k.mem_all, after?_eq_some_iff_append.mpr ⟨rfl, hstop⟩⟩

end WideColumn.Keyword

namespace WideColumn.Command
open WideColumn.Text

variable {k : Keyword} {cs : List Char} {keywords : List Keyword}

/-- The command that a keyword makes of the text after it. -/
def ofText (k : Keyword) (rest : List Char) : Except Fault Command := do
  let args ← (Argument.ofString (.ofList rest)).mapError (Fault.inCommand k)
  ofArguments args k

/-- The command that a line gives if it is tried against these keywords, one after the other. -/
def parseAmong (keywords : List Keyword) (line : String) : Except Fault Command :=
  let cs := trim line.toList
  if cs.isEmpty then pure .empty
  else match dispatch keywords cs with
    | none => pure (.unknown (.ofList cs))
    | some (k, rest) => ofText k rest

theorem parse_eq_parseAmong (line : String) : parse line = parseAmong Keyword.all line := rfl

theorem dispatch_firstWord (h : cs.takeWhile isWordChar = k.text.toList) :
    dispatch Keyword.all cs = some (k, cs.dropWhile isWordChar) :=
  Keyword.dispatch_eq_some_iff.mpr ⟨k.mem_all, Keyword.after?_eq_some_iff.mpr ⟨h, rfl⟩⟩

theorem dispatch_eq_none (h : ∀ k : Keyword, cs.takeWhile isWordChar ≠ k.text.toList) :
    dispatch keywords cs = none := by
  refine Option.eq_none_iff_forall_ne_some.mpr fun found hfound => ?_
  obtain ⟨k, rest⟩ := found
  exact h k (Keyword.after?_eq_some_iff.mp (Keyword.dispatch_eq_some_iff.mp hfound).2).1

/-- The first word of a line that is not blank decides what the line is: if it is a keyword, then
the command is the one that this keyword makes of the text after the word, and if it is none, then
the line is unknown. No two keywords start one line as whole words, so the order in which a line is
tried against them does not matter. -/
theorem parse_firstWord (line : String) (hline : trim line.toList ≠ []) :
    (∀ k : Keyword, (trim line.toList).takeWhile isWordChar = k.text.toList →
        parse line = ofText k ((trim line.toList).dropWhile isWordChar)) ∧
      ((∀ k : Keyword, (trim line.toList).takeWhile isWordChar ≠ k.text.toList) →
        parse line = .ok (.unknown (trimmed line))) ∧
      (∀ (k k' : Keyword) (rest rest' : List Char), k.after? (trim line.toList) = some rest →
        k'.after? (trim line.toList) = some rest' → k = k') ∧
      ∀ keywords : List Keyword, keywords.Perm Keyword.all →
      parseAmong keywords line = parse line := by
  have hempty : ¬(trim line.toList).isEmpty = true := fun h => hline (List.isEmpty_iff.mp h)
  refine ⟨fun k hk => ?_, fun hk => ?_, fun k k' rest rest' h h' => (Keyword.eq_of_after? h h').1,
    fun keywords h => ?_⟩
  · rw [parse_eq_parseAmong, parseAmong, if_neg hempty, dispatch_firstWord hk]
  · rw [parse_eq_parseAmong, parseAmong, if_neg hempty, dispatch_eq_none hk]
    rfl
  · have hall : ∀ k, k ∈ keywords := fun k => h.mem_iff.mpr k.mem_all
    rw [parse_eq_parseAmong, parseAmong, parseAmong, Keyword.dispatch_of_forall_mem hall]

/-- A keyword that another one starts, with its argument right behind it. -/
theorem parse_firstWord_dropAll : parse "\u00a0drop_all't.*' " = .ok (.dropAll "t.*") ∧
    parseAmong Keyword.all.reverse "\u00a0drop_all't.*' " = .ok (.dropAll "t.*") ∧
    parse "drop\u0301 't'" = .ok (.unknown "drop\u0301 't'") := by
  have htext : ofText .dropAll "'t.*'".toList = .ok (.dropAll "t.*") :=
    eq_ok_of_toOption (by decide +kernel)
  obtain ⟨hkeyword, -, -, horder⟩ := parse_firstWord "\u00a0drop_all't.*' " (by decide)
  have hparse : parse "\u00a0drop_all't.*' " = .ok (.dropAll "t.*") :=
    (hkeyword .dropAll (by decide +kernel)).trans htext
  have hunknown := (parse_firstWord "drop\u0301 't'" (by decide)).2.1
    (by intro k; cases k <;> decide +kernel)
  exact ⟨hparse, (horder _ (List.reverse_perm _)).trans hparse, hunknown⟩

end WideColumn.Command
