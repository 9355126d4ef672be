import Mathlib.Data.List.Forall2
import Mathlib.Order.Bounds.Basic
import WideColumn.Proofs.Sequence
import WideColumn.Shell.Render

/-! # Listings read back

The keys of a listing stand one blank in, and its cells at one place, which is where the title over
them stands. So the lines give the keys and cells back. -/
namespace WideColumn.Shell

/-- The line has one part on the left, then blanks only, then the other part from `offset` on. -/
def Aligned (offset : Nat) (left right line : String) : Prop :=
  ∃ blanks, line.toList = left.toList ++ List.replicate blanks ' ' ++ right.toList ∧
    left.toList.length + blanks = offset

variable {offset width : Nat} {left right line key cell : String} {layout : Layout} {l : CellLine}
  {lines : List CellLine}

/-- A part that fits is not cut, and two blanks follow it at least. -/
theorem aligned_filled (h : left.toList.length ≤ width) (right : String) :
    Aligned (width + 2) left right (filled width left ++ "  " ++ right) := by
  refine ⟨width - left.toList.length + 2, ?_, by omega⟩
  rw [filled, String.toList_append, String.toList_append, String.toList_ofList,
    ← List.replicate_append_replicate, List.append_assoc left.toList]
  rfl

theorem aligned_indent (h : key.toList.length + 1 ≤ width) (cell : String) :
    Aligned (width + 2) (" " ++ key) cell (" " ++ filled (width - 1) key ++ "  " ++ cell) := by
  obtain ⟨blanks, hline, hblanks⟩ := aligned_filled (Nat.le_sub_one_of_lt h) cell
  refine ⟨blanks, ?_, ?_⟩
  · simp only [String.toList_append, List.append_assoc] at hline ⊢
    rw [hline]
  · rw [String.toList_append, List.length_append, Nat.add_assoc, hblanks]
    change 1 + (width - 1 + 2) = width + 2
    omega

theorem isGreatest_foldl_max {α : Type} (f : α → Nat) (n : Nat) (as : List α) :
    IsGreatest {m | m = n ∨ ∃ a ∈ as, m = f a} (as.foldl (fun w a => max w (f a)) n) := by
  induction as generalizing n with
  | nil =>
    refine ⟨.inl rfl, ?_⟩
    rintro m (rfl | ⟨a, ha, -⟩)
    · exact Nat.le_refl _
    · cases ha
  | cons a as ih =>
    obtain ⟨hmem, hle⟩ := ih (max n (f a))
    have hmax : max n (f a) ≤ as.foldl (fun w a => max w (f a)) (max n (f a)) := hle (.inl rfl)
    refine ⟨?_, ?_⟩
    · rcases hmem with hmem | ⟨b, hb, hmem⟩
      · rcases Nat.le_total n (f a) with h | h
        · exact .inr ⟨a, List.mem_cons_self, hmem.trans (Nat.max_eq_right h)⟩
        · exact .inl (hmem.trans (Nat.max_eq_left h))
      · exact .inr ⟨b, List.mem_cons_of_mem a hb, hmem⟩
    · rintro m (rfl | ⟨b, hb, rfl⟩)
      · exact Nat.le_trans (Nat.le_max_left _ _) hmax
      · rcases List.mem_cons.mp hb with rfl | hb
        · exact Nat.le_trans (Nat.le_max_right _ _) hmax
        · exact hle (.inr ⟨b, hb, rfl⟩)

/-- The left title fits, each key fits after a blank, and one of them fits exactly. -/
theorem isGreatest_listingWidth (layout : Layout) (lines : List CellLine) :
    IsGreatest {n | n = layout.titles.1.toList.length ∨ ∃ l ∈ lines, n = l.key.toList.length + 1}
      (listingWidth layout lines) :=
  isGreatest_foldl_max (fun l : CellLine => l.key.toList.length + 1) _ lines

theorem listingWidth_pos (layout : Layout) (lines : List CellLine) :
    1 ≤ listingWidth layout lines := by
  have hleft := (isGreatest_listingWidth layout lines).2 (.inl rfl)
  cases layout <;> exact Nat.le_trans (by decide) hleft

def withoutLastBlanks (cs : List Char) : List Char := (cs.reverse.dropWhile (· == ' ')).reverse

/-- The key after the first blank, less the blanks behind it, and the cell from its place on. -/
def readLine (offset : Nat) (line : String) : CellLine where
  key := .ofList (withoutLastBlanks ((line.toList.take offset).drop 1))
  cell := .ofList (line.toList.drop offset)

def readLayout (header : String) : Layout :=
  if Layout.rows.titles.1.toList.isPrefixOf header.toList then .rows else .columns

/-- Where the cells of a listing stand: behind everything but the right title. -/
def readOffset (header : String) : Nat :=
  header.toList.length - (readLayout header).titles.2.toList.length

def readListing : List String → List CellLine
  | [] => []
  | header :: body => body.map (readLine (readOffset header))

theorem withoutLastBlanks_append {cs : List Char} (h : cs.getLast? ≠ some ' ') (n : Nat) :
    withoutLastBlanks (cs ++ List.replicate n ' ') = cs := by
  have hstop : ∀ c ∈ cs.reverse.head?, (c == ' ') = false := by
    intro c hc
    rw [List.head?_reverse] at hc
    exact beq_false_of_ne fun heq => h (heq ▸ hc)
  rw [withoutLastBlanks, List.reverse_append, List.reverse_replicate,
    dropWhile_append_of_stop (fun c hc => beq_of_eq (List.eq_of_mem_replicate hc)) hstop,
      List.reverse_reverse]

theorem readLine_of_aligned (h : Aligned offset (" " ++ l.key) l.cell line)
    (hkey : l.key.toList.getLast? ≠ some ' ') :
    readLine offset line = l := by
  obtain ⟨blanks, hline, hoffset⟩ := h
  have hlength : ((" " ++ l.key).toList ++ List.replicate blanks ' ').length = offset := by
    rw [List.length_append, List.length_replicate, hoffset]
  have hdrop : ((" " ++ l.key).toList ++ List.replicate blanks ' ').drop 1 =
      l.key.toList ++ List.replicate blanks ' ' := by
    rw [String.toList_append]
    rfl
  rw [readLine, hline, List.take_left' hlength, List.drop_left' hlength, hdrop,
    withoutLastBlanks_append hkey, String.ofList_toList, String.ofList_toList]

theorem readLayout_of_aligned (h : Aligned offset layout.titles.1 layout.titles.2 line) :
    readLayout line = layout := by
  obtain ⟨blanks, hline, -⟩ := h
  rw [readLayout, hline]
  cases layout <;> rfl

theorem readOffset_of_aligned (h : Aligned offset layout.titles.1 layout.titles.2 line) :
    readOffset line = offset := by
  rw [readOffset, readLayout_of_aligned h]
  obtain ⟨blanks, hline, hoffset⟩ := h
  rw [hline, List.length_append, List.length_append, List.length_replicate, hoffset,
    Nat.add_sub_cancel]

theorem padTo?_of_le (h : width ≤ maxWidth) (s : String) : padTo? width s = some (filled width s) :=
  if_pos h

/-- A listing that is within the width is its header and its lines, filled up. -/
theorem listing?_of_le (h : listingWidth layout lines ≤ maxWidth) :
    listing? layout lines = some
      ((filled (listingWidth layout lines) layout.titles.1 ++ "  " ++ layout.titles.2) ::
        lines.map fun l =>
          " " ++ filled (listingWidth layout lines - 1) l.key ++ "  " ++ l.cell) := by
  have htitle := padTo?_of_le h layout.titles.1
  have hbody : lines.mapM (fun l => (padTo? (listingWidth layout lines - 1) l.key).map fun key =>
      " " ++ key ++ "  " ++ l.cell) = some (lines.map fun l =>
        " " ++ filled (listingWidth layout lines - 1) l.key ++ "  " ++ l.cell) :=
    mapM_eq_some_map fun l _ => by
      rw [padTo?_of_le (Nat.le_trans (Nat.sub_le _ 1) h), Option.map_some]
  exact (bind_of_eq_some htitle).trans (bind_of_eq_some hbody)

theorem listing?_of_lt (h : maxWidth < listingWidth layout lines) :
    listing? layout lines = none := by
  rw [listing?, padTo?, if_neg (Nat.not_le.mpr h)]
  rfl

/-- Both titles are short, so it is the keys that are within the width or not. -/
theorem listingWidth_le_iff :
    listingWidth layout lines ≤ maxWidth ↔ ∀ l ∈ lines, l.key.toList.length < maxWidth := by
  obtain ⟨hmem, hle⟩ := isGreatest_listingWidth layout lines
  constructor
  · intro h l hl
    exact Nat.lt_of_succ_le (Nat.le_trans (hle (.inr ⟨l, hl, rfl⟩)) h)
  · intro h
    rcases hmem with htitle | ⟨l, hl, hkey⟩
    · rw [htitle]
      cases layout <;> decide
    · rw [hkey]
      exact h l hl

theorem listing?_eq_none_iff :
    listing? layout lines = none ↔ ∃ l ∈ lines, maxWidth ≤ l.key.toList.length := by
  have hlong : (∃ l ∈ lines, maxWidth ≤ l.key.toList.length) ↔
      ¬ listingWidth layout lines ≤ maxWidth := by
    rw [listingWidth_le_iff]
    simp only [not_forall, Nat.not_lt, exists_prop]
  rw [hlong]
  refine ⟨fun hnone h => ?_, fun h => listing?_of_lt (Nat.lt_of_not_le h)⟩
  rw [listing?_of_le h] at hnone
  cases hnone

/-- There is a header and a line for each cell, in their order. The right title and every cell stand
two places behind the width. No key is cut, and blanks only stand between it and its cell, so that
the keys and cells can be read back if no key ends in a blank. -/
def LaidOut (layout : Layout) (lines : List CellLine) : Prop :=
  ∃ header body, listing? layout lines = some (header :: body) ∧
    Aligned (listingWidth layout lines + 2) layout.titles.1 layout.titles.2 header ∧
    List.Forall₂ (fun l line => Aligned (listingWidth layout lines + 2) (" " ++ l.key) l.cell line)
      lines body ∧
    ((∀ l ∈ lines, l.key.toList.getLast? ≠ some ' ') → readListing (header :: body) = lines)

theorem LaidOut.listing?_ne_none (h : LaidOut layout lines) : listing? layout lines ≠ none := by
  obtain ⟨header, body, hlisting, -⟩ := h
  rw [hlisting]
  exact Option.some_ne_none _

theorem laidOut_of_le (h : listingWidth layout lines ≤ maxWidth) : LaidOut layout lines := by
  have hwidth := isGreatest_listingWidth layout lines
  have hheader := aligned_filled (hwidth.2 (.inl rfl)) layout.titles.2
  have hline (l : CellLine) (hl : l ∈ lines) := aligned_indent (hwidth.2 (.inr ⟨l, hl, rfl⟩)) l.cell
  refine ⟨_, _, listing?_of_le h, hheader, ?_, fun hkeys => ?_⟩
  · exact List.forall₂_map_right_iff.mpr (List.forall₂_same.mpr hline)
  · rw [readListing, readOffset_of_aligned hheader, List.map_map]
    have hread : ∀ l ∈ lines, _ := fun l hl => readLine_of_aligned (hline l hl) (hkeys l hl)
    exact (List.map_congr_left hread).trans (List.map_id _)

/-- The width is that of the left title or of the longest key after a blank, and no less than 1. The
listing is laid out if all keys are shorter than the greatest width, and otherwise there is none. -/
theorem laidOut_iff (layout : Layout) (lines : List CellLine) :
    IsGreatest {n | n = layout.titles.1.toList.length ∨ ∃ l ∈ lines, n = l.key.toList.length + 1}
      (listingWidth layout lines) ∧
    1 ≤ listingWidth layout lines ∧
    (LaidOut layout lines ↔ ∀ l ∈ lines, l.key.toList.length < maxWidth) ∧
    (listing? layout lines = none ↔ ∃ l ∈ lines, maxWidth ≤ l.key.toList.length) := by
  refine ⟨isGreatest_listingWidth layout lines, listingWidth_pos layout lines, ?_,
    listing?_eq_none_iff⟩
  rw [← listingWidth_le_iff]
  refine ⟨fun h => Nat.le_of_not_lt fun hwide => ?_, laidOut_of_le⟩
  exact h.listing?_ne_none (listing?_of_lt hwide)

/-- A row of 65535 characters. -/
def longRow : CellLine := ⟨.ofList (List.replicate 65535 'a'), "v"⟩

theorem not_laidOut_longRow : longRow.key.toList.length = 65535 ∧ ¬ LaidOut .rows [longRow] ∧
    listing? .rows [longRow] = none := by
  have hlength : longRow.key.toList.length = maxWidth :=
    (congrArg List.length String.toList_ofList).trans List.length_replicate
  have hnone : listing? .rows [longRow] = none :=
    listing?_eq_none_iff.mpr ⟨longRow, List.mem_singleton_self _, Nat.le_of_eq hlength.symm⟩
  exact ⟨hlength, fun h => h.listing?_ne_none hnone, hnone⟩

/-- The longest key of these is as long as the left title, and one of more bytes than characters. -/
theorem laidOut_columns :
    ∃ shown, listing? .columns [⟨"info:a", "1"⟩, ⟨"", " "⟩, ⟨"é:ü", ""⟩] = some shown ∧
    readListing shown = [⟨"info:a", "1"⟩, ⟨"", " "⟩, ⟨"é:ü", ""⟩] := by
  obtain ⟨-, -, hiff, -⟩ := laidOut_iff .columns [⟨"info:a", "1"⟩, ⟨"", " "⟩, ⟨"é:ü", ""⟩]
  obtain ⟨header, body, hlisting, -, -, hread⟩ := hiff.mpr (by decide +kernel)
  exact ⟨header :: body, hlisting, hread (by decide +kernel)⟩

end WideColumn.Shell
