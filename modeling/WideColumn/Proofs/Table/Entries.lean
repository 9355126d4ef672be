import WideColumn.Proofs.Table.KeyedList
import WideColumn.Table.Entries

/-! # The order of entries

In ordered entries a search splits the list at a place: everything before it precedes the place, and
everything after it follows. All that reads and writes do is stated along such splits. -/
namespace WideColumn

namespace Entry

variable {e a b : Entry} {row family : String}

theorem precedes_iff :
    e.precedes row family = true ↔ e.row < row ∨ e.row = row ∧ e.family < family := by
  simp [precedes]

theorem isAt_iff : e.isAt row family = true ↔ e.row = row ∧ e.family = family := by simp [isAt]

/-- The entry lies behind the place of a row and a family. -/
def Follows (e : Entry) (row family : String) : Prop :=
  row < e.row ∨ row = e.row ∧ family < e.family

theorem not_isAt_of_precedes (h : e.precedes row family = true) : e.isAt row family = false := by
  rw [Bool.eq_false_iff, ne_eq, isAt_iff]
  intro h
  obtain ⟨rfl, rfl⟩ := h
  rcases precedes_iff.mp h with h | ⟨-, h⟩ <;> exact String.lt_irrefl _ h

theorem Follows.not_isAt (h : e.Follows row family) : e.isAt row family = false := by
  rw [Bool.eq_false_iff, ne_eq, isAt_iff]
  intro h
  obtain ⟨rfl, rfl⟩ := h
  rcases h with h | ⟨-, h⟩ <;> exact String.lt_irrefl _ h

/-- An entry that is neither before a place nor at it is behind it. -/
theorem follows_of_not (hp : ¬ e.precedes row family = true) (ha : ¬ e.isAt row family = true) :
    e.Follows row family := by
  rw [precedes_iff, not_or, not_and] at hp
  rw [isAt_iff, not_and] at ha
  by_cases hr : e.row = row
  · exact .inr ⟨hr.symm, KeyedList.lt_of_not_lt (hp.2 hr) (ha hr)⟩
  · exact .inl (KeyedList.lt_of_not_lt hp.1 hr)

theorem Follows.of_precedes (ha : a.Follows row family) (h : a.precedes b.row b.family = true) :
    b.Follows row family := by
  rcases precedes_iff.mp h with h | ⟨hr, hf⟩
  · rcases ha with ha | ⟨ha, -⟩
    · exact .inl (String.lt_trans ha h)
    · exact .inl (ha ▸ h)
  · rcases ha with ha | ⟨ha, haf⟩
    · exact .inl (hr ▸ ha)
    · exact .inr ⟨ha.trans hr, String.lt_trans haf hf⟩

theorem follows_of_isAt (ha : a.isAt row family = true) (h : a.precedes b.row b.family = true) :
    b.Follows row family := by
  obtain ⟨rfl, rfl⟩ := isAt_iff.mp ha
  exact precedes_iff.mp h

end Entry

namespace Entries

variable {es before after : List Entry} {e : Entry} {row family : String} {i : Nat}

/-- The entry of a place, with what lies before and behind it. -/
structure FoundAt (es : List Entry) (row family : String) (before : List Entry) (e : Entry)
    (after : List Entry) : Prop where
  split : es = before ++ e :: after
  precede : ∀ a ∈ before, a.precedes row family = true
  isAt : e.isAt row family = true
  follow : ∀ a ∈ after, a.Follows row family

/-- A place without an entry, between the entries before and behind it. -/
structure VacantAt (es : List Entry) (row family : String) (before after : List Entry) : Prop where
  split : es = before ++ after
  precede : ∀ a ∈ before, a.precedes row family = true
  follow : ∀ a ∈ after, a.Follows row family

theorem takeWhile_eq_of_split {p : Entry → Bool} (hb : ∀ a ∈ before, p a = true)
    (ha : ∀ a ∈ after.head?, p a = false) : (before ++ after).takeWhile p = before := by
  rw [List.takeWhile_append_of_pos hb]
  cases after with
  | nil => simp
  | cons a after => simp [ha a rfl]

theorem FoundAt.search_eq (h : FoundAt es row family before e after) :
    search es row family = .found before.length := by
  have htake : es.takeWhile (fun a => a.precedes row family) = before := by
    rw [h.split]
    apply takeWhile_eq_of_split h.precede
    intro a ha
    cases Option.some.inj ha
    rw [Bool.eq_false_iff]
    intro hp
    exact absurd h.isAt (Bool.eq_false_iff.mp (Entry.not_isAt_of_precedes hp))
  simp only [search, htake]
  simp [h.split, h.isAt]

theorem not_precedes_of_follows (h : e.Follows row family) : e.precedes row family = false := by
  rw [Bool.eq_false_iff, ne_eq, Entry.precedes_iff]
  rintro (hp | ⟨hr, hp⟩) <;> rcases h with h | ⟨hr', h⟩
  · exact String.lt_asymm h hp
  · exact String.lt_irrefl _ (hr' ▸ hp)
  · exact String.lt_irrefl _ (hr ▸ h)
  · exact String.lt_asymm h hp

theorem VacantAt.search_eq (h : VacantAt es row family before after) :
    search es row family = .vacant before.length := by
  have htake : es.takeWhile (fun a => a.precedes row family) = before := by
    rw [h.split]
    apply takeWhile_eq_of_split h.precede
    intro a ha
    exact not_precedes_of_follows (h.follow a (List.mem_of_mem_head? ha))
  simp only [search, htake]
  cases after with
  | nil => simp [h.split]
  | cons a after => simp [h.split, (h.follow a List.mem_cons_self).not_isAt]

/-- A search in ordered entries ends at the entry of the place or where it belongs. -/
theorem Ordered.split (h : Ordered es) (row family : String) :
    (∃ before e after, FoundAt es row family before e after) ∨
      ∃ before after, VacantAt es row family before after := by
  have hsplit : es.takeWhile (fun a => a.precedes row family) ++
      es.dropWhile (fun a => a.precedes row family) = es := List.takeWhile_append_dropWhile
  have hprecede : ∀ a ∈ es.takeWhile (fun a => a.precedes row family),
      a.precedes row family = true := fun a ha => by
        simpa using List.all_eq_true.mp List.all_takeWhile a ha
  have horder := h.1
  rw [← hsplit, List.pairwise_append] at horder
  cases hdrop : es.dropWhile (fun a => a.precedes row family) with
  | nil => exact .inr ⟨_, [], ⟨by simpa [hdrop] using hsplit.symm, hprecede, by simp⟩⟩
  | cons e after =>
    rw [hdrop] at hsplit horder
    have hnot : ¬ e.precedes row family = true := by
      have hhead := List.head?_dropWhile_not (fun a : Entry => a.precedes row family) es
      simpa [hdrop] using hhead
    have hafter := (List.pairwise_cons.mp horder.2.1).1
    by_cases hat : e.isAt row family = true
    · exact .inl ⟨_, e, after, hsplit.symm, hprecede, hat,
        fun a ha => Entry.follows_of_isAt hat (hafter a ha)⟩
    · have he := Entry.follows_of_not hnot hat
      refine .inr ⟨_, e :: after, hsplit.symm, hprecede, fun a ha => ?_⟩
      rcases List.mem_cons.mp ha with rfl | ha
      · exact he
      · exact he.of_precedes (hafter a ha)

/-- No other entry is at the place. -/
theorem FoundAt.index_eq (h : FoundAt es row family before e after) {a : Entry}
    (hi : es[i]? = some a) (ha : a.isAt row family = true) : i = before.length := by
  rw [h.split] at hi
  rcases Nat.lt_trichotomy i before.length with hlt | heq | hgt
  · rw [List.getElem?_append_left hlt] at hi
    have hp := h.precede a (List.mem_of_getElem? hi)
    simp [Entry.not_isAt_of_precedes hp] at ha
  · exact heq
  · rw [List.getElem?_append_right (Nat.le_of_lt hgt),
      List.getElem?_cons, if_neg (by omega)] at hi
    simp [(h.follow a (List.mem_of_getElem? hi)).not_isAt] at ha

theorem VacantAt.not_isAt (h : VacantAt es row family before after) {a : Entry} (ha : a ∈ es) :
    a.isAt row family = false := by
  rw [h.split] at ha
  rcases List.mem_append.mp ha with ha | ha
  · exact Entry.not_isAt_of_precedes (h.precede a ha)
  · exact (h.follow a ha).not_isAt

theorem Ordered.search_eq_found_iff (h : Ordered es) :
    search es row family = .found i ↔ ∃ e, es[i]? = some e ∧ e.row = row ∧ e.family = family := by
  simp only [← Entry.isAt_iff]
  rcases h.split row family with ⟨before, e, after, hf⟩ | ⟨before, after, hv⟩
  · rw [hf.search_eq]
    constructor
    · intro hi
      cases hi
      exact ⟨e, by simp [hf.split], hf.isAt⟩
    · intro h
      obtain ⟨a, hi, ha⟩ := h
      rw [hf.index_eq hi ha]
  · rw [hv.search_eq]
    constructor
    · intro hi
      cases hi
    · intro h
      obtain ⟨a, hi, ha⟩ := h
      rw [hv.not_isAt (List.mem_of_getElem? hi)] at ha
      cases ha

/-- The entries of a row, with what lies before and behind them. -/
structure RowSplit (es : List Entry) (row : String) (before inside after : List Entry) : Prop where
  split : es = before ++ (inside ++ after)
  below : ∀ a ∈ before, a.row < row
  same : ∀ a ∈ inside, a.row = row
  above : ∀ a ∈ after, row < a.row

theorem row_le_of_precedes {a b : Entry} (h : a.precedes b.row b.family = true) :
    a.row ≤ b.row := by
  rcases Entry.precedes_iff.mp h with h | ⟨h, -⟩
  · exact Std.le_of_lt h
  · exact h ▸ String.le_refl _

theorem Ordered.rowSplit (h : Ordered es) (row : String) :
    ∃ before inside after, RowSplit es row before inside after := by
  obtain ⟨horder, -⟩ := h
  induction es with
  | nil => exact ⟨[], [], [], rfl, by simp, by simp, by simp⟩
  | cons e es ih =>
    obtain ⟨he, hes⟩ := List.pairwise_cons.mp horder
    have hle : ∀ a ∈ es, e.row ≤ a.row := fun a ha => row_le_of_precedes (he a ha)
    obtain ⟨before, inside, after, hs⟩ := ih hes
    by_cases hlt : e.row < row
    · exact ⟨e :: before, inside, after, by rw [hs.split]; rfl,
        List.forall_mem_cons.mpr ⟨hlt, hs.below⟩, hs.same, hs.above⟩
    -- from here on no entry lies below the row
    have hbefore : before = [] := List.eq_nil_iff_forall_not_mem.mpr fun a ha =>
      hlt (Std.lt_of_le_of_lt (hle a (by rw [hs.split]; simp [ha])) (hs.below a ha))
    by_cases heq : e.row = row
    · exact ⟨[], e :: inside, after, by rw [hs.split, hbefore]; rfl, by simp,
        List.forall_mem_cons.mpr ⟨heq, hs.same⟩, hs.above⟩
    · have hgt : row < e.row := KeyedList.lt_of_not_lt hlt heq
      have hinside : inside = [] := List.eq_nil_iff_forall_not_mem.mpr fun a ha =>
        String.not_lt.mpr (hle a (by rw [hs.split]; simp [ha])) (hs.same a ha ▸ hgt)
      exact ⟨[], [], e :: after, by rw [hs.split, hbefore, hinside]; rfl, by simp, by simp,
        List.forall_mem_cons.mpr ⟨hgt, hs.above⟩⟩

variable {inside : List Entry}

theorem RowSplit.rowRange_eq (h : RowSplit es row before inside after) :
    rowRange es row = (before.length, before.length + inside.length) := by
  have hstart : es.takeWhile (fun e => e.row < row) = before := by
    rw [h.split]
    refine takeWhile_eq_of_split (fun a ha => decide_eq_true (h.below a ha)) fun a ha => ?_
    rcases List.mem_append.mp (List.mem_of_mem_head? ha) with ha | ha
    · simp [h.same a ha]
    · exact decide_eq_false (String.lt_asymm (h.above a ha))
  have hstop : (es.drop before.length).takeWhile (fun e => e.row == row) = inside := by
    rw [h.split, List.drop_left]
    refine takeWhile_eq_of_split (fun a ha => beq_iff_eq.mpr (h.same a ha)) fun a ha => ?_
    have hlt := h.above a (List.mem_of_mem_head? ha)
    exact beq_eq_false_iff_ne.mpr (String.ne_of_lt hlt).symm
  simp only [rowRange, hstart, hstop]

theorem RowSplit.ofRow_eq (h : RowSplit es row before inside after) : ofRow es row = inside := by
  simp only [ofRow, h.rowRange_eq, List.drop_take]
  simp [h.split]

theorem RowSplit.withoutRow_eq (h : RowSplit es row before inside after) :
    withoutRow es row = before ++ after := by
  simp only [withoutRow, h.rowRange_eq, ← List.drop_drop]
  simp [h.split]

/-- The range of a row holds the indices of its entries and no others. -/
theorem RowSplit.mem_rowRange_iff (h : RowSplit es row before inside after) :
    (rowRange es row).1 ≤ i ∧ i < (rowRange es row).2 ↔ ∃ e, es[i]? = some e ∧ e.row = row := by
  rw [h.rowRange_eq, h.split]
  constructor
  · intro h
    obtain ⟨hlow, hhigh⟩ := h
    have hlt : i - before.length < inside.length := by omega
    rw [List.getElem?_append_right hlow, List.getElem?_append_left hlt]
    exact ⟨_, List.getElem?_eq_getElem hlt, h.same _ (List.getElem_mem hlt)⟩
  · intro h
    obtain ⟨e, he, hrow⟩ := h
    refine ⟨Nat.le_of_not_lt fun hlt => ?_, Nat.lt_of_not_le fun hle => ?_⟩
    · rw [List.getElem?_append_left hlt] at he
      exact String.ne_of_lt (h.below e (List.mem_of_getElem? he)) hrow
    · rw [List.getElem?_append_right (by omega), List.getElem?_append_right (by omega)] at he
      exact String.ne_of_lt (h.above e (List.mem_of_getElem? he)) hrow.symm

theorem RowSplit.ofRow_eq_filter (h : RowSplit es row before inside after) :
    ofRow es row = es.filter fun e => e.row == row := by
  have hb : before.filter (fun e => e.row == row) = [] :=
    List.filter_eq_nil_iff.mpr fun a ha => by simp [String.ne_of_lt (h.below a ha)]
  have hi : inside.filter (fun e => e.row == row) = inside :=
    List.filter_eq_self.mpr fun a ha => by simp [h.same a ha]
  have ha : after.filter (fun e => e.row == row) = [] :=
    List.filter_eq_nil_iff.mpr fun a ha => by simp [(String.ne_of_lt (h.above a ha)).symm]
  rw [h.ofRow_eq, h.split, List.filter_append, List.filter_append, hb, hi, ha]
  simp

theorem RowSplit.withoutRow_eq_filter (h : RowSplit es row before inside after) :
    withoutRow es row = es.filter fun e => e.row != row := by
  have hb : before.filter (fun e => e.row != row) = before :=
    List.filter_eq_self.mpr fun a ha => by simp [String.ne_of_lt (h.below a ha)]
  have hi : inside.filter (fun e => e.row != row) = [] :=
    List.filter_eq_nil_iff.mpr fun a ha => by simp [h.same a ha]
  have ha : after.filter (fun e => e.row != row) = after :=
    List.filter_eq_self.mpr fun a ha => by simp [(String.ne_of_lt (h.above a ha)).symm]
  rw [h.withoutRow_eq, h.split, List.filter_append, List.filter_append, hb, hi, ha]
  simp

theorem Ordered.ofRow_eq (h : Ordered es) (row : String) :
    ofRow es row = es.filter fun e => e.row == row := by
  obtain ⟨_, _, _, hs⟩ := h.rowSplit row
  exact hs.ofRow_eq_filter

theorem Ordered.withoutRow_eq (h : Ordered es) (row : String) :
    withoutRow es row = es.filter fun e => e.row != row := by
  obtain ⟨_, _, _, hs⟩ := h.rowSplit row
  exact hs.withoutRow_eq_filter

end Entries

end WideColumn
