import Mathlib.Logic.Function.Iterate
import WideColumn.Pattern.Basic

/-! # The stretches that a pattern matches

A stretch is given by the places where it begins and ends. Following marks through a pattern comes
upon the ends of the stretches that begin at the marked places. An iteration needs no more rounds
than there are places, since of more steps one leads nowhere. -/
namespace WideColumn.Pattern

/-- So many steps lead from one place to another. -/
def Steps (R : Nat → Nat → Prop) : Nat → Nat → Nat → Prop
  | 0, i, j => i = j
  | n + 1, i, j => ∃ k, R i k ∧ Steps R n k j

def before? (text : List Char) : Nat → Option Char
  | 0 => none
  | i + 1 => text[i]?

/-- The pattern matches the stretch from one place to another. -/
def Node.Spans (text : List Char) : Node → Nat → Nat → Prop
  | empty, i, j => i = j
  | char s, i, j => (∃ c, text[i]? = some c ∧ s.contains c = true) ∧ j = i + 1
  | assertion words a, i, j => a.holds words (before? text i) text[i]? = true ∧ i = j
  | concat a b, i, j => ∃ k, a.Spans text i k ∧ b.Spans text k j
  | alternative a b, i, j => a.Spans text i j ∨ b.Spans text i j
  -- as often as demanded, and then as often as the bound leaves room for
  | iterated a least most, i, j =>
    ∃ n, (∀ bound ∈ most, n ≤ bound - least) ∧ Steps (a.Spans text) (least + n) i j

section

variable {R : Nat → Nat → Prop} {i j k n m last : Nat}

theorem Steps.single (h : R i j) : Steps R 1 i j := ⟨j, h, rfl⟩

theorem steps_add : Steps R (n + m) i j ↔ ∃ k, Steps R n i k ∧ Steps R m k j := by
  induction n generalizing i with
  | zero =>
    rw [Nat.zero_add]
    constructor
    · exact fun h => ⟨i, rfl, h⟩
    · intro h
      obtain ⟨_, rfl, h⟩ := h
      exact h
  | succ n ih =>
    rw [Nat.succ_add]
    constructor
    · intro h
      obtain ⟨l, hl, h⟩ := h
      obtain ⟨k, hk, h⟩ := ih.mp h
      exact ⟨k, ⟨l, hl, hk⟩, h⟩
    · intro h
      obtain ⟨k, ⟨l, hl, hk⟩, h⟩ := h
      exact ⟨l, hl, ih.mpr ⟨k, hk, h⟩⟩

/-- No step leads back. -/
def Advances (R : Nat → Nat → Prop) : Prop := ∀ i j, R i j → i ≤ j

theorem Steps.le (hR : Advances R) (h : Steps R n i j) : i ≤ j := by
  induction n generalizing i with
  | zero => exact Nat.le_of_eq h
  | succ n ih =>
    obtain ⟨k, hk, h⟩ := h
    exact Nat.le_trans (hR i k hk) (ih h)

theorem Steps.inside (hR : ∀ i j, i ≤ last → R i j → j ≤ last) (h : Steps R n i j) (hi : i ≤ last) :
    j ≤ last := by
  induction n generalizing i with
  | zero => exact (show i = j from h) ▸ hi
  | succ n ih =>
    obtain ⟨k, hk, h⟩ := h
    exact ih h (hR i k hi hk)

/-- Of more steps than places that are passed one leads nowhere, and may as well be left out or made
twice. -/
theorem Steps.rest (hR : Advances R) (h : Steps R (n + 1) i j) (hj : j ≤ i + n) :
    Steps R n i j ∧ Steps R (n + 2) i j := by
  induction n generalizing i with
  | zero =>
    obtain ⟨k, hk, hkj⟩ := h
    obtain rfl : k = j := hkj
    obtain rfl : i = k := Nat.le_antisymm (hR i k hk) hj
    exact ⟨rfl, i, hk, i, hk, rfl⟩
  | succ n ih =>
    obtain ⟨k, hk, h⟩ := h
    rcases Nat.eq_or_lt_of_le (hR i k hk) with rfl | hlt
    · exact ⟨h, i, hk, i, hk, h⟩
    · obtain ⟨hless, hmore⟩ := ih h (by omega)
      exact ⟨⟨k, hk, hless⟩, k, hk, hmore⟩

/-- More steps than there are places come upon the same ends. -/
theorem steps_min (hR : Advances R) (hj : j ≤ last) :
    Steps R (min n (last + 1)) i j ↔ Steps R n i j := by
  rcases Nat.le_total n (last + 1) with hle | hle
  · rw [Nat.min_eq_left hle]
  rw [Nat.min_eq_right hle]
  obtain ⟨m, rfl⟩ := Nat.exists_eq_add_of_le hle
  induction m with
  | zero => rfl
  | succ m ih =>
    have hplaces : last + 1 + (m + 1) = last + m + 2 := by omega
    rw [ih (by omega), hplaces, Nat.add_right_comm last 1 m]
    constructor
    · exact fun h => (h.rest hR (by omega)).2
    · exact fun h => (h.rest hR (by omega)).1

/-- What can be reached can be reached in no more steps than there are places. -/
theorem Steps.shorten (hR : Advances R) (h : Steps R n i j) (hj : j ≤ last) :
    ∃ m, m ≤ n ∧ m ≤ last ∧ Steps R m i j := by
  induction n with
  | zero => exact ⟨0, Nat.le_refl 0, Nat.zero_le last, h⟩
  | succ n ih =>
    rcases Nat.lt_or_ge last (n + 1) with hlt | hle
    · obtain ⟨m, hm, hlast, hsteps⟩ := ih (h.rest hR (by omega)).1
      exact ⟨m, Nat.le_succ_of_le hm, hlast, hsteps⟩
    · exact ⟨n + 1, Nat.le_refl _, hle, h⟩

end

namespace Marks

def Has (m : Marks) (i : Nat) : Prop := m[i]? = some true

/-- On marks for so many places, the ends of the steps that begin at marked places become marked. -/
structure Follows (places : Nat) (f : Marks → Marks) (R : Nat → Nat → Prop) : Prop where
  length : ∀ m : Marks, m.length = places → (f m).length = places
  has : ∀ m : Marks, m.length = places → ∀ j, (f m).Has j ↔ ∃ i, m.Has i ∧ R i j

variable {a b m : Marks} {f g : Marks → Marks} {R S : Nat → Nat → Prop} {i j n places : Nat}

theorem Has.lt (h : m.Has i) : i < m.length := (List.getElem?_eq_some_iff.mp h).1

theorem length_union (h : a.length = b.length) : (a.union b).length = a.length := by
  rw [union, List.length_zipWith, h, Nat.min_self]

theorem has_union (h : a.length = b.length) : (a.union b).Has j ↔ a.Has j ∨ b.Has j := by
  rw [Has, union, List.getElem?_zipWith]
  rcases Nat.lt_or_ge j a.length with hj | hj
  · have hb : j < b.length := h ▸ hj
    simp [Has, hj, hb]
  · have hb : b.length ≤ j := h ▸ hj
    simp [Has, hj, hb]

/-- Once a step changes nothing, the steps that are left out change nothing. -/
theorem iterate_eq (f : Marks → Marks) (n : Nat) (m : Marks) : iterate f n m = f^[n] m := by
  induction n generalizing m with
  | zero => rfl
  | succ n ih =>
    rw [iterate, Function.iterate_succ_apply]
    by_cases hfix : f m = m
    · rw [if_pos (beq_iff_eq.mpr hfix), hfix, Function.iterate_fixed hfix]
    · rw [if_neg (by simpa using hfix), ih]

namespace Follows

theorem congr (hf : Follows places f R) (h : ∀ i j, i < places → (R i j ↔ S i j)) :
    Follows places f S where
  length := hf.length
  has m hm j := by
    rw [hf.has m hm]
    exact exists_congr fun i => and_congr_right fun hi => h i j (hm ▸ hi.lt)

theorem comp (hf : Follows places f R) (hg : Follows places g S) :
    Follows places (fun m => g (f m)) fun i j => ∃ k, R i k ∧ S k j where
  length m hm := hg.length _ (hf.length m hm)
  has m hm j := by
    rw [hg.has _ (hf.length m hm)]
    constructor
    · intro h
      obtain ⟨k, hk, hkj⟩ := h
      obtain ⟨i, hi, hik⟩ := (hf.has m hm k).mp hk
      exact ⟨i, hi, k, hik, hkj⟩
    · intro h
      obtain ⟨i, hi, k, hik, hkj⟩ := h
      exact ⟨k, (hf.has m hm k).mpr ⟨i, hi, hik⟩, hkj⟩

theorem union (hf : Follows places f R) (hg : Follows places g S) :
    Follows places (fun m => (f m).union (g m)) fun i j => R i j ∨ S i j where
  length m hm := (length_union ((hf.length m hm).trans (hg.length m hm).symm)).trans
    (hf.length m hm)
  has m hm j := by
    rw [has_union ((hf.length m hm).trans (hg.length m hm).symm), hf.has m hm, hg.has m hm]
    simp only [and_or_left, exists_or]

theorem iterate (hf : Follows places f R) (n : Nat) : Follows places (iterate f n) (Steps R n) := by
  have hpower : Follows places f^[n] (Steps R n) := by
    induction n with
    | zero => exact ⟨fun _ hm => hm,
      fun m _ j => ⟨fun h => ⟨j, h, rfl⟩, fun ⟨_, h, heq⟩ => heq ▸ h⟩⟩
    | succ n ih => exact hf.comp ih
  exact ⟨fun m hm => iterate_eq f n m ▸ hpower.length m hm, fun m hm => iterate_eq f n m
    ▸ hpower.has m hm⟩

theorem spread (hf : Follows places f R) (n : Nat) :
    Follows places (spread f n) fun i j => ∃ k, k ≤ n ∧ Steps R k i j := by
  have hnext (m : Marks) (hm : m.length = places) : (m.union (f m)).length = places :=
    (length_union (hm.trans (hf.length m hm).symm)).trans hm
  constructor
  · intro m hm
    induction n generalizing m with
    | zero => exact hm
    | succ n ih =>
      rw [Marks.spread]
      split
      · exact hm
      · exact ih _ (hnext m hm)
  intro m hm j
  induction n generalizing m with
  | zero => exact ⟨fun h => ⟨j, h, 0, Nat.le_refl 0, rfl⟩, fun ⟨_, h, k, hk, hsteps⟩ => by
      obtain rfl := Nat.le_zero.mp hk
      exact (show _ = j from hsteps) ▸ h⟩
  | succ n ih =>
    rw [Marks.spread]
    have hunion (i : Nat) : (m.union (f m)).Has i ↔ m.Has i ∨ (f m).Has i :=
      has_union (hm.trans (hf.length m hm).symm)
    by_cases hfix : m.union (f m) = m
    · rw [if_pos (beq_iff_eq.mpr hfix)]
      constructor
      · exact fun h => ⟨j, h, 0, Nat.zero_le _, rfl⟩
      · intro h
        obtain ⟨i, hi, k, -, hsteps⟩ := h
        -- nothing leads out of the marked places
        have hclosed {i k : Nat} (hi : m.Has i) (hik : R i k) : m.Has k := by
          rw [← hfix, hunion]
          exact .inr ((hf.has m hm k).mpr ⟨i, hi, hik⟩)
        induction k generalizing i with
        | zero => exact (show i = j from hsteps) ▸ hi
        | succ k ihk =>
          obtain ⟨l, hil, hsteps⟩ := hsteps
          exact ihk l (hclosed hi hil) hsteps
    · rw [if_neg (by simpa using hfix), ih _ (hnext m hm)]
      constructor
      · intro h
        obtain ⟨i, hi, k, hk, hsteps⟩ := h
        rcases (hunion i).mp hi with hi | hi
        · exact ⟨i, hi, k, by omega, hsteps⟩
        · obtain ⟨l, hl, hli⟩ := (hf.has m hm i).mp hi
          exact ⟨l, hl, k + 1, by omega, i, hli, hsteps⟩
      · intro h
        obtain ⟨i, hi, k, hk, hsteps⟩ := h
        cases k with
        | zero => exact ⟨i, (hunion i).mpr (.inl hi), 0, Nat.zero_le _, hsteps⟩
        | succ k =>
          obtain ⟨l, hil, hsteps⟩ := hsteps
          exact ⟨l, (hunion l).mpr (.inr ((hf.has m hm l).mpr ⟨i, hi, hil⟩)), k, by omega, hsteps⟩

end Follows

end Marks

namespace Node

variable {text : List Char} {n : Node} {i j : Nat}

theorem advances_spans (text : List Char) (n : Node) : Advances (n.Spans text) := by
  induction n with
  | empty => exact fun i j h => Nat.le_of_eq h
  | char s => exact fun i j h => h.2 ▸ Nat.le_succ i
  | assertion words a => exact fun i j h => Nat.le_of_eq h.2
  | concat a b iha ihb =>
    intro i j h
    obtain ⟨k, hik, hkj⟩ := h
    exact Nat.le_trans (iha i k hik) (ihb k j hkj)
  | alternative a b iha ihb => exact fun i j h => h.elim (iha i j) (ihb i j)
  | iterated a least most ih =>
    intro i j h
    obtain ⟨k, -, hsteps⟩ := h
    exact hsteps.le ih

/-- A stretch that begins in the text ends in the text. -/
theorem Spans.inside (h : n.Spans text i j) (hi : i ≤ text.length) : j ≤ text.length := by
  induction n generalizing i j with
  | empty => exact (show i = j from h) ▸ hi
  | char s =>
    obtain ⟨⟨c, hc, -⟩, rfl⟩ := h
    exact (List.getElem?_eq_some_iff.mp hc).1
  | assertion words a => exact h.2 ▸ hi
  | concat a b iha ihb =>
    obtain ⟨k, hik, hkj⟩ := h
    exact ihb hkj (iha hik hi)
  | alternative a b iha ihb => exact h.elim (iha · hi) (ihb · hi)
  | iterated a least most ih =>
    obtain ⟨k, -, hsteps⟩ := h
    exact hsteps.inside (fun i j hi hij => ih hij hi) hi

theorem follows_step (s : CharSet) :
    Marks.Follows (text.length + 1) (Marks.step text s) ((char s).Spans text) where
  length m hm := by
    rw [Marks.step, List.length_cons, List.length_zipWith, hm]
    omega
  has m hm j := by
    rw [Marks.Has, Marks.step]
    cases j with
    | zero =>
      constructor
      · intro h
        cases h
      · intro h
        obtain ⟨i, -, -, hij⟩ := h
        cases hij
    | succ j =>
      rw [List.getElem?_cons_succ, List.getElem?_zipWith_eq_some]
      constructor
      · intro h
        obtain ⟨marked, c, hm, hc, h⟩ := h
        obtain ⟨rfl, hs⟩ := Bool.and_eq_true_iff.mp h
        exact ⟨j, hm, ⟨c, hc, hs⟩, rfl⟩
      · intro h
        obtain ⟨i, hm, ⟨c, hc, hs⟩, hij⟩ := h
        obtain rfl := Nat.succ.inj hij
        exact ⟨true, c, hm, hc, hs⟩

/-- The characters on both sides of each place. -/
theorem getElem?_around (text : List Char) (i : Nat) (hi : i < text.length + 1) :
    ((none :: text.map some).zip (text.map some ++ [none]))[i]? =
      some (before? text i, text[i]?) := by
  refine List.getElem?_zip_eq_some.mpr ⟨?_, ?_⟩
  · cases i with
    | zero => rfl
    | succ i =>
      have hlt : i < text.length := Nat.lt_of_succ_lt_succ hi
      rw [List.getElem?_cons_succ, List.getElem?_map, before?, List.getElem?_eq_getElem hlt]
      rfl
  · rcases Nat.lt_or_eq_of_le (Nat.le_of_lt_succ hi) with hlt | rfl
    · rw [List.getElem?_append_left (by simpa using hlt), List.getElem?_map,
        List.getElem?_eq_getElem hlt]
      rfl
    · rw [List.getElem?_append_right (by simp), List.getElem?_eq_none (Nat.le_refl _)]
      simp

theorem follows_filter (words : CharSet) (a : Assertion) :
    Marks.Follows (text.length + 1) (Marks.filter text words a)
      ((assertion words a).Spans text) where
  length m hm := by
    rw [Marks.filter, List.length_zipWith, hm]
    simp
  has m hm j := by
    rw [Marks.Has, Marks.filter, List.getElem?_zipWith_eq_some]
    constructor
    · intro h
      obtain ⟨marked, sides, hj, hsides, h⟩ := h
      obtain ⟨rfl, ha⟩ := Bool.and_eq_true_iff.mp h
      rw [getElem?_around text j (hm ▸ Marks.Has.lt hj)] at hsides
      cases hsides
      exact ⟨j, hj, ha, rfl⟩
    · intro h
      obtain ⟨_, hj, ha, rfl⟩ := h
      exact ⟨true, _, hj, getElem?_around text _ (hm ▸ hj.lt), ha⟩

/-- Rounds of an iteration beyond the number of places come upon nothing else. -/
theorem follows_iterated {a : Node}
    (h : Marks.Follows (text.length + 1) (a.ends text) (a.Spans text)) {least limit : Nat}
    {most : Option Nat}
    (hlimit : ∀ n, n ≤ text.length → (n ≤ limit ↔ ∀ bound ∈ most, n ≤ bound - least))
    (hmost : ∀ n, n ≤ limit → ∀ bound ∈ most, n ≤ bound - least) :
    Marks.Follows (text.length + 1)
      (fun m => Marks.spread (a.ends text) limit
        (Marks.iterate (a.ends text) (min least (text.length + 1)) m))
      ((iterated a least most).Spans text) := by
  have hadvances := advances_spans text a
  have hinside : ∀ i j, i ≤ text.length → a.Spans text i j → j ≤ text.length :=
    fun i j hi h => h.inside hi
  refine ((h.iterate _).comp (h.spread limit)).congr fun i j hi => ?_
  have hi : i ≤ text.length := Nat.le_of_lt_succ hi
  constructor
  · intro h
    obtain ⟨k, hik, n, hn, hkj⟩ := h
    have hk : k ≤ text.length := hik.inside hinside hi
    exact ⟨n, hmost n hn, steps_add.mpr ⟨k, (steps_min hadvances hk).mp hik, hkj⟩⟩
  · intro h
    obtain ⟨n, hn, hsteps⟩ := h
    obtain ⟨k, hik, hkj⟩ := steps_add.mp hsteps
    have hk : k ≤ text.length := hik.inside hinside hi
    obtain ⟨l, hl, hlast, hshort⟩ := hkj.shorten hadvances (hkj.inside hinside hk)
    refine ⟨k, (steps_min hadvances hk).mpr hik, l, (hlimit l hlast).mpr fun bound hbound => ?_,
      hshort⟩
    exact Nat.le_trans hl (hn bound hbound)

/-- Following marks through a pattern comes upon the ends of the stretches that it matches. -/
theorem follows_ends (text : List Char) (n : Node) :
    Marks.Follows (text.length + 1) (n.ends text) (n.Spans text) := by
  induction n with
  | empty => exact ⟨fun _ hm => hm, fun m _ j => ⟨fun h => ⟨j, h, rfl⟩, fun ⟨_, h, heq⟩ => heq ▸ h⟩⟩
  | char s => exact follows_step s
  | assertion words a => exact follows_filter words a
  | concat a b iha ihb => exact iha.comp ihb
  | alternative a b iha ihb => exact iha.union ihb
  | iterated a least most ih =>
    cases most with
    | none => exact follows_iterated ih (fun n hn => by simp; omega) fun _ _ _ h => by cases h
    | some bound =>
      refine follows_iterated ih (fun n hn => by simp; omega) fun _ _ _ h => ?_
      cases h
      omega

theorem matchesIn_iff : n.matchesIn text = true ↔ ∃ i j, i ≤ text.length ∧ n.Spans text i j := by
  have hfollows := follows_ends text n
  have hlength : (List.replicate (text.length + 1) true).length = text.length + 1 :=
    List.length_replicate
  have hany (m : Marks) : m.any id = true ↔ ∃ j, m.Has j := by
    rw [List.any_eq_true]
    constructor
    · intro h
      obtain ⟨marked, hmem, h⟩ := h
      obtain rfl : marked = true := h
      exact List.mem_iff_getElem?.mp hmem
    · intro h
      exact ⟨true, List.mem_iff_getElem?.mpr h, rfl⟩
  have hstart (i : Nat) : Marks.Has (List.replicate (text.length + 1) true) i ↔
      i ≤ text.length := by
    rw [Marks.Has, List.getElem?_replicate]
    split
    · next hi => exact iff_of_true rfl (Nat.le_of_lt_succ hi)
    · next hi => exact iff_of_false (fun h =>
        Option.some_ne_none _ h.symm) fun hle => hi (Nat.lt_succ_of_le hle)
  rw [matchesIn, hany]
  constructor
  · intro h
    obtain ⟨j, hj⟩ := h
    obtain ⟨i, hi, hij⟩ := (hfollows.has _ hlength j).mp hj
    exact ⟨i, j, (hstart i).mp hi, hij⟩
  · intro h
    obtain ⟨i, j, hi, hij⟩ := h
    exact ⟨j, (hfollows.has _ hlength j).mpr ⟨i, (hstart i).mpr hi, hij⟩⟩

def betweenEnds (n : Node) : Node :=
  concat (assertion .word .textStart) (concat n (assertion .word .textEnd))

def MatchesWhole (n : Node) (text : List Char) : Prop := n.Spans text 0 text.length

theorem matchesIn_betweenEnds : n.betweenEnds.matchesIn text = true ↔ n.MatchesWhole text := by
  rw [matchesIn_iff]
  constructor
  · intro h
    obtain ⟨i, j, hi, k, ⟨hstart, rfl⟩, l, hspans, hend, rfl⟩ := h
    have hzero : i = 0 := by
      cases i with
      | zero => rfl
      | succ i =>
        have hnone : text[i]? = none := Option.isNone_iff_eq_none.mp hstart
        have hlast := List.getElem?_eq_none_iff.mp hnone
        omega
    have hlast : l = text.length :=
      Nat.le_antisymm (hspans.inside hi)
        (List.getElem?_eq_none_iff.mp (Option.isNone_iff_eq_none.mp hend))
    rw [hzero, hlast] at hspans
    exact hspans
  · intro h
    refine ⟨0, text.length, Nat.zero_le _, 0, ⟨rfl, rfl⟩, text.length, h, ?_, rfl⟩
    exact Option.isNone_iff_eq_none.mpr (List.getElem?_eq_none (Nat.le_refl _))

instance (n : Node) (text : List Char) : Decidable (n.MatchesWhole text) :=
  decidable_of_iff _ matchesIn_betweenEnds

end Node

end WideColumn.Pattern
