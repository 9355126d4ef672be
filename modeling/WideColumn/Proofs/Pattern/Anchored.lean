import WideColumn.Pattern.Parser
import WideColumn.Proofs.Pattern.Fuel
import WideColumn.Proofs.Pattern.Spans

/-! # A pattern in a group between the two ends of a name

The text of a pattern is put into the group as it is. If both are patterns, the group holds the
pattern that the text makes by itself. The text can spoil the pattern around it by a comment, which
takes the end of the group in. With a closing parenthesis that ends the group it can be part of a
pattern without being one. -/
namespace WideColumn.Pattern.Reader
open Rest

variable {cs : List Char} {fuel : Nat} {n m : Node} {names : Names} {p : String}

/-- What the text makes up to its end or to a closing parenthesis that has no opening one. -/
def reading (cs : List Char) : Option (Node × Names × List Char) :=
  alternatives (3 * cs.length + 3) {} [] cs

theorem reading_eq (hfuel : 2 * cs.length + 2 ≤ fuel) : reading cs = alternatives fuel {} [] cs :=
  fuel_group.1 cs fuel {} [] (by omega) hfuel

theorem pattern_eq_some_iff :
    pattern cs = some n ↔ ∃ names, reading cs = some (n, names, []) ∧
    n.weight ≤ Node.maxWeight := by
  show reading cs >>= _ = _ ↔ _
  rw [Option.bind_eq_bind, Option.bind_eq_some_iff]
  constructor
  · intro h
    obtain ⟨⟨k, names, es⟩, hread, h⟩ := h
    dsimp only at h
    split at h
    · next hwhole =>
      obtain ⟨hend, hweight⟩ := Bool.and_eq_true_iff.mp hwhole
      obtain rfl := List.isEmpty_iff.mp hend
      cases h
      exact ⟨names, hread, of_decide_eq_true hweight⟩
    · cases h
  · intro h
    obtain ⟨names, hread, hweight⟩ := h
    exact ⟨_, hread, if_pos (decide_eq_true hweight)⟩

/-- After the start of the name comes the group, then the rest. -/
theorem parts_anchored (fuel : Nat) (p : String) : parts (fuel + 2) {} [] [] (anchored p) =
    part (alternatives fuel) (classOf fuel) {} [] [some (.assertion .word .textStart)] '('
      ('?' :: ':' :: (p.toList ++ close)) >>= fun a => parts fuel a.1 a.2.1 a.2.2.1 a.2.2.2 := rfl

/-- The group is what its own reader makes, if that stops at the end of the group. -/
theorem part_group {group : Flags → Names → List Char → Option (Node × Names × List Char)}
    {bracket : Flags → List Char → Option (CharSet × List Char)} {before : List (Option Node)} :
    part group bracket {} [] before '(' ('?' :: ':' :: cs) = group {} [] cs >>= fun a =>
      match a.2.2 with
      | [] => none
      | c :: es => if c == ')' then some ({}, a.2.1, some a.1 :: before, es) else none := rfl

theorem alternatives_anchored_of_closed
    (h : alternatives (fuel + 2) {} [] (p.toList ++ close) = some (n, names, close)) :
    alternatives (fuel + 5) {} [] (anchored p) = some (n.betweenEnds, names, []) := by
  have hparts : parts (fuel + 4) {} [] [] (anchored p) = some (n.betweenEnds, {}, names, []) := by
    rw [parts_anchored, part_group, h]
    rfl
  rw [alternatives, hparts]
  rfl

theorem alternatives_anchored_of_over
    (h : ∀ a, alternatives fuel {} [] (p.toList ++ close) = some a → rest a <:+ ['$']) :
    alternatives (fuel + 3) {} [] (anchored p) = none := by
  have hparts : parts (fuel + 2) {} [] [] (anchored p) = none := by
    rw [parts_anchored, part_group]
    cases hgroup : alternatives fuel {} [] (p.toList ++ close) with
    | none => rfl
    | some a =>
      obtain ⟨k, names, es⟩ := a
      have hes : es <:+ ['$'] := h _ hgroup
      rcases List.suffix_cons_iff.mp hes with rfl | hnil
      · rfl
      · obtain rfl := List.suffix_nil.mp hnil
        rfl
  rw [alternatives, hparts]
  rfl

theorem length_anchored (p : String) : (anchored p).length = p.toList.length + 6 := by
  simp [anchored]

/-- The text alone is read up to the place where its group ends, or the end of the group is run
over. -/
theorem reading_cases (p : String) :
    (∃ n names es, reading p.toList = some (n, names, es) ∧
      (es = [] → reading (anchored p) = some (n.betweenEnds, names, []))) ∨
    (∀ a, reading p.toList = some a → '#' ∈ p.toList) ∧ reading (anchored p) = none := by
  have hlength := length_anchored p
  rw [reading_eq (show 2 * p.toList.length + 2 ≤ 2 * p.toList.length + 9 + 2 by omega),
    reading_eq (show 2 * (anchored p).length + 2 ≤ 2 * p.toList.length + 9 + 5 by omega)]
  rcases ((local_group (2 * p.toList.length + 9 + 2)).1 {} []).alike p.toList with
    ⟨⟨n, names, es⟩, hread, hclosed⟩ | ⟨hcomment, hover⟩
  · refine .inl ⟨n, names, es, hread, ?_⟩
    rintro rfl
    exact alternatives_anchored_of_closed hclosed
  · exact .inr ⟨fun a ha => (hcomment a ha).1.2, alternatives_anchored_of_over hover⟩

/-- The text is read alike in the group, or a comment takes the end of the group in. -/
theorem reading_anchored (h : reading p.toList = some (n, names, [])) :
    reading (anchored p) = some (n.betweenEnds, names, []) ∨
      '#' ∈ p.toList ∧ reading (anchored p) = none := by
  rcases reading_cases p with ⟨_, _, _, hread, hanchored⟩ | ⟨hcomment, hnone⟩
  · cases hread.symm.trans h
    exact .inl (hanchored rfl)
  · exact .inr ⟨hcomment _ h, hnone⟩

/-- What cannot be read alone cannot be read in the group. -/
theorem reading_anchored_of_none (h : reading p.toList = none) : reading (anchored p) = none := by
  rcases reading_cases p with ⟨_, _, _, hread, -⟩ | ⟨-, hnone⟩
  · cases hread.symm.trans h
  · exact hnone

/-- Only a closing parenthesis stands after what was read, if anything. -/
def Closed (a : Node × Names × List Char) : Prop := ∀ c ∈ (rest a).head?, c = ')'

/-- Only a bar or a closing parenthesis stands after what was read, if anything. -/
def Ended (a : Node × Flags × Names × List Char) : Prop := ∀ c ∈ (rest a).head?, c = '|' ∨ c = ')'

/-- An alternative ends at a bar or where its group ends. -/
theorem ended_parts (fuel : Nat) (f : Flags) (names : Names) (before : List (Option Node))
    (cs : List Char) :
    ∀ a ∈ parts fuel f names before cs, Ended a := by
  induction fuel generalizing f names before cs with
  | zero =>
    intro a ha
    cases ha
  | succ fuel ih =>
    intro a ha
    rw [parts] at ha
    cases hcs : f.skip cs with
    | nil =>
      rw [hcs] at ha
      cases ha
      intro c hc
      cases hc
    | cons c ds =>
      rw [hcs] at ha
      dsimp only at ha
      split at ha
      · next hend =>
        cases ha
        intro d hd
        cases hd
        simpa using hend
      · obtain ⟨b, -, ha⟩ := Option.bind_eq_some_iff.mp ha
        exact ih b.1 b.2.1 b.2.2.1 b.2.2.2 a ha

theorem closed_alternatives (fuel : Nat) (f : Flags) (names : Names) (cs : List Char) :
    ∀ a ∈ alternatives fuel f names cs, Closed a := by
  induction fuel generalizing f names cs with
  | zero =>
    intro a ha
    cases ha
  | succ fuel ih =>
    intro a ha
    obtain ⟨b, hparts, ha⟩ := Option.bind_eq_some_iff.mp ha
    obtain ⟨k, f, names, es⟩ := b
    dsimp only at ha
    split at ha
    · obtain ⟨b, halternatives, ha⟩ := Option.bind_eq_some_iff.mp ha
      cases ha
      exact ih f names _ b halternatives
    · next hbar =>
      cases ha
      intro c hc
      refine (ended_parts _ _ _ _ _ _ hparts c hc).resolve_left fun h => hbar ?_
      rw [show es.head? = some c from hc, h]
      rfl

theorem ends_reading {c : Char} {es : List Char} (h : reading cs = some (n, names, c :: es)) :
    c = ')' :=
  closed_alternatives _ _ _ _ _ h c rfl

theorem pattern_anchored (hn : pattern p.toList = some n) (hm : pattern (anchored p) = some m) :
    m = n.betweenEnds := by
  obtain ⟨names, hread, -⟩ := pattern_eq_some_iff.mp hn
  obtain ⟨names', hread', -⟩ := pattern_eq_some_iff.mp hm
  rcases reading_anchored hread with h | ⟨-, h⟩
  · cases hread'.symm.trans h
    rfl
  · cases hread'.symm.trans h

/-- A text without comments can be put into the group. -/
theorem pattern_anchored_of_plain (hn : pattern p.toList = some n) (hcomment : '#' ∉ p.toList)
    (hweight : n.betweenEnds.weight ≤ Node.maxWeight) :
    pattern (anchored p) = some n.betweenEnds := by
  obtain ⟨names, hread, -⟩ := pattern_eq_some_iff.mp hn
  rcases reading_anchored hread with h | ⟨h, -⟩
  · exact pattern_eq_some_iff.mpr ⟨names, h, hweight⟩
  · exact absurd h hcomment

example :
    (pattern "(?x)t01 # one".toList).isSome ∧ (pattern (anchored "(?x)t01 # one")).isNone := by
  decide +kernel

/-- A text that is no pattern by itself makes none in the group, unless a closing parenthesis ends
the group. -/
theorem unmatched_of_anchored (hp : pattern p.toList = none) (hm : pattern (anchored p) = some m) :
    ∃ n names es, reading p.toList = some (n, names, ')' :: es) := by
  obtain ⟨names', hread', hweight⟩ := pattern_eq_some_iff.mp hm
  cases hread : reading p.toList with
  | none => cases hread'.symm.trans (reading_anchored_of_none hread)
  | some a =>
    obtain ⟨n, names, es⟩ := a
    cases es with
    | nil =>
      rcases reading_anchored hread with h | ⟨-, h⟩
      · cases hread'.symm.trans h
        have hlight : n.weight ≤ Node.maxWeight := by
          refine Nat.le_trans ?_ hweight
          show n.weight ≤ 32 + (n.weight + 32)
          omega
        cases hp.symm.trans (pattern_eq_some_iff.mpr ⟨_, hread, hlight⟩)
      · cases hread'.symm.trans h
    | cons c es => exact ⟨n, names, es, by rw [ends_reading hread]⟩

end WideColumn.Pattern.Reader
