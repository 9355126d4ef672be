import WideColumn.Pattern.CharSet

/-! # Patterns and where they match

A pattern relates places of a text, the ends of a stretch that it matches. Matching is followed for
all starting places at once: a mark for each place, of which a text of `n` characters has `n +
1`. -/
namespace WideColumn.Pattern

/-- Conditions on a place alone. -/
inductive Assertion where
  | textStart
  | textEnd
  | lineStart
  | lineEnd
  | boundary
  | noBoundary
  | wordStart
  | wordEnd
  | beforeWord
  | afterWord
  deriving DecidableEq, Repr

/-- Whether a place has the condition; it lies between two characters, of which the first or the
second may be absent. Words are made of the characters in `words`. -/
def Assertion.holds (words : CharSet) (before after : Option Char) : Assertion → Bool
  | textStart => before.isNone
  | textEnd => after.isNone
  | lineStart => before.all (· == '\n')
  | lineEnd => after.all (· == '\n')
  | boundary => before.any words.contains != after.any words.contains
  | noBoundary => before.any words.contains == after.any words.contains
  | wordStart => !before.any words.contains && after.any words.contains
  | wordEnd => before.any words.contains && !after.any words.contains
  | beforeWord => !before.any words.contains
  | afterWord => !after.any words.contains

inductive Node where
  | empty
  | char (s : CharSet)
  | assertion (words : CharSet) (a : Assertion)
  | concat (a b : Node)
  | alternative (a b : Node)
  /-- At least `least` times, and at most `most` times if there is a bound. -/
  | iterated (a : Node) (least : Nat) (most : Option Nat)
  deriving Repr

abbrev Marks := List Bool

namespace Marks

def union (a b : Marks) : Marks := List.zipWith (· || ·) a b

/-- The places after a character of a set that follows a marked place. -/
def step (text : List Char) (s : CharSet) (m : Marks) : Marks :=
  false :: List.zipWith (fun marked c => marked && s.contains c) m text

def filter (text : List Char) (words : CharSet) (a : Assertion) (m : Marks) : Marks :=
  List.zipWith (fun marked (around : Option Char × Option Char) =>
    marked && a.holds words around.1 around.2) m
    ((none :: text.map some).zip (text.map some ++ [none]))

/-- Apply a step that many times; once it changes nothing, no more. -/
def iterate (f : Marks → Marks) : Nat → Marks → Marks
  | 0, m => m
  | n + 1, m => let next := f m; if next == m then m else iterate f n next

/-- Apply a step up to that many times, and mark what is reached on the way. -/
def spread (f : Marks → Marks) : Nat → Marks → Marks
  | 0, m => m
  | n + 1, m => let next := union m (f m); if next == m then m else spread f n next

end Marks

namespace Node

/-- The ends of the stretches that begin at marked places. A text of `n` characters is stable under
more than `n + 1` rounds of an iteration. -/
def ends (text : List Char) : Node → Marks → Marks
  | empty, m => m
  | char s, m => m.step text s
  | assertion words a, m => m.filter text words a
  | concat a b, m => b.ends text (a.ends text m)
  | alternative a b, m => (a.ends text m).union (b.ends text m)
  | iterated a least most, m =>
    let rounds := text.length + 1
    let m := Marks.iterate (a.ends text) (min least rounds) m
    match most with
    | none => m.spread (a.ends text) rounds
    | some n => m.spread (a.ends text) (min (n - least) rounds)

def matchesIn (n : Node) (text : List Char) : Bool :=
  (n.ends text (List.replicate (text.length + 1) true)).any id

/-- An estimate of the room that a pattern takes, in bytes, when all iterations are written out. The
classes of many ranges of characters take the most. -/
def weight : Node → Nat
  | empty => 32
  | char s => setWeight s
  | assertion .. => 32
  | concat a b => a.weight + b.weight
  | alternative a b => a.weight + b.weight + 64
  | iterated a least none => (max least 1) * a.weight + 64
  | iterated a least (some most) => least * a.weight + (most - least) * (a.weight + 64)
where
  setWeight : CharSet → Nat
    | .nothing => 32
    | .range low high => if high.toNat < 0x80 || low == high then 40 else 200
    | .anyCase s => setWeight s
    | .digit => 4000
    | .space => 600
    | .word => 45000
    | .union s t => max (setWeight s) (setWeight t)
    | .inter s t => max (setWeight s) (setWeight t)
    | .negated s => setWeight s + 400

def maxWeight : Nat := 10 * 1_048_576

end Node

end WideColumn.Pattern
