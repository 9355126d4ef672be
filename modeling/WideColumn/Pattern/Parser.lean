import WideColumn.Fault
import WideColumn.Pattern.Basic
import WideColumn.Pattern.Category
import WideColumn.Text.Basic

/-! # Reading a pattern

The functions answer with what they read and the text after it, or with nothing if the text is no
pattern. Recursion into groups and classes runs on fuel, of which each character of the text is
worth more than a step can use.

Regular expressions in common use are read with limits of their own, from which this reader departs
in three ways. Groups and classes may be nested to any depth, where 250 levels are common. Of the
scripts only those in `Category.scripts` are known, and a pattern with another one is refused. The
limit on the room that a pattern takes is the common one of 10 MiB, but `Node.weight` only estimates
that room: near the limit either side may accept what the other refuses. -/
namespace WideColumn.Pattern
open WideColumn.Text

/-- What `(?…)` switches. -/
structure Flags where
  ignoreCase : Bool := false
  multiLine : Bool := false
  dotAll : Bool := false
  unicode : Bool := true
  /-- Blanks and comments between the parts of a pattern do not count. -/
  verbose : Bool := false
  /-- Which of several stretches is preferred does not matter to whether one matches. -/
  lazySwap : Bool := false
  carriageReturn : Bool := false
  deriving DecidableEq, Repr

namespace Flags

def set? (f : Flags) (letter : Char) (on : Bool) : Option Flags :=
  if letter == 'i' then some { f with ignoreCase := on }
  else if letter == 'm' then some { f with multiLine := on }
  else if letter == 's' then some { f with dotAll := on }
  else if letter == 'u' then some { f with unicode := on }
  else if letter == 'x' then some { f with verbose := on }
  else if letter == 'U' then some { f with lazySwap := on }
  else if letter == 'R' then some { f with carriageReturn := on }
  else none

/-- Drop blanks and comments, which end with their line. -/
def skipVerbose (inComment : Bool) : List Char → List Char
  | [] => []
  | c :: rest =>
    if inComment then skipVerbose (c != '\n') rest
    else if isBlank c then skipVerbose false rest
    else if c == '#' then skipVerbose true rest
    else c :: rest

def keptVerbose (inComment : Bool) : List Char → List Char
  | [] => []
  | c :: rest =>
    if inComment then keptVerbose (c != '\n') rest
    else if isBlank c then keptVerbose false rest
    else if c == '#' then keptVerbose true rest
    else c :: keptVerbose false rest

def kept (f : Flags) (cs : List Char) : List Char :=
  if f.verbose then keptVerbose false cs else cs

/-- Drop what does not count, up to the first character that does. -/
def skip (f : Flags) (cs : List Char) : List Char :=
  if f.verbose then skipVerbose false cs else cs

def words (f : Flags) : CharSet := if f.unicode then .word else .asciiWord

def folded (f : Flags) (s : CharSet) : CharSet := if f.ignoreCase then .anyCase s else s

/-- A set or, under the mark, its complement. Without the flag for Unicode it must not hold
characters beyond ASCII. -/
def admitted? (f : Flags) (inverse : Bool) (s : CharSet) : Option CharSet :=
  let s := if inverse then .negated s else s
  if f.unicode || (List.range 128).all fun i => !s.contains (Char.ofNat (0x80 + i)) then some s
  else none

def lineStart (f : Flags) : Assertion := if f.multiLine then .lineStart else .textStart

def lineEnd (f : Flags) : Assertion := if f.multiLine then .lineEnd else .textEnd

def dot (f : Flags) : CharSet :=
  if f.dotAll then .negated .nothing
  else if f.carriageReturn then .negated (.ofRanges [('\n', '\n'), ('\r', '\r')])
  else .negated (.single '\n')

end Flags

namespace Reader

inductive Escape where
  | literal (c : Char)
  | set (s : CharSet)
  | assertion (a : Assertion)

def hexValue? (c : Char) : Option Nat :=
  if '0' ≤ c ∧ c ≤ '9' then some (c.toNat - '0'.toNat)
  else if 'a' ≤ c ∧ c ≤ 'f' then some (c.toNat - 'a'.toNat + 10)
  else if 'A' ≤ c ∧ c ≤ 'F' then some (c.toNat - 'A'.toNat + 10)
  else none

def scalar? (n : Nat) : Option Char := if n.isValidChar then some (Char.ofNat n) else none

def hexChar? (cs : List Char) : Option Char := do
  if cs.isEmpty then none
  scalar? ((← cs.mapM hexValue?).foldl (fun n d => n * 16 + d) 0)

def counted (f : Flags) : Nat → List Char → Option (List Char × List Char)
  | 0, cs => some ([], cs)
  | n + 1, cs =>
    match f.skip cs with
    | [] => none
    | c :: rest => (counted f n rest).map fun p => (c :: p.1, p.2)

/-- The text up to a mark, and what comes after the mark. -/
def upTo (mark : Char) : List Char → Option (List Char × List Char)
  | [] => none
  | c :: rest =>
    if c == mark then some ([], rest) else (upTo mark rest).map fun p => (c :: p.1, p.2)

def inBraces (f : Flags) (cs : List Char) : Option (List Char × List Char) :=
  (upTo '\x7d' cs).map fun p => (f.kept p.1, p.2)

/-- A character by its code point: in braces, or in a fixed number of digits. Two digits denote a
byte without the flag for Unicode, which has to be ASCII. -/
def hexEscape (f : Flags) (width : Nat) (cs : List Char) : Option (Char × List Char) :=
  match f.skip cs with
  | [] => none
  | c :: rest =>
    if c == '\x7b' then do
      let (content, rest) ← inBraces f rest
      let d ← hexChar? content
      return (d, rest)
    else do
      let (content, rest) ← counted f width (c :: rest)
      let d ← hexChar? content
      if !f.unicode && width == 2 && 0x80 ≤ d.toNat then none else some (d, rest)

/-- A class by its property: in braces, or of one letter. Only Unicode has such classes. -/
def propertyEscape (f : Flags) (inverse : Bool) (cs : List Char) : Option (CharSet × List Char) :=
  match f.skip cs with
  | [] => none
  | c :: rest =>
    if f.unicode then do
      let (name, rest) ← if c == '\x7b' then inBraces f rest else some ([c], rest)
      let s ← Category.find? name
      return (if inverse then .negated (f.folded s) else f.folded s, rest)
    else none

/-- The special forms of a word boundary, after the opening brace, as in `\b{start}`. -/
def boundaryForm (f : Flags) (cs : List Char) : Option (Assertion × List Char) := do
  let (name, rest) ← inBraces f cs
  if name == "start".toList then some (.wordStart, rest)
  else if name == "end".toList then some (.wordEnd, rest)
  else if name == "start-half".toList then some (.beforeWord, rest)
  else if name == "end-half".toList then some (.afterWord, rest)
  else none

/-- A word boundary. Braces without letters are no form of it but a count. -/
def boundaryEscape (f : Flags) (cs : List Char) : Option (Assertion × List Char) :=
  if cs.head? == some '\x7b' && (f.skip cs.tail).head?.any (fun c => c.isAlpha || c == '-') then
    boundaryForm f cs.tail
  else some (.boundary, cs)

/-- The escapes of one letter. Marks of ASCII stand for themselves. -/
def shortEscape (f : Flags) (c : Char) : Option Escape :=
  let perl (s ascii : CharSet) (inverse : Bool) : Option Escape :=
    (f.admitted? inverse (if f.unicode then s else ascii)).map .set
  match c with
  | 'd' => perl .digit (.range '0' '9') false
  | 'D' => perl .digit (.range '0' '9') true
  | 's' => perl .space .asciiSpace false
  | 'S' => perl .space .asciiSpace true
  | 'w' => perl .word .asciiWord false
  | 'W' => perl .word .asciiWord true
  | 'a' => some (.literal '\x07')
  | 'f' => some (.literal '\x0c')
  | 't' => some (.literal '\t')
  | 'n' => some (.literal '\n')
  | 'r' => some (.literal '\r')
  | 'v' => some (.literal '\x0b')
  | 'A' => some (.assertion .textStart)
  | 'z' => some (.assertion .textEnd)
  | 'B' => some (.assertion .noBoundary)
  | '<' => some (.assertion .wordStart)
  | '>' => some (.assertion .wordEnd)
  | c => if c.toNat < 0x80 && !c.isAlphanum then some (.literal c) else none

def escape (f : Flags) (cs : List Char) : Option (Escape × List Char) :=
  match cs with
  | [] => none
  | c :: rest =>
    if c == 'x' then (hexEscape f 2 rest).map fun p => (.literal p.1, p.2)
    else if c == 'u' then (hexEscape f 4 rest).map fun p => (.literal p.1, p.2)
    else if c == 'U' then (hexEscape f 8 rest).map fun p => (.literal p.1, p.2)
    else if c == 'p' then (propertyEscape f false rest).map fun p => (.set p.1, p.2)
    else if c == 'P' then (propertyEscape f true rest).map fun p => (.set p.1, p.2)
    else if c == 'b' then (boundaryEscape f rest).map fun p => (.assertion p.1, p.2)
    else do
      let e ← shortEscape f c
      return (e, rest)

/-- A number of repetitions, with blanks around it. -/
def count (cs : List Char) : Option (Nat × List Char) :=
  let cs := trimStart cs
  let n := (Numeral.read (cs.takeWhile Char.isDigit)).filter (· ≤ Numeral.max32)
  n.map (·, trimStart (cs.dropWhile Char.isDigit))

def upperBound (f : Flags) (least : Nat) (cs : List Char) : Option (Nat × Option Nat × List Char) :=
  match f.skip cs with
  | [] => none
  | c :: rest =>
    if c == '\x7d' then some (least, none, rest)
    else do
      let (most, cs) ← count (c :: rest)
      match cs with
      | [] => none
      | c :: rest => if c == '\x7d' && least ≤ most then some (least, some most, rest) else none

/-- The bounds of a counted repetition, after its opening brace. -/
def bounds (f : Flags) (cs : List Char) : Option (Nat × Option Nat × List Char) := do
  let (least, cs) ← count (f.skip cs)
  match cs with
  | [] => none
  | c :: rest =>
    if c == '\x7d' then some (least, some least, rest)
    else if c == ',' then upperBound f least rest
    else none

/-- A class that is named in brackets, after the bracket: `:alpha:]`. The mark is for the
complement. -/
def namedClass (f : Flags) (cs : List Char) : Option (CharSet × Bool × List Char) :=
  match cs with
  | [] => none
  | c :: rest =>
    if c == ':' then
      if rest.head? == some '^' then named true rest.tail else named false rest
    else none
where
  named (inverse : Bool) (cs : List Char) : Option (CharSet × Bool × List Char) := do
    let (name, cs) ← upTo ':' cs
    match cs with
    | [] => none
    | c :: rest =>
      if c == ']' then do
        let (_, s) ← CharSet.named.find? fun row => row.1.toList == name
        return (f.folded s, inverse, rest)
      else none

inductive Operation where
  | intersection
  | difference
  | symmetricDifference

def Operation.apply : Operation → CharSet → CharSet → CharSet
  | intersection, s, t => .inter s t
  | difference, s, t => .difference s t
  | symmetricDifference, s, t => .symmetricDifference s t

def combine (pending : Option (CharSet × Operation)) (s : CharSet) : CharSet :=
  match pending with
  | some (left, op) => op.apply left s
  | none => s

/-- What stands for a member of a class. Without the flag for Unicode a literal has to be ASCII. -/
def admittedMember (f : Flags) (e : Escape) (cs : List Char) : Option (Escape × List Char) :=
  match e with
  | .literal c => if f.unicode || c.toNat < 0x80 then some (.literal c, cs) else none
  | e => some (e, cs)

def member (f : Flags) (cs : List Char) : Option (Escape × List Char) :=
  match cs with
  | [] => none
  | c :: rest => do
    let (e, rest) ← if c == '\\' then escape f rest else some (.literal c, rest)
    admittedMember f e rest

def alone (f : Flags) (e : Escape) (cs : List Char) : Option (CharSet × List Char) :=
  match e with
  | .literal c => some (f.folded (.single c), cs)
  | .set s => some (s, cs)
  | .assertion _ => none

def rangeEnd (f : Flags) (first : Escape) (cs : List Char) : Option (CharSet × List Char) := do
  let (last, cs) ← member f cs
  match first, last with
  | .literal low, .literal high =>
    if low ≤ high then some (f.folded (.range low high), cs) else none
  | _, _ => none

/-- What comes after a hyphen that makes a range. A bracket or another hyphen after it keeps it from
that. -/
def afterHyphen (f : Flags) (cs : List Char) : Option (List Char) :=
  match f.skip cs with
  | [] => none
  | c :: rest =>
    if c == '-' then
      if (f.skip rest).head?.any (fun d => d == ']' || d == '-') then none else some (f.skip rest)
    else none

def rangeFrom (f : Flags) (first : Escape) (cs : List Char) : Option (CharSet × List Char) :=
  match afterHyphen f cs with
  | some rest => rangeEnd f first rest
  | none => alone f first cs

def memberOrRange (f : Flags) (cs : List Char) : Option (CharSet × List Char) := do
  let (first, cs) ← member f cs
  rangeFrom f first cs

def hyphensOf (f : Flags) : Nat → List Char → Bool × List Char
  | 0, cs => (false, cs)
  | _ + 1, [] => (false, [])
  | n + 1, c :: rest =>
    if c == '-' then (true, (hyphensOf f n (f.skip rest)).2) else (false, c :: rest)

def caret (f : Flags) (cs : List Char) : Bool × List Char :=
  let cs := f.skip cs
  if cs.head? == some '^' then (true, f.skip cs.tail) else (false, cs)

/-- First hyphens and a first closing bracket, which stand for themselves. -/
def classStart (f : Flags) (cs : List Char) : CharSet × List Char :=
  let (isHyphen, cs) := hyphensOf f cs.length cs
  if isHyphen then (.single '-', cs)
  else if cs.head? == some ']' then (.single ']', cs.tail)
  else (.nothing, cs)

/-- One part of a class that begins with a character, under a reader of nested classes. The answer
is how reading goes on: the operand that waits for another one, and the members since. -/
def classPart (nested : List Char → Option (CharSet × List Char)) (f : Flags)
    (pending : Option (CharSet × Operation)) (s : CharSet) (c : Char) (rest : List Char) :
    Option (Option (CharSet × Operation) × CharSet × List Char) :=
  if c == '[' then
    match namedClass f rest with
    | some (t, inverse, rest) => do
      let t ← f.admitted? inverse t
      return (pending, .union s t, rest)
    | none => do
      let (t, rest) ← nested rest
      return (pending, .union s t, rest)
  else if (c == '&' || c == '-' || c == '~') && rest.head? == some c then
    let op : Operation :=
      if c == '&' then .intersection else if c == '-' then .difference else .symmetricDifference
    some (some (combine pending s, op), .nothing, rest.tail)
  else do
    let (t, rest) ← memberOrRange f (c :: rest)
    return (pending, .union s t, rest)

mutual

def classOf (fuel : Nat) (f : Flags) (cs : List Char) : Option (CharSet × List Char) :=
  match fuel with
  | 0 => none
  | fuel + 1 => do
    let (inverse, cs) := caret f cs
    let (start, cs) := classStart f cs
    let (s, cs) ← classRest fuel f none start cs
    let s ← f.admitted? inverse s
    return (s, cs)

def classRest (fuel : Nat) (f : Flags) (pending : Option (CharSet × Operation)) (s : CharSet)
    (cs : List Char) : Option (CharSet × List Char) :=
  match fuel with
  | 0 => none
  | fuel + 1 =>
    match f.skip cs with
    | [] => none
    | c :: rest =>
      if c == ']' then some (combine pending s, rest)
      else do
        let (pending, s, rest) ← classPart (classOf fuel f) f pending s c rest
        classRest fuel f pending s rest

end

inductive Opening where
  /-- Flags for the rest of the group around it. -/
  | flags (f : Flags)
  /-- A group, with its flags and its name. -/
  | group (f : Flags) (name : Option (List Char))

/-- Flags up to a colon or a closing parenthesis, each at most once. The marks tell whether there
are none, and whether they end with the parenthesis. -/
def flagList (f : Flags) (negated : Bool) (seen : List Char) :
    List Char → Option (Flags × Bool × Bool × List Char)
  | [] => none
  | c :: rest =>
    if c == ':' || c == ')' then
      if seen.head? == some '-' then none else some (f, seen.isEmpty, c == ')', rest)
    else if c ∈ seen then none
    else if c == '-' then flagList f true (c :: seen) rest
    else do
      let f ← f.set? c !negated
      flagList f negated (c :: seen) rest

def groupName (cs : List Char) : Option (List Char × List Char) := do
  let (name, rest) ← upTo '>' cs
  let isInner := fun c => c == '_' || c == '.' || c == '[' || c == ']' || isAlphanumeric c
  match name with
  | [] => none
  | c :: more =>
    if (c == '_' || isAlphabetic c) && more.all isInner then some (name, rest) else none

def opening (f : Flags) (cs : List Char) : Option (Opening × List Char) :=
  match f.skip cs with
  | [] => some (.group f none, [])
  | c :: rest => if c == '?' then marked rest else some (.group f none, c :: rest)
where
  /-- What follows the question mark. -/
  marked (cs : List Char) : Option (Opening × List Char) :=
    match cs with
    | [] => none
    | c :: rest =>
      if c == 'P' && rest.head? == some '<' then named rest.tail
      else if c == '<' then
        if rest.head? == some '=' || rest.head? == some '!' then none else named rest
      else do
        let (g, isEmpty, isClosed, rest) ← flagList f false [] (c :: rest)
        if isClosed then if isEmpty then none else some (.flags g, rest)
        else some (.group g none, rest)
  named (cs : List Char) : Option (Opening × List Char) :=
    (groupName cs).map fun (name, rest) => (.group f (some name), rest)

/-- The parts of a sequence, the last first. -/
def sequence (parts : List (Option Node)) : Node :=
  match parts.filterMap id with
  | [] => .empty
  | n :: rest => rest.foldl (fun tail n => .concat n tail) n

/-- The parts, the last first, with a repetition of the last. What sets flags cannot be repeated. -/
def repeatLast (least : Nat) (most : Option Nat) : List (Option Node) → Option (List (Option Node))
  | some n :: before => some (some (.iterated n least most) :: before)
  | _ => none

/-- Drop the mark of a repetition that prefers less, which changes no match. -/
def dropLazy (cs : List Char) : List Char := if cs.head? == some '?' then cs.tail else cs

/-- The state of reading that outlives a group: the names of groups. -/
abbrev Names := List (List Char)

/-- One part of an alternative that begins with a character, under readers of groups and of classes.
The answer is how reading goes on: the flags, the names and the parts so far. A part without a node
sets flags. -/
def part (group : Flags → Names → List Char → Option (Node × Names × List Char))
    (bracket : Flags → List Char → Option (CharSet × List Char)) (f : Flags) (names : Names)
    (before : List (Option Node)) (c : Char) (rest : List Char) :
    Option (Flags × Names × List (Option Node) × List Char) :=
  let repeated (least : Nat) (most : Option Nat) (rest : List Char) := do
    let before ← repeatLast least most before
    return (f, names, before, dropLazy rest)
  let set (s : CharSet) (rest : List Char) := some (f, names, some (.char s) :: before, rest)
  let place (a : Assertion) (rest : List Char) :=
    some (f, names, some (.assertion f.words a) :: before, rest)
  if c == '(' then do
    let (o, rest) ← opening f rest
    match o with
    | .flags g => return (g, names, none :: before, rest)
    | .group g name =>
      if name.any (· ∈ names) then none
      else do
        let (n, names, rest) ← group g (name.toList ++ names) rest
        match rest with
        | [] => none
        | c :: rest => if c == ')' then some (f, names, some n :: before, rest) else none
  else if c == '[' then do
    let (s, rest) ← bracket f rest
    set s rest
  else if c == '*' then repeated 0 none rest
  else if c == '+' then repeated 1 none rest
  else if c == '?' then repeated 0 (some 1) rest
  else if c == '\x7b' then do
    let (least, most, rest) ← bounds f rest
    repeated least most (f.skip rest)
  else if c == '.' then do
    let s ← f.admitted? false f.dot
    set s rest
  else if c == '^' then place f.lineStart rest
  else if c == '$' then place f.lineEnd rest
  else if c == '\\' then do
    let (e, rest) ← escape f rest
    match e with
    | .literal c => set (f.folded (.single c)) rest
    | .set s => set s rest
    | .assertion a => place a rest
  else set (f.folded (.single c)) rest

mutual

/-- Alternatives up to a closing parenthesis or the end. Flags that one of them sets hold for the
next. -/
def alternatives (fuel : Nat) (f : Flags) (names : Names) (cs : List Char) :
    Option (Node × Names × List Char) :=
  match fuel with
  | 0 => none
  | fuel + 1 => do
    let (n, f, names, rest) ← parts fuel f names [] cs
    if rest.head? == some '|' then
      let (m, names, rest) ← alternatives fuel f names rest.tail
      return (.alternative n m, names, rest)
    else return (n, names, rest)

def parts (fuel : Nat) (f : Flags) (names : Names) (before : List (Option Node)) (cs : List Char) :
    Option (Node × Flags × Names × List Char) :=
  match fuel with
  | 0 => none
  | fuel + 1 =>
    match f.skip cs with
    | [] => some (sequence before, f, names, [])
    | c :: rest =>
      if c == '|' || c == ')' then some (sequence before, f, names, c :: rest)
      else do
        let (f, names, before, rest) ← part (alternatives fuel) (classOf fuel) f names before c rest
        parts fuel f names before rest

end

def pattern (cs : List Char) : Option Node := do
  let (n, _, rest) ← alternatives (3 * cs.length + 3) {} [] cs
  if rest.isEmpty && n.weight ≤ Node.maxWeight then some n else none

end Reader

/-- The text of a pattern, put into a group between the two ends of a name. -/
def anchored (pattern : String) : List Char :=
  ['^', '(', '?', ':'] ++ pattern.toList ++ [')', '$']

def ofText (pattern : String) : Except Fault Node :=
  match Reader.pattern (anchored pattern) with
  | some n => pure n
  | none => throw (.badPattern pattern)

def select (pattern : String) (names : List String) : Except Fault (List String) := do
  let n ← ofText pattern
  return names.filter fun name => n.matchesIn name.toList

end WideColumn.Pattern
