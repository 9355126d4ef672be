import WideColumn.Text.Basic
import WideColumn.Time.Instant

/-! # Instants as text: `2024-05-01T10:00:00.123456789Z`

Written instants are in universal time and carry the fewest of 0, 3, 6 or 9 fraction digits that
lose nothing. Read instants may have any offset and blanks between their parts. -/
namespace WideColumn.Time.Rfc3339
open WideColumn.Text

inductive Mark where
  /-- The letter `Z`. -/
  | letter
  /-- The offset `+00:00`. -/
  | offset
  deriving DecidableEq

def Mark.write : Mark → List Char
  | .letter => ['Z']
  | .offset => ['+', '0', '0', ':', '0', '0']

/-- Years of four digits stand alone, all others with their sign. -/
def writeYear (year : Int) : List Char :=
  if 0 ≤ year ∧ year ≤ 9999 then Numeral.padded 4 year.toNat
  else (if year < 0 then '-' else '+') :: Numeral.padded 4 year.natAbs

/-- The shortest of the four fractions that loses nothing. -/
def writeFraction (nanosecond : Nat) : List Char :=
  if nanosecond == 0 then []
  else if nanosecond % 1_000_000 == 0 then '.' :: Numeral.padded 3 (nanosecond / 1_000_000)
  else if nanosecond % 1_000 == 0 then '.' :: Numeral.padded 6 (nanosecond / 1_000)
  else '.' :: Numeral.padded 9 nanosecond

def writeChars (mark : Mark) (t : Instant) : List Char :=
  writeYear t.date.year ++ '-' :: Numeral.padded 2 t.date.month ++ '-' ::
    Numeral.padded 2 t.date.day
    ++ 'T' :: Numeral.padded 2 t.hour ++ ':' :: Numeral.padded 2 t.minute
    ++ ':' :: Numeral.padded 2 t.second ++ writeFraction t.nanosecond ++ mark.write

def write (mark : Mark) (t : Instant) : String := .ofList (writeChars mark t)

/-- The value of the digits at the front, of which there is at least one and at most `most` are
taken, with the text after them. -/
def readDigits (most : Nat) (cs : List Char) : Option (Nat × List Char) :=
  let run := (cs.take most).takeWhile fun c => (Numeral.digit? c).isSome
  (Numeral.read run).map (·, cs.drop run.length)

def readField (most : Nat) (cs : List Char) : Option (Nat × List Char) :=
  readDigits most (trimStart cs)

def skip (c : Char) (cs : List Char) : Option (List Char) :=
  match trimStart cs with
  | d :: rest => if c == d then some rest else none
  | [] => none

/-- Without a sign a year has at most four digits, with a sign any number of them. -/
def readYear (cs : List Char) : Option (Int × List Char) :=
  match trimStart cs with
  | '-' :: rest => (readDigits rest.length rest).map fun (n, rest) => (-(n : Int), rest)
  | '+' :: rest => (readDigits rest.length rest).map fun (n, rest) => ((n : Int), rest)
  | cs => (readDigits 4 cs).map fun (n, rest) => ((n : Int), rest)

/-- Nine digits of a fraction count, further ones are cut. -/
def readFraction (cs : List Char) : Option (Nat × List Char) :=
  match cs with
  | '.' :: rest => do
    let (n, after) ← readDigits 9 rest
    return (n * Nat.pow 10 (9 - (rest.length - after.length)),
      after.dropWhile fun c => (Numeral.digit? c).isSome)
  | cs => some (0, cs)

def readPair : List Char → Option (Nat × List Char)
  | a :: b :: rest => do return ((← Numeral.digit? a) * 10 + (← Numeral.digit? b), rest)
  | _ => none

/-- The offset in minutes: `Z`, `UTC`, or a sign with hours and minutes. -/
def readOffset (cs : List Char) : Option (Int × List Char) :=
  match cs with
  | a :: b :: c :: rest =>
    if a.toUpper == 'U' && b.toUpper == 'T' && c.toUpper == 'C' then some (0, rest) else signed cs
  | cs => signed cs
where
  signed : List Char → Option (Int × List Char)
    | [] => none
    | sign :: rest =>
      if sign == 'Z' || sign == 'z' then some (0, rest)
      else if sign == '+' then distance rest
      else if sign == '-' || sign == '\u2212' then (distance rest).map fun (n, rest) => (-n, rest)
      else none
  distance (cs : List Char) : Option (Int × List Char) := do
    let (hours, rest) ← readPair cs
    let (minutes, rest) ← readPair (rest.dropWhile fun c => c == ':' || isBlank c)
    if minutes < 60 ∧ hours < 24 then some ((hours * 60 + minutes : Nat), rest) else none

def readChars (cs : List Char) : Option Instant := do
  let (year, cs) ← readYear cs
  let cs ← skip '-' cs
  let (month, cs) ← readField 2 cs
  let cs ← skip '-' cs
  let (day, cs) ← readField 2 cs
  let cs ← match cs with
    | c :: rest => if c == 'T' || c == 't' || c == ' ' then some rest else none
    | [] => none
  let (hour, cs) ← readField 2 cs
  let cs ← skip ':' cs
  let (minute, cs) ← readField 2 cs
  let cs ← skip ':' cs
  let (second, cs) ← readField 2 cs
  let (nanosecond, cs) ← readFraction cs
  let (offset, cs) ← readOffset (trimStart cs)
  if !(trimStart cs).isEmpty then none
  let date ← Date.of? year month day
  let shown ← Instant.of? date hour minute second nanosecond
  shown.behind? offset

def read? (text : String) : Option Instant := readChars text.toList

end WideColumn.Time.Rfc3339
