import WideColumn.Text.Alphabetic
import WideColumn.Text.Mark
import WideColumn.Text.Numeric

/-! # Texts: classes of characters, lines, and decimal numerals -/
namespace WideColumn.Text

/-- Membership in a table of ascending ranges. The search stops at the first range that lies
above. -/
def within : List (Nat × Nat) → Nat → Bool
  | [], _ => false
  | (low, high) :: rest, n => if n < low then false else n ≤ high || within rest n

/-- The ranges of the Unicode property White_Space. -/
def blankRanges : List (Nat × Nat) :=
  [(0x9, 0xd), (0x20, 0x20), (0x85, 0x85), (0xa0, 0xa0), (0x1680, 0x1680), (0x2000, 0x200a),
   (0x2028, 0x2029), (0x202f, 0x202f), (0x205f, 0x205f), (0x3000, 0x3000)]

/-- The ranges of the Unicode general category Connector_Punctuation. -/
def connectorRanges : List (Nat × Nat) :=
  [(0x5f, 0x5f), (0x203f, 0x2040), (0x2054, 0x2054), (0xfe33, 0xfe34), (0xfe4d, 0xfe4f),
   (0xff3f, 0xff3f)]

/-- The two characters of the Unicode property Join_Control. -/
def joinRanges : List (Nat × Nat) := [(0x200c, 0x200d)]

def isBlank (c : Char) : Bool := within blankRanges c.toNat

def isAlphabetic (c : Char) : Bool := within Alphabetic.ranges c.toNat

def isNumeric (c : Char) : Bool := within Numeric.ranges c.toNat

def isDecimalDigit (c : Char) : Bool := within Numeric.decimalRanges c.toNat

def isAlphanumeric (c : Char) : Bool := isAlphabetic c || isNumeric c

/-- The characters that make up a word: between one of them and any other lies a word boundary. -/
def isWordChar (c : Char) : Bool :=
  isAlphabetic c || within Mark.ranges c.toNat || isDecimalDigit c ||
    within connectorRanges c.toNat || within joinRanges c.toNat

def trimStart (cs : List Char) : List Char := cs.dropWhile isBlank

def trimEnd (cs : List Char) : List Char := (cs.reverse.dropWhile isBlank).reverse

def trim (cs : List Char) : List Char := trimEnd (trimStart cs)

def trimmed (s : String) : String := .ofList (trim s.toList)

/-- Letters A to Z become a to z; every other character stays. -/
def lowered (s : String) : List Char := s.toList.map Char.toLower

def raised (s : String) : List Char := s.toList.map Char.toUpper

/-- Equality up to the case of the letters A to Z. -/
def sameWord (s t : String) : Bool := lowered s == lowered t

theorem sameWord_iff {s t : String} : sameWord s t = true ↔ lowered s = lowered t := by
  simp [sameWord]

/-- Cut after every line feed and drop it, with the carriage return right before it if there is one.
A text that ends in a line feed has no empty last line. -/
def lines : List Char → List (List Char)
  | [] => []
  | '\n' :: rest => [] :: lines rest
  | '\r' :: '\n' :: rest => [] :: lines rest
  | c :: rest =>
    match lines rest with
    | [] => [[c]]
    | line :: more => (c :: line) :: more

namespace Numeral

def digit? (c : Char) : Option Nat :=
  if '0' ≤ c ∧ c ≤ '9' then some (c.toNat - '0'.toNat) else none

def write (n : Nat) : List Char := Nat.toDigits 10 n

def padded (width n : Nat) : List Char :=
  List.replicate (width - (write n).length) '0' ++ write n

/-- The value of a non-empty run of digits; leading zeros are allowed. -/
def read (cs : List Char) : Option Nat :=
  if cs.isEmpty then none
  else cs.foldlM (fun n c => (digit? c).map (n * 10 + ·)) 0

def max32 : Nat := 4_294_967_295

def max64 : Nat := 18_446_744_073_709_551_615

/-- A number that a user writes: digits after an optional plus sign, at most `limit`. -/
def readUpTo (limit : Nat) (cs : List Char) : Option Nat :=
  (read (match cs with | '+' :: rest => rest | cs => cs)).filter (· ≤ limit)

end Numeral

end WideColumn.Text
