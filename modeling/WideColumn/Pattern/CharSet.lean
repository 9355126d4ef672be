import WideColumn.Text.Basic

/-! # Sets of characters in patterns -/
namespace WideColumn.Pattern
open WideColumn.Text

inductive CharSet where
  | nothing
  /-- The characters from one to another, both included. -/
  | range (low high : Char)
  /-- The characters that are in a set up to their case. -/
  | anyCase (s : CharSet)
  | digit
  | space
  | word
  | union (s t : CharSet)
  | inter (s t : CharSet)
  | negated (s : CharSet)
  deriving DecidableEq, Repr

namespace CharSet

/-- The other cases of a character. Two letters beyond A to Z fold into that range, the long s and
the Kelvin sign. -/
def foldings (c : Char) : List Char :=
  if c == 'k' || c == 'K' || c == '\u212a' then ['k', 'K', '\u212a']
  else if c == 's' || c == 'S' || c == '\u017f' then ['s', 'S', '\u017f']
  else [c, c.toLower, c.toUpper]

def contains : CharSet → Char → Bool
  | nothing, _ => false
  | range low high, c => low ≤ c && c ≤ high
  | anyCase s, c => (foldings c).any s.contains
  | digit, c => isDecimalDigit c
  | space, c => isBlank c
  | word, c => isWordChar c
  | union s t, c => s.contains c || t.contains c
  | inter s t, c => s.contains c && t.contains c
  | negated s, c => !s.contains c

def single (c : Char) : CharSet := range c c

def ofRanges : List (Char × Char) → CharSet
  | [] => nothing
  | [(low, high)] => range low high
  | (low, high) :: rest => union (range low high) (ofRanges rest)

def difference (s t : CharSet) : CharSet := inter s (negated t)

def symmetricDifference (s t : CharSet) : CharSet := union (difference s t) (difference t s)

def asciiWord : CharSet := ofRanges [('a', 'z'), ('A', 'Z'), ('0', '9'), ('_', '_')]

def asciiSpace : CharSet := ofRanges [('\t', '\r'), (' ', ' ')]

def asciiPunctuation : CharSet :=
  ofRanges [('!', '/'), (':', '@'), ('[', '\x60'), ('\x7b', '~')]

/-- The classes that are named inside brackets, as in `[[:alpha:]]`. -/
def named : List (String × CharSet) :=
  [("alnum", ofRanges [('0', '9'), ('A', 'Z'), ('a', 'z')]),
   ("alpha", ofRanges [('A', 'Z'), ('a', 'z')]),
   ("ascii", range '\x00' '\x7f'),
   ("blank", ofRanges [('\t', '\t'), (' ', ' ')]),
   ("cntrl", ofRanges [('\x00', '\x1f'), ('\x7f', '\x7f')]),
   ("digit", range '0' '9'),
   ("graph", range '!' '~'),
   ("lower", range 'a' 'z'),
   ("print", range ' ' '~'),
   ("punct", asciiPunctuation),
   ("space", asciiSpace),
   ("upper", range 'A' 'Z'),
   ("word", asciiWord),
   ("xdigit", ofRanges [('0', '9'), ('A', 'F'), ('a', 'f')])]

end CharSet

end WideColumn.Pattern
