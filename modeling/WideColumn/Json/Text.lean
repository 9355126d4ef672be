/-! # Texts inside a JSON document: escaping and its inverse

A text stands between double quotes in an escaped form, the *raw* text. Reading a document keeps raw
texts as they are; a raw text is decoded where its content is wanted, which fails if it escapes one
half of a surrogate pair alone. -/
namespace WideColumn.Json.Text

def hexValue? (c : Char) : Option Nat :=
  if '0' ≤ c ∧ c ≤ '9' then some (c.toNat - '0'.toNat)
  else if 'a' ≤ c ∧ c ≤ 'f' then some (c.toNat - 'a'.toNat + 10)
  else if 'A' ≤ c ∧ c ≤ 'F' then some (c.toNat - 'A'.toNat + 10)
  else none

def hexDigit (n : Nat) : Char :=
  if n < 10 then Char.ofNat ('0'.toNat + n) else Char.ofNat ('a'.toNat + n - 10)

def unit? (a b c d : Char) : Option Nat := do
  return (((← hexValue? a) * 16 + (← hexValue? b)) * 16 + (← hexValue? c)) * 16 + (← hexValue? d)

def shortEscape? (c : Char) : Option Char :=
  if c == '"' || c == '\\' || c == '/' then some c
  else if c == 'b' then some '\x08'
  else if c == 'f' then some '\x0c'
  else if c == 'n' then some '\n'
  else if c == 'r' then some '\r'
  else if c == 't' then some '\t'
  else none

/-- Quotes, backslashes and control characters are escaped, by a letter if there is one. -/
def escapeChar (c : Char) : List Char :=
  if c == '"' || c == '\\' then ['\\', c]
  else if c == '\x08' then ['\\', 'b']
  else if c == '\x0c' then ['\\', 'f']
  else if c == '\n' then ['\\', 'n']
  else if c == '\r' then ['\\', 'r']
  else if c == '\t' then ['\\', 't']
  else if c.toNat < 0x20
    then ['\\', 'u', '0', '0', hexDigit (c.toNat / 16), hexDigit (c.toNat % 16)]
  else [c]

def escape (cs : List Char) : List Char := cs.flatMap escapeChar

def isHighSurrogate (n : Nat) : Bool := 0xd800 ≤ n && n < 0xdc00

def isLowSurrogate (n : Nat) : Bool := 0xdc00 ≤ n && n < 0xe000

def unescape : List Char → Option (List Char)
  | [] => some []
  | '\\' :: 'u' :: a :: b :: c :: d :: '\\' :: 'u' :: e :: f :: g :: h :: rest => do
    let n ← unit? a b c d
    if isHighSurrogate n then
      let m ← unit? e f g h
      if isLowSurrogate m then
        let tail ← unescape rest
        return Char.ofNat (0x10000 + (n - 0xd800) * 0x400 + (m - 0xdc00)) :: tail
      else none
    else if isLowSurrogate n then none
    else
      let tail ← unescape ('\\' :: 'u' :: e :: f :: g :: h :: rest)
      return Char.ofNat n :: tail
  | '\\' :: 'u' :: a :: b :: c :: d :: rest => do
    let n ← unit? a b c d
    if isHighSurrogate n || isLowSurrogate n then none
    else
      let tail ← unescape rest
      return Char.ofNat n :: tail
  | '\\' :: c :: rest => do
    let d ← shortEscape? c
    let tail ← unescape rest
    return d :: tail
  | c :: rest => if c == '\\' then none else (unescape rest).map (c :: ·)

end WideColumn.Json.Text
