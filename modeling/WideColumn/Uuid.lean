/-! # Identifiers of 128 bits, as 32 hexadecimal digits -/
namespace WideColumn

structure Uuid where
  digits : List (Fin 16)
  size : digits.length = 32
  deriving DecidableEq

namespace Uuid

def writeDigit (d : Fin 16) : Char :=
  if d.val < 10 then Char.ofNat ('0'.toNat + d.val) else Char.ofNat ('a'.toNat + d.val - 10)

def readDigit? (c : Char) : Option (Fin 16) :=
  if '0' ≤ c ∧ c ≤ '9' then some (Fin.ofNat 16 (c.toNat - '0'.toNat))
  else if 'a' ≤ c ∧ c ≤ 'f' then some (Fin.ofNat 16 (c.toNat - 'a'.toNat + 10))
  else if 'A' ≤ c ∧ c ≤ 'F' then some (Fin.ofNat 16 (c.toNat - 'A'.toNat + 10))
  else none

def groups {α : Type} (l : List α) : List (List α) :=
  [l.take 8, (l.drop 8).take 4, (l.drop 12).take 4, (l.drop 16).take 4, l.drop 20]

def writeChars (u : Uuid) : List Char :=
  ['-'].intercalate (groups (u.digits.map writeDigit))

def write (u : Uuid) : String := .ofList u.writeChars

def ofDigits? (cs : List Char) : Option Uuid :=
  (cs.mapM readDigit?).bind fun ds => if h : ds.length = 32 then some ⟨ds, h⟩ else none

/-- The hyphenated form: hyphens stand at places 8, 13, 18 and 23 and nowhere else. -/
def ofHyphenated? (cs : List Char) : Option Uuid :=
  let bare := cs.take 8 ++ (cs.drop 9).take 4 ++ (cs.drop 14).take 4 ++ (cs.drop 19).take 4
    ++ cs.drop 24
  if ['-'].intercalate (groups bare) == cs then ofDigits? bare else none

/-- An identifier is written hyphenated, hyphenated in braces or after `urn:uuid:`, or bare. -/
def readChars (cs : List Char) : Option Uuid :=
  match cs with
  | '\x7b' :: rest => if rest.getLast? == some '\x7d' then ofHyphenated? rest.dropLast else none
  | 'u' :: 'r' :: 'n' :: ':' :: 'u' :: 'u' :: 'i' :: 'd' :: ':' :: rest => ofHyphenated? rest
  | cs => if cs.length == 32 then ofDigits? cs else ofHyphenated? cs

def read? (text : String) : Option Uuid := readChars text.toList

/-- The identifier made of random bits, marked as such by its version digit 4 and its variant
digit. -/
def ofRandom (bits : Nat) : Uuid where
  digits := (List.range 32).map fun i =>
    let d := (bits >>> (4 * i)) % 16
    if i == 12 then 4 else if i == 16 then Fin.ofNat 16 (8 + d % 4) else Fin.ofNat 16 d
  size := by simp

end Uuid

end WideColumn
