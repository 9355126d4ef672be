import WideColumn.Json.Text
import WideColumn.Text.Basic

/-! # JSON values, as they are written

Numbers keep their spelling, texts and keys their escaped form, and objects their members in order,
repeated keys included. -/
namespace WideColumn.Json

inductive Value where
  | null
  | bool (b : Bool)
  | number (spelling : List Char)
  | text (raw : List Char)
  | array (items : List Value)
  | object (members : List (List Char × Value))

namespace Value

def ofString (s : String) : Value := .text (Text.escape s.toList)

def ofNat (n : Nat) : Value := .number (WideColumn.Text.Numeral.write n)

def ofMembers (members : List (String × Value)) : Value :=
  .object (members.map fun (key, v) => (Text.escape key.toList, v))

def string? : Value → Option String
  | .text raw => (Text.unescape raw).map String.ofList
  | _ => none

def bool? : Value → Option Bool
  | .bool b => some b
  | _ => none

/-- A number without sign, fraction or exponent that is at most `limit`. -/
def natural? (limit : Nat) : Value → Option Nat
  | .number spelling => (WideColumn.Text.Numeral.read spelling).filter (· ≤ limit)
  | _ => none

def items? : Value → Option (List Value)
  | .array items => some items
  | _ => none

def members? : Value → Option (List (String × Value))
  | .object members => members.mapM fun (key, v) =>
    (Text.unescape key).map fun key => (String.ofList key, v)
  | _ => none

/-- The value of a key that stands exactly once. -/
def single? (members : List (String × Value)) (key : String) : Option Value :=
  match members.filter fun m => m.1 == key with
  | [(_, v)] => some v
  | _ => none

/-- The values of named fields: from an object, in which each stands once among others, or from an
array of just the fields. -/
def fields? (names : List String) : Value → Option (List Value)
  | .array items => if items.length == names.length then some items else none
  | v => v.members?.bind fun members => names.mapM (single? members)

mutual

def depth : Value → Nat
  | .array items => depthItems items + 1
  | .object members => depthMembers members + 1
  | _ => 0

def depthItems : List Value → Nat
  | [] => 0
  | v :: rest => max v.depth (depthItems rest)

def depthMembers : List (List Char × Value) → Nat
  | [] => 0
  | (_, v) :: rest => max v.depth (depthMembers rest)

end

/-- Whether a number is below the range where the floating-point numbers of 64 bits end, that is, if
it does not round to infinity. -/
def isFinite (spelling : List Char) : Bool :=
  let digits := (spelling.dropWhile (· == '-')).takeWhile fun c => c != 'e' && c != 'E'
  let whole := digits.takeWhile (· != '.')
  let fraction := (digits.dropWhile (· != '.')).drop 1
  let exponent := (spelling.dropWhile fun c => c != 'e' && c != 'E').drop 1
  let negative := exponent.head? == some '-'
  let size := (WideColumn.Text.Numeral.read
    (exponent.dropWhile fun c => c == '-' || c == '+')).getD 0
  let significand := (WideColumn.Text.Numeral.read (whole ++ fraction)).getD 0
  let limit := (1 <<< 1024) - (1 <<< 970)
  if significand == 0 then true
  else if negative then
    spelling.length ≤ size + 300 || significand < limit * Nat.pow 10 (fraction.length + size)
  else if size > fraction.length + 400 then false
  else significand * Nat.pow 10 size < limit * Nat.pow 10 fraction.length

mutual

/-- Whether every text and key has content and every number is finite. -/
def isSound : Value → Bool
  | .number spelling => isFinite spelling
  | .text raw => (Text.unescape raw).isSome
  | .array items => soundItems items
  | .object members => soundMembers members
  | _ => true

def soundItems : List Value → Bool
  | [] => true
  | v :: rest => v.isSound && soundItems rest

def soundMembers : List (List Char × Value) → Bool
  | [] => true
  | (key, v) :: rest => (Text.unescape key).isSome && v.isSound && soundMembers rest

end

end Value

end WideColumn.Json
