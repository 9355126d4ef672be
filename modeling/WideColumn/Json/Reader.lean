import WideColumn.Json.Value

/-! # Reading a JSON document

Each step answers with what it read and the text after it. The fuel of the recursion through values
bounds the steps by the length of the text. -/
namespace WideColumn.Json.Reader

def isSpace (c : Char) : Bool := c == ' ' || c == '\n' || c == '\t' || c == '\r'

def skipSpace (cs : List Char) : List Char := cs.dropWhile isSpace

/-- A raw text up to its closing quote. Control characters must be escaped. -/
def rawText : List Char → Option (List Char × List Char)
  | [] => none
  | '"' :: rest => some ([], rest)
  | '\\' :: 'u' :: a :: b :: c :: d :: rest => do
    let _ ← Text.unit? a b c d
    let (raw, rest) ← rawText rest
    return ('\\' :: 'u' :: a :: b :: c :: d :: raw, rest)
  | '\\' :: c :: rest => do
    let _ ← Text.shortEscape? c
    let (raw, rest) ← rawText rest
    return ('\\' :: c :: raw, rest)
  | c :: rest =>
    if c == '\\' || c.toNat < 0x20 then none
    else (rawText rest).map fun (raw, rest) => (c :: raw, rest)

def digits (cs : List Char) : Option (List Char × List Char) :=
  match cs.takeWhile Char.isDigit with
  | [] => none
  | run => some (run, cs.dropWhile Char.isDigit)

/-- A whole number has no leading zeros. -/
def whole (cs : List Char) : Option (List Char × List Char) :=
  match cs with
  | '0' :: rest => if (digits rest).isSome then none else some (['0'], rest)
  | cs => digits cs

def fraction (cs : List Char) : Option (List Char × List Char) :=
  match cs with
  | '.' :: rest => (digits rest).map fun (run, rest) => ('.' :: run, rest)
  | cs => some ([], cs)

def exponent (cs : List Char) : Option (List Char × List Char) :=
  match cs with
  | e :: rest =>
    if e == 'e' || e == 'E' then
      match rest with
      | sign :: after =>
        if sign == '+' || sign == '-' then
          (digits after).map fun (run, rest) => (e :: sign :: run, rest)
        else (digits rest).map fun (run, rest) => (e :: run, rest)
      | [] => none
    else some ([], cs)
  | [] => some ([], [])

def number (cs : List Char) : Option (List Char × List Char) := do
  let (sign, cs) := match cs with
    | '-' :: rest => (['-'], rest)
    | cs => ([], cs)
  let (a, cs) ← whole cs
  let (b, cs) ← fraction cs
  let (c, cs) ← exponent cs
  return (sign ++ a ++ b ++ c, cs)

mutual

def value : Nat → List Char → Option (Value × List Char)
  | 0, _ => none
  | fuel + 1, cs =>
    match skipSpace cs with
    | '"' :: rest => (rawText rest).map fun (raw, rest) => (.text raw, rest)
    | '[' :: rest =>
      match skipSpace rest with
      | ']' :: rest => some (.array [], rest)
      | rest => (items fuel rest).map fun (vs, rest) => (.array vs, rest)
    | '\x7b' :: rest =>
      match skipSpace rest with
      | '\x7d' :: rest => some (.object [], rest)
      | rest => (members fuel rest).map fun (ms, rest) => (.object ms, rest)
    | 'n' :: 'u' :: 'l' :: 'l' :: rest => some (.null, rest)
    | 't' :: 'r' :: 'u' :: 'e' :: rest => some (.bool true, rest)
    | 'f' :: 'a' :: 'l' :: 's' :: 'e' :: rest => some (.bool false, rest)
    | cs => (number cs).map fun (spelling, rest) => (.number spelling, rest)

/-- The items of an array from one item on, up to the closing bracket. -/
def items : Nat → List Char → Option (List Value × List Char)
  | 0, _ => none
  | fuel + 1, cs => do
    let (v, cs) ← value fuel cs
    match skipSpace cs with
    | ',' :: rest =>
      let (vs, rest) ← items fuel rest
      return (v :: vs, rest)
    | ']' :: rest => return ([v], rest)
    | _ => none

def members : Nat → List Char → Option (List (List Char × Value) × List Char)
  | 0, _ => none
  | fuel + 1, cs =>
    match skipSpace cs with
    | '"' :: rest => do
      let (key, cs) ← rawText rest
      match skipSpace cs with
      | ':' :: rest =>
        let (v, cs) ← value fuel rest
        match skipSpace cs with
        | ',' :: rest =>
          let (ms, rest) ← members fuel rest
          return ((key, v) :: ms, rest)
        | '\x7d' :: rest => return ([(key, v)], rest)
        | _ => none
      | _ => none
    | _ => none

end

def document (cs : List Char) : Option Value := do
  let (v, rest) ← value (2 * cs.length + 2) cs
  if (skipSpace rest).isEmpty then some v else none

end WideColumn.Json.Reader
