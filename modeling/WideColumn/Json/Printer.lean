import WideColumn.Json.Value

/-! # Printing a JSON document

Arrays and objects are spread over lines, one item or member a line, each level two blanks further
in; empty ones stay closed. -/
namespace WideColumn.Json.Printer

def lineAt (level : Nat) : List Char := '\n' :: List.replicate (2 * level) ' '

def quoted (raw : List Char) : List Char := '"' :: raw ++ ['"']

mutual

def value (level : Nat) : Value → List Char
  | .null => ['n', 'u', 'l', 'l']
  | .bool true => ['t', 'r', 'u', 'e']
  | .bool false => ['f', 'a', 'l', 's', 'e']
  | .number spelling => spelling
  | .text raw => quoted raw
  | .array [] => ['[', ']']
  | .array (v :: rest) =>
    '[' :: (lineAt (level + 1) ++ value (level + 1) v ++ items (level + 1) rest)
      ++ lineAt level ++ [']']
  | .object [] => ['\x7b', '\x7d']
  | .object ((key, v) :: rest) =>
    '\x7b' :: (lineAt (level + 1) ++ quoted key ++ [':', ' '] ++ value (level + 1) v
      ++ members (level + 1) rest) ++ lineAt level ++ ['\x7d']

/-- The items after the first. -/
def items (level : Nat) : List Value → List Char
  | [] => []
  | v :: rest => ',' :: (lineAt level ++ value level v) ++ items level rest

def members (level : Nat) : List (List Char × Value) → List Char
  | [] => []
  | (key, v) :: rest =>
    ',' :: (lineAt level ++ quoted key ++ [':', ' '] ++ value level v) ++ members level rest

end

def document (v : Value) : List Char := value 0 v

end WideColumn.Json.Printer
