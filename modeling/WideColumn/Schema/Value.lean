import WideColumn.Text.Basic

/-! # Values that the properties of a column family take -/
namespace WideColumn.Schema
open WideColumn.Text

/-- A closed set of named values. Labels are written in upper case. -/
class Choice (α : Type) where
  /-- What a message calls such a value. -/
  kind : String
  all : List α
  label : α → String

namespace Choice

variable {α : Type} [Choice α]

def ofLabel? (text : String) : Option α := (all (α := α)).find? fun a => label a == text

def read? (text : String) : Option α :=
  (all (α := α)).find? fun a => (label a).toList == raised text

end Choice

inductive BlockEncoding where
  | none
  | leading
  | diff
  | fastDiff
  | rowIndex
  deriving DecidableEq, Repr

instance : Choice BlockEncoding where
  kind := "DataBlockEncoding"
  all := [.none, .leading, .diff, .fastDiff, .rowIndex]
  label
    | .none => "NONE"
    | .leading => "PREFIX"
    | .diff => "DIFF"
    | .fastDiff => "FAST_DIFF"
    | .rowIndex => "ROW_INDEX_V1"

inductive BloomFilter where
  | none
  | row
  | rowColumn
  | rowStart
  deriving DecidableEq, Repr

instance : Choice BloomFilter where
  kind := "BloomType"
  all := [.none, .row, .rowColumn, .rowStart]
  label
    | .none => "NONE"
    | .row => "ROW"
    | .rowColumn => "ROWCOL"
    | .rowStart => "ROWPREFIX_FIXED_LENGTH"

inductive Compression where
  | none
  | gz
  | lzo
  | snappy
  | lz4
  | zstd
  deriving DecidableEq, Repr

instance : Choice Compression where
  kind := "Compression"
  all := [.none, .gz, .lzo, .snappy, .lz4, .zstd]
  label
    | .none => "NONE"
    | .gz => "GZ"
    | .lzo => "LZO"
    | .snappy => "SNAPPY"
    | .lz4 => "LZ4"
    | .zstd => "ZSTD"

inductive Ttl where
  | forever
  | seconds (n : UInt64)
  deriving DecidableEq, Repr

namespace Ttl

def label : Ttl → String
  | forever => "FOREVER"
  | seconds n => .ofList (Numeral.write n.toNat ++ " SECONDS".toList)

/-- The text without one of the two spellings of the unit at its end. -/
def withoutUnit (cs : List Char) : List Char :=
  if "SECONDS".toList.isSuffixOf cs || "seconds".toList.isSuffixOf cs then cs.take (cs.length - 7)
  else cs

/-- `FOREVER` in any case, or a number of seconds with or without its unit, blanks aside. -/
def read? (text : String) : Option Ttl :=
  let cs := trim text.toList
  if sameWord (.ofList cs) "FOREVER" then some forever
  else (Numeral.readUpTo Numeral.max64 (trim (withoutUnit cs))).map fun n => seconds (.ofNat n)

end Ttl

def flagLabel (b : Bool) : String := if b then "true" else "false"

def readFlag? (text : String) : Option Bool :=
  if lowered text == (flagLabel true).toList then some true
  else if lowered text == (flagLabel false).toList then some false
  else none

def readNumber? (text : String) : Option UInt32 :=
  (Numeral.readUpTo Numeral.max32 text.toList).map UInt32.ofNat

end WideColumn.Schema
