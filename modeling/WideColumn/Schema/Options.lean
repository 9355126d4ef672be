import WideColumn.Fault
import WideColumn.Schema.Value

/-! # The options of a column family, and families

A batch of properties is applied as a whole or not at all: every key is resolved before any value is
read, and all values are read before any takes effect. -/
namespace WideColumn.Schema
open WideColumn.Text

/-- Keys with their values as a user writes them, in order, repetitions included. -/
abbrev Properties := List (String × String)

/-- None of the options changes how cells are stored: they describe a family. -/
structure Options where
  dataBlockEncoding : BlockEncoding := .none
  bloomFilter : BloomFilter := .row
  replicationScope : UInt32 := 0
  versions : UInt32 := 1
  compression : Compression := .none
  minVersions : UInt32 := 0
  ttl : Ttl := .forever
  keepDeletedCells : Bool := false
  blockSize : UInt32 := 65536
  inMemory : Bool := false
  blockCache : Bool := true
  deriving DecidableEq, Repr

namespace Options

def accept {α : Type} (kind text : String) : Option α → Except Fault α
  | some a => pure a
  | none => throw (.badValue text kind)

def choose (α : Type) [Choice α] (text : String) : Except Fault α :=
  accept (Choice.kind α) text (Choice.read? text)

/-- Set one property. Blanks around the value do not count. -/
def set (o : Options) (p : Property) (value : String) : Except Fault Options := do
  let text := trimmed value
  match p with
  | .dataBlockEncoding => return { o with dataBlockEncoding := ← choose BlockEncoding text }
  | .bloomFilter => return { o with bloomFilter := ← choose BloomFilter text }
  | .compression => return { o with compression := ← choose Compression text }
  | .ttl => return { o with ttl := ← accept p.label text (Ttl.read? text) }
  | .replicationScope =>
    return { o with replicationScope := ← accept p.label text (readNumber? text) }
  | .minVersions => return { o with minVersions := ← accept p.label text (readNumber? text) }
  | .versions =>
    let n ← accept p.label text (readNumber? text)
    if n == 0 then throw .zeroVersions
    return { o with versions := n }
  | .blockSize =>
    let n ← accept p.label text (readNumber? text)
    if n == 0 then throw .zeroBlockSize
    return { o with blockSize := n }
  | .keepDeletedCells =>
    return { o with keepDeletedCells := ← accept p.label text (readFlag? text) }
  | .inMemory => return { o with inMemory := ← accept p.label text (readFlag? text) }
  | .blockCache => return { o with blockCache := ← accept p.label text (readFlag? text) }

def get (o : Options) : Property → String
  | .dataBlockEncoding => Choice.label o.dataBlockEncoding
  | .bloomFilter => Choice.label o.bloomFilter
  | .compression => Choice.label o.compression
  | .ttl => o.ttl.label
  | .replicationScope => .ofList (Numeral.write o.replicationScope.toNat)
  | .minVersions => .ofList (Numeral.write o.minVersions.toNat)
  | .versions => .ofList (Numeral.write o.versions.toNat)
  | .blockSize => .ofList (Numeral.write o.blockSize.toNat)
  | .keepDeletedCells => .ofList (raised (flagLabel o.keepDeletedCells))
  | .inMemory => flagLabel o.inMemory
  | .blockCache => flagLabel o.blockCache

def resolve (key : String) : Except Fault Property :=
  match Property.find? key with
  | some p => pure p
  | none => throw (.unknownProperty key)

def setAll (o : Options) : List (Property × String) → Except Fault Options
  | [] => pure o
  | (p, value) :: rest => do (← o.set p value).setAll rest

def apply (o : Options) (batch : Properties) : Except Fault Options := do
  let known ← batch.mapM fun (key, value) => return (← resolve key, value)
  o.setAll known

def ofProperties (batch : Properties) : Except Fault Options := ({} : Options).apply batch

end Options

/-- A column family: its name, which is unique in its table, and its options. -/
structure Family where
  name : String
  options : Options := {}
  deriving DecidableEq, Repr

namespace Family

def describePair (key value : String) : String := key ++ " => '" ++ value ++ "'"

/-- The family as a property map: its name and every property. Quotes in the name stay bare. -/
def describe (f : Family) : String :=
  "\x7b" ++ ", ".intercalate (describePair nameKey f.name ::
    Property.all.map fun p => describePair p.label (f.options.get p)) ++ "\x7d"

def ofProperties (name : String) (batch : Properties) : Except Fault Family :=
  return { name, options := ← Options.ofProperties batch }

end Family

def isNameChar (c : Char) : Bool := c.isAlphanum || c == '_' || c == '.' || c == '-'

/-- A table name is not empty, starts with a letter, a digit or an underscore, and has only name
characters. -/
def checkTableName (name : String) : Except Fault Unit :=
  match name.toList with
  | [] => throw .emptyTableName
  | c :: cs =>
    if c == '.' || c == '-' then throw (.badTableStart name)
    else match (c :: cs).find? fun d => !isNameChar d with
      | some d => throw (.badTableCharacter d name)
      | none => pure ()

/-- A family name is not empty and has no colon, so that the first colon of a column ends it. -/
def checkFamilyName (name : String) : Except Fault Unit :=
  if name.toList.isEmpty then throw .emptyFamilyName
  else if ':' ∈ name.toList then throw (.badFamilyName name)
  else pure ()

end WideColumn.Schema
