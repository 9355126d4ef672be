import WideColumn.Command.Parser

/-! # Reading a command line by places

A line can be read by counting: in which byte its keyword ends, which argument comes first, and
which three make up the next value to write. Such a reading has no answer as soon as it goes to a
place that is not there. -/
namespace WideColumn
open WideColumn.Schema WideColumn.Text

/-- A reading that may go to a place that is not there. -/
abbrev Placed := ExceptT Fault Option

namespace Placed

def outOfRange {α : Type} : Placed α := ExceptT.mk none

/-- The items from a place on. The end is the last place. -/
def itemsFrom {α : Type} (items : List α) (place : Nat) : Placed (List α) :=
  if place ≤ items.length then pure (items.drop place) else outOfRange

/-- The text from a byte on. Within a character there is no place. -/
def textFrom : List Char → Nat → Placed (List Char)
  | text, 0 => pure text
  | [], _ + 1 => outOfRange
  | c :: text, byte + 1 =>
    if c.utf8Size ≤ byte + 1 then textFrom text (byte + 1 - c.utf8Size) else outOfRange

end Placed

/-- The byte in which the keyword ends, if the line starts with it as a whole word. -/
def Keyword.ending? (k : Keyword) (line : List Char) : Option Nat :=
  if k.text.toList.isPrefixOf line && !(line.drop k.text.toList.length).head?.any isWordChar then
    some k.text.utf8ByteSize
  else none

namespace Command
open Placed

def cellWriteAt (args : List Argument) (place : Nat) : Except Fault CellWrite := do
  let row ← Keyword.put.stringAt args place
  let column ← CellColumn.parse (← Keyword.put.stringAt args (place + 1))
  let value ← Keyword.put.stringAt args (place + 2)
  return { row, column, value }

def groupPlaces (args : List Argument) : List Nat := List.range' 1 ((args.length - 1 + 2) / 3) 3

/-- The command that a keyword makes of its arguments, which are counted where they are many. -/
def ofArgumentsByPlaces (args : List Argument) : Keyword → Placed Command
  | .create => do
    let table ← Keyword.create.stringAt args 0
    if args.length < 2 then throw .createWithoutFamily
    let families ← itemsFrom args 1
    return .create table (← (families.mapM familySpec : Except Fault (List FamilySpec)))
  | .alter => do
    let table ← Keyword.alter.stringAt args 0
    if args.length < 2 then throw .alterWithoutMap
    let maps ← itemsFrom args 1
    return .alter table (← (maps.mapM alterMap : Except Fault (List Properties)))
  | .put => do
    let table ← Keyword.put.stringAt args 0
    let groups ← itemsFrom args (min 1 args.length)
    if groups.isEmpty || groups.length % 3 != 0 then throw .putGroups
    return .put table (←
      ((groupPlaces args).mapM (cellWriteAt args) : Except Fault (List CellWrite)))
  | k => ofArguments args k

def parseByPlaces (line : String) : Placed Command := do
  let cs := trim line.toList
  if cs.isEmpty then return .empty
  match Keyword.all.findSome? fun k => (k.ending? cs).map (k, ·) with
  | none => return .unknown (.ofList cs)
  | some (k, ending) =>
    let rest ← textFrom cs ending
    let args ← (Argument.ofString (.ofList rest)).mapError (Fault.inCommand k)
    ofArgumentsByPlaces args k

end Command

end WideColumn
