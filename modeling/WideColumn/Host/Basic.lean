import WideColumn.Time.Instant
import WideColumn.Uuid

/-! # What the store asks of the machine it runs on: the time, fresh identifiers, and files -/
namespace WideColumn
open WideColumn.Time

inductive DiskError where
  | missing
  | present
  | notDirectory
  | isDirectory
  | nameTooLong
  | notText
  | other (detail : String)
  deriving DecidableEq, Repr

def DiskError.detail : DiskError → String
  | missing => "No such file or directory (os error 2)"
  | present => "File exists (os error 17)"
  | notDirectory => "Not a directory (os error 20)"
  | isDirectory => "Is a directory (os error 21)"
  | nameTooLong => "File name too long (os error 36)"
  | notText => "stream did not contain valid UTF-8"
  | other detail => detail

def pathIn (directory name : String) : String :=
  if directory.toList.isEmpty || directory.toList.getLast? == some '/' then directory ++ name
  else directory ++ "/" ++ name

class Host (m : Type → Type) where
  /-- What the clock shows. -/
  now : m Instant
  /-- An identifier that no table has. -/
  newId : m Uuid
  /-- Nanoseconds since some moment that stays the same. -/
  stopwatch : m Nat
  pathExists (path : String) : m Bool
  /-- Make a directory and those above it, unless they are there. -/
  makeDirectory (path : String) : m (Except DiskError Unit)
  /-- The names of the files in a directory, those of its directories aside. -/
  fileNames (path : String) : m (Except DiskError (List String))
  readFile (path : String) : m (Except DiskError String)
  /-- Give a file a new content. -/
  writeFile (path text : String) : m (Except DiskError Unit)
  removeFile (path : String) : m (Except DiskError Unit)

instance (m n : Type → Type) [MonadLift m n] [Host m] : Host n where
  now := liftM (Host.now : m Instant)
  newId := liftM (Host.newId : m Uuid)
  stopwatch := liftM (Host.stopwatch : m Nat)
  pathExists path := liftM (Host.pathExists path : m Bool)
  makeDirectory path := liftM (Host.makeDirectory path : m (Except DiskError Unit))
  fileNames path := liftM (Host.fileNames path : m (Except DiskError (List String)))
  readFile path := liftM (Host.readFile path : m (Except DiskError String))
  writeFile path text := liftM (Host.writeFile path text : m (Except DiskError Unit))
  removeFile path := liftM (Host.removeFile path : m (Except DiskError Unit))

end WideColumn
