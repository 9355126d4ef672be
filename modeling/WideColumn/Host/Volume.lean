import WideColumn.Host.Basic

/-! # Volumes: trees of directories and files

A volume is kept as the list of its paths with what is there. The root is always a directory. Every
operation answers with an error and changes nothing, or with the changed volume. -/
namespace WideColumn

/-- The names on the way from the root. -/
abbrev Path := List String

/-- The content of a file: a text, or bytes that are none. -/
inductive Content where
  | text (s : String)
  | bytes (b : List UInt8)
  deriving DecidableEq, Repr

inductive Node where
  | directory
  | file (content : Content)
  deriving DecidableEq, Repr

structure Volume where
  nodes : List (Path × Node)
  deriving DecidableEq, Repr

namespace Volume

def blank : Volume := ⟨[]⟩

/-- The names in the text of a path. A dot stays in place and two dots lead back. -/
def path (text : String) : Path :=
  ((text.toList.splitOn '/').map String.ofList).foldl (fun p name =>
    if name == "" || name == "." then p else if name == ".." then p.dropLast else p ++ [name]) []

def maxNameBytes : Nat := 255

def tooLong (p : Path) : Bool := p.any fun name => maxNameBytes < name.utf8ByteSize

def node? (v : Volume) (p : Path) : Option Node :=
  if p.isEmpty then some .directory else (v.nodes.find? fun e => e.1 == p).map (·.2)

/-- The paths above a path, the root first. -/
def above (p : Path) : List Path := (List.range p.length).map p.take

/-- What is at a path. On the way there must be directories. -/
def find? (v : Volume) (p : Path) : Except DiskError Node :=
  if tooLong p then throw .nameTooLong
  else match (above p).find? fun q => v.node? q != some .directory with
    | some q => throw (if (v.node? q).isSome then DiskError.notDirectory else DiskError.missing)
    | none =>
      match v.node? p with
      | some n => pure n
      | none => throw .missing

def has (v : Volume) (p : Path) : Bool := (v.find? p).isOk

def place (v : Volume) (p : Path) (n : Node) : Volume :=
  ⟨v.nodes.filter (fun e => e.1 != p) ++ [(p, n)]⟩

def children (v : Volume) (p : Path) : List (String × Node) :=
  v.nodes.filterMap fun (q, n) =>
    match q.getLast? with
    | some name => if q.dropLast == p then some (name, n) else none
    | none => none

def list (v : Volume) (p : Path) : Except DiskError (List (String × Node)) := do
  match ← v.find? p with
  | .directory => return v.children p
  | .file _ => throw .notDirectory

/-- Make a directory and all above it. -/
def makeDirectory (v : Volume) (p : Path) : Except DiskError Volume :=
  (above p ++ [p]).foldlM (fun v q =>
    match v.find? q with
    | .ok .directory => pure v
    | .ok (.file _) => throw (if q == p then .present else .notDirectory)
    | .error .missing => pure (v.place q .directory)
    | .error e => throw e) v

def read (v : Volume) (p : Path) : Except DiskError String := do
  match ← v.find? p with
  | .directory => throw .isDirectory
  | .file (.text s) => return s
  | .file (.bytes _) => throw .notText

/-- Give a file a content. The directory must be there. -/
def write (v : Volume) (p : Path) (c : Content) : Except DiskError Volume :=
  match v.find? p with
  | .ok .directory => throw .isDirectory
  | .ok (.file _) => pure (v.place p (.file c))
  | .error .missing =>
    match v.find? p.dropLast with
    | .ok .directory => pure (v.place p (.file c))
    | .ok (.file _) => throw .notDirectory
    | .error e => throw e
  | .error e => throw e

def remove (v : Volume) (p : Path) : Except DiskError Volume := do
  match ← v.find? p with
  | .directory => throw .isDirectory
  | .file _ => return ⟨v.nodes.filter fun e => e.1 != p⟩

/-- Move what is at a path, with all below it. A file may take the place of a file, a directory that
of an empty directory. -/
def move (v : Volume) (p q : Path) : Except DiskError Volume := do
  let n ← v.find? p
  match ← v.find? q.dropLast with
  | .file _ => throw .notDirectory
  | .directory =>
    if p == q then return v
    if p.isPrefixOf q then throw (.other "Invalid argument (os error 22)")
    match v.find? q, n with
    | .ok .directory, .file _ => throw .isDirectory
    | .ok (.file _), .directory => throw .notDirectory
    | .ok .directory, .directory =>
      if !(v.children q).isEmpty then throw (.other "Directory not empty (os error 39)")
    | .error .missing, _ => pure ()
    | .error e, _ => throw e
    | .ok (.file _), .file _ => pure ()
    let kept := v.nodes.filter fun e => e.1 != q
    return ⟨kept.map fun (r, n) => (if p.isPrefixOf r then q ++ r.drop p.length else r, n)⟩

end Volume

end WideColumn
