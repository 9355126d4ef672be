import WideColumn.Host.Volume

/-! # A machine as a value

A machine has a volume, and is given in advance what its clock will show, which identifiers it will
give out, and which calls of the disk will fail. -/
namespace WideColumn
open WideColumn.Time

/-- How a call of the disk fails. A file that was being written may be left with another content. -/
structure Outage where
  error : DiskError
  residue : Option Content

structure Machine where
  volume : Volume
  clock : Nat → Instant
  ids : Nat → Uuid
  watch : Nat → Nat
  outages : Nat → Option Outage
  /-- How often the clock was read. -/
  readings : Nat
  /-- How many identifiers were given out. -/
  drawn : Nat
  /-- How often the stopwatch was read. -/
  looks : Nat
  /-- How often the disk was called. -/
  calls : Nat

namespace Machine

def now (k : Machine) : Instant × Machine :=
  (k.clock k.readings, { k with readings := k.readings + 1 })

def newId (k : Machine) : Uuid × Machine := (k.ids k.drawn, { k with drawn := k.drawn + 1 })

def stopwatch (k : Machine) : Nat × Machine := (k.watch k.looks, { k with looks := k.looks + 1 })

/-- The outage of the next call, if it fails, and the machine after the call. -/
def called (k : Machine) : Option Outage × Machine :=
  (k.outages k.calls, { k with calls := k.calls + 1 })

def look {α : Type} (f : Volume → Except DiskError α)
    (k : Machine) : Except DiskError α × Machine :=
  match k.called with
  | (some o, k) => (.error o.error, k)
  | (none, k) => (f k.volume, k)

def change (f : Volume → Except DiskError Volume) (k : Machine) : Except DiskError Unit × Machine :=
  match k.called with
  | (some o, k) => (.error o.error, k)
  | (none, k) =>
    match f k.volume with
    | .error e => (.error e, k)
    | .ok v => (.ok (), { k with volume := v })

/-- Write a file. A write that fails half-way leaves its residue, if there is a place for it. -/
def writeFile (p : Path) (text : String) (k : Machine) : Except DiskError Unit × Machine :=
  match k.called with
  | (some o, k) =>
    let v := match o.residue with
      | some c => ((k.volume.write p c).toOption).getD k.volume
      | none => k.volume
    (.error o.error, { k with volume := v })
  | (none, k) =>
    match k.volume.write p (.text text) with
    | .error e => (.error e, k)
    | .ok v => (.ok (), { k with volume := v })

def filesOf (l : List (String × Node)) : List String :=
  l.filterMap fun
    | (name, .file _) => some name
    | (_, .directory) => none

instance : Host (StateM Machine) where
  now := Machine.now
  newId := Machine.newId
  stopwatch := Machine.stopwatch
  pathExists p k :=
    let (r, k) := look (fun v => (v.find? (Volume.path p)).map fun _ => ()) k
    (r.isOk, k)
  makeDirectory p := change (Volume.makeDirectory · (Volume.path p))
  fileNames p := look fun v => (v.list (Volume.path p)).map filesOf
  readFile p := look (Volume.read · (Volume.path p))
  writeFile p text := writeFile (Volume.path p) text
  removeFile p := change (Volume.remove · (Volume.path p))

end Machine

end WideColumn
