import WideColumn.Time.Instant

/-! # Histories: the values that a cell has had -/
namespace WideColumn
open WideColumn.Time

structure Version where
  timestamp : Instant
  value : String
  deriving DecidableEq

/-- The versions of a cell. There is always one, and versions are only added. -/
structure History where
  latest : Version
  /-- The versions before the latest, the newest first. -/
  earlier : List Version
  deriving DecidableEq

namespace History

def newestFirst (h : History) : List Version := h.latest :: h.earlier

def oldestFirst (h : History) : List Version := h.newestFirst.reverse

def ofOldestFirst? (versions : List Version) : Option History :=
  match versions.reverse with
  | [] => none
  | latest :: earlier => some { latest, earlier }

def length (h : History) : Nat := h.earlier.length + 1

/-- The number of versions in 32 bits: after 4294967295 the numbers go on with 0. -/
def count (h : History) : UInt32 := .ofNat h.length

/-- A version by its number; the oldest has number 1. -/
def version? (h : History) (number : Nat) : Option Version :=
  if number == 0 then none else h.oldestFirst[number - 1]?

def numbered (h : History) : List (Nat × Version) :=
  go h.length h.newestFirst
where
  go (number : Nat) : List Version → List (Nat × Version)
    | [] => []
    | v :: older => (number, v) :: go (number - 1) older

def start (now : Instant) (value : String) : History where
  latest := { timestamp := now, value }
  earlier := []

/-- Add a value. Its time is not before the time of the version that was the latest. -/
def push (h : History) (now : Instant) (value : String) : History where
  latest := { timestamp := h.latest.timestamp.latest now, value }
  earlier := h.newestFirst

end History

end WideColumn
