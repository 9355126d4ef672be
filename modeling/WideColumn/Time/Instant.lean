/-! # Points in time, in universal time, down to the nanosecond -/
namespace WideColumn.Time

def isLeapYear (year : Int) : Bool := year % 4 == 0 && (year % 100 != 0 || year % 400 == 0)

def daysInMonth (year : Int) (month : Nat) : Nat :=
  if month == 2 then if isLeapYear year then 29 else 28
  else if month == 4 || month == 6 || month == 9 || month == 11 then 30
  else 31

def firstYear : Int := -262143

def lastYear : Int := 262142

/-- A date of the proleptic Gregorian calendar. -/
structure Date where
  year : Int
  month : Nat
  day : Nat
  valid : firstYear ≤ year ∧ year ≤ lastYear ∧ 1 ≤ month ∧ month ≤ 12 ∧
    1 ≤ day ∧ day ≤ daysInMonth year month
  deriving DecidableEq

def Date.of? (year : Int) (month day : Nat) : Option Date :=
  if h : firstYear ≤ year ∧ year ≤ lastYear ∧ 1 ≤ month ∧ month ≤ 12 ∧
      1 ≤ day ∧ day ≤ daysInMonth year month
  then some ⟨year, month, day, h⟩ else none

def Date.next? (d : Date) : Option Date :=
  if d.day < daysInMonth d.year d.month then Date.of? d.year d.month (d.day + 1)
  else if d.month < 12 then Date.of? d.year (d.month + 1) 1
  else Date.of? (d.year + 1) 1 1

def Date.previous? (d : Date) : Option Date :=
  if 1 < d.day then Date.of? d.year d.month (d.day - 1)
  else if 1 < d.month then Date.of? d.year (d.month - 1) (daysInMonth d.year (d.month - 1))
  else Date.of? (d.year - 1) 12 31

/-- A date and a time of day. Second 60 is a leap second, which any minute may have. -/
structure Instant where
  date : Date
  hour : Nat
  minute : Nat
  second : Nat
  nanosecond : Nat
  valid : hour < 24 ∧ minute < 60 ∧ second ≤ 60 ∧ nanosecond < 1_000_000_000
  deriving DecidableEq

namespace Instant

def of? (date : Date) (hour minute second nanosecond : Nat) : Option Instant :=
  if h : hour < 24 ∧ minute < 60 ∧ second ≤ 60 ∧ nanosecond < 1_000_000_000
  then some ⟨date, hour, minute, second, nanosecond, h⟩ else none

/-- The place of an instant on a line that leaves room for every field, so that places are ordered
as instants are. -/
def place (t : Instant) : Int :=
  (((((t.date.year * 13 + t.date.month) * 32 + t.date.day) * 24 + t.hour) * 60 + t.minute) * 61
    + t.second) * 1_000_000_000 + t.nanosecond

instance : LT Instant := ⟨fun s t => s.place < t.place⟩

instance : LE Instant := ⟨fun s t => s.place ≤ t.place⟩

instance (s t : Instant) : Decidable (s < t) := inferInstanceAs (Decidable (s.place < t.place))

instance (s t : Instant) : Decidable (s ≤ t) := inferInstanceAs (Decidable (s.place ≤ t.place))

def latest (s t : Instant) : Instant := if s < t then t else s

/-- The instant that a clock shows which is `minutes` ahead of universal time, put into universal
time. The difference is less than a day. -/
def behind? (t : Instant) (minutes : Int) : Option Instant :=
  let ofDay : Int := (t.hour : Int) * 60 + t.minute - minutes
  let date :=
    if ofDay < 0 then t.date.previous?
    else if 24 * 60 ≤ ofDay then t.date.next?
    else some t.date
  let ofDay := (ofDay % (24 * 60)).toNat
  date.bind fun d => of? d (ofDay / 60) (ofDay % 60) t.second t.nanosecond

def epoch : Instant where
  date := ⟨1970, 1, 1, by decide⟩
  hour := 0
  minute := 0
  second := 0
  nanosecond := 0
  valid := by decide

/-- The date that many days after 1 January 1970. Years are counted from March, so that the leap day
comes last, and days from the start of an era of 400 years. -/
def dateOfDays? (days : Nat) : Option Date :=
  let shifted := days + 719468
  let era := shifted / 146097
  let ofEra := shifted % 146097
  let yearOfEra := (ofEra - ofEra / 1460 + ofEra / 36524 - ofEra / 146096) / 365
  let ofYear := ofEra - (365 * yearOfEra + yearOfEra / 4 - yearOfEra / 100)
  let fromMarch := (5 * ofYear + 2) / 153
  let day := ofYear - (153 * fromMarch + 2) / 5 + 1
  let month := if fromMarch < 10 then fromMarch + 3 else fromMarch - 9
  let year := yearOfEra + era * 400 + (if month ≤ 2 then 1 else 0)
  Date.of? year month day

def ofNanoseconds? (n : Nat) : Option Instant :=
  let seconds := n / 1_000_000_000
  let ofDay := seconds % 86400
  (dateOfDays? (seconds / 86400)).bind fun d =>
    of? d (ofDay / 3600) (ofDay / 60 % 60) (ofDay % 60) (n % 1_000_000_000)

end Instant

end WideColumn.Time
