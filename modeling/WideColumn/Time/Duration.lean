import WideColumn.Text.Basic

/-! # Lengths of time, shown in seconds

A duration is shown as a binary number of 53 bits: its seconds, and its nanoseconds divided by 10⁹,
are each rounded to such a number, and so is their sum. -/
namespace WideColumn.Time
open WideColumn.Text

structure Duration where
  seconds : Nat
  nanoseconds : Nat
  deriving DecidableEq, Repr

/-- The whole number nearest to a quotient; of two the even one. -/
def roundDiv (num den : Nat) : Nat :=
  let q := num / den
  let r := num % den
  if 2 * r < den then q else if den < 2 * r then q + 1 else q + q % 2

/-- The number of 53 bits nearest to a fraction, as a fraction. -/
def nearest53 (num den : Nat) : Nat × Nat :=
  if num == 0 then (0, 1)
  else
    let size := (num.log2 : Int) - den.log2
    let below := if 0 ≤ size then num < den <<< size.toNat else num <<< (-size).toNat < den
    let exponent := size - (if below then 53 else 52)
    if 0 ≤ exponent then (roundDiv num (den <<< exponent.toNat) <<< exponent.toNat, 1)
    else (roundDiv (num <<< (-exponent).toNat) den, 1 <<< (-exponent).toNat)

namespace Duration

def ofNanoseconds (n : Nat) : Duration := ⟨n / 1_000_000_000, n % 1_000_000_000⟩

def inSeconds (d : Duration) : Nat × Nat :=
  let (a, b) := nearest53 d.seconds 1
  let (c, e) := nearest53 d.nanoseconds (1_000_000_000)
  nearest53 (a * e + c * b) (b * e)

def display (d : Duration) : String :=
  let (num, den) := d.inSeconds
  let n := roundDiv (num * 10_000) den
  .ofList (Numeral.write (n / 10_000) ++ '.' :: Numeral.padded 4 (n % 10_000))

end Duration

end WideColumn.Time
