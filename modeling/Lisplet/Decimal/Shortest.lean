import Lisplet.Decimal.Rounding

/-! The shortest decimal that reads back as a given double. -/
namespace Lisplet.Decimal

def digitCount (n : Nat) : Nat := (Nat.toDigits 10 n).length

def leadingExponent (num den : Nat) : Int :=
  if den ≤ num then (digitCount (num / den) : Int) - 1
  else -(digitCount ((den - 1) / num) : Int)

/-- The reals that round to a double, counted in quarters of its last place: its own value, both
ends, and whether the ends belong to them. -/
structure Interval where
  low : Nat
  value : Nat
  high : Nat
  closed : Bool

/-- The reals that round to `mantissa * 2 ^ exponent`. Below a power of two the gap is half as
wide, and ends belong to even mantissas. -/
def Interval.around (mantissa : Nat) (exponent : Int) : Interval where
  low := if mantissa = 1 <<< fractionBits ∧ leastExponent < exponent then 4 * mantissa - 1
    else 4 * mantissa - 2
  value := 4 * mantissa
  high := 4 * mantissa + 2
  closed := mantissa % 2 = 0

/-- Whether `point * den` lies between the ends scaled by `num`. -/
def Interval.contains (i : Interval) (num den point : Nat) : Bool :=
  if i.closed then i.low * num ≤ point * den && point * den ≤ i.high * num
  else i.low * num < point * den && point * den < i.high * num

/-- Of the two points next to the value on the grid of step `10 ^ place`, the one that rounds to
the double; the nearer if both do, and the upper one at a midpoint. -/
def gridPoint? (i : Interval) (exponent place : Int) : Option Nat :=
  let (num, den) := scaleTwo 1 1 (exponent - 2)
  let (num, den) := scaleTen num den (-place)
  let below := i.value * num / den
  let excess := i.value * num % den
  match i.contains num den below, i.contains num den (below + 1) with
  | true, true => some (if 2 * excess < den then below else below + 1)
  | true, false => some below
  | false, true => some (below + 1)
  | false, false => none

/-- Drops the final zeros of a number, at most `fuel` of them, and counts them. -/
def dropZeros : Nat → Nat → Nat × Nat
  | 0, n => (n, 0)
  | fuel + 1, n =>
    if n % 10 = 0 ∧ n ≠ 0 then
      let (m, k) := dropZeros fuel (n / 10)
      (m, k + 1)
    else (n, 0)

/-- The digits, as a number, and the power of ten of the shortest decimal that rounds to
`mantissa * 2 ^ exponent`. Seventeen digits are always enough. -/
def shortest (mantissa : Nat) (exponent : Int) : Nat × Int :=
  let interval := Interval.around mantissa exponent
  let (num, den) := scaleTwo mantissa 1 exponent
  let leading := leadingExponent num den
  let found := (List.range 17).findSome? fun (n : Nat) =>
    let place := leading - n
    (gridPoint? interval exponent place).map fun point => (point, place)
  match found with
  | some (point, place) =>
    let (digits, zeros) := dropZeros (digitCount point) point
    (digits, place + zeros)
  | none => (num / den, 0)

end Lisplet.Decimal
