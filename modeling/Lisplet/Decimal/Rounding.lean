/-! The double nearest to a ratio of natural numbers. -/
namespace Lisplet.Decimal

/-- The quotient rounded to the nearest integer, and to the even one at a midpoint. -/
def divNearestEven (num den : Nat) : Nat :=
  let q := num / den
  let r := num % den
  if 2 * r < den then q
  else if den < 2 * r then q + 1
  else q + q % 2

def scaleTwo (num den : Nat) (e : Int) : Nat × Nat :=
  match e with
  | .ofNat k => (num <<< k, den)
  | .negSucc k => (num, den <<< (k + 1))

def scaleTen (num den : Nat) (e : Int) : Nat × Nat :=
  match e with
  | .ofNat k => (num * Nat.pow 10 k, den)
  | .negSucc k => (num, den * Nat.pow 10 (k + 1))

def fractionBits : Nat := 52

def leastExponent : Int := -1074

def infinityBits : Nat := 2047 <<< fractionBits

/-- Exponent of the last place of a double near the positive ratio `num / den`. -/
def placeExponent (num den : Nat) : Int :=
  let guess : Int := (num.log2 : Int) - den.log2 - fractionBits
  let (n, d) := scaleTwo num den (-guess)
  let exponent := if n < d <<< fractionBits then guess - 1 else guess
  max exponent leastExponent

/-- Bits of the double nearest to `num / den`, infinity being nearest to all that is too large. -/
def nearestBits (num den : Nat) : Nat :=
  if num = 0 then 0
  else
    let exponent := placeExponent num den
    let (n, d) := scaleTwo num den (-exponent)
    let bits := ((exponent - leastExponent).toNat <<< fractionBits) + divNearestEven n d
    min bits infinityBits

end Lisplet.Decimal
