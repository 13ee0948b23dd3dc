import Lisplet.Decimal.Shortest

/-! The text of doubles. -/
namespace Lisplet.Decimal

/-- How a decimal is laid out: which exponents of the leading digit are written with a point
alone, what ends a whole number, and what divides digits from an exponent. -/
structure Style where
  leastPositional : Int
  lastPositional : Int
  whole : String
  mark : String

/-- Numbers from `0.0001` up to `10 ^ 16` are written with a point and at least one digit after
it, all others with an exponent. -/
def style : Style := ⟨-4, 15, ".0", "e"⟩

def signedText (n : Int) : String :=
  match n with
  | .ofNat m => m.repr
  | .negSucc m => "-" ++ (m + 1).repr

def positional (style : Style) (digits : List Char) (exponent : Int) : String :=
  match exponent with
  | .ofNat zeros => String.ofList (digits ++ List.replicate zeros '0') ++ style.whole
  | .negSucc k =>
    let places := k + 1
    if places < digits.length then
      let cut := digits.length - places
      String.ofList (digits.take cut) ++ "." ++ String.ofList (digits.drop cut)
    else "0." ++ String.ofList (List.replicate (places - digits.length) '0' ++ digits)

def scientific (style : Style) (digits : List Char) (leading : Int) : String :=
  let fraction := digits.drop 1
  let point := if fraction.isEmpty then "" else "."
  String.ofList (digits.take 1) ++ point ++ String.ofList fraction ++ style.mark
    ++ signedText leading

def layout (style : Style) (digits : Nat) (exponent : Int) : String :=
  let ds := Nat.toDigits 10 digits
  let leading := exponent + ds.length - 1
  if style.leastPositional ≤ leading ∧ leading ≤ style.lastPositional then
    positional style ds exponent
  else scientific style ds leading

def textOfBits (style : Style) (bits : Nat) : String :=
  let magnitude := bits % (1 <<< 63)
  let biased := magnitude >>> fractionBits
  let fraction := magnitude % (1 <<< fractionBits)
  let sign := if bits < 1 <<< 63 then "" else "-"
  if infinityBits < magnitude then "NaN"
  else if magnitude = infinityBits then sign ++ "inf"
  else if magnitude = 0 then sign ++ "0" ++ style.whole
  else
    let (digits, exponent) :=
      if biased = 0 then shortest fraction leastExponent
      else shortest (fraction + 1 <<< fractionBits) (leastExponent + biased - 1)
    sign ++ layout style digits exponent

/-- Text of a double: the fewest digits that read back as the same double. -/
def text (x : Float) : String := textOfBits style x.toBits.toNat

end Lisplet.Decimal
