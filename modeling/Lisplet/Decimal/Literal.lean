import Lisplet.Decimal.Rounding
import Lisplet.Integer

/-! Decimal literals of doubles. -/
namespace Lisplet.Decimal

/-- An unsigned literal: its digits as one number, how many they are, and the power of ten that
scales them. -/
structure Literal where
  digits : Nat
  count : Nat
  exponent : Int

/-- Reads what may follow the exponent mark: an optional sign and digits. -/
def readExponent? (cs : List Char) : Option Int :=
  match cs with
  | '+' :: rest => (Integer.ofDigits? rest).map fun n => (n : Int)
  | '-' :: rest => (Integer.ofDigits? rest).map fun n => -(n : Int)
  | _ => (Integer.ofDigits? cs).map fun n => (n : Int)

/-- Reads digits with an optional point, at least one digit in all, and an optional exponent. -/
def readLiteral? (cs : List Char) : Option Literal := do
  let whole := cs.takeWhile Char.isDigit
  let rest := cs.dropWhile Char.isDigit
  let (fraction, rest) :=
    match rest with
    | '.' :: tail => (tail.takeWhile Char.isDigit, tail.dropWhile Char.isDigit)
    | _ => ([], rest)
  let digits ← Integer.ofDigits? (whole ++ fraction)
  let exponent ←
    match rest with
    | [] => some 0
    | mark :: tail => if mark = 'e' ∨ mark = 'E' then readExponent? tail else none
  some ⟨digits, (whole ++ fraction).length, exponent - fraction.length⟩

/-- Bits of the double nearest to a literal. A scale far out of range decides alone. -/
def Literal.bits (l : Literal) : Nat :=
  if l.digits = 0 then 0
  else if 400 < l.exponent then infinityBits
  else if l.exponent + l.count < -400 then 0
  else
    let (num, den) := scaleTen l.digits 1 l.exponent
    nearestBits num den

def namedBits? (cs : List Char) : Option Nat :=
  match String.ofList (cs.map Char.toLower) with
  | "inf" => some infinityBits
  | "infinity" => some infinityBits
  | "nan" => some (infinityBits + 1 <<< (fractionBits - 1))
  | _ => none

/-- Reads a double: an optional sign, then a literal, `inf`, `infinity` or `nan`. -/
def read? (cs : List Char) : Option Float :=
  let unsigned (cs : List Char) : Option Nat :=
    ((readLiteral? cs).map Literal.bits).or (namedBits? cs)
  let bits : Option Nat :=
    match cs with
    | '+' :: rest => unsigned rest
    | '-' :: rest => (unsigned rest).map fun n => n + 1 <<< 63
    | _ => unsigned cs
  bits.map fun n => Float.ofBits n.toUInt64

end Lisplet.Decimal
