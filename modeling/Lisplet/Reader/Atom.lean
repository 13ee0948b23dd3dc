import Lisplet.Decimal.Literal
import Lisplet.Value

/-! The value of a block of text. -/
namespace Lisplet.Reader

/-- The text between a quote at the start and another at the end. -/
def unquote? : List Char → Option (List Char)
  | '"' :: rest => if rest.getLast? = some '"' then some rest.dropLast else none
  | _ => none

/-- A block of text is an integer, a float, a string or a truth value if it is written like one,
and a symbol otherwise. The named doubles are symbols. -/
def atom (text : List Char) : Value :=
  match Integer.read? text with
  | some n => .integer n
  | none =>
    match (if text.any Char.isDigit then Decimal.read? text else none) with
    | some x => .float x
    | none =>
      match unquote? text with
      | some inside => .string (String.ofList inside)
      | none =>
        if text = ['#', 't'] then .boolean true
        else if text = ['#', 'f'] then .boolean false
        else .symbol (String.ofList text)

end Lisplet.Reader
