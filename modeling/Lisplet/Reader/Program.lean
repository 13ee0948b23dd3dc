import Lisplet.Reader.Assembly
import Lisplet.Value.Printer

/-! Reading programs and single expressions. -/
namespace Lisplet.Reader

def Issue.toError (input : List Char) : Issue → ReadError
  | unformedToken offset =>
    let found := (Text.dropBytes? offset input).bind Text.firstWord?
    .atOffset .unterminatedString "Unterminated string literal" input offset
      (found.map String.ofList)
  | extraClose offset bracket =>
    .atOffset .unexpectedClose "Extra close parenthesis" input offset
      (some (String.ofList [bracket]))
  | tooDeep offset =>
    .atOffset .tooDeep ("Expression too deeply nested (max depth: " ++ maxReadDepth.repr ++ ")")
      input offset none
  | unclosed offset count =>
    .atOffset .unclosed ("Unclosed parenthesis (" ++ count.repr ++ " still open at end of input)")
      input offset none

def readProgram (comments : Bool) (input : String) : Except ReadError (List Value) :=
  match values comments input.toList with
  | .ok program => .ok program
  | .error issue => .error (issue.toError input.toList)

def readOne (input : String) : Except ReadError Value := do
  match ← readProgram false input with
  | [] => .error (.ofMessage .empty "No expression found")
  | [v] => .ok v
  | _ :: extra :: _ =>
    .error ⟨.trailing, "Unexpected input after the first expression", none,
      some (Store.empty.text extra)⟩

end Lisplet.Reader
