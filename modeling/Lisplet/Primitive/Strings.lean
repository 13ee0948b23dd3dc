import Lisplet.Action
import Lisplet.Text.Blank

/-! Strings, and the integers they spell. -/
namespace Lisplet.Strings

/-- An integer, or the one that a string spells between blanks. -/
def toInteger : Observer := Observer.onOne fun s v =>
  match v with
  | .integer n => .ok (.integer n)
  | .string t =>
    match Integer.read? (Text.trim t.toList) with
    | some n => .ok (.integer n)
    | none => .error (.eval (.unreadableInteger t) none)
  | v => .error (.type (.stringOrIntegerExpected .toInteger (s.shown v)) none)

def toText : Observer := fun s args => .ok (.string (String.join (args.map s.bareText)))

def characters : Observer := Observer.onOne fun s v =>
  match v with
  | .string t => .ok (.ofList (t.toList.map fun c => .string (String.ofList [c])))
  | v => .error (.type (.stringExpected .characters (s.shown v)) none)

end Lisplet.Strings
