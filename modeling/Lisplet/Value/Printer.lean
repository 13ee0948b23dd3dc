import Lisplet.Decimal.Layout
import Lisplet.Error
import Lisplet.Store

/-! The text of values. A vector inside itself is cut short, so every value has a text. -/
namespace Lisplet

namespace Value

def writeAtom (name? : ClosureId → Option String) (vectorText : String → VectorId → String)
    (acc : String) : Value → String
  | integer n => acc ++ Integer.text n
  | float x => acc ++ Decimal.text x
  | string s => acc ++ "\"" ++ s ++ "\""
  | boolean b => acc ++ if b then "#t" else "#f"
  | symbol name => acc ++ name
  | function name _ _ => acc ++ "#<builtin-function:" ++ name ++ ">"
  | special form => acc ++ "#<special-form:" ++ form.name ++ ">"
  | closure id =>
    match name? id with
    | some name => acc ++ "#<closure:" ++ name ++ ">"
    | none => acc ++ "#<closure>"
  | nil => acc ++ "()"
  | pair _ _ => acc
  | vector id => vectorText acc id
  | tailCall _ => acc ++ "#<tail-call>"

mutual

/-- Appends the text of a value, given the text of vectors. -/
def write (name? : ClosureId → Option String) (vectorText : String → VectorId → String)
    (acc : String) : Value → String
  | pair head tail => writeTail name? vectorText (write name? vectorText (acc ++ "(") head) tail
  | v => writeAtom name? vectorText acc v

def writeTail (name? : ClosureId → Option String) (vectorText : String → VectorId → String)
    (acc : String) : Value → String
  | nil => acc ++ ")"
  | pair head tail => writeTail name? vectorText (write name? vectorText (acc ++ " ") head) tail
  | v => writeAtom name? vectorText (acc ++ " . ") v ++ ")"

end

end Value

def writeItems (write : String → Value → String) (acc : String) : List Value → String
  | [] => acc
  | v :: vs => vs.foldl (fun acc v => write (acc ++ " ") v) (write acc v)

namespace Store

/-- Appends the text of a value inside the vectors `opened`. At most `fuel` further vectors open
inside each other, and those beyond are cut short like open ones. -/
def writeInside (s : Store) : Nat → List VectorId → String → Value → String
  | 0, _, acc, v => v.write s.closureName? (fun acc _ => acc ++ "#(...)") acc
  | fuel + 1, opened, acc, v =>
    v.write s.closureName?
      (fun acc id =>
        if id ∈ opened then acc ++ "#(...)"
        else
          let items := (s.items id).toList
          writeItems (s.writeInside fuel (id :: opened)) (acc ++ "#(") items ++ ")")
      acc

def text (s : Store) (v : Value) : String := s.writeInside (s.vectors.size + 1) [] "" v

/-- The text of a value, a string being its own. -/
def bareText (s : Store) : Value → String
  | .string t => t
  | v => s.text v

/-- A value as it looks now, for an error. -/
def shown (s : Store) (v : Value) : Shown := ⟨s.text v, v.typeName⟩

/-- The constructors of a value spelled out. A closure has no such text; a vector has its plain
text. -/
def inspect? (s : Store) : Value → Option String
  | .integer n => some ("Integer(" ++ Integer.text n ++ ")")
  | .float x => some ("Float(" ++ Decimal.text x ++ ")")
  | .string t => some ("String(\"" ++ t ++ "\")")
  | .boolean b => some (if b then "Bool(true)" else "Bool(false)")
  | .symbol name => some ("Symbol(" ++ name ++ ")")
  | .function name _ _ => some ("BuiltinFunction(" ++ name ++ ")")
  | .special form => some ("SpecialForm(" ++ form.name ++ ")")
  | .closure _ => none
  | .nil => some "Nil"
  | .pair head tail => do
    let head ← s.inspect? head
    let tail ← s.inspect? tail
    some ("Pair(" ++ head ++ ", " ++ tail ++ ")")
  | .vector id => some ("Vector" ++ s.text (.vector id))
  | .tailCall args => do
    let items ← inspectItems? args
    some ("TailCall([" ++ ", ".intercalate items ++ "])")
where
  /-- The elements of a list spelled out one by one. -/
  inspectItems? : Value → Option (List String)
    | .pair head tail => do
      let head ← s.inspect? head
      let tail ← inspectItems? tail
      some (head :: tail)
    | _ => some []

end Store

end Lisplet
