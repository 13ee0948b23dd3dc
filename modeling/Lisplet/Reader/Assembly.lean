import Lisplet.Limit
import Lisplet.Reader.Atom
import Lisplet.Reader.Token

/-! Lists assembled from tokens with a stack of open lists. -/
namespace Lisplet.Reader

/-- What is wrong with a text, and at which byte offset. -/
inductive Issue where
  | unformedToken (offset : Nat)
  | extraClose (offset : Nat) (bracket : Char)
  | tooDeep (offset : Nat)
  | unclosed (offset : Nat) (count : Nat)
deriving DecidableEq, Repr

/-- The innermost open list, and the lists around it with the offsets of the brackets that were
opened in them. Every list keeps its last element first. -/
structure Assembly where
  items : List Value
  enclosing : List (List Value × Nat)

namespace Assembly

def start : Assembly := ⟨[], []⟩

def feed (a : Assembly) (t : Token) : Except Issue Assembly :=
  match t.lexeme with
  | .opening _ =>
    if maxReadDepth ≤ a.enclosing.length + 1 then .error (.tooDeep t.offset)
    else .ok ⟨[], (a.items, t.offset) :: a.enclosing⟩
  | .closing bracket =>
    match a.enclosing with
    | [] => .error (.extraClose t.offset bracket)
    | (items, _) :: enclosing => .ok ⟨Value.ofList a.items.reverse :: items, enclosing⟩
  | .block text => .ok { a with items := atom text :: a.items }

def finish (a : Assembly) : Except Issue (List Value) :=
  match a.enclosing with
  | [] => .ok a.items.reverse
  | (_, offset) :: rest => .error (.unclosed offset (rest.length + 1))

end Assembly

def assemble (tokens : List Token) : Except Issue (List Value) := do
  let a ← tokens.foldlM Assembly.feed Assembly.start
  a.finish

def values (comments : Bool) (input : List Char) : Except Issue (List Value) :=
  match tokens comments input with
  | .ok tokens => assemble tokens
  | .error offset => .error (.unformedToken offset)

end Lisplet.Reader
