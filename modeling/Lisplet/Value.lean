import Lisplet.Arity

/-! Values: source expressions and the data they compute are of one type. -/
namespace Lisplet

structure FrameId where
  index : Nat
deriving DecidableEq, Repr, Hashable

structure ClosureId where
  index : Nat
deriving DecidableEq, Repr, Hashable

structure VectorId where
  index : Nat
deriving DecidableEq, Repr, Hashable

inductive Relation where
  | equal
  | less
  | lessOrEqual
  | greater
  | greaterOrEqual
deriving DecidableEq, Repr

/-- The functions every program starts with. -/
inductive Primitive where
  | add
  | subtract
  | multiply
  | divide
  | remainder
  | compare (relation : Relation)
  | identity
  | head
  | tail
  | cons
  | list
  | isNull
  | toInteger
  | toText
  | characters
  | readLine
  | readIntegers
  | print
  | exit
  | makeVector
  | copyVector
  | vectorSlot
deriving DecidableEq, Repr

inductive SpecialForm where
  | lambda
  | define
  | letIn
  | letRec
  | ifElse
  | cond
deriving DecidableEq, Repr

/-- What calling a function value runs: a primitive, the request for the next round of the
running loop, or a function the host has registered. -/
inductive Procedure where
  | primitive (p : Primitive)
  | recur
  | host (slot : Nat)
deriving DecidableEq, Repr

/-- A value. Lists are chains of pairs; closures and vectors are shared and live in the store.
A tail call carries the list of arguments for the next round of a loop. -/
inductive Value where
  | integer (n : Int64)
  | float (x : Float)
  | string (s : String)
  | boolean (b : Bool)
  | symbol (name : String)
  | function (name : String) (arity : Arity) (body : Procedure)
  | special (form : SpecialForm)
  | closure (id : ClosureId)
  | nil
  | pair (head tail : Value)
  | vector (id : VectorId)
  | tailCall (args : Value)
with
  /-- Whether a value refers to closures or vectors. -/
  @[computed_field] refers : Value → Bool
    | .closure _ => true
    | .vector _ => true
    | .pair head tail => head.refers || tail.refers
    | .tailCall args => args.refers
    | _ => false
  /-- A number that tells most values apart. -/
  @[computed_field] digest : Value → UInt64
    | .integer n => hash n
    | .float x => hash x.toBits
    | .string s => hash s
    | .boolean b => hash b
    | .symbol name => hash name
    | .function name .. => hash name
    | .special _ => 1
    | .closure id => hash id
    | .nil => 2
    | .pair head tail => mixHash head.digest tail.digest
    | .vector id => mixHash 3 (hash id)
    | .tailCall args => mixHash 4 args.digest
deriving Inhabited

def SpecialForm.name : SpecialForm → String
  | lambda => "lambda"
  | define => "define"
  | letIn => "let"
  | letRec => "letrec"
  | ifElse => "if"
  | cond => "cond"

def Relation.name : Relation → String
  | equal => "="
  | less => "<"
  | lessOrEqual => "<="
  | greater => ">"
  | greaterOrEqual => ">="

def Primitive.name : Primitive → String
  | add => "+"
  | subtract => "-"
  | multiply => "*"
  | divide => "/"
  | remainder => "%"
  | compare relation => relation.name
  | identity => "identity"
  | head => "car"
  | tail => "cdr"
  | cons => "cons"
  | list => "list"
  | isNull => "null?"
  | toInteger => "int"
  | toText => "str"
  | characters => "string->list"
  | readLine => "read-line"
  | readIntegers => "read-ints"
  | print => "print"
  | exit => "exit"
  | makeVector => "make-vector"
  | copyVector => "vec"
  | vectorSlot => "~"

namespace Value

def typeName : Value → String
  | integer _ => "integer"
  | float _ => "float"
  | string _ => "string"
  | boolean _ => "boolean"
  | symbol _ => "symbol"
  | function .. => "builtin-function"
  | special _ => "special-form"
  | closure _ => "closure"
  | nil => "null"
  | pair .. => "pair"
  | vector _ => "vector"
  | tailCall _ => "tail-call"

def isTruthy : Value → Bool
  | nil => false
  | boolean b => b
  | _ => true

def isNil : Value → Bool
  | nil => true
  | _ => false

def symbol? : Value → Option String
  | symbol name => some name
  | _ => none

/-- The chain of pairs that holds `items` and ends in `tail`. -/
def ofListWithTail (items : List Value) (tail : Value) : Value :=
  items.foldr pair tail

def ofList (items : List Value) : Value := ofListWithTail items nil

/-- Pushes the heads of a chain of pairs onto `acc`, the last one on top. -/
private def pushHeads (acc : List Value) : Value → List Value
  | pair head tail => pushHeads (head :: acc) tail
  | _ => acc

def heads (v : Value) : List Value := (pushHeads [] v).reverse

/-- What a chain of pairs ends in: the empty list if it is a proper list. -/
def ending : Value → Value
  | pair _ tail => ending tail
  | v => v

def isList (v : Value) : Bool := v.ending.isNil

def toList? (v : Value) : Option (List Value) :=
  if v.isList then some v.heads else none

private theorem pushHeads_eq (acc : List Value) (v : Value) :
    pushHeads acc v = (pushHeads [] v).reverse.reverse ++ acc := by
  induction v generalizing acc with
  | pair head tail _ ih =>
    rw [pushHeads, pushHeads, ih (head :: acc), ih [head]]
    simp
  | _ => simp [pushHeads]

@[simp] theorem heads_pair (head tail : Value) : (pair head tail).heads = head :: tail.heads := by
  simp [heads, pushHeads, pushHeads_eq [head] tail]

@[simp] theorem heads_nil : nil.heads = [] := rfl

@[simp] theorem isList_pair (a b : Value) : (pair a b).isList = b.isList := rfl

@[simp] theorem isList_nil : nil.isList = true := rfl

@[simp] theorem ofList_nil : ofList [] = nil := rfl

@[simp] theorem ofList_cons (v : Value) (vs : List Value) :
    ofList (v :: vs) = pair v (ofList vs) := rfl

@[simp] theorem heads_ofList (vs : List Value) : (ofList vs).heads = vs := by
  induction vs with
  | nil => rfl
  | cons v vs ih => simp [ih]

@[simp] theorem isList_ofList (vs : List Value) : (ofList vs).isList = true := by
  induction vs with
  | nil => rfl
  | cons v vs ih => exact ih

end Value

end Lisplet
