import Lisplet.Action

/-! The operations that every program starts with, and what each accepts. -/
namespace Lisplet

def Primitive.arity : Primitive → Arity
  | add => .any
  | subtract => .atLeast 1
  | multiply => .atLeast 1
  | divide => .atLeast 2
  | remainder => .atLeast 2
  | compare _ => .atLeast 2
  | identity => .exact 1
  | head => .exact 1
  | tail => .exact 1
  | cons => .exact 2
  | list => .any
  | isNull => .exact 1
  | toInteger => .exact 1
  | toText => .any
  | characters => .exact 1
  | readLine => .exact 0
  | readIntegers => .exact 0
  | print => .any
  | exit => .range 0 1
  | makeVector => .exact 1
  | copyVector => .exact 1
  | vectorSlot => .range 2 3

def SpecialForm.arity : SpecialForm → Arity
  | lambda => .exact 2
  | define => .exact 2
  | letIn => .exact 2
  | letRec => .exact 2
  | ifElse => .range 2 3
  | cond => .any

inductive Operation where
  | function (p : Primitive)
  | special (form : SpecialForm)
deriving DecidableEq, Repr

namespace Operation

def all : List Operation :=
  [.function .add, .function .subtract, .function .multiply, .function .divide,
   .function .remainder, .function (.compare .equal), .function (.compare .less),
   .function (.compare .lessOrEqual), .function (.compare .greater),
   .function (.compare .greaterOrEqual), .function .identity, .function .head, .function .tail,
   .function .cons, .function .list, .function .isNull, .function .toInteger, .function .toText,
   .function .characters, .function .readLine, .function .readIntegers, .function .print,
   .function .exit, .function .makeVector, .function .copyVector, .function .vectorSlot,
   .special .lambda, .special .define, .special .letIn, .special .letRec, .special .ifElse,
   .special .cond]

def name : Operation → String
  | function p => p.name
  | special form => form.name

def arity : Operation → Arity
  | function p => p.arity
  | special form => form.arity

def isSpecial : Operation → Bool
  | function _ => false
  | special _ => true

def value : Operation → Value
  | function p => .function p.name p.arity (.primitive p)
  | special form => .special form

def find? (name : String) : Option Operation := all.find? fun op => op.name = name

def inspect (op : Operation) : String :=
  let kind := if op.isSpecial then "SpecialForm(<fn>)" else "Function(<fn>)"
  "BuiltinOp \x7b id: \"" ++ op.name ++ "\", op_kind: " ++ kind ++ ", arity: " ++ op.arity.inspect
    ++ " \x7d"

end Operation

/-- The bindings that a program starts with: every operation, and a test that always holds. -/
def standardBindings : Bindings :=
  (Operation.all.foldl (fun bindings op => bindings.insert op.name op.value) Bindings.empty).insert
    "else" (.boolean true)

end Lisplet
