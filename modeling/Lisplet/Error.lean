import Lisplet.Integer
import Lisplet.Limit
import Lisplet.Reader.Error
import Lisplet.Value

/-! Errors as causes, and the one wording of each. -/
namespace Lisplet

/-- A value as it looked when an error was raised. -/
structure Shown where
  text : String
  type : String
deriving DecidableEq, Repr

def Shown.described (v : Shown) : String := v.text ++ " (" ++ v.type ++ ")"

/-- The two kinds of numbers, which arithmetic does not mix. -/
inductive NumberKind where
  | integer
  | float
deriving DecidableEq, Repr

def NumberKind.name : NumberKind → String
  | integer => "integer"
  | float => "float"

/-- A step of integer arithmetic. -/
inductive IntegerStep where
  | addition
  | negation
  | subtraction
  | multiplication
  | division
  | remainder
deriving DecidableEq, Repr

def IntegerStep.name : IntegerStep → String
  | addition => "addition"
  | negation => "negation"
  | subtraction => "subtraction"
  | multiplication => "multiplication"
  | division => "division"
  | remainder => "remainder"

/-- Why an evaluation failed although every operand had an acceptable kind. -/
inductive EvalFault where
  | overflow (step : IntegerStep)
  | divisionByZero
  | depthExceeded
  | duplicateParameter (name : String)
  | malformedBindings (form : SpecialForm) (bindings : String)
  | duplicateBinding (form : SpecialForm) (name : String)
  | malformedClause (clause : String)
  | unreadableInteger (text : String)
  | unreadableWord (word : String)
  | undecodableLine
  | statusOutOfRange (status : Int64)
  | negativeSize (size : Int64)
  | raised (message : String)
deriving DecidableEq, Repr

/-- Why an operand or an expression had the wrong kind or shape. -/
inductive TypeFault where
  | headOfNonPair (v : Shown)
  | tailOfNonPair (v : Shown)
  | malformedList (ending : String)
  | notInteger (type : String)
  | mixedOperands (op : Primitive) (kind : NumberKind) (v : Shown)
  | nonNumeric (op : Primitive) (v : Shown)
  | integerExpected (op : Primitive) (v : Shown)
  | stringExpected (op : Primitive) (v : Shown)
  | stringOrIntegerExpected (op : Primitive) (v : Shown)
  | vectorExpected (op : Primitive) (v : Shown)
  | incomparable (op : Primitive) (a b : Shown)
  | functionName (target : String)
  | definitionTarget (target : String)
  | parameterList (params : String)
  | parameterName (param : String)
  | raised (message : String)
deriving DecidableEq, Repr

/-- An error. The first two kinds may tell in which expression they were raised. -/
inductive Error where
  | read (e : ReadError)
  | eval (fault : EvalFault) (context : Option String)
  | type (fault : TypeFault) (context : Option String)
  | unbound (name : String)
  | arity (expected : Arity) (got : Nat) (expression : Option String)
  | index (index : Int64) (length : Nat)
  | exit (status : Int32)
deriving DecidableEq, Repr

def EvalFault.message : EvalFault → String
  | overflow step => "Integer overflow in " ++ step.name
  | divisionByZero => "Division by zero"
  | depthExceeded => "Evaluation depth limit exceeded (max: " ++ maxCallDepth.repr ++ ")"
  | duplicateParameter name => "Duplicate parameter name: " ++ name
  | malformedBindings form bindings =>
    form.name ++ ": bindings must be a list of (symbol expression) pairs, got " ++ bindings
  | duplicateBinding form name => form.name ++ ": duplicate binding name: " ++ name
  | malformedClause clause => "cond clause must be (test expression), got " ++ clause
  | unreadableInteger text => "'int' cannot parse \"" ++ text ++ "\" as an integer"
  | unreadableWord word => "'read-ints' found non-integer \"" ++ word ++ "\""
  | undecodableLine => "read-line failed: stream did not contain valid UTF-8"
  | statusOutOfRange status => "'exit' status out of range: " ++ Integer.text status
  | negativeSize size => "'make-vector' size must be non-negative, got " ++ Integer.text size
  | raised message => message

def TypeFault.message : TypeFault → String
  | headOfNonPair v => "head of non-pair: " ++ v.described
  | tailOfNonPair v => "tail of non-pair: " ++ v.described
  | malformedList ending => "malformed list: ends in " ++ ending ++ " instead of ()"
  | notInteger type => "expected integer, got " ++ type
  | mixedOperands op kind v =>
    "'" ++ op.name ++ "' cannot mix " ++ kind.name ++ " operands with " ++ v.described
  | nonNumeric op v => "'" ++ op.name ++ "' expects numeric operands, got " ++ v.described
  | integerExpected op v => "'" ++ op.name ++ "' expects an integer, got " ++ v.described
  | stringExpected op v => "'" ++ op.name ++ "' expects a string, got " ++ v.described
  | stringOrIntegerExpected op v =>
    "'" ++ op.name ++ "' expects a string or integer, got " ++ v.described
  | vectorExpected op v => "'" ++ op.name ++ "' expects a vector, got " ++ v.described
  | incomparable op a b =>
    "'" ++ op.name ++ "' cannot compare " ++ a.described ++ " with " ++ b.described
  | functionName target => "define requires a symbol as the function name, got " ++ target
  | definitionTarget target => "define requires a symbol or (name params...), got " ++ target
  | parameterList params => "Lambda parameters must be a list, got " ++ params
  | parameterName param => "Lambda parameters must be symbols, got " ++ param
  | raised message => message

namespace Error

/-- What divides a message from the expression that raised it. -/
def contextMark : String := "\n  Context: "

def occursIn (part : List Char) : List Char → Bool
  | [] => part.isEmpty
  | c :: rest => part.isPrefixOf (c :: rest) || occursIn part rest

/-- Whether a message shows a context, in whatever way it came there. -/
def showsContext (message : String) : Bool := occursIn contextMark.toList message.toList

/-- Whether an error has room for the expression that raised it. -/
def lacksContext : Error → Bool
  | eval fault none => !showsContext fault.message
  | type fault none => !showsContext fault.message
  | _ => false

/-- Adds the expression that raised an error, unless a context is shown already. -/
def within (expression : String) (e : Error) : Error :=
  if e.lacksContext then
    match e with
    | eval fault _ => eval fault (some expression)
    | type fault _ => type fault (some expression)
    | e => e
  else e

private def inContext (message : String) : Option String → String
  | none => message
  | some expression => message ++ contextMark ++ "while evaluating: " ++ expression

def text : Error → String
  | read e => e.text
  | eval fault context => "EvaluationError: " ++ inContext fault.message context
  | type fault context => "Type error: " ++ inContext fault.message context
  | unbound name => "Unbound variable: " ++ name
  | arity expected got (some expression) =>
    "ArityError: expression " ++ expression ++ ": expected " ++ expected.text ++ " arguments, got "
      ++ got.repr
  | arity expected got none =>
    "ArityError: function expected " ++ expected.text ++ " arguments but got " ++ got.repr
  | index i length =>
    "Index out of bounds: " ++ Integer.text i ++ " (length " ++ length.repr ++ ")"
  | exit status => "Exit requested with status " ++ Integer.text status.toInt64

end Error

def Arity.check (arity : Arity) (got : Nat) : Except Error Unit :=
  if arity.accepts got then .ok () else .error (.arity arity got none)

end Lisplet
