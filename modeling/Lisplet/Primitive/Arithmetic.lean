import Lisplet.Action

/-! Arithmetic. The first operand decides whether a call works on integers or on floats. -/
namespace Lisplet

def Value.toInteger : Value → Except Error Int64
  | integer n => .ok n
  | v => .error (.type (.notInteger v.typeName) none)

namespace Arithmetic

/-- The operands of a call, all of one kind. -/
inductive Operands where
  | integers (ns : List Int64)
  | floats (xs : List Float)

def integerAmong (op : Primitive) (s : Store) : Value → Except Error Int64
  | .integer n => .ok n
  | v => .error (.type (.mixedOperands op .integer (s.shown v)) none)

def floatAmong (op : Primitive) (s : Store) : Value → Except Error Float
  | .float x => .ok x
  | v => .error (.type (.mixedOperands op .float (s.shown v)) none)

/-- The operands of a call, if they are numbers of the kind of the first. -/
def operands (op : Primitive) (s : Store) (args : List Value) : Except Error Operands :=
  match args with
  | [] => .ok (.integers [])
  | .integer _ :: _ => Operands.integers <$> args.mapM (integerAmong op s)
  | .float _ :: _ => Operands.floats <$> args.mapM (floatAmong op s)
  | v :: _ => .error (.type (.nonNumeric op (s.shown v)) none)

def checked (step : IntegerStep) : Option Int64 → Except Error Int64
  | some n => .ok n
  | none => .error (.eval (.overflow step) none)

def dividing (step : IntegerStep) (f : Int64 → Int64 → Option Int64) (acc n : Int64) :
    Except Error Int64 :=
  if n = 0 then .error (.eval .divisionByZero none) else checked step (f acc n)

def add : Observer := fun s args => do
  match ← operands .add s args with
  | .integers ns =>
    let sum ← ns.foldlM (fun acc n => checked .addition (Integer.add? acc n)) (0 : Int64)
    .ok (.integer sum)
  | .floats xs => .ok (.float (xs.foldl (· + ·) (-0.0)))

def subtract : Observer := fun s args => do
  match ← operands .subtract s args with
  | .integers [] | .floats [] => .error (.arity (.atLeast 1) 0 none)
  | .integers [n] => Value.integer <$> checked .negation (Integer.neg? n)
  | .integers (n :: ns) =>
    let difference ← ns.foldlM (fun acc n => checked .subtraction (Integer.sub? acc n)) n
    .ok (.integer difference)
  | .floats [x] => .ok (.float (-x))
  | .floats (x :: xs) => .ok (.float (xs.foldl (· - ·) x))

def multiply : Observer := fun s args => do
  match ← operands .multiply s args with
  | .integers [] | .floats [] => .error (.arity (.atLeast 1) 0 none)
  | .integers (n :: ns) =>
    let product ← ns.foldlM (fun acc n => checked .multiplication (Integer.mul? acc n)) n
    .ok (.integer product)
  | .floats (x :: xs) => .ok (.float (xs.foldl (· * ·) x))

def divide : Observer := fun s args => do
  match ← operands .divide s args with
  | .integers [] | .floats [] => .error (.arity (.atLeast 2) 0 none)
  | .integers (n :: ns) => Value.integer <$> ns.foldlM (dividing .division Integer.div?) n
  | .floats (x :: xs) => .ok (.float (xs.foldl (· / ·) x))

def expectInteger (op : Primitive) (s : Store) : Value → Except Error Int64
  | .integer n => .ok n
  | v => .error (.type (.integerExpected op (s.shown v)) none)

def remainder : Observer := fun s args => do
  match ← args.mapM (expectInteger .remainder s) with
  | [] => .error (.arity (.atLeast 2) 0 none)
  | n :: ns => Value.integer <$> ns.foldlM (dividing .remainder Integer.rem?) n

end Arithmetic

end Lisplet
