import Lisplet.Value.Printer

/-! Actions: computations on the store that may stop early. -/
namespace Lisplet

/-- Why an action has no result: an error of the program, or more rounds of a loop than allowed. -/
inductive Stop where
  | failed (e : Error)
  | unfinished
deriving DecidableEq, Repr

/-- A computation on the store. The store is kept however the computation ends. -/
abbrev Action := ExceptT Stop (StateM Store)

abbrev Observer := Store → List Value → Except Error Value

def Observer.onOne (f : Store → Value → Except Error Value) : Observer := fun s args =>
  match args with
  | [v] => f s v
  | _ => .error (.arity (.exact 1) args.length none)

namespace Action

def fail {α : Type} (e : Error) : Action α := throw (.failed e)

def evalFault {α : Type} (fault : EvalFault) : Action α := fail (.eval fault none)

def typeFault {α : Type} (fault : TypeFault) : Action α := fail (.type fault none)

def arityFault {α : Type} (expected : Arity) (got : Nat) : Action α :=
  fail (.arity expected got none)

def ofExcept {α : Type} : Except Error α → Action α
  | .ok a => pure a
  | .error e => fail e

def observe (f : Observer) (args : List Value) : Action Value := do
  ofExcept (f (← get) args)

def change {α : Type} (step : Store → α × Store) : Action α := fun s =>
  let (a, s) := step s
  (.ok a, s)

def text (v : Value) : Action String := return (← get).text v

def elements (v : Value) : Action (List Value) := do
  match v.toList? with
  | some items => return items
  | none => typeFault (.malformedList (← text v.ending))

def checkList (v : Value) : Action Unit := do
  if v.isList then return () else typeFault (.malformedList (← text v.ending))

/-- Adds an expression to an error that comes without one. -/
@[inline] def within {α : Type} (expression : Value) (action : Action α) : Action α := fun s =>
  match action s with
  | (.error (.failed e), s') =>
    if e.lacksContext then (.error (.failed (e.within (s'.text expression))), s')
    else (.error (.failed e), s')
  | result => result

end Action

end Lisplet
