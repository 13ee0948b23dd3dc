import Lisplet.Primitive.Arithmetic

/-! Vectors: shared, of fixed length, with slots that can be replaced. -/
namespace Lisplet.Vector

def size? (n : Int64) : Option Nat :=
  match n.toInt with
  | .ofNat size => some size
  | .negSucc _ => none

def make (args : List Value) : Action Value := do
  match args with
  | [v] =>
    let n ← Action.ofExcept (Arithmetic.expectInteger .makeVector (← get) v)
    match size? n with
    | some size =>
      return .vector (← Action.change fun s => s.pushVector (Array.replicate size .nil))
    | none => Action.evalFault (.negativeSize n)
  | _ => Action.arityFault (.exact 1) args.length

/-- A new vector of the contents of a vector or the elements of a list. -/
def copy (args : List Value) : Action Value := do
  match args with
  | [.vector id] => return .vector (← Action.change fun s => s.pushVector (s.items id))
  | [v] =>
    let items ← Action.elements v
    return .vector (← Action.change fun s => s.pushVector items.toArray)
  | _ => Action.arityFault (.exact 1) args.length

def locate (v index : Value) : Action (VectorId × Nat) := do
  match v with
  | .vector id =>
    let n ← Action.ofExcept (Arithmetic.expectInteger .vectorSlot (← get) index)
    let length := ((← get).items id).size
    match size? n with
    | some slot => if slot < length then return (id, slot) else Action.fail (.index n length)
    | none => Action.fail (.index n length)
  | v => Action.typeFault (.vectorExpected .vectorSlot ((← get).shown v))

/-- Reads a slot, or replaces its value if one more argument is given. -/
def slot (args : List Value) : Action Value := do
  match args with
  | [v, index] =>
    let (id, slot) ← locate v index
    return ((← get).items id).getD slot .nil
  | [v, index, value] =>
    let (id, slot) ← locate v index
    modify fun s => s.setItem id slot value
    return .nil
  | _ => Action.arityFault (.range 2 3) args.length

end Lisplet.Vector
