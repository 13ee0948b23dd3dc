import Lisplet.Evaluator
import Lisplet.Operation
import Lisplet.Reader.Program

/-! Interpreters: a machine, a store and the frame in which programs run. -/
namespace Lisplet

def Task.action (m : Machine) (depth : Nat) (scope : FrameId) : Task → Action Value
  | .expression e => m.evalAt depth scope e
  | .elements e => m.evalElements (m.callAt depth) scope e
  | .special form operands => m.evalForm (m.callAt depth) scope form operands
  | .program es => es.foldlM (fun _ e => m.evalAt depth scope e) .nil

/-- An interpreter between two evaluations. -/
structure Interpreter where
  machine : Machine
  store : Store
  scope : FrameId

namespace Interpreter

def maxRounds : Nat := 4611686018427387904

def ofGlobals (globals : Bindings) (input : List UInt8) : Interpreter :=
  let (scope, store) := { Store.empty with input }.pushFrame none .empty
  ⟨⟨globals, #[], true, maxRounds⟩, store, scope⟩

def bare (input : List UInt8) : Interpreter := ofGlobals .empty input

def standard (input : List UInt8) : Interpreter := ofGlobals standardBindings input

def perform {α : Type} (i : Interpreter) (action : Action α) : Except Stop α × Interpreter :=
  let (result, store) := action i.store
  (result, { i with store })

def evaluation (i : Interpreter) (e : Value) : Action Value :=
  i.machine.evalAt maxCallDepth i.scope e

def eval (i : Interpreter) (e : Value) : Except Stop Value × Interpreter :=
  i.perform (i.evaluation e)

def evalList (i : Interpreter) (e : Value) : Except Stop Value × Interpreter :=
  i.perform (i.machine.evalElements (i.machine.callAt maxCallDepth) i.scope e)

def evalForm (i : Interpreter) (form : SpecialForm) (operands : List Value) :
    Except Stop Value × Interpreter :=
  i.perform (i.machine.evalForm (i.machine.callAt maxCallDepth) i.scope form (.ofList operands))

/-- Evaluates expressions in order, for the value of the last. -/
def evalProgram (i : Interpreter) (program : List Value) : Except Stop Value × Interpreter :=
  i.perform (program.foldlM (fun _ e => i.evaluation e) .nil)

/-- Reads a program without comments and evaluates it. -/
def evalSource (i : Interpreter) (source : String) : Except Stop Value × Interpreter :=
  match Reader.readProgram false source with
  | .ok program => i.evalProgram program
  | .error e => (.error (.failed (.read e)), i)

def chain (i : Interpreter) : List FrameId := i.store.chain i.scope

def depth (i : Interpreter) : Nat := i.chain.length

def lookup (i : Interpreter) (name : String) : Except Error Value :=
  match i.machine.find? i.store i.scope name with
  | some value => .ok value
  | none => .error (.unbound name)

/-- The innermost frame that binds a name. -/
def frameOf? (i : Interpreter) (name : String) : Option FrameId := i.store.frameOf? name i.chain

def bind (i : Interpreter) (frame : FrameId) (name : String) (value : Value) : Interpreter :=
  { i with store := i.store.bind frame name value }

def define (i : Interpreter) (name : String) (value : Value) : Interpreter :=
  i.bind i.scope name value

def defineGlobal (i : Interpreter) (name : String) (value : Value) : Interpreter :=
  { i with machine := { i.machine with globals := i.machine.globals.insert name value } }

/-- Binds a name below all frames to a function of the host, which takes any arguments. -/
def register (i : Interpreter) (name : String) (f : Observer) : Interpreter :=
  let slot := i.machine.hosts.size
  let i := { i with machine := { i.machine with hosts := i.machine.hosts.push f } }
  i.defineGlobal name (.function name .any (.host slot))

/-- Enters a new frame that binds names to values by position. -/
def extend (i : Interpreter) (names : List String) (values : List Value) : Interpreter :=
  let (scope, store) := i.store.pushFrame (some i.scope) (.ofLists names values)
  { i with store, scope }

/-- Leaves the innermost frame, unless it is the outermost. -/
def pop (i : Interpreter) : Interpreter :=
  match i.chain with
  | _ :: outer :: _ => { i with scope := outer }
  | _ => i

/-- Every visible binding, sorted by name. Inner bindings hide outer ones. -/
def bindings (i : Interpreter) : Bindings :=
  i.chain.foldr (fun frame bindings => bindings.overlay (i.store.bindings frame))
    (Bindings.empty.overlay i.machine.globals)

end Interpreter

end Lisplet
