import Lisplet.Heap
import Lisplet.Interpreter

/-! Environments: interpreters that enter and leave frames while they evaluate, and in which it is
known how every value is stored. -/
namespace Lisplet

/-- A value, and how it is stored. -/
structure Located where
  value : Value
  ref : Ref

namespace Located

def nil : Located := ⟨.nil, .nil⟩

def ofLists : List Value → List Ref → List Located
  | [], _ => []
  | v :: vs, [] => ⟨v, .nil⟩ :: ofLists vs []
  | v :: vs, r :: rs => ⟨v, r⟩ :: ofLists vs rs

def values (vs : List Located) : List Value := vs.map value

def refs (vs : List Located) : List Ref := vs.map ref

def arguments (v : Located) : List Located :=
  match v.value, v.ref with
  | .tailCall args, .tailCall refs => ofLists args.heads refs
  | .tailCall args, _ => ofLists args.heads []
  | _, _ => []

end Located

/-- How the result of a primitive is stored. It may be, or hold, what an argument is or holds. -/
def Primitive.locate (p : Primitive) (args : List Located) (result : Value) : StateM Heap Ref := do
  let h ← get
  match p, args with
  | .identity, [v] => return v.ref
  | .head, [⟨_, .pair p⟩] => return h.head p
  | .tail, [⟨_, .pair p⟩] => return h.tail p
  | .cons, [v, rest] => Heap.cons v.ref rest.ref
  | .list, args => Heap.list (Located.refs args)
  | .makeVector, [⟨.integer n, _⟩] => do
    Heap.pushVector (List.replicate n.toNatClampNeg .nil)
    Heap.store result
  | .copyVector, [⟨_, .vector v⟩] => do
    Heap.pushVector (h.items v)
    Heap.store result
  | .copyVector, [⟨v, r⟩] => do
    Heap.pushVector (h.heads v.heads.length r)
    Heap.store result
  | .vectorSlot, [⟨_, .vector v⟩, ⟨.integer n, _⟩] => return (h.items v).getD n.toNatClampNeg .nil
  | .vectorSlot, [⟨_, .vector v⟩, ⟨.integer n, _⟩, item] => do
    Heap.setItem v n.toNatClampNeg item.ref
    return .nil
  | _, _ => Heap.store result

/-- A function of the host that can tell one and the same pair from two. -/
abbrev Heap.Observer := Heap → List Ref → Except Error Value

/-- An interpreter whose scope is the frame that names are looked up from at the moment, with what
is known of how values are stored. -/
structure Environment extends Interpreter where
  heap : Heap
  /-- How the values that frames bind are stored, frame by frame. -/
  frameRefs : Array (Bindings Ref)
  globalRefs : Bindings Ref
  /-- The host's functions that look at the heap, by their slots. -/
  observers : Array (Option Heap.Observer)

/-- A computation in an environment. The environment is kept however the computation ends. -/
abbrev Evaluation := ExceptT Stop (StateM Environment)

namespace Environment

def refOf? (σ : Environment) (name : String) : Option Ref :=
  match σ.frameOf? name with
  | some frame => (σ.frameRefs.getD frame.index .empty).find? name
  | none => σ.globalRefs.find? name

def bindIn (σ : Environment) (frame : FrameId) (name : String) (v : Located) : Environment :=
  { σ with
    store := σ.store.bind frame name v.value
    frameRefs := σ.frameRefs.modify frame.index fun refs => refs.insert name v.ref }

/-- Makes a new frame inside the present one the present one. -/
def extend (σ : Environment) (names : List String) (values : List Located) : Environment :=
  { σ with
    toInterpreter := σ.toInterpreter.extend names (Located.values values)
    frameRefs := σ.frameRefs.push (.ofLists names (Located.refs values)) }

/-- Makes the frame around the present one the present one, unless there is none. -/
def pop (σ : Environment) : Environment := { σ with toInterpreter := σ.toInterpreter.pop }

/-- Makes a frame the present one. -/
def enter (σ : Environment) (scope : FrameId) : Environment := { σ with scope }

end Environment

namespace Evaluation

open Environment

variable {α : Type}

def act (a : Action α) : Evaluation α := fun σ =>
  let (result, store) := a σ.store
  (result, { σ with store })

def allocate (a : StateM Heap α) : Evaluation α := fun σ =>
  let (v, heap) := a σ.heap
  (.ok v, { σ with heap })

def locate (v : Value) : Evaluation Located := return ⟨v, ← allocate (Heap.store v)⟩

def always (x : Evaluation α) (f : Environment → Environment) : Evaluation α := fun σ =>
  let (result, σ) := x σ
  (result, f σ)

def within (e : Value) (x : Evaluation α) : Evaluation α := fun σ =>
  let (result, σ) := x σ
  act (Action.within e fun s => (result, s)) σ

def atom (e : Value) : Evaluation Located := do
  let σ ← get
  let value ← act (σ.machine.evalAtom σ.scope e)
  match e with
  | .symbol name =>
    match σ.refOf? name with
    | some ref => return ⟨value, ref⟩
    | none => locate value
  | _ => locate value

def run (body : Procedure) (args : List Located) : Evaluation Located := do
  let σ ← get
  match body with
  | .primitive p =>
    let value ← act (p.run (Located.values args))
    return ⟨value, ← allocate (p.locate args value)⟩
  | .recur =>
    return ⟨.tailCall (.ofList (Located.values args)), .tailCall (Located.refs args)⟩
  | .host slot =>
    match σ.observers[slot]? with
    | some (some f) => locate (← act (Action.ofExcept (f σ.heap (Located.refs args))))
    | _ => locate (← act (σ.machine.run body (Located.values args)))

def define (frame : FrameId) (name : String) (v : Located) : Evaluation Unit :=
  modify fun σ =>
    { σ with store := σ.store.nameValue name v.value }.bindIn frame name v

def mark (frame : FrameId) (name : String) : Evaluation Unit :=
  modify fun σ => σ.bindIn frame name
    ⟨.function "recur" .any .recur, .function "recur" .any .recur⟩

/-- Binds parameters in the innermost frames that bind them already, or else in `frame`. -/
def rebind (frame : FrameId) (params : List String) (args : List Located) : Evaluation Unit :=
  (params.zip args).forM fun (param, arg) =>
    modify fun σ => σ.bindIn ((σ.frameOf? param).getD frame) param arg

/-- Runs a computation in a new frame inside the present one, which is left however it ends. -/
def inFrame (names : List String) (values : List Located) (body : FrameId → Evaluation α) :
    Evaluation α := do
  modify fun σ => σ.extend names values
  let frame := (← get).scope
  always (body frame) pop

/-- Runs a computation in a frame, and goes back to the present one however it ends. -/
def inScope (scope : FrameId) (body : Evaluation α) : Evaluation α := do
  let caller ← modifyGet fun σ => (σ.scope, σ.enter scope)
  always body fun σ => σ.enter caller

abbrev Call := ClosureId → List Located → Evaluation Located

def setting (call : Option Call) : Setting Located Evaluation where
  call? := call
  lift := act
  within := within
  value := Located.value
  arguments := Located.arguments
  nil := .nil
  cons head tail := do
    return ⟨.pair head.value tail.value, ← allocate (Heap.cons head.ref tail.ref)⟩
  atom := atom
  run := run
  scope := return (← get).scope
  makeClosure scope params body := do locate (← act (Action.makeClosure scope params body))
  define := define
  inFrame := inFrame
  inScope := inScope
  loopName? id closure := do
    let σ ← get
    return σ.machine.loopName? σ.store id { closure with scope := σ.scope }
  mark := mark
  rebind := rebind

/-- Evaluates the body of a loop in `frame` until it asks for no further round. -/
def runLoop (call : Option Call) (closure : Closure) (frame : FrameId) : Nat → Evaluation Located
  | 0 => throw .unfinished
  | rounds + 1 => (setting call).round closure frame (runLoop call closure frame rounds)

def callAt : Nat → Option Call
  | 0 => none
  | depth + 1 =>
    let call := callAt depth
    let loop (closure : Closure) (frame : FrameId) : Evaluation Located := do
      runLoop call closure frame (← get).machine.rounds
    some ((setting call).apply loop)

end Evaluation

def Task.evaluation (depth : Nat) (task : Task) : Evaluation Located :=
  (Evaluation.setting (Evaluation.callAt depth)).evalTask task

namespace Environment

def ofInterpreter (i : Interpreter) : Environment :=
  ⟨i, .empty, i.store.frames.map fun _ => .empty, .empty, #[]⟩

def bare (input : List UInt8) : Environment := ofInterpreter (.bare input)

def standard (input : List UInt8) : Environment := ofInterpreter (.standard input)

def complete (σ : Environment) (task : Task) : Except Stop Value × Environment :=
  let (result, σ) := task.evaluation maxCallDepth σ
  (result.map Located.value, σ)

def evalSource (σ : Environment) (source : String) : Except Stop Value × Environment :=
  match Reader.readProgram false source with
  | .ok program => σ.complete (.program program)
  | .error e => (.error (.failed (.read e)), σ)

/-- Stores a value from outside, and the contents of the vectors that came with it. -/
def receive (σ : Environment) (v : Value) : Located × Environment :=
  let vectors := σ.store.vectors.toList.drop σ.heap.vectors.size
  let (ref, heap) := (do
    vectors.forM fun items => do Heap.pushVector (← items.toList.mapM Heap.store)
    Heap.store v : StateM Heap Ref) σ.heap
  (⟨v, ref⟩, { σ with heap })

def define (σ : Environment) (name : String) (v : Located) : Environment :=
  σ.bindIn σ.scope name v

def defineGlobal (σ : Environment) (name : String) (v : Located) : Environment :=
  { σ with
    toInterpreter := σ.toInterpreter.defineGlobal name v.value
    globalRefs := σ.globalRefs.insert name v.ref }

/-- Binds a name below all frames to a function of the host, which takes any arguments. -/
def register (σ : Environment) (name : String) (f : Observer) : Environment :=
  let body := Procedure.host σ.machine.hosts.size
  { σ with
    toInterpreter := σ.toInterpreter.register name f
    globalRefs := σ.globalRefs.insert name (.function name .any body)
    observers := σ.observers.push none }

def registerObserver (σ : Environment) (name : String) (f : Heap.Observer) : Environment :=
  let σ' := σ.register name fun _ _ => .ok .nil
  { σ' with observers := σ.observers.push (some f) }

end Environment

end Lisplet
