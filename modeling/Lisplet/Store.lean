import Lisplet.Bindings

/-! The store: frames, closures, vectors, the text not yet read and the text printed. -/
namespace Lisplet

/-- A frame: its own bindings, and the frames around it, the innermost first. -/
structure Frame where
  bindings : Bindings
  outer : List FrameId

/-- The first name given to a closure, and whether its calls of that name run as a loop. -/
structure Naming where
  name : String
  loops : Bool
deriving DecidableEq, Repr

/-- A function written in the language, with the frame it was created in. -/
structure Closure where
  params : List String
  body : Value
  scope : FrameId
  naming : Option Naming

/-- Everything that evaluation can change. -/
structure Store where
  frames : Array Frame
  closures : Array Closure
  vectors : Array (Array Value)
  input : List UInt8
  output : String

namespace Store

def empty : Store := ⟨#[], #[], #[], [], ""⟩

def bindings (s : Store) (f : FrameId) : Bindings :=
  match s.frames[f.index]? with
  | some frame => frame.bindings
  | none => .empty

def chain (s : Store) (f : FrameId) : List FrameId :=
  match s.frames[f.index]? with
  | some frame => f :: frame.outer
  | none => [f]

/-- The innermost of some frames that binds a name. -/
def frameOf? (s : Store) (name : String) : List FrameId → Option FrameId
  | [] => none
  | f :: rest => if ((s.bindings f).find? name).isSome then some f else s.frameOf? name rest

def find? (s : Store) (name : String) : List FrameId → Option Value
  | [] => none
  | f :: rest =>
    match (s.bindings f).find? name with
    | some value => some value
    | none => s.find? name rest

/-- Adds a frame inside `f`, or an outermost frame if there is none to be inside of. -/
def pushFrame (s : Store) (f : Option FrameId) (bindings : Bindings) : FrameId × Store :=
  let outer := match f with
    | some f => s.chain f
    | none => []
  (⟨s.frames.size⟩, { s with frames := s.frames.push ⟨bindings, outer⟩ })

def bind (s : Store) (f : FrameId) (name : String) (value : Value) : Store :=
  { s with
    frames := s.frames.modify f.index fun frame =>
      { frame with bindings := frame.bindings.insert name value } }

def pushClosure (s : Store) (closure : Closure) : ClosureId × Store :=
  (⟨s.closures.size⟩, { s with closures := s.closures.push closure })

def closureName? (s : Store) (id : ClosureId) : Option String :=
  s.closures[id.index]?.bind fun closure => closure.naming.map Naming.name

def nameClosure (s : Store) (id : ClosureId) (naming : Closure → Naming) : Store :=
  { s with
    closures := s.closures.modify id.index fun closure =>
      match closure.naming with
      | some _ => closure
      | none => { closure with naming := some (naming closure) } }

def items (s : Store) (id : VectorId) : Array Value :=
  match s.vectors[id.index]? with
  | some items => items
  | none => #[]

def pushVector (s : Store) (items : Array Value) : VectorId × Store :=
  (⟨s.vectors.size⟩, { s with vectors := s.vectors.push items })

def setItem (s : Store) (id : VectorId) (slot : Nat) (value : Value) : Store :=
  { s with vectors := s.vectors.modify id.index fun items => items.setIfInBounds slot value }

@[simp] theorem size_frames_bind (s : Store) (f : FrameId) (name : String) (value : Value) :
    (s.bind f name value).frames.size = s.frames.size := by
  simp [bind]

/-- The name bound last in a frame has its new value there. -/
theorem find?_bindings_bind_self (s : Store) (f : FrameId) (name : String) (value : Value)
    (h : f.index < s.frames.size) : ((s.bind f name value).bindings f).find? name = some value := by
  simp [bindings, bind, Array.getElem_modify, h]

/-- Binding a name in a frame leaves other frames alone. -/
theorem bindings_bind_of_ne (s : Store) {f g : FrameId} (name : String) (value : Value)
    (h : f ≠ g) :
    (s.bind f name value).bindings g = s.bindings g := by
  have hi : f.index ≠ g.index := fun e => h (by cases f; cases g; simp_all)
  simp [bindings, bind, Array.getElem?_modify, hi]

/-- The chain of a new frame goes on with the frame around it. -/
theorem chain_pushFrame (s : Store) (f : FrameId) (b : Bindings) :
    (s.pushFrame (some f) b).2.chain (s.pushFrame (some f) b).1 =
      (s.pushFrame (some f) b).1 :: s.chain f := by
  simp [pushFrame, chain]

@[simp] theorem size_items_setItem (s : Store) (v w : VectorId) (slot : Nat) (value : Value) :
    ((s.setItem v slot value).items w).size = (s.items w).size := by
  by_cases h : v.index = w.index
  · simp only [items, setItem, Array.getElem?_modify, h]
    cases s.vectors[w.index]? <;> simp
  · simp [items, setItem, Array.getElem?_modify, h]

end Store

end Lisplet
