import Lisplet.Interpreter
import Lisplet.Value.Identity
import Std.Data.HashSet

/-! Which parts of the store can still be reached. -/
namespace Lisplet

/-- A part of the store. -/
inductive Node where
  | frame (id : FrameId)
  | closure (id : ClosureId)
  | vector (id : VectorId)
deriving DecidableEq, Hashable

/-- A search through the store: the parts that were found, those among them that have not been
looked into yet, and the pairs that have been. -/
structure Search where
  found : Std.HashSet Node
  waiting : List Node
  pairs : Std.HashSet Value

namespace Search

def empty : Search := ⟨{}, [], {}⟩

def addNode (x : Search) (node : Node) : Search :=
  if x.found.contains node then x
  else { x with found := x.found.insert node, waiting := node :: x.waiting }

/-- Finds the parts that a value refers to. A pair that many values share is looked into once. -/
def addValue (x : Search) (v : Value) : Search :=
  match v with
  | .closure id => x.addNode (.closure id)
  | .vector id => x.addNode (.vector id)
  | .pair head tail =>
    if !v.refers || x.pairs.contains v then x
    else (addValue { x with pairs := x.pairs.insert v } head).addValue tail
  | .tailCall args => x.addValue args
  | _ => x

def addBindings (x : Search) (bindings : Bindings) : Search :=
  bindings.foldl (fun x (_, v) => x.addValue v) x

/-- Finds the parts that a part refers to. Of the frames around a frame, the others are found from
the innermost. -/
def lookInto (x : Search) (s : Store) : Node → Search
  | .frame id =>
    match s.frames[id.index]? with
    | some frame =>
      ((frame.outer.head?.toList.map Node.frame).foldl addNode x).addBindings frame.bindings
    | none => x
  | .closure id =>
    match s.closures[id.index]? with
    | some closure => (x.addNode (.frame closure.scope)).addValue closure.body
    | none => x
  | .vector id => (s.items id).foldl addValue x

/-- Looks into at most `fuel` parts that wait for it. -/
def run (s : Store) : Nat → Search → Search
  | 0, x => x
  | fuel + 1, x =>
    match x.waiting with
    | [] => x
    | node :: waiting => run s fuel (lookInto { x with waiting } s node)

end Search

namespace Store

/-- Looks into everything that can be reached from what a search has found. Each part is looked
into once. -/
def reach (s : Store) (x : Search) : Search :=
  Search.run s (s.frames.size + s.closures.size + s.vectors.size) x

end Store

namespace Interpreter

/-- The parts that can be reached from the present scope, from the frames that are held and from
the globals. Values that are the same are stored in one place before, so that telling them apart
is quick. -/
def reach (i : Interpreter) (held : List FrameId) : Std.HashSet Node :=
  let (store, globals) := ShareCommon.shareCommon' (i.store, i.machine.globals)
  (store.reach (((i.scope :: held).map Node.frame).foldl Search.addNode
    (Search.empty.addBindings globals))).found

def liveFrames (i : Interpreter) (held : List FrameId) : Nat :=
  (i.reach held).fold (fun count node => match node with
    | .frame _ => count + 1
    | _ => count) 0

def inspect (i : Interpreter) (held : List FrameId) : String :=
  "Environment \x7b depth: " ++ i.depth.repr ++ ", live_frames: " ++ (i.liveFrames held).repr
    ++ ", globals: " ++ i.machine.globals.size.repr ++ " \x7d"

end Interpreter

end Lisplet
