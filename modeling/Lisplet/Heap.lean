import Lisplet.Value

/-! The heap: pairs and vectors as they are stored, each under a name of its own, so that one and
the same pair can be told from two with the same parts. -/
namespace Lisplet

/-- Names a pair of the heap. -/
structure PairId where
  index : Nat
deriving DecidableEq, Repr

/-- A value as it is stored: the parts of pairs and vectors are in the heap. -/
inductive Ref where
  | integer (n : Int64)
  | float (x : Float)
  | string (s : String)
  | boolean (b : Bool)
  | symbol (name : String)
  | function (name : String) (arity : Arity) (body : Procedure)
  | special (form : SpecialForm)
  | closure (id : ClosureId)
  | nil
  | pair (id : PairId)
  | vector (id : VectorId)
  | tailCall (args : List Ref)
deriving Inhabited

structure Heap where
  pairs : Array (Ref × Ref)
  vectors : Array (Array Ref)

namespace Heap

def empty : Heap := ⟨#[], #[]⟩

def head (h : Heap) (p : PairId) : Ref := (h.pairs.getD p.index (.nil, .nil)).1

def tail (h : Heap) (p : PairId) : Ref := (h.pairs.getD p.index (.nil, .nil)).2

def items (h : Heap) (v : VectorId) : List Ref := (h.vectors.getD v.index #[]).toList

def cons (head tail : Ref) : StateM Heap Ref := fun h =>
  (.pair ⟨h.pairs.size⟩, { h with pairs := h.pairs.push (head, tail) })

def list (items : List Ref) : StateM Heap Ref :=
  items.reverse.foldlM (fun tail head => cons head tail) .nil

/-- Adds the contents of the vector that is next in the store. -/
def pushVector (items : List Ref) : StateM Heap Unit :=
  modify fun h => { h with vectors := h.vectors.push items.toArray }

def setItem (v : VectorId) (slot : Nat) (r : Ref) : StateM Heap Unit :=
  modify fun h =>
    { h with vectors := h.vectors.modify v.index fun items => items.setIfInBounds slot r }

/-- Stores a value with new pairs for all that it holds. -/
def store : Value → StateM Heap Ref
  | .integer n => return .integer n
  | .float x => return .float x
  | .string s => return .string s
  | .boolean b => return .boolean b
  | .symbol name => return .symbol name
  | .function name arity body => return .function name arity body
  | .special form => return .special form
  | .closure id => return .closure id
  | .nil => return .nil
  | .pair head tail => do cons (← store head) (← store tail)
  | .vector id => return .vector id
  | .tailCall args => do return .tailCall (← storeHeads args)
where
  /-- Stores the heads along a chain of pairs. -/
  storeHeads : Value → StateM Heap (List Ref)
    | .pair head tail => do return (← store head) :: (← storeHeads tail)
    | _ => return []

/-- The heads along a chain of the pairs that come before the first `fuel`. -/
def heads (h : Heap) : Nat → Ref → List Ref
  | 0, _ => []
  | fuel + 1, .pair p => h.head p :: h.heads fuel (h.tail p)
  | _ + 1, _ => []

-- The recursive calls are piped, so that the term that is defined does not record where in the text
-- they stand.
mutual

/-- Equality, unless it goes on forever. It is structural on data, and false on everything that can
be called. -/
def equal? (h : Heap) (a b : Ref) : Option Bool :=
  match a, b with
  | .integer a, .integer b => some (a == b)
  | .float a, .float b => some (a == b)
  | .string a, .string b => some (a == b)
  | .boolean a, .boolean b => some (a == b)
  | .symbol a, .symbol b => some (a == b)
  | .nil, .nil => some true
  | .pair _, .pair _ => h |>.pairsEqual? a b
  | .vector v, .vector w =>
    if v = w then some true
    else if (h.items v).length = (h.items w).length then h |>.itemsEqual? (h.items v) (h.items w)
    else some false
  | _, _ => some false
partial_fixpoint

/-- Equality of lists, found in a loop along their tails. It ends where both go on with one and the
same pair. -/
def pairsEqual? (h : Heap) (a b : Ref) : Option Bool :=
  match a, b with
  | .pair p, .pair q =>
    if p = q then some true
    else do
      if ← h |>.equal? (h.head p) (h.head q) then h |>.pairsEqual? (h.tail p) (h.tail q)
      else return false
  | a, b => h |>.equal? a b
partial_fixpoint

def itemsEqual? (h : Heap) (as bs : List Ref) : Option Bool :=
  match as, bs with
  | a :: as, b :: bs => do
    if ← h |>.equal? a b then h |>.itemsEqual? as bs else return false
  | _, _ => some true
partial_fixpoint

end

end Heap

end Lisplet
