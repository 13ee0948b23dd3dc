import Lisplet.Action

/-! Chained comparison. -/
namespace Lisplet

def Relation.holds : Relation → Option Ordering → Bool
  | _, none => false
  | equal, some o => o == .eq
  | less, some o => o == .lt
  | lessOrEqual, some o => o != .gt
  | greater, some o => o == .gt
  | greaterOrEqual, some o => o != .lt

namespace Comparison

def orderFloats (x y : Float) : Option Ordering :=
  if x < y then some .lt else if x == y then some .eq else if y < x then some .gt else none

def orderStrings (a b : String) : Ordering :=
  if a < b then .lt else if a = b then .eq else .gt

def order (relation : Relation) (s : Store) : Value → Value → Except Error (Option Ordering)
  | .integer a, .integer b => .ok (some (Ord.compare a.toInt b.toInt))
  | .float x, .float y => .ok (orderFloats x y)
  | .string a, .string b => .ok (some (orderStrings a b))
  | a, b => .error (.type (.incomparable (.compare relation) (s.shown a) (s.shown b)) none)

/-- Whether neighbours are related, up to the first that are not. -/
def related (relation : Relation) (s : Store) : List Value → Except Error Bool
  | a :: b :: rest => do
    if relation.holds (← order relation s a b) then related relation s (b :: rest) else .ok false
  | _ => .ok true

/-- Whether all neighbours are related. -/
def compare (relation : Relation) : Observer := fun s args =>
  if args.length < 2 then .error (.arity (.atLeast 2) args.length none)
  else Value.boolean <$> related relation s args

end Comparison

end Lisplet
