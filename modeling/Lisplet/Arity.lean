/-! How many arguments an operation accepts. -/
namespace Lisplet

/-- The argument counts an operation accepts; both bounds of a range are accepted. -/
inductive Arity where
  | exact (count : Nat)
  | atLeast (least : Nat)
  | range (least most : Nat)
  | any
deriving DecidableEq, Repr

namespace Arity

def accepts : Arity → Nat → Bool
  | exact count, got => got == count
  | atLeast least, got => least ≤ got
  | range least most, got => least ≤ got && got ≤ most
  | any, _ => true

def text : Arity → String
  | exact count => count.repr
  | atLeast least => "at least " ++ least.repr
  | range least most => least.repr ++ " to " ++ most.repr
  | any => "any number of"

def inspect : Arity → String
  | exact count => "Exact(" ++ count.repr ++ ")"
  | atLeast least => "AtLeast(" ++ least.repr ++ ")"
  | range least most => "Range(" ++ least.repr ++ ", " ++ most.repr ++ ")"
  | any => "Any"

end Arity

end Lisplet
