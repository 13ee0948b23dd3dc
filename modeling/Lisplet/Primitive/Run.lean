import Lisplet.Primitive.Comparison
import Lisplet.Primitive.Console
import Lisplet.Primitive.Lists
import Lisplet.Primitive.Strings
import Lisplet.Primitive.Vector

/-! Calls of primitives. -/
namespace Lisplet

/-- Calls a primitive with evaluated arguments. It checks their number itself. -/
def Primitive.run : Primitive → List Value → Action Value
  | add => Action.observe Arithmetic.add
  | subtract => Action.observe Arithmetic.subtract
  | multiply => Action.observe Arithmetic.multiply
  | divide => Action.observe Arithmetic.divide
  | remainder => Action.observe Arithmetic.remainder
  | compare relation => Action.observe (Comparison.compare relation)
  | identity => Action.observe Lists.identity
  | head => Action.observe Lists.head
  | tail => Action.observe Lists.tail
  | cons => Action.observe Lists.cons
  | list => Action.observe Lists.list
  | isNull => Action.observe Lists.isNull
  | toInteger => Action.observe Strings.toInteger
  | toText => Action.observe Strings.toText
  | characters => Action.observe Strings.characters
  | readLine => Console.readLine
  | readIntegers => Console.readIntegers
  | print => Console.print
  | exit => Action.observe Console.exit
  | makeVector => Vector.make
  | copyVector => Vector.copy
  | vectorSlot => Vector.slot

end Lisplet
