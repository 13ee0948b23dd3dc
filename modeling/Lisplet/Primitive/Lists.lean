import Lisplet.Action

/-! Pairs and lists. -/
namespace Lisplet

namespace Store

def head (s : Store) : Value → Except Error Value
  | .pair head _ => .ok head
  | v => .error (.type (.headOfNonPair (s.shown v)) none)

def tail (s : Store) : Value → Except Error Value
  | .pair _ tail => .ok tail
  | v => .error (.type (.tailOfNonPair (s.shown v)) none)

end Store

namespace Lists

def identity : Observer := Observer.onOne fun _ v => .ok v

def head : Observer := Observer.onOne Store.head

def tail : Observer := Observer.onOne Store.tail

def cons : Observer := fun _ args =>
  match args with
  | [head, tail] => .ok (.pair head tail)
  | _ => .error (.arity (.exact 2) args.length none)

def list : Observer := fun _ args => .ok (.ofList args)

def isNull : Observer := Observer.onOne fun _ v => .ok (.boolean v.isNil)

end Lists

end Lisplet
