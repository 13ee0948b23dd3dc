import Lisplet.Action

/-! The shapes of parameter lists and binding lists. -/
namespace Lisplet.Form

/-- The names in a list of distinct symbols, after those already seen, the last of them first. -/
def parameterNames (s : Store) (seen : List String) : Value → Except Error (List String)
  | .nil => .ok seen.reverse
  | .pair (.symbol name) rest =>
    if seen.contains name then .error (.eval (.duplicateParameter name) none)
    else parameterNames s (name :: seen) rest
  | .pair v _ => .error (.type (.parameterName (s.text v)) none)
  | v => .error (.type (.malformedList (s.text v)) none)

def parameters (s : Store) (params : Value) : Except Error (List String) :=
  match params with
  | .nil | .pair _ _ => parameterNames s [] params
  | v => .error (.type (.parameterList (s.text v)) none)

/-- The names in a list of bindings `(name expression)` of distinct names, after those already
seen, the last of them first. An error shows the whole list. -/
def bindingNames (s : Store) (form : SpecialForm) (whole : Value) (seen : List String) :
    Value → Except Error (List String)
  | .nil => .ok seen.reverse
  | .pair (.pair (.symbol name) (.pair _ .nil)) rest =>
    if seen.contains name then .error (.eval (.duplicateBinding form name) none)
    else bindingNames s form whole (name :: seen) rest
  | _ => .error (.eval (.malformedBindings form (s.text whole)) none)

def boundNames (s : Store) (form : SpecialForm) (bindings : Value) : Except Error (List String) :=
  bindingNames s form bindings [] bindings

end Lisplet.Form
