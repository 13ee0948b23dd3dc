import Lisplet.Form
import Lisplet.SelfCall

/-! Evaluation, written once for every setting that it can happen in. It recurs on the expression;
what it asks of its setting is to look at the store, to find and bind names, to enter and leave
frames, and to make the calls. -/
namespace Lisplet

namespace Action

def closure? (id : ClosureId) : Action (Option Closure) := return (← get).closures[id.index]?

def checkCount (id : ClosureId) (got : Nat) (expression : Value) : Action Unit := do
  let count := match ← closure? id with
    | some closure => closure.params.length
    | none => 0
  if got = count then return ()
  else fail (.arity (.exact count) got (some (← text expression)))

end Action

/-- What an interpreter can be asked to evaluate. -/
inductive Task where
  | expression (e : Value)
  | elements (e : Value)
  | special (form : SpecialForm) (operands : Value)
  | program (es : List Value)

/-- What evaluation needs of the setting it happens in. `V` are the values that it finds, which may
be more than a `Value` tells, and `M α` its steps to a result in `α`. -/
structure Setting (V : Type) (M : Type → Type) where
  /-- Applies a closure to evaluated arguments, if one more call may be in progress. -/
  call? : Option (ClosureId → List V → M V)
  lift {α : Type} : Action α → M α
  /-- Adds an expression to an error that comes without one. -/
  within : Value → M V → M V
  value : V → Value
  /-- The arguments that a tail call carries. -/
  arguments : V → List V
  nil : V
  cons : V → V → M V
  /-- Evaluates what is no pair. -/
  atom : Value → M V
  run : Procedure → List V → M V
  /-- The frame that names are looked up from. -/
  scope : M FrameId
  makeClosure (scope : FrameId) (params body : Value) : M V
  /-- Binds a name in a frame, and names the value if it is a closure without a name. -/
  define : FrameId → String → V → M Unit
  /-- Runs a step in a new frame inside the present one. -/
  inFrame : List String → List V → (FrameId → M V) → M V
  /-- Runs a step in a frame that is there already. -/
  inScope : FrameId → M V → M V
  /-- The name under which a closure is to run as a loop, if the name stands for it here. -/
  loopName? : ClosureId → Closure → M (Option String)
  /-- Binds a name to the request for another round. -/
  mark : FrameId → String → M Unit
  /-- Binds parameters in the innermost frames here that bind them already, or else in the given
  one. -/
  rebind : FrameId → List String → List V → M Unit

namespace Setting

variable {V : Type} {M : Type → Type} [Monad M]

def raise (S : Setting V M) {α : Type} (fault : Action Empty) : M α := S.lift fault >>= nofun

def evalLambda (S : Setting V M) : Value → M V
  | .pair params (.pair body .nil) => do S.makeClosure (← S.scope) params body
  | operands => S.raise (Action.arityFault (.exact 2) operands.heads.length)

mutual

def eval (S : Setting V M) (e : Value) : M V :=
  match S.call? with
  | none => S.raise (Action.evalFault .depthExceeded)
  | some apply =>
    match e with
    | .pair operator operands => S.within (.pair operator operands) do
      let v ← eval S operator
      match S.value v with
      | .function _ arity body =>
        let args ← evalArgs S operands
        S.lift (Action.ofExcept (arity.check args.length))
        S.run body args
      | .closure id =>
        let args ← evalArgs S operands
        S.lift (Action.checkCount id args.length (.pair operator operands))
        apply id args
      | .special form =>
        S.lift (Action.checkList operands)
        match form with
        | .lambda => evalLambda S operands
        | .define => evalDefine S operands
        | .letIn => evalLetIn S operands
        | .letRec => evalLetRec S operands
        | .ifElse => evalIfElse S operands
        | .cond => evalCond S operands
      | _ => S.cons v (← evalElements S operands)
    | e => S.atom e

def evalArgs (S : Setting V M) : Value → M (List V)
  | .nil => return []
  | .pair e rest => do
    let v ← eval S e
    return v :: (← evalArgs S rest)
  | e => S.raise do Action.typeFault (.malformedList (← Action.text e))

def evalElements (S : Setting V M) : Value → M V
  | .pair e rest => do
    let v ← eval S e
    S.cons v (← evalElements S rest)
  | e =>
    match S.call? with
    | none => S.raise (Action.evalFault .depthExceeded)
    | some _ => S.atom e

/-- Evaluates `(define name e)` or `(define (name . params) body)`: binds the name in the present
frame. -/
def evalDefine (S : Setting V M) : Value → M V
  | .pair (.pair target params) (.pair body .nil) =>
    match target with
    | .symbol name => do
      let scope ← S.scope
      let v ← S.makeClosure scope params body
      S.define scope name v
      return S.nil
    | e => S.raise do Action.typeFault (.functionName (← Action.text e))
  | .pair (.symbol name) (.pair e .nil) => do
    let v ← eval S e
    S.define (← S.scope) name v
    return S.nil
  | .pair e (.pair _ .nil) => S.raise do Action.typeFault (.definitionTarget (← Action.text e))
  | operands => S.raise (Action.arityFault (.exact 2) operands.heads.length)

/-- Evaluates `(let bindings body)`: the body in a frame of the values found outside of it. -/
def evalLetIn (S : Setting V M) : Value → M V
  | .pair bindings (.pair body .nil) => do
    let names ← S.lift do Action.ofExcept (Form.boundNames (← get) .letIn bindings)
    let values ← evalInits S bindings
    S.inFrame names values fun _ => eval S body
  | operands => S.raise (Action.arityFault (.exact 2) operands.heads.length)

/-- Evaluates `(letrec bindings body)`: the right sides see the frame that they are bound in. -/
def evalLetRec (S : Setting V M) : Value → M V
  | .pair bindings (.pair body .nil) => do
    let names ← S.lift do Action.ofExcept (Form.boundNames (← get) .letRec bindings)
    S.inFrame names (names.map fun _ => S.nil) fun frame => do
      bindInits S frame bindings
      eval S body
  | operands => S.raise (Action.arityFault (.exact 2) operands.heads.length)

def evalIfElse (S : Setting V M) : Value → M V
  | .pair test (.pair yes .nil) => do
    let v ← eval S test
    if (S.value v).isTruthy then eval S yes else return S.nil
  | .pair test (.pair yes (.pair no .nil)) => do
    let v ← eval S test
    if (S.value v).isTruthy then eval S yes else eval S no
  | operands => S.raise (Action.arityFault (.range 2 3) operands.heads.length)

/-- Evaluates `(cond (test e) ...)`: the expression of the first clause whose test holds. -/
def evalCond (S : Setting V M) : Value → M V
  | .pair clause rest =>
    match clause with
    | .pair test (.pair e .nil) => do
      let v ← eval S test
      if (S.value v).isTruthy then eval S e else evalCond S rest
    | e => S.raise do Action.evalFault (.malformedClause (← Action.text e))
  | _ => return S.nil

/-- Evaluates the right sides of a well-formed binding list from left to right. -/
def evalInits (S : Setting V M) : Value → M (List V)
  | .pair (.pair _ (.pair e .nil)) rest => do
    let v ← eval S e
    return v :: (← evalInits S rest)
  | _ => return []

/-- Evaluates the right sides of a well-formed binding list, and binds each in `frame`. -/
def bindInits (S : Setting V M) (frame : FrameId) : Value → M Unit
  | .pair (.pair (.symbol name) (.pair e .nil)) rest => do
    let v ← eval S e
    S.define frame name v
    bindInits S frame rest
  | _ => return ()

end

/-- Evaluates a special form with the list of its operands. -/
def evalForm (S : Setting V M) : SpecialForm → Value → M V
  | .lambda => S.evalLambda
  | .define => S.evalDefine
  | .letIn => S.evalLetIn
  | .letRec => S.evalLetRec
  | .ifElse => S.evalIfElse
  | .cond => S.evalCond

/-- Evaluates what there is to evaluate; a program has the value of its last expression. -/
def evalTask (S : Setting V M) : Task → M V
  | .expression e => S.eval e
  | .elements e => S.evalElements e
  | .special form operands => S.evalForm form operands
  | .program es => es.foldlM (fun _ e => S.eval e) S.nil

/-- A round of a loop in `frame`: evaluates the body, and goes on with `next` if it asks for another
round. -/
def round (S : Setting V M) (closure : Closure) (frame : FrameId) (next : M V) : M V := do
  let v ← S.eval closure.body
  match S.value v with
  | .tailCall _ =>
    let args := S.arguments v
    if args.length = closure.params.length then do
      S.rebind frame closure.params args
      next
    else S.raise (Action.arityFault (.exact closure.params.length) args.length)
  | _ => return v

/-- Evaluates the body of a closure in a new frame, as a `loop` if a name is to stand for the
request for another round. -/
def runBody (S : Setting V M) (loop : Closure → FrameId → M V) (closure : Closure)
    (args : List V) (name? : Option String) : M V :=
  S.inFrame closure.params args fun frame =>
    match name? with
    | some name => do
      S.mark frame name
      loop closure frame
    | none => S.eval closure.body

/-- Applies a closure in the frame it was created in, as a `loop` if it still has its name there. -/
def apply (S : Setting V M) (loop : Closure → FrameId → M V) (id : ClosureId) (args : List V) :
    M V := do
  match ← S.lift (Action.closure? id) with
  | none => return S.nil
  | some closure => S.inScope closure.scope do
    S.runBody loop closure args (← S.loopName? id closure)

end Setting

end Lisplet
