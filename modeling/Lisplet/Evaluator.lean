import Lisplet.Evaluator.Setting
import Lisplet.Primitive.Run

/-! Evaluation in a given frame, with a bound on the number of calls that may be in progress. -/
namespace Lisplet

/-- What evaluation looks up but never changes: the bindings below all frames, the host's
functions, whether loops are run as such, and how many rounds one may take. -/
structure Machine where
  globals : Bindings
  hosts : Array Observer
  looping : Bool
  rounds : Nat

abbrev Call := ClosureId → List Value → Action Value

namespace Action

def extend (scope : FrameId) (names : List String) (values : List Value) : Action FrameId :=
  change fun s => s.pushFrame (some scope) (.ofLists names values)

/-- Binds a name in a frame, and names the value if it is a closure without a name. -/
def define (frame : FrameId) (name : String) (value : Value) : Action Unit :=
  modify fun s => (s.nameValue name value).bind frame name value

def makeClosure (scope : FrameId) (params body : Value) : Action Value := do
  let params ← ofExcept (Form.parameters (← get) params)
  return .closure (← change fun s => s.pushClosure ⟨params, body, scope, none⟩)

end Action

namespace Machine

/-- The value of a name: that of the innermost frame that binds it, or else the global one. -/
def find? (m : Machine) (s : Store) (scope : FrameId) (name : String) : Option Value :=
  (s.find? name (s.chain scope)).or (m.globals.find? name)

def lookup (m : Machine) (scope : FrameId) (name : String) : Action Value := do
  match m.find? (← get) scope name with
  | some value => return value
  | none => Action.fail (.unbound name)

def run (m : Machine) : Procedure → List Value → Action Value
  | .primitive p, args => p.run args
  | .recur, args => return .tailCall (.ofList args)
  | .host slot, args =>
    match m.hosts[slot]? with
    | some f => Action.observe f args
    | none => return .nil

def evalAtom (m : Machine) (scope : FrameId) : Value → Action Value
  | .symbol name => m.lookup scope name
  | v => return v

/-- Whether the name of a closure still stands for the closure where it was created. -/
def namesItself (m : Machine) (s : Store) (id : ClosureId) (closure : Closure) (name : String) :
    Bool :=
  match m.find? s closure.scope name with
  | some (.closure found) => found = id
  | _ => false

/-- The name under which a closure is to run as a loop. -/
def loopName? (m : Machine) (s : Store) (id : ClosureId) (closure : Closure) : Option String :=
  match closure.naming with
  | some naming =>
    if m.looping && naming.loops && m.namesItself s id closure naming.name then some naming.name
    else none
  | none => none

def rebindFrom (scope frame : FrameId) (params : List String) (args : List Value) : Action Unit :=
  (params.zip args).forM fun (param, arg) => modify fun s =>
    s.bind ((s.frameOf? param (s.chain scope)).getD frame) param arg

abbrev rebind (frame : FrameId) (params : List String) (args : List Value) : Action Unit :=
  rebindFrom frame frame params args

/-- A kind of computation in which actions on the store can be performed. -/
structure Carrier (N : Type → Type) where
  perform {α : Type} : Action α → N α
  /-- Adds an expression to an error that comes without one. -/
  within : Value → N Value → N Value

def Carrier.plain : Carrier Action := ⟨fun a => a, Action.within⟩

def outside : FrameId := ⟨0⟩

section

variable {N : Type → Type} [Monad N]

def settingIn (m : Machine) (c : Carrier N) (call : Option (ClosureId → List Value → N Value)) :
    Setting Value (ReaderT FrameId N) where
  call? := call.map fun apply id args _ => apply id args
  lift a := fun _ => c.perform a
  within e a := fun scope => c.within e (a scope)
  value v := v
  arguments
    | .tailCall args => args.heads
    | _ => []
  nil := .nil
  cons head tail := fun _ => return .pair head tail
  atom e := fun scope => c.perform (m.evalAtom scope e)
  run body args := fun _ => c.perform (m.run body args)
  scope := fun scope => return scope
  makeClosure scope params body := fun _ => c.perform (Action.makeClosure scope params body)
  define frame name v := fun _ => c.perform (Action.define frame name v)
  inFrame names values body := fun scope => do
    let frame ← c.perform (Action.extend scope names values)
    body frame frame
  inScope scope body := fun _ => body scope
  loopName? id closure := fun scope =>
    c.perform do return m.loopName? (← get) id { closure with scope }
  mark frame name := fun _ =>
    c.perform (modify fun s => s.bind frame name (.function "recur" .any .recur))
  rebind frame params args := fun scope => c.perform (rebindFrom scope frame params args)

/-- What an application does does not depend on the frame that it is made from. -/
theorem settingIn_apply (m : Machine) (c : Carrier N)
    (call : Option (ClosureId → List Value → N Value))
    (loop : Closure → FrameId → ReaderT FrameId N Value) (id : ClosureId) (args : List Value)
    (scope : FrameId) : (m.settingIn c call).apply loop id args scope = (do
      match ← c.perform (Action.closure? id) with
      | none => return .nil
      | some closure =>
        let name? ← c.perform do return m.loopName? (← get) id closure
        (m.settingIn c call).runBody loop closure args name? closure.scope) := by
  rw [Setting.apply]
  change (_ >>= _ : N Value) = _
  refine congrArg (_ >>= ·) (funext fun found => ?_)
  cases found <;> rfl

def runLoopIn (m : Machine) (c : Carrier N) (call : Option (ClosureId → List Value → N Value))
    (closure : Closure) (frame : FrameId) : Nat → N Value
  | 0 => c.perform (throw .unfinished)
  | rounds + 1 =>
    (m.settingIn c call).round closure frame (fun _ => runLoopIn m c call closure frame rounds)
      frame

def applyIn (m : Machine) (c : Carrier N) (call : Option (ClosureId → List Value → N Value))
    (id : ClosureId) (args : List Value) : N Value :=
  (m.settingIn c call).apply (fun closure frame _ => m.runLoopIn c call closure frame m.rounds)
    id args outside

def callAtIn (m : Machine) (c : Carrier N) : Nat → Option (ClosureId → List Value → N Value)
  | 0 => none
  | depth + 1 => some fun id args => m.applyIn c (m.callAtIn c depth) id args

end

abbrev setting (m : Machine) (call : Option Call) : Setting Value (ReaderT FrameId Action) :=
  m.settingIn .plain call

/-- Evaluates an expression, unless the depth of calls is exhausted and there is no `call`. -/
def evalWith (m : Machine) (call : Option Call) (scope : FrameId) (e : Value) : Action Value :=
  (m.setting call).eval e scope

def evalArgs (m : Machine) (call : Option Call) (scope : FrameId) (e : Value) :
    Action (List Value) :=
  (m.setting call).evalArgs e scope

def evalElements (m : Machine) (call : Option Call) (scope : FrameId) (e : Value) : Action Value :=
  (m.setting call).evalElements e scope

def evalLambda (scope : FrameId) : Value → Action Value
  | .pair params (.pair body .nil) => Action.makeClosure scope params body
  | operands => Action.arityFault (.exact 2) operands.heads.length

def evalDefine (m : Machine) (call : Option Call) (scope : FrameId) (e : Value) : Action Value :=
  (m.setting call).evalDefine e scope

def evalLetIn (m : Machine) (call : Option Call) (scope : FrameId) (e : Value) : Action Value :=
  (m.setting call).evalLetIn e scope

def evalLetRec (m : Machine) (call : Option Call) (scope : FrameId) (e : Value) : Action Value :=
  (m.setting call).evalLetRec e scope

def evalIfElse (m : Machine) (call : Option Call) (scope : FrameId) (e : Value) : Action Value :=
  (m.setting call).evalIfElse e scope

def evalCond (m : Machine) (call : Option Call) (scope : FrameId) (e : Value) : Action Value :=
  (m.setting call).evalCond e scope

def evalInits (m : Machine) (call : Option Call) (scope : FrameId) (e : Value) :
    Action (List Value) :=
  (m.setting call).evalInits e scope

def bindInits (m : Machine) (call : Option Call) (frame : FrameId) (e : Value) : Action Unit :=
  (m.setting call).bindInits frame e frame

def evalForm (m : Machine) (call : Option Call) (scope : FrameId) :
    SpecialForm → Value → Action Value
  | .lambda => evalLambda scope
  | .define => m.evalDefine call scope
  | .letIn => m.evalLetIn call scope
  | .letRec => m.evalLetRec call scope
  | .ifElse => m.evalIfElse call scope
  | .cond => m.evalCond call scope

def runLoop (m : Machine) (call : Option Call) (closure : Closure) (frame : FrameId)
    (rounds : Nat) : Action Value :=
  m.runLoopIn .plain call closure frame rounds

/-- Applies a closure in a new frame, with `call` for the calls inside its body. In a loop the
closure's own name stands for the request for another round. -/
def apply (m : Machine) (call : Option Call) (id : ClosureId) (args : List Value) : Action Value :=
  m.applyIn .plain call id args

def callAt (m : Machine) (depth : Nat) : Option Call := m.callAtIn .plain depth

def evalAt (m : Machine) (depth : Nat) (scope : FrameId) (e : Value) : Action Value :=
  m.evalWith (m.callAt depth) scope e

/-! What evaluation does with each form of an expression, said of the given frame. -/

section

variable (m : Machine) (call : Option Call) (scope : FrameId)

theorem setting_bind {α β : Type} (a : ReaderT FrameId Action α)
    (f : α → ReaderT FrameId Action β) :
    (a >>= f) scope = a scope >>= fun v => f v scope := rfl

theorem setting_arityFault {α : Type} (expected : Arity) (got : Nat) :
    (m.setting call).raise (Action.arityFault expected got) scope =
      (Action.arityFault expected got : Action α) := rfl

theorem setting_typeFault {α : Type} (fault : String → TypeFault) (e : Value) :
    (m.setting call).raise (do Action.typeFault (fault (← Action.text e))) scope =
      (do Action.typeFault (fault (← Action.text e)) : Action α) := rfl

theorem setting_evalFault {α : Type} (fault : String → EvalFault) (e : Value) :
    (m.setting call).raise (do Action.evalFault (fault (← Action.text e))) scope =
      (do Action.evalFault (fault (← Action.text e)) : Action α) := rfl

theorem setting_evalLambda (operands : Value) :
    (m.setting call).evalLambda operands scope = evalLambda scope operands := by
  rw [Setting.evalLambda.eq_def, evalLambda.eq_def]
  split
  · rw [setting_bind]
    exact pure_bind scope fun scope => Action.makeClosure scope _ _
  · simp only [setting_arityFault]

theorem setting_evalForm (form : SpecialForm) (operands : Value) :
    (m.setting call).evalForm form operands scope = m.evalForm call scope form operands := by
  cases form with
  | lambda => exact m.setting_evalLambda call scope operands
  | _ => rfl

theorem evalWith_none {call : Option Call} (h : call = none) (scope : FrameId) (e : Value) :
    m.evalWith call scope e = Action.evalFault .depthExceeded := by
  subst h
  rw [evalWith, Setting.eval.eq_def]
  rfl

theorem evalWith_atom {call : Option Call} {apply : Call} (h : call = some apply)
    (scope : FrameId) {e : Value}
    (he : ∀ a b, e = .pair a b → False) : m.evalWith call scope e = m.evalAtom scope e := by
  subst h
  cases e with
  | pair a b => exact absurd rfl (he a b)
  | _ => rfl

theorem evalArgs_eq (e : Value) : m.evalArgs call scope e = (match e with
    | .nil => return []
    | .pair e rest => do
      let value ← m.evalWith call scope e
      return value :: (← m.evalArgs call scope rest)
    | v => do Action.typeFault (.malformedList (← Action.text v))) := by
  cases e <;> rfl

theorem evalElements_eq (e : Value) : m.evalElements call scope e = (match e with
    | .pair e rest => do
      let value ← m.evalWith call scope e
      return .pair value (← m.evalElements call scope rest)
    | e => m.evalWith call scope e) := by
  cases e <;> cases call <;> rfl

theorem evalElements_eq_evalWith {e : Value} (he : ∀ a b, e = .pair a b → False) :
    m.evalElements call scope e = m.evalWith call scope e := by
  rw [evalElements_eq]
  cases e with
  | pair a b => exact absurd rfl (he a b)
  | _ => rfl

theorem evalDefine_eq (e : Value) : m.evalDefine call scope e = (match e with
    | .pair (.pair target params) (.pair body .nil) =>
      match target with
      | .symbol name => do
        let value ← Action.makeClosure scope params body
        Action.define scope name value
        return .nil
      | v => do Action.typeFault (.functionName (← Action.text v))
    | .pair (.symbol name) (.pair e .nil) => do
      let value ← m.evalWith call scope e
      Action.define scope name value
      return .nil
    | .pair v (.pair _ .nil) => do Action.typeFault (.definitionTarget (← Action.text v))
    | operands => Action.arityFault (.exact 2) operands.heads.length) := by
  rw [evalDefine, Setting.evalDefine.eq_def]
  split
  · split
    · rfl
    · simp only [setting_typeFault]
  · rfl
  · simp only [setting_typeFault]
  · simp only [setting_arityFault]

theorem evalLetIn_eq (e : Value) : m.evalLetIn call scope e = (match e with
    | .pair bindings (.pair body .nil) => do
      let names ← Action.ofExcept (Form.boundNames (← get) .letIn bindings)
      let values ← m.evalInits call scope bindings
      let frame ← Action.extend scope names values
      m.evalWith call frame body
    | operands => Action.arityFault (.exact 2) operands.heads.length) := by
  rw [evalLetIn, Setting.evalLetIn.eq_def]
  split
  · rfl
  · simp only [setting_arityFault]

theorem evalLetRec_eq (e : Value) : m.evalLetRec call scope e = (match e with
    | .pair bindings (.pair body .nil) => do
      let names ← Action.ofExcept (Form.boundNames (← get) .letRec bindings)
      let frame ← Action.extend scope names (names.map fun _ => .nil)
      m.bindInits call frame bindings
      m.evalWith call frame body
    | operands => Action.arityFault (.exact 2) operands.heads.length) := by
  rw [evalLetRec, Setting.evalLetRec.eq_def]
  split
  · rfl
  · simp only [setting_arityFault]

theorem evalIfElse_eq (e : Value) : m.evalIfElse call scope e = (match e with
    | .pair test (.pair yes .nil) => do
      if (← m.evalWith call scope test).isTruthy then m.evalWith call scope yes else return .nil
    | .pair test (.pair yes (.pair no .nil)) => do
      if (← m.evalWith call scope test).isTruthy then m.evalWith call scope yes
      else m.evalWith call scope no
    | operands => Action.arityFault (.range 2 3) operands.heads.length) := by
  rw [evalIfElse, Setting.evalIfElse.eq_def]
  split
  · rw [setting_bind]
    refine congrArg _ (funext fun v => ?_)
    change (if v.isTruthy then _ else _ : ReaderT FrameId Action Value) scope = _
    split <;> rfl
  · rw [setting_bind]
    refine congrArg _ (funext fun v => ?_)
    change (if v.isTruthy then _ else _ : ReaderT FrameId Action Value) scope = _
    split <;> rfl
  · simp only [setting_arityFault]

theorem evalCond_eq (e : Value) : m.evalCond call scope e = (match e with
    | .pair clause rest =>
      match clause with
      | .pair test (.pair e .nil) => do
        if (← m.evalWith call scope test).isTruthy then m.evalWith call scope e
        else m.evalCond call scope rest
      | v => do Action.evalFault (.malformedClause (← Action.text v))
    | _ => return .nil) := by
  rw [evalCond, Setting.evalCond.eq_def]
  split
  · split
    · rw [setting_bind]
      refine congrArg _ (funext fun v => ?_)
      change (if v.isTruthy then _ else _ : ReaderT FrameId Action Value) scope = _
      split <;> rfl
    · simp only [setting_evalFault]
  · rename_i h
    cases e <;> first | rfl | exact absurd rfl (h _ _)

theorem evalInits_eq (e : Value) : m.evalInits call scope e = (match e with
    | .pair (.pair _ (.pair e .nil)) rest => do
      let value ← m.evalWith call scope e
      return value :: (← m.evalInits call scope rest)
    | _ => return []) := by
  rw [evalInits, Setting.evalInits.eq_def]
  cases e with
  | pair binding rest =>
    cases binding with
    | pair target init =>
      cases init with
      | pair e last => cases last <;> rfl
      | _ => rfl
    | _ => rfl
  | _ => rfl

theorem bindInits_eq (frame : FrameId) (e : Value) : m.bindInits call frame e = (match e with
    | .pair (.pair (.symbol name) (.pair e .nil)) rest => do
      let value ← m.evalWith call frame e
      Action.define frame name value
      m.bindInits call frame rest
    | _ => return ()) := by
  rw [bindInits, Setting.bindInits.eq_def]
  cases e with
  | pair binding rest =>
    cases binding with
    | pair target init =>
      cases target <;> cases init with
      | pair e last => cases last <;> rfl
      | _ => rfl
    | _ => rfl
  | _ => rfl

theorem apply_eq (id : ClosureId) (args : List Value) : m.apply call id args = (do
    match ← Action.closure? id with
    | none => return .nil
    | some closure =>
      let loop ← (do return m.loopName? (← get) id closure : Action (Option String))
      let frame ← Action.extend closure.scope closure.params args
      match loop with
      | some name =>
        modify fun s => s.bind frame name (.function "recur" .any .recur)
        m.runLoop call closure frame m.rounds
      | none => m.evalWith call frame closure.body) := by
  rw [apply, applyIn, settingIn_apply]
  refine congrArg (_ >>= ·) (funext fun found => ?_)
  cases found with
  | none => rfl
  | some closure =>
    refine congrArg (_ >>= ·) (funext fun loop => ?_)
    cases loop <;> rfl

theorem runLoop_eq (closure : Closure) (frame : FrameId) (rounds : Nat) :
    m.runLoop call closure frame (rounds + 1) = (do
    match ← m.evalWith call frame closure.body with
    | .tailCall args =>
      if args.heads.length = closure.params.length then
        rebind frame closure.params args.heads
        m.runLoop call closure frame rounds
      else Action.arityFault (.exact closure.params.length) args.heads.length
    | value => return value) := by
  rw [runLoop, runLoopIn, Setting.round]
  refine congrArg (m.evalWith call frame _ >>= ·) (funext fun v => ?_)
  cases v with
  | tailCall args =>
    change (if args.heads.length = closure.params.length then _ else _ :
      ReaderT FrameId Action Value) frame = _
    split
    · rename_i h
      simp only [h]
      rfl
    · rename_i h
      simp only [h]
      rfl
  | _ => rfl

end

end Machine

end Lisplet
