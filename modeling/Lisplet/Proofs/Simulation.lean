import Lisplet.Proofs.Frames.Evaluation
import Lisplet.Proofs.Origin.Raised
import Mathlib.Data.List.Forall2

/-! Evaluation in two settings at once. If every operation of one setting has the other's in step,
so has the evaluation of every expression. -/
namespace Lisplet

/-- An action that only looks at the store, and whose errors name no expression. -/
structure Action.Looks {α : Type} (a : Action α) : Prop where
  bare : a.Bare
  store_eq (s : Store) : (a s).2 = s

namespace Action.Looks

variable {α β : Type}

theorem pure (v : α) : (pure v : Action α).Looks := ⟨.pure v, fun _ => rfl⟩

theorem ofExcept {x : Except Error α} (hx : BareErrors x) : (Action.ofExcept x).Looks := by
  refine ⟨.ofExcept hx, fun s => ?_⟩
  cases x <;> rfl

theorem fail {e : Error} (h : e.context? = none) : (Action.fail e : Action α).Looks :=
  ⟨.fail h, fun _ => rfl⟩

theorem get_bind {f : Store → Action α} (hf : ∀ s, (f s).Looks) : (get >>= f).Looks :=
  ⟨.get_bind fun s => (hf s).bare, fun s => (hf s).store_eq s⟩

theorem text_bind (v : Value) {f : String → Action α} (hf : ∀ t, (f t).Looks) :
    (Action.text v >>= f).Looks :=
  ⟨.text_bind v fun t => (hf t).bare, fun s => (hf (s.text v)).store_eq s⟩

theorem checkList (v : Value) : (Action.checkList v).Looks := by
  unfold Action.checkList
  split
  · exact .pure _
  · exact .text_bind _ fun _ => .fail rfl

theorem checkCount (id : ClosureId) (got : Nat) (e : Value) : (Action.checkCount id got e).Looks :=
  ⟨.checkCount id got e, checkCount_store id got e⟩

theorem boundNames (form : SpecialForm) (bindings : Value) :
    Action.Looks (do Action.ofExcept (Form.boundNames (← get) form bindings)) :=
  .get_bind fun s => .ofExcept (Form.bindingNames_bare s form bindings [] bindings)

end Action.Looks

namespace Setting

/-- What is to hold between the values of two settings in a world that grows as steps are taken, and
between the steps that start in a world and whose results are to be related in a later one. -/
structure Bridge (W V V' : Type) (M M' : Type → Type) where
  values : W → V → V' → Prop
  steps {α β : Type} : W → (W → α → β → Prop) → M α → M' β → Prop

variable {W V V' : Type} {M M' : Type → Type} [Preorder W] [Monad M] [Monad M']

namespace Bridge

abbrev same {α : Type} (_ : W) (a b : α) : Prop := a = b

variable (B : Bridge W V V' M M')

def lists (w : W) : List V → List V' → Prop := List.Forall₂ (B.values w)

/-- Applications of closures, if they may be made, are in step. -/
inductive Calls : Option (ClosureId → List V → M V) → Option (ClosureId → List V' → M' V') → Prop
  | none : Calls none none
  | some {f : ClosureId → List V → M V} {g : ClosureId → List V' → M' V'}
    (h : ∀ w id args args', B.lists w args args' → B.steps w B.values (f id args) (g id args')) :
    Calls (some f) (some g)

end Bridge

/-- The operations of two settings are in step. -/
structure InStep (B : Bridge W V V' M M') (S : Setting V M) (S' : Setting V' M') : Prop where
  grows {w w' : W} {v : V} {v' : V'} : w ≤ w' → B.values w v v' → B.values w' v v'
  pure {w : W} {α β : Type} {post : W → α → β → Prop} {a : α} {b : β} :
    post w a b → B.steps w post (pure a) (pure b)
  bind {w : W} {α β γ δ : Type} {mid : W → α → β → Prop} {post : W → γ → δ → Prop} {x : M α}
    {y : M' β} {f : α → M γ} {g : β → M' δ} : B.steps w mid x y →
    (∀ w', w ≤ w' → ∀ a b, mid w' a b → B.steps w' post (f a) (g b)) →
    B.steps w post (x >>= f) (y >>= g)
  calls : B.Calls S.call? S'.call?
  lift {w : W} {α : Type} {a : Action α} : a.Looks → B.steps w Bridge.same (S.lift a) (S'.lift a)
  within {w : W} {x : M V} {y : M' V'} (operator operands : Value) : B.steps w B.values x y →
    B.steps w B.values (S.within (.pair operator operands) x)
      (S'.within (.pair operator operands) y)
  value {w : W} {v : V} {v' : V'} : B.values w v v' → S.value v = S'.value v'
  arguments {w : W} {v : V} {v' : V'} : B.values w v v' →
    B.lists w (S.arguments v) (S'.arguments v')
  nil (w : W) : B.values w S.nil S'.nil
  cons {w : W} {v t : V} {v' t' : V'} : B.values w v v' → B.values w t t' →
    B.steps w B.values (S.cons v t) (S'.cons v' t')
  atom {w : W} {e : Value} (he : ∀ a b, e ≠ .pair a b) : B.steps w B.values (S.atom e) (S'.atom e)
  run {w : W} {args : List V} {args' : List V'} (body : Procedure) : B.lists w args args' →
    B.steps w B.values (S.run body args) (S'.run body args')
  scope (w : W) : B.steps w Bridge.same S.scope S'.scope
  makeClosure (w : W) (scope : FrameId) (params body : Value) :
    B.steps w B.values (S.makeClosure scope params body) (S'.makeClosure scope params body)
  define {w : W} {v : V} {v' : V'} (frame : FrameId) (name : String) : B.values w v v' →
    B.steps w Bridge.same (S.define frame name v) (S'.define frame name v')
  inFrame {w : W} {vs : List V} {vs' : List V'} {f : FrameId → M V} {g : FrameId → M' V'}
    (names : List String) : B.lists w vs vs' →
    (∀ w', w ≤ w' → ∀ frame, B.steps w' B.values (f frame) (g frame)) →
    B.steps w B.values (S.inFrame names vs f) (S'.inFrame names vs' g)
  inScope {w : W} {x : M V} {y : M' V'} (scope : FrameId) : B.steps w B.values x y →
    B.steps w B.values (S.inScope scope x) (S'.inScope scope y)
  loopName? (w : W) (id : ClosureId) (closure : Closure) :
    B.steps w Bridge.same (S.loopName? id closure) (S'.loopName? id closure)
  mark (w : W) (frame : FrameId) (name : String) :
    B.steps w Bridge.same (S.mark frame name) (S'.mark frame name)
  rebind {w : W} {vs : List V} {vs' : List V'} (frame : FrameId) (params : List String) :
    B.lists w vs vs' → B.steps w Bridge.same (S.rebind frame params vs) (S'.rebind frame params vs')

namespace InStep

variable {B : Bridge W V V' M M'} {S : Setting V M} {S' : Setting V' M'} (h : InStep B S S') {w : W}

include h

theorem lists_grow {w' : W} (hw : w ≤ w') {vs : List V} {vs' : List V'} (hvs : B.lists w vs vs') :
    B.lists w' vs vs' :=
  hvs.imp fun _ _ => h.grows hw

theorem raise {fault : Action Empty} (hfault : fault.Looks) {α β : Type} {post : W → α → β → Prop} :
    B.steps w post (S.raise fault) (S'.raise fault) :=
  h.bind (h.lift hfault) fun _ _ a => a.elim

/-- What is done with a value is done with what is in step with it. -/
theorem andThen {x : M V} {y : M' V'} {f : V → M V} {g : V' → M' V'} (hxy : B.steps w B.values x y)
    (hfg : ∀ w', w ≤ w' → ∀ v v', B.values w' v v' → B.steps w' B.values (f v) (g v')) :
    B.steps w B.values (x >>= f) (y >>= g) :=
  h.bind hxy hfg

theorem evalLambda (operands : Value) :
    B.steps w B.values (S.evalLambda operands) (S'.evalLambda operands) := by
  rw [Setting.evalLambda.eq_def, Setting.evalLambda.eq_def]
  split
  · refine h.bind (h.scope w) fun w₁ _ scope _ hscope => ?_
    cases hscope
    exact h.makeClosure w₁ scope _ _
  · exact h.raise (.fail rfl)

mutual

theorem eval (w : W) (e : Value) : B.steps w B.values (S.eval e) (S'.eval e) := by
  rw [Setting.eval.eq_def, Setting.eval.eq_def]
  have hcalls := h.calls
  cases e with
  | pair operator operands =>
    -- The recursion is for one pair of calls, so it is used before these are told apart.
    have hargs (w : W) := evalArgs w operands
    have helements (w : W) := evalElements w operands
    have hdefine (w : W) := evalDefine w operands
    have hletIn (w : W) := evalLetIn w operands
    have hletRec (w : W) := evalLetRec w operands
    have hifElse (w : W) := evalIfElse w operands
    have hcond (w : W) := evalCond w operands
    have hoperator := eval w operator
    generalize S.call? = call, S'.call? = call' at hcalls ⊢
    cases hcalls with
    | none => exact h.raise (.fail rfl)
    | some happly =>
      refine h.within operator operands (h.bind hoperator fun w₁ _ v v' hv => ?_)
      rw [h.value hv]
      split
      · rename_i arity body _
        refine h.bind (hargs w₁) fun w₂ _ args args' hargs => ?_
        rw [hargs.length_eq]
        refine h.bind (h.lift (.ofExcept (arity.check_bare _))) fun w₃ hw₃ _ _ _ => ?_
        exact h.run body (h.lists_grow hw₃ hargs)
      · refine h.bind (hargs w₁) fun w₂ _ args args' hargs => ?_
        rw [hargs.length_eq]
        refine h.bind (h.lift (.checkCount _ _ _)) fun w₃ hw₃ _ _ _ => ?_
        exact happly w₃ _ _ _ (h.lists_grow hw₃ hargs)
      · refine h.bind (h.lift (.checkList _)) fun w₂ _ _ _ _ => ?_
        split
        · exact h.evalLambda operands
        · exact hdefine w₂
        · exact hletIn w₂
        · exact hletRec w₂
        · exact hifElse w₂
        · exact hcond w₂
      · exact h.bind (helements w₁) fun w₂ hw₂ _ _ ht => h.cons (h.grows hw₂ hv) ht
  | _ =>
    generalize S.call? = call, S'.call? = call' at hcalls ⊢
    cases hcalls with
    | none => exact h.raise (.fail rfl)
    | some _ => exact h.atom nofun
termination_by e

theorem evalArgs (w : W) (e : Value) : B.steps w B.lists (S.evalArgs e) (S'.evalArgs e) := by
  rw [Setting.evalArgs.eq_def, Setting.evalArgs.eq_def]
  cases e with
  | nil => exact h.pure .nil
  | pair e rest =>
    refine h.bind (eval w e) fun w₁ _ v v' hv => ?_
    refine h.bind (evalArgs w₁ rest) fun w₂ hw₂ vs vs' hvs => ?_
    exact h.pure (.cons (h.grows hw₂ hv) hvs)
  | _ => exact h.raise (.text_bind _ fun _ => .fail rfl)
termination_by e

theorem evalElements (w : W) (e : Value) :
    B.steps w B.values (S.evalElements e) (S'.evalElements e) := by
  rw [Setting.evalElements.eq_def, Setting.evalElements.eq_def]
  have hcalls := h.calls
  cases e with
  | pair e rest =>
    refine h.bind (eval w e) fun w₁ _ v v' hv => ?_
    exact h.bind (evalElements w₁ rest) fun w₂ hw₂ _ _ ht => h.cons (h.grows hw₂ hv) ht
  | _ =>
    generalize S.call? = call, S'.call? = call' at hcalls ⊢
    cases hcalls with
    | none => exact h.raise (.fail rfl)
    | some _ => exact h.atom nofun
termination_by e

theorem evalDefine (w : W) (e : Value) :
    B.steps w B.values (S.evalDefine e) (S'.evalDefine e) := by
  rw [Setting.evalDefine.eq_def, Setting.evalDefine.eq_def]
  split
  · split
    · refine h.bind (h.scope w) fun w₁ _ scope _ hscope => ?_
      cases hscope
      refine h.bind (h.makeClosure w₁ scope _ _) fun w₂ _ v v' hv => ?_
      exact h.bind (h.define scope _ hv) fun w₃ _ _ _ _ => h.pure (h.nil w₃)
    · exact h.raise (.text_bind _ fun _ => .fail rfl)
  · refine h.bind (eval w _) fun w₁ _ v v' hv => ?_
    refine h.bind (h.scope w₁) fun w₂ hw₂ scope _ hscope => ?_
    cases hscope
    exact h.bind (h.define scope _ (h.grows hw₂ hv)) fun w₃ _ _ _ _ => h.pure (h.nil w₃)
  · exact h.raise (.text_bind _ fun _ => .fail rfl)
  · exact h.raise (.fail rfl)
termination_by e

theorem evalLetIn (w : W) (e : Value) :
    B.steps w B.values (S.evalLetIn e) (S'.evalLetIn e) := by
  rw [Setting.evalLetIn.eq_def, Setting.evalLetIn.eq_def]
  split
  · refine h.bind (h.lift (Action.Looks.boundNames _ _)) fun w₁ _ names _ hnames => ?_
    cases hnames
    refine h.bind (evalInits w₁ _) fun w₂ _ vs vs' hvs => ?_
    exact h.inFrame names hvs fun w₃ _ _ => eval w₃ _
  · exact h.raise (.fail rfl)
termination_by e

theorem evalLetRec (w : W) (e : Value) :
    B.steps w B.values (S.evalLetRec e) (S'.evalLetRec e) := by
  rw [Setting.evalLetRec.eq_def, Setting.evalLetRec.eq_def]
  split
  · refine h.bind (h.lift (Action.Looks.boundNames _ _)) fun w₁ _ names _ hnames => ?_
    cases hnames
    have hnil : B.lists w₁ (names.map fun _ => S.nil) (names.map fun _ => S'.nil) :=
      List.forall₂_map_left_iff.mpr <| List.forall₂_map_right_iff.mpr <|
        List.forall₂_same.mpr fun _ _ => h.nil w₁
    refine h.inFrame names hnil fun w₂ _ frame => ?_
    exact h.bind (bindInits w₂ frame _) fun w₃ _ _ _ _ => eval w₃ _
  · exact h.raise (.fail rfl)
termination_by e

theorem evalIfElse (w : W) (e : Value) :
    B.steps w B.values (S.evalIfElse e) (S'.evalIfElse e) := by
  rw [Setting.evalIfElse.eq_def, Setting.evalIfElse.eq_def]
  split
  · refine h.bind (eval w _) fun w₁ _ v v' hv => ?_
    rw [h.value hv]
    split
    · exact eval w₁ _
    · exact h.pure (h.nil w₁)
  · refine h.bind (eval w _) fun w₁ _ v v' hv => ?_
    rw [h.value hv]
    split
    · exact eval w₁ _
    · exact eval w₁ _
  · exact h.raise (.fail rfl)
termination_by e

theorem evalCond (w : W) (e : Value) : B.steps w B.values (S.evalCond e) (S'.evalCond e) := by
  rw [Setting.evalCond.eq_def, Setting.evalCond.eq_def]
  split
  · split
    · refine h.bind (eval w _) fun w₁ _ v v' hv => ?_
      rw [h.value hv]
      split
      · exact eval w₁ _
      · exact evalCond w₁ _
    · exact h.raise (.text_bind _ fun _ => .fail rfl)
  · exact h.pure (h.nil w)
termination_by e

theorem evalInits (w : W) (e : Value) : B.steps w B.lists (S.evalInits e) (S'.evalInits e) := by
  rw [Setting.evalInits.eq_def, Setting.evalInits.eq_def]
  split
  · refine h.bind (eval w _) fun w₁ _ v v' hv => ?_
    refine h.bind (evalInits w₁ _) fun w₂ hw₂ vs vs' hvs => ?_
    exact h.pure (.cons (h.grows hw₂ hv) hvs)
  · exact h.pure .nil
termination_by e

theorem bindInits (w : W) (frame : FrameId) (e : Value) :
    B.steps w Bridge.same (S.bindInits frame e) (S'.bindInits frame e) := by
  rw [Setting.bindInits.eq_def, Setting.bindInits.eq_def]
  split
  · refine h.bind (eval w _) fun w₁ _ v v' hv => ?_
    exact h.bind (h.define frame _ hv) fun w₂ _ _ _ _ => bindInits w₂ frame _
  · exact h.pure rfl
termination_by e

end

theorem evalForm (form : SpecialForm) (operands : Value) :
    B.steps w B.values (S.evalForm form operands) (S'.evalForm form operands) := by
  cases form with
  | lambda => exact h.evalLambda operands
  | define => exact h.evalDefine w operands
  | letIn => exact h.evalLetIn w operands
  | letRec => exact h.evalLetRec w operands
  | ifElse => exact h.evalIfElse w operands
  | cond => exact h.evalCond w operands

theorem evalTask (task : Task) : B.steps w B.values (S.evalTask task) (S'.evalTask task) := by
  cases task with
  | expression e => exact h.eval w e
  | elements e => exact h.evalElements w e
  | special form operands => exact h.evalForm form operands
  | program es =>
    have hprogram (w : W) (v : V) (v' : V') (hv : B.values w v v') : B.steps w B.values
        (es.foldlM (fun _ e => S.eval e) v) (es.foldlM (fun _ e => S'.eval e) v') := by
      induction es generalizing w v v' with
      | nil => exact h.pure hv
      | cons e es ih =>
        rw [List.foldlM_cons, List.foldlM_cons]
        exact h.andThen (h.eval w e) fun w' _ v v' hv => ih w' v v' hv
    exact hprogram w _ _ (h.nil w)

theorem round {closure : Closure} {frame : FrameId} {next : M V} {next' : M' V'}
    (hnext : ∀ w', w ≤ w' → B.steps w' B.values next next') :
    B.steps w B.values (S.round closure frame next) (S'.round closure frame next') := by
  refine h.bind (h.eval w closure.body) fun w₁ hw₁ v v' hv => ?_
  have hargs := h.arguments hv
  rw [h.value hv]
  split
  · dsimp only
    rw [hargs.length_eq]
    split
    · exact h.bind (h.rebind frame _ hargs) fun w₂ hw₂ _ _ _ => hnext w₂ (hw₁.trans hw₂)
    · exact h.raise (.fail rfl)
  · exact h.pure hv

theorem runBody {loop : Closure → FrameId → M V} {loop' : Closure → FrameId → M' V'}
    (closure : Closure) {args : List V} {args' : List V'} (hargs : B.lists w args args')
    {name? : Option String} (hloop : ∀ name ∈ name?, ∀ w', w ≤ w' → ∀ frame,
      B.steps w' B.values (loop closure frame) (loop' closure frame)) :
    B.steps w B.values (S.runBody loop closure args name?)
      (S'.runBody loop' closure args' name?) := by
  refine h.inFrame closure.params hargs fun w₁ hw₁ frame => ?_
  cases name? with
  | none => exact h.eval w₁ closure.body
  | some name =>
    exact h.bind (h.mark w₁ frame name) fun w₂ hw₂ _ _ _ => hloop name rfl w₂ (hw₁.trans hw₂) frame

theorem apply {loop : Closure → FrameId → M V} {loop' : Closure → FrameId → M' V'}
    (hloop : ∀ w', w ≤ w' → ∀ closure frame,
      B.steps w' B.values (loop closure frame) (loop' closure frame))
    (id : ClosureId) {args : List V} {args' : List V'} (hargs : B.lists w args args') :
    B.steps w B.values (S.apply loop id args) (S'.apply loop' id args') := by
  refine h.bind (h.lift (.get_bind fun _ => .pure _)) fun w₁ hw₁ found _ hfound => ?_
  cases hfound
  cases found with
  | none => exact h.pure (h.nil w₁)
  | some closure =>
    have hname := h.loopName? w₁ id closure
    refine h.inScope closure.scope (h.bind hname fun w₂ hw₂ name? _ hname => ?_)
    cases hname
    have hw := hw₁.trans hw₂
    exact h.runBody closure (h.lists_grow hw hargs) fun _ _ w₃ hw₃ =>
      hloop w₃ (hw.trans hw₃) closure

end InStep

end Setting

namespace Machine

open Setting (Bridge InStep)

/-- Computations of two kinds do the same with the same actions: they are related whenever they
perform an action that the machine takes. -/
structure Carries {N N' : Type → Type} [Monad N] [Monad N']
    (R : ∀ {α β : Type}, (α → β → Prop) → N α → N' β → Prop) (m : Machine) (c : Carrier N)
    (c' : Carrier N') : Prop where
  pure {α β : Type} {post : α → β → Prop} {a : α} {b : β} : post a b → R post (pure a) (pure b)
  bind {α β γ δ : Type} {mid : α → β → Prop} {post : γ → δ → Prop} {x : N α} {y : N' β}
    {f : α → N γ} {g : β → N' δ} : R mid x y → (∀ a b, mid a b → R post (f a) (g b)) →
    R post (x >>= f) (y >>= g)
  perform {α : Type} {a : Action α} : a.Bare → R Eq (c.perform a) (c'.perform a)
  within {x : N Value} {y : N' Value} (operator operands : Value) : R Eq x y →
    R Eq (c.within (.pair operator operands) x) (c'.within (.pair operator operands) y)
  run (body : Procedure) (args : List Value) :
    R Eq (c.perform (m.run body args)) (c'.perform (m.run body args))

namespace Carries

variable {N N' : Type → Type} [Monad N] [Monad N']
  {R : ∀ {α β : Type}, (α → β → Prop) → N α → N' β → Prop} {m : Machine} {c : Carrier N}
  {c' : Carrier N'}

/-- In every frame the same value is found by related computations. -/
def bridge (R : ∀ {α β : Type}, (α → β → Prop) → N α → N' β → Prop) :
    Bridge Action.Still Value Value (ReaderT FrameId N) (ReaderT FrameId N') where
  values _ v v' := v = v'
  steps w post x y := ∀ scope, R (post w) (x scope) (y scope)

omit [Monad N] [Monad N'] in
theorem eq_of_lists {w : Action.Still} {vs vs' : List Value} (h : (bridge R).lists w vs vs') :
    vs = vs' := by
  simpa [Bridge.lists, bridge] using h

inductive Calls (R : ∀ {α β : Type}, (α → β → Prop) → N α → N' β → Prop) :
    Option (ClosureId → List Value → N Value) → Option (ClosureId → List Value → N' Value) → Prop
  | none : Calls R none none
  | some {f : ClosureId → List Value → N Value} {g : ClosureId → List Value → N' Value}
    (h : ∀ id args, R Eq (f id args) (g id args)) : Calls R (some f) (some g)

variable (h : Carries R m c c')

include h

/-- What an action results in, if it results in anything of interest. -/
theorem act {α β : Type} {a : Action α} (ha : a.Bare) {f : α → N β} {g : α → N' β}
    {post : β → β → Prop} (hfg : ∀ v, R post (f v) (g v)) :
    R post (c.perform a >>= f) (c'.perform a >>= g) :=
  h.bind (h.perform ha) fun v _ hv => hv ▸ hfg v

theorem inStep {call : Option (ClosureId → List Value → N Value)}
    {call' : Option (ClosureId → List Value → N' Value)}
    (calls : Calls R call call') :
    InStep (bridge R) (m.settingIn c call) (m.settingIn c' call') where
  grows _ hv := hv
  pure hv _ := h.pure hv
  bind hx hf scope := h.bind (hx scope) fun a b hab => hf _ le_rfl a b hab scope
  calls := by
    cases calls with
    | none => exact .none
    | some hcall =>
      refine .some fun _ id args args' hargs _ => ?_
      rw [eq_of_lists hargs]
      exact hcall id args'
  lift ha _ := h.perform ha.bare
  within operator operands hx scope := h.within operator operands (hx scope)
  value hv := hv
  arguments hv := by
    cases hv
    exact List.forall₂_same.mpr fun _ _ => rfl
  nil _ := rfl
  cons hv ht _ := h.pure (congrArg₂ Value.pair hv ht)
  atom _ scope := h.perform (m.evalAtom_bare scope _)
  run body hargs _ := by
    rw [eq_of_lists hargs]
    exact h.run body _
  scope _ _ := h.pure rfl
  makeClosure _ scope params body _ := h.perform (makeClosure_bare scope params body)
  define frame name hv _ := by
    cases hv
    exact h.perform (.modify _)
  inFrame names hvs hf scope := by
    rw [eq_of_lists hvs]
    exact h.act (.change _) fun frame => hf _ le_rfl frame frame
  inScope scope hx _ := hx scope
  loopName? _ _ _ _ := h.perform (.get_bind fun _ => .pure _)
  mark _ _ _ _ := h.perform (.modify _)
  rebind frame params hvs scope := by
    rw [eq_of_lists hvs]
    exact h.perform (rebindFrom_bare scope frame params _)

section

variable {call : Option (ClosureId → List Value → N Value)}
  {call' : Option (ClosureId → List Value → N' Value)} (calls : Calls R call call')

include calls

theorem eval (scope : FrameId) (e : Value) :
    R Eq ((m.settingIn c call).eval e scope) ((m.settingIn c' call').eval e scope) :=
  (h.inStep calls).eval ⟨⟩ e scope

theorem runLoopIn (closure : Closure) (frame : FrameId) (rounds : Nat) :
    R Eq (m.runLoopIn c call closure frame rounds) (m.runLoopIn c' call' closure frame rounds) := by
  induction rounds with
  | zero => exact h.perform .unfinished
  | succ rounds ih => exact (h.inStep calls).round (w := ⟨⟩) (fun _ _ _ => ih) frame

theorem applyIn (id : ClosureId) (args : List Value) :
    R Eq (m.applyIn c call id args) (m.applyIn c' call' id args) :=
  (h.inStep calls).apply (w := ⟨⟩)
    (fun _ _ closure frame _ => h.runLoopIn calls closure frame m.rounds) id
    (List.forall₂_same.mpr fun _ _ => rfl) outside

end

theorem callAtIn (depth : Nat) : Calls R (m.callAtIn c depth) (m.callAtIn c' depth) := by
  induction depth with
  | zero => exact .none
  | succ depth ih => exact .some (h.applyIn ih)

end Carries

end Machine

end Lisplet
