import Lisplet.Proofs.Hygiene
import Lisplet.Proofs.Renaming

/-! Relations between actions of which one handles the values of the other with their closures
renamed. Two evaluations of one expression are related if the calls of closures in them are, as long
as they stay in a realm: as long as expressions, values, frames and closures are such as may be met
there. A realm may grow, such as with the closures that are made. -/
namespace Lisplet

/-- What evaluation may meet: expressions to evaluate, values to handle, frames to work in and
closures to apply. -/
structure Realm where
  expression : Value → Prop
  value : Value → Prop
  frame : FrameId → Prop
  closure : Closure → Prop

/-- Two results are the same, and something is known of them. -/
def Shared {α : Type} (P : α → Prop) (v w : α) : Prop := w = v ∧ P v

namespace Realm

def all : Realm := ⟨fun _ => True, fun _ => True, fun _ => True, fun _ => True⟩

/-- What is made of things in the realm, and what they are made of, is in the realm too. -/
structure Closed (r : Realm) : Prop where
  parts : ∀ {a b : Value}, r.expression (.pair a b) → r.expression a ∧ r.expression b
  literal : ∀ {e : Value}, r.expression e → (∀ a b, e = .pair a b → False) →
    (∀ name, e = .symbol name → False) → r.value e
  nil : r.value .nil
  pair : ∀ {a b : Value}, r.value (.pair a b) ↔ r.value a ∧ r.value b
  arguments : ∀ {args : Value}, r.value (.tailCall args) → r.value args
  params : ∀ {c : Closure}, r.closure c → ∀ p ∈ c.params, r.expression (.symbol p)
  body : ∀ {c : Closure}, r.closure c → r.expression c.body
  scope : ∀ {c : Closure}, r.closure c → r.frame c.scope

theorem all_closed : all.Closed :=
  ⟨fun _ => ⟨trivial, trivial⟩, fun _ _ _ => trivial, trivial, ⟨fun _ => ⟨trivial, trivial⟩,
    fun _ => trivial⟩, fun _ => trivial, fun _ _ _ => trivial, fun _ => trivial, fun _ => trivial⟩

structure Le (r r' : Realm) : Prop where
  expression : ∀ e, r.expression e → r'.expression e
  value : ∀ v, r.value v → r'.value v
  frame : ∀ f, r.frame f → r'.frame f
  closure : ∀ c, r.closure c → r'.closure c

theorem Le.refl (r : Realm) : r.Le r :=
  ⟨fun _ h => h, fun _ h => h, fun _ h => h, fun _ h => h⟩

/-- The second value is the first, one of the realm, with its closures renamed. -/
def Copy (r : Realm) (ρ : ClosureId → ClosureId) (v w : Value) : Prop := w = v.rename ρ ∧ r.value v

def Copies (r : Realm) (ρ : ClosureId → ClosureId) (vs ws : List Value) : Prop :=
  ws = vs.map (Value.rename ρ) ∧ ∀ v ∈ vs, r.value v

namespace Closed

variable {r : Realm} (h : r.Closed)

include h

theorem heads {v : Value} (hv : r.value v) : ∀ x ∈ v.heads, r.value x := by
  induction v with
  | pair head tail _ ih =>
    obtain ⟨hhead, htail⟩ := h.pair.mp hv
    rw [Value.heads_pair, List.forall_mem_cons]
    exact ⟨hhead, ih htail⟩
  | _ => exact fun x hx => absurd (show x ∈ [] from hx) List.not_mem_nil

theorem ending {e : Value} (he : r.expression e) : r.expression e.ending := by
  induction e with
  | pair head tail _ ih => exact ih (h.parts he).2
  | _ => exact he

/-- Names that an expression of the realm binds are in the realm. -/
theorem boundNames {s : Store} {form : SpecialForm} {bindings : Value} {names : List String}
    (hbindings : r.expression bindings) (hnames : Form.boundNames s form bindings = .ok names) :
    ∀ n ∈ names, r.expression (.symbol n) := by
  refine Form.forall_mem_of_boundNames hnames ?_
  clear hnames
  fun_induction Form.EachTarget (fun n => r.expression (.symbol n)) bindings with
  | case1 name init rest ih =>
    obtain ⟨hbinding, hrest⟩ := h.parts hbindings
    exact ⟨(h.parts hbinding).1, ih hrest⟩
  | case2 => trivial

end Closed

end Realm

namespace Machine

variable {W : Type} [Preorder W]

/-- A relation between actions, and between their results, that holds of every step in the realm `r`
and the step with closures renamed, and of longer actions if it holds of their parts. The realm may
grow while an action runs. Expressions of the realm are the same when renamed. -/
structure Correlates (m : Machine) (r : W → Realm) (ρ : ClosureId → ClosureId)
    (R : W → {α : Type} → (W → α → α → Prop) → Action α → Action α → Prop) : Prop where
  closed : ∀ w, (r w).Closed
  mono : ∀ {w w' : W}, w ≤ w' → (r w).Le (r w')
  fixed : ∀ {w : W} {e : Value}, (r w).expression e → e.rename ρ = e
  unit : ∀ {w : W}, R w (fun _ _ _ => True) (pure ()) (pure ())
  value : ∀ {w : W} {v : Value}, (r w).value v →
    R w (fun w => (r w).Copy ρ) (pure v) (pure (v.rename ρ))
  values : ∀ {w : W} {vs : List Value}, (∀ v ∈ vs, (r w).value v) →
    R w (fun w => (r w).Copies ρ) (pure vs) (pure (vs.map (Value.rename ρ)))
  bind : ∀ {w : W} {α β : Type} {P : W → α → α → Prop} {Q : W → β → β → Prop} {a b : Action α}
    {f g : α → Action β}, R w P a b →
    (∀ w', w ≤ w' → ∀ x y, P w' x y → R w' Q (f x) (g y)) → R w Q (a >>= f) (b >>= g)
  within : ∀ {w : W} {α : Type} {P : W → α → α → Prop} {a b : Action α} {e : Value},
    (r w).expression e → R w P a b → R w P (Action.within e a) (Action.within e b)
  fail : ∀ {w : W} {α : Type} {P : W → α → α → Prop} (e : Error),
    R w P (Action.fail e) (Action.fail e)
  failText : ∀ {w : W} {α : Type} {P : W → α → α → Prop} {v : Value} (e : String → Error),
    (r w).expression v →
    R w P (do Action.fail (e (← Action.text v))) (do Action.fail (e (← Action.text v)))
  unfinished : ∀ {w : W} {α : Type} {P : W → α → α → Prop},
    R w P (throw .unfinished) (throw .unfinished)
  boundNames : ∀ {w : W} {form : SpecialForm} {bindings : Value}, (r w).expression bindings →
    R w (fun w => Shared fun names => ∀ n ∈ names, (r w).expression (.symbol n))
      (do Action.ofExcept (Form.boundNames (← get) form bindings))
      (do Action.ofExcept (Form.boundNames (← get) form bindings))
  lookup : ∀ {w : W} {scope : FrameId} {name : String}, (r w).frame scope →
    (r w).expression (.symbol name) →
    R w (fun w => (r w).Copy ρ) (m.lookup scope name) (m.lookup scope name)
  run : ∀ {w : W} {name : String} {arity : Arity} {body : Procedure} {args : List Value},
    (r w).value (.function name arity body) → (∀ v ∈ args, (r w).value v) →
    R w (fun w => (r w).Copy ρ) (m.run body args) (m.run body (args.map (Value.rename ρ)))
  makeClosure : ∀ {w : W} {scope : FrameId} {params body : Value}, (r w).frame scope →
    (r w).expression params → (r w).expression body →
    R w (fun w => (r w).Copy ρ) (Action.makeClosure scope params body)
      (Action.makeClosure scope params body)
  extend : ∀ {w : W} {scope : FrameId} {names : List String} {values : List Value},
    (r w).frame scope → (∀ n ∈ names, (r w).expression (.symbol n)) →
    (∀ v ∈ values, (r w).value v) →
    R w (fun w => Shared (r w).frame) (Action.extend scope names values)
      (Action.extend scope names (values.map (Value.rename ρ)))
  define : ∀ {w : W} {frame : FrameId} {name : String} {value : Value}, (r w).frame frame →
    (r w).expression (.symbol name) → (r w).value value →
    R w (fun _ _ _ => True) (Action.define frame name value)
      (Action.define frame name (value.rename ρ))
  closure? : ∀ {w : W} {id : ClosureId}, (r w).value (.closure id) →
    R w (fun w => Shared fun found => ∀ c ∈ found, (r w).closure c) (Action.closure? id)
      (Action.closure? (ρ id))
  checkCount : ∀ {w : W} {id : ClosureId} (got : Nat) {e : Value}, (r w).value (.closure id) →
    (r w).expression e →
    R w (fun _ _ _ => True) (Action.checkCount id got e) (Action.checkCount (ρ id) got e)
  loopName? : ∀ {w : W} {id : ClosureId} {c : Closure}, (r w).value (.closure id) →
    (r w).closure c →
    R w (fun w => Shared fun loop => ∀ name ∈ loop, (r w).expression (.symbol name))
      (do return m.loopName? (← get) id c) (do return m.loopName? (← get) (ρ id) c)
  bindLoop : ∀ {w : W} {frame : FrameId} {name : String}, (r w).frame frame →
    (r w).expression (.symbol name) →
    R w (fun _ _ _ => True) (modify fun s => s.bind frame name (.function "recur" .any .recur))
      (modify fun s => s.bind frame name (.function "recur" .any .recur))
  overwrite : ∀ {w : W} {frame : FrameId} {name : String} {value : Value}, (r w).frame frame →
    (r w).expression (.symbol name) → (r w).value value →
    R w (fun _ _ _ => True)
      (modify fun s => s.bind ((s.frameOf? name (s.chain frame)).getD frame) name value)
      (modify fun s =>
        s.bind ((s.frameOf? name (s.chain frame)).getD frame) name (value.rename ρ))

/-- Two ways of applying closures that can stand in for each other. One may be at its end if that is
related to every action. -/
inductive CallsCorrelated (r : W → Realm) (ρ : ClosureId → ClosureId)
    (R : W → {α : Type} → (W → α → α → Prop) → Action α → Action α → Prop) :
    Option Call → Option Call → Prop where
  | none : CallsCorrelated r ρ R none none
  | some {f g : Call} (h : ∀ w id args, (r w).value (.closure id) → (∀ v ∈ args, (r w).value v) →
      R w (fun w => (r w).Copy ρ) (f id args) (g (ρ id) (args.map (Value.rename ρ)))) :
    CallsCorrelated r ρ R (some f) (some g)
  | spentLeft {g : Call} (h : ∀ {α : Type} w (P : W → α → α → Prop) (b : Action α),
      R w P (Action.evalFault .depthExceeded) b) : CallsCorrelated r ρ R none (some g)
  | spentRight {f : Call} (h : ∀ {α : Type} w (P : W → α → α → Prop) (a : Action α),
      R w P a (Action.evalFault .depthExceeded)) : CallsCorrelated r ρ R (some f) none

/-- A relation that knows of no worlds, in the only world there is. -/
def InOneWorld (R : {α : Type} → (α → α → Prop) → Action α → Action α → Prop) (_ : Action.Still)
    {α : Type} (P : Action.Still → α → α → Prop) (a b : Action α) : Prop := R (P ⟨⟩) a b

namespace Correlates

variable {m : Machine} {r : W → Realm} {ρ : ClosureId → ClosureId}
  {R : W → {α : Type} → (W → α → α → Prop) → Action α → Action α → Prop}
  (h : m.Correlates r ρ R) {w : W}

include h

theorem copy_mono {w' : W} (hw : w ≤ w') {v v' : Value} (hv : (r w).Copy ρ v v') :
    (r w').Copy ρ v v' :=
  ⟨hv.1, (h.mono hw).value v hv.2⟩

theorem returnNil : R w (fun w => (r w).Copy ρ) (pure .nil) (pure .nil) := h.value (h.closed w).nil

theorem returnEmpty : R w (fun w => (r w).Copies ρ) (pure []) (pure []) :=
  h.values fun _ hv => absurd hv List.not_mem_nil

theorem returnPair {a b a' b' : Value} (ha : (r w).Copy ρ a a') (hb : (r w).Copy ρ b b') :
    R w (fun w => (r w).Copy ρ) (pure (.pair a b)) (pure (.pair a' b')) := by
  obtain ⟨rfl, ha⟩ := ha
  obtain ⟨rfl, hb⟩ := hb
  exact h.value ((h.closed w).pair.mpr ⟨ha, hb⟩)

/-- A result and the ones after it. -/
theorem returnCons {v v' : Value} {vs vs' : List Value} (hv : (r w).Copy ρ v v')
    (hvs : (r w).Copies ρ vs vs') :
    R w (fun w => (r w).Copies ρ) (pure (v :: vs)) (pure (v' :: vs')) := by
  obtain ⟨rfl, hv⟩ := hv
  obtain ⟨rfl, hvs⟩ := hvs
  exact h.values (List.forall_mem_cons.mpr ⟨hv, hvs⟩)

theorem checkArity (arity : Arity) (got : Nat) :
    R w (fun _ _ _ => True) (Action.ofExcept (arity.check got))
      (Action.ofExcept (arity.check got)) := by
  cases arity.check got with
  | error e => exact h.fail e
  | ok _ => exact h.unit

theorem checkList {v : Value} (hv : (r w).expression v) :
    R w (fun _ _ _ => True) (Action.checkList v) (Action.checkList v) := by
  unfold Action.checkList
  split
  · exact h.unit
  · exact h.failText _ ((h.closed w).ending hv)

/-- What follows the names of a binding list. -/
theorem bind_boundNames {α : Type} {P : W → α → α → Prop} {form : SpecialForm} {bindings : Value}
    (hbindings : (r w).expression bindings) {f g : List String → Action α}
    (hfg : ∀ w', w ≤ w' → ∀ names, (∀ n ∈ names, (r w').expression (.symbol n)) →
      R w' P (f names) (g names)) :
    R w P (do f (← Action.ofExcept (Form.boundNames (← get) form bindings)))
      (do g (← Action.ofExcept (Form.boundNames (← get) form bindings))) := by
  have hsplit (f : List String → Action α) :
      (do f (← Action.ofExcept (Form.boundNames (← get) form bindings))) =
        (do Action.ofExcept (Form.boundNames (← get) form bindings) : Action _) >>= f := rfl
  rw [hsplit f, hsplit g]
  refine h.bind (h.boundNames hbindings) fun w' hw names names' hnames => ?_
  obtain ⟨rfl, hnames⟩ := hnames
  exact hfg w' hw names' hnames

theorem evalAtom {scope : FrameId} (hscope : (r w).frame scope) {e : Value}
    (he : (r w).expression e) (hatom : ∀ a b, e = .pair a b → False) :
    R w (fun w => (r w).Copy ρ) (m.evalAtom scope e) (m.evalAtom scope e) := by
  have hliteral (hsymbol : ∀ name, e = .symbol name → False) :
      R w (fun w => (r w).Copy ρ) (pure e) (pure e) := by
    have hvalue := h.value ((h.closed w).literal he hatom hsymbol)
    rwa [h.fixed he] at hvalue
  cases e with
  | symbol name => exact h.lookup hscope he
  | _ => exact hliteral (by simp)

theorem evalLambda {scope : FrameId} (hscope : (r w).frame scope) {e : Value}
    (he : (r w).expression e) :
    R w (fun w => (r w).Copy ρ) (Machine.evalLambda scope e) (Machine.evalLambda scope e) := by
  unfold Machine.evalLambda
  split
  · obtain ⟨hparams, hrest⟩ := (h.closed w).parts he
    exact h.makeClosure hscope hparams ((h.closed w).parts hrest).1
  · exact h.fail _

theorem rebind {frame : FrameId} {params : List String} {args : List Value}
    (hframe : (r w).frame frame) (hparams : ∀ p ∈ params, (r w).expression (.symbol p))
    (hargs : ∀ v ∈ args, (r w).value v) :
    R w (fun _ _ _ => True) (Machine.rebind frame params args)
      (Machine.rebind frame params (args.map (Value.rename ρ))) := by
  induction params generalizing args w with
  | nil => exact h.unit
  | cons param params ih =>
    rw [List.forall_mem_cons] at hparams
    cases args with
    | nil => exact h.unit
    | cons arg args =>
      rw [List.forall_mem_cons] at hargs
      refine h.bind (h.overwrite hframe hparams.1 hargs.1) fun w' hw _ _ _ => ?_
      exact ih ((h.mono hw).frame _ hframe) (fun p hp => (h.mono hw).expression _ (hparams.2 p hp))
        fun v hv => (h.mono hw).value _ (hargs.2 v hv)

section

set_option linter.unusedSectionVars false

variable {call call' : Option Call} (calls : CallsCorrelated r ρ R call call')

include calls

theorem evalWith_atom {scope : FrameId} (hscope : (r w).frame scope) {e : Value}
    (he : (r w).expression e) (hatom : ∀ a b, e = .pair a b → False) :
    R w (fun w => (r w).Copy ρ) (m.evalWith call scope e) (m.evalWith call' scope e) := by
  cases calls with
  | none =>
    rw [m.evalWith_none rfl]
    exact h.fail _
  | some hcalls =>
    rw [m.evalWith_atom rfl scope hatom, m.evalWith_atom rfl scope hatom]
    exact h.evalAtom hscope he hatom
  | spentLeft hspent =>
    rw [m.evalWith_none rfl]
    exact hspent _ _ _
  | spentRight hspent =>
    rw [m.evalWith_none rfl scope e]
    exact hspent _ _ _

mutual

theorem evalWith {w : W} {scope : FrameId} (hscope : (r w).frame scope) {e : Value}
    (he : (r w).expression e) :
    R w (fun w => (r w).Copy ρ) (m.evalWith call scope e) (m.evalWith call' scope e) := by
  cases e with
  | pair operator operands =>
    obtain ⟨hoperator, hoperands⟩ := (h.closed w).parts he
    have hvalue := evalWith hscope hoperator
    have hargs {w' : W} (hw : w ≤ w') :=
      evalArgs ((h.mono hw).frame _ hscope) ((h.mono hw).expression _ hoperands)
    have helements {w' : W} (hw : w ≤ w') :=
      evalElements ((h.mono hw).frame _ hscope) ((h.mono hw).expression _ hoperands)
    have hform (form : SpecialForm) {w' : W} (hw : w ≤ w') :
        R w' (fun w => (r w).Copy ρ) (m.evalForm call scope form operands)
          (m.evalForm call' scope form operands) := by
      have hscope := (h.mono hw).frame _ hscope
      have hoperands := (h.mono hw).expression _ hoperands
      cases form with
      | lambda => exact h.evalLambda hscope hoperands
      | define => exact evalDefine hscope hoperands
      | letIn => exact evalLetIn hscope hoperands
      | letRec => exact evalLetRec hscope hoperands
      | ifElse => exact evalIfElse hscope hoperands
      | cond => exact evalCond hscope hoperands
    cases calls with
    | none =>
      rw [m.evalWith_none rfl]
      exact h.fail _
    | spentLeft hspent =>
      rw [m.evalWith_none rfl]
      exact hspent _ _ _
    | spentRight hspent =>
      rw [m.evalWith_none rfl scope (.pair operator operands)]
      exact hspent _ _ _
    | some hcalls =>
      rw [m.evalWith_pair rfl, m.evalWith_pair rfl]
      refine h.within he (h.bind hvalue fun w₁ hw₁ v v' hcopy => ?_)
      obtain ⟨rfl, hv⟩ := id hcopy
      cases v with
      | function name arity body =>
        refine h.bind (hargs hw₁) fun w₂ hw₂ args args' hargs => ?_
        obtain ⟨rfl, hargs⟩ := hargs
        rw [List.length_map]
        refine h.bind (h.checkArity arity args.length) fun w₃ hw₃ _ _ _ => ?_
        exact h.run ((h.mono (hw₂.trans hw₃)).value _ hv)
          fun v hv => (h.mono hw₃).value _ (hargs v hv)
      | closure id =>
        refine h.bind (hargs hw₁) fun w₂ hw₂ args args' hargs => ?_
        obtain ⟨rfl, hargs⟩ := hargs
        rw [List.length_map]
        have hid := (h.mono hw₂).value _ hv
        have he := (h.mono (hw₁.trans hw₂)).expression _ he
        refine h.bind (h.checkCount _ hid he) fun w₃ hw₃ _ _ _ => ?_
        exact hcalls w₃ id args ((h.mono hw₃).value _ hid)
          fun v hv => (h.mono hw₃).value _ (hargs v hv)
      | special form =>
        have hoperands := (h.mono hw₁).expression _ hoperands
        exact h.bind (h.checkList hoperands) fun w₂ hw₂ _ _ _ => hform form (hw₁.trans hw₂)
      | _ =>
        exact h.bind (helements hw₁) fun w₂ hw₂ _ _ hrest =>
          h.returnPair (h.copy_mono hw₂ hcopy) hrest
  | _ => exact h.evalWith_atom calls hscope he (by simp)
termination_by e

theorem evalArgs {w : W} {scope : FrameId} (hscope : (r w).frame scope) {e : Value}
    (he : (r w).expression e) :
    R w (fun w => (r w).Copies ρ) (m.evalArgs call scope e) (m.evalArgs call' scope e) := by
  cases e with
  | nil => exact h.returnEmpty
  | pair e rest =>
    obtain ⟨hhead, hrest⟩ := (h.closed w).parts he
    refine h.bind (evalWith hscope hhead) fun w₁ hw₁ _ _ hv => ?_
    have hargs := evalArgs ((h.mono hw₁).frame _ hscope) ((h.mono hw₁).expression _ hrest)
    exact h.bind hargs fun w₂ hw₂ _ _ hvs => h.returnCons (h.copy_mono hw₂ hv) hvs
  | _ =>
    rw [m.evalArgs_eq, m.evalArgs_eq]
    exact h.failText _ he
termination_by e

theorem evalElements {w : W} {scope : FrameId} (hscope : (r w).frame scope) {e : Value}
    (he : (r w).expression e) :
    R w (fun w => (r w).Copy ρ) (m.evalElements call scope e) (m.evalElements call' scope e) := by
  cases e with
  | pair e rest =>
    obtain ⟨hhead, hrest⟩ := (h.closed w).parts he
    refine h.bind (evalWith hscope hhead) fun w₁ hw₁ _ _ hv => ?_
    have helements := evalElements ((h.mono hw₁).frame _ hscope) ((h.mono hw₁).expression _ hrest)
    exact h.bind helements fun w₂ hw₂ _ _ hv' => h.returnPair (h.copy_mono hw₂ hv) hv'
  | _ =>
    rw [m.evalElements_eq_evalWith call scope (by simp),
      m.evalElements_eq_evalWith call' scope (by simp)]
    exact h.evalWith_atom calls hscope he (by simp)
termination_by e

theorem evalDefine {w : W} {scope : FrameId} (hscope : (r w).frame scope) {e : Value}
    (he : (r w).expression e) :
    R w (fun w => (r w).Copy ρ) (m.evalDefine call scope e) (m.evalDefine call' scope e) := by
  have hdefine {w' : W} (hw : w ≤ w') {name : String} (hname : (r w).expression (.symbol name))
      {v v' : Value} (hv : (r w').Copy ρ v v') :
      R w' (fun w => (r w).Copy ρ) (do Action.define scope name v; return .nil)
        (do Action.define scope name v'; return .nil) := by
    obtain ⟨rfl, hv⟩ := hv
    exact h.bind (h.define ((h.mono hw).frame _ hscope) ((h.mono hw).expression _ hname) hv)
      fun _ _ _ _ _ => h.returnNil
  rw [Machine.evalDefine_eq, Machine.evalDefine_eq]
  split
  · obtain ⟨hsignature, hrest⟩ := (h.closed w).parts he
    obtain ⟨htarget, hparams⟩ := (h.closed w).parts hsignature
    split
    · exact h.bind (h.makeClosure hscope hparams ((h.closed w).parts hrest).1)
        fun _ hw _ _ hv => hdefine hw htarget hv
    · exact h.failText _ htarget
  · obtain ⟨htarget, hrest⟩ := (h.closed w).parts he
    exact h.bind (evalWith hscope ((h.closed w).parts hrest).1)
      fun _ hw _ _ hv => hdefine hw htarget hv
  · exact h.failText _ ((h.closed w).parts he).1
  · exact h.fail _
termination_by e

theorem evalLetIn {w : W} {scope : FrameId} (hscope : (r w).frame scope) {e : Value}
    (he : (r w).expression e) :
    R w (fun w => (r w).Copy ρ) (m.evalLetIn call scope e) (m.evalLetIn call' scope e) := by
  rw [Machine.evalLetIn_eq, Machine.evalLetIn_eq]
  split
  · obtain ⟨hbindings, hrest⟩ := (h.closed w).parts he
    have hbody := ((h.closed w).parts hrest).1
    refine h.bind_boundNames hbindings fun w₁ hw₁ names hnames => ?_
    have hinits := evalInits ((h.mono hw₁).frame _ hscope) ((h.mono hw₁).expression _ hbindings)
    refine h.bind hinits fun w₂ hw₂ values values' hvalues => ?_
    obtain ⟨rfl, hvalues⟩ := hvalues
    have hextend := h.extend ((h.mono (hw₁.trans hw₂)).frame _ hscope)
      (fun n hn => (h.mono hw₂).expression _ (hnames n hn)) hvalues
    refine h.bind hextend fun w₃ hw₃ frame frame' hframe => ?_
    obtain ⟨rfl, hframe⟩ := hframe
    exact evalWith hframe ((h.mono (hw₁.trans (hw₂.trans hw₃))).expression _ hbody)
  · exact h.fail _
termination_by e

theorem evalLetRec {w : W} {scope : FrameId} (hscope : (r w).frame scope) {e : Value}
    (he : (r w).expression e) :
    R w (fun w => (r w).Copy ρ) (m.evalLetRec call scope e) (m.evalLetRec call' scope e) := by
  rw [Machine.evalLetRec_eq, Machine.evalLetRec_eq]
  split
  · obtain ⟨hbindings, hrest⟩ := (h.closed w).parts he
    have hbody := ((h.closed w).parts hrest).1
    refine h.bind_boundNames hbindings fun w₁ hw₁ names hnames => ?_
    have hvalues : ∀ v ∈ names.map fun _ => Value.nil, (r w₁).value v := by
      simp [(h.closed w₁).nil]
    have hextend := h.extend ((h.mono hw₁).frame _ hscope) hnames hvalues
    rw [List.map_map] at hextend
    refine h.bind hextend fun w₂ hw₂ frame frame' hframe => ?_
    obtain ⟨rfl, hframe⟩ := hframe
    have hinits := bindInits hframe ((h.mono (hw₁.trans hw₂)).expression _ hbindings)
    refine h.bind hinits fun w₃ hw₃ _ _ _ => ?_
    exact evalWith ((h.mono hw₃).frame _ hframe)
      ((h.mono (hw₁.trans (hw₂.trans hw₃))).expression _ hbody)
  · exact h.fail _
termination_by e

theorem evalIfElse {w : W} {scope : FrameId} (hscope : (r w).frame scope) {e : Value}
    (he : (r w).expression e) :
    R w (fun w => (r w).Copy ρ) (m.evalIfElse call scope e) (m.evalIfElse call' scope e) := by
  rw [Machine.evalIfElse_eq, Machine.evalIfElse_eq]
  split
  · obtain ⟨htest, hrest⟩ := (h.closed w).parts he
    have hyes := ((h.closed w).parts hrest).1
    refine h.bind (evalWith hscope htest) fun w₁ hw₁ test test' hvalue => ?_
    obtain ⟨rfl, -⟩ := hvalue
    rw [Value.isTruthy_rename]
    split
    · exact evalWith ((h.mono hw₁).frame _ hscope) ((h.mono hw₁).expression _ hyes)
    · exact h.returnNil
  · obtain ⟨htest, hrest⟩ := (h.closed w).parts he
    obtain ⟨hyes, hrest⟩ := (h.closed w).parts hrest
    have hno := ((h.closed w).parts hrest).1
    refine h.bind (evalWith hscope htest) fun w₁ hw₁ test test' hvalue => ?_
    obtain ⟨rfl, -⟩ := hvalue
    rw [Value.isTruthy_rename]
    split
    · exact evalWith ((h.mono hw₁).frame _ hscope) ((h.mono hw₁).expression _ hyes)
    · exact evalWith ((h.mono hw₁).frame _ hscope) ((h.mono hw₁).expression _ hno)
  · exact h.fail _
termination_by e

theorem evalCond {w : W} {scope : FrameId} (hscope : (r w).frame scope) {e : Value}
    (he : (r w).expression e) :
    R w (fun w => (r w).Copy ρ) (m.evalCond call scope e) (m.evalCond call' scope e) := by
  rw [Machine.evalCond_eq, Machine.evalCond_eq]
  split
  · obtain ⟨hclause, hrest⟩ := (h.closed w).parts he
    split
    · obtain ⟨htest, hconsequent⟩ := (h.closed w).parts hclause
      have hyes := ((h.closed w).parts hconsequent).1
      refine h.bind (evalWith hscope htest) fun w₁ hw₁ test test' hvalue => ?_
      obtain ⟨rfl, -⟩ := hvalue
      rw [Value.isTruthy_rename]
      split
      · exact evalWith ((h.mono hw₁).frame _ hscope) ((h.mono hw₁).expression _ hyes)
      · exact evalCond ((h.mono hw₁).frame _ hscope) ((h.mono hw₁).expression _ hrest)
    · exact h.failText _ hclause
  · exact h.returnNil
termination_by e

theorem evalInits {w : W} {scope : FrameId} (hscope : (r w).frame scope) {e : Value}
    (he : (r w).expression e) :
    R w (fun w => (r w).Copies ρ) (m.evalInits call scope e) (m.evalInits call' scope e) := by
  rw [Machine.evalInits_eq, Machine.evalInits_eq]
  split
  · obtain ⟨hbinding, hrest⟩ := (h.closed w).parts he
    have hinit := ((h.closed w).parts ((h.closed w).parts hbinding).2).1
    refine h.bind (evalWith hscope hinit) fun w₁ hw₁ _ _ hv => ?_
    have hinits := evalInits ((h.mono hw₁).frame _ hscope) ((h.mono hw₁).expression _ hrest)
    exact h.bind hinits fun w₂ hw₂ _ _ hvs => h.returnCons (h.copy_mono hw₂ hv) hvs
  · exact h.returnEmpty
termination_by e

theorem bindInits {w : W} {frame : FrameId} (hframe : (r w).frame frame) {e : Value}
    (he : (r w).expression e) :
    R w (fun _ _ _ => True) (m.bindInits call frame e) (m.bindInits call' frame e) := by
  rw [Machine.bindInits_eq, Machine.bindInits_eq]
  split
  · obtain ⟨hbinding, hrest⟩ := (h.closed w).parts he
    obtain ⟨hname, hinit⟩ := (h.closed w).parts hbinding
    have hinit := evalWith hframe ((h.closed w).parts hinit).1
    refine h.bind hinit fun w₁ hw₁ value value' hvalue => ?_
    obtain ⟨rfl, hvalue⟩ := hvalue
    have hdefine := h.define ((h.mono hw₁).frame _ hframe) ((h.mono hw₁).expression _ hname) hvalue
    refine h.bind hdefine fun w₂ hw₂ _ _ _ => ?_
    exact bindInits ((h.mono (hw₁.trans hw₂)).frame _ hframe)
      ((h.mono (hw₁.trans hw₂)).expression _ hrest)
  · exact h.unit
termination_by e

end

theorem runLoop {closure : Closure} (hclosure : (r w).closure closure) {frame : FrameId}
    (hframe : (r w).frame frame) (rounds : Nat) :
    R w (fun w => (r w).Copy ρ) (m.runLoop call closure frame rounds)
      (m.runLoop call' closure frame rounds) := by
  induction rounds generalizing w with
  | zero => exact h.unfinished
  | succ rounds ih =>
    rw [m.runLoop_eq, m.runLoop_eq]
    refine h.bind (h.evalWith calls hframe ((h.closed w).body hclosure)) fun w₁ hw₁ v v' hv => ?_
    obtain ⟨rfl, hv⟩ := hv
    have hclosure := (h.mono hw₁).closure _ hclosure
    have hframe := (h.mono hw₁).frame _ hframe
    cases v with
    | tailCall args =>
      have hargs := (h.closed w₁).heads ((h.closed w₁).arguments hv)
      dsimp only [Value.rename]
      rw [Value.heads_rename, List.length_map]
      split
      · refine h.bind (h.rebind hframe ((h.closed w₁).params hclosure) hargs) fun w₂ hw₂ _ _ _ => ?_
        exact ih ((h.mono hw₂).closure _ hclosure) ((h.mono hw₂).frame _ hframe)
      · exact h.fail _
    | _ => exact h.value hv

theorem apply {id : ClosureId} (hid : (r w).value (.closure id)) {args : List Value}
    (hargs : ∀ v ∈ args, (r w).value v) :
    R w (fun w => (r w).Copy ρ) (m.apply call id args)
      (m.apply call' (ρ id) (args.map (Value.rename ρ))) := by
  rw [m.apply_eq, m.apply_eq]
  refine h.bind (h.closure? hid) fun w₁ hw₁ found found' hfound => ?_
  obtain ⟨rfl, hfound⟩ := hfound
  cases found' with
  | none => exact h.returnNil
  | some closure =>
    have hclosure : (r w₁).closure closure := hfound closure rfl
    have hname := h.loopName? ((h.mono hw₁).value _ hid) hclosure
    refine h.bind hname fun w₂ hw₂ loop loop' hloop => ?_
    obtain ⟨rfl, hloop⟩ := hloop
    have hclosure := (h.mono hw₂).closure _ hclosure
    have hextend := h.extend ((h.closed w₂).scope hclosure) ((h.closed w₂).params hclosure)
      fun v hv => (h.mono (hw₁.trans hw₂)).value _ (hargs v hv)
    refine h.bind hextend fun w₃ hw₃ frame _ hframe => ?_
    obtain ⟨rfl, hframe⟩ := hframe
    have hclosure := (h.mono hw₃).closure _ hclosure
    cases loop' with
    | none => exact h.evalWith calls hframe ((h.closed w₃).body hclosure)
    | some name =>
      have hbind := h.bindLoop hframe ((h.mono hw₃).expression _ (hloop name rfl))
      refine h.bind hbind fun w₄ hw₄ _ _ _ => ?_
      exact h.runLoop calls ((h.mono hw₄).closure _ hclosure) ((h.mono hw₄).frame _ hframe) m.rounds

end

end Correlates

end Machine

end Lisplet
