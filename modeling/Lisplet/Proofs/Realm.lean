import Lisplet.Proofs.Correlation

/-! Relations between actions that the steps of evaluation respect as long as they stay in a realm.
Such a relation speaks of actions that handle the same values. -/
namespace Lisplet

namespace Machine

/-- A relation between actions, and what is known of their results, that holds of every step in the
realm `r` and itself, and of longer actions if it holds of their parts. -/
structure Respects (m : Machine) (r : Realm)
    (R : {α : Type} → (α → Prop) → Action α → Action α → Prop) : Prop extends r.Closed where
  pure : ∀ {α : Type} {P : α → Prop} {v : α}, P v → R P (pure v) (pure v)
  bind : ∀ {α β : Type} {P : α → Prop} {Q : β → Prop} {a b : Action α} {f g : α → Action β},
    R P a b → (∀ v, P v → R Q (f v) (g v)) → R Q (a >>= f) (b >>= g)
  within : ∀ {α : Type} {P : α → Prop} {a b : Action α} (e : Value), R P a b →
    R P (Action.within e a) (Action.within e b)
  read : ∀ {α : Type} {P : α → Prop} {a : Action α}, a.Reads →
    (∀ s v, (a s).1 = .ok v → P v) → R P a a
  unfinished : ∀ {α : Type} {P : α → Prop}, R P (throw .unfinished) (throw .unfinished)
  lookup : ∀ {scope : FrameId} {name : String}, r.frame scope → r.expression (.symbol name) →
    R r.value (m.lookup scope name) (m.lookup scope name)
  run : ∀ {name : String} {arity : Arity} {body : Procedure} {args : List Value},
    r.value (.function name arity body) → (∀ v ∈ args, r.value v) →
    R r.value (m.run body args) (m.run body args)
  makeClosure : ∀ {scope : FrameId} {params body : Value}, r.frame scope → r.expression params →
    r.expression body →
    R r.value (Action.makeClosure scope params body) (Action.makeClosure scope params body)
  extend : ∀ {scope : FrameId} {names : List String} {values : List Value}, r.frame scope →
    (∀ n ∈ names, r.expression (.symbol n)) → (∀ v ∈ values, r.value v) →
    R r.frame (Action.extend scope names values) (Action.extend scope names values)
  define : ∀ {frame : FrameId} {name : String} {value : Value}, r.frame frame →
    r.expression (.symbol name) → r.value value →
    R (fun _ => True) (Action.define frame name value) (Action.define frame name value)
  closure? : ∀ {id : ClosureId}, r.value (.closure id) →
    R (fun found => ∀ c ∈ found, r.closure c) (Action.closure? id) (Action.closure? id)
  checkCount : ∀ (id : ClosureId) (got : Nat) (e : Value),
    R (fun _ => True) (Action.checkCount id got e) (Action.checkCount id got e)
  loopName? : ∀ {id : ClosureId} {c : Closure}, r.closure c →
    R (fun loop => ∀ name ∈ loop, r.expression (.symbol name))
      (do return m.loopName? (← get) id c) (do return m.loopName? (← get) id c)
  bindLoop : ∀ {frame : FrameId} {name : String}, r.frame frame → r.expression (.symbol name) →
    R (fun _ => True) (modify fun s => s.bind frame name (.function "recur" .any .recur))
      (modify fun s => s.bind frame name (.function "recur" .any .recur))
  overwrite : ∀ {frame : FrameId} {name : String} {value : Value}, r.frame frame →
    r.expression (.symbol name) → r.value value →
    R (fun _ => True)
      (modify fun s => s.bind ((s.frameOf? name (s.chain frame)).getD frame) name value)
      (modify fun s => s.bind ((s.frameOf? name (s.chain frame)).getD frame) name value)

/-- Two ways of applying closures that can stand in for each other. The first may be at its end if
every action is related to that. -/
inductive CallsRelated (r : Realm) (R : {α : Type} → (α → Prop) → Action α → Action α → Prop) :
    Option Call → Option Call → Prop where
  | none : CallsRelated r R none none
  | some {f g : Call} (h : ∀ id args, r.value (.closure id) → (∀ v ∈ args, r.value v) →
      R r.value (f id args) (g id args)) : CallsRelated r R (some f) (some g)
  | spent {g : Call} (h : ∀ {α : Type} (P : α → Prop) (b : Action α),
      R P (Action.evalFault .depthExceeded) b) : CallsRelated r R none (some g)

/-- A relation between actions as one between the actions and their results, which are the same. -/
def OnDiagonal (R : {α : Type} → (α → Prop) → Action α → Action α → Prop) (_ : Action.Still)
    {α : Type} (P : Action.Still → α → α → Prop) (a b : Action α) : Prop :=
  R (fun v => P ⟨⟩ v v) a b

namespace OnDiagonal

variable {R : {α : Type} → (α → Prop) → Action α → Action α → Prop} {w : Action.Still}

theorem shared_iff {α : Type} {P : α → Prop} {a b : Action α} :
    OnDiagonal R w (fun _ => Shared P) a b ↔ R P a b := by
  have hsame : (fun v => Shared P v v) = P := by
    funext v
    simp [Shared]
  rw [OnDiagonal, hsame]

theorem copy_iff {r : Realm} {a b : Action Value} :
    OnDiagonal R w (fun _ => r.Copy id) a b ↔ R r.value a b := by
  have hsame : r.Copy id = Shared r.value := by
    funext v w
    simp [Realm.Copy, Shared]
  rw [hsame, shared_iff]

end OnDiagonal

theorem CallsRelated.correlated {r : Realm}
    {R : {α : Type} → (α → Prop) → Action α → Action α → Prop} {call call' : Option Call}
    (calls : CallsRelated r R call call') :
    CallsCorrelated (fun _ => r) id (OnDiagonal R) call call' := by
  cases calls with
  | none => exact .none
  | some hcalls =>
    refine .some fun _ id args hid hargs => ?_
    rw [Value.map_rename_id]
    exact OnDiagonal.copy_iff.mpr (hcalls id args hid hargs)
  | spent hspent => exact .spentLeft fun _ P b => hspent _ b

namespace Respects

variable {m : Machine} {r : Realm} {R : {α : Type} → (α → Prop) → Action α → Action α → Prop}
  (h : m.Respects r R)

include h

/-- Steps that keep the identities of closures are a case of steps that rename them. -/
theorem correlates : m.Correlates (fun _ => r) id (OnDiagonal R) where
  closed _ := h.toClosed
  mono _ := .refl r
  fixed _ := Value.rename_id _
  unit := h.pure trivial
  value hv := by
    rw [Value.rename_id]
    exact OnDiagonal.copy_iff.mpr (h.pure hv)
  values hvs := by
    rw [Value.map_rename_id]
    exact h.pure ⟨(Value.map_rename_id _).symm, hvs⟩
  bind hab hfg := h.bind hab fun v hv => hfg ⟨⟩ le_rfl v v hv
  within _ hab := h.within _ hab
  fail e := h.read (.fail e) nofun
  failText e _ := h.read (.fail_text _ e) nofun
  unfinished := h.unfinished
  boundNames hbindings := by
    refine OnDiagonal.shared_iff.mpr (h.read (.boundNames _ _) fun s names hnames => ?_)
    exact h.toClosed.boundNames hbindings (Action.eq_ok_of_ofExcept hnames)
  lookup hscope hname := OnDiagonal.copy_iff.mpr (h.lookup hscope hname)
  run hbody hargs := by
    rw [Value.map_rename_id]
    exact OnDiagonal.copy_iff.mpr (h.run hbody hargs)
  makeClosure hscope hparams hbody := OnDiagonal.copy_iff.mpr (h.makeClosure hscope hparams hbody)
  extend hscope hnames hvalues := by
    rw [Value.map_rename_id]
    exact OnDiagonal.shared_iff.mpr (h.extend hscope hnames hvalues)
  define hframe hname hvalue := by
    rw [Value.rename_id]
    exact h.define hframe hname hvalue
  closure? hid := OnDiagonal.shared_iff.mpr (h.closure? hid)
  checkCount got _ _ _ := h.checkCount _ got _
  loopName? _ hc := OnDiagonal.shared_iff.mpr (h.loopName? hc)
  bindLoop hframe hname := h.bindLoop hframe hname
  overwrite hframe hname hvalue := by
    rw [Value.rename_id]
    exact h.overwrite hframe hname hvalue

theorem evalWith {call call' : Option Call} (calls : CallsRelated r R call call')
    {scope : FrameId} (hscope : r.frame scope) {e : Value} (he : r.expression e) :
    R r.value (m.evalWith call scope e) (m.evalWith call' scope e) :=
  OnDiagonal.copy_iff.mp (h.correlates.evalWith calls.correlated (w := ⟨⟩) hscope he)

theorem apply {call call' : Option Call} (calls : CallsRelated r R call call') {id : ClosureId}
    (hid : r.value (.closure id)) {args : List Value} (hargs : ∀ v ∈ args, r.value v) :
    R r.value (m.apply call id args) (m.apply call' id args) := by
  have happly := h.correlates.apply calls.correlated (w := ⟨⟩) hid hargs
  rw [Value.map_rename_id] at happly
  exact OnDiagonal.copy_iff.mp happly

/-- As many calls in progress are related to themselves. -/
theorem callAt (depth : Nat) : CallsRelated r R (m.callAt depth) (m.callAt depth) := by
  induction depth with
  | zero => exact .none
  | succ depth ih => exact .some fun id args hid hargs => h.apply ih hid hargs

theorem evalAt (depth : Nat) {scope : FrameId} (hscope : r.frame scope) {e : Value}
    (he : r.expression e) : R r.value (m.evalAt depth scope e) (m.evalAt depth scope e) :=
  h.evalWith (h.callAt depth) hscope he

end Respects

end Machine

end Lisplet
