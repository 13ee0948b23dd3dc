import Lisplet.Proofs.Realm

/-! Relations between actions that every step of evaluation respects, whatever it meets. Two
evaluations of one expression are related if the calls of closures in them are. -/
namespace Lisplet

namespace Machine

/-- A step of evaluation in which nothing else is evaluated. -/
inductive Step (m : Machine) : {α : Type} → Action α → Prop where
  | read {α : Type} {a : Action α} (h : a.Reads) : Step m a
  | unfinished {α : Type} : Step m (throw .unfinished : Action α)
  | lookup (scope : FrameId) (name : String) : Step m (m.lookup scope name)
  | run (body : Procedure) (args : List Value) : Step m (m.run body args)
  | makeClosure (scope : FrameId) (params body : Value) :
    Step m (Action.makeClosure scope params body)
  | extend (scope : FrameId) (names : List String) (values : List Value) :
    Step m (Action.extend scope names values)
  | define (frame : FrameId) (name : String) (value : Value) :
    Step m (Action.define frame name value)
  | checkCount (id : ClosureId) (got : Nat) (e : Value) : Step m (Action.checkCount id got e)
  | closure? (id : ClosureId) : Step m (Action.closure? id)
  | loopName? (id : ClosureId) (closure : Closure) :
    Step m (return m.loopName? (← get) id closure)
  | bind (frame : FrameId) (name : String) (value : Value) :
    Step m (modify fun s => s.bind frame name value)
  | rebind (frame : FrameId) (name : String) (value : Value) :
    Step m (modify fun s => s.bind ((s.frameOf? name (s.chain frame)).getD frame) name value)

/-- A relation between actions that holds of every step and itself, and of longer actions if it
holds of their parts. What follows an action matters for the results of the action only. -/
structure Congruence (m : Machine) (R : {α : Type} → Action α → Action α → Prop) :
    Prop where
  step : ∀ {α : Type} {a : Action α}, m.Step a → R a a
  bind : ∀ {α β : Type} {a b : Action α} {f g : α → Action β}, R a b →
    (∀ v, (∃ s, (a s).1 = .ok v) → R (f v) (g v)) → R (a >>= f) (b >>= g)
  within : ∀ {α : Type} {a b : Action α} (e : Value), R a b →
    R (Action.within e a) (Action.within e b)

namespace Congruence

variable {m : Machine} {R : {α : Type} → Action α → Action α → Prop} (h : m.Congruence R)

include h

theorem pure {α : Type} (v : α) : R (pure v : Action α) (pure v : Action α) :=
  h.step (.read ⟨fun _ => rfl, fun _ _ _ => rfl⟩)

/-- A relation that every step respects is one that steps respect in the realm of everything. -/
theorem respects : m.Respects .all fun P a b => R a b ∧ ∀ s v, (a s).1 = .ok v → P v where
  toClosed := Realm.all_closed
  pure hv := ⟨h.pure _, fun _ _ hw => Except.ok.inj hw ▸ hv⟩
  bind := by
    rintro α β P Q a b f g ⟨hab, hP⟩ hfg
    refine ⟨h.bind hab fun v ⟨s, hv⟩ => (hfg v (hP s v hv)).1, fun s w hw => ?_⟩
    rcases ha : a s with ⟨stop | v, s'⟩
    · rw [Action.bind_error ha] at hw
      cases hw
    · rw [Action.bind_ok ha] at hw
      exact (hfg v (hP s v (by rw [ha]))).2 s' w hw
  within e hab := ⟨h.within e hab.1, fun s v hv =>
    hab.2 s v ((Action.within_ok_iff e _ s v).mp hv)⟩
  read ha hP := ⟨h.step (.read ha), hP⟩
  unfinished := ⟨h.step .unfinished, nofun⟩
  lookup _ _ := ⟨h.step (.lookup _ _), fun _ _ _ => trivial⟩
  run _ _ := ⟨h.step (.run _ _), fun _ _ _ => trivial⟩
  makeClosure _ _ _ := ⟨h.step (.makeClosure _ _ _), fun _ _ _ => trivial⟩
  extend _ _ _ := ⟨h.step (.extend _ _ _), fun _ _ _ => trivial⟩
  define _ _ _ := ⟨h.step (.define _ _ _), fun _ _ _ => trivial⟩
  closure? _ := ⟨h.step (.closure? _), fun _ _ _ _ _ => trivial⟩
  checkCount id got e := ⟨h.step (.checkCount id got e), fun _ _ _ => trivial⟩
  loopName? _ := ⟨h.step (.loopName? _ _), fun _ _ _ _ _ => trivial⟩
  bindLoop _ _ := ⟨h.step (.bind _ _ _), fun _ _ _ => trivial⟩
  overwrite _ _ _ := ⟨h.step (.rebind _ _ _), fun _ _ _ => trivial⟩

theorem evalAt (depth : Nat) (scope : FrameId) (e : Value) :
    R (m.evalAt depth scope e) (m.evalAt depth scope e) :=
  (h.respects.evalAt depth trivial trivial).1

end Congruence

end Machine

end Lisplet
