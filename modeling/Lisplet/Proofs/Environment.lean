import Lisplet.Environment
import Lisplet.Proofs.Simulation

/-! Where evaluation leaves an environment. On its way it enters and leaves frames; however it ends,
the environment stands in the frame that it stood in, and around that are the frames that were. -/
namespace Lisplet

namespace Environment

/-- What is there is kept: the global bindings, the functions of the host, and the frames around
every frame. -/
structure Kept (σ τ : Environment) : Prop where
  machine : τ.machine = σ.machine
  globalRefs : τ.globalRefs = σ.globalRefs
  observers : τ.observers = σ.observers
  size_le : σ.store.frames.size ≤ τ.store.frames.size
  chain (f : FrameId) (hf : f.index < σ.store.frames.size) : τ.store.chain f = σ.store.chain f

/-- The same, and the present frame is what it was. -/
structure Restored (σ τ : Environment) : Prop extends Kept σ τ where
  scope : τ.scope = σ.scope

variable {σ τ υ : Environment}

namespace Kept

theorem trans (h : Kept σ τ) (h' : Kept τ υ) : Kept σ υ where
  machine := h'.machine.trans h.machine
  globalRefs := h'.globalRefs.trans h.globalRefs
  observers := h'.observers.trans h.observers
  size_le := Nat.le_trans h.size_le h'.size_le
  chain f hf := (h'.chain f (Nat.lt_of_lt_of_le hf h.size_le)).trans (h.chain f hf)

/-- What is retained of the store is kept, whatever becomes of the heap. -/
theorem of_retains {s : Store} {writable : FrameId → Prop} (hs : Store.Retains writable σ.store s)
    (heap : Heap) (frameRefs : Array (Bindings Ref)) :
    Kept σ { σ with store := s, heap, frameRefs } :=
  ⟨rfl, rfl, rfl, hs.size_le, hs.chain⟩

theorem enter (h : Kept σ τ) (f g : FrameId) : Kept (σ.enter f) (τ.enter g) :=
  ⟨h.machine, h.globalRefs, h.observers, h.size_le, h.chain⟩

end Kept

theorem pop_eq (σ : Environment) : σ.pop = σ.enter σ.pop.scope := by
  simp only [pop, enter, Interpreter.pop]
  split <;> rfl

theorem extend_kept (σ : Environment) (names : List String) (values : List Located) :
    Kept σ (σ.extend names values) :=
  (Kept.of_retains ((Store.Retains.refl (fun _ => False) σ.store).pushFrame (some σ.scope) _)
    σ.heap _).enter σ.scope _

/-- A frame that was entered, and in which the environment stands again, is left for the one that it
was entered from. -/
theorem Restored.pop {names : List String} {values : List Located}
    (h : Restored (σ.extend names values) τ) : Restored σ τ.pop := by
  have hkept := (extend_kept σ names values).trans h.toKept
  obtain ⟨outer, houter⟩ := σ.store.chain_eq_cons σ.scope
  have hchain : τ.toInterpreter.chain = (σ.extend names values).scope :: σ.scope :: outer := by
    have hnew := h.chain (σ.extend names values).scope (by simp [extend, Interpreter.extend])
    rw [Interpreter.chain, h.scope, hnew, ← houter]
    exact σ.store.chain_pushFrame σ.scope _
  have hscope : τ.pop.scope = σ.scope := by
    simp only [Environment.pop, Interpreter.pop, hchain]
  rw [pop_eq, hscope]
  exact ⟨hkept.enter σ.scope σ.scope, rfl⟩

theorem Restored.refl (σ : Environment) : Restored σ σ :=
  ⟨.of_retains (.refl (fun _ => False) σ.store) σ.heap σ.frameRefs, rfl⟩

theorem Restored.trans (h : Restored σ τ) (h' : Restored τ υ) : Restored σ υ :=
  ⟨h.toKept.trans h'.toKept, h'.scope.trans h.scope⟩

theorem Restored.of_retains {s : Store} {writable : FrameId → Prop}
    (hs : Store.Retains writable σ.store s) (heap : Heap) (frameRefs : Array (Bindings Ref)) :
    Restored σ { σ with store := s, heap, frameRefs } :=
  ⟨.of_retains hs heap frameRefs, rfl⟩

theorem bindIn_restored (σ : Environment) (frame : FrameId) (name : String) (v : Located) :
    Restored σ (σ.bindIn frame name v) :=
  .of_retains ((Store.Retains.refl (fun _ => True) σ.store).bind (.inl trivial) name v.value) _ _

end Environment

namespace Evaluation

open Environment (Restored bindIn_restored)

variable {α β : Type}

/-- An error may be changed on its way out, but not the environment. -/
theorem within_apply (e : Value) (x : Evaluation α) (σ : Environment) :
    within e x σ =
      ((Action.within e (fun s => ((x σ).1, s)) (x σ).2.store).1, (x σ).2) := by
  rcases h : x σ with ⟨result, τ⟩
  have hstore : (Action.within e (fun s => (result, s)) τ.store).2 = τ.store :=
    Action.within_store e _ τ.store
  simp only [Evaluation.within, act, h]
  change (_, { τ with store := (Action.within e (fun s => (result, s)) τ.store).2 }) = _
  rw [hstore]
  rfl

def Restores (x : Evaluation α) : Prop := ∀ σ, Restored σ (x σ).2

namespace Restores

theorem pure (a : α) : Restores (pure a) := Restored.refl

theorem bind {x : Evaluation α} {f : α → Evaluation β} (hx : x.Restores)
    (hf : ∀ a, (f a).Restores) : Restores (x >>= f) := by
  intro σ
  have hσ := hx σ
  rcases h : x σ with ⟨_ | a, τ⟩ <;> rw [h] at hσ
  · rw [bind_of_error h]
    exact hσ
  · rw [bind_of_ok h]
    exact hσ.trans (hf a τ)

theorem get_bind {f : Environment → Evaluation α} (hf : ∀ σ, (f σ).Restores) :
    Restores (MonadState.get >>= f) :=
  fun σ => hf σ σ

theorem modify {f : Environment → Environment} (hf : ∀ σ, Restored σ (f σ)) :
    Restores (modify f) :=
  hf

theorem act {a : Action α} (ha : ∀ s, Action.Holds (Store.Retains (fun _ => False) s) a) :
    Restores (act a) := by
  intro σ
  obtain ⟨-, -, hs, -⟩ := ha σ.store σ.store (.refl _ _)
  exact .of_retains hs σ.heap σ.frameRefs

theorem allocate (a : StateM Heap α) : Restores (allocate a) :=
  fun σ => .of_retains (.refl (fun _ => False) σ.store) _ σ.frameRefs

theorem locate (v : Value) : Restores (locate v) :=
  .bind (.allocate _) fun _ => .pure _

theorem within (e : Value) {x : Evaluation α} (hx : x.Restores) : Restores (within e x) := by
  intro σ
  rw [within_apply]
  exact hx σ

theorem atom (e : Value) : Restores (atom e) := by
  refine .get_bind fun σ => ?_
  have hact := act fun _ => σ.machine.evalAtom_retains σ.scope e
  refine .bind hact fun v => ?_
  split
  · split
    · exact .pure _
    · exact .locate v
  · exact .locate v

theorem run (body : Procedure) (args : List Located) : Restores (run body args) := by
  have hrun (m : Machine) (s : Store) : Action.Holds (Store.Retains (fun _ => False) s)
      (m.run body (Located.values args)) :=
    m.run_holds body _ fun p => Action.local_retains (p.run_local _)
  refine .get_bind fun σ => ?_
  cases body with
  | primitive p => exact .bind (.act (hrun σ.machine)) fun v => .bind (.allocate _) fun _ => .pure _
  | recur => exact .pure _
  | host slot =>
    dsimp only
    split
    · refine .bind (.act fun s => ?_) .locate
      exact Action.Keeps.ofExcept fun _ _ => trivial
    · exact .bind (.act (hrun σ.machine)) .locate

theorem define (frame : FrameId) (name : String) (v : Located) : Restores (define frame name v) :=
  .modify fun σ => by
    have hnamed := (Store.Retains.refl (fun _ => False) σ.store).of_frames
      (σ.store.frames_nameValue name v.value)
    exact (Restored.of_retains hnamed σ.heap σ.frameRefs).trans (bindIn_restored _ frame name v)

theorem mark (frame : FrameId) (name : String) : Restores (mark frame name) :=
  .modify fun σ => σ.bindIn_restored frame name _

theorem rebind (frame : FrameId) (params : List String) (args : List Located) :
    Restores (rebind frame params args) := by
  unfold Evaluation.rebind
  induction params.zip args with
  | nil => exact .pure _
  | cons entry entries ih => exact .bind (.modify fun σ => σ.bindIn_restored _ _ _) fun _ => ih

theorem inFrame (names : List String) (values : List Located) {body : FrameId → Evaluation α}
    (hbody : ∀ frame, (body frame).Restores) : Restores (inFrame names values body) :=
  fun σ => Restored.pop (hbody (σ.extend names values).scope (σ.extend names values))

theorem inScope (scope : FrameId) {body : Evaluation α} (hbody : body.Restores) :
    Restores (inScope scope body) := by
  intro σ
  have hkept := (hbody (σ.enter scope)).toKept.enter σ.scope σ.scope
  exact ⟨hkept, rfl⟩

end Restores

/-- Two outcomes are the same error, or results that are related. -/
inductive Ends {α β : Type} (post : α → β → Prop) : Except Stop α → Except Stop β → Prop
  | ok {a : α} {b : β} (h : post a b) : Ends post (.ok a) (.ok b)
  | error (stop : Stop) : Ends post (.error stop) (.error stop)

theorem Ends.refl {post : α → α → Prop} (h : ∀ a, post a a) (r : Except Stop α) :
    Ends post r r := by
  cases r with
  | ok a => exact .ok (h a)
  | error stop => exact .error stop

open Setting (Bridge InStep)

/-- What restores the environment, next to what does the same. -/
def restoring : Bridge Action.Still Located Located Evaluation Evaluation where
  values _ v v' := v = v'
  steps w post x y :=
    ∀ σ, Restored σ (x σ).2 ∧ (x σ).2 = (y σ).2 ∧ Ends (post w) (x σ).1 (y σ).1

section

variable {w : Action.Still} {post : Action.Still → α → α → Prop} {x y : Evaluation α}

/-- What restores the environment does the same as itself. -/
theorem restoring_refl (hx : x.Restores) (hpost : ∀ a, post w a a) :
    restoring.steps w post x x :=
  fun σ => ⟨hx σ, rfl, .refl hpost _⟩

theorem eq_of_restoring {w : Action.Still} {x y : Evaluation Located}
    (h : restoring.steps w restoring.values x y) : x = y := by
  refine funext fun σ => ?_
  obtain ⟨-, hσ, hends⟩ := h σ
  refine Prod.ext ?_ hσ
  generalize (x σ).1 = a, (y σ).1 = b at hends
  cases hends with
  | ok h => exact congrArg Except.ok h
  | error => rfl

theorem eq_of_restoring_lists {w : Action.Still} {vs vs' : List Located}
    (h : restoring.lists w vs vs') : vs = vs' := by
  simpa [Bridge.lists, restoring] using h

end

theorem inStep_restoring {call : Option Call} (hcalls : restoring.Calls call call) :
    InStep restoring (setting call) (setting call) where
  grows _ hv := hv
  pure hv σ := ⟨.refl σ, rfl, .ok hv⟩
  bind {_ _ _ _ _ _ _ x y f g} hxy hfg σ := by
    have hσ := hxy σ
    rcases hx : x σ with ⟨_, τ⟩
    rcases hy : y σ with ⟨_, τ'⟩
    rw [hx, hy] at hσ
    obtain ⟨hrestored, rfl, hends⟩ := hσ
    cases hends with
    | error stop =>
      rw [bind_of_error hx, bind_of_error hy]
      exact ⟨hrestored, rfl, .error stop⟩
    | ok hab =>
      rw [bind_of_ok hx, bind_of_ok hy]
      obtain ⟨hnext, hends⟩ := hfg _ le_rfl _ _ hab τ
      exact ⟨hrestored.trans hnext, hends⟩
  calls := hcalls
  lift ha := restoring_refl (.act fun s => .read ha.store_eq fun _ _ _ _ => trivial) fun _ => rfl
  within operator operands hx := by
    cases eq_of_restoring hx
    exact restoring_refl (.within _ fun σ => (hx σ).1) fun _ => rfl
  value hv := congrArg _ hv
  arguments hv := by
    cases hv
    exact List.forall₂_same.mpr fun _ _ => rfl
  nil _ := rfl
  cons hv ht := by
    cases hv
    cases ht
    exact restoring_refl (.bind (.allocate _) fun _ => .pure _) fun _ => rfl
  atom _ := restoring_refl (.atom _) fun _ => rfl
  run body hargs := by
    cases eq_of_restoring_lists hargs
    exact restoring_refl (.run body _) fun _ => rfl
  scope _ := restoring_refl (.get_bind fun _ => .pure _) fun _ => rfl
  makeClosure _ scope params body :=
    restoring_refl (.bind (.act fun _ => Action.makeClosure_retains scope params body) .locate)
      fun _ => rfl
  define frame name hv := by
    cases hv
    exact restoring_refl (.define frame name _) fun _ => rfl
  inFrame names hvs hfg := by
    cases eq_of_restoring_lists hvs
    cases funext fun frame => eq_of_restoring (hfg _ le_rfl frame)
    exact restoring_refl (.inFrame names _ fun frame σ => (hfg _ le_rfl frame σ).1) fun _ => rfl
  inScope scope hx := by
    cases eq_of_restoring hx
    exact restoring_refl (.inScope scope fun σ => (hx σ).1) fun _ => rfl
  loopName? _ id closure := restoring_refl (.get_bind fun _ => .pure _) fun _ => rfl
  mark _ frame name := restoring_refl (.mark frame name) fun _ => rfl
  rebind frame params hvs := by
    cases eq_of_restoring_lists hvs
    exact restoring_refl (.rebind frame params _) fun _ => rfl

theorem runLoop_restoring {w : Action.Still} {call : Option Call}
    (hcalls : restoring.Calls call call) (closure : Closure) (frame : FrameId) (rounds : Nat) :
    restoring.steps w restoring.values (runLoop call closure frame rounds)
      (runLoop call closure frame rounds) := by
  induction rounds with
  | zero => exact restoring_refl Restored.refl fun _ => rfl
  | succ rounds ih => exact (inStep_restoring hcalls).round fun _ _ => ih

theorem callAt_restoring (depth : Nat) : restoring.Calls (callAt depth) (callAt depth) := by
  induction depth with
  | zero => exact .none
  | succ depth ih =>
    refine .some fun w id args args' hargs => (inStep_restoring ih).apply ?_ id hargs
    intro w _ closure frame σ
    exact runLoop_restoring (w := w) ih closure frame σ.machine.rounds σ

end Evaluation

namespace Environment

/-- Whatever is evaluated, in any environment, at any depth and with any outcome, the environment
stands afterwards where it stood: in the same frame, above the same global bindings, with the same
frames around every frame that there was. The names that can be looked up are in as many frames, and
the frame entered last can be left for the one before it. -/
theorem evaluation_restored (σ : Environment) (depth : Nat) (task : Task) :
    let τ := (task.evaluation depth σ).2
    Restored σ τ ∧ (σ.scope.index < σ.store.frames.size →
      τ.toInterpreter.depth = σ.toInterpreter.depth ∧ τ.pop.scope = σ.pop.scope) := by
  intro τ
  have hcalls := Evaluation.callAt_restoring depth
  have hτ : Restored σ τ := ((Evaluation.inStep_restoring hcalls).evalTask (w := ⟨⟩) task σ).1
  refine ⟨hτ, fun hscope => ?_⟩
  have hchain : τ.toInterpreter.chain = σ.toInterpreter.chain := by
    rw [Interpreter.chain, hτ.scope]
    exact hτ.chain σ.scope hscope
  refine ⟨congrArg List.length hchain, ?_⟩
  simp only [pop, Interpreter.pop, hchain]
  split
  · rfl
  · exact hτ.scope

/-- A name that is unbound in a `let` inside of a function ends the evaluation two frames further
in; the environment stands at the top again. -/
theorem evaluation_restored_unbound :
    let σ := ((standard []).evalSource "(define (f x) (let ((y (car x))) (+ y z)))").2
    let task := Task.expression (.ofList [.symbol "f", .ofList [.symbol "list", .integer 1]])
    let outcome := task.evaluation maxCallDepth σ
    outcome.1.isOk = false ∧ outcome.2.store.frames.size = σ.store.frames.size + 2 ∧
      Restored σ outcome.2 ∧ outcome.2.toInterpreter.depth = σ.toInterpreter.depth := by
  refine ⟨?_, ?_, (evaluation_restored _ _ _).1, ((evaluation_restored _ _ _).2 ?_).1⟩
  all_goals decide +kernel

end Environment

end Lisplet
