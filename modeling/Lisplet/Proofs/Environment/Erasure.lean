import Lisplet.Proofs.Environment

/-! Evaluation without regard to how values are stored, and with the present frame handed on instead
of kept. As long as no function of the host looks at the heap, it is the evaluation on the store. -/
namespace Lisplet

namespace Environment

/-- No function of the host can tell one and the same pair from two. -/
def Blind (σ : Environment) : Prop :=
  ∀ (slot : Nat) (f : Heap.Observer), σ.observers[slot]? ≠ some f

@[simp] theorem store_pop (σ : Environment) : σ.pop.store = σ.store := by
  rw [pop_eq]
  rfl

end Environment

namespace Located

theorem values_ofLists (vs : List Value) (refs : List Ref) : values (ofLists vs refs) = vs := by
  induction vs generalizing refs with
  | nil => rfl
  | cons v vs ih =>
    cases refs with
    | nil => exact congrArg (v :: ·) (ih [])
    | cons r refs => exact congrArg (v :: ·) (ih refs)

theorem values_arguments (v : Located) : values v.arguments = match v.value with
    | .tailCall args => args.heads
    | _ => [] := by
  obtain ⟨v, r⟩ := v
  cases v <;> try rfl
  cases r <;> exact values_ofLists _ _

end Located

namespace Machine

variable (m : Machine) (call : Option Call)

/-- A loop in the present frame, which is that of its parameters when it runs. -/
def runLoopHere (closure : Closure) (frame : FrameId) : Nat → ReaderT FrameId Action Value
  | 0 => fun _ => throw .unfinished
  | rounds + 1 => (m.setting call).round closure frame (runLoopHere closure frame rounds)

theorem runLoopHere_apply (closure : Closure) (frame : FrameId) (rounds : Nat) :
    m.runLoopHere call closure frame rounds frame = m.runLoop call closure frame rounds := by
  induction rounds with
  | zero => rfl
  | succ rounds ih =>
    refine congrArg (m.evalWith call frame closure.body >>= ·) (funext fun v => ?_)
    cases v with
    | tailCall args =>
      dsimp only
      split
      · exact congrArg (Machine.rebind frame closure.params args.heads >>= ·) (funext fun _ => ih)
      · rfl
    | _ => rfl

theorem apply_runLoopHere (id : ClosureId) (args : List Value) (scope : FrameId) :
    (m.setting call).apply (fun closure frame => m.runLoopHere call closure frame m.rounds) id args
      scope = m.apply call id args := by
  rw [apply, applyIn, settingIn_apply, settingIn_apply]
  refine congrArg (_ >>= ·) (funext fun found => ?_)
  cases found with
  | none => rfl
  | some closure =>
    refine congrArg (_ >>= ·) (funext fun name? => ?_)
    refine congrArg (Action.extend closure.scope closure.params args >>= ·) (funext fun frame => ?_)
    cases name? with
    | none => rfl
    | some name =>
      exact congrArg ((m.setting call).mark frame name frame >>= ·)
        (funext fun _ => m.runLoopHere_apply call closure frame m.rounds)

end Machine

namespace Evaluation

open Setting (Bridge InStep)
open Environment (Restored Blind)

/-- An evaluation in environments around the machine `m` that look at no heap, next to the one on
the store. -/
def erasing (m : Machine) :
    Bridge Action.Still Located Value Evaluation (ReaderT FrameId Action) where
  values _ v v' := v.value = v'
  steps w post x y := ∀ σ : Environment, σ.Blind → σ.machine = m → Restored σ (x σ).2 ∧
    (x σ).2.store = (y σ.scope σ.store).2 ∧ Ends (post w) (x σ).1 (y σ.scope σ.store).1

variable {m : Machine} {w : Action.Still}

theorem lists_erasing {vs : List Located} {vs' : List Value} :
    (erasing m).lists w vs vs' ↔ Located.values vs = vs' := by
  simp only [Bridge.lists, erasing, Located.values]
  rw [← List.forall₂_map_left_iff, List.forall₂_eq_eq_eq]

theorem bind_erasing {α β γ δ : Type} {mid : Action.Still → α → β → Prop}
    {post : Action.Still → γ → δ → Prop} {x : Evaluation α} {y : ReaderT FrameId Action β}
    {f : α → Evaluation γ} {g : β → ReaderT FrameId Action δ} (hxy : (erasing m).steps w mid x y)
    (hfg : ∀ w', w ≤ w' → ∀ a b, mid w' a b → (erasing m).steps w' post (f a) (g b)) :
    (erasing m).steps w post (x >>= f) (y >>= g) := by
  intro σ hblind hmachine
  have hσ := hxy σ hblind hmachine
  rcases hx : x σ with ⟨_, τ⟩
  rcases hy : y σ.scope σ.store with ⟨_, s⟩
  rw [hx, hy] at hσ
  obtain ⟨hrestored, rfl, hends⟩ := hσ
  rw [Machine.setting_bind]
  cases hends with
  | error stop =>
    rw [bind_of_error hx, bind_of_error hy]
    exact ⟨hrestored, rfl, .error stop⟩
  | ok hab =>
    rw [bind_of_ok hx, bind_of_ok hy]
    have hblind' : τ.Blind := fun slot f => hrestored.observers ▸ hblind slot f
    obtain ⟨hnext, hends⟩ := hfg _ le_rfl _ _ hab τ hblind' (hrestored.machine.trans hmachine)
    exact ⟨hrestored.trans hnext, hrestored.scope ▸ hends⟩

/-- What only does an action does the same on the store. -/
theorem act_erasing {α : Type} {a : Action α}
    (ha : ∀ s, Action.Holds (Store.Retains (fun _ => False) s) a) :
    (erasing m).steps w Bridge.same (act a) fun _ => a :=
  fun σ _ _ => ⟨Restores.act ha σ, rfl, .refl (fun _ => rfl) _⟩

/-- How a value is stored makes no difference. -/
theorem locate_erasing (v : Value) :
    (erasing m).steps w (erasing m).values (locate v) fun _ => pure v :=
  fun σ _ _ => ⟨Restores.locate v σ, rfl, .ok rfl⟩

theorem within_erasing (e : Value) {x : Evaluation Located} {y : ReaderT FrameId Action Value}
    (hxy : (erasing m).steps w (erasing m).values x y) :
    (erasing m).steps w (erasing m).values (within e x) fun scope => Action.within e (y scope) := by
  intro σ hblind hmachine
  obtain ⟨hrestored, hstore, hends⟩ := hxy σ hblind hmachine
  rw [within_apply, Action.within_store]
  refine ⟨hrestored, hstore, ?_⟩
  generalize (x σ).1 = a at hends ⊢
  rcases hy : y σ.scope σ.store with ⟨b, s⟩
  rw [hy] at hstore hends
  dsimp only
  cases hends with
  | ok hab =>
    rw [Action.within_ok rfl, Action.within_ok hy]
    exact .ok hab
  | error stop =>
    rw [Action.within_error rfl, Action.within_error hy, hstore]
    exact .error _

/-- The same where the result is then stored. -/
theorem act_bind_erasing {a : Action Value} {f : Value → Evaluation Located}
    (ha : ∀ s, Action.Holds (Store.Retains (fun _ => False) s) a)
    (hf : ∀ v, (erasing m).steps w (erasing m).values (f v) fun _ => pure v) :
    (erasing m).steps w (erasing m).values (act a >>= f) fun _ => a := by
  have hbind : (erasing m).steps w (erasing m).values (act a >>= f)
      ((fun _ => a : ReaderT FrameId Action Value) >>= fun v _ => pure v) :=
    bind_erasing (act_erasing ha) fun _ _ v v' hv => hv ▸ hf v
  have hpure : ((fun _ => a) >>= fun v _ => pure v : ReaderT FrameId Action Value) = fun _ => a :=
    funext fun _ => bind_pure a
  rwa [hpure] at hbind

theorem atom_erasing (e : Value) :
    (erasing m).steps w (erasing m).values (atom e) fun scope => m.evalAtom scope e := by
  intro σ hblind hmachine
  subst hmachine
  refine act_bind_erasing (fun _ => σ.machine.evalAtom_retains σ.scope e) ?_ σ hblind rfl
  intro v
  split
  · split
    · exact fun σ _ _ => ⟨.refl σ, rfl, .ok rfl⟩
    · exact locate_erasing v
  · exact locate_erasing v

theorem run_erasing (body : Procedure) (args : List Located) :
    (erasing m).steps w (erasing m).values (run body args) fun _ =>
      m.run body (Located.values args) := by
  intro σ hblind hmachine
  subst hmachine
  have hrun (s : Store) : Action.Holds (Store.Retains (fun _ => False) s)
      (σ.machine.run body (Located.values args)) :=
    σ.machine.run_holds body _ fun p => Action.local_retains (p.run_local _)
  cases body with
  | primitive p =>
    refine act_bind_erasing hrun (fun v => ?_) σ hblind rfl
    exact fun σ _ _ => ⟨Restores.bind (.allocate _) (fun _ => .pure _) σ, rfl, .ok rfl⟩
  | recur => exact ⟨.refl σ, rfl, .ok rfl⟩
  | host slot =>
    have hslot : run (.host slot) args σ =
        (act (σ.machine.run (.host slot) (Located.values args)) >>= locate) σ := by
      rw [run, bind_of_ok (rfl : (get : Evaluation Environment) σ = (.ok σ, σ))]
      rcases hf : σ.observers[slot]? with _ | _ | f
      · simp only [hf]
      · simp only [hf]
      · exact absurd hf (hblind slot f)
    rw [hslot]
    exact act_bind_erasing hrun locate_erasing σ hblind rfl

theorem define_erasing (frame : FrameId) (name : String) (v : Located) :
    (erasing m).steps w Bridge.same (define frame name v) fun _ =>
      Action.define frame name v.value :=
  fun σ _ _ => ⟨Restores.define frame name v σ, rfl, .ok rfl⟩

theorem rebind_erasing (frame : FrameId) (params : List String) (args : List Located) :
    (erasing m).steps w Bridge.same (rebind frame params args) fun scope =>
      Machine.rebindFrom scope frame params (Located.values args) := by
  have hzip : params.zip (Located.values args) =
      (params.zip args).map (Prod.map id Located.value) := by
    rw [Located.values, List.zip_map_right]
  unfold rebind Machine.rebindFrom
  rw [hzip]
  induction params.zip args with
  | nil => exact fun σ _ _ => ⟨.refl σ, rfl, .ok rfl⟩
  | cons entry entries ih =>
    have hstep : (erasing m).steps w Bridge.same
        (modify fun σ => σ.bindIn ((σ.frameOf? entry.1).getD frame) entry.1 entry.2)
        (fun scope => modify fun s =>
          s.bind ((s.frameOf? entry.1 (s.chain scope)).getD frame) entry.1 entry.2.value) :=
      fun σ _ _ => ⟨Restores.modify (fun σ => σ.bindIn_restored _ _ _) σ, rfl, .ok rfl⟩
    exact bind_erasing hstep fun _ _ _ _ _ => ih

theorem inFrame_erasing (names : List String) (vs : List Located) {f : FrameId → Evaluation Located}
    {g : FrameId → ReaderT FrameId Action Value}
    (hfg : ∀ frame, (erasing m).steps w (erasing m).values (f frame) (g frame)) :
    (erasing m).steps w (erasing m).values (inFrame names vs f) fun scope =>
      Action.extend scope names (Located.values vs) >>= fun frame => g frame frame := by
  intro σ hblind hmachine
  obtain ⟨hrestored, hstore, hends⟩ :=
    hfg (σ.extend names vs).scope (σ.extend names vs) hblind hmachine
  exact ⟨hrestored.pop, (Environment.store_pop _).trans hstore, hends⟩

theorem inScope_erasing (scope : FrameId) {x : Evaluation Located}
    {y : ReaderT FrameId Action Value} (hxy : (erasing m).steps w (erasing m).values x y) :
    (erasing m).steps w (erasing m).values (inScope scope x) fun _ => y scope := by
  intro σ hblind hmachine
  obtain ⟨hrestored, hstore, hends⟩ := hxy (σ.enter scope) hblind hmachine
  exact ⟨⟨hrestored.toKept.enter σ.scope σ.scope, rfl⟩, hstore, hends⟩

def Erases (m : Machine) (call : Option Call) (call' : Option Lisplet.Call) : Prop :=
  (erasing m).Calls call (call'.map fun apply id args _ => apply id args)

theorem inStep_erasing {call : Option Call} {call' : Option Lisplet.Call}
    (hcalls : Erases m call call') : InStep (erasing m) (setting call) (m.setting call') where
  grows _ hv := hv
  pure hv σ _ _ := ⟨.refl σ, rfl, .ok hv⟩
  bind := bind_erasing
  calls := hcalls
  lift ha := act_erasing fun s => .read ha.store_eq fun _ _ _ _ => trivial
  within operator operands := within_erasing _
  value hv := hv
  arguments hv := by
    cases hv
    exact lists_erasing.mpr (Located.values_arguments _)
  nil _ := rfl
  cons hv ht σ _ _ :=
    ⟨Restores.bind (.allocate _) (fun _ => .pure _) σ, rfl, .ok (congrArg₂ Value.pair hv ht)⟩
  atom _ := atom_erasing _
  run body hargs := by
    cases lists_erasing.mp hargs
    exact run_erasing body _
  scope _ σ _ _ := ⟨.refl σ, rfl, .ok rfl⟩
  makeClosure _ scope params body :=
    act_bind_erasing (fun _ => Action.makeClosure_retains scope params body) locate_erasing
  define frame name hv := by
    cases hv
    exact define_erasing frame name _
  inFrame names hvs hfg := by
    cases lists_erasing.mp hvs
    exact inFrame_erasing names _ fun frame => hfg _ le_rfl frame
  inScope scope := inScope_erasing scope
  loopName? _ id closure σ _ hmachine := by
    subst hmachine
    exact ⟨.refl σ, rfl, .ok rfl⟩
  mark _ frame name σ _ _ := ⟨σ.bindIn_restored frame name _, rfl, .ok rfl⟩
  rebind frame params hvs := by
    cases lists_erasing.mp hvs
    exact rebind_erasing frame params _

theorem runLoopHere_erasing {call : Option Call} {call' : Option Lisplet.Call}
    (hcalls : Erases m call call') (closure : Closure) (frame : FrameId) (rounds : Nat) :
    (erasing m).steps w (erasing m).values (runLoop call closure frame rounds)
      (m.runLoopHere call' closure frame rounds) := by
  induction rounds with
  | zero => exact fun σ _ _ => ⟨.refl σ, rfl, .error _⟩
  | succ rounds ih => exact (inStep_erasing hcalls).round fun _ _ => ih

theorem callAt_erasing (m : Machine) (depth : Nat) : Erases m (callAt depth) (m.callAt depth) := by
  induction depth with
  | zero => exact .none
  | succ depth ih =>
    refine .some fun w id args args' hargs σ hblind hmachine => ?_
    have hloop (w' : Action.Still) (_ : w ≤ w') (closure : Closure) (frame : FrameId) :
        (erasing m).steps w' (erasing m).values
          (do runLoop (callAt depth) closure frame (← get).machine.rounds)
          (m.runLoopHere (m.callAt depth) closure frame m.rounds) := by
      intro σ hblind hmachine
      subst hmachine
      exact runLoopHere_erasing (w := w') ih closure frame _ σ hblind rfl
    have happly := (inStep_erasing ih).apply hloop id hargs σ hblind hmachine
    rwa [Machine.apply_runLoopHere] at happly

end Evaluation

theorem Machine.setting_evalTask (m : Machine) (depth : Nat) (scope : FrameId) (task : Task) :
    (m.setting (m.callAt depth)).evalTask task scope = task.action m depth scope := by
  cases task with
  | expression e => rfl
  | elements e => rfl
  | special form operands => exact m.setting_evalForm _ scope form operands
  | program es =>
    have hprogram (v : Value) :
        es.foldlM (fun _ e => (m.setting (m.callAt depth)).eval e) v scope =
          es.foldlM (fun _ e => m.evalAt depth scope e) v := by
      induction es generalizing v with
      | nil => rfl
      | cons e es ih =>
        rw [List.foldlM_cons, List.foldlM_cons, setting_bind]
        exact congrArg (m.evalAt depth scope e >>= ·) (funext ih)
    exact hprogram .nil

namespace Environment

variable {σ : Environment}

/-- Where no function of the host looks at the heap, what a task ends in and what it does to the
frames, closures and vectors is what the interpreter without a heap finds and does, which is given
the present frame with every step. -/
theorem evaluation_eq_action (hblind : σ.Blind) (depth : Nat) (task : Task) :
    let outcome := task.evaluation depth σ
    (outcome.1.map Located.value, outcome.2.toInterpreter) =
      σ.toInterpreter.perform (task.action σ.machine depth σ.scope) := by
  intro outcome
  have hcalls := Evaluation.callAt_erasing σ.machine depth
  obtain ⟨hrestored, hstore, hends⟩ :=
    (Evaluation.inStep_erasing hcalls).evalTask (w := ⟨⟩) task σ hblind rfl
  rw [Machine.setting_evalTask] at hstore hends
  change Evaluation.Ends _ outcome.1 _ at hends
  have hresult : outcome.1.map Located.value =
      (task.action σ.machine depth σ.scope σ.store).1 := by
    generalize outcome.1 = a, (task.action σ.machine depth σ.scope σ.store).1 = b at hends
    cases hends with
    | ok hab => exact congrArg Except.ok hab
    | error => rfl
  have hinterpreter : outcome.2.toInterpreter =
      { σ.toInterpreter with store := (task.action σ.machine depth σ.scope σ.store).2 } := by
    dsimp only
    rw [← hstore, ← hrestored.machine, ← hrestored.scope]
    rfl
  exact Prod.ext hresult hinterpreter

/-- The same for the evaluation of a text. -/
theorem evalSource_eq (hblind : σ.Blind) (source : String) :
    ((σ.evalSource source).1, (σ.evalSource source).2.toInterpreter) =
      σ.toInterpreter.evalSource source := by
  unfold evalSource Interpreter.evalSource
  cases Reader.readProgram false source with
  | ok program => exact evaluation_eq_action hblind maxCallDepth (.program program)
  | error e => rfl

end Environment

end Lisplet
