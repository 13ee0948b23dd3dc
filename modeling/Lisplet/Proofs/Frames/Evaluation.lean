import Lisplet.Proofs.Frames

/-! What evaluation does to frames: a step lemma for each form, then loops, applications and calls
of every depth. -/
namespace Lisplet

def Store.paramCount (s : Store) (id : ClosureId) : Nat :=
  match s.closures[id.index]? with
  | some closure => closure.params.length
  | none => 0

/-- Applying a closure to as many arguments as it takes changes no frame that exists. -/
def Call.Discreet (apply : Call) : Prop :=
  ∀ id args s, args.length = s.paramCount id → Store.Retains (fun _ => False) s (apply id args s).2

namespace Action

variable {writable : FrameId → Prop} {s₀ : Store}

theorem extend_retains (scope : FrameId) (names : List String) (values : List Value) :
    Holds (Store.Retains writable s₀) (extend scope names values)
      (Store.Retains.Open writable s₀) :=
  Keeps.change fun _ hs => ⟨⟨⟩, le_rfl, hs.pushFrame _ _, .inr hs.size_le⟩

theorem define_retains {frame : FrameId} (hf : Store.Retains.Open writable s₀ frame)
    (name : String) (value : Value) :
    Holds (Store.Retains writable s₀) (define frame name value) :=
  Keeps.modify fun s hs =>
    ⟨⟨⟩, le_rfl, (hs.of_frames (s.frames_nameValue name value)).bind hf name value, trivial⟩

theorem local_retains {α : Type} {a : Action α} (ha : a.Local) :
    Holds (Store.Retains writable s₀) a := fun s hs =>
  ⟨⟨⟩, le_rfl, hs.of_frames (ha s s (.refl s)).2.2.1, fun _ _ => trivial⟩

theorem makeClosure_retains (scope : FrameId) (params body : Value) :
    Holds (Store.Retains writable s₀) (makeClosure scope params body) := by
  refine Keeps.get_bind fun s _ => Keeps.ofExcept_bind fun names _ => ?_
  exact Keeps.andThen (Keeps.change fun s hs => ⟨⟨⟩, le_rfl, hs.of_frames rfl, trivial⟩)
    fun _ _ _ => Keeps.pure trivial

theorem checkCount_apply (id : ClosureId) (got : Nat) (e : Value) (s : Store) :
    checkCount id got e s =
      if got = s.paramCount id then (.ok (), s)
      else (.error (.failed (.arity (.exact (s.paramCount id)) got (some (s.text e)))), s) := by
  change (if got = s.paramCount id then pure ()
    else text e >>= fun shown =>
      fail (.arity (.exact (s.paramCount id)) got (some shown)) : Action Unit) s = _
  by_cases h : got = s.paramCount id
  · rw [if_pos h, if_pos h]
    rfl
  · rw [if_neg h, if_neg h]
    rfl

theorem checkCount_store (id : ClosureId) (got : Nat) (e : Value) (s : Store) :
    (checkCount id got e s).2 = s := by
  rw [checkCount_apply]
  split <;> rfl

theorem checkCount_congr {s t : Store} (hclosures : s.closures = t.closures)
    (htext : s.text = t.text) (id : ClosureId) (got : Nat) (e : Value) :
    (checkCount id got e s).1 = (checkCount id got e t).1 := by
  have hcount : s.paramCount id = t.paramCount id := by
    unfold Store.paramCount
    rw [hclosures]
  rw [checkCount_apply, checkCount_apply, hcount, htext]
  split <;> rfl

/-- A closure is applied only to as many arguments as it has parameters. -/
theorem checkCount_bind {inv : Store → Prop} {id : ClosureId} {args : List Value} {e : Value}
    {next : Action Value} (h : ∀ s, args.length = s.paramCount id → inv s → inv (next s).2) :
    Holds inv (do checkCount id args.length e; next) := by
  intro s hs
  refine ⟨⟨⟩, le_rfl, ?_, fun _ _ => trivial⟩
  have hc := checkCount_apply id args.length e s
  by_cases hlen : args.length = s.paramCount id
  · rw [if_pos hlen] at hc
    rw [bind_ok hc]
    exact h s hlen hs
  · rw [if_neg hlen] at hc
    rw [bind_error hc]
    exact hs

end Action

namespace Machine

theorem lookup_apply (m : Machine) (scope : FrameId) (name : String) (s : Store) :
    m.lookup scope name s = match m.find? s scope name with
      | some value => (.ok value, s)
      | none => (.error (.failed (.unbound name)), s) := by
  change (match m.find? s scope name with
    | some value => pure value
    | none => Action.fail (.unbound name) : Action Value) s = _
  cases m.find? s scope name <;> rfl

theorem lookup_congr (m : Machine) {s t : Store} {scope : FrameId} {name : String}
    (h : m.find? s scope name = m.find? t scope name) :
    (m.lookup scope name s).1 = (m.lookup scope name t).1 := by
  rw [lookup_apply, lookup_apply, h]
  cases m.find? t scope name <;> rfl

theorem evalAtom_store (m : Machine) (scope : FrameId) (e : Value) (s : Store) :
    (m.evalAtom scope e s).2 = s := by
  cases e with
  | symbol name =>
    change (m.lookup scope name s).2 = s
    rw [lookup_apply]
    cases m.find? s scope name <;> rfl
  | _ => rfl

theorem run_holds (m : Machine) {inv : Store → Prop} (body : Procedure) (args : List Value)
    (h : ∀ p : Primitive, Action.Holds inv (p.run args)) : Action.Holds inv (m.run body args) := by
  cases body with
  | primitive p => exact h p
  | recur => exact Action.Keeps.pure trivial
  | host slot =>
    rw [run]
    cases m.hosts[slot]? with
    | some f => exact Action.Keeps.observe fun _ _ _ _ => trivial
    | none => exact Action.Keeps.pure trivial

section

set_option linter.unusedSectionVars false

variable {writable : FrameId → Prop} {s₀ : Store} (m : Machine) {call : Option Call}
  (hcall : ∀ apply ∈ call, apply.Discreet)

open Action

theorem evalAtom_retains (scope : FrameId) (e : Value) :
    Holds (Store.Retains writable s₀) (m.evalAtom scope e) :=
  Keeps.read (m.evalAtom_store scope e) fun _ _ _ _ => trivial

theorem evalLambda_retains (scope : FrameId) (operands : Value) :
    Holds (Store.Retains writable s₀) (evalLambda scope operands) := by
  unfold evalLambda
  split
  · exact makeClosure_retains scope _ _
  · exact Keeps.fail _ _

theorem boundNames_retains {β : Type} {form : SpecialForm} {bindings : Value}
    {next : List String → Action β} (h : ∀ names, Holds (Store.Retains writable s₀) (next names)) :
    Holds (Store.Retains writable s₀) (do
      let names ← Action.ofExcept (Form.boundNames (← get) form bindings)
      next names) := by
  exact Keeps.get_bind fun s _ => Keeps.ofExcept_bind fun names _ => h names

include hcall

mutual

theorem evalWith_retains {scope : FrameId} (hscope : Store.Retains.Open writable s₀ scope)
    (e : Value) : Holds (Store.Retains writable s₀) (m.evalWith call scope e) := by
  obtain hc | ⟨apply, hc⟩ := call.eq_none_or_eq_some
  · rw [m.evalWith_none hc]
    exact Keeps.fail _ _
  cases e with
  | pair operator operands =>
    rw [m.evalWith_pair hc]
    refine Keeps.within _ (Keeps.bind (evalWith_retains hscope operator) fun _ _ v _ => ?_)
    have hdata : Holds (Store.Retains writable s₀)
        (do return Value.pair v (← m.evalElements call scope operands)) :=
      Keeps.bind (evalElements_retains hscope operands) fun _ _ _ _ => Keeps.pure trivial
    cases v with
    | function name arity body =>
      refine Keeps.bind (evalArgs_retains hscope operands) fun _ _ args _ => ?_
      refine Keeps.ofExcept_bind fun _ _ => ?_
      exact m.run_holds body args fun p => local_retains (p.run_local args)
    | closure id =>
      refine Keeps.bind (evalArgs_retains hscope operands) fun _ _ args _ => ?_
      exact checkCount_bind fun s hlen hs => hs.trans (hcall apply hc id args s hlen) nofun
    | special form =>
      refine Keeps.bind (local_retains (.of_basic (.checkList operands))) fun _ _ _ _ => ?_
      cases form with
      | lambda => exact evalLambda_retains scope operands
      | define => exact evalDefine_retains hscope operands
      | letIn => exact evalLetIn_retains hscope operands
      | letRec => exact evalLetRec_retains scope operands
      | ifElse => exact evalIfElse_retains hscope operands
      | cond => exact evalCond_retains hscope operands
    | _ => exact hdata
  | _ =>
    rw [m.evalWith_atom hc scope (by simp)]
    exact m.evalAtom_retains scope _
termination_by e

theorem evalArgs_retains {scope : FrameId} (hscope : Store.Retains.Open writable s₀ scope)
    (e : Value) : Holds (Store.Retains writable s₀) (m.evalArgs call scope e) := by
  cases e with
  | nil => exact Keeps.pure trivial
  | pair e rest =>
    exact Keeps.bind (evalWith_retains hscope e) fun _ _ _ _ =>
      Keeps.bind (evalArgs_retains hscope rest) fun _ _ _ _ => Keeps.pure trivial
  | _ =>
    rw [m.evalArgs_eq]
    exact Keeps.text_bind fun _ => Keeps.fail _ _
termination_by e

theorem evalElements_retains {scope : FrameId} (hscope : Store.Retains.Open writable s₀ scope)
    (e : Value) : Holds (Store.Retains writable s₀) (m.evalElements call scope e) := by
  cases e with
  | pair e rest =>
    exact Keeps.bind (evalWith_retains hscope e) fun _ _ _ _ =>
      Keeps.bind (evalElements_retains hscope rest) fun _ _ _ _ => Keeps.pure trivial
  | _ =>
    obtain hc | ⟨apply, hc⟩ := call.eq_none_or_eq_some
    · subst hc
      exact Keeps.fail _ _
    · rw [m.evalElements_atom hc scope (by simp)]
      exact m.evalAtom_retains scope _
termination_by e

theorem evalDefine_retains {scope : FrameId} (hscope : Store.Retains.Open writable s₀ scope)
    (e : Value) : Holds (Store.Retains writable s₀) (m.evalDefine call scope e) := by
  rw [evalDefine_eq]
  split
  · split
    · exact Keeps.bind (makeClosure_retains scope _ _) fun _ _ value _ =>
        Keeps.bind (define_retains hscope _ value) fun _ _ _ _ => Keeps.pure trivial
    · exact Keeps.text_bind fun _ => Keeps.fail _ _
  · exact Keeps.bind (evalWith_retains hscope _) fun _ _ value _ =>
      Keeps.bind (define_retains hscope _ value) fun _ _ _ _ => Keeps.pure trivial
  · exact Keeps.text_bind fun _ => Keeps.fail _ _
  · exact Keeps.fail _ _
termination_by e

theorem evalLetIn_retains {scope : FrameId} (hscope : Store.Retains.Open writable s₀ scope)
    (e : Value) : Holds (Store.Retains writable s₀) (m.evalLetIn call scope e) := by
  rw [evalLetIn_eq]
  split
  · refine boundNames_retains fun names => ?_
    refine Keeps.bind (evalInits_retains hscope _) fun _ _ values _ => ?_
    exact Keeps.bind (extend_retains scope names values) fun _ _ frame hframe =>
      evalWith_retains hframe _
  · exact Keeps.fail _ _
termination_by e

theorem evalLetRec_retains (scope : FrameId) (e : Value) :
    Holds (Store.Retains writable s₀) (m.evalLetRec call scope e) := by
  rw [evalLetRec_eq]
  split
  · refine boundNames_retains fun names => ?_
    refine Keeps.bind (extend_retains scope names _) fun _ _ frame hframe => ?_
    exact Keeps.bind (bindInits_retains hframe _) fun _ _ _ _ => evalWith_retains hframe _
  · exact Keeps.fail _ _
termination_by e

theorem evalIfElse_retains {scope : FrameId} (hscope : Store.Retains.Open writable s₀ scope)
    (e : Value) : Holds (Store.Retains writable s₀) (m.evalIfElse call scope e) := by
  rw [evalIfElse_eq]
  split
  · refine Keeps.bind (evalWith_retains hscope _) fun _ _ test _ => ?_
    split
    · exact evalWith_retains hscope _
    · exact Keeps.pure trivial
  · refine Keeps.bind (evalWith_retains hscope _) fun _ _ test _ => ?_
    split
    · exact evalWith_retains hscope _
    · exact evalWith_retains hscope _
  · exact Keeps.fail _ _
termination_by e

theorem evalCond_retains {scope : FrameId} (hscope : Store.Retains.Open writable s₀ scope)
    (e : Value) : Holds (Store.Retains writable s₀) (m.evalCond call scope e) := by
  rw [evalCond_eq]
  split
  · split
    · refine Keeps.bind (evalWith_retains hscope _) fun _ _ test _ => ?_
      split
      · exact evalWith_retains hscope _
      · exact evalCond_retains hscope _
    · exact Keeps.text_bind fun _ => Keeps.fail _ _
  · exact Keeps.pure trivial
termination_by e

theorem evalInits_retains {scope : FrameId} (hscope : Store.Retains.Open writable s₀ scope)
    (e : Value) : Holds (Store.Retains writable s₀) (m.evalInits call scope e) := by
  rw [evalInits_eq]
  split
  · exact Keeps.bind (evalWith_retains hscope _) fun _ _ _ _ =>
      Keeps.bind (evalInits_retains hscope _) fun _ _ _ _ => Keeps.pure trivial
  · exact Keeps.pure trivial
termination_by e

theorem bindInits_retains {frame : FrameId} (hframe : Store.Retains.Open writable s₀ frame)
    (e : Value) : Holds (Store.Retains writable s₀) (m.bindInits call frame e) := by
  rw [bindInits_eq]
  split
  · refine Keeps.bind (evalWith_retains hframe _) fun _ _ value _ => ?_
    exact Keeps.bind (define_retains hframe _ value) fun _ _ _ _ => bindInits_retains hframe _
  · exact Keeps.pure trivial
termination_by e

end

end

/-- Evaluation binds names only in the frame it runs in and in new frames. -/
theorem evalWith_frames (m : Machine) {call : Option Call} (hcall : ∀ apply ∈ call, apply.Discreet)
    (scope : FrameId) (e : Value) (s : Store) :
    Store.Retains (· = scope) s (m.evalWith call scope e s).2 := by
  have hopen : Store.Retains.Open (· = scope) s scope := .inl rfl
  obtain ⟨-, -, h, -⟩ := m.evalWith_retains hcall hopen e s (.refl _ s)
  exact h

theorem evalWith_frames_of_eq {m : Machine} {call : Option Call}
    (hcall : ∀ apply ∈ call, apply.Discreet) {scope : FrameId} {e : Value} {s t : Store}
    {r : Except Stop Value} (h : m.evalWith call scope e s = (r, t)) :
    Store.Retains (· = scope) s t := by
  have hframes := m.evalWith_frames hcall scope e s
  rwa [h] at hframes

end Machine

namespace Machine

/-- The parameters of a running loop are overwritten in the frame of the loop, where they are all
bound. -/
theorem rebind_apply {frame : FrameId} {params : List String} {s : Store}
    (h : ∀ param ∈ params, s.Binds frame param) (args : List Value) :
    rebind frame params args s = (.ok (), s.bindAll frame (params.zip args)) := by
  induction params generalizing s args with
  | nil => rfl
  | cons param params ih =>
    cases args with
    | nil => rfl
    | cons arg args =>
      have hparam := Store.frameOf?_chain_of_binds (h param List.mem_cons_self)
      have hrest : ∀ p ∈ params, (s.bind frame param arg).Binds frame p :=
        fun p hp => (h p (List.mem_cons_of_mem _ hp)).bind frame param arg
      have hstep : rebind frame (param :: params) (arg :: args) s =
          rebind frame params args
            (s.bind ((s.frameOf? param (s.chain frame)).getD frame) param arg) := rfl
      rw [hstep, hparam]
      exact ih hrest args

/-- What one round of a loop leads to: an error, another round, a wrong number of arguments, or a
value that ends the loop. -/
theorem runLoop_succ (m : Machine) (call : Option Call) (closure : Closure) (frame : FrameId)
    (rounds : Nat) {s s' : Store} {r : Except Stop Value}
    (h : m.evalWith call frame closure.body s = (r, s')) :
    (∃ stop, r = .error stop ∧ m.runLoop call closure frame (rounds + 1) s = (.error stop, s')) ∨
    (∃ args, r = .ok (.tailCall args) ∧ args.heads.length = closure.params.length ∧
      m.runLoop call closure frame (rounds + 1) s =
        (do rebind frame closure.params args.heads; m.runLoop call closure frame rounds) s') ∨
    (∃ args, r = .ok (.tailCall args) ∧ args.heads.length ≠ closure.params.length ∧
      m.runLoop call closure frame (rounds + 1) s =
        (.error (.failed (.arity (.exact closure.params.length) args.heads.length none)), s')) ∨
    (∃ v, r = .ok v ∧ (∀ args, v ≠ .tailCall args) ∧
      m.runLoop call closure frame (rounds + 1) s = (.ok v, s')) := by
  rw [runLoop_eq]
  cases r with
  | error stop => exact .inl ⟨stop, rfl, Action.bind_error h⟩
  | ok v =>
    rw [Action.bind_ok h]
    cases v with
    | tailCall args =>
      by_cases hlen : args.heads.length = closure.params.length
      · exact .inr (.inl ⟨args, rfl, hlen, by simp only [if_pos hlen]⟩)
      · refine .inr (.inr (.inl ⟨args, rfl, hlen, ?_⟩))
        simp only [if_neg hlen]
        rfl
    | _ => exact .inr (.inr (.inr ⟨_, rfl, by simp, rfl⟩))

theorem runLoop_retains (m : Machine) {call : Option Call}
    (hcall : ∀ apply ∈ call, apply.Discreet) (closure : Closure) {frame : FrameId}
    {writable : FrameId → Prop} {s₀ : Store} (hframe : Store.Retains.Open writable s₀ frame)
    (rounds : Nat) {s : Store} (hs : Store.Retains writable s₀ s)
    (hlt : frame.index < s.frames.size) (hparams : ∀ p ∈ closure.params, s.Binds frame p) :
    Store.Retains writable s₀ (m.runLoop call closure frame rounds s).2 := by
  induction rounds generalizing s with
  | zero => exact hs
  | succ rounds ih =>
    rcases hbody : m.evalWith call frame closure.body s with ⟨r, s'⟩
    -- The body keeps the parameters bound, so that a further round overwrites them in `frame`.
    have hkept : Store.Retains (· = frame) s s' := evalWith_frames_of_eq hcall hbody
    have hs' : Store.Retains writable s₀ s' := hs.trans hkept fun f hf => hf ▸ hframe
    rcases m.runLoop_succ call closure frame rounds hbody with
      ⟨_, -, h⟩ | ⟨args, -, -, h⟩ | ⟨_, -, -, h⟩ | ⟨_, -, -, h⟩
    · rw [h]
      exact hs'
    · have hparams' : ∀ p ∈ closure.params, s'.Binds frame p :=
        fun p hp => hkept.binds frame p hlt (hparams p hp)
      rw [h, Action.bind_ok (rebind_apply hparams' args.heads)]
      refine ih (hs'.bindAll hframe _) ?_ fun p hp => (hparams' p hp).bindAll frame _
      rw [Store.size_frames_bindAll]
      exact Nat.lt_of_lt_of_le hlt hkept.size_le
    · rw [h]
      exact hs'
    · rw [h]
      exact hs'

theorem apply_of_none (m : Machine) (call : Option Call) {id : ClosureId} {s : Store}
    (h : s.closures[id.index]? = none) (args : List Value) :
    m.apply call id args s = (.ok .nil, s) := by
  have hc : Action.closure? id s = (.ok none, s) := h ▸ rfl
  rw [apply_eq, Action.bind_ok hc]
  rfl

abbrev entry (closure : Closure) (args : List Value) (s : Store) : FrameId × Store :=
  s.pushFrame (some closure.scope) (.ofLists closure.params args)

theorem entry_binds {closure : Closure} {args : List Value} {s : Store}
    (hlen : args.length = closure.params.length) {p : String} (hp : p ∈ closure.params) :
    (entry closure args s).2.Binds (entry closure args s).1 p := by
  simpa [Store.Binds] using Bindings.find?_ofLists_isSome (Nat.le_of_eq hlen.symm) hp

/-- A closure that is no loop runs its body once. -/
theorem apply_of_loopName?_eq_none (m : Machine) (call : Option Call) {id : ClosureId} {s : Store}
    {closure : Closure} (h : s.closures[id.index]? = some closure)
    (hloop : m.loopName? s id closure = none) (args : List Value) :
    m.apply call id args s =
      m.evalWith call (entry closure args s).1 closure.body (entry closure args s).2 := by
  have hc : Action.closure? id s = (.ok (some closure), s) := h ▸ rfl
  have hname : (do return m.loopName? (← get) id closure : Action (Option String)) s =
      (.ok none, s) := hloop ▸ rfl
  rw [apply_eq, Action.bind_ok hc]
  dsimp only
  rw [Action.bind_ok hname]
  rfl

/-- In a loop the name of the closure stands for the request for another round. -/
theorem apply_of_loopName?_eq_some (m : Machine) (call : Option Call) {id : ClosureId} {s : Store}
    {closure : Closure} (h : s.closures[id.index]? = some closure) {name : String}
    (hloop : m.loopName? s id closure = some name) (args : List Value) :
    m.apply call id args s =
      m.runLoop call closure (entry closure args s).1 m.rounds
        ((entry closure args s).2.bind (entry closure args s).1 name
          (.function "recur" .any .recur)) := by
  have hc : Action.closure? id s = (.ok (some closure), s) := h ▸ rfl
  have hname : (do return m.loopName? (← get) id closure : Action (Option String)) s =
      (.ok (some name), s) := hloop ▸ rfl
  rw [apply_eq, Action.bind_ok hc]
  dsimp only
  rw [Action.bind_ok hname]
  rfl

/-- The application of a closure binds names only in new frames. -/
theorem apply_discreet (m : Machine) {call : Option Call} (hcall : ∀ apply ∈ call, apply.Discreet) :
    Call.Discreet (m.apply call) := by
  intro id args s hlen
  cases hc : s.closures[id.index]? with
  | none =>
    rw [m.apply_of_none call hc]
    exact .refl _ s
  | some closure =>
    simp only [Store.paramCount, hc] at hlen
    have hpush : Store.Retains (fun _ => False) s (entry closure args s).2 :=
      (Store.Retains.refl _ s).pushFrame _ _
    have hopen : Store.Retains.Open (fun _ => False) s (entry closure args s).1 :=
      .inr (Nat.le_refl _)
    cases hloop : m.loopName? s id closure with
    | none =>
      rw [m.apply_of_loopName?_eq_none call hc hloop]
      exact hpush.trans (m.evalWith_frames hcall _ _ _) fun f hf => hf ▸ hopen
    | some name =>
      rw [m.apply_of_loopName?_eq_some call hc hloop]
      refine m.runLoop_retains hcall closure hopen m.rounds (hpush.bind hopen name _) ?_ ?_
      · simp
      · exact fun p hp => (entry_binds hlen hp).bind _ _ _

theorem callAt_discreet (m : Machine) (depth : Nat) : ∀ apply ∈ m.callAt depth, apply.Discreet := by
  induction depth with
  | zero => exact fun _ h => nomatch h
  | succ depth ih =>
    rintro apply h
    cases h
    exact m.apply_discreet ih

end Machine

end Lisplet
