import Lisplet.Interpreter
import Mathlib.Order.Basic

/-! Invariants of the store that actions keep, however they end. An invariant may speak of a world
that grows while an action runs, such as what is known of the frames that exist. -/
namespace Lisplet

def Stop.within (expression : String) : Stop → Stop
  | failed e => failed (e.within expression)
  | unfinished => unfinished

section

variable {ε σ α β : Type} {a : ExceptT ε (StateM σ) α} {f : α → ExceptT ε (StateM σ) β} {s s' : σ}

theorem bind_of_ok {v : α} (h : a s = (.ok v, s')) : (a >>= f) s = f v s' := by
  change ExceptT.bind a f s = _
  simp only [ExceptT.bind, ExceptT.mk, bind, StateT.bind, h]
  rfl

theorem bind_of_error {e : ε} (h : a s = (.error e, s')) : (a >>= f) s = (.error e, s') := by
  change ExceptT.bind a f s = _
  simp only [ExceptT.bind, ExceptT.mk, bind, StateT.bind, h]
  rfl

end

namespace Action

theorem bind_ok {α β : Type} {a : Action α} {f : α → Action β} {s s' : Store} {v : α}
    (h : a s = (.ok v, s')) : (a >>= f) s = f v s' :=
  bind_of_ok h

theorem bind_error {α β : Type} {a : Action α} {f : α → Action β} {s s' : Store} {e : Stop}
    (h : a s = (.error e, s')) : (a >>= f) s = (.error e, s') :=
  bind_of_error h

/-- The errors of two actions one after the other are those of the two. -/
theorem errors_bind {α β : Type} {P : Stop → Prop} {a : Action α} {f : α → Action β}
    (ha : ∀ s stop, (a s).1 = .error stop → P stop)
    (hf : ∀ v s stop, (f v s).1 = .error stop → P stop) :
    ∀ s stop, ((a >>= f) s).1 = .error stop → P stop := by
  intro s stop hstop
  rcases h : a s with ⟨stop' | v, s'⟩
  · rw [bind_error h] at hstop
    cases hstop
    exact ha s stop (by rw [h])
  · rw [bind_ok h] at hstop
    exact hf v s' stop hstop

theorem within_ok {α : Type} {a : Action α} {s s' : Store} {v : α} (h : a s = (.ok v, s'))
    (e : Value) : within e a s = (.ok v, s') := by
  simp [within, h]

theorem within_error {α : Type} {a : Action α} {s s' : Store} {stop : Stop}
    (h : a s = (.error stop, s')) (e : Value) :
    within e a s = (.error (stop.within (s'.text e)), s') := by
  cases stop with
  | unfinished => simp [within, h, Stop.within]
  | failed e' =>
    simp only [within, h, Stop.within]
    split
    · rfl
    · simp_all [Error.within]

/-- An expression added to an error changes neither the store nor a result. -/
theorem within_store {α : Type} (e : Value) (a : Action α) (s : Store) :
    (within e a s).2 = (a s).2 := by
  rcases h : a s with ⟨stop | v, s'⟩
  · rw [within_error h]
  · rw [within_ok h]

theorem within_ok_iff {α : Type} (e : Value) (a : Action α) (s : Store) (v : α) :
    (within e a s).1 = .ok v ↔ (a s).1 = .ok v := by
  rcases h : a s with ⟨stop | w, s'⟩
  · rw [within_error h]
    simp
  · rw [within_ok h]

theorem eq_ok_of_ofExcept {α : Type} {x : Except Error α} {s : Store} {v : α}
    (h : (ofExcept x s).1 = .ok v) : x = .ok v := by
  cases x with
  | error e => cases h
  | ok w => exact congrArg Except.ok (Except.ok.inj h)

/-- From a store in which `inv` holds in the world `w`, the action ends in a store in which it holds
in a later world; a result satisfies `post` there. -/
def Keeps {W α : Type} [Preorder W] (inv : W → Store → Prop) (w : W) (a : Action α)
    (post : W → α → Prop) : Prop :=
  ∀ s, inv w s → ∃ w', w ≤ w' ∧ inv w' (a s).2 ∧ ∀ v, (a s).1 = .ok v → post w' v

namespace Keeps

variable {W α β : Type} [Preorder W] {inv : W → Store → Prop} {w : W}

theorem pure {v : α} {post : W → α → Prop} (h : post w v) : Keeps inv w (pure v) post :=
  fun _ hs => ⟨w, le_rfl, hs, fun _ hv => Except.ok.inj hv ▸ h⟩

theorem throw (stop : Stop) (post : W → α → Prop) : Keeps inv w (throw stop) post :=
  fun _ hs => ⟨w, le_rfl, hs, fun _ hv => nomatch hv⟩

theorem fail (e : Error) (post : W → α → Prop) : Keeps inv w (Action.fail e) post :=
  throw _ post

theorem bind {a : Action α} {f : α → Action β} {mid : W → α → Prop} {post : W → β → Prop}
    (ha : Keeps inv w a mid) (hf : ∀ w', w ≤ w' → ∀ v, mid w' v → Keeps inv w' (f v) post) :
    Keeps inv w (a >>= f) post := by
  intro s hs
  obtain ⟨w', hw, hs', hv⟩ := ha s hs
  rcases h : a s with ⟨_ | v, s'⟩ <;> rw [h] at hs' hv
  · rw [bind_error h]
    exact ⟨w', hw, hs', fun _ hb => nomatch hb⟩
  · rw [bind_ok h]
    obtain ⟨w'', hw', hs'', hb⟩ := hf w' hw v (hv v rfl) s' hs'
    exact ⟨w'', hw.trans hw', hs'', hb⟩

/-- What follows needs to know nothing of the result. -/
theorem andThen {a : Action α} {f : α → Action β} {post : W → β → Prop}
    (ha : Keeps inv w a fun _ _ => True) (hf : ∀ w', w ≤ w' → ∀ v, Keeps inv w' (f v) post) :
    Keeps inv w (a >>= f) post :=
  ha.bind fun w' hw v _ => hf w' hw v

theorem weaken {a : Action α} {mid post : W → α → Prop} (ha : Keeps inv w a mid)
    (h : ∀ w', w ≤ w' → ∀ v, mid w' v → post w' v) : Keeps inv w a post := by
  intro s hs
  obtain ⟨w', hw, hs', hv⟩ := ha s hs
  exact ⟨w', hw, hs', fun v hr => h w' hw v (hv v hr)⟩

/-- What reads the store and leaves it alone can be judged by what it answers in each store. -/
theorem read {a : Action α} {post : W → α → Prop} (hstore : ∀ s, (a s).2 = s)
    (h : ∀ s, inv w s → ∀ v, (a s).1 = .ok v → post w v) : Keeps inv w a post :=
  fun s hs => ⟨w, le_rfl, (hstore s).symm ▸ hs, h s hs⟩

theorem ofExcept {x : Except Error α} {post : W → α → Prop} (h : ∀ v, x = .ok v → post w v) :
    Keeps inv w (Action.ofExcept x) post := by
  cases x with
  | error e => exact fail e post
  | ok v => exact pure (h v rfl)

theorem get_bind {f : Store → Action α} {post : W → α → Prop}
    (h : ∀ s, inv w s → Keeps inv w (f s) post) : Keeps inv w (get >>= f) post :=
  fun s hs => h s hs s hs

theorem ofExcept_bind {x : Except Error α} {f : α → Action β} {post : W → β → Prop}
    (h : ∀ v, x = .ok v → Keeps inv w (f v) post) : Keeps inv w (Action.ofExcept x >>= f) post := by
  cases x with
  | error e => exact fail e post
  | ok v => exact h v rfl

theorem text_bind {v : Value} {f : String → Action α} {post : W → α → Prop}
    (h : ∀ t, Keeps inv w (f t) post) : Keeps inv w (Action.text v >>= f) post :=
  fun s hs => h (s.text v) s hs

theorem change {f : Store → α × Store} {post : W → α → Prop}
    (h : ∀ s, inv w s → ∃ w', w ≤ w' ∧ inv w' (f s).2 ∧ post w' (f s).1) :
    Keeps inv w (Action.change f) post := by
  intro s hs
  obtain ⟨w', hw, hs', hv⟩ := h s hs
  exact ⟨w', hw, hs', fun _ hr => Except.ok.inj hr ▸ hv⟩

theorem modify {f : Store → Store} {post : W → Unit → Prop}
    (h : ∀ s, inv w s → ∃ w', w ≤ w' ∧ inv w' (f s) ∧ post w' ()) :
    Keeps inv w (modify f) post :=
  change (f := fun s => ((), f s)) h

theorem observe {f : Observer} {args : List Value} {post : W → Value → Prop}
    (h : ∀ s, inv w s → ∀ v, f s args = .ok v → post w v) :
    Keeps inv w (Action.observe f args) post := by
  intro s hs
  change ∃ w', w ≤ w' ∧ inv w' (Action.ofExcept (f s args) s).2 ∧
    ∀ v, (Action.ofExcept (f s args) s).1 = .ok v → post w' v
  exact ofExcept (h s hs) s hs

theorem within {a : Action α} {post : W → α → Prop} (e : Value) (ha : Keeps inv w a post) :
    Keeps inv w (Action.within e a) post := by
  intro s hs
  obtain ⟨w', hw, hs', hv⟩ := ha s hs
  refine ⟨w', hw, (within_store e a s).symm ▸ hs', fun v hr => hv v ?_⟩
  exact (within_ok_iff e a s v).mp hr

end Keeps

/-- The one world of an invariant that speaks of none. -/
structure Still where

instance : Preorder Still where
  le _ _ := True
  le_refl _ := trivial
  le_trans _ _ _ _ _ := trivial

abbrev Holds {α : Type} (inv : Store → Prop) (a : Action α) (post : α → Prop := fun _ => True) :
    Prop :=
  Keeps (fun _ : Still => inv) ⟨⟩ a fun _ => post

end Action

namespace Machine

def dispatch (m : Machine) (call : Option Call) (apply : Call) (scope : FrameId)
    (operator operands : Value) : Value → Action Value
  | .function _ arity body => do
    let args ← m.evalArgs call scope operands
    Action.ofExcept (arity.check args.length)
    m.run body args
  | .closure id => do
    let args ← m.evalArgs call scope operands
    Action.checkCount id args.length (.pair operator operands)
    apply id args
  | .special form => do
    Action.checkList operands
    m.evalForm call scope form operands
  | v => return .pair v (← m.evalElements call scope operands)

theorem evalWith_pair (m : Machine) {call : Option Call} {apply : Call} (h : call = some apply)
    (scope : FrameId) (operator operands : Value) :
    m.evalWith call scope (.pair operator operands) =
      Action.within (.pair operator operands)
        (m.evalWith call scope operator >>= m.dispatch call apply scope operator operands) := by
  subst h
  refine congrArg (Action.within _) ?_
  rw [setting_bind]
  refine congrArg _ (funext fun v => ?_)
  cases v with
  | special form =>
    cases form with
    | lambda =>
      change (_ >>= _ : ReaderT FrameId Action Value) scope = _
      rw [setting_bind]
      exact congrArg _ (funext fun _ => m.setting_evalLambda _ scope operands)
    | _ => rfl
  | _ => rfl

theorem evalElements_atom (m : Machine) {call : Option Call} {apply : Call} (h : call = some apply)
    (scope : FrameId) {e : Value} (he : ∀ a b, e = .pair a b → False) :
    m.evalElements call scope e = m.evalAtom scope e := by
  rw [m.evalElements_eq_evalWith call scope he, m.evalWith_atom h scope he]

/-- A closure runs as a loop only under its own name, and only if its body is fit for it. -/
theorem loopName?_eq_some {m : Machine} {s : Store} {id : ClosureId} {closure : Closure}
    {name : String} (h : m.loopName? s id closure = some name) :
    m.looping = true ∧ (∃ naming ∈ closure.naming, naming.name = name ∧ naming.loops = true) ∧
      m.find? s closure.scope name = some (.closure id) := by
  unfold loopName? at h
  split at h
  · rename_i naming hnaming
    split at h
    · rename_i hloop
      cases h
      simp only [Bool.and_eq_true] at hloop
      refine ⟨hloop.1.1, ⟨naming, hnaming, rfl, hloop.1.2⟩, ?_⟩
      have hself := hloop.2
      unfold namesItself at hself
      split at hself
      · rename_i found hfound
        rw [hfound, of_decide_eq_true hself]
      · cases hself
    · cases h
  · cases h

/-- Whether a closure runs as a loop depends on what its name stands for in its scope. -/
theorem loopName?_congr {m : Machine} {s t : Store} (id : ClosureId) {closure : Closure}
    (h : ∀ given ∈ closure.naming,
      m.find? s closure.scope given.name = m.find? t closure.scope given.name) :
    m.loopName? s id closure = m.loopName? t id closure := by
  unfold loopName?
  cases hnaming : closure.naming with
  | none => rfl
  | some given =>
    have hitself : m.namesItself s id closure given.name =
        m.namesItself t id closure given.name := by
      rw [namesItself, namesItself, h given hnaming]
    simp only [hitself]

end Machine

end Lisplet
