import Lisplet.Proofs.Settled
import Lisplet.Proofs.Simulation

/-! Where errors come from. Evaluation is carried out by computations whose errors keep the form in
which they were raised, and are marked with the pair in whose evaluation that was. What is told of
an error is the text of that pair. -/
namespace Lisplet

/-- A computation on the store whose errors are as they were raised, each with the pair in whose
evaluation that was, if it was in one. -/
abbrev Tracing := ExceptT (Stop × Option Value) (StateM Store)

namespace Tracing

def ofAction {α : Type} (a : Action α) : Tracing α := fun s =>
  match a s with
  | (.ok v, s') => (.ok v, s')
  | (.error stop, s') => (.error (stop, none), s')

/-- Marks an error with a pair, unless it was raised in one inside of it. -/
def raisedIn {α : Type} (pair : Value) (t : Tracing α) : Tracing α := fun s =>
  match t s with
  | (.error (stop, none), s') => (.error (stop, some pair), s')
  | result => result

def carrier : Machine.Carrier Tracing := ⟨ofAction, raisedIn⟩

/-- Evaluates an expression while `depth` calls may still be in progress. An evaluation that is
refused for want of calls is not begun, so it is the calling pair that fails. -/
def evalAt (m : Machine) (depth : Nat) (scope : FrameId) (e : Value) : Tracing Value :=
  (m.settingIn carrier (m.callAtIn carrier depth)).eval e scope

section

variable {α : Type} {s s' : Store}

theorem ofAction_ok {a : Action α} {v : α} (h : a s = (.ok v, s')) :
    ofAction a s = (.ok v, s') := by
  rw [ofAction, h]

theorem ofAction_error {a : Action α} {stop : Stop} (h : a s = (.error stop, s')) :
    ofAction a s = (.error (stop, none), s') := by
  rw [ofAction, h]

end

/-- What is told of an end in the store that it leaves: of an error that was raised in a pair, the
text of the pair. -/
inductive Tells {α β : Type} (post : α → β → Prop) (s : Store) :
    Except (Stop × Option Value) α → Except Stop β → Prop
  | ok {v : α} {v' : β} (h : post v v') : Tells post s (.ok v) (.ok v')
  | outside {stop : Stop} (h : stop.isBare = true) :
    Tells post s (.error (stop, none)) (.error stop)
  | inside {stop : Stop} (h : stop.isBare = true) (operator operands : Value) :
    Tells post s (.error (stop, some (.pair operator operands)))
      (.error (stop.within (s.text (.pair operator operands))))

/-- The action does to the store what the computation does, and what it ends with is told of what
the computation ends with. -/
def Explains {α β : Type} (post : α → β → Prop) (t : Tracing α) (a : Action β) : Prop :=
  ∀ s, ∃ r r' s', t s = (r, s') ∧ a s = (r', s') ∧ Tells post s' r r'

namespace Explains

variable {α β γ δ : Type} {t : Tracing α} {a : Action β}

theorem ofAction {a : Action α} (ha : a.Bare) : Explains Eq (ofAction a) a := by
  intro s
  rcases h : a s with ⟨stop | v, s'⟩
  · have hbare : stop.isBare = true := ha s stop (by rw [h])
    exact ⟨_, _, s', ofAction_error h, rfl, .outside hbare⟩
  · exact ⟨_, _, s', ofAction_ok h, rfl, .ok rfl⟩

theorem bind {mid : α → β → Prop} {post : γ → δ → Prop} {f : α → Tracing γ} {g : β → Action δ}
    (hta : Explains mid t a) (hfg : ∀ v v', mid v v' → Explains post (f v) (g v')) :
    Explains post (t >>= f) (a >>= g) := by
  intro s
  obtain ⟨r, r', s', ht, ha, htold⟩ := hta s
  cases htold with
  | ok hmid =>
    rw [bind_of_ok ht, Action.bind_ok ha]
    exact hfg _ _ hmid s'
  | outside hbare => exact ⟨_, _, s', bind_of_error ht, Action.bind_error ha, .outside hbare⟩
  | inside hbare operator operands =>
    exact ⟨_, _, s', bind_of_error ht, Action.bind_error ha, .inside hbare operator operands⟩

/-- Of an error that has been told already, no more is told further out. -/
theorem within {post : α → β → Prop} (operator operands : Value) (hta : Explains post t a) :
    Explains post (raisedIn (.pair operator operands) t)
      (Action.within (.pair operator operands) a) := by
  intro s
  obtain ⟨r, r', s', ht, ha, htold⟩ := hta s
  cases htold with
  | ok hpost => exact ⟨_, _, s', by rw [raisedIn, ht], Action.within_ok ha _, .ok hpost⟩
  | outside hbare =>
    exact ⟨_, _, s', by rw [raisedIn, ht], Action.within_error ha _, .inside hbare _ _⟩
  | @inside stop hbare x y =>
    have hwithin := Action.within_error ha (.pair operator operands)
    rw [Stop.within_of_isSettled (stop.isSettled_within _)] at hwithin
    exact ⟨_, _, s', by rw [raisedIn, ht], hwithin, .inside hbare x y⟩

end Explains

theorem carries {m : Machine} (hm : m.hosts = #[]) : m.Carries Explains carrier .plain where
  pure hpost s := ⟨_, _, s, rfl, rfl, .ok hpost⟩
  bind := .bind
  perform := .ofAction
  within := .within
  run body args := .ofAction (Machine.run_bare hm body args)

/-- What evaluation ends with is told of what its tracing ends with. -/
theorem evalAt_explains {m : Machine} (hm : m.hosts = #[]) (depth : Nat) (scope : FrameId)
    (e : Value) : Explains Eq (evalAt m depth scope e) (m.evalAt depth scope e) :=
  (carries hm).eval ((carries hm).callAtIn depth) scope e

/-- An error that comes out of a pair that is evaluated at all was raised in some pair. -/
theorem evalAt_pair_marked {m : Machine} {depth : Nat} {scope : FrameId} {operator operands : Value}
    {s s' : Store} {stop : Stop} {origin : Option Value}
    (h : evalAt m (depth + 1) scope (.pair operator operands) s = (.error (stop, origin), s')) :
    origin ≠ none := by
  obtain ⟨t, ht⟩ : ∃ t, evalAt m (depth + 1) scope (.pair operator operands) =
    raisedIn (.pair operator operands) t := ⟨_, rfl⟩
  rw [ht, raisedIn] at h
  split at h
  · cases h
    simp
  · rename_i hother
    rintro rfl
    exact hother _ _ h

end Tracing

end Lisplet
