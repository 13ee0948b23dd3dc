import Lisplet.Proofs.Frames.Evaluation

/-! Settled errors: those that come with the expression in which they were raised, or need none. An
evaluation that is not stopped at once by the bound on calls ends with no others. -/
namespace Lisplet

namespace Stop

def isSettled : Stop → Bool
  | failed e => !e.lacksContext
  | unfinished => true

theorem isSettled_within (stop : Stop) (expression : String) :
    (stop.within expression).isSettled = true := by
  cases stop with
  | unfinished => rfl
  | failed e =>
    simp only [within, isSettled, Error.within]
    split
    · cases e <;> simp_all [Error.lacksContext]
    · simp_all

theorem within_of_isSettled {stop : Stop} (h : stop.isSettled = true) (expression : String) :
    stop.within expression = stop := by
  cases stop with
  | unfinished => rfl
  | failed e =>
    have hlacks : e.lacksContext = false := (Bool.not_eq_true' _).mp h
    simp [within, Error.within, hlacks]

end Stop

/-- Errors that an action ends with come with an expression or need none. -/
def Action.Settled {α : Type} (a : Action α) : Prop :=
  ∀ s stop, (a s).1 = .error stop → stop.isSettled = true

namespace Action.Settled

variable {α β : Type}

theorem pure (v : α) : (pure v : Action α).Settled := fun _ _ h => nomatch h

theorem bind {a : Action α} {f : α → Action β} (ha : a.Settled) (hf : ∀ v, (f v).Settled) :
    (a >>= f).Settled :=
  errors_bind ha hf

theorem change (f : Store → α × Store) : (Action.change f).Settled := fun _ _ h => nomatch h

theorem within (e : Value) (a : Action α) : (Action.within e a).Settled := by
  intro s stop hstop
  rcases h : a s with ⟨stop' | v, s'⟩
  · rw [within_error h] at hstop
    cases hstop
    exact stop'.isSettled_within _
  · rw [within_ok h] at hstop
    cases hstop

theorem mapM {f : α → Action β} (hf : ∀ v, (f v).Settled) (vs : List α) : (vs.mapM f).Settled := by
  induction vs with
  | nil => exact pure []
  | cons v vs ih =>
    rw [List.mapM_cons]
    exact (hf v).bind fun w => ih.bind fun ws => pure (w :: ws)

/-- Adding an expression to settled errors changes nothing. -/
theorem within_eq {a : Action α} (ha : a.Settled) (e : Value) : Action.within e a = a := by
  funext s
  rcases h : a s with ⟨stop | v, s'⟩
  · rw [within_error h, Stop.within_of_isSettled (ha s stop (by rw [h]))]
  · rw [within_ok h]

end Action.Settled

namespace Machine

theorem lookup_settled (m : Machine) (scope : FrameId) (name : String) :
    (m.lookup scope name).Settled := by
  intro s stop hstop
  rw [lookup_apply] at hstop
  cases hfind : m.find? s scope name with
  | none =>
    rw [hfind] at hstop
    cases hstop
    rfl
  | some v =>
    rw [hfind] at hstop
    cases hstop

/-- An expression that is evaluated at all explains its errors. -/
theorem evalWith_settled (m : Machine) {call : Option Call} {apply : Call} (h : call = some apply)
    (scope : FrameId) (e : Value) : (m.evalWith call scope e).Settled := by
  cases e with
  | pair operator operands =>
    rw [m.evalWith_pair h]
    exact .within _ _
  | symbol name =>
    rw [m.evalWith_atom h scope (by simp)]
    exact m.lookup_settled scope name
  | _ =>
    rw [m.evalWith_atom h scope (by simp)]
    exact .pure _

end Machine

end Lisplet
