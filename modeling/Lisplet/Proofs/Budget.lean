import Lisplet.Proofs.Congruence

/-! The number of calls that may be in progress is a budget and nothing else: evaluation that makes
do with less of it takes the same course with more. -/
namespace Lisplet

def Stop.isTooDeep : Stop → Bool
  | failed (.eval .depthExceeded _) => true
  | _ => false

def TooDeep {α : Type} (r : Except Stop α) : Prop :=
  ∃ stop, r = .error stop ∧ stop.isTooDeep = true

instance {α : Type} (r : Except Stop α) : Decidable (TooDeep r) :=
  match r with
  | .ok _ => isFalse fun ⟨_, h, _⟩ => nomatch h
  | .error stop => decidable_of_iff (stop.isTooDeep = true)
    ⟨fun h => ⟨stop, rfl, h⟩, fun ⟨_, hstop, h⟩ => Except.error.inj hstop ▸ h⟩

theorem Stop.isTooDeep_within {stop : Stop} (h : stop.isTooDeep = true) (expression : String) :
    (stop.within expression).isTooDeep = true := by
  unfold isTooDeep at h
  split at h
  · rename_i context
    simp only [within, Error.within]
    split <;> rfl
  · cases h

/-- The second action does what the first does, unless that ends because of too many calls. -/
def Action.Affords {α : Type} (a b : Action α) : Prop := ∀ s, TooDeep (a s).1 ∨ b s = a s

namespace Action.Affords

variable {α β : Type}

theorem bind {a b : Action α} {f g : α → Action β} (hab : a.Affords b)
    (hfg : ∀ v, (∃ s, (a s).1 = .ok v) → (f v).Affords (g v)) :
    (a >>= f).Affords (b >>= g) := by
  intro s
  rcases ha : a s with ⟨stop | v, s'⟩
  · rcases hab s with ⟨stop', hstop', hdeep⟩ | hb
    · rw [ha] at hstop'
      cases hstop'
      exact .inl ⟨stop, by rw [bind_error ha], hdeep⟩
    · exact .inr (by rw [bind_error ha, bind_error (hb.trans ha)])
  · rcases hab s with ⟨stop', hstop', -⟩ | hb
    · rw [ha] at hstop'
      cases hstop'
    · rw [bind_ok ha, bind_ok (hb.trans ha)]
      exact hfg v ⟨s, by rw [ha]⟩ s'

theorem within {a b : Action α} (e : Value) (hab : a.Affords b) :
    (Action.within e a).Affords (Action.within e b) := by
  intro s
  rcases hab s with ⟨stop, hstop, hdeep⟩ | hb
  · have ha : a s = (.error stop, (a s).2) := Prod.ext hstop rfl
    exact .inl ⟨_, by rw [within_error ha], Stop.isTooDeep_within hdeep _⟩
  · exact .inr (by simp only [Action.within, hb])

/-- Every step of evaluation is the same, however many calls may be in progress. -/
theorem congruence (m : Machine) : m.Congruence Affords :=
  ⟨fun _ _ => .inr rfl, bind, within⟩

end Action.Affords

namespace Machine

open Action

/-- More calls in progress can stand in for fewer. -/
theorem callAt_affords (m : Machine) {depth depth' : Nat} (hle : depth ≤ depth') :
    CallsRelated .all (fun P a b => a.Affords b ∧ ∀ s v, (a s).1 = .ok v → P v)
      (m.callAt depth) (m.callAt depth') := by
  induction depth generalizing depth' with
  | zero =>
    cases depth' with
    | zero => exact .none
    | succ depth' => exact .spent fun P b => ⟨fun s => .inl ⟨_, rfl, rfl⟩, nofun⟩
  | succ depth ih =>
    cases depth' with
    | zero => exact absurd hle (Nat.not_succ_le_zero depth)
    | succ depth' =>
      have hcalls := ih (Nat.le_of_succ_le_succ hle)
      exact .some fun id args _ _ =>
        (Affords.congruence m).respects.apply hcalls trivial fun _ _ => trivial

/-- Evaluation inside of `depth'` calls that does not end because of too many of them ends in the
same way inside of fewer: with the same result or error, and in the same store. -/
theorem evalAt_eq_of_depth_le (m : Machine) (scope : FrameId) (e : Value) (s : Store)
    {depth depth' : Nat} (hle : depth ≤ depth')
    (h : ¬ TooDeep (m.evalAt (maxCallDepth - depth') scope e s).1) :
    m.evalAt (maxCallDepth - depth) scope e s = m.evalAt (maxCallDepth - depth') scope e s := by
  have hcalls := m.callAt_affords (Nat.sub_le_sub_left hle maxCallDepth)
  have haffords : (m.evalAt (maxCallDepth - depth') scope e).Affords
      (m.evalAt (maxCallDepth - depth) scope e) :=
    ((Affords.congruence m).respects.evalWith hcalls trivial trivial).1
  exact (haffords s).resolve_left h

theorem evalAt_eq_of_depth_le_sum :
    let i := ((Interpreter.standard []).evalSource
      "(define (sum n) (if (= n 0) 0 (+ n (sum (- n 1)))))").2
    let eval (depth : Nat) := i.machine.evalAt (maxCallDepth - depth) i.scope
      (.ofList [.symbol "sum", .integer 3]) i.store
    TooDeep (eval 9996).1 ∧ ¬ TooDeep (eval 9995).1 ∧ eval 0 = eval 9995 := by
  intro i eval
  have hend : ¬ TooDeep (eval 9995).1 := by decide +kernel
  refine ⟨by decide +kernel, hend, ?_⟩
  exact i.machine.evalAt_eq_of_depth_le i.scope _ i.store (by decide) hend

end Machine

end Lisplet
