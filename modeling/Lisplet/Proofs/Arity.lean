import Lisplet.Proofs.Keeping

/-! Calls with a number of arguments that is not accepted. Every operation counts its arguments
itself. It refuses the counts that the arity it is listed with does not accept, but for one:
division and remainder let a single operand through. -/
namespace Lisplet

namespace Arity

theorem accepts_exact_eq_false_iff {count got : Nat} :
    (exact count).accepts got = false ↔ got ≠ count := by
  simp [accepts]

theorem accepts_atLeast_eq_false_iff {least got : Nat} :
    (atLeast least).accepts got = false ↔ got < least := by
  simp [accepts]

theorem accepts_range_eq_false_iff {least most got : Nat} :
    (range least most).accepts got = false ↔ ¬ (least ≤ got ∧ got ≤ most) := by
  simp only [accepts, Bool.and_eq_false_iff, decide_eq_false_iff_not, not_and_or]

end Arity

namespace Action

/-- From every store, an action stops because of the number of arguments and changes nothing. -/
def Refuses {α : Type} (a : Action α) (expected : Arity) (got : Nat) : Prop :=
  ∀ s, a s = (.error (.failed (.arity expected got none)), s)

theorem arityFault_refuses {α : Type} (expected : Arity) (got : Nat) :
    (arityFault expected got : Action α).Refuses expected got := fun _ => rfl

theorem observe_refuses {f : Observer} {args : List Value} {expected : Arity} {got : Nat}
    (h : ∀ s, f s args = .error (.arity expected got none)) :
    (observe f args).Refuses expected got := by
  intro s
  change ofExcept (f s args) s = _
  rw [h]
  rfl

end Action

open Action Arity

theorem Observer.onOne_refuses (f : Store → Value → Except Error Value) {args : List Value}
    (h : args.length ≠ 1) : (observe (onOne f) args).Refuses (.exact 1) args.length := by
  refine observe_refuses fun s => ?_
  match args with
  | [] => rfl
  | [_] => exact absurd rfl h
  | _ :: _ :: _ => rfl

namespace Vector

theorem make_refuses {args : List Value} (h : args.length ≠ 1) :
    (make args).Refuses (.exact 1) args.length := by
  match args with
  | [] => exact arityFault_refuses _ _
  | [_] => exact absurd rfl h
  | _ :: _ :: _ => exact arityFault_refuses _ _

theorem copy_refuses {args : List Value} (h : args.length ≠ 1) :
    (copy args).Refuses (.exact 1) args.length := by
  match args with
  | [] => exact arityFault_refuses _ _
  | [_] => exact absurd rfl h
  | v :: _ :: _ => cases v <;> exact arityFault_refuses _ _

theorem slot_refuses {args : List Value} (h : ¬ (2 ≤ args.length ∧ args.length ≤ 3)) :
    (slot args).Refuses (.range 2 3) args.length := by
  match args with
  | [] => exact arityFault_refuses _ _
  | [_] => exact arityFault_refuses _ _
  | [_, _] => exact absurd ⟨by simp, by simp⟩ h
  | [_, _, _] => exact absurd ⟨by simp, by simp⟩ h
  | _ :: _ :: _ :: _ :: _ => exact arityFault_refuses _ _

end Vector

namespace Console

/-- A line is taken only once the arguments have been counted. -/
theorem readLine_refuses {args : List Value} (h : args.length ≠ 0) :
    (readLine args).Refuses (.exact 0) args.length := by
  unfold readLine
  rw [if_pos h]
  exact fun s => bind_error (arityFault_refuses _ _ s)

theorem readIntegers_refuses {args : List Value} (h : args.length ≠ 0) :
    (readIntegers args).Refuses (.exact 0) args.length := by
  unfold readIntegers
  rw [if_pos h]
  exact fun s => bind_error (arityFault_refuses _ _ s)

theorem exit_refuses {args : List Value} (h : 1 < args.length) :
    (observe exit args).Refuses (.range 0 1) args.length := by
  refine observe_refuses fun s => ?_
  match args with
  | [] => exact absurd h (by simp)
  | [_] => exact absurd h (by simp)
  | _ :: _ :: _ => rfl

end Console

def Primitive.divides : Primitive → Bool
  | divide => true
  | remainder => true
  | _ => false

/-- A primitive refuses the counts that its arity does not accept, unless it divides and there is a
single operand. -/
theorem Primitive.run_refuses {p : Primitive} {args : List Value}
    (h : p.arity.accepts args.length = false) (hlone : p.divides = true → args.length ≠ 1) :
    (p.run args).Refuses p.arity args.length := by
  have hnone (hfew : args.length < 1) : args = [] := List.length_eq_zero_iff.mp (by omega)
  cases p with
  | add | list | toText | print => cases h
  | subtract =>
    obtain rfl := hnone (accepts_atLeast_eq_false_iff.mp h)
    exact observe_refuses fun _ => rfl
  | multiply =>
    obtain rfl := hnone (accepts_atLeast_eq_false_iff.mp h)
    exact observe_refuses fun _ => rfl
  | divide =>
    have hfew : args.length < 2 := accepts_atLeast_eq_false_iff.mp h
    have hmany := hlone rfl
    obtain rfl := hnone (by omega)
    exact observe_refuses fun _ => rfl
  | remainder =>
    have hfew : args.length < 2 := accepts_atLeast_eq_false_iff.mp h
    have hmany := hlone rfl
    obtain rfl := hnone (by omega)
    exact observe_refuses fun _ => rfl
  | compare relation =>
    have hfew : args.length < 2 := accepts_atLeast_eq_false_iff.mp h
    exact observe_refuses fun _ => if_pos hfew
  | identity | head | tail | isNull | toInteger | characters =>
    exact Observer.onOne_refuses _ (accepts_exact_eq_false_iff.mp h)
  | cons =>
    have hne : args.length ≠ 2 := accepts_exact_eq_false_iff.mp h
    refine observe_refuses fun s => ?_
    match args with
    | [] => rfl
    | [_] => rfl
    | [_, _] => exact absurd rfl hne
    | _ :: _ :: _ :: _ => rfl
  | readLine => exact Console.readLine_refuses (accepts_exact_eq_false_iff.mp h)
  | readIntegers => exact Console.readIntegers_refuses (accepts_exact_eq_false_iff.mp h)
  | exit =>
    have hrange := accepts_range_eq_false_iff.mp h
    exact Console.exit_refuses (by omega)
  | makeVector => exact Vector.make_refuses (accepts_exact_eq_false_iff.mp h)
  | copyVector => exact Vector.copy_refuses (accepts_exact_eq_false_iff.mp h)
  | vectorSlot => exact Vector.slot_refuses (accepts_range_eq_false_iff.mp h)

/-- The division of a single operand comes to that operand, or to an error of its type. -/
theorem Primitive.run_lone {p : Primitive} (hp : p.divides = true) (v : Value) (s : Store) :
    p.run [v] s = (.ok v, s) ∨ ∃ fault, p.run [v] s = (.error (.failed (.type fault none)), s) := by
  cases p with
  | divide =>
    cases v with
    | integer n => exact .inl rfl
    | float x => exact .inl rfl
    | _ => exact .inr ⟨_, rfl⟩
  | remainder =>
    cases v with
    | integer n => exact .inl rfl
    | _ => exact .inr ⟨_, rfl⟩
  | _ => cases hp

namespace Machine

/-- A special form refuses the counts that its arity does not accept. -/
theorem evalForm_refuses (m : Machine) (call : Option Call) (scope : FrameId) {form : SpecialForm}
    {operands : List Value} (h : form.arity.accepts operands.length = false) :
    (m.evalForm call scope form (.ofList operands)).Refuses form.arity operands.length := by
  -- What the forms look at is the shape of the list, so the count is brought to it.
  have hheads : (Value.ofList operands).heads.length = operands.length := by
    rw [Value.heads_ofList]
  have hfault (expected : Arity) :
      (arityFault expected (Value.ofList operands).heads.length : Action Value).Refuses expected
        operands.length := by
    rw [hheads]
    exact arityFault_refuses _ _
  have hpair (hne : operands.length ≠ 2) (a b : Value) :
      Value.ofList operands = .pair a (.pair b .nil) → False := fun heq => by
    simp [heq, ← hheads] at hne
  have htriple (hne : operands.length ≠ 3) (a b c : Value) :
      Value.ofList operands = .pair a (.pair b (.pair c .nil)) → False := fun heq => by
    simp [heq, ← hheads] at hne
  cases form with
  | lambda =>
    have hne : operands.length ≠ 2 := accepts_exact_eq_false_iff.mp h
    rw [evalForm, evalLambda.eq_def]
    split
    · rename_i heq
      exact (hpair hne _ _ heq).elim
    · exact hfault _
  | define =>
    have hne : operands.length ≠ 2 := accepts_exact_eq_false_iff.mp h
    rw [evalForm, evalDefine_eq]
    split
    · rename_i heq
      exact (hpair hne _ _ heq).elim
    · rename_i heq
      exact (hpair hne _ _ heq).elim
    · rename_i heq
      exact (hpair hne _ _ heq).elim
    · exact hfault _
  | letIn =>
    have hne : operands.length ≠ 2 := accepts_exact_eq_false_iff.mp h
    rw [evalForm, evalLetIn_eq]
    split
    · rename_i heq
      exact (hpair hne _ _ heq).elim
    · exact hfault _
  | letRec =>
    have hne : operands.length ≠ 2 := accepts_exact_eq_false_iff.mp h
    rw [evalForm, evalLetRec_eq]
    split
    · rename_i heq
      exact (hpair hne _ _ heq).elim
    · exact hfault _
  | ifElse =>
    have hrange := accepts_range_eq_false_iff.mp h
    rw [evalForm, evalIfElse_eq]
    split
    · rename_i heq
      exact (hpair (by omega) _ _ heq).elim
    · rename_i heq
      exact (htriple (by omega) _ _ _ heq).elim
    · exact hfault _
  | cond => cases h

end Machine

namespace Operation

/-- What an operation does with its arguments, however many there are. Those of a special form are
expressions, which it evaluates in `scope` while `depth` calls may still be in progress. -/
def body (m : Machine) (depth : Nat) (scope : FrameId) : Operation → List Value → Action Value
  | .function p, args => p.run args
  | .special form, args => m.evalForm (m.callAt depth) scope form (.ofList args)

def divides : Operation → Bool
  | .function p => p.divides
  | .special _ => false

/-- With a number of arguments that its arity does not accept, an operation reports that arity and
that number and changes nothing, unless it is a division or a remainder of a single operand. That
comes to the operand itself, or to an error of its type. -/
theorem body_refuses_iff (op : Operation) (m : Machine) (depth : Nat) (scope : FrameId)
    (args : List Value) (s : Store) (h : op.arity.accepts args.length = false) :
    (op.body m depth scope args s = (.error (.failed (.arity op.arity args.length none)), s) ↔
      ¬ (op.divides = true ∧ args.length = 1)) ∧
    ∀ v, op.divides = true → args = [v] →
      op.body m depth scope args s = (.ok v, s) ∨
        ∃ fault, op.body m depth scope args s = (.error (.failed (.type fault none)), s) := by
  have hlone (v : Value) (hdivides : op.divides = true) (hargs : args = [v]) :
      op.body m depth scope args s = (.ok v, s) ∨
        ∃ fault, op.body m depth scope args s = (.error (.failed (.type fault none)), s) := by
    subst hargs
    cases op with
    | function p => exact Primitive.run_lone hdivides v s
    | special form => cases hdivides
  refine ⟨⟨?_, fun hnot => ?_⟩, hlone⟩
  · rintro hrefused ⟨hdivides, hone⟩
    obtain ⟨v, rfl⟩ := List.length_eq_one_iff.mp hone
    rcases hlone v hdivides rfl with hok | ⟨fault, hfault⟩
    · rw [hok] at hrefused
      cases hrefused
    · rw [hfault] at hrefused
      cases hrefused
  · cases op with
    | function p => exact Primitive.run_refuses h (fun hp hone => hnot ⟨hp, hone⟩) s
    | special form => exact m.evalForm_refuses _ scope h s

theorem body_refuses_iff_less_of_one :
    let op := Operation.function (.compare .less)
    let i := Interpreter.standard []
    op.arity.accepts 1 = false ∧
      op.body i.machine maxCallDepth i.scope [.string "a"] i.store =
        (.error (.failed (.arity (.atLeast 2) 1 none)), i.store) := by
  intro op i
  have hcount : op.arity.accepts [Value.string "a"].length = false := rfl
  refine ⟨hcount, (op.body_refuses_iff i.machine maxCallDepth i.scope _ i.store hcount).1.mpr ?_⟩
  decide

/-- Division takes at least two operands, yet the quotient of one is that operand. -/
theorem body_divide_lone :
    let op := Operation.function .divide
    let i := Interpreter.standard []
    Operation.find? "/" = some op ∧ op.arity.accepts 1 = false ∧
      op.body i.machine maxCallDepth i.scope [.integer 5] i.store =
        (.ok (.integer 5), i.store) := by
  intro op i
  exact ⟨by decide, rfl, rfl⟩

end Operation

end Lisplet
