import Lisplet.Store

/-! How the body of a function uses the function's own name. A body that only calls it, and only
as the last step, can run as a loop that overwrites the parameters of one frame. -/
namespace Lisplet

/-- The uses of a name: none, only calls in tail position, or some other use. -/
inductive SelfUse where
  | absent
  | tailCalls
  | other
deriving DecidableEq, Repr

def SpecialForm.named? (name : String) : Option SpecialForm :=
  [lambda, define, letIn, letRec, ifElse, cond].find? fun form => form.name = name

@[simp] theorem SpecialForm.named?_name (form : SpecialForm) : named? form.name = some form := by
  cases form <;> decide

theorem SpecialForm.name_inj {form form' : SpecialForm} : form.name = form'.name ↔ form = form' :=
  ⟨fun h => Option.some.inj (by rw [← named?_name form, h, named?_name]), congrArg name⟩

theorem SpecialForm.eq_name_of_named? {name : String} {form : SpecialForm}
    (h : named? name = some form) : name = form.name := by
  have hfound := List.find?_some h
  exact (of_decide_eq_true hfound).symm

theorem Value.eq_symbol_of_named? {operator : Value} {form : SpecialForm}
    (h : operator.symbol?.bind SpecialForm.named? = some form) : operator = .symbol form.name := by
  cases operator with
  | symbol name => exact congrArg Value.symbol (SpecialForm.eq_name_of_named? h)
  | _ => cases h

namespace SelfUse

def combine : SelfUse → SelfUse → SelfUse
  | other, _ => other
  | _, other => other
  | absent, b => b
  | tailCalls, _ => tailCalls

def mentions (p : String → Bool) : Value → Bool
  | .symbol name => p name
  | .pair head tail => mentions p head || mentions p tail
  | _ => false

/-- Uses outside tail position. Forms that would keep the frame of the running call count too. -/
def inOperand (name : String) (e : Value) : SelfUse :=
  let keeps (x : String) : Bool := x = SpecialForm.lambda.name || x = SpecialForm.define.name
  if mentions (fun x => x = name || keeps x) e then other else absent

/-- Uses in one binding of a `let`. A binding of the name itself hides the function. -/
def inBinding (name : String) : Value → SelfUse
  | .pair target (.pair init .nil) =>
    if target.symbol? = some name then other else inOperand name init
  | e => inOperand name e

def inAll (use : Value → SelfUse) (start : SelfUse) (es : List Value) : SelfUse :=
  es.foldl (fun acc e => acc.combine (use e)) start

mutual

/-- Uses in an expression that stands in tail position. -/
def inTail (name : String) : Value → SelfUse
  | .pair head tail =>
    let expr := Value.pair head tail
    if !tail.isList then inOperand name expr
    else
      match head with
      | .symbol operator =>
        if operator = name then inAll (inOperand name) tailCalls tail.heads
        else if operator = SpecialForm.ifElse.name then
          match tail with
          | .pair test .nil => inOperand name test
          | .pair test (.pair yes .nil) => (inOperand name test).combine (inTail name yes)
          | .pair test (.pair yes (.pair no .nil)) =>
            ((inOperand name test).combine (inTail name yes)).combine (inTail name no)
          | _ => inOperand name expr
        else if operator = SpecialForm.cond.name then inClauses name tail
        else if operator = SpecialForm.letIn.name || operator = SpecialForm.letRec.name then
          match tail with
          | .pair bindings (.pair body .nil) =>
            if bindings.isList then
              (inAll (inBinding name) absent bindings.heads).combine (inTail name body)
            else (inOperand name bindings).combine (inOperand name body)
          | _ => inOperand name expr
        else inOperand name expr
      | _ => inOperand name expr
  | .symbol x => if x = name then other else absent
  | _ => absent

def inClauses (name : String) : Value → SelfUse
  | .pair clause rest =>
    match clause with
    | .pair test (.pair consequent .nil) =>
      ((inOperand name test).combine (inTail name consequent)).combine (inClauses name rest)
    | _ => (inOperand name clause).combine (inClauses name rest)
  | _ => absent

end

/-- The special form that an operator spells in the body of a function. The function's own name
spells a call of the function, even if it is that of a form. -/
def spelled? (name : String) (operator : Value) : Option SpecialForm :=
  if operator.symbol? = some name then none else operator.symbol?.bind SpecialForm.named?

theorem eq_of_spelled? {name : String} {operator : Value} {form : SpecialForm}
    (h : spelled? name operator = some form) :
    operator = .symbol form.name ∧ form.name ≠ name := by
  unfold spelled? at h
  split at h
  · cases h
  · rename_i hne
    obtain rfl := Value.eq_symbol_of_named? h
    exact ⟨rfl, fun heq => hne (congrArg some heq)⟩

theorem spelled?_self {name : String} : spelled? name (.symbol name) = none := by
  simp [spelled?, Value.symbol?]

/-- The pairs that are read as conditionals or bindings: an `if` of two or three operands, a `cond`
of a proper list, a `let` or `letrec` of two operands. -/
inductive IsForm (name : String) : Value → Prop
  | ifThen {operator test yes : Value} (hform : spelled? name operator = some .ifElse) :
    IsForm name (.pair operator (.pair test (.pair yes .nil)))
  | ifElse {operator test yes no : Value} (hform : spelled? name operator = some .ifElse) :
    IsForm name (.pair operator (.pair test (.pair yes (.pair no .nil))))
  | cond {operator clauses : Value} (hform : spelled? name operator = some .cond)
    (hlist : clauses.isList = true) : IsForm name (.pair operator clauses)
  | binding {operator bindings body : Value}
    (hform : spelled? name operator = some .letIn ∨ spelled? name operator = some .letRec) :
    IsForm name (.pair operator (.pair bindings (.pair body .nil)))

/-! What the search does with each form, and with what is none. -/

section

variable {name : String} {operator : Value}

theorem inTail_selfCall {args : Value} (hlist : args.isList = true) :
    inTail name (.pair (.symbol name) args) = inAll (inOperand name) tailCalls args.heads := by
  rw [inTail.eq_def]
  simp [hlist]

theorem inTail_ifThen {test yes : Value} (hform : spelled? name operator = some .ifElse) :
    inTail name (.pair operator (.pair test (.pair yes .nil))) =
      (inOperand name test).combine (inTail name yes) := by
  obtain ⟨rfl, hne⟩ := eq_of_spelled? hform
  rw [inTail.eq_def]
  simp [hne]

theorem inTail_ifElse {test yes no : Value} (hform : spelled? name operator = some .ifElse) :
    inTail name (.pair operator (.pair test (.pair yes (.pair no .nil)))) =
      ((inOperand name test).combine (inTail name yes)).combine (inTail name no) := by
  obtain ⟨rfl, hne⟩ := eq_of_spelled? hform
  rw [inTail.eq_def]
  simp [hne]

theorem inTail_cond {clauses : Value} (hform : spelled? name operator = some .cond)
    (hlist : clauses.isList = true) :
    inTail name (.pair operator clauses) = inClauses name clauses := by
  obtain ⟨rfl, hne⟩ := eq_of_spelled? hform
  rw [inTail.eq_def]
  simp [hne, hlist, SpecialForm.name_inj]

theorem inTail_binding {bindings body : Value}
    (hform : spelled? name operator = some .letIn ∨ spelled? name operator = some .letRec)
    (hlist : bindings.isList = true) :
    inTail name (.pair operator (.pair bindings (.pair body .nil))) =
      (inAll (inBinding name) absent bindings.heads).combine (inTail name body) := by
  rcases hform with hform | hform <;>
  · obtain ⟨rfl, hne⟩ := eq_of_spelled? hform
    rw [inTail.eq_def]
    simp [hne, hlist, SpecialForm.name_inj]

/-- An operator that spells a form which keeps no frame adds nothing to the uses in its operands. -/
theorem inOperand_operator {form : SpecialForm} (hform : spelled? name operator = some form)
    (hlambda : form ≠ .lambda) (hdefine : form ≠ .define) (e : Value) :
    inOperand name (.pair operator e) = inOperand name e := by
  obtain ⟨rfl, hne⟩ := eq_of_spelled? hform
  simp [inOperand, mentions, hne, SpecialForm.name_inj, hlambda, hdefine]

theorem inOperand_nil : inOperand name .nil = absent := rfl

theorem inOperand_pair (a b : Value) :
    inOperand name (.pair a b) = (inOperand name a).combine (inOperand name b) := by
  simp only [inOperand, mentions, Bool.or_eq_true]
  split <;> split <;> simp_all [combine]

theorem combine_absent (a : SelfUse) : a.combine absent = a := by
  cases a <;> rfl

theorem inTail_binding_of_not_isList {bindings body : Value}
    (hform : spelled? name operator = some .letIn ∨ spelled? name operator = some .letRec)
    (hlist : ¬ bindings.isList = true) :
    inTail name (.pair operator (.pair bindings (.pair body .nil))) =
      inOperand name (.pair operator (.pair bindings (.pair body .nil))) := by
  rcases hform with hform | hform <;>
  · rw [inOperand_operator hform (by decide) (by decide), inOperand_pair, inOperand_pair body,
      inOperand_nil, combine_absent]
    obtain ⟨rfl, hne⟩ := eq_of_spelled? hform
    rw [inTail.eq_def]
    simp [hne, hlist, SpecialForm.name_inj]

/-- What is no call of the function and no form is searched like an operand. -/
theorem inTail_eq_inOperand {a b : Value} (hself : ¬ (a = .symbol name ∧ b.isList = true))
    (hform : ¬ IsForm name (.pair a b)) :
    inTail name (.pair a b) = inOperand name (.pair a b) := by
  rw [inTail.eq_def]
  by_cases hlist : b.isList = true
  case neg => simp [hlist]
  cases a with
  | symbol operator =>
    have hne : operator ≠ name := fun heq => hself ⟨heq ▸ rfl, hlist⟩
    have hspelled : spelled? name (.symbol operator) = SpecialForm.named? operator := by
      simp [spelled?, Value.symbol?, hne]
    have hif : operator = SpecialForm.ifElse.name →
        spelled? name (.symbol operator) = some .ifElse :=
      fun heq => by rw [hspelled, heq, SpecialForm.named?_name]
    have hcond : operator ≠ SpecialForm.cond.name := fun heq =>
      hform (.cond (by rw [hspelled, heq, SpecialForm.named?_name]) hlist)
    have hbinding : operator = SpecialForm.letIn.name ∨ operator = SpecialForm.letRec.name →
        ∀ bindings body, b ≠ .pair bindings (.pair body .nil) := by
      rintro hlet bindings body rfl
      refine hform (.binding ?_)
      rw [hspelled]
      rcases hlet with rfl | rfl
      · exact .inl (SpecialForm.named?_name .letIn)
      · exact .inr (SpecialForm.named?_name .letRec)
    simp only [hlist, hne, hcond, Bool.not_true, Bool.false_eq_true, if_false, Bool.or_eq_true,
      decide_eq_true_eq]
    split
    · rename_i heq
      split
      · rw [inOperand_operator (hif heq) (by decide) (by decide), inOperand_pair, inOperand_nil,
          combine_absent]
      · exact absurd (.ifThen (hif heq)) hform
      · exact absurd (.ifElse (hif heq)) hform
      · rfl
    · split
      · rename_i hlet
        split
        · exact absurd rfl (hbinding hlet _ _)
        · rfl
      · rfl
  | _ => simp [hlist]

end

end SelfUse

/-- Whether a function of these parameters and this body can run its calls of `name` as a loop. -/
def loopsOver (name : String) (params : List String) (body : Value) : Bool :=
  !params.contains name && SelfUse.inTail name body == .tailCalls

/-- Names a value if it is a closure that has no name yet. -/
def Store.nameValue (s : Store) (name : String) : Value → Store
  | .closure id =>
    s.nameClosure id fun closure => ⟨name, loopsOver name closure.params closure.body⟩
  | _ => s

end Lisplet
