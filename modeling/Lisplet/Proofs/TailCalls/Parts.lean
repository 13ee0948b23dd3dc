import Lisplet.Proofs.Hygiene
import Lisplet.Proofs.Occurrence

/-! Parts of the body of a function, as the names of the special forms in it tell: those in tail
position, and those that are evaluated for something else. -/
namespace Lisplet.SelfUse

open Value (Path ItemAt Nested)

/-- The parts of an expression that are in tail position if the expression is: the branches of an
`if`, the consequents of a `cond`, the body of a `let` or `letrec` that does not bind the name of
the function. -/
inductive TailPart (name : String) : Value → Path → Value → Prop
  | thenBranch {operator test yes rest : Value} (hform : spelled? name operator = some .ifElse)
    (hrest : rest = .nil ∨ ∃ no, rest = .pair no .nil) :
    TailPart name (.pair operator (.pair test (.pair yes rest))) [.tail, .tail, .head] yes
  | elseBranch {operator test yes no : Value} (hform : spelled? name operator = some .ifElse) :
    TailPart name (.pair operator (.pair test (.pair yes (.pair no .nil))))
      [.tail, .tail, .tail, .head] no
  | consequent {operator clauses test e : Value} {q : Path}
    (hform : spelled? name operator = some .cond) (hlist : clauses.isList = true)
    (hclause : ItemAt clauses q (.pair test (.pair e .nil))) :
    TailPart name (.pair operator clauses) (.tail :: (q ++ [.tail, .head])) e
  | letBody {operator bindings body : Value}
    (hform : spelled? name operator = some .letIn ∨ spelled? name operator = some .letRec)
    (hnames : ∀ rest, .pair (.symbol name) rest ∉ bindings.heads) :
    TailPart name (.pair operator (.pair bindings (.pair body .nil))) [.tail, .tail, .head] body

/-- The parts of an expression that are evaluated for something else: compound operators, the
operands of what is no form, tests, right sides of bindings. A clause that is no pair of a test and
an expression counts as a whole. -/
inductive OperandPart (name : String) : Value → Path → Value → Prop
  | operator {a b operands : Value} :
    OperandPart name (.pair (.pair a b) operands) [.head] (.pair a b)
  | operand {operator operands part : Value} {q : Path}
    (hform : ¬ IsForm name (.pair operator operands)) (hitem : ItemAt operands q part) :
    OperandPart name (.pair operator operands) (.tail :: q) part
  | test {operator test rest : Value} (hform : spelled? name operator = some .ifElse) :
    OperandPart name (.pair operator (.pair test rest)) [.tail, .head] test
  | clauseTest {operator clauses test e : Value} {q : Path}
    (hform : spelled? name operator = some .cond)
    (hclause : ItemAt clauses q (.pair test (.pair e .nil))) :
    OperandPart name (.pair operator clauses) (.tail :: (q ++ [.head])) test
  | clause {operator clauses clause : Value} {q : Path}
    (hform : spelled? name operator = some .cond) (hclause : ItemAt clauses q clause)
    (hmalformed : ∀ test e, clause ≠ .pair test (.pair e .nil)) :
    OperandPart name (.pair operator clauses) (.tail :: q) clause
  | initializer {operator bindings body target init : Value} {q : Path}
    (hform : spelled? name operator = some .letIn ∨ spelled? name operator = some .letRec)
    (hbinding : ItemAt bindings q (.pair target (.pair init .nil))) :
    OperandPart name (.pair operator (.pair bindings (.pair body .nil)))
      (.tail :: .head :: (q ++ [.tail, .head])) init

/-- The expressions in tail position in an expression that is: itself, and those in its parts. -/
abbrev TailAt (name : String) : Value → Path → Value → Prop := Nested (TailPart name)

/-- The expressions in an expression: itself, and those in all of its parts. -/
abbrev ExpressionAt (name : String) : Value → Path → Value → Prop :=
  Nested fun e q part => TailPart name e q part ∨ OperandPart name e q part

section

variable {name : String} {e part part' operator operands : Value} {q q' p p' : Path}

theorem not_isForm_selfCall {args : Value} : ¬ IsForm name (.pair (.symbol name) args) := by
  intro h
  cases h with
  | ifThen hform => simp [spelled?_self] at hform
  | ifElse hform => simp [spelled?_self] at hform
  | cond hform _ => simp [spelled?_self] at hform
  | binding hform => simp [spelled?_self] at hform

namespace TailPart

theorem isForm (h : TailPart name e q part) : IsForm name e := by
  cases h with
  | thenBranch hform hrest =>
    rcases hrest with rfl | ⟨no, rfl⟩
    · exact .ifThen hform
    · exact .ifElse hform
  | elseBranch hform => exact .ifElse hform
  | consequent hform hlist _ => exact .cond hform hlist
  | letBody hform _ => exact .binding hform

theorem at? (h : TailPart name e q part) : e.at? q = some part := by
  cases h with
  | consequent _ _ hclause => simp [Value.at?_append, hclause.at?]
  | _ => simp

theorem sizeOf_lt (h : TailPart name e q part) : sizeOf part < sizeOf e := by
  cases h with
  | consequent _ _ hclause =>
    have hlt := hclause.sizeOf_lt
    simp at hlt ⊢
    omega
  | _ =>
    simp
    omega

theorem of_ifElse (hform : spelled? name operator = some .ifElse)
    (h : TailPart name (.pair operator operands) q part) :
    ∃ r, q = .tail :: .tail :: r ∧ ItemAt operands (.tail :: r) part := by
  cases h with
  | thenBranch _ _ => exact ⟨_, rfl, .later .first⟩
  | elseBranch _ => exact ⟨_, rfl, .later (.later .first)⟩
  | consequent hcond _ _ => simp [hform] at hcond
  | letBody hlet _ => simp [hform] at hlet

theorem of_cond (hform : spelled? name operator = some .cond)
    (h : TailPart name (.pair operator operands) q part) :
    ∃ r test, q = .tail :: (r ++ [.tail, .head]) ∧
      ItemAt operands r (.pair test (.pair part .nil)) := by
  cases h with
  | thenBranch hif _ => simp [hform] at hif
  | elseBranch hif => simp [hform] at hif
  | consequent _ _ hclause => exact ⟨_, _, rfl, hclause⟩
  | letBody hlet _ => simp [hform] at hlet

theorem of_binding
    (hform : spelled? name operator = some .letIn ∨ spelled? name operator = some .letRec)
    (h : TailPart name (.pair operator operands) q part) :
    ∃ bindings, operands = .pair bindings (.pair part .nil) ∧ q = [.tail, .tail, .head] := by
  cases h with
  | thenBranch hif _ => simp [hif] at hform
  | elseBranch hif => simp [hif] at hform
  | consequent hcond _ _ => simp [hcond] at hform
  | letBody _ _ => exact ⟨_, rfl, rfl⟩

/-- No part in tail position is inside another one. -/
theorem unique (h : TailPart name e q part) (h' : TailPart name e q' part')
    (heq : q ++ p = q' ++ p') : q = q' ∧ part = part' ∧ p = p' := by
  suffices hq : q = q' by
    subst hq
    exact ⟨rfl, Option.some.inj (h.at?.symm.trans h'.at?), List.append_cancel_left heq⟩
  cases h with
  | thenBranch hform _ =>
    obtain ⟨r, rfl, hitem⟩ := h'.of_ifElse hform
    exact congrArg _ ((ItemAt.later .first).unique hitem (List.cons.inj heq).2).1
  | elseBranch hform =>
    obtain ⟨r, rfl, hitem⟩ := h'.of_ifElse hform
    exact congrArg _ ((ItemAt.later (.later .first)).unique hitem (List.cons.inj heq).2).1
  | consequent hform _ hclause =>
    obtain ⟨r, test, rfl, hclause'⟩ := h'.of_cond hform
    simp only [List.cons_append, List.append_assoc, List.cons.injEq, true_and] at heq
    rw [(hclause.unique hclause' heq).1]
  | letBody hform _ =>
    obtain ⟨bindings, -, rfl⟩ := h'.of_binding hform
    rfl

end TailPart

namespace OperandPart

theorem at? (h : OperandPart name e q part) : e.at? q = some part := by
  cases h with
  | operator => simp
  | operand _ hitem => simp [hitem.at?]
  | test _ => simp
  | clauseTest _ hclause => simp [Value.at?_append, hclause.at?]
  | clause _ hclause _ => simp [hclause.at?]
  | initializer _ hbinding => simp [Value.at?_append, hbinding.at?]

/-- No operand has anything in common with a part in tail position. -/
theorem apart (h : OperandPart name e q part) (h' : TailPart name e q' part') :
    q ++ p ≠ q' ++ p' := by
  intro heq
  cases h with
  | operator => cases h' <;> simp at heq
  | operand hform _ => exact hform h'.isForm
  | test hform =>
    obtain ⟨r, rfl, -⟩ := h'.of_ifElse hform
    simp at heq
  | clauseTest hform hclause =>
    obtain ⟨r, test, rfl, hclause'⟩ := h'.of_cond hform
    simp only [List.cons_append, List.append_assoc, List.cons.injEq, true_and] at heq
    simpa using (hclause.unique hclause' heq).2.2
  | clause hform hclause hmalformed =>
    obtain ⟨r, test, rfl, hclause'⟩ := h'.of_cond hform
    simp only [List.cons_append, List.append_assoc, List.cons.injEq, true_and] at heq
    exact hmalformed _ _ (hclause.unique hclause' heq).2.1
  | initializer hform _ =>
    obtain ⟨bindings, -, rfl⟩ := h'.of_binding hform
    simp at heq

end OperandPart

end

/-- A proper list of bindings `(symbol expression)`. -/
def IsBindingList (bindings : Value) : Prop :=
  bindings.isList = true ∧ ∀ b ∈ bindings.heads, ∃ x init, b = .pair (.symbol x) (.pair init .nil)

/-- Every `let` or `letrec` in tail position has a proper list of bindings. -/
def LetsWellFormed (name : String) (e : Value) : Prop :=
  ∀ ⦃p : Path⦄ ⦃operator bindings body : Value⦄,
    spelled? name operator = some .letIn ∨ spelled? name operator = some .letRec →
    TailAt name e p (.pair operator (.pair bindings (.pair body .nil))) → IsBindingList bindings

theorem letsWellFormed_iff {name : String} {e : Value} : LetsWellFormed name e ↔
    (∀ operator bindings body,
      spelled? name operator = some .letIn ∨ spelled? name operator = some .letRec →
      e = .pair operator (.pair bindings (.pair body .nil)) → IsBindingList bindings) ∧
    ∀ q part, TailPart name e q part → LetsWellFormed name part := by
  constructor
  · refine fun h => ⟨?_, fun q part hpart p _ _ _ hform htail => h hform (.inside hpart htail)⟩
    rintro operator bindings body hform rfl
    exact h hform .here
  · rintro ⟨hhere, hparts⟩ p operator bindings body hform htail
    cases htail with
    | here => exact hhere _ _ _ hform rfl
    | inside hpart htail => exact hparts _ _ hpart hform htail

end Lisplet.SelfUse
