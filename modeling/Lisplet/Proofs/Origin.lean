import Lisplet.Proofs.Naming
import Lisplet.Proofs.Origin.Tracing
import Lisplet.Value.Identity

/-! What errors tell of where they come from. An error of evaluation or of type is told with the
innermost pair whose evaluation raised it, unless its message looks as if it told one already. -/
namespace Lisplet

namespace Error

def message? : Error → Option String
  | eval fault _ => some fault.message
  | type fault _ => some fault.message
  | _ => none

theorem message?_within (e : Error) (expression : String) :
    (e.within expression).message? = e.message? := by
  unfold within
  split
  · cases e <;> rfl
  · rfl

theorem lacksContext_eq {e : Error} {message : String} (hmessage : e.message? = some message)
    (hbare : e.context? = none) : e.lacksContext = !showsContext message := by
  cases e with
  | eval fault context =>
    cases hmessage
    cases hbare
    rfl
  | type fault context =>
    cases hmessage
    cases hbare
    rfl
  | _ => cases hmessage

theorem text_eval (fault : EvalFault) (expression : String) : (eval fault (some expression)).text =
    (eval fault none).text ++ contextMark ++ "while evaluating: " ++ expression := by
  change
    "EvaluationError: " ++ (fault.message ++ contextMark ++ "while evaluating: " ++ expression) =
      "EvaluationError: " ++ fault.message ++ contextMark ++ "while evaluating: " ++ expression
  simp only [String.append_assoc]

theorem text_type (fault : TypeFault) (expression : String) : (type fault (some expression)).text =
    (type fault none).text ++ contextMark ++ "while evaluating: " ++ expression := by
  change
    "Type error: " ++ (fault.message ++ contextMark ++ "while evaluating: " ++ expression) =
      "Type error: " ++ fault.message ++ contextMark ++ "while evaluating: " ++ expression
  simp only [String.append_assoc]

theorem text_within {e : Error} (hlacks : e.lacksContext = true) (expression : String) :
    (e.within expression).text = e.text ++ contextMark ++ "while evaluating: " ++ expression := by
  unfold within
  rw [if_pos hlacks]
  cases e with
  | eval fault context =>
    cases context with
    | none => exact text_eval fault expression
    | some _ => cases hlacks
  | type fault context =>
    cases context with
    | none => exact text_type fault expression
    | some _ => cases hlacks
  | _ => cases hlacks

/-- An error that names no expression is given one just if its message does not look as if it named
one already. -/
theorem text_within_iff {e : Error} {message : String} (hmessage : e.message? = some message)
    (hbare : e.context? = none) (expression : String) :
    ((e.within expression).text = e.text ++ contextMark ++ "while evaluating: " ++ expression ↔
      showsContext message = false) ∧
    (showsContext message = true → e.within expression = e) := by
  have hlacks := lacksContext_eq hmessage hbare
  have hsame (hshows : showsContext message = true) : e.within expression = e := by
    simp [within, hlacks, hshows]
  refine ⟨⟨fun htext => ?_, fun hshows => text_within (by rw [hlacks, hshows]; rfl) expression⟩,
    hsame⟩
  rw [← Bool.not_eq_true]
  intro hshows
  rw [hsame hshows] at htext
  -- An error that stays as it was does not get longer.
  have hlength := congrArg String.length htext
  simp only [String.length_append] at hlength
  have hmark : contextMark.length = 12 := rfl
  omega

end Error

namespace Interpreter

theorem Leads.machine {i j : Interpreter} (h : i.Leads j) : j.machine = i.machine := by
  induction h with
  | refl => rfl
  | program _ _ ih => exact ih
  | source _ source ih =>
    rw [← ih]
    unfold evalSource
    split <;> rfl

/-- The evaluation of an expression, with errors as they were raised. -/
def tracing (i : Interpreter) (e : Value) : Tracing Value :=
  Tracing.evalAt i.machine maxCallDepth i.scope e

/-- Wherever programs lead a standard interpreter to, an error of evaluation or of type in which the
evaluation of a pair ends was raised in some innermost pair, and then named no expression. Its text
is followed by the text of that pair, once, just if its message does not look as if it named an
expression. Otherwise the error is as it was raised. -/
theorem error_names_origin (input : List UInt8) {i : Interpreter} (h : (standard input).Leads i)
    (operator operands : Value) {e : Error} {message : String}
    (he : (i.eval (.pair operator operands)).1 = .error (.failed e))
    (hmessage : e.message? = some message) :
    let s := (i.eval (.pair operator operands)).2.store
    ∃ raised a b,
      i.tracing (.pair operator operands) i.store =
        (.error (.failed raised, some (.pair a b)), s) ∧
      raised.message? = some message ∧ raised.context? = none ∧
      (e.text = raised.text ++ Error.contextMark ++ "while evaluating: " ++ s.text (.pair a b) ↔
        Error.showsContext message = false) ∧
      (Error.showsContext message = true → e = raised) := by
  intro s
  have hhosts : i.machine.hosts = #[] := by
    rw [h.machine]
    rfl
  obtain ⟨r, r', s', htrace, heval, htells⟩ :=
    Tracing.evalAt_explains hhosts maxCallDepth i.scope (.pair operator operands) i.store
  have hs : s = s' := congrArg Prod.snd heval
  have hr : r' = .error (.failed e) := (congrArg Prod.fst heval).symm.trans he
  rw [hs]
  cases htells with
  | ok v => cases hr
  | outside hbare => exact absurd rfl (Tracing.evalAt_pair_marked htrace)
  | @inside stop hbare a b =>
    cases stop with
    | unfinished => cases hr
    | failed raised =>
      have hwithin : raised.within (s'.text (.pair a b)) = e :=
        Stop.failed.inj (Except.error.inj hr)
      have hraised : raised.message? = some message := by
        rw [← hmessage, ← hwithin, Error.message?_within]
      have hcontext : raised.context? = none := Option.isNone_iff_eq_none.mp hbare
      have hiff := Error.text_within_iff hraised hcontext (s'.text (.pair a b))
      rw [hwithin] at hiff
      exact ⟨raised, a, b, htrace, hraised, hcontext, hiff⟩

theorem error_names_origin_in_loop :
    let i := ((standard []).evalSource
      "(define (f n) (if (= n 0) (car n) (f (- n 1)))) (define (g n) (+ 1 (f n)))").2
    let e := Value.pair (.symbol "g") (.ofList [.integer 2])
    let err := Error.type (.headOfNonPair ⟨"0", "integer"⟩) (some "(car n)")
    (i.eval e).1 = .error (.failed err) ∧
      ∃ raised a b, (i.tracing e i.store).1 = .error (.failed raised, some (.pair a b)) ∧
        err.text = raised.text ++ Error.contextMark ++ "while evaluating: " ++
          (i.eval e).2.store.text (.pair a b) := by
  intro i e err
  have herr : (i.eval e).1 = .error (.failed err) := by decide +kernel
  have hi : (standard []).Leads i := .source .refl _
  have hmessage : err.message? = some "head of non-pair: 0 (integer)" := by decide
  have hplain : Error.showsContext "head of non-pair: 0 (integer)" = false := by decide +kernel
  obtain ⟨raised, a, b, htrace, -, -, htext, -⟩ :=
    error_names_origin [] hi (.symbol "g") (.ofList [.integer 2]) herr hmessage
  refine ⟨herr, raised, a, b, congrArg Prod.fst htrace, ?_⟩
  rw [htext.mpr hplain]

/-- A message that quotes a string looks as if it named an expression if the string does. -/
theorem error_names_origin_quoted :
    let i := standard []
    let e := Value.ofList [.symbol "int", .string "\n  Context: "]
    let raised := Error.eval (.unreadableInteger "\n  Context: ") none
    (i.tracing e i.store).1 = .error (.failed raised, some e) ∧
      (i.eval e).1 = .error (.failed raised) ∧
      raised.text ≠ raised.text ++ Error.contextMark ++ "while evaluating: " ++ i.store.text e := by
  intro i e raised
  refine ⟨?_, ?_, ?_⟩
  · rfl
  · rfl
  · decide

end Interpreter

end Lisplet
