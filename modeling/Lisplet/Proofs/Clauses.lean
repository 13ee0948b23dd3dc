import Lisplet.Proofs.Application

/-! A `cond` is a chain of `if`s: its tests are evaluated in order up to the first that holds. -/
namespace Lisplet

namespace Form

def clauseList (clauses : List (Value × Value)) : Value :=
  .ofList (clauses.map fun c => .ofList [c.1, c.2])

def cond (clauses : List (Value × Value)) : Value :=
  .pair (.symbol SpecialForm.cond.name) (clauseList clauses)

/-- The expression `(if test result (if test result ...))`, in which the last `if` goes without a
third operand; the empty list if there is no test. -/
def ifChain : List (Value × Value) → Value
  | [] => .nil
  | [(test, result)] => .ofList [.symbol SpecialForm.ifElse.name, test, result]
  | (test, result) :: c :: rest =>
    .ofList [.symbol SpecialForm.ifElse.name, test, result, ifChain (c :: rest)]

end Form

namespace Machine

/-- From the store `s`, some tests are evaluated one after the other, none of them holds, and that
leads to the store `t`. -/
inductive Passes (m : Machine) (depth : Nat) (scope : FrameId) :
    List Value → Store → Store → Prop
  | nil (s : Store) : Passes m depth scope [] s s
  | cons {test v : Value} {tests : List Value} {s s' t : Store}
    (htest : m.evalAt depth scope test s = (.ok v, s')) (hv : v.isTruthy = false)
    (htests : Passes m depth scope tests s' t) : Passes m depth scope (test :: tests) s t

/-- From the store `s`, a test of some clauses is reached in the store `t`. -/
def Tries (m : Machine) (depth : Nat) (scope : FrameId) (clauses : List (Value × Value))
    (s t : Store) : Prop :=
  ∃ passed c rest, clauses = passed ++ c :: rest ∧
    m.Passes depth scope (passed.map Prod.fst) s t

/-- The end that clauses come to from the store `s`. Only the tests up to the first that holds or
fails are evaluated, and of the results only that of the test that holds. -/
inductive Decides (m : Machine) (depth : Nat) (scope : FrameId) (clauses : List (Value × Value))
    (s : Store) : Except Stop Value × Store → Prop
  | exhausted {t : Store} (hpassed : m.Passes depth scope (clauses.map Prod.fst) s t) :
    Decides m depth scope clauses s (.ok .nil, t)
  | failed (passed : List (Value × Value)) {rest : List (Value × Value)}
    {test result : Value} {s' t : Store} {stop : Stop}
    (hclauses : clauses = passed ++ (test, result) :: rest)
    (hpassed : m.Passes depth scope (passed.map Prod.fst) s s')
    (htest : m.evalAt depth scope test s' = (.error stop, t)) :
    Decides m depth scope clauses s (.error stop, t)
  | chosen (passed : List (Value × Value)) {rest : List (Value × Value)}
    {test result v : Value} {s' t : Store}
    (hclauses : clauses = passed ++ (test, result) :: rest)
    (hpassed : m.Passes depth scope (passed.map Prod.fst) s s')
    (htest : m.evalAt depth scope test s' = (.ok v, t)) (hv : v.isTruthy = true) :
    Decides m depth scope clauses s (m.evalAt depth scope result t)

section

variable {m : Machine} {depth : Nat} {scope : FrameId} {test result v : Value}
  {clauses : List (Value × Value)} {s s' t : Store}

/-- The first test is reached at once, and the others once it does not hold. -/
theorem tries_cons :
    m.Tries depth scope ((test, result) :: clauses) s t ↔
      t = s ∨ ((m.evalAt depth scope test s).1.map Value.isTruthy = .ok false ∧
        m.Tries depth scope clauses (m.evalAt depth scope test s).2 t) := by
  constructor
  · rintro ⟨passed, c, rest, hclauses, hpassed⟩
    cases passed with
    | nil =>
      cases hpassed
      exact .inl rfl
    | cons p passed =>
      obtain ⟨rfl, hrest⟩ := List.cons.inj hclauses
      cases hpassed with
      | cons htest hv htests =>
        rw [htest]
        exact .inr ⟨congrArg Except.ok hv, passed, c, rest, hrest, htests⟩
  · rintro (rfl | ⟨hv, passed, c, rest, rfl, hpassed⟩)
    · exact ⟨[], _, clauses, rfl, .nil t⟩
    · rcases htest : m.evalAt depth scope test s with ⟨stop | v, s'⟩
      · rw [htest] at hv
        cases hv
      · rw [htest] at hv hpassed
        exact ⟨(test, result) :: passed, c, rest, rfl, .cons htest (Except.ok.inj hv) hpassed⟩

/-- What a first test that does not hold leaves to the other clauses. -/
theorem Decides.cons {r : Except Stop Value × Store}
    (htest : m.evalAt depth scope test s = (.ok v, s')) (hv : v.isTruthy = false)
    (h : m.Decides depth scope clauses s' r) :
    m.Decides depth scope ((test, result) :: clauses) s r := by
  cases h with
  | exhausted hpassed => exact .exhausted (.cons htest hv hpassed)
  | failed passed hclauses hpassed hfailed =>
    have hlonger := congrArg ((test, result) :: ·) hclauses
    exact .failed ((test, result) :: passed) hlonger (.cons htest hv hpassed) hfailed
  | chosen passed hclauses hpassed hchosen hw =>
    have hlonger := congrArg ((test, result) :: ·) hclauses
    exact .chosen ((test, result) :: passed) hlonger (.cons htest hv hpassed) hchosen hw

end

def evalClause (m : Machine) (call : Option Call) (scope : FrameId) (test result : Value)
    (otherwise : Action Value) : Action Value := do
  if (← m.evalWith call scope test).isTruthy then m.evalWith call scope result else otherwise

section

variable (m : Machine) {call : Option Call} {apply : Call} (hcall : call = some apply)
  {scope : FrameId} {s : Store}

theorem evalClause_error {test : Value} {stop : Stop} {s' : Store}
    (h : m.evalWith call scope test s = (.error stop, s')) (result : Value)
    (otherwise : Action Value) :
    m.evalClause call scope test result otherwise s = (.error stop, s') :=
  Action.bind_error h

theorem evalClause_ok {test v : Value} {s' : Store}
    (h : m.evalWith call scope test s = (.ok v, s')) (result : Value) (otherwise : Action Value) :
    m.evalClause call scope test result otherwise s =
      if v.isTruthy then m.evalWith call scope result s' else otherwise s' := by
  unfold evalClause
  rw [Action.bind_ok h]
  split <;> rfl

theorem evalCond_nil (scope : FrameId) :
    m.evalCond call scope (Form.clauseList []) = return .nil := by
  rw [Form.clauseList, List.map_nil, Value.ofList_nil, evalCond_eq]

theorem evalCond_cons (scope : FrameId) (c : Value × Value) (clauses : List (Value × Value)) :
    m.evalCond call scope (Form.clauseList (c :: clauses)) =
      m.evalClause call scope c.1 c.2 (m.evalCond call scope (Form.clauseList clauses)) := by
  unfold Form.clauseList
  rw [List.map_cons, Value.ofList_cons, Value.ofList_cons, Value.ofList_cons, Value.ofList_nil,
    evalCond_eq, evalClause]

include hcall

theorem evalClause_settled (scope : FrameId) (test result : Value) {otherwise : Action Value}
    (h : otherwise.Settled) : (m.evalClause call scope test result otherwise).Settled := by
  refine (m.evalWith_settled hcall scope test).bind fun v => ?_
  split
  · exact m.evalWith_settled hcall scope result
  · exact h

theorem evalCond_settled (scope : FrameId) (clauses : List (Value × Value)) :
    (m.evalCond call scope (Form.clauseList clauses)).Settled := by
  induction clauses with
  | nil =>
    rw [m.evalCond_nil]
    exact .pure _
  | cons c clauses ih =>
    rw [m.evalCond_cons]
    exact m.evalClause_settled hcall scope c.1 c.2 ih

theorem evalWith_cond (hfind : m.find? s scope SpecialForm.cond.name = some (.special .cond))
    (clauses : List (Value × Value)) :
    m.evalWith call scope (Form.cond clauses) s =
      m.evalCond call scope (Form.clauseList clauses) s := by
  have hsettled := m.evalCond_settled hcall scope clauses
  change m.evalWith call scope (.ofList (.symbol SpecialForm.cond.name :: _)) s = _
  rw [m.evalWith_special hcall hfind]
  change Action.within _ (m.evalCond call scope (Form.clauseList clauses)) s = _
  rw [hsettled.within_eq]

theorem evalWith_ifChain_nil (scope : FrameId) :
    m.evalWith call scope (Form.ifChain []) = return .nil :=
  m.evalWith_atom hcall scope nofun

/-- An `if` evaluates its test, and the rest of the chain if that does not hold. -/
theorem evalWith_ifChain_cons
    (hfind : m.find? s scope SpecialForm.ifElse.name = some (.special .ifElse))
    (test result : Value) (clauses : List (Value × Value)) :
    m.evalWith call scope (Form.ifChain ((test, result) :: clauses)) s =
      m.evalClause call scope test result (m.evalWith call scope (Form.ifChain clauses)) s := by
  have hsettled := m.evalClause_settled hcall scope test result
    (m.evalWith_settled hcall scope (Form.ifChain clauses))
  cases clauses with
  | nil =>
    have hform : m.evalForm call scope .ifElse (.ofList [test, result]) =
        m.evalClause call scope test result (m.evalWith call scope (Form.ifChain [])) := by
      rw [m.evalWith_ifChain_nil hcall, Value.ofList_cons, Value.ofList_cons, Value.ofList_nil,
        evalForm, evalIfElse_eq, evalClause]
    change m.evalWith call scope (.ofList [.symbol SpecialForm.ifElse.name, test, result]) s = _
    rw [m.evalWith_special hcall hfind, hform, hsettled.within_eq]
  | cons c clauses =>
    have hform : m.evalForm call scope .ifElse
        (.ofList [test, result, Form.ifChain (c :: clauses)]) =
        m.evalClause call scope test result
          (m.evalWith call scope (Form.ifChain (c :: clauses))) := by
      rw [Value.ofList_cons, Value.ofList_cons, Value.ofList_cons, Value.ofList_nil, evalForm,
        evalIfElse_eq, evalClause]
    change m.evalWith call scope
      (.ofList [.symbol SpecialForm.ifElse.name, test, result, Form.ifChain (c :: clauses)]) s = _
    rw [m.evalWith_special hcall hfind, hform, hsettled.within_eq]

end

/-- Where `if` is itself whenever a test is reached, clauses end as the chain of `if`s does. -/
theorem evalCond_eq_ifChain (m : Machine) {depth : Nat} (scope : FrameId) {s : Store}
    {clauses : List (Value × Value)}
    (hif : ∀ t, m.Tries (depth + 1) scope clauses s t →
      m.find? t scope "if" = some (.special .ifElse)) :
    m.evalCond (m.callAt (depth + 1)) scope (Form.clauseList clauses) s =
      m.evalAt (depth + 1) scope (Form.ifChain clauses) s := by
  have hcall : m.callAt (depth + 1) = some fun id args => m.apply (m.callAt depth) id args := rfl
  unfold evalAt
  induction clauses generalizing s with
  | nil => rw [m.evalCond_nil, m.evalWith_ifChain_nil hcall]
  | cons c clauses ih =>
    obtain ⟨test, result⟩ := c
    have hfirst := hif s (tries_cons.mpr (.inl rfl))
    rw [m.evalCond_cons, m.evalWith_ifChain_cons hcall hfirst]
    rcases htest : m.evalWith (m.callAt (depth + 1)) scope test s with ⟨stop | v, s'⟩
    · rw [m.evalClause_error htest, m.evalClause_error htest]
    · rw [m.evalClause_ok htest, m.evalClause_ok htest]
      split
      · rfl
      · rename_i hv
        have htest' : m.evalAt (depth + 1) scope test s = (.ok v, s') := htest
        refine ih fun t ht => hif t (tries_cons.mpr (.inr ?_))
        rw [htest']
        exact ⟨congrArg Except.ok (eq_false_of_ne_true hv), ht⟩

/-- Clauses are decided by the first test that holds or fails. -/
theorem evalCond_decides (m : Machine) (depth : Nat) (scope : FrameId) (s : Store)
    (clauses : List (Value × Value)) :
    m.Decides depth scope clauses s
      (m.evalCond (m.callAt depth) scope (Form.clauseList clauses) s) := by
  induction clauses generalizing s with
  | nil =>
    rw [m.evalCond_nil]
    exact .exhausted (.nil s)
  | cons c clauses ih =>
    obtain ⟨test, result⟩ := c
    rw [m.evalCond_cons]
    rcases htest : m.evalWith (m.callAt depth) scope test s with ⟨stop | v, s'⟩
    · rw [m.evalClause_error htest]
      exact .failed [] rfl (.nil s) htest
    · rw [m.evalClause_ok htest]
      split
      · rename_i hv
        exact .chosen [] rfl (.nil s) htest hv
      · rename_i hv
        exact .cons htest (eq_false_of_ne_true hv) (ih s')

/-- Where `cond` is itself, and `if` is itself whenever a test is reached, a `cond` ends as the
chain of `if`s does: with the same value or error, and in the same store. It evaluates its tests in
order up to the first that holds, and of the results only that of this test. -/
theorem evalAt_cond (m : Machine) (depth : Nat) (scope : FrameId) (s : Store)
    (clauses : List (Value × Value)) (hcond : m.find? s scope "cond" = some (.special .cond))
    (hif : ∀ t, m.Tries depth scope clauses s t →
      m.find? t scope "if" = some (.special .ifElse)) :
    m.evalAt depth scope (Form.cond clauses) s = m.evalAt depth scope (Form.ifChain clauses) s ∧
      (0 < depth → m.Decides depth scope clauses s (m.evalAt depth scope (Form.cond clauses) s)) := by
  cases depth with
  | zero =>
    have hnone : m.callAt 0 = none := rfl
    refine ⟨?_, fun h => absurd h (Nat.lt_irrefl 0)⟩
    rw [evalAt, evalAt, m.evalWith_none hnone, m.evalWith_none hnone]
  | succ depth =>
    have hcall : m.callAt (depth + 1) = some fun id args => m.apply (m.callAt depth) id args := rfl
    have hclauses : m.evalAt (depth + 1) scope (Form.cond clauses) s =
        m.evalCond (m.callAt (depth + 1)) scope (Form.clauseList clauses) s :=
      m.evalWith_cond hcall hcond clauses
    rw [hclauses]
    exact ⟨m.evalCond_eq_ifChain scope hif, fun _ => m.evalCond_decides (depth + 1) scope s clauses⟩

theorem evalAt_cond_prints_once :
    let i := ((Interpreter.standard []).evalSource "(define n 0)").2
    let call (name : String) (operands : List Value) := Value.ofList (.symbol name :: operands)
    let clauses := [
      (call "define" [.symbol "n", call "+" [.symbol "n", .integer 1]], call "exit" []),
      (call "=" [.symbol "n", .integer 0], call "print" [.string "zero"]),
      (call "=" [.symbol "n", .integer 1], call "print" [.string "one"]),
      (call "print" [.string "later"], call "exit" [])]
    let eval (e : Value) := i.machine.evalAt maxCallDepth i.scope e i.store
    eval (Form.cond clauses) = eval (Form.ifChain clauses) ∧
      (eval (Form.cond clauses)).2.output = "one\n" := by
  intro i call clauses eval
  have hcond : i.machine.find? i.store i.scope "cond" = some (.special .cond) := by decide +kernel
  have hif (t : Store) (ht : i.machine.Tries maxCallDepth i.scope clauses i.store t) :
      i.machine.find? t i.scope "if" = some (.special .ifElse) := by
    rcases tries_cons.mp ht with ht | ⟨-, ht⟩
    · rw [ht]
      decide +kernel
    rcases tries_cons.mp ht with ht | ⟨-, ht⟩
    · rw [ht]
      decide +kernel
    rcases tries_cons.mp ht with ht | ⟨hfails, -⟩
    · rw [ht]
      decide +kernel
    · exact absurd hfails (by decide +kernel)
  exact ⟨(i.machine.evalAt_cond maxCallDepth i.scope i.store clauses hcond hif).1, by decide +kernel⟩

end Machine

end Lisplet
