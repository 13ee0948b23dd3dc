import Lisplet.Proofs.Kinds
import Lisplet.Proofs.Reading.RoundTrip
import Lisplet.Proofs.Settled

/-! Data. An expression that holds no symbol and nothing that can be called evaluates to itself, so
printed data can be read and evaluated to get it back. -/
namespace Lisplet

/-- Whether a value is inert: none of the parts that pairs hold is a symbol, a function, a special
form or a closure. What vectors hold does not matter. -/
def Value.isInert : Value → Bool
  | pair head tail => head.isInert && tail.isInert
  | symbol _ => false
  | function .. => false
  | special _ => false
  | closure _ => false
  | _ => true

namespace Value

theorem kind_isInert : Kind fun v => v.isInert = true where
  integer _ := rfl
  float _ := rfl
  string _ := rfl
  boolean _ := rfl
  nil := rfl
  pair := by simp [isInert]

theorem Plain.isInert {n : Nat} {v : Value} (h : v.Plain n) : v.isInert = true := by
  induction h with
  | integer | boolean | string => rfl
  | list _ ih => exact kind_isInert.ofList.mpr ih

end Value

namespace Machine

variable (m : Machine) {call : Option Call} {apply : Call} (scope : FrameId)

theorem evalAtom_of_isInert {v : Value} (h : v.isInert = true) : m.evalAtom scope v = pure v := by
  cases v with
  | symbol name => cases h
  | _ => rfl

/-- Under an inert operator, the operands are elements. -/
theorem dispatch_of_isInert (operator operands : Value) {v : Value} (h : v.isInert = true) :
    m.dispatch call apply scope operator operands v =
      do return .pair v (← m.evalElements call scope operands) := by
  cases v with
  | function => cases h
  | special => cases h
  | closure => cases h
  | _ => rfl

/-- An inert value evaluates to itself, alone as well as element by element. -/
theorem evalWith_of_isInert (hcall : call = some apply) {v : Value} (h : v.isInert = true) :
    m.evalWith call scope v = pure v ∧ m.evalElements call scope v = pure v := by
  induction v with
  | pair head tail ihhead ihtail =>
    obtain ⟨hhead, htail⟩ := (Bool.and_eq_true _ _).mp h
    obtain ⟨hoperator, -⟩ := ihhead hhead
    obtain ⟨-, helements⟩ := ihtail htail
    constructor
    · rw [m.evalWith_pair hcall, hoperator, pure_bind, m.dispatch_of_isInert scope _ _ hhead,
        helements, pure_bind]
      exact (Action.Settled.pure _).within_eq _
    · rw [evalElements_eq]
      dsimp only
      rw [hoperator, pure_bind, helements, pure_bind]
  | _ =>
    rw [m.evalWith_atom hcall scope (by simp), m.evalElements_atom hcall scope (by simp)]
    exact ⟨m.evalAtom_of_isInert scope h, m.evalAtom_of_isInert scope h⟩

end Machine

namespace Interpreter

theorem evaluation_of_isInert (i : Interpreter) {v : Value} (h : v.isInert = true) :
    i.evaluation v = pure v :=
  (i.machine.evalWith_of_isInert i.scope rfl h).1

/-- What is inert evaluates to itself in every scope and store while any call may still be made, and
changes nothing. So integers, truth values, strings without quotes and lists of such values, at most
as many inside each other as can be read, are what every interpreter makes of their text. -/
theorem data_evaluates_to_itself :
    (∀ (m : Machine) (depth : Nat) (scope : FrameId) (s : Store) (v : Value), 0 < depth →
      v.isInert = true → m.evalAt depth scope v s = (.ok v, s)) ∧
    ∀ (i : Interpreter) (s : Store) (v : Value), v.Plain 255 →
      i.evalSource (s.text v) = (.ok v, i) := by
  constructor
  · intro m depth scope s v hdepth h
    obtain ⟨depth, rfl⟩ := Nat.exists_eq_succ_of_ne_zero (Nat.ne_of_gt hdepth)
    have hself : m.evalAt (depth + 1) scope v = pure v := (m.evalWith_of_isInert scope rfl h).1
    rw [hself]
    rfl
  · intro i s v h
    have hread : Reader.readProgram false (s.text v) = .ok [v] := by
      have hlegible : ∀ w ∈ [v], w.Legible 255 := by simpa using h.legible
      simpa using Value.Legible.readProgram_eq hlegible (by decide) s
    have hprogram : i.evalProgram [v] = (.ok v, i) := by
      rw [evalProgram, List.foldlM_cons, i.evaluation_of_isInert h.isInert, pure_bind]
      rfl
    rw [evalSource, hread]
    exact hprogram

theorem data_evaluates_to_itself_nested :
    let i := ((standard []).evalSource "(define v (make-vector 2)) (~ v 0 car)").2
    let s := i.store
    let v := Value.pair (.ofList [.nil, .vector ⟨0⟩]) (.pair (.tailCall (.symbol "x")) (.float 1.5))
    let w := Value.ofList [.ofList [.integer (-7), .nil], .string "(car", .boolean false]
    v.isInert = true ∧ i.machine.evalAt 1 i.scope v s = (.ok v, s) ∧
      s.text w = "((-7 ()) \"(car\" #f)" ∧ w.Plain 255 ∧
      i.evalSource (s.text w) = (.ok w, i) := by
  intro i s v w
  have hv : v.isInert = true := rfl
  have hw : w.Plain 255 := by
    refine .list fun x hx => ?_
    simp only [List.mem_cons, List.not_mem_nil, or_false] at hx
    rcases hx with rfl | rfl | rfl
    · refine .list fun x hx => ?_
      simp only [List.mem_cons, List.not_mem_nil, or_false] at hx
      rcases hx with rfl | rfl
      · exact .integer _ _
      · exact @Value.Plain.list 252 [] (by simp)
    · exact .string _ (by decide)
    · exact .boolean _ _
  obtain ⟨hinert, hplain⟩ := data_evaluates_to_itself
  exact ⟨hv, hinert i.machine 1 i.scope s v Nat.one_pos hv, by decide +kernel, hw, hplain i s w hw⟩

end Interpreter

end Lisplet
