import Lisplet.Proofs.Containment.Programs
import Lisplet.Proofs.Lockstep.Rounds

/-! Running calls as loops does not change the meaning of hygienic programs. -/
namespace Lisplet

/-- A store matches itself in the frames that are used freely. -/
theorem Contained.matched {κ : Modes} {s : Store} (h : Contained κ s) :
    Matched (fun f g => f = g ∧ κ f .plain) s s where
  contained := {
    lt := by
      rintro f μ ⟨rfl, g, -, hf⟩
      exact h.lt hf
    mode_eq := by
      rintro f μ ν ⟨rfl, -⟩ ⟨rfl, -⟩
      rfl
    chain := by
      rintro f μ ⟨rfl, g, -, hf⟩ f' hf'
      rcases h.chain hf f' hf' with hplain | hplain
      · exact .inl ⟨rfl, f', rfl, hplain⟩
      · exact .inl ⟨rfl, f', rfl, hplain⟩
    bindings := by
      rintro f μ ⟨rfl, g, -, hf⟩ name v hv
      exact h.bindings hf hv
    closures := fun hc => ⟨(h.closures hc).1, rfl, _, rfl, (h.closures hc).2⟩
    items := h.items }
  vectors := rfl
  input := rfl
  output := rfl
  size := rfl
  closure hc := ⟨_, ⟨rfl, (h.closures hc).2⟩, hc⟩
  lt := by
    rintro f g ⟨rfl, hf⟩
    exact h.lt hf
  bindings := by
    rintro f g ⟨rfl, hf⟩
    rfl
  chain := by
    rintro f g ⟨rfl, hf⟩
    exact List.forall₂_same.mpr fun f' hf' => ⟨rfl, (h.chain hf f' hf').elim id id⟩
  unique := by
    rintro f g f' g' ⟨rfl, -⟩ ⟨rfl, -⟩
    exact Iff.rfl

namespace Machine

theorem program_lockstep {side : Side} {m : Machine} (hm : m.Standard) {depth depth' : Nat}
    (hfits : side.Fits m.rounds depth depth') {f g : FrameId} {es : List Value}
    (hes : ∀ e ∈ es, hygienic reserved e = true) {v : Value} (hv : v.isOrdinary = true) :
    Bond.plain.InStep side m f g (es.foldlM (fun _ e => m.evalAt depth f e) v)
      (es.foldlM (fun _ e => m.recursive.evalAt depth' g e) v) := by
  induction es generalizing v with
  | nil => exact Lockstep.pure fun _ _ _ hlinks => ⟨hlinks, rfl, hv⟩
  | cons e es ih =>
    rw [List.forall_mem_cons] at hes
    rw [List.foldlM_cons, List.foldlM_cons]
    have calls := callAt_callsMatch hm depth depth' hfits
    exact Lockstep.bind_same (evalWith_lockstep hm calls e .plain f g hes.1 trivial)
      fun w hw => ih hes.2 hw

end Machine

namespace Interpreter

def recursive (i : Interpreter) : Interpreter := { i with machine := i.machine.recursive }

def allowing (i : Interpreter) (rounds : Nat) : Interpreter :=
  { i with machine := { i.machine with rounds } }

def evalSourceAt (i : Interpreter) (depth : Nat) (source : String) :
    Except Stop Value × Interpreter :=
  match Reader.readProgram false source with
  | .ok program => i.perform (program.foldlM (fun _ e => i.machine.evalAt depth i.scope e) .nil)
  | .error e => (.error (.failed (.read e)), i)

/-- What there is to see of an evaluation: the text of its value or its error, up to the expression
that a wrong number of arguments may show, and what it has printed. -/
def report : Except Stop Value × Interpreter → Except Stop String × String
  | (.ok v, i) => (.ok (i.store.text v), i.store.output)
  | (.error stop, i) => (.error stop.bare, i.store.output)

theorem Clear.allowing {i : Interpreter} (hi : i.Clear) (rounds : Nat) :
    (i.allowing rounds).Clear :=
  ⟨⟨hi.1.globals, hi.1.hosts⟩, hi.2⟩

theorem report_eq_of_outcome {side : Side} {ρ : Match} {t : Store} {inv : Assertion}
    {P : Value → Prop} {x y : Except Stop Value × Store}
    (h : Outcome side ρ t (Same inv P) x y) (hend : ¬ side.Excuses x.1 y.1) (i j : Interpreter) :
    report (y.1, { j with store := y.2 }) = report (x.1, { i with store := x.2 }) := by
  rcases h.cases with hexcused | ⟨_, stop, stop', s', t', rfl, rfl, -, hst, hbare⟩ |
    ⟨_, v, w, s', t', rfl, rfl, -, hst, -, rfl, -⟩
  · exact absurd hexcused hend
  · exact Prod.ext (congrArg Except.error hbare.symm) hst.output.symm
  · exact Prod.ext (congrArg Except.ok (congrFun hst.alike.text.symm w)) hst.output.symm

/-- At depths that fit, evaluation with loops and without shows the same. -/
theorem evalSourceAt_report {side : Side} {i : Interpreter} (hi : i.Clear) {depth depth' : Nat}
    (hfits : side.Fits i.machine.rounds depth depth') {source : String}
    (h : hygienicSource reserved source = true)
    (hend : ¬ side.Excuses (i.evalSourceAt depth source).1
      (i.recursive.evalSourceAt depth' source).1) :
    report (i.recursive.evalSourceAt depth' source) = report (i.evalSourceAt depth source) := by
  obtain ⟨hm, κ, hscope, hs⟩ := hi
  cases hread : Reader.readProgram false source with
  | error e =>
    simp only [evalSourceAt, hread]
    rfl
  | ok program =>
    simp only [hygienicSource, hread] at h
    simp only [evalSourceAt, hread] at hend ⊢
    have hrun := Machine.program_lockstep hm hfits (f := i.scope) (g := i.scope)
      (List.all_eq_true.mp h) (v := .nil) rfl
    exact report_eq_of_outcome (hrun _ i.store i.store hs.matched ⟨rfl, hscope⟩) hend i i.recursive

/-- Running calls as loops preserves the meaning of hygienic programs, whatever the bound on rounds.
If a program comes to an end that no bound has brought about, then without loops it comes to the
same end as soon as enough calls may be in progress; and if without loops it comes to such an end,
then it comes to the same end with loops. -/
theorem loops_preserve_meaning (input : List UInt8) (rounds : Nat) (source : String)
    (h : hygienicSource reserved source = true) :
    let i := (standard input).allowing rounds
    (¬ Limited (i.evalSource source).1 → ∃ bound, ∀ depth ≥ bound,
      report (i.recursive.evalSourceAt depth source) = report (i.evalSource source)) ∧
    (maxCallDepth ≤ rounds → ¬ Limited (i.recursive.evalSource source).1 →
      report (i.recursive.evalSource source) = report (i.evalSource source)) := by
  intro i
  have hi : i.Clear := (standard_clear input).allowing rounds
  constructor
  · intro hend
    refine ⟨maxCallDepth * (rounds + 1), fun depth hdepth => ?_⟩
    have hfits : Side.left.Fits i.machine.rounds maxCallDepth depth := hdepth
    exact evalSourceAt_report hi hfits h hend
  · intro hrounds hend
    have hfits : Side.right.Fits i.machine.rounds maxCallDepth maxCallDepth :=
      ⟨Nat.le_refl _, hrounds⟩
    exact evalSourceAt_report hi hfits h hend

theorem loops_preserve_meaning_countdown :
    let i := standard []
    let source := "(define (f n) (let ((m (print n))) (if (= n 0) (list n) (f (- n 1))))) (f 4)"
    hygienicSource reserved source = true ∧
      (∃ bound, ∀ depth ≥ bound,
        report (i.recursive.evalSourceAt depth source) = report (i.evalSource source)) ∧
      report (i.recursive.evalSource source) = report (i.evalSource source) := by
  intro i source
  have hygiene : hygienicSource reserved source = true := by decide +kernel
  have h := loops_preserve_meaning [] maxRounds source hygiene
  exact ⟨hygiene, h.1 (by decide +kernel), h.2 (by decide) (by decide +kernel)⟩

example (input : List UInt8) : (standard input).allowing maxRounds = standard input := rfl

example (i : Interpreter) (source : String) :
    i.evalSource source = i.evalSourceAt maxCallDepth source := rfl

end Interpreter

end Lisplet
