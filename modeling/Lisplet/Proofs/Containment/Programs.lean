import Lisplet.Proofs.Containment.Evaluation

/-! What programs get to see of running loops: nothing, unless they give a name of a special form
another meaning or a special form another name. -/
namespace Lisplet

/-- Whether a value keeps a loop going: a request for another round, or what makes one. -/
def Value.isLoopValue : Value → Bool
  | tailCall _ => true
  | function _ _ .recur => true
  | _ => false

theorem Value.isLoopValue_eq_false {v : Value} (h : v.isOrdinary = true) :
    v.isLoopValue = false := by
  cases v with
  | function name arity body => cases body <;> first | rfl | cases h
  | tailCall args => cases h
  | _ => rfl

namespace Store

mutual

/-- The frames that can be come to from a frame and from given values. -/
inductive FrameInSight (s : Store) (root : FrameId) (given : Value → Prop) : FrameId → Prop
  | root : FrameInSight s root given root
  | outer {f g : FrameId} (hf : FrameInSight s root given f) (hg : g ∈ s.chain f) :
    FrameInSight s root given g
  | scope {id : ClosureId} {c : Closure} (hid : InSight s root given (.closure id))
    (hc : s.closures[id.index]? = some c) : FrameInSight s root given c.scope

/-- The values that can be come to from a frame and from given values. -/
inductive InSight (s : Store) (root : FrameId) (given : Value → Prop) : Value → Prop
  | given {v : Value} (h : given v) : InSight s root given v
  | binding {f : FrameId} {name : String} {v : Value} (hf : FrameInSight s root given f)
    (hv : (s.bindings f).find? name = some v) : InSight s root given v
  | head {a b : Value} (h : InSight s root given (.pair a b)) : InSight s root given a
  | tail {a b : Value} (h : InSight s root given (.pair a b)) : InSight s root given b
  | item {id : VectorId} {v : Value} (h : InSight s root given (.vector id))
    (hv : v ∈ s.items id) : InSight s root given v
  | arguments {args : Value} (h : InSight s root given (.tailCall args)) :
    InSight s root given args

end

end Store

namespace Contained

open Store

variable {κ : Modes} {s : Store} {root : FrameId} {given : Value → Prop}

mutual

theorem plain_of_frameInSight (hs : Contained κ s) (hroot : κ root .plain)
    (hgiven : ∀ v, given v → v.isOrdinary = true) {f : FrameId}
    (h : FrameInSight s root given f) : κ f .plain := by
  match h with
  | .root => exact hroot
  | .outer hf hg =>
    exact (hs.chain (plain_of_frameInSight hs hroot hgiven hf) _ hg).elim id id
  | .scope hid hc => exact (hs.closures hc).2

theorem isOrdinary_of_inSight (hs : Contained κ s) (hroot : κ root .plain)
    (hgiven : ∀ v, given v → v.isOrdinary = true) {v : Value} (h : InSight s root given v) :
    v.isOrdinary = true := by
  match h with
  | .given h => exact hgiven v h
  | .binding hf hv =>
    have hplain := plain_of_frameInSight hs hroot hgiven hf
    exact (hs.bindings hplain hv).2.elim id nofun
  | .head h => exact (Bool.and_eq_true_iff.mp (isOrdinary_of_inSight hs hroot hgiven h)).1
  | .tail h => exact (Bool.and_eq_true_iff.mp (isOrdinary_of_inSight hs hroot hgiven h)).2
  | .item h hv => exact hs.items _ v hv
  | .arguments h => cases isOrdinary_of_inSight hs hroot hgiven h

end

end Contained

/-- Whether a program binds none of some names, and uses each of them as an operator only. -/
def hygienicSource (names : String → Bool) (source : String) : Bool :=
  match Reader.readProgram false source with
  | .ok program => program.all (hygienic names)
  | .error _ => true

namespace Interpreter

/-- An interpreter in which no loop is in sight. -/
def Clear (i : Interpreter) : Prop :=
  i.machine.Standard ∧ ∃ κ : Modes, κ i.scope .plain ∧ Contained κ i.store

theorem standard_clear (input : List UInt8) : (standard input).Clear := by
  refine ⟨⟨rfl, rfl⟩, fun f μ => f = ⟨0⟩ ∧ μ = .plain, ⟨rfl, rfl⟩, ?_⟩
  constructor
  · rintro f μ ⟨rfl, rfl⟩
    exact Nat.zero_lt_one
  · rintro f μ ν ⟨-, rfl⟩ ⟨-, rfl⟩
    rfl
  · rintro f μ ⟨rfl, rfl⟩ g hg
    rw [List.mem_singleton.mp hg]
    exact .inl ⟨rfl, rfl⟩
  · rintro f μ ⟨rfl, rfl⟩ name v hv
    cases hv
  · intro i c hc
    cases hc
  · intro id v hv
    exact absurd (show v ∈ #[] from hv) (Array.not_mem_empty v)

theorem evalSource_clear {i : Interpreter} (hi : i.Clear) {source : String}
    (h : hygienicSource reserved source = true) :
    (i.evalSource source).2.Clear ∧ ∀ v, (i.evalSource source).1 = .ok v → v.isOrdinary = true := by
  obtain ⟨hm, κ, hscope, hs⟩ := hi
  cases hread : Reader.readProgram false source with
  | ok program =>
    simp only [hygienicSource, hread] at h
    simp only [evalSource, hread]
    have hkeeps := Machine.program_contained hm (Machine.callAt_contains hm maxCallDepth) hscope
      (List.all_eq_true.mp h) (v := .nil) rfl
    obtain ⟨κ', hw, hs', hv⟩ := hkeeps i.store hs
    exact ⟨⟨hm, κ', hw _ _ hscope, hs'⟩, hv⟩
  | error e =>
    simp only [evalSource, hread]
    exact ⟨⟨hm, κ, hscope, hs⟩, nofun⟩

def after (i : Interpreter) (sources : List String) : Interpreter :=
  sources.foldl (fun i source => (i.evalSource source).2) i

theorem after_clear {i : Interpreter} (hi : i.Clear) {sources : List String}
    (h : ∀ source ∈ sources, hygienicSource reserved source = true) : (i.after sources).Clear := by
  induction sources generalizing i with
  | nil => exact hi
  | cons source sources ih =>
    rw [List.forall_mem_cons] at h
    exact ih (evalSource_clear hi h.1).1 h.2

/-- No hygienic program, after whatever hygienic programs, returns a value that keeps a loop going
or leaves one where it can be come to. -/
theorem evalSource_hides_loops (input : List UInt8) (sources : List String) (source : String)
    (h : ∀ text ∈ source :: sources, hygienicSource reserved text = true) :
    let outcome := ((standard input).after sources).evalSource source
    ∀ v, outcome.2.store.InSight outcome.2.scope (outcome.1 = .ok ·) v → v.isLoopValue = false := by
  intro outcome v hv
  rw [List.forall_mem_cons] at h
  have hclear := after_clear (standard_clear input) h.2
  obtain ⟨⟨-, κ, hscope, hs⟩, hresult⟩ := evalSource_clear hclear h.1
  exact Value.isLoopValue_eq_false (hs.isOrdinary_of_inSight hscope hresult hv)

theorem evalSource_hides_loops_countdown :
    let sources := ["(define (f n) (let ((m (- n 1))) (if (= n 0) (list n) (f m))))"]
    let outcome := ((standard []).after sources).evalSource "(f 9)"
    ∀ v, outcome.2.store.InSight outcome.2.scope (outcome.1 = .ok ·) v → v.isLoopValue = false :=
  evalSource_hides_loops [] _ _ (by decide +kernel)

end Interpreter

namespace Store

/-- Whether a value that keeps a loop going is found in at most `fuel` steps from a value. -/
def showsLoop (s : Store) : Nat → Value → Bool
  | 0, _ => false
  | fuel + 1, v => v.isLoopValue || match v with
    | .pair a b => s.showsLoop fuel a || s.showsLoop fuel b
    | .closure id =>
      match s.closures[id.index]? with
      | some c => List.any (s.bindings c.scope) fun (name, _) =>
        match (s.bindings c.scope).find? name with
        | some v => s.showsLoop fuel v
        | none => false
      | none => false
    | _ => false

theorem exists_inSight_of_showsLoop {s : Store} {root : FrameId} {given : Value → Prop}
    {fuel : Nat} {v : Value} (hv : s.InSight root given v) (h : s.showsLoop fuel v = true) :
    ∃ w, s.InSight root given w ∧ w.isLoopValue = true := by
  induction fuel generalizing v with
  | zero => cases h
  | succ fuel ih =>
    rw [showsLoop.eq_def, Bool.or_eq_true] at h
    rcases h with h | h
    · exact ⟨v, hv, h⟩
    · split at h
      · rcases Bool.or_eq_true_iff.mp h with h | h
        · exact ih hv.head h
        · exact ih hv.tail h
      · split at h
        · rename_i c hc
          obtain ⟨⟨name, _⟩, -, h⟩ := List.any_eq_true.mp h
          dsimp only at h
          split at h
          · exact ih (.binding (.scope hv hc) ‹_›) h
          · cases h
        · cases h
      · cases h

end Store

namespace Interpreter

def leaks (source : String) : Bool :=
  match (standard []).evalSource source with
  | (.ok v, i) => i.store.showsLoop 8 v
  | (.error _, _) => false

theorem exists_inSight_of_leaks {source : String} (h : leaks source = true) :
    let outcome := (standard []).evalSource source
    ∃ v, outcome.2.store.InSight outcome.2.scope (outcome.1 = .ok ·) v ∧ v.isLoopValue = true := by
  intro outcome
  unfold leaks at h
  split at h
  · rename_i v i hi
    have hgiven : outcome.2.store.InSight outcome.2.scope (outcome.1 = .ok ·) v :=
      .given (congrArg Prod.fst hi)
    have hstore : i = outcome.2 := (congrArg Prod.snd hi).symm
    rw [hstore] at h
    exact Store.exists_inSight_of_showsLoop hgiven h
  · cases h

/-- A program that uses one name of a special form in another way and lets a loop be seen. -/
def leak : SpecialForm → String
  | .lambda =>
    "(define fn lambda) (define (f n g) (if (= n 0) g (f (- n 1) (fn () n)))) (f 1 0)"
  | .define =>
    "(define def define) (define (f n g) (if (= n 0) h (f (- n 1) (def (h) n)))) (f 1 0)"
  | .letIn =>
    "(define (let a b) (list b)) (define (f n) (cond ((= n 0) 0) (else (let () (f (- n 1))))))" ++
      " (f 1)"
  | .letRec => "(define (letrec a b) (list b)) (define (f n) (letrec () (f (- n 1)))) (f 1)"
  | .ifElse => "(define (if a b c) (list c)) (define (f n) (if (= n 0) 0 (f (- n 1)))) (f 1)"
  | .cond => "(define (cond a) a) (define (f n) (cond (1 (f (- n 1))))) (f 1)"

/-- Where `let` is the name of a function, a program can return a request for another round. -/
theorem evalSource_shows_loop :
    let outcome := (standard []).evalSource
      ("(define (let a b) (list b)) " ++
        "(define (f n) (cond ((= n 0) 0) (else (let () (f (- n 1)))))) (f 1)")
    ∃ v, outcome.2.store.InSight outcome.2.scope (outcome.1 = .ok ·) v ∧ v.isLoopValue = true :=
  exists_inSight_of_leaks (by decide +kernel)

/-- None of the names can be spared: with one of them used in another way, loops can be seen. -/
theorem leak_hygienic_else (form : SpecialForm) :
    hygienicSource (fun name => reserved name && name != form.name) (leak form) = true ∧
      leaks (leak form) = true := by
  cases form <;> decide +kernel

end Interpreter

end Lisplet
