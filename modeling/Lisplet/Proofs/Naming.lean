import Lisplet.Proofs.Congruence
import Lisplet.Proofs.Frames.Evaluation

/-! The names of closures. A closure gets a name at most once and keeps it, together with the choice
of whether it runs as a loop, which is made for that name. -/
namespace Lisplet

/-- What is true of a closure from the moment it is made. -/
structure Closure.Settled (c : Closure) : Prop where
  distinct : c.params.Nodup
  convention : ∀ given ∈ c.naming, given.loops = loopsOver given.name c.params c.body
  unhidden : ∀ given ∈ c.naming, given.loops = true → given.name ∉ c.params

theorem not_mem_of_loopsOver {name : String} {params : List String} {body : Value}
    (h : loopsOver name params body = true) : name ∉ params := by
  unfold loopsOver at h
  rw [Bool.and_eq_true] at h
  simpa using h.1

namespace Form

theorem parameterNames_nodup {s : Store} {seen : List String} {e : Value} {names : List String}
    (h : parameterNames s seen e = .ok names) (hseen : seen.Nodup) : names.Nodup := by
  fun_induction parameterNames s seen e with
  | case1 seen =>
    cases h
    exact (List.reverse_perm seen).nodup_iff.mpr hseen
  | case2 seen name rest hdup => cases h
  | case3 seen name rest hdup ih =>
    have hnew : name ∉ seen := by simpa using hdup
    exact ih h (List.nodup_cons.mpr ⟨hnew, hseen⟩)
  | case4 => cases h
  | case5 => cases h

theorem parameters_nodup {s : Store} {e : Value} {names : List String}
    (h : parameters s e = .ok names) : names.Nodup := by
  unfold parameters at h
  split at h
  · exact parameterNames_nodup h List.nodup_nil
  · exact parameterNames_nodup h List.nodup_nil
  · cases h

end Form

namespace Store

def Settled (s : Store) : Prop := ∀ c ∈ s.closures, c.Settled

def KeepsNamed (s t : Store) : Prop :=
  ∀ (id : ClosureId) (c : Closure) (given : Naming), s.closures[id.index]? = some c →
    c.naming = some given → t.closures[id.index]? = some c

/-- What the closures of a store go through: those with a name last, and all stay settled. -/
structure Develops (s t : Store) : Prop where
  keeps : s.KeepsNamed t
  settled : s.Settled → t.Settled

namespace Develops

theorem of_eq {s t : Store} (h : t.closures = s.closures) : s.Develops t where
  keeps id c _ hc _ := by rw [h, hc]
  settled hs c hc := hs c (h ▸ hc)

theorem trans {s t u : Store} (h : s.Develops t) (h' : t.Develops u) : s.Develops u where
  keeps id c given hc hgiven := h'.keeps id c given (h.keeps id c given hc hgiven) hgiven
  settled hs := h'.settled (h.settled hs)

theorem pushClosure (s : Store) {c : Closure} (hc : c.Settled) :
    s.Develops (s.pushClosure c).2 where
  keeps id old _ hold _ := by
    have hlt : id.index < s.closures.size := (Array.getElem?_eq_some_iff.mp hold).1
    have hne : id.index ≠ s.closures.size := Nat.ne_of_lt hlt
    simp only [Store.pushClosure, Array.getElem?_push, hold, if_neg hne]
  settled hs new hnew := by
    rcases Array.mem_push.mp hnew with hold | rfl
    · exact hs new hold
    · exact hc

/-- A name that is given settles whether the closure runs as a loop; one that has a name is left
alone. -/
theorem nameValue (s : Store) (name : String) (value : Value) :
    s.Develops (s.nameValue name value) := by
  cases value with
  | closure id =>
    constructor
    · intro id' c given hc hgiven
      simp only [Store.nameValue, Store.nameClosure, Array.getElem?_modify, hc, Option.map_some,
        hgiven]
      split <;> rfl
    · intro hs c hc
      obtain ⟨j, hj⟩ := Array.mem_iff_getElem?.mp hc
      obtain ⟨old, hget, hnamed⟩ := getElem?_closures_nameValue hj
      have hold := hs old (Array.mem_of_getElem? hget)
      rcases hnamed with rfl | rfl
      · exact hold
      · refine ⟨hold.distinct, ?_, ?_⟩
        · rintro given ⟨rfl⟩
          rfl
        · rintro given ⟨rfl⟩ hloops
          exact not_mem_of_loopsOver hloops
  | _ => exact of_eq rfl

end Develops

end Store

def Action.Develops {α : Type} (a : Action α) : Prop := ∀ s : Store, Holds s.Develops a

namespace Action.Develops

variable {α β : Type}

theorem of_closures {a : Action α} (h : ∀ s, (a s).2.closures = s.closures) : a.Develops :=
  fun _ t ht => ⟨⟨⟩, le_rfl, ht.trans (.of_eq (h t)), fun _ _ => trivial⟩

theorem of_local {a : Action α} (h : a.Local) : a.Develops :=
  of_closures fun s => (h s s (.refl s)).2.2.2

theorem of_store {a : Action α} (h : ∀ s, (a s).2 = s) : a.Develops :=
  of_closures fun s => by rw [h]

theorem bind {a : Action α} {f : α → Action β} (ha : a.Develops)
    (hf : ∀ v, (∃ s, (a s).1 = .ok v) → (f v).Develops) : (a >>= f).Develops := by
  intro s t ht
  obtain ⟨-, -, ht', -⟩ := ha s t ht
  rcases h : a t with ⟨stop | v, t'⟩ <;> rw [h] at ht'
  · rw [bind_error h]
    exact ⟨⟨⟩, le_rfl, ht', nofun⟩
  · rw [bind_ok h]
    exact hf v ⟨t, by rw [h]⟩ s t' ht'

/-- A new closure has no name yet, and its parameters have been checked. -/
theorem makeClosure (scope : FrameId) (params body : Value) :
    (Action.makeClosure scope params body).Develops := by
  intro s
  refine Keeps.get_bind fun t _ => Keeps.ofExcept_bind fun names hnames => ?_
  have hnew : (⟨names, body, scope, none⟩ : Closure).Settled :=
    ⟨Form.parameters_nodup hnames, nofun, nofun⟩
  refine Keeps.andThen (Keeps.change fun u hu => ?_) fun _ _ _ => Keeps.pure trivial
  exact ⟨⟨⟩, le_rfl, hu.trans (.pushClosure u hnew), trivial⟩

/-- Every step of evaluation lets closures develop. -/
theorem congruence (m : Machine) : m.Congruence fun a _ => a.Develops := by
  refine ⟨fun hstep => ?_, fun ha hf => ha.bind hf, fun e ha s => (ha s).within e⟩
  cases hstep with
  | read h => exact of_store h.store
  | unfinished => exact of_store fun _ => rfl
  | lookup scope name => exact of_store (m.evalAtom_store scope (.symbol name))
  | run body args => exact fun s => m.run_holds body args fun p => of_local (p.run_local args) s
  | makeClosure scope params body => exact makeClosure scope params body
  | extend scope names values => exact of_closures fun _ => rfl
  | define frame name value =>
    refine fun s => Keeps.modify fun t ht => ⟨⟨⟩, le_rfl, ?_, trivial⟩
    exact (ht.trans (.nameValue t name value)).trans (.of_eq rfl)
  | checkCount id got e => exact of_store (checkCount_store id got e)
  | closure? id => exact of_store fun _ => rfl
  | loopName? id closure => exact of_store fun _ => rfl
  | bind frame name value => exact of_closures fun _ => rfl
  | rebind frame name value => exact of_closures fun _ => rfl

end Action.Develops

namespace Machine

theorem evalAt_develops (m : Machine) (depth : Nat) (scope : FrameId) (e : Value) :
    (m.evalAt depth scope e).Develops :=
  (Action.Develops.congruence m).evalAt depth scope e

end Machine

namespace Interpreter

/-- The interpreters that programs lead to, whether they are read from a text or given as lists of
expressions. -/
inductive Leads (i : Interpreter) : Interpreter → Prop
  | refl : Leads i i
  | program {j : Interpreter} (h : Leads i j) (program : List Value) :
    Leads i (j.evalProgram program).2
  | source {j : Interpreter} (h : Leads i j) (source : String) : Leads i (j.evalSource source).2

theorem evalProgram_develops (i : Interpreter) (program : List Value) :
    i.store.Develops (i.evalProgram program).2.store := by
  have hprogram (v : Value) :
      (program.foldlM (fun _ e => i.evaluation e) v : Action Value).Develops := by
    induction program generalizing v with
    | nil => exact .of_store fun _ => rfl
    | cons e program ih =>
      rw [List.foldlM_cons]
      exact (i.machine.evalAt_develops maxCallDepth i.scope e).bind fun w _ => ih w
  obtain ⟨-, -, h, -⟩ := hprogram .nil i.store i.store (.of_eq rfl)
  exact h

theorem Leads.develops {i j : Interpreter} (h : i.Leads j) : i.store.Develops j.store := by
  induction h with
  | refl => exact .of_eq rfl
  | program _ program ih => exact ih.trans (evalProgram_develops _ program)
  | @source j _ source ih =>
    refine ih.trans ?_
    unfold evalSource
    split
    · exact evalProgram_develops j _
    · exact .of_eq rfl

/-- Wherever programs lead a standard interpreter to, each closure has distinct parameters, and
whether it runs as a loop is as its first name has it, which is then none of them. From there on a
closure with a name keeps both, and so it is with whatever is evaluated on the way, at any depth and
in any scope. -/
theorem closures_settled (input : List UInt8) {i : Interpreter} (h : (standard input).Leads i) :
    i.store.Settled ∧ (∀ j, i.Leads j → i.store.KeepsNamed j.store) ∧
      ∀ (depth : Nat) (scope : FrameId) (e : Value) (s : Store), s.Settled →
        let t := (i.machine.evalAt depth scope e s).2
        s.KeepsNamed t ∧ t.Settled := by
  have hstart : (standard input).store.Settled := fun c hc => absurd hc (Array.not_mem_empty c)
  refine ⟨h.develops.settled hstart, fun j hj => hj.develops.keeps, ?_⟩
  intro depth scope e s hs
  obtain ⟨-, -, ht, -⟩ := i.machine.evalAt_develops depth scope e s s (.of_eq rfl)
  exact ⟨ht.keeps, ht.settled hs⟩

theorem closures_settled_alias :
    let i := ((standard []).evalSource
      "(define (f n) (if (= n 0) 0 (f (- n 1)))) (define g (lambda (f) (f 2)))").2
    let j := (i.evalSource "(define h f) (letrec ((k g)) (k h))").2
    i.store.closures.toList.map Closure.naming = [some ⟨"f", true⟩, some ⟨"g", false⟩] ∧
      i.store.Settled ∧ i.store.KeepsNamed j.store := by
  intro i j
  have hi : (standard []).Leads i := .source .refl _
  obtain ⟨hsettled, hkeeps, -⟩ := closures_settled [] hi
  exact ⟨by decide +kernel, hsettled, hkeeps j (.source .refl _)⟩

end Interpreter

end Lisplet
