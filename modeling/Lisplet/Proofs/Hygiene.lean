import Lisplet.Proofs.Keeping

/-! Programs that use the names of the special forms as operators only. In such programs a name and
the form it spells cannot come apart, so that what is found by reading a body holds when it runs. -/
namespace Lisplet

def reserved (name : String) : Bool := (SpecialForm.named? name).isSome

@[simp] theorem reserved_name (form : SpecialForm) : reserved form.name = true := by
  simp [reserved]

open SelfUse (mentions)

/-- Whether what is no pair may stand in a program: a constant, or a name outside `names`. -/
def hygienicAtom (names : String → Bool) : Value → Bool
  | .symbol name => !names name
  | .integer _ | .float _ | .string _ | .boolean _ | .nil => true
  | _ => false

mutual

/-- Whether an expression binds none of some names, and uses each of them as an operator only. -/
def hygienic (names : String → Bool) : Value → Bool
  | .pair operator operands =>
    match operator.symbol?.bind SpecialForm.named? with
    | none => hygienic names operator && hygienicElements names operands
    | some .lambda | some .define =>
      match operands with
      | .pair target (.pair body .nil) => !mentions names target && hygienic names body
      | operands => hygienicElements names operands
    | some .letIn | some .letRec =>
      match operands with
      | .pair bindings (.pair body .nil) => hygienicBindings names bindings && hygienic names body
      | operands => hygienicElements names operands
    | some .ifElse => hygienicElements names operands
    | some .cond => hygienicClauses names operands
  | e => hygienicAtom names e

def hygienicElements (names : String → Bool) : Value → Bool
  | .pair e rest => hygienic names e && hygienicElements names rest
  | e => hygienicAtom names e

def hygienicBindings (names : String → Bool) : Value → Bool
  | .pair binding rest =>
    (match binding with
      | .pair target (.pair init .nil) => !mentions names target && hygienic names init
      | binding => hygienicElements names binding) && hygienicBindings names rest
  | e => hygienicAtom names e

def hygienicClauses (names : String → Bool) : Value → Bool
  | .pair clause rest => hygienicElements names clause && hygienicClauses names rest
  | e => hygienicAtom names e

end

/-- How the frame of an evaluation is used: freely, or by a running loop of some name. -/
inductive Mode where
  | plain
  | loop (name : String)

/-- A loop evaluates operands that neither name it nor could keep its frame. -/
def Mode.Admits : Mode → Value → Prop
  | plain, _ => True
  | loop name, e => SelfUse.inOperand name e = .absent

namespace SelfUse

theorem inOperand_eq_absent_iff {name : String} {e : Value} :
    inOperand name e = .absent ↔ mentions (fun x => x = name ||
      (x = SpecialForm.lambda.name || x = SpecialForm.define.name)) e = false := by
  simp [inOperand]

theorem inOperand_ne_other_iff {name : String} {e : Value} :
    inOperand name e ≠ .other ↔ inOperand name e = .absent := by
  simp [inOperand]

def rank : SelfUse → Nat
  | absent => 0
  | tailCalls => 1
  | other => 2

theorem rank_combine (a b : SelfUse) : (a.combine b).rank = max a.rank b.rank := by
  cases a <;> cases b <;> rfl

theorem rank_inAll_le_iff {use : Value → SelfUse} {start : SelfUse} {es : List Value} {n : Nat} :
    (inAll use start es).rank ≤ n ↔ start.rank ≤ n ∧ ∀ e ∈ es, (use e).rank ≤ n := by
  unfold inAll
  induction es generalizing start with
  | nil => simp
  | cons e es ih =>
    rw [List.foldl_cons, ih, rank_combine, Nat.max_le, List.forall_mem_cons, and_assoc]

theorem ne_other_iff {a : SelfUse} : a ≠ .other ↔ a.rank ≤ 1 := by
  cases a <;> decide

theorem combine_ne_other_iff {a b : SelfUse} :
    a.combine b ≠ .other ↔ a ≠ .other ∧ b ≠ .other := by
  simp only [ne_other_iff, rank_combine, Nat.max_le]

theorem inAll_ne_other_iff {use : Value → SelfUse} {start : SelfUse} {es : List Value} :
    inAll use start es ≠ .other ↔ start ≠ .other ∧ ∀ e ∈ es, use e ≠ .other := by
  simp only [ne_other_iff, rank_inAll_le_iff]

end SelfUse

namespace Mode

@[simp] theorem admits_pair {μ : Mode} {a b : Value} :
    μ.Admits (.pair a b) ↔ μ.Admits a ∧ μ.Admits b := by
  cases μ with
  | plain => simp [Admits]
  | loop name => simp only [Admits, SelfUse.inOperand_eq_absent_iff, mentions, Bool.or_eq_false_iff]

theorem ne_of_admits_symbol {μ : Mode} {name : String} (h : μ.Admits (.symbol name)) :
    μ ≠ .loop name := by
  rintro rfl
  simp [Admits, SelfUse.inOperand_eq_absent_iff, mentions] at h

/-- In a loop nothing is evaluated that could keep the frame. -/
theorem eq_plain_of_admits_keeper {μ : Mode} {form : SpecialForm}
    (hform : form = .lambda ∨ form = .define) (h : μ.Admits (.symbol form.name)) : μ = .plain := by
  cases μ with
  | plain => rfl
  | loop name =>
    rcases hform with rfl | rfl <;>
      simp [Admits, SelfUse.inOperand_eq_absent_iff, mentions] at h

/-- A list is admitted element by element. -/
theorem admits_of_heads {μ : Mode} {e : Value} (hlist : e.isList = true)
    (h : ∀ a ∈ e.heads, μ.Admits a) : μ.Admits e := by
  induction e with
  | pair a rest _ ih =>
    rw [Value.heads_pair, List.forall_mem_cons] at h
    exact admits_pair.mpr ⟨h.1, ih hlist h.2⟩
  | nil =>
    cases μ with
    | plain => trivial
    | loop name => rfl
  | _ => cases hlist

end Mode

/-- Whether the bindings of a `let` can be evaluated in a mode: no right side is in the way of a
loop, and no left side hides its name. -/
def Mode.AdmitsBindings (μ : Mode) : Value → Prop
  | .pair (.pair target (.pair init .nil)) rest =>
    (∀ name, target = .symbol name → μ ≠ .loop name) ∧ μ.Admits init ∧ μ.AdmitsBindings rest
  | _ => True

theorem Mode.Admits.bindings {μ : Mode} {e : Value} (h : μ.Admits e) : μ.AdmitsBindings e := by
  fun_induction Mode.AdmitsBindings μ e with
  | case1 target init rest ih =>
    simp only [admits_pair] at h
    refine ⟨?_, h.1.2.1, ih h.2⟩
    rintro name rfl
    exact ne_of_admits_symbol h.1.1
  | case2 => trivial

mutual

/-- An expression in tail position of a loop: it calls the loop, is no concern of it, or passes the
position on to an expression inside it. -/
inductive TailUse (name : String) : Value → Prop
  | operand {e : Value} (hygiene : hygienic reserved e = true)
    (admits : (Mode.loop name).Admits e) : TailUse name e
  | selfCall {args : Value} (hygiene : hygienicElements reserved args = true)
    (admits : (Mode.loop name).Admits args) : TailUse name (.pair (.symbol name) args)
  | ifThen {test yes : Value} (hygiene : hygienic reserved test = true)
    (admits : (Mode.loop name).Admits test) (hyes : TailUse name yes) :
    TailUse name (.pair (.symbol SpecialForm.ifElse.name) (.pair test (.pair yes .nil)))
  | ifElse {test yes no : Value} (hygiene : hygienic reserved test = true)
    (admits : (Mode.loop name).Admits test) (hyes : TailUse name yes) (hno : TailUse name no) :
    TailUse name
      (.pair (.symbol SpecialForm.ifElse.name) (.pair test (.pair yes (.pair no .nil))))
  | cond {clauses : Value} (hclauses : TailClauses name clauses) :
    TailUse name (.pair (.symbol SpecialForm.cond.name) clauses)
  | binding {form : SpecialForm} {bindings body : Value}
    (hform : form = .letIn ∨ form = .letRec) (hygiene : hygienicBindings reserved bindings = true)
    (admits : (Mode.loop name).AdmitsBindings bindings) (hbody : TailUse name body) :
    TailUse name (.pair (.symbol form.name) (.pair bindings (.pair body .nil)))

inductive TailClauses (name : String) : Value → Prop
  | clause {test e rest : Value} (hygiene : hygienic reserved test = true)
    (admits : (Mode.loop name).Admits test) (he : TailUse name e) (hrest : TailClauses name rest) :
    TailClauses name (.pair (.pair test (.pair e .nil)) rest)
  | malformed {clause rest : Value} (h : ∀ test e, clause ≠ .pair test (.pair e .nil)) :
    TailClauses name (.pair clause rest)
  | done {e : Value} (h : ∀ clause rest, e ≠ .pair clause rest) : TailClauses name e

end

theorem Mode.admitsBindings_of_inBinding {name : String} {e : Value}
    (h : ∀ b ∈ e.heads, SelfUse.inBinding name b ≠ .other) : (loop name).AdmitsBindings e := by
  fun_induction Mode.AdmitsBindings (loop name) e with
  | case1 target init rest ih =>
    rw [Value.heads_pair, List.forall_mem_cons, SelfUse.inBinding] at h
    by_cases htarget : target.symbol? = some name
    · simp [htarget] at h
    · rw [if_neg htarget, SelfUse.inOperand_ne_other_iff] at h
      refine ⟨?_, h.1, ih h.2⟩
      rintro x rfl heq
      cases heq
      exact htarget rfl
  | case2 => trivial

theorem Mode.admits_symbol {name x : String} (hne : x ≠ name) (hlambda : x ≠ "lambda")
    (hdefine : x ≠ "define") : (loop name).Admits (.symbol x) := by
  simp [Admits, SelfUse.inOperand_eq_absent_iff, mentions, SpecialForm.name, hne, hlambda, hdefine]

theorem hygienic_atom {names : String → Bool} {e : Value} (h : ∀ a b, e = .pair a b → False) :
    hygienic names e = hygienicAtom names e := by
  cases e with
  | pair a b => exact (h a b rfl).elim
  | _ => rw [hygienic.eq_def]

/-- Under an operator that is no special form, all elements are expressions. -/
theorem hygienic_pair_of_named?_eq_none {names : String → Bool} {operator operands : Value}
    (h : operator.symbol?.bind SpecialForm.named? = none) :
    hygienic names (.pair operator operands) =
      (hygienic names operator && hygienicElements names operands) := by
  rw [hygienic.eq_def]
  simp only [h]

theorem hygienic_keeper {names : String → Bool} {form : SpecialForm} {target body : Value}
    (hform : form = .lambda ∨ form = .define) :
    hygienic names (.pair (.symbol form.name) (.pair target (.pair body .nil))) =
      (!mentions names target && hygienic names body) := by
  rw [hygienic.eq_def]
  rcases hform with rfl | rfl <;> rfl

theorem hygienic_binding {names : String → Bool} {form : SpecialForm} {bindings body : Value}
    (hform : form = .letIn ∨ form = .letRec) :
    hygienic names (.pair (.symbol form.name) (.pair bindings (.pair body .nil))) =
      (hygienicBindings names bindings && hygienic names body) := by
  rw [hygienic.eq_def]
  rcases hform with rfl | rfl <;> rfl

theorem hygienic_ifElse {names : String → Bool} {operands : Value} :
    hygienic names (.pair (.symbol SpecialForm.ifElse.name) operands) =
      hygienicElements names operands := by
  rw [hygienic.eq_def]
  rfl

theorem hygienic_cond {names : String → Bool} {clauses : Value} :
    hygienic names (.pair (.symbol SpecialForm.cond.name) clauses) =
      hygienicClauses names clauses := by
  rw [hygienic.eq_def]
  rfl

theorem hygienicElements_atom {names : String → Bool} {e : Value}
    (h : ∀ a b, e = .pair a b → False) : hygienicElements names e = hygienicAtom names e := by
  cases e with
  | pair a b => exact (h a b rfl).elim
  | _ => rw [hygienicElements.eq_def]

mutual

/-- What an expression does with the name of a loop is what reading it has found. -/
theorem tailUse_of_inTail {name : String} (hname : reserved name = false) (e : Value)
    (he : hygienic reserved e = true) (h : SelfUse.inTail name e ≠ .other) : TailUse name e := by
  cases e with
  | pair head tail =>
    by_cases hself : head = .symbol name ∧ tail.isList = true
    · obtain ⟨rfl, hlist⟩ := hself
      rw [SelfUse.inTail_selfCall hlist, SelfUse.inAll_ne_other_iff] at h
      have hnone : (Value.symbol name).symbol?.bind SpecialForm.named? = none := by
        simpa [reserved, Value.symbol?] using hname
      rw [hygienic_pair_of_named?_eq_none hnone, Bool.and_eq_true] at he
      refine .selfCall he.2 (Mode.admits_of_heads hlist fun a ha => ?_)
      exact SelfUse.inOperand_ne_other_iff.mp (h.2 a ha)
    by_cases hform : SelfUse.IsForm name (.pair head tail)
    case neg =>
      rw [SelfUse.inTail_eq_inOperand hself hform] at h
      exact .operand he (SelfUse.inOperand_ne_other_iff.mp h)
    cases hform with
    | @ifThen _ test yes hform =>
      rw [SelfUse.inTail_ifThen hform, SelfUse.combine_ne_other_iff,
        SelfUse.inOperand_ne_other_iff] at h
      obtain ⟨rfl, -⟩ := SelfUse.eq_of_spelled? hform
      rw [hygienic_ifElse] at he
      simp only [hygienicElements, Bool.and_eq_true] at he
      exact .ifThen he.1 h.1 (tailUse_of_inTail hname yes he.2.1 h.2)
    | @ifElse _ test yes no hform =>
      rw [SelfUse.inTail_ifElse hform, SelfUse.combine_ne_other_iff, SelfUse.combine_ne_other_iff,
        SelfUse.inOperand_ne_other_iff] at h
      obtain ⟨rfl, -⟩ := SelfUse.eq_of_spelled? hform
      rw [hygienic_ifElse] at he
      simp only [hygienicElements, Bool.and_eq_true] at he
      exact .ifElse he.1 h.1.1 (tailUse_of_inTail hname yes he.2.1 h.1.2)
        (tailUse_of_inTail hname no he.2.2.1 h.2)
    | cond hform hlist =>
      rw [SelfUse.inTail_cond hform hlist] at h
      obtain ⟨rfl, -⟩ := SelfUse.eq_of_spelled? hform
      rw [hygienic_cond] at he
      exact .cond (tailClauses_of_inClauses hname tail he h)
    | @binding _ bindings body hform =>
      by_cases hlist : bindings.isList = true
      case neg =>
        rw [SelfUse.inTail_binding_of_not_isList hform hlist] at h
        exact .operand he (SelfUse.inOperand_ne_other_iff.mp h)
      rw [SelfUse.inTail_binding hform hlist, SelfUse.combine_ne_other_iff,
        SelfUse.inAll_ne_other_iff] at h
      obtain ⟨form, hlet, rfl⟩ : ∃ form : SpecialForm, (form = .letIn ∨ form = .letRec) ∧
          head = .symbol form.name := by
        rcases hform with hform | hform
        · exact ⟨.letIn, .inl rfl, (SelfUse.eq_of_spelled? hform).1⟩
        · exact ⟨.letRec, .inr rfl, (SelfUse.eq_of_spelled? hform).1⟩
      rw [hygienic_binding hlet, Bool.and_eq_true] at he
      exact .binding hlet he.1 (Mode.admitsBindings_of_inBinding h.1.2)
        (tailUse_of_inTail hname body he.2 h.2)
  | symbol x =>
    rw [SelfUse.inTail.eq_def] at h
    have hne : x ≠ name := by
      rintro rfl
      simp at h
    have hx : reserved x = false := (Bool.not_eq_true' _).mp he
    refine .operand he (Mode.admits_symbol hne ?_ ?_)
    · rintro rfl
      exact absurd hx (by decide)
    · rintro rfl
      exact absurd hx (by decide)
  | _ => exact .operand he rfl

/-- The same for the clauses of a `cond`. -/
theorem tailClauses_of_inClauses {name : String} (hname : reserved name = false) (e : Value)
    (he : hygienicClauses reserved e = true) (h : SelfUse.inClauses name e ≠ .other) :
    TailClauses name e := by
  cases e with
  | pair clause rest =>
    rw [hygienicClauses, Bool.and_eq_true] at he
    rw [SelfUse.inClauses.eq_def] at h
    dsimp only at h
    split at h
    · rename_i test consequent
      rw [SelfUse.combine_ne_other_iff, SelfUse.combine_ne_other_iff] at h
      simp only [hygienicElements, Bool.and_eq_true] at he
      exact .clause he.1.1 (SelfUse.inOperand_ne_other_iff.mp h.1.1)
        (tailUse_of_inTail hname consequent he.1.2.1 h.1.2)
        (tailClauses_of_inClauses hname rest he.2 h.2)
    · rename_i hclause
      exact .malformed fun test e heq => hclause test e heq
  | _ => exact .done nofun

end

namespace Form

/-- Every name that a binding list binds satisfies `P`. -/
def EachTarget (P : String → Prop) : Value → Prop
  | .pair (.pair (.symbol name) (.pair _ .nil)) rest => P name ∧ EachTarget P rest
  | _ => True

theorem eachTarget_of_hygienicBindings {e : Value} (h : hygienicBindings reserved e = true) :
    EachTarget (reserved · = false) e := by
  fun_induction EachTarget (reserved · = false) e with
  | case1 name init rest ih =>
    rw [hygienicBindings, Bool.and_eq_true] at h
    simp only [mentions, Bool.and_eq_true, Bool.not_eq_true'] at h
    exact ⟨h.1.1, ih h.2⟩
  | case2 => trivial

theorem eachTarget_of_admitsBindings {μ : Mode} {e : Value} (h : μ.AdmitsBindings e) :
    EachTarget (μ ≠ .loop ·) e := by
  fun_induction EachTarget (μ ≠ .loop ·) e with
  | case1 name init rest ih =>
    rw [Mode.AdmitsBindings] at h
    exact ⟨h.1 name rfl, ih h.2.2⟩
  | case2 => trivial

theorem forall_mem_of_bindingNames {P : String → Prop} {s : Store} {form : SpecialForm}
    {whole : Value} {seen : List String} {e : Value} {names : List String}
    (h : bindingNames s form whole seen e = .ok names) (hseen : ∀ n ∈ seen, P n)
    (he : EachTarget P e) : ∀ n ∈ names, P n := by
  fun_induction bindingNames s form whole seen e with
  | case1 seen =>
    cases h
    simpa using hseen
  | case2 seen name init rest hdup => cases h
  | case3 seen name init rest hdup ih =>
    rw [EachTarget] at he
    exact ih h (List.forall_mem_cons.mpr ⟨he.1, hseen⟩) he.2
  | case4 seen e h1 h2 => cases h

theorem forall_mem_of_boundNames {P : String → Prop} {s : Store} {form : SpecialForm} {e : Value}
    {names : List String} (h : boundNames s form e = .ok names) (he : EachTarget P e) :
    ∀ n ∈ names, P n :=
  forall_mem_of_bindingNames h (fun _ hn => absurd hn List.not_mem_nil) he

theorem forall_mem_of_parameterNames {p : String → Bool} {s : Store} {seen : List String}
    {e : Value} {names : List String} (h : parameterNames s seen e = .ok names)
    (hseen : ∀ n ∈ seen, p n = false) (he : mentions p e = false) : ∀ n ∈ names, p n = false := by
  fun_induction parameterNames s seen e with
  | case1 seen =>
    cases h
    simpa using hseen
  | case2 seen name rest hdup => cases h
  | case3 seen name rest hdup ih =>
    simp only [mentions, Bool.or_eq_false_iff] at he
    exact ih h (List.forall_mem_cons.mpr ⟨he.1, hseen⟩) he.2
  | case4 => cases h
  | case5 => cases h

/-- Names that a parameter list does not mention are no parameters. -/
theorem forall_mem_of_parameters {p : String → Bool} {s : Store} {e : Value} {names : List String}
    (h : parameters s e = .ok names) (he : mentions p e = false) : ∀ n ∈ names, p n = false := by
  unfold parameters at h
  split at h
  · exact forall_mem_of_parameterNames h (fun _ hn => absurd hn List.not_mem_nil) he
  · exact forall_mem_of_parameterNames h (fun _ hn => absurd hn List.not_mem_nil) he
  · cases h

end Form

end Lisplet
