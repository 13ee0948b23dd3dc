import Lisplet.Proofs.Keeping

/-! Errors as they are raised. Nothing that an evaluation does by itself names the expression that
is evaluated; that is added to an error on its way out. -/
namespace Lisplet

def Error.context? : Error → Option String
  | eval _ context => context
  | type _ context => context
  | _ => none

/-- Whether an error names no expression, or there is none. -/
def Stop.isBare : Stop → Bool
  | failed e => e.context?.isNone
  | unfinished => true

def BareErrors {α : Type} (x : Except Error α) : Prop := ∀ e, x = .error e → e.context? = none

namespace BareErrors

variable {α β : Type}

theorem ok (v : α) : BareErrors (.ok v) := fun _ h => by cases h

theorem error {e : Error} (h : e.context? = none) : BareErrors (.error e : Except Error α) := by
  rintro _ ⟨⟩
  exact h

theorem bind {x : Except Error α} {f : α → Except Error β} (hx : BareErrors x)
    (hf : ∀ v, BareErrors (f v)) : BareErrors (x >>= f) := by
  cases x with
  | error e => exact error (hx e rfl)
  | ok v => exact hf v

theorem map {x : Except Error α} (f : α → β) (hx : BareErrors x) : BareErrors (f <$> x) := by
  cases x with
  | error e => exact error (hx e rfl)
  | ok v => exact ok (f v)

theorem mapM {f : α → Except Error β} (hf : ∀ v, BareErrors (f v)) (vs : List α) :
    BareErrors (vs.mapM f) := by
  induction vs with
  | nil => exact ok []
  | cons v vs ih =>
    rw [List.mapM_cons]
    exact (hf v).bind fun w => ih.bind fun ws => ok (w :: ws)

theorem foldlM {f : β → α → Except Error β} (hf : ∀ acc v, BareErrors (f acc v)) (start : β)
    (vs : List α) : BareErrors (vs.foldlM f start) := by
  induction vs generalizing start with
  | nil => exact ok start
  | cons v vs ih =>
    rw [List.foldlM_cons]
    exact (hf start v).bind fun acc => ih acc

end BareErrors

open BareErrors (ok error)

def Action.Bare {α : Type} (a : Action α) : Prop :=
  ∀ s stop, (a s).1 = .error stop → stop.isBare = true

namespace Action.Bare

variable {α β : Type}

theorem pure (v : α) : (pure v : Action α).Bare := fun _ _ h => by cases h

theorem unfinished : (throw .unfinished : Action α).Bare := by
  rintro s _ ⟨⟩
  rfl

theorem ofExcept {x : Except Error α} (hx : BareErrors x) : (Action.ofExcept x).Bare := by
  intro s stop hstop
  cases x with
  | error e =>
    cases hstop
    exact Option.isNone_iff_eq_none.mpr (hx e rfl)
  | ok v => cases hstop

theorem fail {e : Error} (h : e.context? = none) : (Action.fail e : Action α).Bare :=
  ofExcept (x := .error e) (error h)

theorem evalFault (fault : EvalFault) : (Action.evalFault fault : Action α).Bare := fail rfl

theorem typeFault (fault : TypeFault) : (Action.typeFault fault : Action α).Bare := fail rfl

theorem arityFault (expected : Arity) (got : Nat) :
    (Action.arityFault expected got : Action α).Bare :=
  fail rfl

theorem change (f : Store → α × Store) : (Action.change f).Bare := fun _ _ h => by cases h

theorem modify (f : Store → Store) : (modify f : Action Unit).Bare := fun _ _ h => by cases h

theorem bind {a : Action α} {f : α → Action β} (ha : a.Bare) (hf : ∀ v, (f v).Bare) :
    (a >>= f).Bare :=
  errors_bind ha hf

theorem get_bind {f : Store → Action α} (hf : ∀ s, (f s).Bare) : (get >>= f).Bare :=
  fun s => hf s s

theorem text_bind (v : Value) {f : String → Action α} (hf : ∀ t, (f t).Bare) :
    (Action.text v >>= f).Bare :=
  fun s => hf (s.text v) s

theorem observe {f : Observer} {args : List Value} (h : ∀ s, BareErrors (f s args)) :
    (Action.observe f args).Bare :=
  get_bind fun s => ofExcept (h s)

theorem elements (v : Value) : (Action.elements v).Bare := by
  unfold Action.elements
  split
  · exact .pure _
  · exact .text_bind _ fun _ => .typeFault _

theorem checkCount (id : ClosureId) (got : Nat) (e : Value) :
    (Action.checkCount id got e).Bare := by
  have hcount (count : Nat) : Action.Bare (do
      if got = count then return ()
      else Action.fail (.arity (.exact count) got (some (← Action.text e)))) := by
    split
    · exact .pure _
    · exact .text_bind _ fun _ => .fail rfl
  unfold Action.checkCount
  refine .get_bind fun s => ?_
  split <;> exact hcount _

end Action.Bare

/-- The number of arguments is checked without regard to the call. -/
theorem Arity.check_bare (arity : Arity) (got : Nat) : BareErrors (arity.check got) := by
  unfold check
  split
  · exact ok _
  · exact error rfl

namespace Form

theorem parameterNames_bare (s : Store) (seen : List String) (e : Value) :
    BareErrors (parameterNames s seen e) := by
  induction e generalizing seen with
  | nil => exact ok _
  | pair target rest _ ih =>
    cases target with
    | symbol name =>
      rw [parameterNames]
      split
      · exact error rfl
      · exact ih (name :: seen)
    | _ => exact error rfl
  | _ => exact error rfl

theorem parameters_bare (s : Store) (e : Value) : BareErrors (parameters s e) := by
  unfold parameters
  split
  · exact parameterNames_bare s [] _
  · exact parameterNames_bare s [] _
  · exact error rfl

theorem bindingNames_bare (s : Store) (form : SpecialForm) (whole : Value) (seen : List String)
    (e : Value) : BareErrors (bindingNames s form whole seen e) := by
  induction e generalizing seen with
  | pair binding rest _ ih =>
    unfold bindingNames
    split
    · exact ok _
    · rename_i heq
      cases heq
      split
      · exact error rfl
      · exact ih _
    · exact error rfl
  | nil => exact ok _
  | _ => exact error rfl

end Form

namespace Arithmetic

theorem operands_bare (op : Primitive) (s : Store) (args : List Value) :
    BareErrors (operands op s args) := by
  have hinteger (v : Value) : BareErrors (integerAmong op s v) := by
    cases v <;> first | exact ok _ | exact error rfl
  have hfloat (v : Value) : BareErrors (floatAmong op s v) := by
    cases v <;> first | exact ok _ | exact error rfl
  unfold operands
  split
  · exact ok _
  · exact .map _ (.mapM hinteger _)
  · exact .map _ (.mapM hfloat _)
  · exact error rfl

theorem checked_bare (step : IntegerStep) (n : Option Int64) : BareErrors (checked step n) := by
  cases n with
  | some n => exact ok n
  | none => exact error rfl

theorem dividing_bare (step : IntegerStep) (f : Int64 → Int64 → Option Int64) (acc n : Int64) :
    BareErrors (dividing step f acc n) := by
  unfold dividing
  split
  · exact error rfl
  · exact checked_bare step _

theorem expectInteger_bare (op : Primitive) (s : Store) (v : Value) :
    BareErrors (expectInteger op s v) := by
  cases v <;> first | exact ok _ | exact error rfl

theorem add_bare (s : Store) (args : List Value) : BareErrors (add s args) := by
  refine (operands_bare .add s args).bind fun operands => ?_
  split
  · exact (BareErrors.foldlM (fun _ _ => checked_bare _ _) _ _).bind fun _ => ok _
  · exact ok _

theorem subtract_bare (s : Store) (args : List Value) : BareErrors (subtract s args) := by
  refine (operands_bare .subtract s args).bind fun operands => ?_
  split
  · exact error rfl
  · exact error rfl
  · exact .map _ (checked_bare _ _)
  · exact (BareErrors.foldlM (fun _ _ => checked_bare _ _) _ _).bind fun _ => ok _
  · exact ok _
  · exact ok _

theorem multiply_bare (s : Store) (args : List Value) : BareErrors (multiply s args) := by
  refine (operands_bare .multiply s args).bind fun operands => ?_
  split
  · exact error rfl
  · exact error rfl
  · exact (BareErrors.foldlM (fun _ _ => checked_bare _ _) _ _).bind fun _ => ok _
  · exact ok _

theorem divide_bare (s : Store) (args : List Value) : BareErrors (divide s args) := by
  refine (operands_bare .divide s args).bind fun operands => ?_
  split
  · exact error rfl
  · exact error rfl
  · exact .map _ (.foldlM (fun _ _ => dividing_bare _ _ _ _) _ _)
  · exact ok _

theorem remainder_bare (s : Store) (args : List Value) : BareErrors (remainder s args) := by
  refine (BareErrors.mapM (expectInteger_bare _ s) args).bind fun operands => ?_
  split
  · exact error rfl
  · exact .map _ (.foldlM (fun _ _ => dividing_bare _ _ _ _) _ _)

end Arithmetic

theorem Comparison.compare_bare (relation : Relation) (s : Store) (args : List Value) :
    BareErrors (compare relation s args) := by
  have horder (a b : Value) : BareErrors (order relation s a b) := by
    unfold order
    split <;> first | exact ok _ | exact error rfl
  have hrelated : BareErrors (related relation s args) := by
    induction args with
    | nil => exact ok _
    | cons a rest ih =>
      cases rest with
      | nil => exact ok _
      | cons b rest =>
        refine (horder a b).bind fun o => ?_
        split
        · exact ih
        · exact ok _
  unfold compare
  split
  · exact error rfl
  · exact .map _ hrelated

theorem Observer.onOne_bare {f : Store → Value → Except Error Value} {s : Store}
    (h : ∀ v, BareErrors (f s v)) (args : List Value) : BareErrors (onOne f s args) := by
  unfold onOne
  split
  · exact h _
  · exact error rfl

namespace Console

open Action

theorem takeLine_bare : takeLine.Bare := by
  refine .get_bind fun s => .bind (.modify _) fun _ => ?_
  split
  · exact .pure _
  · split
    · exact .pure _
    · exact .evalFault _

theorem integerWord_bare (word : List Char) : BareErrors (integerWord word) := by
  unfold integerWord
  split
  · exact ok _
  · exact error rfl

theorem readLine_bare (args : List Value) : (readLine args).Bare := by
  unfold readLine
  split
  · exact Bare.arityFault (.exact 0) args.length
  · refine .bind takeLine_bare fun line => ?_
    cases line with
    | some line => exact .pure _
    | none => exact .pure _

theorem readIntegers_bare (args : List Value) : (readIntegers args).Bare := by
  unfold readIntegers
  split
  · exact Bare.arityFault (.exact 0) args.length
  · refine .bind takeLine_bare fun line => ?_
    cases line with
    | some line => exact .bind (.ofExcept (.mapM integerWord_bare _)) fun _ => .pure _
    | none => exact .pure _

theorem exit_bare (s : Store) (args : List Value) : BareErrors (exit s args) := by
  unfold exit
  split
  · exact error rfl
  · refine (Arithmetic.expectInteger_bare _ s _).bind fun n => ?_
    split <;> exact error rfl
  · exact error rfl

end Console

namespace Vector

open Action

theorem make_bare (args : List Value) : (make args).Bare := by
  unfold make
  split
  · refine .get_bind fun s => .bind (.ofExcept (Arithmetic.expectInteger_bare _ s _)) fun n => ?_
    split
    · exact .bind (.change _) fun _ => .pure _
    · exact .evalFault _
  · exact .arityFault _ _

theorem copy_bare (args : List Value) : (copy args).Bare := by
  unfold copy
  split
  · exact .bind (.change _) fun _ => .pure _
  · exact .bind (.elements _) fun _ => .bind (.change _) fun _ => .pure _
  · exact .arityFault _ _

theorem locate_bare (v index : Value) : (locate v index).Bare := by
  unfold locate
  split
  · refine .get_bind fun s => .bind (.ofExcept (Arithmetic.expectInteger_bare _ s _)) fun n => ?_
    refine .get_bind fun s => ?_
    split
    · dsimp only
      split
      · exact .pure _
      · exact .fail rfl
    · exact .fail rfl
  · exact .get_bind fun _ => .typeFault _

theorem slot_bare (args : List Value) : (slot args).Bare := by
  unfold slot
  split
  · exact .bind (locate_bare _ _) fun _ => .get_bind fun _ => .pure _
  · exact .bind (locate_bare _ _) fun _ => .bind (.modify _) fun _ => .pure _
  · exact .arityFault _ _

end Vector

/-- No primitive names the expression that calls it. -/
theorem Primitive.run_bare (p : Primitive) (args : List Value) : (p.run args).Bare := by
  cases p with
  | add => exact .observe fun s => Arithmetic.add_bare s args
  | subtract => exact .observe fun s => Arithmetic.subtract_bare s args
  | multiply => exact .observe fun s => Arithmetic.multiply_bare s args
  | divide => exact .observe fun s => Arithmetic.divide_bare s args
  | remainder => exact .observe fun s => Arithmetic.remainder_bare s args
  | compare relation => exact .observe fun s => Comparison.compare_bare relation s args
  | identity | isNull => exact .observe fun s => Observer.onOne_bare (fun _ => ok _) args
  | head | tail | characters =>
    refine .observe fun s => Observer.onOne_bare (fun v => ?_) args
    cases v <;> first | exact ok _ | exact error rfl
  | toInteger =>
    refine .observe fun s => Observer.onOne_bare (fun v => ?_) args
    cases v with
    | integer n => exact ok _
    | string t =>
      dsimp only
      split
      · exact ok _
      · exact error rfl
    | _ => exact error rfl
  | cons =>
    refine .observe fun s => ?_
    unfold Lists.cons
    split
    · exact ok _
    · exact error rfl
  | list | toText => exact .observe fun s => ok _
  | readLine => exact Console.readLine_bare args
  | readIntegers => exact Console.readIntegers_bare args
  | print => exact .bind (.modify _) fun _ => .pure _
  | exit => exact .observe fun s => Console.exit_bare s args
  | makeVector => exact Vector.make_bare args
  | copyVector => exact Vector.copy_bare args
  | vectorSlot => exact Vector.slot_bare args

namespace Machine

theorem run_bare {m : Machine} (hm : m.hosts = #[]) (body : Procedure) (args : List Value) :
    (m.run body args).Bare := by
  cases body with
  | primitive p => exact p.run_bare args
  | recur => exact .pure _
  | host slot =>
    rw [run, hm]
    exact .pure _

theorem evalAtom_bare (m : Machine) (scope : FrameId) (e : Value) : (m.evalAtom scope e).Bare := by
  cases e with
  | symbol name =>
    refine .get_bind fun s => ?_
    split
    · exact .pure _
    · exact .fail rfl
  | _ => exact .pure _

theorem makeClosure_bare (scope : FrameId) (params body : Value) :
    (Action.makeClosure scope params body).Bare :=
  .get_bind fun s => .bind (.ofExcept (Form.parameters_bare s params)) fun _ =>
    .bind (.change _) fun _ => .pure _

theorem rebindFrom_bare (scope frame : FrameId) (params : List String) (args : List Value) :
    (rebindFrom scope frame params args).Bare := by
  unfold rebindFrom
  induction params.zip args with
  | nil => exact .pure _
  | cons given rest ih => exact .bind (.modify _) fun _ => ih

end Machine

end Lisplet
