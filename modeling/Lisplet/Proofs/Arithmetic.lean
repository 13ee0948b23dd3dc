import Lisplet.Primitive.Run
import Lisplet.Operation
import Mathlib.Algebra.Ring.Int.Defs

/-! Integer arithmetic gives the exact number or an error. A call folds one step over its operands;
the integers of mathematics say what each step comes to, and whether 64 bits hold it. -/
namespace Lisplet

namespace Integer

def Fits (n : Int) : Prop := -2 ^ 63 ≤ n ∧ n < 2 ^ 63

instance (n : Int) : Decidable (Fits n) := inferInstanceAs (Decidable (_ ∧ _))

theorem fits_toInt (r : Int64) : Fits r.toInt := ⟨r.le_toInt, r.toInt_lt⟩

theorem ofInt?_eq_none_iff {n : Int} : ofInt? n = none ↔ ¬ Fits n := by
  constructor
  · intro hnone hfits
    have hself := Int64.toInt_ofInt_of_le hfits.1 hfits.2
    rw [ofInt?, if_pos hself] at hnone
    cases hnone
  · intro hfits
    cases h : ofInt? n with
    | none => rfl
    | some r =>
      have hn : r.toInt = n := ofInt?_eq_some_iff.mp h
      exact absurd (hn ▸ fits_toInt r) hfits

end Integer

namespace IntegerStep

open Integer

/-- What a step from `a` by `n` comes to on the integers of mathematics. -/
def exact : IntegerStep → Int → Int → Int
  | addition, a, n => a + n
  | negation, _, n => -n
  | subtraction, a, n => a - n
  | multiplication, a, n => a * n
  | division, a, n => a.tdiv n
  | remainder, a, n => a.tmod n

def divides : IntegerStep → Bool
  | division | remainder => true
  | _ => false

/-- A step that can be taken on 64 bits: it divides by no zero, and its result fits, as does the
quotient of a remainder. -/
structure Sound (step : IntegerStep) (a n : Int) : Prop where
  divisor : step.divides = true → n ≠ 0
  quotient : step = remainder → Fits (a.tdiv n)
  result : Fits (step.exact a n)

/-- What is wrong with a step by `n` that cannot be taken. -/
def fault (step : IntegerStep) (n : Int) : EvalFault :=
  if step.divides ∧ n = 0 then .divisionByZero else .overflow step

theorem message_fault (step : IntegerStep) (n : Int) :
    (step.fault n).message = if step.divides ∧ n = 0 then "Division by zero"
      else "Integer overflow in " ++ step.name := by
  unfold fault
  split <;> rfl

def take : IntegerStep → Int64 → Int64 → Except Error Int64
  | addition, a, n => Arithmetic.checked .addition (add? a n)
  | negation, _, n => Arithmetic.checked .negation (neg? n)
  | subtraction, a, n => Arithmetic.checked .subtraction (sub? a n)
  | multiplication, a, n => Arithmetic.checked .multiplication (mul? a n)
  | division, a, n => Arithmetic.dividing .division div? a n
  | remainder, a, n => Arithmetic.dividing .remainder rem? a n

theorem take_eq (step : IntegerStep) (a n : Int64) :
    step.take a n = if step.divides ∧ n.toInt = 0 then .error (.eval .divisionByZero none)
      else Arithmetic.checked step (if step = remainder ∧ ¬ Fits (a.toInt.tdiv n.toInt) then none
        else ofInt? (step.exact a.toInt n.toInt)) := by
  have hzero : n = 0 ↔ n.toInt = 0 := Int64.toInt_inj.symm.trans (by rw [Int64.toInt_zero])
  cases step with
  | division => simp [take, Arithmetic.dividing, div?, exact, divides, hzero]
  | remainder =>
    by_cases hquotient : Fits (a.toInt.tdiv n.toInt)
    · have hsome : div? a n ≠ none := fun hnone => ofInt?_eq_none_iff.mp hnone hquotient
      obtain ⟨q, hq⟩ := Option.ne_none_iff_exists'.mp hsome
      simp [take, Arithmetic.dividing, rem?, hq, exact, divides, hzero, hquotient]
    · have hnone : div? a n = none := ofInt?_eq_none_iff.mpr hquotient
      simp [take, Arithmetic.dividing, rem?, hnone, divides, hzero, hquotient]
  | _ => simp [take, add?, neg?, sub?, mul?, exact, divides]

/-- A sound step gives the exact number. -/
theorem take_of_sound {step : IntegerStep} {a n : Int64} (h : step.Sound a.toInt n.toInt) :
    ∃ r : Int64, step.take a n = .ok r ∧ r.toInt = step.exact a.toInt n.toInt := by
  have hdivisor : ¬ (step.divides ∧ n.toInt = 0) := fun hzero => h.divisor hzero.1 hzero.2
  have hquotient : ¬ (step = remainder ∧ ¬ Fits (a.toInt.tdiv n.toInt)) :=
    fun hover => hover.2 (h.quotient hover.1)
  have hsome : ofInt? (step.exact a.toInt n.toInt) ≠ none :=
    fun hnone => ofInt?_eq_none_iff.mp hnone h.result
  obtain ⟨r, hr⟩ := Option.ne_none_iff_exists'.mp hsome
  refine ⟨r, ?_, ofInt?_eq_some_iff.mp hr⟩
  rw [take_eq, if_neg hdivisor, if_neg hquotient, hr, Arithmetic.checked]

/-- A step that is not sound fails, and a divisor that is zero is noticed first. -/
theorem take_of_not_sound {step : IntegerStep} {a n : Int64} (h : ¬ step.Sound a.toInt n.toInt) :
    step.take a n = .error (.eval (step.fault n.toInt) none) := by
  rw [take_eq, fault]
  split
  · rfl
  · rename_i hdivisor
    split
    · rfl
    · rename_i hquotient
      have hresult : ¬ Fits (step.exact a.toInt n.toInt) := fun hfits => h {
        divisor := fun hdivides hzero => hdivisor ⟨hdivides, hzero⟩
        quotient := fun hremainder => Decidable.not_not.mp fun hover =>
          hquotient ⟨hremainder, hover⟩
        result := hfits }
      rw [ofInt?_eq_none_iff.mpr hresult, Arithmetic.checked]

end IntegerStep

/-- What a call computes: one step after the other from the start, each by a further operand. -/
structure Course where
  step : IntegerStep
  start : Int64
  operands : List Int64

namespace Course

def value (c : Course) : Int :=
  c.operands.foldl (fun a n => c.step.exact a n.toInt) c.start.toInt

def upTo (c : Course) (operands : List Int64) : Course := { c with operands }

def Sound (c : Course) : Prop :=
  ∀ before n after, c.operands = before ++ n :: after →
    c.step.Sound (c.upTo before).value n.toInt

/-- The step by `n` is the first of the course that is not sound. -/
def FailsAt (c : Course) (n : Int64) : Prop :=
  ∃ before after, c.operands = before ++ n :: after ∧ (c.upTo before).Sound ∧
    ¬ c.step.Sound (c.upTo before).value n.toInt

def run (c : Course) : Except Error Int64 := c.operands.foldlM c.step.take c.start

section

variable {step : IntegerStep} {start n r : Int64} {ns : List Int64}

theorem value_cons (h : r.toInt = step.exact start.toInt n.toInt) :
    (Course.mk step start (n :: ns)).value = (Course.mk step r ns).value := by
  simp only [value, List.foldl_cons, h]

theorem sound_nil (step : IntegerStep) (start : Int64) : (Course.mk step start []).Sound :=
  fun before n after hsplit => absurd hsplit (List.append_ne_nil_of_right_ne_nil before
    (List.cons_ne_nil n after)).symm

/-- The first step is sound, and so is what is left of the course after it. -/
theorem sound_cons (h : r.toInt = step.exact start.toInt n.toInt) :
    (Course.mk step start (n :: ns)).Sound ↔
      step.Sound start.toInt n.toInt ∧ (Course.mk step r ns).Sound := by
  constructor
  · intro hsound
    refine ⟨hsound [] n ns rfl, fun before k after hsplit => ?_⟩
    have hstep := hsound (n :: before) k after (congrArg (n :: ·) hsplit)
    rwa [upTo, value_cons h] at hstep
  · rintro ⟨hfirst, hrest⟩ before k after hsplit
    cases before with
    | nil =>
      obtain ⟨rfl, -⟩ := List.cons.inj hsplit
      exact hfirst
    | cons m before =>
      obtain ⟨rfl, hrest'⟩ := List.cons.inj hsplit
      rw [upTo, value_cons h]
      exact hrest before k after hrest'

theorem run_cons_of_sound (hsound : step.Sound start.toInt n.toInt) :
    ∃ r : Int64, r.toInt = step.exact start.toInt n.toInt ∧
      (Course.mk step start (n :: ns)).run = (Course.mk step r ns).run := by
  obtain ⟨r, htake, hr⟩ := IntegerStep.take_of_sound hsound
  refine ⟨r, hr, ?_⟩
  rw [run, List.foldlM_cons, htake]
  rfl

theorem run_cons_of_not_sound (hsound : ¬ step.Sound start.toInt n.toInt) :
    (Course.mk step start (n :: ns)).run = .error (.eval (step.fault n.toInt) none) := by
  rw [run, List.foldlM_cons, IntegerStep.take_of_not_sound hsound]
  rfl

end

/-- A sound course comes to the exact number. -/
theorem run_of_sound {c : Course} (h : c.Sound) :
    ∃ r : Int64, c.run = .ok r ∧ r.toInt = c.value := by
  obtain ⟨step, start, ns⟩ := c
  induction ns generalizing start with
  | nil => exact ⟨start, rfl, rfl⟩
  | cons n ns ih =>
    have hfirst : step.Sound start.toInt n.toInt := h [] n ns rfl
    obtain ⟨r, hr, hrun⟩ := run_cons_of_sound hfirst
    rw [hrun, value_cons hr]
    exact ih r ((sound_cons hr).mp h).2

/-- A course fails with what is wrong with its first step that is not sound. -/
theorem run_of_failsAt {c : Course} {n : Int64} (h : c.FailsAt n) :
    c.run = .error (.eval (c.step.fault n.toInt) none) := by
  obtain ⟨step, start, ns⟩ := c
  obtain ⟨before, after, hsplit, hbefore, hn⟩ := h
  change ns = before ++ n :: after at hsplit
  subst hsplit
  induction before generalizing start with
  | nil => exact run_cons_of_not_sound hn
  | cons m before ih =>
    have hfirst : step.Sound start.toInt m.toInt := hbefore [] m before rfl
    obtain ⟨r, hr, hrun⟩ := run_cons_of_sound hfirst
    rw [List.cons_append, hrun]
    rw [upTo, value_cons hr] at hn
    exact ih r ((sound_cons hr).mp hbefore).2 hn

/-- A course without a step that fails is sound. -/
theorem sound_or_failsAt (c : Course) : c.Sound ∨ ∃ n, c.FailsAt n := by
  obtain ⟨step, start, ns⟩ := c
  induction ns generalizing start with
  | nil => exact .inl (sound_nil step start)
  | cons n ns ih =>
    by_cases hfirst : step.Sound start.toInt n.toInt
    · obtain ⟨r, -, hr⟩ := IntegerStep.take_of_sound hfirst
      rcases ih r with hrest | ⟨k, before, after, hsplit, hbefore, hk⟩
      · exact .inl ((sound_cons hr).mpr ⟨hfirst, hrest⟩)
      · have hk' : ¬ step.Sound (Course.mk step start (n :: before)).value k.toInt := by
          rwa [value_cons hr]
        exact .inr ⟨k, n :: before, after, congrArg (n :: ·) hsplit,
          (sound_cons hr).mpr ⟨hfirst, hbefore⟩, hk'⟩
    · exact .inr ⟨n, [], ns, rfl, sound_nil step start, hfirst⟩

theorem run_eq_ok_iff {c : Course} {r : Int64} : c.run = .ok r ↔ c.Sound ∧ r.toInt = c.value := by
  constructor
  · intro hrun
    rcases c.sound_or_failsAt with hsound | ⟨n, hn⟩
    · obtain ⟨r', hrun', hr'⟩ := run_of_sound hsound
      obtain rfl : r = r' := Except.ok.inj (hrun.symm.trans hrun')
      exact ⟨hsound, hr'⟩
    · cases hrun.symm.trans (run_of_failsAt hn)
  · rintro ⟨hsound, hr⟩
    obtain ⟨r', hrun, hr'⟩ := run_of_sound hsound
    rw [hrun, Int64.toInt_inj.mp (hr.trans hr'.symm)]

theorem run_eq_error_iff {c : Course} {e : Error} :
    c.run = .error e ↔ ∃ n, c.FailsAt n ∧ e = .eval (c.step.fault n.toInt) none := by
  constructor
  · intro hrun
    rcases c.sound_or_failsAt with hsound | ⟨n, hn⟩
    · obtain ⟨r, hrun', -⟩ := run_of_sound hsound
      cases hrun.symm.trans hrun'
    · exact ⟨n, hn, Except.error.inj (hrun.symm.trans (run_of_failsAt hn))⟩
  · rintro ⟨n, hn, rfl⟩
    exact run_of_failsAt hn

end Course

namespace Arithmetic

def primitives : List Primitive := [.add, .subtract, .multiply, .divide, .remainder]

/-- The course of a call of such a primitive with integers: a sum starts from zero, a single operand
of a difference is negated, and all else starts from the first operand. -/
def course : Primitive → List Int64 → Course
  | .add, ns => ⟨.addition, 0, ns⟩
  | .subtract, [n] => ⟨.negation, 0, [n]⟩
  | .subtract, n :: ns => ⟨.subtraction, n, ns⟩
  | .multiply, n :: ns => ⟨.multiplication, n, ns⟩
  | .divide, n :: ns => ⟨.division, n, ns⟩
  | .remainder, n :: ns => ⟨.remainder, n, ns⟩
  | _, _ => ⟨.addition, 0, []⟩

def Foreign (v : Value) : Prop := ∀ n, v ≠ .integer n

/-- Takes integers as they are, and refuses all else for its kind. -/
structure TakesIntegers (f : Value → Except Error Int64) : Prop where
  integer : ∀ n, f (.integer n) = .ok n
  foreign : ∀ v, Foreign v → ∃ fault, f v = .error (.type fault none)

theorem integerAmong_takes (op : Primitive) (s : Store) : TakesIntegers (integerAmong op s) where
  integer _ := rfl
  foreign v hv := by
    cases v with
    | integer n => exact absurd rfl (hv n)
    | _ => exact ⟨_, rfl⟩

theorem expectInteger_takes (op : Primitive) (s : Store) : TakesIntegers (expectInteger op s) where
  integer _ := rfl
  foreign v hv := by
    cases v with
    | integer n => exact absurd rfl (hv n)
    | _ => exact ⟨_, rfl⟩

namespace TakesIntegers

variable {f : Value → Except Error Int64} (h : TakesIntegers f)

include h

theorem mapM_integers (ns : List Int64) : (ns.map Value.integer).mapM f = .ok ns := by
  induction ns with
  | nil => rfl
  | cons n ns ih =>
    rw [List.map_cons, List.mapM_cons, h.integer, ih]
    rfl

/-- A value that is no integer is found wherever it stands. -/
theorem mapM_foreign {vs : List Value} (hvs : ∃ v ∈ vs, Foreign v) :
    ∃ fault, vs.mapM f = .error (.type fault none) := by
  induction vs with
  | nil =>
    obtain ⟨v, hv, -⟩ := hvs
    exact absurd hv List.not_mem_nil
  | cons v vs ih =>
    rw [List.mapM_cons]
    by_cases hv : Foreign v
    · obtain ⟨fault, hfault⟩ := h.foreign v hv
      exact ⟨fault, by rw [hfault]; rfl⟩
    · obtain ⟨n, rfl⟩ : ∃ n, v = .integer n := by
        simpa [Foreign] using hv
      have hrest : ∃ w ∈ vs, Foreign w := by
        obtain ⟨w, hw, hforeign⟩ := hvs
        rcases List.mem_cons.mp hw with rfl | hw
        · exact absurd hforeign hv
        · exact ⟨w, hw, hforeign⟩
      obtain ⟨fault, hfault⟩ := ih hrest
      exact ⟨fault, by rw [h.integer, hfault]; rfl⟩

end TakesIntegers

theorem operands_integers (op : Primitive) (s : Store) (ns : List Int64) :
    operands op s (ns.map Value.integer) = .ok (.integers ns) := by
  cases ns with
  | nil => rfl
  | cons n ns =>
    have hmap := (integerAmong_takes op s).mapM_integers (n :: ns)
    rw [List.map_cons] at hmap ⊢
    rw [operands, hmap]
    rfl

theorem operands_foreign (op : Primitive) (s : Store) (n : Int64) {rest : List Value}
    (h : ∃ v ∈ rest, Foreign v) :
    ∃ fault, operands op s (.integer n :: rest) = .error (.type fault none) := by
  have hargs : ∃ v ∈ Value.integer n :: rest, Foreign v :=
    h.imp fun v hv => ⟨List.mem_cons_of_mem _ hv.1, hv.2⟩
  obtain ⟨fault, hfault⟩ := (integerAmong_takes op s).mapM_foreign hargs
  exact ⟨fault, by rw [operands, hfault]; rfl⟩

/-- An observer that is run for a primitive, takes integers along its course, and refuses all else
once the first operand is an integer. -/
structure Computes (f : Observer) (p : Primitive) : Prop where
  run : ∀ args, p.run args = Action.observe f args
  integers : ∀ s ns, p.arity.accepts ns.length = true →
    f s (ns.map .integer) = Value.integer <$> (course p ns).run
  foreign : ∀ s n rest, (∃ v ∈ rest, Foreign v) →
    ∃ fault, f s (.integer n :: rest) = .error (.type fault none)

theorem bind_integer (x : Except Error Int64) :
    (x >>= fun n => Except.ok (Value.integer n)) = Value.integer <$> x := by
  cases x <;> rfl

theorem add_computes : Computes add .add where
  run _ := rfl
  integers s ns _ := by
    rw [add, operands_integers]
    exact bind_integer (course .add ns).run
  foreign s n rest h := by
    obtain ⟨fault, hfault⟩ := operands_foreign .add s n h
    exact ⟨fault, by rw [add, hfault]; rfl⟩

theorem subtract_computes : Computes subtract .subtract where
  run _ := rfl
  integers s ns hcount := by
    rw [subtract, operands_integers]
    match ns with
    | [] => cases hcount
    | [n] =>
      have hone : (course .subtract [n]).run = checked .negation (Integer.neg? n) :=
        bind_pure (checked .negation (Integer.neg? n))
      rw [hone]
      rfl
    | n :: k :: ns => exact bind_integer (course .subtract (n :: k :: ns)).run
  foreign s n rest h := by
    obtain ⟨fault, hfault⟩ := operands_foreign .subtract s n h
    exact ⟨fault, by rw [subtract, hfault]; rfl⟩

theorem multiply_computes : Computes multiply .multiply where
  run _ := rfl
  integers s ns hcount := by
    rw [multiply, operands_integers]
    match ns with
    | [] => cases hcount
    | n :: ns => exact bind_integer (course .multiply (n :: ns)).run
  foreign s n rest h := by
    obtain ⟨fault, hfault⟩ := operands_foreign .multiply s n h
    exact ⟨fault, by rw [multiply, hfault]; rfl⟩

theorem divide_computes : Computes divide .divide where
  run _ := rfl
  integers s ns hcount := by
    rw [divide, operands_integers]
    match ns with
    | [] => cases hcount
    | n :: ns => rfl
  foreign s n rest h := by
    obtain ⟨fault, hfault⟩ := operands_foreign .divide s n h
    exact ⟨fault, by rw [divide, hfault]; rfl⟩

theorem remainder_computes : Computes remainder .remainder where
  run _ := rfl
  integers s ns hcount := by
    rw [remainder, (expectInteger_takes .remainder s).mapM_integers]
    match ns with
    | [] => cases hcount
    | n :: ns => rfl
  foreign s n rest h := by
    have hargs : ∃ v ∈ Value.integer n :: rest, Foreign v :=
      h.imp fun v hv => ⟨List.mem_cons_of_mem _ hv.1, hv.2⟩
    obtain ⟨fault, hfault⟩ := (expectInteger_takes .remainder s).mapM_foreign hargs
    exact ⟨fault, by rw [remainder, hfault]; rfl⟩

theorem exists_computes {p : Primitive} (hp : p ∈ primitives) : ∃ f, Computes f p := by
  simp only [primitives, List.mem_cons, List.not_mem_nil, or_false] at hp
  rcases hp with rfl | rfl | rfl | rfl | rfl
  · exact ⟨add, add_computes⟩
  · exact ⟨subtract, subtract_computes⟩
  · exact ⟨multiply, multiply_computes⟩
  · exact ⟨divide, divide_computes⟩
  · exact ⟨remainder, remainder_computes⟩

theorem ofExcept_integer_store (x : Except Error Int64) (s : Store) :
    (Action.ofExcept (Value.integer <$> x) s).2 = s := by
  cases x <;> rfl

section

variable {x : Except Error Int64} {s : Store}

theorem ofExcept_integer_eq_ok_iff {v : Value} :
    (Action.ofExcept (Value.integer <$> x) s).1 = .ok v ↔ ∃ r, x = .ok r ∧ v = .integer r := by
  cases x with
  | error e =>
    constructor
    · intro h
      cases h
    · rintro ⟨_, h, -⟩
      cases h
  | ok r =>
    constructor
    · intro h
      exact ⟨r, rfl, (Except.ok.inj h).symm⟩
    · rintro ⟨_, hr, rfl⟩
      exact congrArg _ (congrArg _ (Except.ok.inj hr))

theorem ofExcept_integer_eq_error_iff {stop : Stop} :
    (Action.ofExcept (Value.integer <$> x) s).1 = .error stop ↔
      ∃ e, x = .error e ∧ stop = .failed e := by
  cases x with
  | ok r =>
    constructor
    · intro h
      cases h
    · rintro ⟨_, h, -⟩
      cases h
  | error e =>
    constructor
    · intro h
      exact ⟨e, rfl, (Except.error.inj h).symm⟩
    · rintro ⟨_, he, rfl⟩
      exact congrArg _ (congrArg _ (Except.error.inj he))

end

/-- A call of an arithmetic primitive with integers gives the exact number if every step of its
course is sound, and otherwise fails with what is wrong with the first that is not: it divides by
zero, or 64 bits do not hold what it comes to. A first integer among whose followers one is none
makes the call a type error, whatever the steps before that one come to. -/
theorem run_integers (p : Primitive) (hp : p ∈ primitives) (s : Store) :
    (∀ ns : List Int64, p.arity.accepts ns.length = true →
      let call := p.run (ns.map .integer) s
      call.2 = s ∧
        (∀ v, call.1 = .ok v ↔
          (course p ns).Sound ∧ ∃ r : Int64, v = .integer r ∧ r.toInt = (course p ns).value) ∧
        (∀ stop, call.1 = .error stop ↔ ∃ n, (course p ns).FailsAt n ∧
          stop = .failed (.eval ((course p ns).step.fault n.toInt) none)) ∧
        ∀ n, ((course p ns).step.fault n).message =
          if (course p ns).step.divides ∧ n = 0 then "Division by zero"
          else "Integer overflow in " ++ (course p ns).step.name) ∧
    ∀ n rest, (∃ v ∈ rest, Foreign v) →
      ∃ fault, p.run (.integer n :: rest) s = (.error (.failed (.type fault none)), s) := by
  obtain ⟨f, hf⟩ := exists_computes hp
  constructor
  · intro ns hcount call
    have hcall : call = Action.ofExcept (Value.integer <$> (course p ns).run) s := by
      change p.run (ns.map .integer) s = _
      rw [hf.run]
      change Action.ofExcept (f s (ns.map .integer)) s = _
      rw [hf.integers s ns hcount]
    rw [hcall]
    refine ⟨ofExcept_integer_store _ s, fun v => ?_, fun stop => ?_,
      fun n => IntegerStep.message_fault _ n⟩
    · rw [ofExcept_integer_eq_ok_iff]
      constructor
      · rintro ⟨r, hrun, rfl⟩
        obtain ⟨hsound, hr⟩ := Course.run_eq_ok_iff.mp hrun
        exact ⟨hsound, r, rfl, hr⟩
      · rintro ⟨hsound, r, rfl, hr⟩
        exact ⟨r, Course.run_eq_ok_iff.mpr ⟨hsound, hr⟩, rfl⟩
    · rw [ofExcept_integer_eq_error_iff]
      constructor
      · rintro ⟨e, hrun, rfl⟩
        obtain ⟨n, hn, rfl⟩ := Course.run_eq_error_iff.mp hrun
        exact ⟨n, hn, rfl⟩
      · rintro ⟨n, hn, rfl⟩
        exact ⟨_, Course.run_eq_error_iff.mpr ⟨n, hn, rfl⟩, rfl⟩
  · intro n rest h
    obtain ⟨fault, hfault⟩ := hf.foreign s n rest h
    refine ⟨fault, ?_⟩
    rw [hf.run]
    change Action.ofExcept (f s (.integer n :: rest)) s = _
    rw [hfault]
    rfl

theorem run_integers_remainder_of_least :
    (Primitive.remainder.run [.integer Int64.minValue, .integer (-1), .integer 0] .empty).1 =
        .error (.failed (.eval (.overflow .remainder) none)) ∧
      ∃ fault, Primitive.divide.run [.integer 1, .integer 0, .string "two"] .empty =
        (.error (.failed (.type fault none)), .empty) := by
  constructor
  · obtain ⟨hintegers, -⟩ := run_integers .remainder (by decide) .empty
    obtain ⟨-, -, herror, -⟩ := hintegers [Int64.minValue, -1, 0] rfl
    have hquotient : ¬ Integer.Fits (Int64.minValue.toInt.tdiv (-1 : Int64).toInt) := by decide
    have hfails : (course .remainder [Int64.minValue, -1, 0]).FailsAt (-1) :=
      ⟨[], [0], rfl, Course.sound_nil _ _, fun h => hquotient (h.quotient rfl)⟩
    exact (herror _).mpr ⟨-1, hfails, by decide⟩
  · obtain ⟨-, hforeign⟩ := run_integers .divide (by decide) .empty
    exact hforeign 1 [.integer 0, .string "two"] ⟨.string "two", by simp, nofun⟩

end Arithmetic

end Lisplet
