import Lisplet.Proofs.Keeping

/-! What primitives depend on and what they change. They read vectors, the input and the names of
closures; they change vectors, the input and the output. Frames are none of their business. -/
namespace Lisplet

structure Store.Akin (s t : Store) : Prop where
  vectors : s.vectors = t.vectors
  names : s.closureName? = t.closureName?

namespace Store.Akin

variable {s t : Store}

theorem items (h : s.Akin t) : s.items = t.items := by
  funext id
  simp only [Store.items, h.vectors]

theorem writeInside (h : s.Akin t) (fuel : Nat) : s.writeInside fuel = t.writeInside fuel := by
  induction fuel with
  | zero =>
    funext opened acc v
    simp only [Store.writeInside, h.names]
  | succ fuel ih =>
    funext opened acc v
    simp only [Store.writeInside, h.names, h.items, ih]

theorem text (h : s.Akin t) : s.text = t.text := by
  funext v
  simp only [Store.text, h.vectors, h.writeInside]

theorem bareText (h : s.Akin t) : s.bareText = t.bareText := by
  funext v
  cases v with
  | string _ => rfl
  | _ => exact congrFun h.text _

theorem shown (h : s.Akin t) : s.shown = t.shown := by
  funext v
  simp only [Store.shown, h.text]

end Store.Akin

/-- Two stores that no primitive can tell apart. -/
structure Store.Alike (s t : Store) : Prop extends s.Akin t where
  input : s.input = t.input
  output : s.output = t.output

theorem Store.Alike.refl (s : Store) : s.Alike s := ⟨⟨rfl, rfl⟩, rfl, rfl⟩

/-- An action made of the steps that primitives take. What it reads of the store besides the input
is the same in akin stores. -/
inductive Action.Basic : {α : Type} → Action α → Prop where
  | pure {α : Type} (v : α) : Basic (pure v)
  | fail {α : Type} (e : Error) : Basic (Action.fail e : Action α)
  | bind {α β : Type} {a : Action α} {f : α → Action β} (ha : Basic a) (hf : ∀ v, Basic (f v)) :
    Basic (a >>= f)
  | get {α : Type} {f : Store → Action α} (hf : ∀ s, Basic (f s))
    (hakin : ∀ s t, s.Akin t → f s = f t) : Basic (get >>= f)
  | pushVector {f : Store → Array Value} (hakin : ∀ s t, s.Akin t → f s = f t) :
    Basic (Action.change fun s => s.pushVector (f s))
  | setItem (id : VectorId) (slot : Nat) (value : Value) :
    Basic (modify fun s => s.setItem id slot value)
  | takeLine : Basic Console.takeLine
  | print {f : Store → String} (hakin : ∀ s t, s.Akin t → f s = f t) :
    Basic (modify fun s => { s with output := s.output ++ f s ++ "\n" })

def Observer.Local (f : Observer) : Prop := ∀ s t, s.Akin t → f s = f t

namespace Action.Basic

theorem ofExcept {α : Type} (x : Except Error α) : Basic (Action.ofExcept x) := by
  cases x with
  | error e => exact fail e
  | ok v => exact pure v

theorem observe {f : Observer} (hf : f.Local) (args : List Value) :
    Basic (Action.observe f args) :=
  get (fun _ => ofExcept _) fun s t h => by rw [hf s t h]

theorem text (v : Value) : Basic (Action.text v) :=
  get (fun _ => pure _) fun s t h => by rw [h.text]

theorem checkList (v : Value) : Basic (Action.checkList v) := by
  unfold Action.checkList
  split
  · exact pure _
  · exact bind (text _) fun _ => fail _

end Action.Basic

namespace Form

/-- Parameter lists are read alike where the values in them have the same texts. -/
theorem parameters_congr {P : Value → Prop} (hP : ∀ {a b : Value}, P (.pair a b) → P a ∧ P b)
    {s t : Store} (htext : ∀ v, P v → t.text v = s.text v) {params : Value} (h : P params) :
    parameters t params = parameters s params := by
  have hnames {e : Value} (he : P e) (seen : List String) :
      parameterNames t seen e = parameterNames s seen e := by
    induction e generalizing seen with
    | pair v rest _ ih =>
      obtain ⟨hv, hrest⟩ := hP he
      have hv := htext v hv
      cases v <;> simp only [parameterNames, ih hrest, hv]
    | _ => simp only [parameterNames, htext _ he]
  cases params <;> simp only [parameters, hnames h, htext _ h]

theorem parameters_local {s t : Store} (h : s.Akin t) (params : Value) :
    parameters s params = parameters t params :=
  parameters_congr (P := fun _ => True) (fun _ => ⟨trivial, trivial⟩) (fun v _ => congrFun h.text v)
    trivial

/-- Binding lists are read alike where they have the same text. -/
theorem boundNames_congr {s t : Store} {form : SpecialForm} {bindings : Value}
    (h : t.text bindings = s.text bindings) :
    boundNames t form bindings = boundNames s form bindings := by
  have hnames (e : Value) (seen : List String) :
      bindingNames t form bindings seen e = bindingNames s form bindings seen e := by
    induction e generalizing seen with
    | pair v rest _ ih =>
      unfold bindingNames
      split
      · rfl
      · injection ‹_ = Value.pair _ _› with _ hrest
        simp only [← hrest, ih]
      · rw [h]
    | _ => simp only [bindingNames, h]
  exact hnames bindings []

theorem boundNames_local {s t : Store} (h : s.Akin t) (form : SpecialForm) (bindings : Value) :
    boundNames s form bindings = boundNames t form bindings :=
  boundNames_congr (congrFun h.text bindings)

end Form

/-- An action that changes nothing and reads only what akin stores share. -/
structure Action.Reads {α : Type} (a : Action α) : Prop where
  store : ∀ s, (a s).2 = s
  akin : ∀ s t, s.Akin t → (a s).1 = (a t).1

namespace Action.Reads

theorem fail {α : Type} (e : Error) : (Action.fail e : Action α).Reads :=
  ⟨fun _ => rfl, fun _ _ _ => rfl⟩

theorem ofExcept {α : Type} (x : Except Error α) : (Action.ofExcept x).Reads := by
  cases x with
  | error e => exact fail e
  | ok v => exact ⟨fun _ => rfl, fun _ _ _ => rfl⟩

theorem get_bind {α : Type} {f : Store → Action α} (hf : ∀ s, (f s).Reads)
    (hakin : ∀ s t, s.Akin t → f s = f t) : (get >>= f).Reads where
  store s := (hf s).store s
  akin s t h := by
    change (f s s).1 = (f t t).1
    rw [hakin s t h]
    exact (hf t).akin s t h

/-- An error that shows the text of a value. -/
theorem fail_text {α : Type} (v : Value) (e : String → Error) :
    (do Action.fail (e (← Action.text v)) : Action α).Reads :=
  get_bind (fun _ => fail _) fun s t h => by rw [h.text]

theorem parameters (params : Value) :
    (do Action.ofExcept (Form.parameters (← get) params) : Action (List String)).Reads :=
  get_bind (fun _ => ofExcept _) fun s t h => by rw [Form.parameters_local h]

theorem boundNames (form : SpecialForm) (bindings : Value) :
    (do Action.ofExcept (Form.boundNames (← get) form bindings) : Action (List String)).Reads :=
  get_bind (fun _ => ofExcept _) fun s t h => by rw [Form.boundNames_local h]

end Action.Reads

/-- A closure is made of names that are read first. -/
theorem Action.makeClosure_eq (scope : FrameId) (params body : Value) :
    makeClosure scope params body = (do
      let names ← (do ofExcept (Form.parameters (← get) params) : Action (List String))
      return .closure (← change fun s => s.pushClosure ⟨names, body, scope, none⟩)) := rfl

namespace Arithmetic

theorem operands_local (op : Primitive) {s t : Store} (h : s.Akin t) :
    operands op s = operands op t := by
  have hi : integerAmong op s = integerAmong op t := by
    funext v
    cases v <;> simp only [integerAmong, h.shown]
  have hf : floatAmong op s = floatAmong op t := by
    funext v
    cases v <;> simp only [floatAmong, h.shown]
  funext args
  rcases args with _ | ⟨v, args⟩
  · rfl
  · cases v <;> simp only [operands, hi, hf, h.shown]

theorem expectInteger_local (op : Primitive) {s t : Store} (h : s.Akin t) :
    expectInteger op s = expectInteger op t := by
  funext v
  cases v <;> simp only [expectInteger, h.shown]

end Arithmetic

theorem Comparison.related_local (relation : Relation) {s t : Store} (h : s.Akin t) :
    related relation s = related relation t := by
  have ho : order relation s = order relation t := by
    funext a b
    cases a <;> cases b <;> simp only [order, h.shown]
  funext args
  fun_induction related relation t args with
  | case1 a b rest ih => simp only [related, ho, ih]
  | case2 args hargs => exact related.eq_2 relation s args hargs

theorem Observer.onOne_local {f : Store → Value → Except Error Value}
    (h : ∀ s t, s.Akin t → f s = f t) : (Observer.onOne f).Local := by
  intro s t hst
  funext args
  simp only [Observer.onOne, h s t hst]

theorem Store.head_local {s t : Store} (h : s.Akin t) : s.head = t.head := by
  funext v
  cases v <;> simp only [Store.head, h.shown]

theorem Store.tail_local {s t : Store} (h : s.Akin t) : s.tail = t.tail := by
  funext v
  cases v <;> simp only [Store.tail, h.shown]

namespace Console

open Action

theorem takeLine_store (s : Store) :
    (takeLine s).2 = { s with input := (splitLine s.input).2 } := by
  rcases hsplit : splitLine s.input with ⟨line, rest⟩
  have hget : (get : Action Store) s = (.ok s, s) := rfl
  have hset : (modify fun s => { s with input := rest } : Action Unit) s =
      (.ok (), { s with input := rest }) := rfl
  unfold takeLine
  rw [Action.bind_ok hget, hsplit]
  dsimp only
  rw [Action.bind_ok hset]
  split
  · rfl
  · cases decode? line <;> rfl

theorem readLine_basic (args : List Value) : Basic (readLine args) := by
  unfold readLine
  split
  · exact .fail _
  · refine .bind .takeLine fun line => ?_
    cases line <;> exact .pure _

theorem readIntegers_basic (args : List Value) : Basic (readIntegers args) := by
  unfold readIntegers
  split
  · exact .fail _
  · refine .bind .takeLine fun line => ?_
    cases line with
    | none => exact .pure _
    | some line => exact .bind (.ofExcept _) fun _ => .pure _

theorem print_basic (args : List Value) : Basic (print args) :=
  .bind (.print fun s t h => by rw [h.bareText]) fun _ => .pure _

theorem exit_local : Observer.Local exit := by
  intro s t h
  funext args
  simp only [exit, Arithmetic.expectInteger_local _ h]

end Console

namespace Vector

open Action

theorem pushVector_basic {f : Store → Array Value} (hf : ∀ s t, s.Akin t → f s = f t) :
    Basic (do return .vector (← change fun s => s.pushVector (f s)) : Action Value) :=
  .bind (.pushVector hf) fun _ => .pure _

theorem make_basic (args : List Value) : Basic (make args) := by
  unfold make
  split
  · refine .get (fun s => .bind (.ofExcept _) fun n => ?_) fun s t h => ?_
    · split
      · exact pushVector_basic fun _ _ _ => rfl
      · exact .fail _
    · rw [Arithmetic.expectInteger_local _ h]
  · exact .fail _

theorem elements_basic (v : Value) : Basic (elements v) := by
  unfold elements
  split
  · exact .pure _
  · exact .bind (.text _) fun _ => .fail _

theorem copy_basic (args : List Value) : Basic (copy args) := by
  unfold copy
  split
  · exact pushVector_basic fun s t h => congrFun h.items _
  · exact .bind (elements_basic _) fun _ => pushVector_basic fun _ _ _ => rfl
  · exact .fail _

theorem locate_basic (v index : Value) : Basic (locate v index) := by
  unfold locate
  split
  · refine .get (fun s => .bind (.ofExcept _) fun n => ?_) fun s t h => ?_
    · refine .get (fun s => ?_) fun s t h => by rw [h.items]
      dsimp only
      split
      · split
        · exact .pure _
        · exact .fail _
      · exact .fail _
    · rw [Arithmetic.expectInteger_local _ h]
  · exact .get (fun _ => .fail _) fun s t h => by rw [h.shown]

theorem slot_basic (args : List Value) : Basic (slot args) := by
  unfold slot
  split
  · refine .bind (locate_basic _ _) fun place => ?_
    exact .get (fun _ => .pure _) fun s t h => by rw [h.items]
  · exact .bind (locate_basic _ _) fun place => .bind (.setItem _ _ _) fun _ => .pure _
  · exact .fail _

end Vector

/-- Every primitive is made of basic steps. -/
theorem Primitive.run_basic (p : Primitive) (args : List Value) : Action.Basic (p.run args) := by
  cases p with
  | add =>
    exact Action.Basic.observe (fun s t h => by
      funext args; simp only [Arithmetic.add, Arithmetic.operands_local _ h]) args
  | subtract =>
    exact Action.Basic.observe (fun s t h => by
      funext args; simp only [Arithmetic.subtract, Arithmetic.operands_local _ h]) args
  | multiply =>
    exact Action.Basic.observe (fun s t h => by
      funext args; simp only [Arithmetic.multiply, Arithmetic.operands_local _ h]) args
  | divide =>
    exact Action.Basic.observe (fun s t h => by
      funext args; simp only [Arithmetic.divide, Arithmetic.operands_local _ h]) args
  | remainder =>
    exact Action.Basic.observe (fun s t h => by
      funext args; simp only [Arithmetic.remainder, Arithmetic.expectInteger_local _ h]) args
  | compare relation =>
    exact Action.Basic.observe (fun s t h => by
      funext args; simp only [Comparison.compare, Comparison.related_local _ h]) args
  | identity => exact Action.Basic.observe (Observer.onOne_local fun _ _ _ => rfl) args
  | head => exact Action.Basic.observe (Observer.onOne_local fun _ _ h => Store.head_local h) args
  | tail => exact Action.Basic.observe (Observer.onOne_local fun _ _ h => Store.tail_local h) args
  | cons => exact Action.Basic.observe (fun _ _ _ => rfl) args
  | list => exact Action.Basic.observe (fun _ _ _ => rfl) args
  | isNull => exact Action.Basic.observe (Observer.onOne_local fun _ _ _ => rfl) args
  | toInteger =>
    exact Action.Basic.observe (Observer.onOne_local fun s t h => by
      funext v; cases v <;> simp only [h.shown]) args
  | toText =>
    exact Action.Basic.observe (fun s t h => by
      funext args; simp only [Strings.toText, h.bareText]) args
  | characters =>
    exact Action.Basic.observe (Observer.onOne_local fun s t h => by
      funext v; cases v <;> simp only [h.shown]) args
  | readLine => exact Console.readLine_basic args
  | readIntegers => exact Console.readIntegers_basic args
  | print => exact Console.print_basic args
  | exit => exact Action.Basic.observe Console.exit_local args
  | makeVector => exact Vector.make_basic args
  | copyVector => exact Vector.copy_basic args
  | vectorSlot => exact Vector.slot_basic args

/-- An action that treats alike stores alike and leaves frames and closures as they are. -/
def Action.Local {α : Type} (a : Action α) : Prop :=
  ∀ s t, s.Alike t → (a s).1 = (a t).1 ∧ (a s).2.Alike (a t).2 ∧
    (a s).2.frames = s.frames ∧ (a s).2.closures = s.closures

namespace Action.Local

variable {α β : Type}

theorem pure (v : α) : Local (pure v : Action α) := fun _ _ h => ⟨rfl, h, rfl, rfl⟩

theorem fail (e : Error) : Local (Action.fail e : Action α) := fun _ _ h => ⟨rfl, h, rfl, rfl⟩

theorem bind {a : Action α} {f : α → Action β} (ha : a.Local) (hf : ∀ v, (f v).Local) :
    (a >>= f).Local := by
  intro s t h
  obtain ⟨hr, h', hframes, hclosures⟩ := ha s t h
  rcases hs : a s with ⟨_ | v, s'⟩ <;> rcases ht : a t with ⟨_ | w, t'⟩ <;>
    simp only [hs, ht, reduceCtorEq, Except.ok.injEq, Except.error.injEq] at hr h' hframes hclosures
  · rw [bind_error hs, bind_error ht, hr]
    exact ⟨rfl, h', hframes, hclosures⟩
  · rw [bind_ok hs, bind_ok ht, hr]
    obtain ⟨hr', h'', hframes', hclosures'⟩ := hf w s' t' h'
    exact ⟨hr', h'', hframes'.trans hframes, hclosures'.trans hclosures⟩

/-- Reading the store is harmless if what follows reads only what alike stores share. -/
theorem get_bind {f : Store → Action α} (hf : ∀ s, (f s).Local)
    (hs : ∀ s t, s.Alike t → f s = f t) : (get >>= f).Local := by
  intro s t h
  change (f s s).1 = (f t t).1 ∧ (f s s).2.Alike (f t t).2 ∧ _
  rw [← hs s t h]
  exact hf s s t h

theorem modify {f : Store → Store}
    (h : ∀ s t, s.Alike t → (f s).Alike (f t) ∧ (f s).frames = s.frames ∧
      (f s).closures = s.closures) : Local (modify f : Action Unit) :=
  fun s t hst => ⟨rfl, h s t hst⟩

theorem takeLine : Console.takeLine.Local := by
  refine get_bind (fun s => ?_) fun s t h => by rw [h.input]
  refine bind (modify fun _ _ h => ⟨⟨⟨h.vectors, h.names⟩, rfl, h.output⟩, rfl, rfl⟩) fun _ => ?_
  split
  · exact pure _
  · split
    · exact pure _
    · exact fail _

theorem of_basic {a : Action α} (h : Basic a) : a.Local := by
  induction h with
  | pure v => exact pure v
  | fail e => exact fail e
  | bind _ _ iha ihf => exact bind iha ihf
  | get _ hakin ihf => exact get_bind ihf fun s t h => hakin s t h.toAkin
  | pushVector hakin =>
    intro s t h
    have hitems := hakin s t h.toAkin
    refine ⟨congrArg Except.ok ?_, ⟨⟨?_, h.names⟩, h.input, h.output⟩, rfl, rfl⟩
    · simp only [h.vectors]
    · simp only [Action.change, Store.pushVector, h.vectors, hitems]
  | setItem id slot value =>
    exact modify fun s t h =>
      ⟨⟨⟨by simp only [Store.setItem, h.vectors], h.names⟩, h.input, h.output⟩, rfl, rfl⟩
  | takeLine => exact takeLine
  | print hakin =>
    refine modify fun s t h => ⟨⟨⟨h.vectors, h.names⟩, h.input, ?_⟩, rfl, rfl⟩
    simp only [h.output, hakin s t h.toAkin]

end Action.Local

/-- No primitive reads or changes a frame. -/
theorem Primitive.run_local (p : Primitive) (args : List Value) : (p.run args).Local :=
  .of_basic (p.run_basic args)

end Lisplet
