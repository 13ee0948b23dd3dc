import Lisplet.Proofs.Budget

/-! Actions that run in parallel where closures are renamed: they end alike, unless the second is
stopped because of too many calls. Primitives run in parallel with themselves. -/
namespace Lisplet

/-- Two ends that are alike: results of which `P` holds, or the same error. -/
def EndAlike {α : Type} (P : α → α → Prop) : Except Stop α → Except Stop α → Prop
  | .ok v, .ok w => P v w
  | .error stop, .error stop' => stop' = stop
  | _, _ => False

/-- From stores of which `inv` holds, two actions end alike and in such stores, unless the second is
stopped because of too many calls. -/
def Action.Parallel (inv : Store → Store → Prop) {α : Type} (P : α → α → Prop)
    (a b : Action α) : Prop :=
  ∀ s t, inv s t → TooDeep (b t).1 ∨ EndAlike P (a s).1 (b t).1 ∧ inv (a s).2 (b t).2

namespace Action.Parallel

variable {inv : Store → Store → Prop} {α β : Type} {P : α → α → Prop} {Q : β → β → Prop}
  {a b : Action α}

/-- The second of two actions is stopped, or both end with the same error, or with results. -/
theorem cases (h : Parallel inv P a b) {s t : Store} (hst : inv s t) :
    TooDeep (b t).1 ∨
    (∃ stop s' t', a s = (.error stop, s') ∧ b t = (.error stop, t') ∧ inv s' t') ∨
    ∃ v w s' t', a s = (.ok v, s') ∧ b t = (.ok w, t') ∧ P v w ∧ inv s' t' := by
  rcases h s t hst with hdeep | ⟨hend, hst'⟩
  · exact .inl hdeep
  · rcases ha : a s with ⟨stop | v, s'⟩ <;> rcases hb : b t with ⟨stop' | w, t'⟩ <;>
      rw [ha, hb] at hend hst'
    · obtain rfl : stop' = stop := hend
      exact .inr (.inl ⟨stop', s', t', rfl, rfl, hst'⟩)
    · exact hend.elim
    · exact hend.elim
    · exact .inr (.inr ⟨v, w, s', t', rfl, rfl, hend, hst'⟩)

/-- What is known of the results of the first action may be kept in mind. -/
theorem and_left (h : Parallel inv P a b) {Q : α → Prop} (ha : ∀ s v, (a s).1 = .ok v → Q v) :
    Parallel inv (fun v w => P v w ∧ Q v) a b := by
  intro s t hst
  rcases h.cases hst with hdeep | ⟨stop, s', t', hs, ht, hst'⟩ | ⟨v, w, s', t', hs, ht, hvw, hst'⟩
  · exact .inl hdeep
  · rw [hs, ht]
    exact .inr ⟨rfl, hst'⟩
  · have hv := ha s v (by rw [hs])
    rw [hs, ht]
    exact .inr ⟨⟨hvw, hv⟩, hst'⟩

theorem pure {v w : α} (h : P v w) : Parallel inv P (pure v) (pure w) :=
  fun _ _ hst => .inr ⟨h, hst⟩

theorem stop (stop : Stop) : Parallel inv P (throw stop) (throw stop) :=
  fun _ _ hst => .inr ⟨rfl, hst⟩

theorem fail (e : Error) : Parallel inv P (Action.fail e) (Action.fail e) := stop (.failed e)

theorem spent : Parallel inv P a (Action.evalFault .depthExceeded) :=
  fun _ _ _ => .inl ⟨_, rfl, rfl⟩

theorem bind {f g : α → Action β} (hab : Parallel inv P a b)
    (hfg : ∀ v w, P v w → Parallel inv Q (f v) (g w)) : Parallel inv Q (a >>= f) (b >>= g) := by
  intro s t hst
  rcases hab.cases hst with ⟨stop, hstop, hdeep⟩ | ⟨stop, s', t', ha, hb, hst'⟩ |
    ⟨v, w, s', t', ha, hb, hvw, hst'⟩
  · have hb : b t = (.error stop, (b t).2) := Prod.ext hstop rfl
    exact .inl ⟨stop, by rw [bind_error hb], hdeep⟩
  · rw [bind_error ha, bind_error hb]
    exact .inr ⟨rfl, hst'⟩
  · rw [bind_ok ha, bind_ok hb]
    exact hfg v w hvw s' t' hst'

theorem get_bind {f g : Store → Action α}
    (h : ∀ s t, inv s t → Parallel inv P (f s) (g t)) : Parallel inv P (get >>= f) (get >>= g) := by
  intro s t hst
  have hs : (get : Action Store) s = (.ok s, s) := rfl
  have ht : (get : Action Store) t = (.ok t, t) := rfl
  rw [bind_ok hs, bind_ok ht]
  exact h s t hst s t hst

/-- What reads the store has to find what is related. -/
theorem read {f g : Store → α} (h : ∀ s t, inv s t → P (f s) (g t)) :
    Parallel inv P (return f (← get)) (return g (← get)) :=
  get_bind fun s t hst => pure (h s t hst)

theorem ofExcept {x y : Except Error α}
    (h : (∃ e, x = .error e ∧ y = .error e) ∨ ∃ v w, x = .ok v ∧ y = .ok w ∧ P v w) :
    Parallel inv P (Action.ofExcept x) (Action.ofExcept y) := by
  rcases h with ⟨e, rfl, rfl⟩ | ⟨v, w, rfl, rfl, hvw⟩
  · exact fail e
  · exact pure hvw

theorem change {f g : Store → α × Store}
    (h : ∀ s t, inv s t → P (f s).1 (g t).1 ∧ inv (f s).2 (g t).2) :
    Parallel inv P (Action.change f) (Action.change g) :=
  fun s t hst => .inr (h s t hst)

theorem modify {f g : Store → Store} (h : ∀ s t, inv s t → inv (f s) (g t)) :
    Parallel inv (fun _ _ => True) (modify f) (modify g) :=
  fun s t hst => .inr ⟨trivial, h s t hst⟩

theorem within {e : Value} (htext : ∀ s t, inv s t → t.text e = s.text e)
    (hab : Parallel inv P a b) :
    Parallel inv P (Action.within e a) (Action.within e b) := by
  intro s t hst
  rcases hab.cases hst with ⟨stop, hstop, hdeep⟩ | ⟨stop, s', t', ha, hb, hst'⟩ |
    ⟨v, w, s', t', ha, hb, hvw, hst'⟩
  · have hb : b t = (.error stop, (b t).2) := Prod.ext hstop rfl
    exact .inl ⟨_, by rw [within_error hb], Stop.isTooDeep_within hdeep _⟩
  · rw [within_error ha, within_error hb, htext s' t' hst']
    exact .inr ⟨rfl, hst'⟩
  · rw [within_ok ha, within_ok hb]
    exact .inr ⟨hvw, hst'⟩

theorem fail_text {v w : Value} (e : String → Error)
    (htext : ∀ s t, inv s t → t.text w = s.text v) :
    Parallel inv P (do Action.fail (e (← Action.text v)))
      (do Action.fail (e (← Action.text w))) := by
  refine bind (P := fun x y => y = x) (read htext) fun text text' h => ?_
  rw [h]
  exact fail _

end Action.Parallel

variable {ρ : ClosureId → ClosureId}

/-- An observer that takes no notice of the identities of closures answers in parallel. -/
theorem Observer.Natural.observe {f : Observer} (hf : f.Natural) (hρ : Function.Injective ρ)
    {inv : Store → Store → Prop} (hinv : ∀ s t, inv s t → s.Renamed ρ t) (args : List Value) :
    Action.Parallel inv (fun v w => w = v.rename ρ) (Action.observe f args)
      (Action.observe f (args.map (Value.rename ρ))) := by
  refine .get_bind fun s t hst => .ofExcept ?_
  rw [hf ρ hρ s t (hinv s t hst)]
  cases f s args with
  | error e => exact .inl ⟨e, rfl, rfl⟩
  | ok v => exact .inr ⟨v, _, rfl, rfl, rfl⟩

namespace Store.Renamed

variable {s t : Store} (h : s.Renamed ρ t)

include h

theorem pushVector {items items' : Array Value} (hitems : items' = items.map (Value.rename ρ)) :
    (t.pushVector items').1 = (s.pushVector items).1 ∧
      (s.pushVector items).2.Renamed ρ (t.pushVector items').2 := by
  subst hitems
  refine ⟨?_, h.frames, h.closures, ?_, h.input, h.output⟩
  · simp [Store.pushVector, h.vectors]
  · simp [Store.pushVector, h.vectors]

theorem setItem (id : VectorId) (slot : Nat) (value : Value) :
    (s.setItem id slot value).Renamed ρ (t.setItem id slot (value.rename ρ)) := by
  refine ⟨h.frames, h.closures, ?_, h.input, h.output⟩
  refine Array.ext_getElem? fun i => ?_
  simp only [Store.setItem, h.vectors, Array.getElem?_map, Array.getElem?_modify]
  split
  · cases s.vectors[i]? <;> simp [Array.map_setIfInBounds]
  · rfl

end Store.Renamed

namespace Console

open Action

theorem takeLine_parallel :
    Parallel (Store.Renamed ρ) (fun line line' => line' = line) takeLine takeLine := by
  refine .get_bind fun s t hst => ?_
  rw [hst.input]
  refine .bind (.modify fun s t hst => ⟨hst.frames, hst.closures, hst.vectors, rfl, hst.output⟩)
    fun _ _ _ => ?_
  split
  · exact .pure rfl
  · split
    · exact .pure rfl
    · exact .fail _

theorem readLine_parallel (args : List Value) :
    Parallel (Store.Renamed ρ) (fun v w => w = v.rename ρ) (readLine args)
      (readLine (args.map (Value.rename ρ))) := by
  unfold readLine
  rw [List.length_map]
  split
  · exact .fail _
  · refine .bind takeLine_parallel fun line line' hline => ?_
    subst hline
    cases line' <;> exact .pure rfl

theorem readIntegers_parallel (args : List Value) :
    Parallel (Store.Renamed ρ) (fun v w => w = v.rename ρ) (readIntegers args)
      (readIntegers (args.map (Value.rename ρ))) := by
  unfold readIntegers
  rw [List.length_map]
  split
  · exact .fail _
  · refine .bind takeLine_parallel fun line line' hline => ?_
    subst hline
    cases line' with
    | none => exact .pure rfl
    | some line =>
      dsimp only
      cases hwords : (Text.words line).mapM integerWord with
      | error e => exact .fail e
      | ok vs =>
        refine .pure ?_
        have hfixed := (Value.fixed_kind ρ).ofList.mpr
          (Answers.mapM (integerWord_answers (Value.fixed_kind ρ)) hwords)
        exact hfixed.symm

theorem print_parallel (args : List Value) :
    Parallel (Store.Renamed ρ) (fun v w => w = v.rename ρ) (print args)
      (print (args.map (Value.rename ρ))) := by
  refine .bind (.modify fun s t hst => ?_) fun _ _ _ => .pure rfl
  refine ⟨hst.frames, hst.closures, hst.vectors, hst.input, ?_⟩
  have htexts : t.bareText ∘ Value.rename ρ = s.bareText := funext hst.bareText
  rw [List.map_map, htexts, hst.output]

end Console

namespace Vector

open Action

theorem pushVector_parallel {f g : Store → Array Value}
    (h : ∀ s t, s.Renamed ρ t → g t = (f s).map (Value.rename ρ)) :
    Parallel (Store.Renamed ρ) (fun v w => w = v.rename ρ)
      (do return .vector (← change fun s => s.pushVector (f s)) : Action Value)
      (do return .vector (← change fun s => s.pushVector (g s)) : Action Value) := by
  have hpush : Parallel (Store.Renamed ρ) (fun id id' => id' = id)
      (change fun s => s.pushVector (f s)) (change fun s => s.pushVector (g s)) :=
    .change fun s t hst => hst.pushVector (h s t hst)
  refine hpush.bind fun id id' hid => ?_
  subst hid
  exact .pure rfl

/-- What follows an operand that has to be an integer. -/
theorem bind_expectInteger {α : Type} {P : α → α → Prop} (op : Primitive) (v : Value)
    {f g : Int64 → Action α} (h : ∀ n, Parallel (Store.Renamed ρ) P (f n) (g n)) :
    Parallel (Store.Renamed ρ) P (do f (← ofExcept (Arithmetic.expectInteger op (← get) v)))
      (do g (← ofExcept (Arithmetic.expectInteger op (← get) (v.rename ρ)))) := by
  refine .get_bind fun s t hst => ?_
  rw [Arithmetic.expectInteger_rename hst]
  cases Arithmetic.expectInteger op s v with
  | error e => exact .fail e
  | ok n => exact h n

theorem make_parallel (args : List Value) :
    Parallel (Store.Renamed ρ) (fun v w => w = v.rename ρ) (make args)
      (make (args.map (Value.rename ρ))) := by
  match args with
  | [] => exact .fail _
  | [v] =>
    refine bind_expectInteger .makeVector v fun n => ?_
    split
    · exact pushVector_parallel fun s t _ => by simp [Value.rename]
    · exact .fail _
  | u :: v :: rest =>
    have hmany (u v : Value) (rest : List Value) :
        make (u :: v :: rest) = arityFault (.exact 1) (rest.length + 2) := rfl
    rw [List.map_cons, List.map_cons, hmany, hmany, List.length_map]
    exact .fail _

theorem elements_parallel (v : Value) :
    Parallel (Store.Renamed ρ) (fun vs ws => ws = vs.map (Value.rename ρ)) (elements v)
      (elements (v.rename ρ)) := by
  unfold elements
  rw [Value.toList?_rename]
  cases v.toList? with
  | none =>
    refine .fail_text _ fun s t hst => ?_
    rw [Value.ending_rename, hst.text]
  | some items => exact .pure rfl

theorem copy_parallel (args : List Value) :
    Parallel (Store.Renamed ρ) (fun v w => w = v.rename ρ) (copy args)
      (copy (args.map (Value.rename ρ))) := by
  have hlist (v : Value) :
      Parallel (Store.Renamed ρ) (fun v w => w = v.rename ρ)
        (do let items ← elements v
            return .vector (← change fun s => s.pushVector items.toArray) : Action Value)
        (do let items ← elements (v.rename ρ)
            return .vector (← change fun s => s.pushVector items.toArray) : Action Value) := by
    refine .bind (elements_parallel v) fun items items' hitems => ?_
    subst hitems
    exact pushVector_parallel fun s t _ => by simp
  match args with
  | [] => exact .fail _
  | [v] =>
    cases v with
    | vector id => exact pushVector_parallel fun s t hst => hst.items id
    | _ => exact hlist _
  | u :: v :: rest =>
    have hmany (u v : Value) (rest : List Value) :
        copy (u :: v :: rest) = arityFault (.exact 1) (rest.length + 2) := by
      unfold copy
      cases u <;> rfl
    rw [List.map_cons, List.map_cons, hmany, hmany, List.length_map]
    exact .fail _

theorem locate_parallel (v index : Value) :
    Parallel (Store.Renamed ρ) (fun place place' => place' = place) (locate v index)
      (locate (v.rename ρ) (index.rename ρ)) := by
  have hother (w : Value) :
      Parallel (Store.Renamed ρ) (fun place place' : VectorId × Nat => place' = place)
        (do typeFault (.vectorExpected .vectorSlot ((← get).shown w)))
        (do typeFault (.vectorExpected .vectorSlot ((← get).shown (w.rename ρ)))) := by
    refine .get_bind fun s t hst => ?_
    rw [hst.shown]
    exact .fail _
  cases v with
  | vector id =>
    refine bind_expectInteger .vectorSlot index fun n => .get_bind fun s t hst => ?_
    rw [hst.items, Array.size_map]
    dsimp only
    split
    · split
      · exact .pure rfl
      · exact .fail _
    · exact .fail _
  | _ => exact hother _

theorem slot_parallel (args : List Value) :
    Parallel (Store.Renamed ρ) (fun v w => w = v.rename ρ) (slot args)
      (slot (args.map (Value.rename ρ))) := by
  match args with
  | [] => exact .fail _
  | [_] => exact .fail _
  | [v, index] =>
    refine .bind (locate_parallel v index) fun place place' hplace => ?_
    subst hplace
    refine .read fun s t hst => ?_
    rw [hst.items, Array.getD_eq_getD_getElem?, Array.getD_eq_getD_getElem?, Array.getElem?_map]
    cases (s.items place'.1)[place'.2]? <;> rfl
  | [v, index, value] =>
    refine .bind (locate_parallel v index) fun place place' hplace => ?_
    subst hplace
    exact .bind (.modify fun s t hst => hst.setItem _ _ _) fun _ _ _ => .pure rfl
  | u :: v :: w :: x :: rest =>
    have hmany (u v w x : Value) (rest : List Value) :
        slot (u :: v :: w :: x :: rest) = arityFault (.range 2 3) (rest.length + 4) := rfl
    rw [List.map_cons, List.map_cons, List.map_cons, List.map_cons, hmany, hmany, List.length_map]
    exact .fail _

end Vector

/-- Primitives run in parallel with themselves where closures are renamed. -/
theorem Primitive.run_parallel (hρ : Function.Injective ρ) (p : Primitive) (args : List Value) :
    Action.Parallel (Store.Renamed ρ) (fun v w => w = v.rename ρ) (p.run args)
      (p.run (args.map (Value.rename ρ))) := by
  have hobserve {f : Observer} (hf : f.Natural) :
      Action.Parallel (Store.Renamed ρ) (fun v w => w = v.rename ρ) (Action.observe f args)
        (Action.observe f (args.map (Value.rename ρ))) :=
    hf.observe hρ (fun _ _ hst => hst) args
  cases p with
  | add => exact hobserve Arithmetic.add_natural
  | subtract => exact hobserve Arithmetic.subtract_natural
  | multiply => exact hobserve Arithmetic.multiply_natural
  | divide => exact hobserve Arithmetic.divide_natural
  | remainder => exact hobserve Arithmetic.remainder_natural
  | compare relation => exact hobserve (Comparison.compare_natural relation)
  | identity => exact hobserve (Observer.onOne_natural fun _ _ _ _ _ => rfl)
  | head => exact hobserve Lists.head_natural
  | tail => exact hobserve Lists.tail_natural
  | cons => exact hobserve Lists.cons_natural
  | list => exact hobserve Lists.list_natural
  | isNull => exact hobserve Lists.isNull_natural
  | toInteger => exact hobserve Strings.toInteger_natural
  | toText => exact hobserve Strings.toText_natural
  | characters => exact hobserve Strings.characters_natural
  | readLine => exact Console.readLine_parallel args
  | readIntegers => exact Console.readIntegers_parallel args
  | print => exact Console.print_parallel args
  | exit => exact hobserve Console.exit_natural
  | makeVector => exact Vector.make_parallel args
  | copyVector => exact Vector.copy_parallel args
  | vectorSlot => exact Vector.slot_parallel args

end Lisplet
