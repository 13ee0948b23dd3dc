import Lisplet.Proofs.Keeping

/-! Kinds of values that primitives do not leave. Primitives make data of their own; apart from that
they only take values apart, put them together and keep them in vectors. -/
namespace Lisplet

/-- A kind of values that all data belong to, and pairs if their parts do. -/
structure Kind (P : Value → Prop) : Prop where
  integer : ∀ n, P (.integer n)
  float : ∀ x, P (.float x)
  string : ∀ t, P (.string t)
  boolean : ∀ b, P (.boolean b)
  nil : P .nil
  pair : ∀ {a b : Value}, P (.pair a b) ↔ P a ∧ P b

namespace Kind

variable {P : Value → Prop} (h : Kind P)

include h

theorem ofList {vs : List Value} : P (.ofList vs) ↔ ∀ v ∈ vs, P v := by
  induction vs with
  | nil => simp [h.nil]
  | cons v vs ih => rw [Value.ofList_cons, h.pair, ih, List.forall_mem_cons]

theorem heads {e : Value} (he : P e) : ∀ v ∈ e.heads, P v := by
  induction e with
  | pair head tail _ ih =>
    rw [h.pair] at he
    rw [Value.heads_pair, List.forall_mem_cons]
    exact ⟨he.1, ih he.2⟩
  | _ => exact fun v hv => absurd (show v ∈ [] from hv) List.not_mem_nil

end Kind

def Answers (P : Value → Prop) (x : Except Error Value) : Prop := ∀ v, x = .ok v → P v

namespace Answers

variable {P : Value → Prop}

theorem ok {v : Value} (h : P v) : Answers P (.ok v) := fun _ hv => Except.ok.inj hv ▸ h

theorem error (e : Error) : Answers P (.error e) := fun _ h => nomatch h

theorem bind {α : Type} {x : Except Error α} {f : α → Except Error Value}
    (h : ∀ a, Answers P (f a)) : Answers P (x >>= f) := by
  cases x with
  | error e => exact error e
  | ok a => exact h a

theorem map {α : Type} {x : Except Error α} {f : α → Value} (h : ∀ a, P (f a)) :
    Answers P (f <$> x) := by
  cases x with
  | error e => exact error e
  | ok a => exact ok (h a)

theorem onOne {f : Store → Value → Except Error Value} {s : Store} {args : List Value}
    (h : ∀ v ∈ args, Answers P (f s v)) : Answers P (Observer.onOne f s args) := by
  unfold Observer.onOne
  split
  · exact h _ List.mem_cons_self
  · exact error _

theorem mapM {α : Type} {f : α → Except Error Value} (hf : ∀ a, Answers P (f a)) {as : List α}
    {vs : List Value} (h : as.mapM f = .ok vs) : ∀ v ∈ vs, P v := by
  induction as generalizing vs with
  | nil =>
    cases h
    exact fun _ hv => absurd hv List.not_mem_nil
  | cons a as ih =>
    rw [List.mapM_cons] at h
    cases ha : f a with
    | error e => simp [ha, Bind.bind, Except.bind] at h
    | ok v =>
      cases has : as.mapM f with
      | error e => simp [ha, has, Bind.bind, Except.bind] at h
      | ok vs' =>
        simp only [ha, has, Bind.bind, Except.bind, pure, Except.pure, Except.ok.injEq] at h
        subst h
        exact List.forall_mem_cons.mpr ⟨hf a v ha, ih has⟩

end Answers

section

variable {P : Value → Prop} (h : Kind P)

include h

namespace Arithmetic

theorem add_answers (s : Store) (args : List Value) : Answers P (add s args) := by
  refine Answers.bind fun operands => ?_
  cases operands with
  | integers ns => exact Answers.bind fun n => .ok (h.integer n)
  | floats xs => exact .ok (h.float _)

theorem subtract_answers (s : Store) (args : List Value) : Answers P (subtract s args) := by
  refine Answers.bind fun operands => ?_
  split
  · exact .error _
  · exact .error _
  · exact Answers.map h.integer
  · exact Answers.bind fun n => .ok (h.integer n)
  · exact .ok (h.float _)
  · exact .ok (h.float _)

theorem multiply_answers (s : Store) (args : List Value) : Answers P (multiply s args) := by
  refine Answers.bind fun operands => ?_
  split
  · exact .error _
  · exact .error _
  · exact Answers.bind fun n => .ok (h.integer n)
  · exact .ok (h.float _)

theorem divide_answers (s : Store) (args : List Value) : Answers P (divide s args) := by
  refine Answers.bind fun operands => ?_
  split
  · exact .error _
  · exact .error _
  · exact Answers.map h.integer
  · exact .ok (h.float _)

theorem remainder_answers (s : Store) (args : List Value) : Answers P (remainder s args) := by
  refine Answers.bind fun ns => ?_
  cases ns with
  | nil => exact .error _
  | cons n ns => exact Answers.map h.integer

end Arithmetic

theorem Comparison.compare_answers (relation : Relation) (s : Store) (args : List Value) :
    Answers P (compare relation s args) := by
  unfold compare
  split
  · exact .error _
  · exact Answers.map h.boolean

namespace Lists

variable {s : Store} {args : List Value} (hargs : ∀ v ∈ args, P v)

include hargs

theorem head_answers : Answers P (head s args) := by
  refine Answers.onOne fun v hv => ?_
  have hv := hargs v hv
  cases v with
  | pair a b => exact .ok (h.pair.mp hv).1
  | _ => exact .error _

theorem tail_answers : Answers P (tail s args) := by
  refine Answers.onOne fun v hv => ?_
  have hv := hargs v hv
  cases v with
  | pair a b => exact .ok (h.pair.mp hv).2
  | _ => exact .error _

theorem cons_answers : Answers P (cons s args) := by
  unfold cons
  split
  · refine .ok (h.pair.mpr ⟨hargs _ ?_, hargs _ ?_⟩) <;> simp
  · exact .error _

end Lists

namespace Strings

theorem toInteger_answers (s : Store) (args : List Value) : Answers P (toInteger s args) := by
  refine Answers.onOne fun v _ => ?_
  cases v with
  | integer n => exact .ok (h.integer n)
  | string t =>
    dsimp only
    split
    · exact .ok (h.integer _)
    · exact .error _
  | _ => exact .error _

theorem characters_answers (s : Store) (args : List Value) : Answers P (characters s args) := by
  refine Answers.onOne fun v _ => ?_
  cases v with
  | string t =>
    refine .ok (h.ofList.mpr fun v hv => ?_)
    obtain ⟨c, -, rfl⟩ := List.mem_map.mp hv
    exact h.string _
  | _ => exact .error _

end Strings

theorem Console.integerWord_answers (word : List Char) : Answers P (integerWord word) := by
  unfold integerWord
  split
  · exact .ok (h.integer _)
  · exact .error _

end

theorem Console.exit_answers (P : Value → Prop) (s : Store) (args : List Value) :
    Answers P (exit s args) := by
  unfold exit
  split
  · exact .error _
  · refine Answers.bind fun n => ?_
    split
    · exact .error _
    · exact .error _
  · exact .error _

namespace Store

/-- The vectors of the kind `P` hold values of that kind, and new vectors will be of it. -/
structure Filled (P : Value → Prop) (s : Store) : Prop where
  items : ∀ id, P (.vector id) → ∀ v ∈ s.items id, P v
  fresh : ∀ index, s.vectors.size ≤ index → P (.vector ⟨index⟩)

namespace Filled

variable {P : Value → Prop} {s : Store} (hs : s.Filled P)

include hs

theorem pushVector {xs : Array Value} (hxs : ∀ v ∈ xs, P v) : (s.pushVector xs).2.Filled P where
  items id hid v hv := by
    by_cases hnew : id.index = s.vectors.size
    · refine hxs v ?_
      simpa [Store.items, Store.pushVector, hnew] using hv
    · refine hs.items id hid v ?_
      simpa [Store.items, Store.pushVector, Array.getElem?_push, hnew] using hv
  fresh index hindex := by
    have hsize : s.vectors.size + 1 ≤ index := by simpa [Store.pushVector] using hindex
    exact hs.fresh index (Nat.le_of_succ_le hsize)

theorem setItem (id : VectorId) (slot : Nat) {value : Value} (hvalue : P value) :
    (s.setItem id slot value).Filled P where
  items id' hid' v hv := by
    have hold := hs.items id' hid'
    simp only [Store.items, Store.setItem, Array.getElem?_modify] at hv hold
    by_cases hid : id.index = id'.index
    · cases hxs : s.vectors[id'.index]? with
      | none => simp [hxs, hid] at hv
      | some xs =>
        simp only [hxs, hid, if_true, Option.map_some] at hv hold
        rcases Array.mem_or_eq_of_mem_setIfInBounds hv with hv | rfl
        · exact hold v hv
        · exact hvalue
    · exact hold v (by simpa [hid] using hv)
  fresh index hindex := hs.fresh index (by simpa [Store.setItem] using hindex)

end Filled

end Store

section

open Action

variable {P : Value → Prop} (h : Kind P)

namespace Console

theorem takeLine_filled : Holds (Store.Filled P) takeLine := by
  refine Keeps.get_bind fun s _ => ?_
  refine Keeps.andThen (Keeps.modify fun s hs => ⟨⟨⟩, le_rfl, ⟨hs.items, hs.fresh⟩, trivial⟩)
    fun _ _ _ => ?_
  split
  · exact Keeps.pure trivial
  · split
    · exact Keeps.pure trivial
    · exact Keeps.fail _ _

include h

theorem readLine_filled (args : List Value) : Holds (Store.Filled P) (readLine args) P := by
  unfold readLine
  split
  · exact Keeps.fail _ _
  · refine Keeps.bind takeLine_filled fun _ _ line _ => ?_
    cases line with
    | none => exact Keeps.pure h.nil
    | some line => exact Keeps.pure (h.string _)

theorem readIntegers_filled (args : List Value) :
    Holds (Store.Filled P) (readIntegers args) P := by
  unfold readIntegers
  split
  · exact Keeps.fail _ _
  · refine Keeps.bind takeLine_filled fun _ _ line _ => ?_
    cases line with
    | none => exact Keeps.pure h.nil
    | some line =>
      refine Keeps.ofExcept_bind fun vs hvs => Keeps.pure (h.ofList.mpr ?_)
      exact Answers.mapM (integerWord_answers h) hvs

theorem print_filled (args : List Value) : Holds (Store.Filled P) (print args) P :=
  Keeps.andThen (Keeps.modify fun _ hs => ⟨⟨⟩, le_rfl, ⟨hs.items, hs.fresh⟩, trivial⟩)
    fun _ _ _ => Keeps.pure h.nil

end Console

namespace Vector

theorem pushVector_filled {f : Store → Array Value}
    (hf : ∀ s : Store, s.Filled P → ∀ v ∈ f s, P v) :
    Holds (Store.Filled P) (do return Value.vector (← change fun s => s.pushVector (f s))) P := by
  have hpush : Holds (Store.Filled P) (change fun s => s.pushVector (f s))
      fun id => P (.vector id) :=
    Keeps.change fun s hs => ⟨⟨⟩, le_rfl, hs.pushVector (hf s hs), hs.fresh _ (Nat.le_refl _)⟩
  exact hpush.bind fun _ _ id hid => Keeps.pure hid

/-- The vector that a call names is the one it was given. -/
theorem locate_filled {v : Value} (hv : P v) (index : Value) :
    Holds (Store.Filled P) (locate v index) fun place => P (.vector place.1) := by
  unfold locate
  split
  · refine Keeps.get_bind fun s _ => Keeps.ofExcept_bind fun n _ => Keeps.get_bind fun s _ => ?_
    dsimp only
    split
    · split
      · exact Keeps.pure hv
      · exact Keeps.fail _ _
    · exact Keeps.fail _ _
  · exact Keeps.get_bind fun _ _ => Keeps.fail _ _

include h

theorem make_filled (args : List Value) : Holds (Store.Filled P) (make args) P := by
  unfold make
  split
  · refine Keeps.get_bind fun s _ => Keeps.ofExcept_bind fun n _ => ?_
    split
    · refine pushVector_filled fun s _ v hv => ?_
      rw [Array.eq_of_mem_replicate hv]
      exact h.nil
    · exact Keeps.fail _ _
  · exact Keeps.fail _ _

theorem elements_filled {v : Value} (hv : P v) :
    Holds (Store.Filled P) (elements v) (∀ x ∈ ·, P x) := by
  unfold elements Value.toList?
  split
  · rename_i items hitems
    split at hitems
    · cases hitems
      exact Keeps.pure (h.heads hv)
    · cases hitems
  · exact Keeps.text_bind fun _ => Keeps.fail _ _

variable {args : List Value} (hargs : ∀ v ∈ args, P v)

include hargs

theorem copy_filled : Holds (Store.Filled P) (copy args) P := by
  unfold copy
  split
  · exact pushVector_filled fun s hs v hv => hs.items _ (hargs _ List.mem_cons_self) v hv
  · refine Keeps.bind (elements_filled h (hargs _ List.mem_cons_self)) fun _ _ items hitems => ?_
    exact pushVector_filled fun _ _ v hv => hitems v (by simpa using hv)
  · exact Keeps.fail _ _

theorem slot_filled : Holds (Store.Filled P) (slot args) P := by
  unfold slot
  split
  · refine Keeps.bind (locate_filled (hargs _ List.mem_cons_self) _) fun _ _ place hplace => ?_
    refine Keeps.get_bind fun s hs => Keeps.pure ?_
    rw [Array.getD_eq_getD_getElem?]
    cases hslot : (s.items place.1)[place.2]? with
    | none => exact h.nil
    | some v => exact hs.items _ hplace v (Array.mem_of_getElem? hslot)
  · refine Keeps.bind (locate_filled (hargs _ List.mem_cons_self) _) fun _ _ place _ => ?_
    refine Keeps.andThen (Keeps.modify fun s hs => ⟨⟨⟩, le_rfl, ?_, trivial⟩)
      fun _ _ _ => Keeps.pure h.nil
    exact hs.setItem _ _ (hargs _ (by simp))
  · exact Keeps.fail _ _

end Vector

include h

/-- Primitives turn values of a kind into values of that kind, and fill vectors with such. -/
theorem Primitive.run_filled (p : Primitive) {args : List Value} (hargs : ∀ v ∈ args, P v) :
    Holds (Store.Filled P) (p.run args) P := by
  have hobserve {f : Observer} (hf : ∀ s, Answers P (f s args)) :
      Holds (Store.Filled P) (observe f args) P :=
    Keeps.observe fun s _ v hv => hf s v hv
  cases p with
  | add => exact hobserve fun s => Arithmetic.add_answers h s args
  | subtract => exact hobserve fun s => Arithmetic.subtract_answers h s args
  | multiply => exact hobserve fun s => Arithmetic.multiply_answers h s args
  | divide => exact hobserve fun s => Arithmetic.divide_answers h s args
  | remainder => exact hobserve fun s => Arithmetic.remainder_answers h s args
  | compare relation => exact hobserve fun s => Comparison.compare_answers h relation s args
  | identity => exact hobserve fun s => Answers.onOne fun v hv => .ok (hargs v hv)
  | head => exact hobserve fun s => Lists.head_answers h hargs
  | tail => exact hobserve fun s => Lists.tail_answers h hargs
  | cons => exact hobserve fun s => Lists.cons_answers h hargs
  | list => exact hobserve fun s => .ok (h.ofList.mpr hargs)
  | isNull => exact hobserve fun s => Answers.onOne fun _ _ => .ok (h.boolean _)
  | toInteger => exact hobserve fun s => Strings.toInteger_answers h s args
  | toText => exact hobserve fun s => .ok (h.string _)
  | characters => exact hobserve fun s => Strings.characters_answers h s args
  | readLine => exact Console.readLine_filled h args
  | readIntegers => exact Console.readIntegers_filled h args
  | print => exact Console.print_filled h args
  | exit => exact hobserve fun s => Console.exit_answers P s args
  | makeVector => exact Vector.make_filled h args
  | copyVector => exact Vector.copy_filled h hargs
  | vectorSlot => exact Vector.slot_filled h hargs

end

end Lisplet
