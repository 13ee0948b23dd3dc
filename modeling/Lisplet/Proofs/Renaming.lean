import Lisplet.Proofs.Frames
import Lisplet.Proofs.Kinds

/-! Renamed closures. Where closures have other identities and all else is the same, values have the
same texts and observers answer the same. -/
namespace Lisplet

def Value.rename (ρ : ClosureId → ClosureId) : Value → Value
  | closure id => closure (ρ id)
  | pair head tail => pair (head.rename ρ) (tail.rename ρ)
  | tailCall args => tailCall (args.rename ρ)
  | v => v

def Bindings.rename (ρ : ClosureId → ClosureId) : Bindings → Bindings
  | [] => []
  | (name, value) :: rest => (name, value.rename ρ) :: rename ρ rest

def Frame.rename (ρ : ClosureId → ClosureId) (frame : Frame) : Frame :=
  { frame with bindings := frame.bindings.rename ρ }

def Closure.rename (ρ : ClosureId → ClosureId) (closure : Closure) : Closure :=
  { closure with body := closure.body.rename ρ }

variable {ρ : ClosureId → ClosureId}

namespace Value

@[simp] theorem rename_id (v : Value) : v.rename id = v := by
  induction v with
  | pair head tail ihh iht => rw [rename, ihh, iht]
  | tailCall args ih => rw [rename, ih]
  | _ => rfl

@[simp] theorem map_rename_id (vs : List Value) : vs.map (rename id) = vs := by
  rw [funext rename_id, List.map_id']

variable (ρ) (v : Value)

@[simp] theorem typeName_rename : (v.rename ρ).typeName = v.typeName := by cases v <;> rfl

@[simp] theorem isTruthy_rename : (v.rename ρ).isTruthy = v.isTruthy := by cases v <;> rfl

@[simp] theorem isNil_rename : (v.rename ρ).isNil = v.isNil := by cases v <;> rfl

theorem ending_rename : (v.rename ρ).ending = v.ending.rename ρ := by
  induction v with
  | pair head tail _ ih => exact ih
  | _ => rfl

@[simp] theorem isList_rename : (v.rename ρ).isList = v.isList := by
  rw [isList, isList, ending_rename, isNil_rename]

@[simp] theorem heads_rename : (v.rename ρ).heads = v.heads.map (rename ρ) := by
  induction v with
  | pair head tail _ ih => rw [rename, heads_pair, heads_pair, List.map_cons, ih]
  | _ => rfl

@[simp] theorem toList?_rename : (v.rename ρ).toList? = v.toList?.map (List.map (rename ρ)) := by
  rw [toList?, toList?, isList_rename, heads_rename]
  split <;> rfl

@[simp] theorem rename_ofList (vs : List Value) :
    (ofList vs).rename ρ = ofList (vs.map (rename ρ)) := by
  induction vs with
  | nil => rfl
  | cons v vs ih => rw [ofList_cons, rename, ih, List.map_cons, ofList_cons]

end Value

namespace Bindings

@[simp] theorem find?_rename (name : String) (b : Bindings) :
    (b.rename ρ).find? name = (b.find? name).map (Value.rename ρ) := by
  induction b with
  | nil => rfl
  | cons entry b ih =>
    simp only [rename, find?, ih]
    split <;> rfl

theorem insert_rename (name : String) (value : Value) (b : Bindings) :
    (b.insert name value).rename ρ = (b.rename ρ).insert name (value.rename ρ) := by
  induction b with
  | nil => rfl
  | cons entry b ih =>
    obtain ⟨key, old⟩ := entry
    by_cases hkey : key = name
    · simp only [rename, insert, hkey, ↓reduceIte]
      rfl
    · simp only [rename, insert, hkey, ↓reduceIte]
      exact congrArg ((key, old.rename ρ) :: ·) ih

theorem insertAll_rename (b : Bindings) (entries : List (String × Value)) :
    (b.insertAll entries).rename ρ =
      (b.rename ρ).insertAll (entries.map (Prod.map id (Value.rename ρ))) := by
  induction entries generalizing b with
  | nil => rfl
  | cons entry entries ih =>
    refine (ih (b.insert entry.1 entry.2)).trans ?_
    rw [insert_rename]
    rfl

theorem ofLists_rename (names : List String) (values : List Value) :
    (ofLists names values).rename ρ = ofLists names (values.map (Value.rename ρ)) := by
  rw [ofLists_eq_insertAll, insertAll_rename, ofLists_eq_insertAll, List.zip_map_right]
  rfl

end Bindings

namespace Store

/-- The second store is the first with its closures renamed. It may have more closures. -/
structure Renamed (ρ : ClosureId → ClosureId) (s t : Store) : Prop where
  frames : t.frames = s.frames.map (Frame.rename ρ)
  closures : ∀ id, t.closures[(ρ id).index]? = s.closures[id.index]?.map (Closure.rename ρ)
  vectors : t.vectors = s.vectors.map (Array.map (Value.rename ρ))
  input : t.input = s.input
  output : t.output = s.output

namespace Renamed

variable {s t : Store} (h : s.Renamed ρ t)

include h

theorem bindings (f : FrameId) : t.bindings f = (s.bindings f).rename ρ := by
  simp only [Store.bindings, h.frames, Array.getElem?_map]
  cases s.frames[f.index]? <;> rfl

theorem chain (f : FrameId) : t.chain f = s.chain f := by
  simp only [Store.chain, h.frames, Array.getElem?_map]
  cases s.frames[f.index]? <;> rfl

theorem find? (name : String) (fs : List FrameId) :
    t.find? name fs = (s.find? name fs).map (Value.rename ρ) := by
  induction fs with
  | nil => rfl
  | cons f fs ih =>
    rw [Store.find?, Store.find?, h.bindings, Bindings.find?_rename, ih]
    cases (s.bindings f).find? name <;> rfl

theorem frameOf? (name : String) (fs : List FrameId) : t.frameOf? name fs = s.frameOf? name fs := by
  induction fs with
  | nil => rfl
  | cons f fs ih =>
    rw [Store.frameOf?, Store.frameOf?, h.bindings, Bindings.find?_rename, Option.isSome_map, ih]

theorem items (id : VectorId) : t.items id = (s.items id).map (Value.rename ρ) := by
  simp only [Store.items, h.vectors, Array.getElem?_map]
  cases s.vectors[id.index]? <;> simp

theorem closureName? (id : ClosureId) : t.closureName? (ρ id) = s.closureName? id := by
  simp only [Store.closureName?, h.closures]
  cases s.closures[id.index]? <;> rfl

theorem write {vectorText vectorText' : String → VectorId → String}
    (hvectors : vectorText' = vectorText) (v : Value) (acc : String) :
    (v.rename ρ).write t.closureName? vectorText' acc = v.write s.closureName? vectorText acc ∧
      (v.rename ρ).writeTail t.closureName? vectorText' acc =
        v.writeTail s.closureName? vectorText acc := by
  subst hvectors
  induction v generalizing acc with
  | pair head tail ihh iht =>
    simp only [Value.rename, Value.write, Value.writeTail, (ihh _).1, (iht _).2, and_self]
  | closure id =>
    simp only [Value.rename, Value.write, Value.writeTail, Value.writeAtom, h.closureName?,
      and_self]
  | _ => exact ⟨rfl, rfl⟩

theorem writeInside (fuel : Nat) (opened : List VectorId) (v : Value) (acc : String) :
    t.writeInside fuel opened acc (v.rename ρ) = s.writeInside fuel opened acc v := by
  induction fuel generalizing opened v acc with
  | zero => exact (h.write rfl v acc).1
  | succ fuel ih =>
    have hitems (opened : List VectorId) (vs : List Value) (acc : String) :
        writeItems (t.writeInside fuel opened) acc (vs.map (Value.rename ρ)) =
          writeItems (s.writeInside fuel opened) acc vs := by
      cases vs with
      | nil => rfl
      | cons v vs => simp only [List.map_cons, writeItems, List.foldl_map, ih]
    refine (h.write ?_ v acc).1
    funext acc id
    simp only [h.items, Array.toList_map, hitems]

theorem text (v : Value) : t.text (v.rename ρ) = s.text v := by
  rw [Store.text, Store.text, h.vectors, Array.size_map, h.writeInside]

theorem bareText (v : Value) : t.bareText (v.rename ρ) = s.bareText v := by
  cases v with
  | string _ => rfl
  | _ => exact h.text _

theorem shown (v : Value) : t.shown (v.rename ρ) = s.shown v := by
  rw [Store.shown, Store.shown, h.text, Value.typeName_rename]

end Renamed

end Store

/-- An observer that takes no notice of the identities of closures, however they are renamed. -/
def Observer.Natural (f : Observer) : Prop :=
  ∀ (ρ : ClosureId → ClosureId), Function.Injective ρ → ∀ (s t : Store), s.Renamed ρ t →
    ∀ args, f t (args.map (Value.rename ρ)) = (f s args).map (Value.rename ρ)

section

variable {s t : Store} (h : s.Renamed ρ t)

include h

theorem Arithmetic.operands_rename (op : Primitive) (args : List Value) :
    operands op t (args.map (Value.rename ρ)) = operands op s args := by
  have hi : integerAmong op t ∘ Value.rename ρ = integerAmong op s := by
    funext v
    cases v <;> simp only [Function.comp, integerAmong, ← h.shown, Value.rename]
  have hf : floatAmong op t ∘ Value.rename ρ = floatAmong op s := by
    funext v
    cases v <;> simp only [Function.comp, floatAmong, ← h.shown, Value.rename]
  have hints : (args.map (Value.rename ρ)).mapM (integerAmong op t) =
      args.mapM (integerAmong op s) := by rw [List.mapM_map, hi]
  have hfloats : (args.map (Value.rename ρ)).mapM (floatAmong op t) =
      args.mapM (floatAmong op s) := by rw [List.mapM_map, hf]
  cases args with
  | nil => rfl
  | cons v args =>
    cases v with
    | integer n => exact congrArg (Operands.integers <$> ·) hints
    | float x => exact congrArg (Operands.floats <$> ·) hfloats
    | _ => simp only [List.map_cons, Value.rename, operands, ← h.shown]

theorem Arithmetic.expectInteger_rename (op : Primitive) (v : Value) :
    expectInteger op t (v.rename ρ) = expectInteger op s v := by
  cases v <;> simp only [expectInteger, ← h.shown, Value.rename]

theorem Comparison.related_rename (relation : Relation) (args : List Value) :
    related relation t (args.map (Value.rename ρ)) = related relation s args := by
  have ho (a b : Value) : order relation t (a.rename ρ) (b.rename ρ) = order relation s a b := by
    cases a <;> cases b <;> simp only [order, ← h.shown, Value.rename]
  fun_induction related relation s args with
  | case1 a b rest ih => simp only [List.map_cons, related, ho, ← ih]
  | case2 args hargs =>
    rcases args with _ | ⟨a, _ | ⟨b, rest⟩⟩
    · rfl
    · rfl
    · exact absurd rfl (hargs a b rest)

end

/-- Values that renaming leaves as they are. -/
theorem Value.fixed_kind (ρ : ClosureId → ClosureId) : Kind fun v => v.rename ρ = v where
  integer _ := rfl
  float _ := rfl
  string _ := rfl
  boolean _ := rfl
  nil := rfl
  pair := by
    intro a b
    rw [rename, pair.injEq]

namespace Observer

theorem onOne_natural {f : Store → Value → Except Error Value}
    (h : ∀ (ρ : ClosureId → ClosureId) (s t : Store), s.Renamed ρ t →
      ∀ v, f t (v.rename ρ) = (f s v).map (Value.rename ρ)) : (onOne f).Natural := by
  intro ρ _ s t hst args
  match args with
  | [] => rfl
  | [v] => exact h ρ s t hst v
  | _ :: _ :: _ => simp [onOne, Except.map]

/-- An observer that makes data of its own need only answer the same. -/
theorem natural_of_answers {f : Observer}
    (hsame : ∀ {ρ : ClosureId → ClosureId} {s t : Store}, s.Renamed ρ t →
      ∀ args, f t (args.map (Value.rename ρ)) = f s args)
    (hdata : ∀ {P : Value → Prop}, Kind P → ∀ s args, Answers P (f s args)) : f.Natural := by
  intro ρ _ s t hst args
  rw [hsame hst]
  cases hanswer : f s args with
  | error e => rfl
  | ok v => exact congrArg Except.ok (hdata (Value.fixed_kind ρ) s args v hanswer).symm

end Observer

namespace Arithmetic

theorem add_natural : Observer.Natural add :=
  Observer.natural_of_answers (fun h args => by simp only [add, operands_rename h]) add_answers

theorem subtract_natural : Observer.Natural subtract :=
  Observer.natural_of_answers (fun h args => by simp only [subtract, operands_rename h])
    subtract_answers

theorem multiply_natural : Observer.Natural multiply :=
  Observer.natural_of_answers (fun h args => by simp only [multiply, operands_rename h])
    multiply_answers

theorem divide_natural : Observer.Natural divide :=
  Observer.natural_of_answers (fun h args => by simp only [divide, operands_rename h])
    divide_answers

theorem remainder_natural : Observer.Natural remainder := by
  refine Observer.natural_of_answers (fun {ρ s t} h args => ?_) remainder_answers
  have hoperands : expectInteger .remainder t ∘ Value.rename ρ = expectInteger .remainder s :=
    funext (expectInteger_rename h .remainder)
  simp only [remainder, List.mapM_map, hoperands]

end Arithmetic

theorem Comparison.compare_natural (relation : Relation) : Observer.Natural (compare relation) :=
  Observer.natural_of_answers
    (fun h args => by simp only [compare, List.length_map, related_rename h])
    fun h => compare_answers h relation

namespace Lists

theorem head_natural : Observer.Natural head := by
  refine Observer.onOne_natural fun ρ s t h v => ?_
  cases v <;> simp only [Store.head, Value.rename, ← h.shown] <;> rfl

theorem tail_natural : Observer.Natural tail := by
  refine Observer.onOne_natural fun ρ s t h v => ?_
  cases v <;> simp only [Store.tail, Value.rename, ← h.shown] <;> rfl

theorem isNull_natural : Observer.Natural isNull := by
  refine Observer.onOne_natural fun ρ s t h v => ?_
  rw [Value.isNil_rename]
  rfl

theorem cons_natural : Observer.Natural cons := by
  intro ρ _ s t _ args
  match args with
  | [] => rfl
  | [_] => rfl
  | [_, _] => rfl
  | _ :: _ :: _ :: _ => simp [cons, Except.map]

theorem list_natural : Observer.Natural list := by
  intro ρ _ s t _ args
  exact congrArg Except.ok (Value.rename_ofList ρ args).symm

end Lists

namespace Strings

theorem toInteger_natural : Observer.Natural toInteger := by
  refine Observer.onOne_natural fun ρ s t h v => ?_
  cases v with
  | string t =>
    dsimp only [Value.rename]
    split <;> rfl
  | integer n => rfl
  | _ =>
    simp only [Value.rename, ← h.shown]
    rfl

theorem characters_natural : Observer.Natural characters := by
  refine Observer.onOne_natural fun ρ s t h v => ?_
  cases v with
  | string t =>
    refine congrArg Except.ok ((Value.fixed_kind ρ).ofList.mpr fun v hv => ?_).symm
    obtain ⟨c, -, rfl⟩ := List.mem_map.mp hv
    rfl
  | _ =>
    simp only [Value.rename, ← h.shown]
    rfl

theorem toText_natural : Observer.Natural toText := by
  intro ρ _ s t h args
  have htexts : t.bareText ∘ Value.rename ρ = s.bareText := funext h.bareText
  simp only [toText, List.map_map, htexts]
  rfl

end Strings

theorem Console.exit_natural : Observer.Natural exit := by
  refine Observer.natural_of_answers (fun {ρ s t} h args => ?_) fun {P} _ => exit_answers P
  match args with
  | [] => rfl
  | [v] => simp only [exit, List.map_cons, List.map_nil, Arithmetic.expectInteger_rename h]
  | _ :: _ :: _ => simp [exit]

end Lisplet
