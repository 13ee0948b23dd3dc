import Lisplet.Value.Printer
import Mathlib.Data.Finset.Card
import Mathlib.Data.Finset.SDiff

/-! What is written of a value: its outline, which does not go into a vector that it is inside of
already. It is found without a bound on how many vectors open inside each other, as there are only
so many in the store, and its text is that of the value. -/
namespace Lisplet

/-- What is written of a value. It tells a vector that is cut short from one that holds the symbol
`...` alone, which has the same text. -/
inductive Outline where
  | leaf (v : Value)
  | pair (head tail : Outline)
  | vector (items : List Outline)
  | cut

namespace Value

def atomText (name? : ClosureId → Option String) (v : Value) : String :=
  v.writeAtom name? (fun acc _ => acc) ""

theorem writeAtom_eq (name? : ClosureId → Option String)
    (vectorText : String → VectorId → String) (acc : String) {v : Value}
    (h : ∀ id, v ≠ .vector id) :
    v.writeAtom name? vectorText acc = acc ++ v.atomText name? := by
  cases v with
  | vector id => exact absurd rfl (h id)
  | closure id =>
    simp only [atomText, writeAtom]
    cases name? id <;> simp [String.append_assoc]
  | _ => simp [atomText, writeAtom, String.append_assoc]

end Value

/-- Items behind a first one are each written behind a blank. -/
theorem foldl_write_eq {write : String → Value → String} {text : Value → String}
    {vs : List Value} (h : ∀ v ∈ vs, ∀ acc, write acc v = acc ++ text v) (acc first : String) :
    vs.foldl (fun acc v => write (acc ++ " ") v) (acc ++ first) =
      acc ++ " ".intercalate (first :: vs.map text) := by
  induction vs generalizing acc first with
  | nil => simp
  | cons v vs ih =>
    obtain ⟨hv, hvs⟩ := List.forall_mem_cons.mp h
    rw [List.foldl_cons, hv, ih hvs, List.map_cons, String.intercalate_cons_cons]
    simp only [String.append_assoc]

theorem writeItems_eq {write : String → Value → String} {text : Value → String}
    {vs : List Value} (h : ∀ v ∈ vs, ∀ acc, write acc v = acc ++ text v) (acc : String) :
    writeItems write acc vs = acc ++ " ".intercalate (vs.map text) := by
  cases vs with
  | nil => simp [writeItems]
  | cons v vs =>
    obtain ⟨hv, hvs⟩ := List.forall_mem_cons.mp h
    rw [writeItems, hv, foldl_write_eq hvs, List.map_cons]

namespace Outline

mutual

def text (name? : ClosureId → Option String) : Outline → String
  | leaf v => v.atomText name?
  | pair head tail => "(" ++ head.text name? ++ tail.rest name?
  | vector items => "#(" ++ " ".intercalate (items.map fun item => item.text name?) ++ ")"
  | cut => "#(...)"
termination_by o => (sizeOf o, 0)

def rest (name? : ClosureId → Option String) : Outline → String
  | leaf .nil => ")"
  | pair head tail => " " ++ head.text name? ++ tail.rest name?
  | o => " . " ++ o.text name? ++ ")"
termination_by o => (sizeOf o, 1)

end

end Outline

namespace Store

def unopened (s : Store) (opened : List VectorId) : Nat :=
  (Finset.range s.vectors.size \ (opened.map VectorId.index).toFinset).card

theorem index_lt_of_mem_items {s : Store} {id : VectorId} {v : Value} (h : v ∈ s.items id) :
    id.index < s.vectors.size := by
  by_contra hid
  rw [items, Array.getElem?_eq_none (Nat.le_of_not_lt hid)] at h
  exact Array.not_mem_empty v h

theorem unopened_cons_lt {s : Store} {opened : List VectorId} {id : VectorId} {v : Value}
    (hv : v ∈ s.items id) (h : id ∉ opened) : s.unopened (id :: opened) < s.unopened opened := by
  have hid : id.index ∉ (opened.map VectorId.index).toFinset := by
    simp only [List.mem_toFinset, List.mem_map, not_exists, not_and]
    rintro ⟨i⟩ hi rfl
    exact h hi
  have hmem : id.index ∈ Finset.range s.vectors.size \ (opened.map VectorId.index).toFinset :=
    Finset.mem_sdiff.mpr ⟨Finset.mem_range.mpr (index_lt_of_mem_items hv), hid⟩
  rw [unopened, List.map_cons, List.toFinset_cons, Finset.sdiff_insert]
  exact Finset.card_erase_lt_of_mem hmem

theorem unopened_nil (s : Store) : s.unopened [] = s.vectors.size := by
  simp [unopened]

/-- What is written of a value inside the vectors `opened`. -/
def outline (s : Store) (opened : List VectorId) : Value → Outline
  | .pair head tail => .pair (s.outline opened head) (s.outline opened tail)
  | .vector id =>
    if id ∈ opened then .cut
    else .vector ((s.items id).toList.attach.map fun ⟨v, _⟩ => s.outline (id :: opened) v)
  | v => .leaf v
termination_by v => (s.unopened opened, sizeOf v)
decreasing_by
  · exact .right _ (by rw [Value.pair.sizeOf_spec]; omega)
  · exact .right _ (by rw [Value.pair.sizeOf_spec]; omega)
  · exact .left _ _ (unopened_cons_lt (Array.mem_toList_iff.mp ‹_›) ‹_›)

variable {s : Store} {opened : List VectorId}

@[simp] theorem outline_pair (head tail : Value) : s.outline opened (.pair head tail) =
    .pair (s.outline opened head) (s.outline opened tail) := by
  rw [outline]

theorem outline_vector_of_mem {id : VectorId} (h : id ∈ opened) :
    s.outline opened (.vector id) = .cut := by
  rw [outline, if_pos h]

theorem outline_vector_of_not_mem {id : VectorId} (h : id ∉ opened) :
    s.outline opened (.vector id) =
      .vector ((s.items id).toList.map (s.outline (id :: opened))) := by
  rw [outline, if_neg h]
  simp

theorem outline_leaf {v : Value} (hpair : ∀ head tail, v ≠ .pair head tail)
    (hvector : ∀ id, v ≠ .vector id) : s.outline opened v = .leaf v := by
  cases v with
  | pair head tail => exact absurd rfl (hpair head tail)
  | vector id => exact absurd rfl (hvector id)
  | _ => rw [outline] <;> simp

/-- A vector in the place of the rest of a list stands behind a dot. -/
theorem rest_outline_vector (name? : ClosureId → Option String) (id : VectorId) :
    (s.outline opened (.vector id)).rest name? =
      " . " ++ (s.outline opened (.vector id)).text name? ++ ")" := by
  by_cases h : id ∈ opened
  · rw [outline_vector_of_mem h, Outline.rest] <;> simp
  · rw [outline_vector_of_not_mem h, Outline.rest] <;> simp

/-- A value is written like its outline if vectors are. -/
theorem write_eq {name? : ClosureId → Option String} {vectorText : String → VectorId → String}
    (h : ∀ acc id, vectorText acc id = acc ++ (s.outline opened (.vector id)).text name?)
    (v : Value) (acc : String) :
    v.write name? vectorText acc = acc ++ (s.outline opened v).text name? ∧
      v.writeTail name? vectorText acc = acc ++ (s.outline opened v).rest name? := by
  induction v generalizing acc with
  | pair head tail ihh iht =>
    simp only [Value.write, Value.writeTail, outline_pair, Outline.text, Outline.rest,
      (ihh _).1, (iht _).2, String.append_assoc, and_self]
  | vector id =>
    rw [rest_outline_vector]
    simp only [Value.write, Value.writeTail, Value.writeAtom, h, String.append_assoc, and_self]
  | nil => simp [outline_leaf, Outline.text, Outline.rest, Value.atomText, Value.write,
      Value.writeTail, Value.writeAtom]
  | _ => simp [outline_leaf, Outline.text, Outline.rest, Value.write, Value.writeTail,
      Value.writeAtom_eq, String.append_assoc]

/-- No more vectors open inside each other than are not open yet. -/
theorem writeInside_eq {fuel : Nat} (h : s.unopened opened < fuel) (acc : String) (v : Value) :
    s.writeInside fuel opened acc v = acc ++ (s.outline opened v).text s.closureName? := by
  induction fuel generalizing opened acc v with
  | zero => exact absurd h (Nat.not_lt_zero _)
  | succ fuel ih =>
    rw [writeInside]
    refine (write_eq (fun acc id => ?_) v acc).1
    by_cases hid : id ∈ opened
    · rw [if_pos hid, outline_vector_of_mem hid, Outline.text]
    · have hitems : ∀ w ∈ (s.items id).toList, ∀ acc,
          s.writeInside fuel (id :: opened) acc w =
            acc ++ (s.outline (id :: opened) w).text s.closureName? := by
        intro w hw acc
        have hless := unopened_cons_lt (Array.mem_toList_iff.mp hw) hid
        exact ih (Nat.lt_of_lt_of_le hless (Nat.le_of_lt_succ h)) acc w
      rw [if_neg hid, outline_vector_of_not_mem hid, Outline.text]
      simp only [writeItems_eq hitems, List.map_map, Function.comp_def, String.append_assoc]

/-- The text of a value is that of its outline. -/
theorem text_eq (s : Store) (v : Value) : s.text v = (s.outline [] v).text s.closureName? := by
  rw [text, writeInside_eq (by rw [unopened_nil]; exact Nat.lt_succ_self _), String.empty_append]

end Store

end Lisplet
