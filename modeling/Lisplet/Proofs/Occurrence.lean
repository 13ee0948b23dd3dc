import Lisplet.SelfCall

/-! Where the parts of an expression stand. A part is found by the way to it through pairs, so that
two occurrences of one symbol are told apart. -/
namespace Lisplet.Value

/-- The two ways down from a pair. -/
inductive Step where
  | head
  | tail
deriving DecidableEq, Repr

abbrev Path := List Step

def at? : Value → Path → Option Value
  | v, [] => some v
  | pair head _, .head :: p => head.at? p
  | pair _ tail, .tail :: p => tail.at? p
  | _, _ :: _ => none

@[simp] theorem at?_nil (e : Value) : e.at? [] = some e := by
  cases e <;> rfl

@[simp] theorem at?_pair_head (a b : Value) (p : Path) : (pair a b).at? (.head :: p) = a.at? p := rfl

@[simp] theorem at?_pair_tail (a b : Value) (p : Path) : (pair a b).at? (.tail :: p) = b.at? p := rfl

theorem at?_append (e : Value) (q p : Path) : e.at? (q ++ p) = (e.at? q).bind (·.at? p) := by
  induction q generalizing e with
  | nil => simp
  | cons step q ih => cases e <;> cases step <;> simp [at?, ih]

/-- Every occurrence of a symbol `x`, at the end of a path `p`, satisfies `P p x`. -/
def EachSymbol (P : Path → String → Prop) (e : Value) : Prop :=
  ∀ p x, e.at? p = some (symbol x) → P p x

namespace EachSymbol

variable {P Q : Path → String → Prop} {e : Value}

@[simp] theorem pair_iff {a b : Value} : (pair a b).EachSymbol P ↔
    a.EachSymbol (fun p => P (.head :: p)) ∧ b.EachSymbol fun p => P (.tail :: p) := by
  refine ⟨fun h => ⟨fun p x hx => h _ x hx, fun p x hx => h _ x hx⟩, fun h p x hx => ?_⟩
  match p, hx with
  | .head :: p, hx => exact h.1 p x hx
  | .tail :: p, hx => exact h.2 p x hx

@[simp] theorem symbol_iff {name : String} : (symbol name).EachSymbol P ↔ P [] name := by
  refine ⟨fun h => h [] name rfl, fun h p x hx => ?_⟩
  match p, hx with
  | [], rfl => exact h

@[simp] theorem nil : Value.nil.EachSymbol P := by
  intro p x hx
  match p, hx with
  | [], hx => cases hx

theorem imp (h : e.EachSymbol P) (hPQ : ∀ p x, P p x → Q p x) : e.EachSymbol Q :=
  fun p x hx => hPQ p x (h p x hx)

/-- What holds of all occurrences in an expression holds of those in a part. -/
theorem part (h : e.EachSymbol P) {q : Path} {v : Value} (hv : e.at? q = some v) :
    v.EachSymbol fun p => P (q ++ p) :=
  fun p x hx => h _ x (by rw [at?_append, hv]; exact hx)

end EachSymbol

/-- A symbol is not mentioned if it occurs nowhere. -/
theorem mentions_eq_false_iff {p : String → Bool} {e : Value} :
    SelfUse.mentions p e = false ↔ e.EachSymbol fun _ x => p x = false := by
  induction e with
  | symbol name => simp [SelfUse.mentions]
  | pair a b iha ihb => simp [SelfUse.mentions, iha, ihb]
  | _ =>
    refine ⟨fun _ q x hx => ?_, fun _ => rfl⟩
    cases q with
    | nil => cases hx
    | cons => simp [at?] at hx

/-- An element of a chain of pairs, and the path to it. -/
inductive ItemAt : Value → Path → Value → Prop
  | first {item rest : Value} : ItemAt (pair item rest) [.head] item
  | later {head rest item : Value} {q : Path} (h : ItemAt rest q item) :
    ItemAt (pair head rest) (.tail :: q) item

theorem mem_heads_iff {e item : Value} : item ∈ e.heads ↔ ∃ q, ItemAt e q item := by
  induction e with
  | pair a rest _ ih =>
    rw [heads_pair, List.mem_cons, ih]
    constructor
    · rintro (rfl | ⟨q, hq⟩)
      · exact ⟨_, .first⟩
      · exact ⟨_, .later hq⟩
    · rintro ⟨_, h⟩
      cases h with
      | first => exact .inl rfl
      | later h => exact .inr ⟨_, h⟩
  | _ =>
    refine ⟨fun h => absurd (show item ∈ [] from h) List.not_mem_nil, ?_⟩
    rintro ⟨_, h⟩
    cases h

namespace ItemAt

variable {e item item' : Value} {q q' : Path}

theorem at? (h : ItemAt e q item) : e.at? q = some item := by
  induction h with
  | first => simp
  | later _ ih => simpa using ih

/-- No path to an element leads on to another one. -/
theorem unique (h : ItemAt e q item) (h' : ItemAt e q' item') {p p' : Path}
    (heq : q ++ p = q' ++ p') : q = q' ∧ item = item' ∧ p = p' := by
  induction h generalizing q' with
  | first =>
    cases h' with
    | first => exact ⟨rfl, rfl, by simpa using heq⟩
    | later _ => simp at heq
  | later _ ih =>
    cases h' with
    | first => simp at heq
    | later h' =>
      obtain ⟨rfl, hrest⟩ := ih h' (by simpa using heq)
      exact ⟨rfl, hrest⟩

theorem sizeOf_lt (h : ItemAt e q item) : sizeOf item < sizeOf e := by
  induction h with
  | first => simp; omega
  | later _ ih => simp; omega

end ItemAt

/-- A proper list holds the symbols of its elements. -/
theorem EachSymbol.list_iff {P : Path → String → Prop} {e : Value} (hlist : e.isList = true) :
    e.EachSymbol P ↔ ∀ q item, ItemAt e q item → item.EachSymbol fun p => P (q ++ p) := by
  refine ⟨fun h q item hitem => h.part hitem.at?, fun h => ?_⟩
  induction e generalizing P with
  | pair a rest _ ih =>
    exact pair_iff.mpr ⟨h _ a .first, ih hlist fun q item hitem => h _ item (.later hitem)⟩
  | nil => exact .nil
  | _ => cases hlist

/-- What parts of parts an expression has, and the paths to them: itself, and what its parts have. -/
inductive Nested (Part : Value → Path → Value → Prop) : Value → Path → Value → Prop
  | here {e : Value} : Nested Part e [] e
  | inside {e part inner : Value} {q p : Path} (hpart : Part e q part)
    (h : Nested Part part p inner) : Nested Part e (q ++ p) inner

end Lisplet.Value
