import Lisplet.Proofs.Hygiene
import Lisplet.Proofs.Kinds

/-! The values that programs compute with: data, primitives, functions of the host and closures.
Special forms and the values that keep a loop going are none of them. -/
namespace Lisplet

/-- Whether neither a special form nor a value that keeps a loop going is in a value. -/
def Value.isOrdinary : Value → Bool
  | special _ => false
  | function _ _ body => body != .recur
  | tailCall _ => false
  | pair head tail => head.isOrdinary && tail.isOrdinary
  | _ => true

theorem Value.isOrdinary_kind : Kind (·.isOrdinary = true) where
  integer _ := rfl
  float _ := rfl
  string _ := rfl
  boolean _ := rfl
  nil := rfl
  pair := Bool.and_eq_true_iff

theorem Value.isOrdinary_ofList {vs : List Value} :
    (ofList vs).isOrdinary = true ↔ ∀ v ∈ vs, v.isOrdinary = true :=
  isOrdinary_kind.ofList

theorem Value.isOrdinary_of_mem_heads {e : Value} (h : e.isOrdinary = true) :
    ∀ v ∈ e.heads, v.isOrdinary = true :=
  isOrdinary_kind.heads h

theorem Bindings.mem_of_find? {b : List (String × Value)} {name : String} {v : Value}
    (h : find? name b = some v) : (name, v) ∈ b := by
  induction b with
  | nil => cases h
  | cons entry rest ih =>
    obtain ⟨key, value⟩ := entry
    rw [find?] at h
    split at h
    · rename_i hkey
      cases h
      rw [hkey]
      exact List.mem_cons_self
    · exact List.mem_cons_of_mem _ (ih h)

/-- Whether a binding is one that a program may start with. -/
def startingEntry : String × Value → Bool
  | (name, .special form) => name = form.name
  | (name, v) => !reserved name && v.isOrdinary

/-- What a program starts with: special forms under their own names, and ordinary values. -/
theorem standardBindings_find? {name : String} {v : Value}
    (h : standardBindings.find? name = some v) :
    (∃ form, name = SpecialForm.name form ∧ v = .special form) ∨
      (reserved name = false ∧ v.isOrdinary = true) := by
  have hall : List.all standardBindings startingEntry = true := by decide
  have hentry := List.all_eq_true.mp hall _ (Bindings.mem_of_find? h)
  cases v with
  | special form => exact .inl ⟨form, of_decide_eq_true hentry, rfl⟩
  | _ => exact .inr (by simpa [startingEntry] using hentry)

theorem standardBindings_find?_name (form : SpecialForm) :
    standardBindings.find? form.name = some (.special form) := by
  cases form <;> rfl

namespace Store

def OrdinaryItems (s : Store) : Prop := ∀ id, ∀ v ∈ s.items id, v.isOrdinary = true

theorem ordinaryItems_iff {s : Store} : s.OrdinaryItems ↔ s.Filled (·.isOrdinary = true) :=
  ⟨fun hs => ⟨fun id _ => hs id, fun _ _ => rfl⟩, fun hs id => hs.items id rfl⟩

end Store

open Action in
/-- Primitives turn ordinary values into ordinary values, and keep vectors filled with such. -/
theorem Primitive.run_ordinary (p : Primitive) {args : List Value}
    (hargs : ∀ v ∈ args, v.isOrdinary = true) :
    Holds Store.OrdinaryItems (p.run args) (·.isOrdinary = true) := by
  intro s hs
  have hfilled := Store.ordinaryItems_iff.mp hs
  obtain ⟨w, hw, ht, hv⟩ := p.run_filled Value.isOrdinary_kind hargs s hfilled
  exact ⟨w, hw, Store.ordinaryItems_iff.mpr ht, hv⟩

end Lisplet
