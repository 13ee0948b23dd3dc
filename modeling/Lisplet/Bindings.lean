import Lisplet.Value

/-! Bindings of names to values. -/
namespace Lisplet

/-- Bindings of names to values; a name's first entry counts. -/
def Bindings (V : Type := Value) := List (String × V)

namespace Bindings

variable {V : Type}

def empty : Bindings V := []

def size (b : Bindings V) : Nat := b.length

def find? (name : String) : Bindings V → Option V
  | [] => none
  | (key, value) :: rest => if key = name then some value else find? name rest

def insert (name : String) (value : V) : Bindings V → Bindings V
  | [] => [(name, value)]
  | (key, old) :: rest =>
    if key = name then (name, value) :: rest else (key, old) :: insert name value rest

/-- Binds names to values by position as far as both lists go; a later binding of a name wins. -/
def ofLists (names : List String) (values : List V) : Bindings V :=
  (names.zip values).foldl (fun bindings (name, value) => bindings.insert name value) empty

def foldl {α : Type} (f : α → String × V → α) (start : α) (b : Bindings V) : α :=
  List.foldl f start b

/-- Binds a name in bindings sorted by name, and keeps them sorted. -/
def insertSorted (name : String) (value : Value) : Bindings → Bindings
  | [] => [(name, value)]
  | (key, old) :: rest =>
    if name < key then (name, value) :: (key, old) :: rest
    else if key = name then (name, value) :: rest
    else (key, old) :: insertSorted name value rest

/-- Lays `upper` over sorted bindings. -/
def overlay (lower upper : Bindings) : Bindings :=
  List.foldr (fun (name, value) bindings => bindings.insertSorted name value) lower upper

@[simp] theorem find?_insert_self (name : String) (value : V) (b : Bindings V) :
    (b.insert name value).find? name = some value := by
  induction b with
  | nil => simp [insert, find?]
  | cons entry rest ih =>
    obtain ⟨key, old⟩ := entry
    by_cases h : key = name <;> simp [insert, find?, h, ih]

theorem find?_insert_of_ne {name other : String} (value : V) (b : Bindings V) (h : name ≠ other) :
    (b.insert name value).find? other = b.find? other := by
  induction b with
  | nil => simp [insert, find?, h]
  | cons entry rest ih =>
    obtain ⟨key, old⟩ := entry
    by_cases hk : key = name
    · subst hk
      simp [insert, find?, h]
    · simp [insert, find?, hk, ih]

end Bindings

end Lisplet
