import Lisplet.Value

/-! Identity of values: whether two values are one and the same term. -/
namespace Lisplet

deriving instance DecidableEq for Value

namespace Value

/-- Decides the identity of two values at once if they are stored in one place or differ in their
digests. -/
@[inline] def sameOr (a b : Value) (decide : Unit → Decidable (a = b)) : Decidable (a = b) :=
  if h : a.digest = b.digest then withPtrEqDecEq a b decide
  else .isFalse fun e => h (e ▸ rfl)

/-- Decides the identity of two values without looking through the pairs that they share. -/
def same : (a b : Value) → Decidable (a = b)
  | pair a b, pair c d =>
    match sameOr a c fun _ => same a c with
    | .isFalse h => .isFalse fun e => h (pair.inj e).1
    | .isTrue h =>
      match sameOr b d fun _ => same b d with
      | .isFalse h' => .isFalse fun e => h' (pair.inj e).2
      | .isTrue h' => .isTrue (h ▸ h' ▸ rfl)
  | tailCall a, tailCall b =>
    match sameOr a b fun _ => same a b with
    | .isFalse h => .isFalse fun e => h (tailCall.inj e)
    | .isTrue h => .isTrue (h ▸ rfl)
  | a, b => inferInstanceAs (Decidable (a = b))

/-- The quick decision takes the place of the one by constructors. -/
instance : DecidableEq Value := fun a b => sameOr a b fun _ => same a b

instance : Hashable Value := ⟨digest⟩

end Value

end Lisplet
