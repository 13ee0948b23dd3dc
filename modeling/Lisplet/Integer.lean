/-! Integers of 64 bits: reading them, and arithmetic that reports what does not fit. -/
namespace Lisplet.Integer

/-- The number itself if 64 bits hold it. -/
def ofInt? (n : Int) : Option Int64 :=
  if (Int64.ofInt n).toInt = n then some (Int64.ofInt n) else none

def ofDigits (cs : List Char) : Nat := cs.foldl (fun n c => 10 * n + (c.toNat - '0'.toNat)) 0

def ofDigits? : List Char → Option Nat
  | [] => none
  | cs => if cs.all Char.isDigit then some (ofDigits cs) else none

def read? (cs : List Char) : Option Int64 :=
  let number : Option Int :=
    match cs with
    | '+' :: rest => (ofDigits? rest).map fun n => (n : Int)
    | '-' :: rest => (ofDigits? rest).map fun n => -(n : Int)
    | _ => (ofDigits? cs).map fun n => (n : Int)
  number.bind ofInt?

def text (n : Int64) : String :=
  match n.toInt with
  | .ofNat m => m.repr
  | .negSucc m => "-" ++ (m + 1).repr

def add? (a b : Int64) : Option Int64 := ofInt? (a.toInt + b.toInt)

def sub? (a b : Int64) : Option Int64 := ofInt? (a.toInt - b.toInt)

def mul? (a b : Int64) : Option Int64 := ofInt? (a.toInt * b.toInt)

def neg? (a : Int64) : Option Int64 := ofInt? (-a.toInt)

def div? (a b : Int64) : Option Int64 := ofInt? (a.toInt.tdiv b.toInt)

/-- The remainder with the dividend's sign, if the quotient fits. -/
def rem? (a b : Int64) : Option Int64 :=
  (div? a b).bind fun _ => ofInt? (a.toInt.tmod b.toInt)

theorem ofInt?_eq_some_iff {n : Int} {r : Int64} : ofInt? n = some r ↔ r.toInt = n := by
  unfold ofInt?
  constructor
  · intro h
    split at h
    case isTrue hn => rw [← Option.some.inj h, hn]
    case isFalse => simp at h
  · rintro rfl
    simp

@[simp] theorem ofInt?_toInt (r : Int64) : ofInt? r.toInt = some r :=
  ofInt?_eq_some_iff.2 rfl

end Lisplet.Integer
