import Lisplet.Heap
import Lisplet.Proofs.Comparison.Order
import Mathlib.Data.Finset.Prod
import Mathlib.Logic.Relation

/-! How equality is found. Two lists are compared in a loop along their tails that ends at a pair in
which both go on. Nothing is known of such a pair, so the answer may differ from that of comparing
heads and tails for as long as there are any; it does so just if a pair that is passed over differs
from itself. -/
namespace Lisplet

namespace Ref

def holdBoth : Ref → Ref → Bool
  | pair _, pair _ => true
  | vector _, vector _ => true
  | _, _ => false

/-- Equality of values of which at most one holds others. -/
def atomEqual : Ref → Ref → Bool
  | integer a, integer b => a == b
  | float a, float b => a == b
  | string a, string b => a == b
  | boolean a, boolean b => a == b
  | symbol a, symbol b => a == b
  | nil, nil => true
  | _, _ => false

/-- Whether a value is data: no float, and nothing that can be called or stands for a call. -/
def isData : Ref → Bool
  | float _ => false
  | function .. => false
  | special _ => false
  | closure _ => false
  | tailCall _ => false
  | _ => true

theorem holdBoth_comm (a b : Ref) : a.holdBoth b = b.holdBoth a := by
  cases a <;> cases b <;> rfl

/-- Values that are equal without holding any hold none. -/
theorem holdBoth_of_atomEqual {a b : Ref} (h : a.atomEqual b = true) (c : Ref) :
    a.holdBoth c = false ∧ b.holdBoth c = false := by
  cases a <;> cases b <;> first | exact ⟨rfl, rfl⟩ | cases h

theorem atomEqual_comm (a b : Ref) : a.atomEqual b = b.atomEqual a := by
  cases a <;> cases b <;>
    first | rfl | exact Bool.beq_comm | exact Comparison.float_beq_comm _ _

theorem atomEqual_trans {a b c : Ref} (hab : a.atomEqual b = true) (hbc : b.atomEqual c = true) :
    a.atomEqual c = true := by
  cases a <;> cases b <;> first | exact absurd hab Bool.false_ne_true | cases c <;> first
    | rfl
    | exact absurd hbc Bool.false_ne_true
    | exact Comparison.float_beq_trans hab hbc
    | exact beq_iff_eq.mpr ((beq_iff_eq.mp hab).trans (beq_iff_eq.mp hbc))

/-- Data without parts is equal to itself only. -/
theorem atomEqual_iff {a b : Ref} (hdata : a.isData = true) (h : a.holdBoth b = false) :
    a.atomEqual b = true ↔ a = b := by
  constructor
  · intro heq
    cases a <;> cases b <;>
      first | rfl | exact congrArg _ (beq_iff_eq.mp heq) | cases heq | cases hdata
  · rintro rfl
    cases a with
    | integer n => exact beq_self_eq_true n
    | string t => exact beq_self_eq_true t
    | boolean b => exact beq_self_eq_true b
    | symbol name => exact beq_self_eq_true name
    | nil => rfl
    | pair => cases h
    | vector => cases h
    | _ => cases hdata

/-- Where a value stands among the pairs: what is no pair stands before all of them. -/
def rank : Ref → Nat
  | pair p => p.index + 1
  | _ => 0

end Ref

namespace Heap

/-- Every pair is made of what was there before it. -/
structure Founded (h : Heap) : Prop where
  head (p : PairId) : (h.head p).rank ≤ p.index
  tail (p : PairId) : (h.tail p).rank ≤ p.index

theorem founded_iff {h : Heap} : h.Founded ↔ ∀ i < h.pairs.size,
    (h.head ⟨i⟩).rank ≤ i ∧ (h.tail ⟨i⟩).rank ≤ i := by
  refine ⟨fun hfounded i _ => ⟨hfounded.head ⟨i⟩, hfounded.tail ⟨i⟩⟩, fun hall => ?_⟩
  have hpair (p : PairId) : (h.head p).rank ≤ p.index ∧ (h.tail p).rank ≤ p.index := by
    by_cases hp : p.index < h.pairs.size
    · exact hall p.index hp
    · simp [head, tail, Array.getD_eq_getD_getElem?, Array.getElem?_eq_none (Nat.le_of_not_lt hp),
        Ref.rank]
  exact ⟨fun p => (hpair p).1, fun p => (hpair p).2⟩

instance (h : Heap) : Decidable h.Founded := decidable_of_iff _ founded_iff.symm

/-- The recursive comparison of heads and tails, as far as it comes to an end. Vectors that are one
and the same are equal; others are compared slot by slot, up to the first difference. -/
inductive Compares (h : Heap) : Ref → Ref → Bool → Prop
  | atoms {a b : Ref} (hhold : a.holdBoth b = false) : Compares h a b (a.atomEqual b)
  | sameVector (v : VectorId) : Compares h (.vector v) (.vector v) true
  | lengths {v w : VectorId} (hne : v ≠ w) (hlen : (h.items v).length ≠ (h.items w).length) :
    Compares h (.vector v) (.vector w) false
  | items {v w : VectorId} (hne : v ≠ w) (hlen : (h.items v).length = (h.items w).length)
    (hall : ∀ (k : Nat) (a b : Ref), (h.items v)[k]? = some a → (h.items w)[k]? = some b →
      Compares h a b true) : Compares h (.vector v) (.vector w) true
  | item {v w : VectorId} (hne : v ≠ w) (hlen : (h.items v).length = (h.items w).length) {k : Nat}
    {a b : Ref} (ha : (h.items v)[k]? = some a) (hb : (h.items w)[k]? = some b)
    (hbefore : ∀ (j : Nat) (a b : Ref), j < k → (h.items v)[j]? = some a →
      (h.items w)[j]? = some b → Compares h a b true)
    (hdiffer : Compares h a b false) : Compares h (.vector v) (.vector w) false
  | head {p q : PairId} (hhead : Compares h (h.head p) (h.head q) false) :
    Compares h (.pair p) (.pair q) false
  | tail {p q : PairId} {r : Bool} (hhead : Compares h (h.head p) (h.head q) true)
    (htail : Compares h (h.tail p) (h.tail q) r) : Compares h (.pair p) (.pair q) r

/-- The same with one and the same pair passed over as equal to itself. -/
inductive Walks (h : Heap) : Ref → Ref → Bool → Prop
  | atoms {a b : Ref} (hhold : a.holdBoth b = false) : Walks h a b (a.atomEqual b)
  | sameVector (v : VectorId) : Walks h (.vector v) (.vector v) true
  | lengths {v w : VectorId} (hne : v ≠ w) (hlen : (h.items v).length ≠ (h.items w).length) :
    Walks h (.vector v) (.vector w) false
  | items {v w : VectorId} (hne : v ≠ w) (hlen : (h.items v).length = (h.items w).length)
    (hall : ∀ (k : Nat) (a b : Ref), (h.items v)[k]? = some a → (h.items w)[k]? = some b →
      Walks h a b true) : Walks h (.vector v) (.vector w) true
  | item {v w : VectorId} (hne : v ≠ w) (hlen : (h.items v).length = (h.items w).length) {k : Nat}
    {a b : Ref} (ha : (h.items v)[k]? = some a) (hb : (h.items w)[k]? = some b)
    (hbefore : ∀ (j : Nat) (a b : Ref), j < k → (h.items v)[j]? = some a →
      (h.items w)[j]? = some b → Walks h a b true)
    (hdiffer : Walks h a b false) : Walks h (.vector v) (.vector w) false
  | samePair (p : PairId) : Walks h (.pair p) (.pair p) true
  | head {p q : PairId} (hne : p ≠ q) (hhead : Walks h (h.head p) (h.head q) false) :
    Walks h (.pair p) (.pair q) false
  | tail {p q : PairId} {r : Bool} (hne : p ≠ q) (hhead : Walks h (h.head p) (h.head q) true)
    (htail : Walks h (h.tail p) (h.tail q) r) : Walks h (.pair p) (.pair q) r

variable {h : Heap} {a b c : Ref} {r : Bool}

/-- Slots that can each be compared, if all before it are equal, are all equal, or there is a first
that differs. -/
theorem first_difference {C : Ref → Ref → Bool → Prop} {as bs : List Ref} (n : Nat)
    (hslot : ∀ (k : Nat) (a b : Ref), k < n → as[k]? = some a → bs[k]? = some b →
      (∀ (j : Nat) (a b : Ref), j < k → as[j]? = some a → bs[j]? = some b → C a b true) →
      ∃ r, C a b r) :
    (∀ (k : Nat) (a b : Ref), k < n → as[k]? = some a → bs[k]? = some b → C a b true) ∨
      ∃ (k : Nat) (a b : Ref), as[k]? = some a ∧ bs[k]? = some b ∧
        (∀ (j : Nat) (a b : Ref), j < k → as[j]? = some a → bs[j]? = some b → C a b true) ∧
        C a b false := by
  induction n with
  | zero => exact .inl fun k _ _ hk => absurd hk (Nat.not_lt_zero k)
  | succ n ih =>
    rcases ih fun k a b hk => hslot k a b (Nat.lt_succ_of_lt hk) with hequal | hdiffer
    swap
    · exact .inr hdiffer
    by_cases hn : ∃ a b, as[n]? = some a ∧ bs[n]? = some b ∧ C a b false
    · obtain ⟨a, b, ha, hb, hdiffer⟩ := hn
      exact .inr ⟨n, a, b, ha, hb, hequal, hdiffer⟩
    · refine .inl fun k a b hk ha hb => ?_
      rcases Nat.lt_succ_iff_lt_or_eq.mp hk with hk | rfl
      · exact hequal k a b hk ha hb
      · obtain ⟨r, hr⟩ := hslot k a b (Nat.lt_succ_self k) ha hb hequal
        cases r with
        | true => exact hr
        | false => exact absurd ⟨a, b, ha, hb, hr⟩ hn

/-! Equality comes to an end, and with which answer, just if the walk does. -/

theorem itemsEqual?_eq_true {as bs : List Ref}
    (hall : ∀ (k : Nat) (a b : Ref), as[k]? = some a → bs[k]? = some b →
      h.equal? a b = some true) : h.itemsEqual? as bs = some true := by
  induction as generalizing bs with
  | nil => rw [itemsEqual?.eq_def]
  | cons a as ih =>
    cases bs with
    | nil => rw [itemsEqual?.eq_def]
    | cons b bs =>
      rw [itemsEqual?.eq_def]
      simp only [hall 0 a b rfl rfl, Option.bind_eq_bind, Option.bind_some, if_pos]
      exact ih fun k a b ha hb => hall (k + 1) a b ha hb

theorem itemsEqual?_eq_false {as bs : List Ref} {k : Nat} (ha : as[k]? = some a)
    (hb : bs[k]? = some b) (hbefore : ∀ (j : Nat) (a b : Ref), j < k → as[j]? = some a →
      bs[j]? = some b → h.equal? a b = some true) (hdiffer : h.equal? a b = some false) :
    h.itemsEqual? as bs = some false := by
  induction as generalizing bs k with
  | nil => cases ha
  | cons a' as ih =>
    cases bs with
    | nil => cases hb
    | cons b' bs =>
      rw [itemsEqual?.eq_def]
      cases k with
      | zero =>
        cases ha
        cases hb
        simp [hdiffer]
      | succ k =>
        simp only [hbefore 0 a' b' k.succ_pos rfl rfl, Option.bind_eq_bind, Option.bind_some,
          if_pos]
        exact ih ha hb fun j a b hj => hbefore (j + 1) a b (Nat.succ_lt_succ hj)

theorem equal?_of_atoms (hhold : a.holdBoth b = false) : h.equal? a b = some (a.atomEqual b) := by
  rw [equal?.eq_def]
  cases a <;> cases b <;> first | rfl | cases hhold

theorem equal?_pair (p q : PairId) : h.equal? (.pair p) (.pair q) = if p = q then some true else do
    if ← h.equal? (h.head p) (h.head q) then h.equal? (h.tail p) (h.tail q) else return false := by
  have hpairs (a b : Ref) : h.pairsEqual? a b = h.equal? a b := by
    cases a <;> cases b <;> first
      | exact pairsEqual?.eq_def h _ _
      | exact (equal?.eq_def h (.pair _) (.pair _)).symm
  rw [← hpairs, pairsEqual?.eq_def]
  simp only [hpairs]

theorem equal?_vector (v w : VectorId) : h.equal? (.vector v) (.vector w) =
    if v = w then some true
    else if (h.items v).length = (h.items w).length then h.itemsEqual? (h.items v) (h.items w)
    else some false :=
  equal?.eq_def h (.vector v) (.vector w)

theorem Walks.equal?_eq (hwalk : Walks h a b r) : h.equal? a b = some r := by
  induction hwalk with
  | atoms hhold => exact equal?_of_atoms hhold
  | sameVector v => rw [equal?_vector, if_pos rfl]
  | lengths hne hlen => rw [equal?_vector, if_neg hne, if_neg hlen]
  | items hne hlen _ ih =>
    rw [equal?_vector, if_neg hne, if_pos hlen, itemsEqual?_eq_true ih]
  | item hne hlen ha hb _ _ ihbefore ih =>
    rw [equal?_vector, if_neg hne, if_pos hlen, itemsEqual?_eq_false ha hb ihbefore ih]
  | samePair p => rw [equal?_pair, if_pos rfl]
  | head hne _ ih => simp [equal?_pair, hne, ih]
  | tail hne _ _ ihh iht => simp [equal?_pair, hne, ihh, iht]

/-- What comes out of the comparison of two lists of slots. -/
private def Slots (C : Ref → Ref → Bool → Prop) (as bs : List Ref) : Bool → Prop
  | true => ∀ (k : Nat) (a b : Ref), as[k]? = some a → bs[k]? = some b → C a b true
  | false => ∃ (k : Nat) (a b : Ref), as[k]? = some a ∧ bs[k]? = some b ∧
      (∀ (j : Nat) (a b : Ref), j < k → as[j]? = some a → bs[j]? = some b → C a b true) ∧
      C a b false

theorem walks_of_equal? (hequal : h.equal? a b = some r) : Walks h a b r := by
  have hall := equal?.mutual_partial_correctness h (Walks h) (Slots (Walks h)) (Walks h)
    ?_ ?_ ?_
  · exact hall.1 a b r hequal
  · intro items pairs ihitems ihpairs a b r hr
    by_cases hhold : a.holdBoth b = false
    · have hr' : a.atomEqual b = r := by
        cases a <;> cases b <;> first | exact Option.some.inj hr | cases hhold
      exact hr' ▸ .atoms hhold
    cases a <;> cases b <;> try exact absurd rfl hhold
    case pair.pair => exact ihpairs _ _ r hr
    case vector.vector v w =>
      simp only at hr
      split at hr
      · rename_i heq
        cases heq
        cases hr
        exact .sameVector v
      · rename_i hne
        split at hr
        · rename_i hlen
          have hslots := ihitems _ _ r hr
          cases r with
          | true => exact .items hne hlen hslots
          | false =>
            obtain ⟨k, a, b, ha, hb, hbefore, hdiffer⟩ := hslots
            exact .item hne hlen ha hb hbefore hdiffer
        · rename_i hlen
          cases hr
          exact .lengths hne hlen
  · intro equal items ihequal ihitems as bs r hr
    split at hr
    · rename_i a as b bs
      obtain ⟨first, hfirst, hrest⟩ := Option.bind_eq_some_iff.mp hr
      have hwalk := ihequal a b first hfirst
      cases first with
      | false =>
        cases hrest
        exact ⟨0, a, b, rfl, rfl, fun j _ _ hj => absurd hj (Nat.not_lt_zero j), hwalk⟩
      | true =>
        have hslots := ihitems as bs r hrest
        cases r with
        | true =>
          intro k a' b' ha hb
          cases k with
          | zero =>
            cases ha
            cases hb
            exact hwalk
          | succ k => exact hslots k a' b' ha hb
        | false =>
          obtain ⟨k, a', b', ha, hb, hbefore, hdiffer⟩ := hslots
          refine ⟨k + 1, a', b', ha, hb, fun j a'' b'' hj ha hb => ?_, hdiffer⟩
          cases j with
          | zero =>
            cases ha
            cases hb
            exact hwalk
          | succ j => exact hbefore j a'' b'' (Nat.lt_of_succ_lt_succ hj) ha hb
    · rename_i hshort
      cases hr
      intro k a b ha hb
      cases as with
      | nil => cases ha
      | cons a' as =>
        cases bs with
        | nil => cases hb
        | cons b' bs => exact (hshort a' as b' bs rfl rfl).elim
  · intro equal pairs ihequal ihpairs a b r hr
    split at hr
    · rename_i p q
      split at hr
      · rename_i heq
        cases heq
        cases hr
        exact .samePair p
      · rename_i hne
        obtain ⟨first, hfirst, hrest⟩ := Option.bind_eq_some_iff.mp hr
        have hwalk := ihequal _ _ first hfirst
        cases first with
        | false =>
          cases hrest
          exact .head hne hwalk
        | true => exact .tail hne hwalk (ihpairs _ _ r hrest)
    · exact ihequal a b r hr

theorem equal?_eq_some_iff : h.equal? a b = some r ↔ Walks h a b r :=
  ⟨walks_of_equal?, Walks.equal?_eq⟩

namespace Walks

theorem eq_atomEqual (hwalk : Walks h a b r) (hhold : a.holdBoth b = false) :
    a.atomEqual b = r := by
  cases hwalk <;> first | rfl | cases hhold

/-- A comparison goes the same way the other way round. -/
theorem symm (hwalk : Walks h a b r) : Walks h b a r := by
  induction hwalk with
  | atoms hhold =>
    rw [Ref.atomEqual_comm]
    exact .atoms (by rwa [Ref.holdBoth_comm])
  | sameVector v => exact .sameVector v
  | lengths hne hlen => exact .lengths hne.symm hlen.symm
  | items hne hlen _ ih => exact .items hne.symm hlen.symm fun k a b ha hb => ih k b a hb ha
  | item hne hlen ha hb _ _ ihbefore ih =>
    exact .item hne.symm hlen.symm hb ha (fun j a b hj ha hb => ihbefore j b a hj hb ha) ih
  | samePair p => exact .samePair p
  | head hne _ ih => exact .head hne.symm ih
  | tail hne _ _ ihh iht => exact .tail hne.symm ihh iht

theorem trans (hab : Walks h a b r) (hr : r = true) (hbc : Walks h b c true) :
    Walks h a c true := by
  induction hab generalizing c with
  | @atoms a b hhold =>
    obtain ⟨hac, hbc'⟩ := Ref.holdBoth_of_atomEqual hr c
    rw [← Ref.atomEqual_trans hr (hbc.eq_atomEqual hbc')]
    exact .atoms hac
  | sameVector v => exact hbc
  | lengths => cases hr
  | @items v w hne hlen hall ih =>
    cases hbc with
    | sameVector => exact .items hne hlen hall
    | @items _ u hne' hlen' hall' =>
      by_cases hvu : v = u
      · subst hvu
        exact .sameVector v
      refine .items hvu (hlen.trans hlen') fun k a c ha hc => ?_
      obtain ⟨hk, -⟩ := List.getElem?_eq_some_iff.mp ha
      have hb := List.getElem?_eq_getElem (hlen ▸ hk)
      exact ih k a _ ha hb rfl (hall' k _ c hb hc)
  | item => cases hr
  | samePair p => exact hbc
  | head => cases hr
  | @tail p q _ hne hhead htail ihh iht =>
    subst hr
    cases hbc with
    | samePair => exact .tail hne hhead htail
    | @tail _ u _ hne' hhead' htail' =>
      by_cases hpu : p = u
      · subst hpu
        exact .samePair p
      · exact .tail hpu (ihh rfl hhead') (iht rfl htail')

end Walks

theorem equal?_comm (a b : Ref) : h.equal? a b = h.equal? b a := by
  refine Option.ext fun r => ?_
  rw [equal?_eq_some_iff, equal?_eq_some_iff]
  exact ⟨Walks.symm, Walks.symm⟩

theorem equal?_trans (hab : h.equal? a b = some true) (hbc : h.equal? b c = some true) :
    h.equal? a c = some true :=
  equal?_eq_some_iff.mpr ((equal?_eq_some_iff.mp hab).trans rfl (equal?_eq_some_iff.mp hbc))

namespace Compares

theorem eq_atomEqual (hcompares : Compares h a b r) (hhold : a.holdBoth b = false) :
    a.atomEqual b = r := by
  cases hcompares <;> first | rfl | cases hhold

/-- The recursion has one answer. -/
theorem unique {r' : Bool} (hr : Compares h a b r) (hr' : Compares h a b r') : r = r' := by
  induction hr generalizing r' with
  | atoms hhold => exact hr'.eq_atomEqual hhold
  | sameVector v =>
    cases hr' with
    | atoms hhold => cases hhold
    | sameVector => rfl
    | lengths hne => exact absurd rfl hne
    | items hne => exact absurd rfl hne
    | item hne => exact absurd rfl hne
  | lengths hne hlen =>
    cases hr' with
    | atoms hhold => cases hhold
    | sameVector => exact absurd rfl hne
    | lengths => rfl
    | items _ hlen' => exact absurd hlen' hlen
    | item _ hlen' => exact absurd hlen' hlen
  | items hne hlen _ ih =>
    cases hr' with
    | atoms hhold => cases hhold
    | sameVector => rfl
    | lengths _ hlen' => exact absurd hlen hlen'
    | items => rfl
    | item _ _ ha hb _ hdiffer => exact ih _ _ _ ha hb hdiffer
  | @item v w hne hlen k a b ha hb _ _ ihbefore ih =>
    cases hr' with
    | atoms hhold => cases hhold
    | sameVector => exact absurd rfl hne
    | lengths _ hlen' => exact absurd hlen hlen'
    | items _ _ hall => exact ih (hall k a b ha hb)
    | item => rfl
  | head _ ih =>
    cases hr' with
    | atoms hhold => cases hhold
    | head => rfl
    | tail hhead => exact Bool.noConfusion (ih hhead)
  | tail _ _ ihh iht =>
    cases hr' with
    | atoms hhold => cases hhold
    | head hhead => exact Bool.noConfusion (ihh hhead)
    | tail _ htail => exact iht htail

end Compares

/-- A value that holds, down heads and tails, what is equal to nothing: a float that is no number,
or what can be called. -/
inductive Unlike (h : Heap) : Ref → Prop
  | atom {a : Ref} (hhold : a.holdBoth a = false) (hatom : a.atomEqual a = false) : Unlike h a
  | head {p : PairId} (hhead : Unlike h (h.head p)) : Unlike h (.pair p)
  | tail {p : PairId} (htail : Unlike h (h.tail p)) : Unlike h (.pair p)

theorem compares_self_of_atom (hhold : a.holdBoth a = false) :
    Compares h a a true ∨ Compares h a a false ∧ h.Unlike a := by
  have hcompares : Compares h a a (a.atomEqual a) := .atoms hhold
  cases hatom : a.atomEqual a with
  | true => exact .inl (hatom ▸ hcompares)
  | false => exact .inr ⟨hatom ▸ hcompares, .atom hhold hatom⟩

/-- Every value compares equal to itself, or holds what is equal to nothing. -/
theorem Founded.compares_self (hfounded : h.Founded) (a : Ref) :
    Compares h a a true ∨ Compares h a a false ∧ h.Unlike a := by
  induction hn : a.rank using Nat.strong_induction_on generalizing a with
  | _ n ih =>
    cases a with
    | pair p =>
      have hlt {m : Nat} (hm : m ≤ p.index) : m < n := hn ▸ Nat.lt_succ_of_le hm
      rcases ih _ (hlt (hfounded.head p)) _ rfl with hhead | ⟨hhead, hunlike⟩
      swap
      · exact .inr ⟨.head hhead, .head hunlike⟩
      rcases ih _ (hlt (hfounded.tail p)) _ rfl with htail | ⟨htail, hunlike⟩
      · exact .inl (.tail hhead htail)
      · exact .inr ⟨.tail hhead htail, .tail hunlike⟩
    | vector v => exact .inl (.sameVector v)
    | _ => exact compares_self_of_atom rfl

theorem Unlike.not_compares (hunlike : h.Unlike a) : ¬ Compares h a a true := by
  induction hunlike with
  | atom hhold hatom =>
    intro hcompares
    cases hatom.symm.trans (hcompares.eq_atomEqual hhold)
  | head _ ih =>
    intro hcompares
    cases hcompares with
    | tail hhead _ => exact ih hhead
  | tail _ ih =>
    intro hcompares
    cases hcompares with
    | tail _ htail => exact ih htail

theorem Founded.compares_self_iff (hfounded : h.Founded) : Compares h a a true ↔ ¬ h.Unlike a := by
  refine ⟨fun hcompares hunlike => hunlike.not_compares hcompares, fun hlike => ?_⟩
  rcases hfounded.compares_self a with hcompares | ⟨-, hunlike⟩
  · exact hcompares
  · exact absurd hunlike hlike

/-- Where the walk ends the recursion does, and it takes no difference back. -/
theorem Walks.exists_compares (hfounded : h.Founded) (hwalk : Walks h a b r) :
    ∃ r', Compares h a b r' ∧ (r = false → r' = false) := by
  induction hwalk with
  | atoms hhold => exact ⟨_, .atoms hhold, id⟩
  | sameVector v => exact ⟨true, .sameVector v, id⟩
  | lengths hne hlen => exact ⟨false, .lengths hne hlen, id⟩
  | @items v w hne hlen _ ih =>
    have hslots := first_difference (C := Compares h) (h.items v).length fun k a b _ ha hb _ =>
      (ih k a b ha hb).imp fun _ hr => hr.1
    rcases hslots with hall | ⟨k, a, b, ha, hb, hbefore, hdiffer⟩
    · refine ⟨true, .items hne hlen fun k a b ha hb => hall k a b ?_ ha hb, id⟩
      exact (List.getElem?_eq_some_iff.mp ha).1
    · exact ⟨false, .item hne hlen ha hb hbefore hdiffer, fun _ => rfl⟩
  | @item v w hne hlen k a b ha hb _ _ ihbefore ih =>
    obtain ⟨r, hr, hback⟩ := ih
    cases hback rfl
    have hslots := first_difference (C := Compares h) k fun j a b hj ha hb _ =>
      (ihbefore j a b hj ha hb).imp fun _ hr => hr.1
    rcases hslots with hall | ⟨j, a, b, ha, hb, hbefore, hdiffer⟩
    · exact ⟨false, .item hne hlen ha hb hall hr, id⟩
    · exact ⟨false, .item hne hlen ha hb hbefore hdiffer, id⟩
  | samePair p =>
    rcases hfounded.compares_self (.pair p) with hr | ⟨hr, -⟩
    · exact ⟨true, hr, id⟩
    · exact ⟨false, hr, fun _ => rfl⟩
  | head _ _ ih =>
    obtain ⟨r, hr, hback⟩ := ih
    cases hback rfl
    exact ⟨false, .head hr, id⟩
  | tail _ _ _ ihh iht =>
    obtain ⟨r, hr, -⟩ := ihh
    cases r with
    | false => exact ⟨false, .head hr, fun _ => rfl⟩
    | true =>
      obtain ⟨r', hr', hback⟩ := iht
      exact ⟨r', .tail hr hr', hback⟩

/-- The comparisons that are part of a comparison: of the heads of two different pairs, of their
tails if the heads are equal, and of the slots of two different vectors up to the first that
differs. -/
inductive Meets (h : Heap) : Ref × Ref → Ref × Ref → Prop
  | head {p q : PairId} (hne : p ≠ q) : Meets h (.pair p, .pair q) (h.head p, h.head q)
  | tail {p q : PairId} (hne : p ≠ q) (hhead : h.equal? (h.head p) (h.head q) = some true) :
    Meets h (.pair p, .pair q) (h.tail p, h.tail q)
  | item {v w : VectorId} (hne : v ≠ w) (hlen : (h.items v).length = (h.items w).length) {k : Nat}
    {a b : Ref} (ha : (h.items v)[k]? = some a) (hb : (h.items w)[k]? = some b)
    (hbefore : ∀ (j : Nat) (a b : Ref), j < k → (h.items v)[j]? = some a →
      (h.items w)[j]? = some b → h.equal? a b = some true) :
    Meets h (.vector v, .vector w) (a, b)

/-- In comparing two values the loop comes to a pair in which both go on, and passes over it. -/
def PassesOver (h : Heap) (a b : Ref) (p : PairId) : Prop :=
  Relation.ReflTransGen h.Meets (a, b) (.pair p, .pair p)

theorem PassesOver.of_part {x y : Ref × Ref} {p : PairId} (hxy : h.Meets x y)
    (hp : h.PassesOver y.1 y.2 p) : h.PassesOver x.1 x.2 p :=
  .head hxy hp

/-- What compares equal does so in every part. -/
theorem Compares.part {x y : Ref × Ref} (hxy : h.Meets x y) (hx : Compares h x.1 x.2 true) :
    Compares h y.1 y.2 true := by
  cases hxy with
  | head hne =>
    cases hx with
    | tail hhead _ => exact hhead
  | tail hne _ =>
    cases hx with
    | tail _ htail => exact htail
  | item hne hlen ha hb _ =>
    cases hx with
    | sameVector => exact absurd rfl hne
    | items _ _ hall => exact hall _ _ _ ha hb

theorem Compares.passed (hab : Compares h a b true) {p : PairId} (hp : h.PassesOver a b p) :
    Compares h (.pair p) (.pair p) true := by
  have hall {x : Ref × Ref} (hx : Relation.ReflTransGen h.Meets (a, b) x) :
      Compares h x.1 x.2 true := by
    induction hx with
    | refl => exact hab
    | tail _ hmeets ih => exact ih.part hmeets
  exact hall hp

/-- Where all that is passed over compares equal to itself, what the walk finds equal compares
equal. -/
theorem Walks.compares (hwalk : Walks h a b r) (hr : r = true)
    (hpassed : ∀ p, h.PassesOver a b p → Compares h (.pair p) (.pair p) true) :
    Compares h a b true := by
  induction hwalk with
  | atoms hhold => exact hr ▸ .atoms hhold
  | sameVector v => exact .sameVector v
  | lengths => cases hr
  | items hne hlen hall ih =>
    refine .items hne hlen fun k a b ha hb => ih k a b ha hb rfl fun p hp => hpassed p ?_
    exact .of_part (.item hne hlen ha hb fun j a b _ ha hb => (hall j a b ha hb).equal?_eq) hp
  | item => cases hr
  | samePair p => exact hpassed p .refl
  | head => cases hr
  | tail hne hhead htail ihh iht =>
    refine .tail (ihh rfl fun p hp => hpassed p (.of_part (.head hne) hp)) ?_
    exact iht hr fun p hp => hpassed p (.of_part (.tail hne hhead.equal?_eq) hp)

/-- Equality answers like the recursion just if it finds a difference, or passes over no pair that
holds what is equal to nothing. -/
theorem Founded.compares_iff (hfounded : h.Founded) (hequal : h.equal? a b = some r) :
    Compares h a b r ↔ r = false ∨ ∀ p, h.PassesOver a b p → ¬ h.Unlike (.pair p) := by
  have hwalk := walks_of_equal? hequal
  constructor
  · intro hcompares
    cases r with
    | false => exact .inl rfl
    | true => exact .inr fun p hp => hfounded.compares_self_iff.mp (hcompares.passed hp)
  · intro hpassed
    cases r with
    | false =>
      obtain ⟨r, hr, hback⟩ := hwalk.exists_compares hfounded
      exact hback rfl ▸ hr
    | true =>
      refine hwalk.compares rfl fun p hp => hfounded.compares_self_iff.mpr ?_
      exact (hpassed.resolve_left Bool.noConfusion) p hp

end Heap

end Lisplet
