import Lisplet.Proofs.Equality
import Mathlib.Data.Finset.Card
import Mathlib.Data.Finset.Prod

/-! Equality and trees. A comparison comes to an end unless it gets into two vectors that are both
reached from themselves, and data is equal just if it unfolds to one tree. -/
namespace Lisplet

namespace Heap

variable {h : Heap} {a b c : Ref} {r : Bool}

inductive Has (h : Heap) : Ref → Ref → Prop
  | head (p : PairId) : Has h (.pair p) (h.head p)
  | tail (p : PairId) : Has h (.pair p) (h.tail p)
  | item {v : VectorId} {a : Ref} (ha : a ∈ h.items v) : Has h (.vector v) a

theorem Meets.has {x y : Ref × Ref} (hxy : h.Meets x y) : h.Has x.1 y.1 ∧ h.Has x.2 y.2 := by
  cases hxy with
  | head _ => exact ⟨.head _, .head _⟩
  | tail _ _ => exact ⟨.tail _, .tail _⟩
  | item _ _ ha hb _ => exact ⟨.item (List.mem_of_getElem? ha), .item (List.mem_of_getElem? hb)⟩

/-- A relation has no endless paths from where none comes twice to one of finitely many places, if
it goes down wherever it stays away from them. -/
theorem acc_of_places {X K : Type} [DecidableEq K] {R : X → X → Prop} (place : X → Option K)
    (places : Finset K) (rank : X → Nat)
    (hplaces : ∀ {x y k}, R x y → place x = some k → k ∈ places)
    (hrank : ∀ {x y}, R x y → place x = none → place y = none → rank y < rank x) {x : X}
    (honce : ∀ y z k, Relation.ReflTransGen R x y → place y = some k → Relation.TransGen R y z →
      place z ≠ some k) :
    Acc (fun y x => R x y) x := by
  -- The places in `met` are those that the path has been to.
  have hall (n : Nat) (met : Finset K) (hn : (places \ met).card = n) (x : X)
      (honce : ∀ y z k, Relation.ReflTransGen R x y → place y = some k →
        Relation.TransGen R y z → place z ≠ some k)
      (hmet : ∀ y k, Relation.ReflTransGen R x y → place y = some k → k ∉ met) :
      Acc (fun y x => R x y) x := by
    induction n using Nat.strong_induction_on generalizing met x with
    | _ n ih =>
      have hplaced (x : X) (honce : ∀ y z k, Relation.ReflTransGen R x y → place y = some k →
            Relation.TransGen R y z → place z ≠ some k)
          (hmet : ∀ y k, Relation.ReflTransGen R x y → place y = some k → k ∉ met) {k : K}
          (hk : place x = some k) : Acc (fun y x => R x y) x := by
        refine .intro x fun y hxy => ?_
        have hnew : k ∈ places \ met := Finset.mem_sdiff.mpr ⟨hplaces hxy hk, hmet x k .refl hk⟩
        have hless : (places \ insert k met).card < n := by
          rw [← hn, Finset.sdiff_insert]
          exact Finset.card_erase_lt_of_mem hnew
        refine ih _ hless _ rfl y (fun z z' l hz => honce z z' l (.head hxy hz)) ?_
        intro z l hz hl hmem
        rcases Finset.mem_insert.mp hmem with rfl | hmem
        · exact honce x z l .refl hk (.head' hxy hz) hl
        · exact hmet z l (.head hxy hz) hl hmem
      induction hm : rank x using Nat.strong_induction_on generalizing x with
      | _ m ihrank =>
        cases hx : place x with
        | some k => exact hplaced x honce hmet hx
        | none =>
          refine .intro x fun y hxy => ?_
          have honce' := fun z z' l hz => honce z z' l (.head hxy hz)
          have hmet' := fun z l hz => hmet z l (.head hxy hz)
          cases hy : place y with
          | some k => exact hplaced y honce' hmet' hy
          | none => exact ihrank _ (hm ▸ hrank hxy hx hy) y honce' hmet' rfl
  exact hall _ ∅ rfl x honce fun _ _ _ _ => Finset.notMem_empty _

def vectorIds (h : Heap) : Finset VectorId := (Finset.range h.vectors.size).image VectorId.mk

theorem mem_vectorIds {v : VectorId} (ha : a ∈ h.items v) : v ∈ h.vectorIds := by
  refine Finset.mem_image.mpr ⟨v.index, Finset.mem_range.mpr ?_, rfl⟩
  by_contra hle
  simp [items, Array.getD_eq_getD_getElem?, Array.getElem?_eq_none (Nat.le_of_not_lt hle)] at ha

/-- No two different vectors are compared that are both reached from themselves. -/
def Unentangled (h : Heap) (a b : Ref) : Prop :=
  ∀ v w, Relation.ReflTransGen h.Meets (a, b) (.vector v, .vector w) → v ≠ w →
    ¬ (Relation.TransGen h.Has (.vector v) (.vector v) ∧
      Relation.TransGen h.Has (.vector w) (.vector w))

private def vectorsOf : Ref × Ref → Option (VectorId × VectorId)
  | (.vector v, .vector w) => some (v, w)
  | _ => none

theorem Unentangled.acc (hfounded : h.Founded) (hfree : h.Unentangled a b) :
    Acc (fun y x => h.Meets x y) (a, b) := by
  refine acc_of_places vectorsOf (h.vectorIds ×ˢ h.vectorIds) (fun x => x.1.rank) ?_ ?_ ?_
  · intro x y k hxy hk
    cases hxy with
    | head => cases hk
    | tail => cases hk
    | item _ _ ha hb _ =>
      cases hk
      exact Finset.mem_product.mpr ⟨mem_vectorIds (List.mem_of_getElem? ha),
        mem_vectorIds (List.mem_of_getElem? hb)⟩
  · intro x y hxy hx _
    cases hxy with
    | head => exact Nat.lt_succ_of_le (hfounded.head _)
    | tail => exact Nat.lt_succ_of_le (hfounded.tail _)
    | item => cases hx
  · intro x y k hx hk hxy hback
    have hvectors {x : Ref × Ref} {v w : VectorId} (hk : vectorsOf x = some (v, w)) :
        x = (.vector v, .vector w) := by
      obtain ⟨x, y⟩ := x
      cases x <;> cases y <;> cases hk
      rfl
    cases hvectors hk
    cases hvectors hback
    have hne : k.1 ≠ k.2 := by
      obtain ⟨z, hz, -⟩ := Relation.TransGen.head'_iff.mp hxy
      cases hz with
      | item hne => exact hne
    refine hfree _ _ hx hne ⟨?_, ?_⟩
    · exact hxy.lift Prod.fst fun _ _ hxy => hxy.has.1
    · exact hxy.lift Prod.snd fun _ _ hxy => hxy.has.2

/-- A comparison ends if no path of its parts goes on forever. -/
theorem exists_walks {x : Ref × Ref} (hx : Acc (fun y x => h.Meets x y) x) :
    ∃ r, Walks h x.1 x.2 r := by
  induction hx with
  | intro x hx ih =>
    obtain ⟨a, b⟩ := x
    by_cases hhold : a.holdBoth b = false
    · exact ⟨_, .atoms hhold⟩
    cases a <;> cases b <;> try exact absurd rfl hhold
    case pair.pair p q =>
      by_cases hne : p = q
      · exact hne ▸ ⟨true, .samePair p⟩
      obtain ⟨r, hhead⟩ := ih _ (.head hne)
      cases r with
      | false => exact ⟨false, .head hne hhead⟩
      | true =>
        obtain ⟨r, htail⟩ := ih _ (.tail hne hhead.equal?_eq)
        exact ⟨r, .tail hne hhead htail⟩
    case vector.vector v w =>
      by_cases hne : v = w
      · exact hne ▸ ⟨true, .sameVector v⟩
      by_cases hlen : (h.items v).length = (h.items w).length
      swap
      · exact ⟨false, .lengths hne hlen⟩
      have hslots := first_difference (C := Walks h) (h.items v).length
        fun k a b _ ha hb hbefore => ih _ <|
          .item hne hlen ha hb fun j a b hj ha hb => (hbefore j a b hj ha hb).equal?_eq
      rcases hslots with hall | ⟨k, a, b, ha, hb, hbefore, hdiffer⟩
      · refine ⟨true, .items hne hlen fun k a b ha hb => hall k a b ?_ ha hb⟩
        exact (List.getElem?_eq_some_iff.mp ha).1
      · exact ⟨false, .item hne hlen ha hb hbefore hdiffer⟩

/-- Finite trees of data. -/
inductive Tree where
  | integer (n : Int64)
  | string (s : String)
  | boolean (b : Bool)
  | symbol (name : String)
  | nil
  | pair (head tail : Tree)
  | vector (items : List Tree)
deriving Inhabited

/-- A value unfolds to a tree in which each pair and each vector stands with what is in it. -/
inductive Unfolds (h : Heap) : Ref → Tree → Prop
  | integer (n : Int64) : Unfolds h (.integer n) (.integer n)
  | string (s : String) : Unfolds h (.string s) (.string s)
  | boolean (b : Bool) : Unfolds h (.boolean b) (.boolean b)
  | symbol (name : String) : Unfolds h (.symbol name) (.symbol name)
  | nil : Unfolds h .nil .nil
  | pair {p : PairId} {t u : Tree} (hhead : Unfolds h (h.head p) t)
    (htail : Unfolds h (h.tail p) u) : Unfolds h (.pair p) (.pair t u)
  | vector {v : VectorId} {ts : List Tree} (hlen : (h.items v).length = ts.length)
    (hall : ∀ (k : Nat) (a : Ref) (t : Tree), (h.items v)[k]? = some a → ts[k]? = some t →
      Unfolds h a t) : Unfolds h (.vector v) (.vector ts)

/-- A value unfolds to one tree only. -/
theorem Unfolds.unique {t u : Tree} (ht : Unfolds h a t) (hu : Unfolds h a u) : t = u := by
  induction ht generalizing u with
  | pair _ _ ihh iht =>
    cases hu with
    | pair hhead htail => rw [ihh hhead, iht htail]
  | @vector v ts hlen _ ih =>
    cases hu with
    | @vector _ us hlen' hall =>
      refine congrArg Tree.vector (List.ext_getElem (hlen.symm.trans hlen') fun k hk hk' => ?_)
      have ha := List.getElem?_eq_getElem (hlen ▸ hk)
      exact ih k _ _ ha (List.getElem?_eq_getElem hk) (hall k _ _ ha (List.getElem?_eq_getElem hk'))
  | _ =>
    cases hu
    rfl

/-- Data from which only data is reached, and no vector that is reached from itself. -/
structure Plain (h : Heap) (a : Ref) : Prop where
  data (b : Ref) (hb : Relation.ReflTransGen h.Has a b) : b.isData = true
  acyclic (v : VectorId) (hv : Relation.ReflTransGen h.Has a (.vector v)) :
    ¬ Relation.TransGen h.Has (.vector v) (.vector v)

namespace Plain

theorem part (ha : h.Plain a) (hb : h.Has a b) : h.Plain b :=
  ⟨fun c hc => ha.data c (.head hb hc), fun v hv => ha.acyclic v (.head hb hv)⟩

theorem of_parts (ha : a.isData = true) (hparts : ∀ b, h.Has a b → h.Plain b) :
    h.Plain a := by
  refine ⟨fun c hc => ?_, fun v hv hback => ?_⟩
  · rcases Relation.ReflTransGen.cases_head_iff.mp hc with rfl | ⟨b, hb, hc⟩
    · exact ha
    · exact (hparts b hb).data c hc
  · rcases Relation.ReflTransGen.cases_head_iff.mp hv with rfl | ⟨b, hb, hv⟩
    · obtain ⟨b, hb, hv⟩ := Relation.TransGen.head'_iff.mp hback
      exact (hparts b hb).acyclic v hv hback
    · exact (hparts b hb).acyclic v hv hback

theorem of_unfolds {t : Tree} (ht : Unfolds h a t) : h.Plain a := by
  induction ht with
  | pair _ _ ihh iht =>
    refine of_parts rfl fun b hb => ?_
    cases hb with
    | head => exact ihh
    | tail => exact iht
  | vector hlen _ ih =>
    refine of_parts rfl fun b hb => ?_
    cases hb with
    | item hb =>
      obtain ⟨k, hk⟩ := List.mem_iff_getElem?.mp hb
      obtain ⟨hlt, -⟩ := List.getElem?_eq_some_iff.mp hk
      exact ih k b _ hk (List.getElem?_eq_getElem (hlen ▸ hlt))
  | _ => exact of_parts rfl (by rintro b ⟨⟩)

private def vectorOf : Ref → Option VectorId
  | .vector v => some v
  | _ => none

private theorem eq_of_vectorOf {v : VectorId} (ha : vectorOf a = some v) : a = .vector v := by
  cases a <;> cases ha
  rfl

theorem acc (hfounded : h.Founded) (ha : h.Plain a) : Acc (fun b a => h.Has a b) a := by
  refine acc_of_places vectorOf h.vectorIds Ref.rank ?_ ?_ ?_
  · intro a b v hab hv
    cases eq_of_vectorOf hv
    cases hab with
    | item hb => exact mem_vectorIds hb
  · intro a b hab hv _
    cases hab with
    | head p => exact Nat.lt_succ_of_le (hfounded.head p)
    | tail p => exact Nat.lt_succ_of_le (hfounded.tail p)
    | item => cases hv
  · intro b c v hab hv hbc hback
    cases eq_of_vectorOf hv
    cases eq_of_vectorOf hback
    exact ha.acyclic v hab hbc

/-- Plain data unfolds, since no path into it goes on forever. -/
theorem exists_unfolds (hfounded : h.Founded) (ha : h.Plain a) : ∃ t, Unfolds h a t := by
  induction ha.acc hfounded with
  | intro a hacc ih =>
    have hparts (b : Ref) (hb : h.Has a b) : ∃ t, Unfolds h b t := ih b hb (ha.part hb)
    have hdata := ha.data a .refl
    cases a with
    | integer n => exact ⟨_, .integer n⟩
    | string s => exact ⟨_, .string s⟩
    | boolean b => exact ⟨_, .boolean b⟩
    | symbol name => exact ⟨_, .symbol name⟩
    | nil => exact ⟨_, .nil⟩
    | pair p =>
      obtain ⟨t, ht⟩ := hparts _ (.head p)
      obtain ⟨u, hu⟩ := hparts _ (.tail p)
      exact ⟨.pair t u, .pair ht hu⟩
    | vector v =>
      have hitems : ∀ b ∈ h.items v, ∃ t, Unfolds h b t := fun b hb => hparts b (.item hb)
      choose! tree htree using hitems
      refine ⟨.vector ((h.items v).map tree), .vector (by simp) fun k b t hb ht => ?_⟩
      rw [List.getElem?_map, hb] at ht
      cases ht
      exact htree b (List.mem_of_getElem? hb)
    | _ => cases hdata

/-- Plain data is what unfolds to a finite tree. -/
theorem iff_unfolds (hfounded : h.Founded) : h.Plain a ↔ ∃! t, Unfolds h a t := by
  constructor
  · intro ha
    obtain ⟨t, ht⟩ := ha.exists_unfolds hfounded
    exact ⟨t, ht, fun u hu => hu.unique ht⟩
  · rintro ⟨t, ht, -⟩
    exact of_unfolds ht

/-- Comparisons with plain data end. -/
theorem unentangled (ha : h.Plain a) (b : Ref) : h.Unentangled a b :=
  fun v _ hvw _ hself => ha.acyclic v (hvw.lift Prod.fst fun _ _ hxy => hxy.has.1) hself.1

theorem not_unlike (ha : h.Plain a) : ¬ h.Unlike a := by
  intro hunlike
  induction hunlike with
  | atom hhold hatom =>
    have hself := (Ref.atomEqual_iff (ha.data _ .refl) hhold).mpr rfl
    cases hself.symm.trans hatom
  | head _ ih => exact ih (ha.part (.head _))
  | tail _ ih => exact ih (ha.part (.tail _))

/-- Plain data compares as equality answers. -/
theorem compares (hfounded : h.Founded) (ha : h.Plain a) (hequal : h.equal? a b = some r) :
    Compares h a b r := by
  refine (hfounded.compares_iff hequal).mpr (.inr fun p hp => ?_)
  have hreach : Relation.ReflTransGen h.Has a (.pair p) :=
    hp.lift Prod.fst fun _ _ hxy => hxy.has.1
  exact not_unlike ⟨fun b hb => ha.data b (hreach.trans hb),
    fun v hv => ha.acyclic v (hreach.trans hv)⟩

end Plain

/-- What unfolds to one tree is what compares equal. -/
theorem Compares.unfolds_iff (hcompares : Compares h a b r) {t : Tree} (ht : Unfolds h a t) :
    Unfolds h b t ↔ r = true := by
  induction hcompares generalizing t with
  | atoms hhold =>
    rw [Ref.atomEqual_iff ((Plain.of_unfolds ht).data _ .refl) hhold]
    refine ⟨fun hb => ?_, fun heq => heq ▸ ht⟩
    cases ht <;> cases hb <;> first | rfl | cases hhold
  | sameVector v => exact iff_of_true ht rfl
  | lengths hne hlen =>
    cases ht with
    | vector hlen' =>
      refine iff_of_false (fun hb => ?_) nofun
      cases hb with
      | vector hlen'' => exact hlen (hlen'.trans hlen''.symm)
  | items hne hlen _ ih =>
    cases ht with
    | vector hlen' hall =>
      refine iff_of_true (.vector (hlen.symm.trans hlen') fun k b t hb ht => ?_) rfl
      obtain ⟨hk, -⟩ := List.getElem?_eq_some_iff.mp hb
      have ha := List.getElem?_eq_getElem (hlen ▸ hk)
      exact (ih k _ b ha hb (hall k _ t ha ht)).mpr rfl
  | @item v w hne hlen k a b ha hb _ _ _ ih =>
    cases ht with
    | @vector _ ts hlen' hall =>
      refine iff_of_false (fun hb' => ?_) nofun
      obtain ⟨hk, -⟩ := List.getElem?_eq_some_iff.mp ha
      have ht := List.getElem?_eq_getElem (l := ts) (hlen' ▸ hk)
      cases hb' with
      | vector _ hall' => cases (ih (hall k a _ ha ht)).mp (hall' k b _ hb ht)
  | head _ ih =>
    cases ht with
    | pair hhead _ =>
      refine iff_of_false (fun hb => ?_) nofun
      cases hb with
      | pair hhead' _ => cases (ih hhead).mp hhead'
  | tail _ _ ihh iht =>
    cases ht with
    | pair hhead htail =>
      rw [← iht htail]
      refine ⟨fun hb => ?_, fun hb => .pair ((ihh hhead).mpr rfl) hb⟩
      cases hb with
      | pair _ htail' => exact htail'

/-- Equality ends where no two different vectors are compared that are both reached from
themselves. -/
theorem Unentangled.exists_equal (hfounded : h.Founded) (hfree : h.Unentangled a b) :
    ∃ r, h.equal? a b = some r := by
  obtain ⟨r, hwalk⟩ := exists_walks (hfree.acc hfounded)
  exact ⟨r, hwalk.equal?_eq⟩

/-- Equality is symmetric and transitive, and ends where no two different vectors are compared that
are both reached from themselves. Plain data is equal just to what unfolds to the same tree. Where
equality ends, the recursive comparison of heads and tails does, and the two answers are the same
just if there is a difference, or no pair that is passed over holds what is equal to nothing. -/
theorem equal_matches_structure (h : Heap) (hfounded : h.Founded) :
    (∀ a b, h.equal? a b = h.equal? b a) ∧
    (∀ a b c, h.equal? a b = some true → h.equal? b c = some true → h.equal? a c = some true) ∧
    (∀ a b, h.Unentangled a b → ∃ r, h.equal? a b = some r) ∧
    (∀ a, h.Plain a ↔ ∃! t, Unfolds h a t) ∧
    (∀ a b, h.Plain a → ∃ r, h.equal? a b = some r ∧
      (r = true ↔ ∃ t, Unfolds h a t ∧ Unfolds h b t)) ∧
    ∀ a b r, h.equal? a b = some r → (∃! r', Compares h a b r') ∧
      (Compares h a b r ↔ r = false ∨ ∀ p, h.PassesOver a b p → ¬ h.Unlike (.pair p)) := by
  refine ⟨equal?_comm, fun _ _ _ => equal?_trans, fun _ _ hfree => hfree.exists_equal hfounded,
    fun _ => Plain.iff_unfolds hfounded, fun a b ha => ?_, fun a b r hequal => ⟨?_, ?_⟩⟩
  · obtain ⟨r, hequal⟩ := (ha.unentangled b).exists_equal hfounded
    obtain ⟨t, ht, honly⟩ := (Plain.iff_unfolds hfounded).mp ha
    refine ⟨r, hequal, ?_⟩
    rw [← (ha.compares hfounded hequal).unfolds_iff ht]
    refine ⟨fun hb => ⟨t, ht, hb⟩, ?_⟩
    rintro ⟨u, hu, hb⟩
    exact honly u hu ▸ hb
  · obtain ⟨r', hr', -⟩ := (walks_of_equal? hequal).exists_compares hfounded
    exact ⟨r', hr', fun r'' hr'' => hr''.unique hr'⟩
  · exact hfounded.compares_iff hequal

/-- Two vectors with lists of the same number are equal, as they unfold to the same tree; nothing is
passed over. -/
theorem equal_matches_structure_vectors :
    let h : Heap := ⟨#[(.integer 7, .nil), (.integer 7, .nil)], #[#[.pair ⟨0⟩], #[.pair ⟨1⟩]]⟩
    h.Founded ∧ h.Plain (.vector ⟨0⟩) ∧ h.equal? (.vector ⟨0⟩) (.vector ⟨1⟩) = some true := by
  intro h
  have hfounded : h.Founded := by decide
  obtain ⟨-, -, -, hplain, htrees, -⟩ := equal_matches_structure h hfounded
  have hlist (p : PairId) (hp : p.index < 2) :
      Unfolds h (.pair p) (.pair (.integer 7) .nil) := by
    obtain ⟨i⟩ := p
    match i with
    | 0 => exact .pair (.integer 7) .nil
    | 1 => exact .pair (.integer 7) .nil
  have hvector (i : Nat) (hi : i < 2) :
      Unfolds h (.vector ⟨i⟩) (.vector [.pair (.integer 7) .nil]) := by
    have hitems : h.items ⟨i⟩ = [.pair ⟨i⟩] := by
      match i with
      | 0 => rfl
      | 1 => rfl
    refine .vector (by rw [hitems]; rfl) fun k a t ha ht => ?_
    rw [hitems] at ha
    cases k with
    | zero =>
      cases ha
      cases ht
      exact hlist ⟨i⟩ hi
    | succ k => cases ha
  have hplain₀ : h.Plain (.vector ⟨0⟩) :=
    (hplain _).mpr ⟨_, hvector 0 (by decide), fun t ht => ht.unique (hvector 0 (by decide))⟩
  obtain ⟨r, hequal, hr⟩ := htrees (.vector ⟨0⟩) (.vector ⟨1⟩) hplain₀
  obtain rfl := hr.mpr ⟨_, hvector 0 (by decide), hvector 1 (by decide)⟩
  exact ⟨hfounded, hplain₀, hequal⟩

/-- A list of a function is equal to itself, though its head is not. -/
theorem equal_passes_over :
    let car : Ref := .function "car" (.exact 1) (.primitive .head)
    let h : Heap := ⟨#[(car, .nil)], #[]⟩
    h.Founded ∧ h.equal? car car = some false ∧ h.equal? (.pair ⟨0⟩) (.pair ⟨0⟩) = some true ∧
      Compares h (.pair ⟨0⟩) (.pair ⟨0⟩) false ∧ ¬ Compares h (.pair ⟨0⟩) (.pair ⟨0⟩) true := by
  intro car h
  have hcar : Compares h car car false := .atoms rfl
  have hlist : Compares h (.pair ⟨0⟩) (.pair ⟨0⟩) false := .head hcar
  refine ⟨by decide, equal?_of_atoms rfl, (Walks.samePair _).equal?_eq, hlist, fun hequal => ?_⟩
  cases hlist.unique hequal

end Heap

end Lisplet
