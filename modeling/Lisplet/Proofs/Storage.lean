import Lisplet.Environment
import Lisplet.Proofs.Equality
import Lisplet.Proofs.Vectors

/-! How values are stored. A heap only gains pairs, each made of what was there, and its vectors
hold what those of the store hold. Primitives keep it so. -/
namespace Lisplet

namespace Heap

/-- The pairs of one heap are in the other, where they were. -/
instance : Preorder Heap where
  le h h' := h.pairs.size ≤ h'.pairs.size ∧ ∀ i < h.pairs.size, h'.pairs[i]? = h.pairs[i]?
  le_refl _ := ⟨le_rfl, fun _ _ => rfl⟩
  le_trans _ _ _ h h' :=
    ⟨h.1.trans h'.1, fun i hi => (h'.2 i (hi.trans_le h.1)).trans (h.2 i hi)⟩

/-- A reference stands for a value: what it leads to, pair by pair, is what the value consists of.
The contents of vectors are kept elsewhere. -/
inductive Stores (h : Heap) : Ref → Value → Prop
  | integer (n : Int64) : Stores h (.integer n) (.integer n)
  | float (x : Float) : Stores h (.float x) (.float x)
  | string (s : String) : Stores h (.string s) (.string s)
  | boolean (b : Bool) : Stores h (.boolean b) (.boolean b)
  | symbol (name : String) : Stores h (.symbol name) (.symbol name)
  | function (name : String) (arity : Arity) (body : Procedure) :
    Stores h (.function name arity body) (.function name arity body)
  | special (form : SpecialForm) : Stores h (.special form) (.special form)
  | closure (id : ClosureId) : Stores h (.closure id) (.closure id)
  | nil : Stores h .nil .nil
  | vector (id : VectorId) : Stores h (.vector id) (.vector id)
  | pair {p : PairId} {a b : Value} (hp : p.index < h.pairs.size) (hhead : Stores h (h.head p) a)
    (htail : Stores h (h.tail p) b) : Stores h (.pair p) (.pair a b)
  | tailCall {refs : List Ref} {args : Value} (hlen : refs.length = args.heads.length)
    (hall : ∀ (k : Nat) (r : Ref) (v : Value), refs[k]? = some r → args.heads[k]? = some v →
      Stores h r v) : Stores h (.tailCall refs) (.tailCall args)

/-- The vectors of a heap hold what those of a store hold. -/
structure Mirrors (h : Heap) (s : Store) : Prop where
  founded : h.Founded
  size : h.vectors.size = s.vectors.size
  items (id : VectorId) : List.Forall₂ h.Stores (h.items id) (s.items id).toList

/-- What references are bound to stands for what the same names are bound to. -/
def Describes (h : Heap) (refs : Bindings Ref) (b : Bindings) : Prop :=
  ∀ name r, refs.find? name = some r → ∃ v, b.find? name = some v ∧ h.Stores r v

variable {h h' : Heap} {s t : Store} {r : Ref} {v : Value}

theorem head_of_le (hle : h ≤ h') {p : PairId} (hp : p.index < h.pairs.size) :
    h'.head p = h.head p ∧ h'.tail p = h.tail p := by
  simp only [head, tail, Array.getD_eq_getD_getElem?, hle.2 p.index hp, and_self]

namespace Stores

theorem mono (hle : h ≤ h') (hr : h.Stores r v) : h'.Stores r v := by
  induction hr with
  | pair hp _ _ ihh iht =>
    obtain ⟨hhead, htail⟩ := head_of_le hle hp
    exact .pair (hp.trans_le hle.1) (hhead ▸ ihh) (htail ▸ iht)
  | tailCall hlen _ ih => exact .tailCall hlen ih
  | _ => constructor

theorem rank_le (hr : h.Stores r v) : r.rank ≤ h.pairs.size := by
  cases hr with
  | pair hp => exact hp
  | _ => exact Nat.zero_le _

theorem tailCall_iff {refs : List Ref} {args : Value} :
    h.Stores (.tailCall refs) (.tailCall args) ↔ List.Forall₂ h.Stores refs args.heads := by
  rw [List.forall₂_iff_get]
  constructor
  · rintro (_ | _)
    rename_i hlen hall
    refine ⟨hlen, fun k hk hk' => hall k _ _ ?_ ?_⟩ <;> simp
  · rintro ⟨hlen, hall⟩
    refine .tailCall hlen fun k r v hr hv => ?_
    obtain ⟨hk, rfl⟩ := List.getElem?_eq_some_iff.mp hr
    obtain ⟨hk', rfl⟩ := List.getElem?_eq_some_iff.mp hv
    exact hall k hk hk'

/-- The elements of a list are found along the chain of its pairs. -/
theorem heads (hr : h.Stores r v) :
    List.Forall₂ h.Stores (h.heads v.heads.length r) v.heads := by
  induction hr with
  | pair hp hhead _ _ iht =>
    rw [Value.heads_pair]
    exact .cons hhead iht
  | _ => exact .nil

end Stores

theorem Describes.mono {refs : Bindings Ref} {b : Bindings} (hle : h ≤ h')
    (hb : h.Describes refs b) : h'.Describes refs b :=
  fun name r hr => (hb name r hr).imp fun _ hv => ⟨hv.1, hv.2.mono hle⟩

theorem Describes.insert {refs : Bindings Ref} {b : Bindings} (hb : h.Describes refs b)
    (name : String) (hr : h.Stores r v) :
    h.Describes (refs.insert name r) (b.insert name v) := by
  intro name' r' hr'
  by_cases hname : name = name'
  · subst hname
    rw [Bindings.find?_insert_self] at hr'
    cases hr'
    exact ⟨v, Bindings.find?_insert_self name v b, hr⟩
  · rw [Bindings.find?_insert_of_ne r refs hname] at hr'
    rw [Bindings.find?_insert_of_ne v b hname]
    exact hb name' r' hr'

theorem describes_empty (b : Bindings) : h.Describes .empty b := nofun

/-- Names that are bound by position to references and to what these stand for. -/
theorem describes_ofLists (names : List String) {refs : List Ref} {vs : List Value}
    (hrefs : List.Forall₂ h.Stores refs vs) :
    h.Describes (.ofLists names refs) (.ofLists names vs) := by
  have hall {b : Bindings} {rb : Bindings Ref} (hb : h.Describes rb b) : h.Describes
      ((names.zip refs).foldl (fun rb entry => rb.insert entry.1 entry.2) rb)
      ((names.zip vs).foldl (fun b entry => b.insert entry.1 entry.2) b) := by
    induction hrefs generalizing names b rb with
    | nil => simpa using hb
    | cons hr _ ih =>
      cases names with
      | nil => exact hb
      | cons name names => exact ih names (hb.insert name hr)
  exact hall (describes_empty .empty)

/-! Steps on the heap. -/

/-- A step that adds to a heap what stands for a value, and leaves it a mirror of the store `s`. -/
structure Adds (h : Heap) (s : Store) (a : StateM Heap Ref) (v : Value) : Prop where
  le : h ≤ (a h).2
  mirrors : (a h).2.Mirrors s
  stores : (a h).2.Stores (a h).1 v

namespace Mirrors

theorem congr (hm : h.Mirrors s) (ht : t.vectors = s.vectors) : h.Mirrors t where
  founded := hm.founded
  size := hm.size.trans (congrArg Array.size ht.symm)
  items id := by
    rw [Store.items_congr ht]
    exact hm.items id

/-- What is there already. -/
theorem pure (hm : h.Mirrors s) (hr : h.Stores r v) : h.Adds s (return r) v := ⟨le_rfl, hm, hr⟩

theorem cons (hm : h.Mirrors s) {tail : Ref} {w : Value} (hr : h.Stores r v)
    (htail : h.Stores tail w) : h.Adds s (Heap.cons r tail) (.pair v w) := by
  let h' : Heap := { h with pairs := h.pairs.push (r, tail) }
  have hle : h ≤ h' := by
    refine ⟨by simp [h'], fun i hi => ?_⟩
    simp [h', Array.getElem?_push, Nat.ne_of_lt hi]
  have hhead : h'.head ⟨h.pairs.size⟩ = r := by simp [head, h']
  have htail' : h'.tail ⟨h.pairs.size⟩ = tail := by simp [Heap.tail, h']
  have hfounded : h'.Founded := by
    refine founded_iff.mpr fun i hi => ?_
    rcases Nat.lt_succ_iff_lt_or_eq.mp (by simpa [h'] using hi) with hi | rfl
    · obtain ⟨hold, hold'⟩ := head_of_le hle (p := ⟨i⟩) hi
      rw [hold, hold']
      exact ⟨hm.founded.head ⟨i⟩, hm.founded.tail ⟨i⟩⟩
    · rw [hhead, htail']
      exact ⟨hr.rank_le, htail.rank_le⟩
  have hnew : h'.Stores (.pair ⟨h.pairs.size⟩) (.pair v w) :=
    .pair (by simp [h']) (by rw [hhead]; exact hr.mono hle) (by rw [htail']; exact htail.mono hle)
  exact ⟨hle, ⟨hfounded, hm.size, fun id => (hm.items id).imp fun _ _ => .mono hle⟩, hnew⟩

end Mirrors

/-- What is put in a heap anew stands for the value, and so do the heads of a list. -/
theorem store_cases (v : Value) : (∀ {h : Heap} {s : Store}, h.Mirrors s → h.Adds s (store v) v) ∧
    ∀ {h : Heap} {s : Store}, h.Mirrors s → h ≤ (store.storeHeads v h).2 ∧
      (store.storeHeads v h).2.Mirrors s ∧
      List.Forall₂ (store.storeHeads v h).2.Stores (store.storeHeads v h).1 v.heads := by
  induction v with
  | pair a b iha ihb =>
    refine ⟨fun {h s} hm => ?_, fun {h s} hm => ?_⟩
    · obtain ⟨hle, hm, ha⟩ := iha.1 hm
      obtain ⟨hle', hm', hb⟩ := ihb.1 hm
      have hcons := hm'.cons (ha.mono hle') hb
      exact ⟨(hle.trans hle').trans hcons.le, hcons.mirrors, hcons.stores⟩
    · obtain ⟨hle, hm, ha⟩ := iha.1 hm
      obtain ⟨hle', hm', hb⟩ := ihb.2 hm
      rw [Value.heads_pair]
      exact ⟨hle.trans hle', hm', .cons (ha.mono hle') hb⟩
  | tailCall args ih =>
    refine ⟨fun hm => ?_, fun hm => ⟨le_rfl, hm, .nil⟩⟩
    obtain ⟨hle, hm, hargs⟩ := ih.2 hm
    exact ⟨hle, hm, Stores.tailCall_iff.mpr hargs⟩
  | _ => exact ⟨fun hm => hm.pure (by constructor), fun hm => ⟨le_rfl, hm, .nil⟩⟩

theorem Mirrors.store (hm : h.Mirrors s) (v : Value) : h.Adds s (Heap.store v) v :=
  (store_cases v).1 hm

theorem Mirrors.list (hm : h.Mirrors s) {refs : List Ref} {vs : List Value}
    (hrefs : List.Forall₂ h.Stores refs vs) : h.Adds s (Heap.list refs) (.ofList vs) := by
  induction hrefs with
  | nil => exact hm.pure .nil
  | cons hr hrefs ih =>
    obtain ⟨hle, hm', htail⟩ := ih
    have hcons := hm'.cons (hr.mono hle) htail
    rw [Heap.list, List.reverse_cons, List.foldlM_append]
    exact ⟨hle.trans hcons.le, hcons.mirrors, hcons.stores⟩

theorem Mirrors.pushVector (hm : h.Mirrors s) {refs : List Ref} {xs : Array Value}
    (hrefs : List.Forall₂ h.Stores refs xs.toList) :
    h ≤ (Heap.pushVector refs h).2 ∧ (Heap.pushVector refs h).2.Mirrors (s.pushVector xs).2 := by
  let h' : Heap := { h with vectors := h.vectors.push refs.toArray }
  have hle : h ≤ h' := ⟨le_rfl, fun _ _ => rfl⟩
  have hsize : h'.vectors.size = (s.pushVector xs).2.vectors.size := by
    simp [h', Store.pushVector, hm.size]
  refine ⟨hle, ⟨hm.founded.head, hm.founded.tail⟩, hsize, fun id => ?_⟩
  change List.Forall₂ h'.Stores (h'.items id) ((s.pushVector xs).2.items id).toList
  by_cases hid : id.index = h.vectors.size
  · have hitems : h'.items id = refs := by simp [Heap.items, h', hid]
    have hxs : (s.pushVector xs).2.items id = xs := by
      simp [Store.items, Store.pushVector, hid, hm.size]
    rw [hitems, hxs]
    exact hrefs.imp fun _ _ => .mono hle
  · have hitems : h'.items id = h.items id := by
      simp [Heap.items, h', Array.getD_eq_getD_getElem?, Array.getElem?_push, hid]
    have hxs : (s.pushVector xs).2.items id = s.items id := by
      simp [Store.items, Store.pushVector, Array.getElem?_push, ← hm.size, hid]
    rw [hitems, hxs]
    exact (hm.items id).imp fun _ _ => .mono hle

theorem forall₂_set {α β : Type} {R : α → β → Prop} {as : List α} {bs : List β}
    (hlists : List.Forall₂ R as bs) {a : α} {b : β} (hab : R a b) (k : Nat) :
    List.Forall₂ R (as.set k a) (bs.set k b) := by
  induction hlists generalizing k with
  | nil => exact .nil
  | cons h hrest ih =>
    cases k with
    | zero => exact .cons hab hrest
    | succ k => exact .cons h (ih k)

theorem forall₂_getD {α β : Type} {R : α → β → Prop} {as : List α} {bs : Array β}
    (hlists : List.Forall₂ R as bs.toList) {a : α} {b : β} (hab : R a b) (k : Nat) :
    R (as.getD k a) (bs.getD k b) := by
  rw [Array.getD_eq_getD_getElem?, ← Array.getElem?_toList, List.getD_eq_getElem?_getD]
  generalize bs.toList = items at hlists ⊢
  induction hlists generalizing k with
  | nil => exact hab
  | cons h _ ih =>
    cases k with
    | zero => exact h
    | succ k => exact ih k

theorem Mirrors.setItem (hm : h.Mirrors s) (id : VectorId) (slot : Nat) (hr : h.Stores r v) :
    h ≤ (Heap.setItem id slot r h).2 ∧
      (Heap.setItem id slot r h).2.Mirrors (s.setItem id slot v) := by
  let h' : Heap :=
    { h with vectors := h.vectors.modify id.index fun items => items.setIfInBounds slot r }
  have hle : h ≤ h' := ⟨le_rfl, fun _ _ => rfl⟩
  have hsize : h'.vectors.size = (s.setItem id slot v).vectors.size := by
    simp [h', Store.setItem, hm.size]
  refine ⟨hle, ⟨hm.founded.head, hm.founded.tail⟩, hsize, fun w => ?_⟩
  change List.Forall₂ h'.Stores (h'.items w) ((s.setItem id slot v).items w).toList
  have hw := (hm.items w).imp fun _ _ => Stores.mono hle
  by_cases hid : w = id
  · subst hid
    have hitems : h'.items w = (h.items w).set slot r := by
      simp only [Heap.items, h', Array.getD_eq_getD_getElem?, Array.getElem?_modify, if_pos]
      cases h.vectors[w.index]? <;> simp
    rw [hitems, Store.items_setItem_self, Array.toList_setIfInBounds]
    exact forall₂_set hw (hr.mono hle) slot
  · have hitems : h'.items w = h.items w := by
      have hindex : id.index ≠ w.index := fun e => hid (congrArg VectorId.mk e.symm)
      simp [Heap.items, h', Array.getD_eq_getD_getElem?, Array.getElem?_modify, hindex]
    rw [hitems, Store.items_setItem_of_ne hid]
    exact hw

end Heap

namespace Primitive

open Heap

variable {h : Heap} {s t : Store} {v : Value} {args : List Located}

/-- A call that fails leaves the vectors alone. -/
theorem vectors_of_run_error {p : Primitive} {args : List Value} {stop : Stop}
    (hrun : p.run args s = (.error stop, t)) : t.vectors = s.vectors := by
  have hvectors := p.run_vectors args s
  rw [hrun] at hvectors
  rcases hvectors with hvectors | ⟨-, xs, hxs⟩ | ⟨-, id, n, x, -, -, hx⟩
  · exact hvectors
  · cases hxs
  · cases hx

theorem makeVector_run (n : Int64) : makeVector.run [.integer n] s =
    if 0 ≤ n.toInt then
      (.ok (.vector (s.pushVector (Array.replicate n.toInt.toNat .nil)).1),
        (s.pushVector (Array.replicate n.toInt.toNat .nil)).2)
    else (.error (.failed (.eval (.negativeSize n) none)), s) := by
  have hget : (get : Action Store) s = (.ok s, s) := rfl
  have hinteger : Action.ofExcept (Arithmetic.expectInteger .makeVector s (.integer n)) s =
      (.ok n, s) := rfl
  unfold run Vector.make
  dsimp only
  rw [Action.bind_ok hget, Action.bind_ok hinteger]
  by_cases hn : 0 ≤ n.toInt
  · rw [if_pos hn, Vector.size?_of_nonneg hn]
    rfl
  · rw [if_neg hn, Vector.size?_of_neg (Int.not_le.mp hn)]
    rfl

theorem makeVector_adds (hm : h.Mirrors s) {r : Ref} {value : Value} (hr : h.Stores r value)
    (hrun : makeVector.run [value] s = (.ok v, t)) :
    h.Adds t (makeVector.locate [⟨value, r⟩] v) v := by
  cases hr with
  | integer n =>
    rw [makeVector_run] at hrun
    split at hrun <;> cases hrun
    have hnil : List.Forall₂ h.Stores (List.replicate n.toInt.toNat .nil)
        (Array.replicate n.toInt.toNat Value.nil).toList := by
      rw [Array.toList_replicate]
      exact List.forall₂_iff_get.mpr ⟨by simp, fun k hk hk' => by simpa using Stores.nil⟩
    obtain ⟨hle, hm'⟩ := hm.pushVector hnil
    exact ⟨hle, hm', .vector _⟩
  | _ => cases hrun

theorem copyVector_run {value : Value} (hrun : copyVector.run [value] s = (.ok v, t))
    (hvalue : ∀ id, value ≠ .vector id) :
    Value.vector (s.pushVector value.heads.toArray).1 = v ∧
      (s.pushVector value.heads.toArray).2 = t := by
  have hcopy : copyVector.run [value] = (do
      let items ← Action.elements value
      return .vector (← Action.change fun s => s.pushVector items.toArray)) := by
    cases value <;> first | rfl | exact absurd rfl (hvalue _)
  rw [hcopy, Action.elements, Value.toList?] at hrun
  cases hlist : value.isList <;> simp only [hlist] at hrun <;> cases hrun
  exact ⟨rfl, rfl⟩

theorem copyVector_adds (hm : h.Mirrors s) {r : Ref} {value : Value} (hr : h.Stores r value)
    (hrun : copyVector.run [value] s = (.ok v, t)) :
    h.Adds t (copyVector.locate [⟨value, r⟩] v) v := by
  have hheads := hr.heads
  cases hr with
  | vector id =>
    cases hrun
    obtain ⟨hle, hm'⟩ := hm.pushVector (hm.items id)
    exact ⟨hle, hm', .vector _⟩
  | _ =>
    obtain ⟨rfl, rfl⟩ := copyVector_run hrun nofun
    obtain ⟨hle, hm'⟩ := hm.pushVector hheads
    exact ⟨hle, hm', .vector _⟩

theorem vectorSlot_adds (hm : h.Mirrors s) (hargs : ∀ a ∈ args, h.Stores a.ref a.value)
    (hrun : vectorSlot.run (Located.values args) s = (.ok v, t)) :
    h.Adds t (vectorSlot.locate args v) v := by
  rcases args with _ | ⟨⟨a, r⟩, _ | ⟨⟨b, _⟩, _ | ⟨c, _ | _⟩⟩⟩ <;> try cases hrun
  all_goals
    have hvector := hargs ⟨a, r⟩ List.mem_cons_self
    simp only [Located.values, List.map_cons, List.map_nil, run] at hrun
    rcases Vector.locate_cases a b s with ⟨stop, hlocate⟩ | ⟨id, n, rfl, rfl, hslot, -⟩
  · rw [Vector.slot, Action.bind_error hlocate] at hrun
    cases hrun
  · rw [Vector.slot_read, if_pos hslot] at hrun
    cases hrun
    cases hvector
    exact ⟨le_rfl, hm, forall₂_getD (hm.items id) .nil _⟩
  · rw [Vector.slot, Action.bind_error hlocate] at hrun
    cases hrun
  · rw [Vector.slot_write, if_pos hslot] at hrun
    cases hrun
    cases hvector
    obtain ⟨hle, hm'⟩ := hm.setItem id n.toInt.toNat (hargs c (by simp))
    exact ⟨hle, hm', .nil⟩

/-- What a primitive returns stands on the heap as well, and the vectors go on to hold the same. -/
theorem locate_adds (p : Primitive) (hm : h.Mirrors s)
    (hargs : ∀ a ∈ args, h.Stores a.ref a.value)
    (hrun : p.run (Located.values args) s = (.ok v, t)) : h.Adds t (p.locate args v) v := by
  have hvectors := p.run_vectors (Located.values args) s
  rw [hrun] at hvectors
  cases p with
  | identity =>
    rcases args with _ | ⟨a, _ | _⟩ <;> cases hrun
    exact hm.pure (hargs a List.mem_cons_self)
  | head =>
    rcases args with _ | ⟨⟨value, ref⟩, _ | _⟩ <;> try cases hrun
    cases hargs _ List.mem_cons_self with
    | pair hp hhead htail =>
      cases hrun
      exact ⟨le_rfl, hm, hhead⟩
    | _ => cases hrun
  | tail =>
    rcases args with _ | ⟨⟨value, ref⟩, _ | _⟩ <;> try cases hrun
    cases hargs _ List.mem_cons_self with
    | pair hp hhead htail =>
      cases hrun
      exact ⟨le_rfl, hm, htail⟩
    | _ => cases hrun
  | cons =>
    rcases args with _ | ⟨a, _ | ⟨b, _ | _⟩⟩ <;> cases hrun
    exact hm.cons (hargs a (by simp)) (hargs b (by simp))
  | list =>
    cases hrun
    refine hm.list (List.forall₂_map_left_iff.mpr <| List.forall₂_map_right_iff.mpr ?_)
    exact List.forall₂_same.mpr hargs
  | makeVector =>
    rcases args with _ | ⟨a, _ | _⟩ <;> try cases hrun
    exact makeVector_adds hm (hargs a List.mem_cons_self) hrun
  | copyVector =>
    rcases args with _ | ⟨⟨value, ref⟩, _ | _⟩
    · cases hrun
    · exact copyVector_adds hm (hargs ⟨value, ref⟩ List.mem_cons_self) hrun
    · cases value <;> cases hrun
  | vectorSlot => exact vectorSlot_adds hm hargs hrun
  | _ =>
    refine (hm.congr (hvectors.resolve_right ?_)).store v
    rintro (⟨hp | hp, -⟩ | ⟨hp, -⟩) <;> cases hp

end Primitive

end Lisplet
