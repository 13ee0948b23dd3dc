import Lisplet.Proofs.Presence
import Lisplet.Proofs.Renaming.Evaluation

/-! Whole stores, in which nothing refers to a closure that is not there. -/
namespace Lisplet

/-- A part that is no closure, or one of the first `k`. -/
def Node.Before (k : Nat) : Node → Prop
  | .closure id => id.index < k
  | _ => True

instance (k : Nat) : DecidablePred (Node.Before k)
  | .closure id => inferInstanceAs (Decidable (id.index < k))
  | .frame _ => inferInstanceAs (Decidable True)
  | .vector _ => inferInstanceAs (Decidable True)

theorem Node.Before.mono {k k' : Nat} (hle : k ≤ k') {n : Node} (h : n.Before k) : n.Before k' := by
  cases n with
  | closure id => exact Nat.lt_of_lt_of_le h hle
  | _ => trivial

instance (K : Node → Prop) [DecidablePred K] (v : Value) : Decidable (v.Within K) :=
  inferInstanceAs (Decidable (∀ n ∈ v.nodes, K n))

def Bindings.Within (K : Node → Prop) : Bindings → Prop
  | [] => True
  | (_, value) :: rest => value.Within K ∧ Within K rest

instance Bindings.decidableWithin (K : Node → Prop) [DecidablePred K] :
    (b : Bindings) → Decidable (b.Within K)
  | [] => inferInstanceAs (Decidable True)
  | (_, value) :: rest =>
    have := decidableWithin K rest
    inferInstanceAs (Decidable (value.Within K ∧ Within K rest))

namespace Bindings

variable {K : Node → Prop}

theorem Within.mono {K' : Node → Prop} (hle : ∀ n, K n → K' n) {b : Bindings} (h : b.Within K) :
    b.Within K' := by
  induction b with
  | nil => trivial
  | cons entry b ih =>
    obtain ⟨hvalue, hrest⟩ := h
    exact ⟨fun n hn => hle n (hvalue n hn), ih hrest⟩

theorem Within.find? {b : Bindings} (h : b.Within K) {name : String} {v : Value}
    (hv : b.find? name = some v) : v.Within K := by
  induction b with
  | nil => cases hv
  | cons entry b ih =>
    obtain ⟨key, value⟩ := entry
    obtain ⟨hvalue, hrest⟩ := h
    rw [Bindings.find?] at hv
    split at hv
    · cases hv
      exact hvalue
    · exact ih hrest hv

theorem Within.insert {b : Bindings} (h : b.Within K) (name : String) {value : Value}
    (hvalue : value.Within K) : (b.insert name value).Within K := by
  induction b with
  | nil => exact ⟨hvalue, trivial⟩
  | cons entry b ih =>
    obtain ⟨key, old⟩ := entry
    obtain ⟨hold, hrest⟩ := h
    by_cases hkey : key = name
    · simp only [Bindings.insert, hkey, ↓reduceIte]
      exact ⟨hvalue, hrest⟩
    · simp only [Bindings.insert, hkey, ↓reduceIte]
      exact ⟨hold, ih hrest⟩

theorem Within.insertAll {b : Bindings} (hb : b.Within K) {entries : List (String × Value)}
    (hentries : ∀ entry ∈ entries, entry.2.Within K) : (b.insertAll entries).Within K := by
  induction entries generalizing b with
  | nil => exact hb
  | cons entry entries ih =>
    rw [List.forall_mem_cons] at hentries
    exact ih (hb.insert _ hentries.1) hentries.2

theorem within_ofLists (names : List String) {values : List Value}
    (h : ∀ v ∈ values, v.Within K) : (ofLists names values).Within K :=
  Within.insertAll (b := empty) trivial fun _ hentry => h _ (List.of_mem_zip hentry).2

end Bindings

/-- All that a store holds refers only to parts in `K`. -/
structure Store.Holds (K : Node → Prop) (s : Store) : Prop where
  bindings : ∀ frame ∈ s.frames, frame.bindings.Within K
  bodies : ∀ c ∈ s.closures, c.body.Within K
  items : ∀ xs ∈ s.vectors, ∀ v ∈ xs, v.Within K

instance (K : Node → Prop) [DecidablePred K] (s : Store) : Decidable (s.Holds K) :=
  decidable_of_iff ((∀ frame ∈ s.frames.toList, frame.bindings.Within K) ∧
      (∀ c ∈ s.closures.toList, c.body.Within K) ∧
      ∀ xs ∈ s.vectors.toList, ∀ v ∈ xs.toList, v.Within K) (by
    simp only [Array.mem_toList_iff]
    exact ⟨fun ⟨hbindings, hbodies, hitems⟩ => ⟨hbindings, hbodies, hitems⟩,
      fun h => ⟨h.bindings, h.bodies, h.items⟩⟩)

namespace Store.Holds

variable {K : Node → Prop} {s : Store} (h : s.Holds K)

include h

theorem mono {K' : Node → Prop} (hle : ∀ n, K n → K' n) : s.Holds K' where
  bindings frame hframe := (h.bindings frame hframe).mono hle
  bodies c hc n hn := hle n (h.bodies c hc n hn)
  items xs hxs v hv n hn := hle n (h.items xs hxs v hv n hn)

theorem find? (name : String) (fs : List FrameId) {v : Value} (hv : s.find? name fs = some v) :
    v.Within K := by
  induction fs with
  | nil => cases hv
  | cons f fs ih =>
    have hbindings : (s.bindings f).Within K := by
      unfold Store.bindings
      split
      · exact h.bindings _ (Array.mem_of_getElem? ‹_›)
      · trivial
    rw [Store.find?] at hv
    split at hv
    · cases hv
      exact hbindings.find? ‹_›
    · exact ih hv

theorem pushFrame (outer : Option FrameId) {b : Bindings} (hb : b.Within K) :
    (s.pushFrame outer b).2.Holds K := by
  refine ⟨fun frame hframe => ?_, h.bodies, h.items⟩
  rcases Array.mem_push.mp hframe with hframe | rfl
  · exact h.bindings frame hframe
  · exact hb

theorem bind (f : FrameId) (name : String) {value : Value} (hvalue : value.Within K) :
    (s.bind f name value).Holds K := by
  refine ⟨fun frame hframe => ?_, h.bodies, h.items⟩
  obtain ⟨i, hi⟩ := Array.mem_iff_getElem?.mp hframe
  simp only [Store.bind, Array.getElem?_modify] at hi
  split at hi
  · obtain ⟨old, hold, rfl⟩ := Option.map_eq_some_iff.mp hi
    exact (h.bindings old (Array.mem_of_getElem? hold)).insert name hvalue
  · exact h.bindings frame (Array.mem_of_getElem? hi)

theorem pushClosure {c : Closure} (hc : c.body.Within K) : (s.pushClosure c).2.Holds K := by
  refine ⟨h.bindings, fun c' hc' => ?_, h.items⟩
  rcases Array.mem_push.mp hc' with hc' | rfl
  · exact h.bodies c' hc'
  · exact hc

theorem nameValue (name : String) (value : Value) : (s.nameValue name value).Holds K where
  bindings := by
    rw [frames_nameValue]
    exact h.bindings
  bodies c hc := by
    obtain ⟨i, hi⟩ := Array.mem_iff_getElem?.mp hc
    obtain ⟨old, hold, rfl | rfl⟩ := getElem?_closures_nameValue hi
    · exact h.bodies _ (Array.mem_of_getElem? hold)
    · exact h.bodies old (Array.mem_of_getElem? hold)
  items := by
    cases value <;> exact h.items

/-- What leaves frames and closures alone need only fill vectors with what is in `K`. -/
theorem of_filled {t : Store} (hframes : t.frames = s.frames) (hclosures : t.closures = s.closures)
    (hvectors : ∀ id, K (.vector id)) (ht : t.Filled (Value.Within K)) : t.Holds K := by
  refine ⟨hframes ▸ h.bindings, hclosures ▸ h.bodies, fun xs hxs v hv => ?_⟩
  obtain ⟨i, hi⟩ := Array.mem_iff_getElem?.mp hxs
  have hitems := ht.items ⟨i⟩ (Value.within_vector.mpr (hvectors _)) v
  rw [Store.items, hi] at hitems
  exact hitems hv

theorem filled (hvectors : ∀ id, K (.vector id)) : s.Filled (Value.Within K) where
  items id _ v hv := by
    unfold Store.items at hv
    split at hv
    · exact h.items _ (Array.mem_of_getElem? ‹_›) v hv
    · exact absurd hv (Array.not_mem_empty v)
  fresh _ _ := Value.within_vector.mpr (hvectors _)

end Store.Holds

def Store.Whole (s : Store) : Prop := s.Holds (Node.Before s.closures.size)

instance (s : Store) : Decidable s.Whole :=
  inferInstanceAs (Decidable (s.Holds (Node.Before s.closures.size)))

theorem Value.rename_skip_iff {k : Nat} {v : Value} :
    v.rename (.skip k) = v ↔ v.Within (Node.Before k) := by
  have hkind := Value.within_kind (Node.Before k)
  induction v with
  | closure id =>
    rw [Value.within_closure, rename, Value.closure.injEq, ClosureId.skip]
    constructor
    · intro h
      split at h
      · assumption
      · have hindex : id.index + 1 = id.index := congrArg ClosureId.index h
        omega
    · exact fun h => if_pos h
  | pair head tail ihh iht =>
    rw [hkind.pair, rename, Value.pair.injEq]
    exact and_congr ihh iht
  | tailCall args ih =>
    rw [rename, Value.tailCall.injEq]
    exact ih
  | vector id => exact ⟨fun _ => Value.within_vector.mpr trivial, fun _ => rfl⟩
  | _ => exact ⟨fun _ => List.forall_mem_nil _, fun _ => rfl⟩

theorem Bindings.Within.rename_skip {k : Nat} {b : Bindings} (h : b.Within (Node.Before k)) :
    b.rename (.skip k) = b := by
  induction b with
  | nil => rfl
  | cons entry b ih =>
    obtain ⟨name, value⟩ := entry
    rw [rename, Value.rename_skip_iff.mpr h.1, ih h.2]

namespace Store.Whole

variable {s : Store} (h : s.Whole)

include h

/-- Closures that are not there may have any identities. -/
theorem renamed : s.Renamed (.skip s.closures.size) s where
  frames := by
    have hsame : ∀ frame ∈ s.frames, Frame.rename (.skip s.closures.size) frame = frame :=
      fun frame hframe => by rw [Frame.rename, (h.bindings frame hframe).rename_skip]
    rw [Array.map_congr_left hsame, Array.map_id']
  closures id := by
    by_cases hlt : id.index < s.closures.size
    · have hsame : id.skip s.closures.size = id := if_pos hlt
      have hbody := Value.rename_skip_iff.mpr (h.bodies _ (Array.getElem_mem hlt))
      rw [hsame, Array.getElem?_eq_getElem hlt, Option.map_some, Closure.rename, hbody]
    · have hle : s.closures.size ≤ id.index := Nat.not_lt.mp hlt
      rw [ClosureId.skip_of_le hle, Array.getElem?_eq_none hle]
      exact Array.getElem?_eq_none (Nat.le_succ_of_le hle)
  vectors := by
    have hsame : ∀ xs ∈ s.vectors, xs.map (Value.rename (.skip s.closures.size)) = xs := by
      intro xs hxs
      have hitems : ∀ v ∈ xs, v.rename (.skip s.closures.size) = v :=
        fun v hv => Value.rename_skip_iff.mpr (h.items xs hxs v hv)
      rw [Array.map_congr_left hitems, Array.map_id']
    rw [Array.map_congr_left hsame, Array.map_id']
  input := rfl
  output := rfl

/-- A whole store has no use for a closure that is added to it. -/
theorem inserted (c : Closure) : s.Inserted s.closures.size c (s.pushClosure c).2 where
  frames := h.renamed.frames
  closures id := by
    simp only [Store.pushClosure, Array.getElem?_push, ClosureId.index_skip_ne, if_false]
    by_cases hlt : id.index < s.closures.size
    · rw [ClosureId.skip, if_pos hlt]
    · have hle : s.closures.size ≤ id.index := Nat.not_lt.mp hlt
      rw [ClosureId.skip_of_le hle, Array.getElem?_eq_none hle]
      exact Array.getElem?_eq_none (Nat.le_succ_of_le hle)
  vectors := h.renamed.vectors
  input := rfl
  output := rfl
  le := Nat.le_refl _
  size := Array.size_push _
  spare := Array.getElem?_push_size
  code c' hc' := Value.rename_skip_iff.mpr (h.bodies c' hc')

/-- An observer that takes no notice of the identities of closures makes up none. -/
theorem within_of_natural {f : Observer} (hf : f.Natural) {args : List Value}
    (hargs : ∀ v ∈ args, v.Within (Node.Before s.closures.size)) {v : Value}
    (hv : f s args = .ok v) : v.Within (Node.Before s.closures.size) := by
  have hsame : args.map (Value.rename (.skip s.closures.size)) = args := by
    have hrename : ∀ v ∈ args, v.rename (.skip s.closures.size) = v :=
      fun v hv => Value.rename_skip_iff.mpr (hargs v hv)
    rw [List.map_congr_left hrename, List.map_id']
  have hrun := hf _ (ClosureId.skip_injective _) s s h.renamed args
  rw [hsame, hv] at hrun
  exact Value.rename_skip_iff.mp (Except.ok.inj hrun).symm

end Store.Whole

/-- Nothing that evaluation may come to refers to a closure that is not there. -/
structure Machine.Whole (m : Machine) (s : Store) : Prop where
  globals : m.globals.Within (Node.Before s.closures.size)
  store : s.Whole

instance (m : Machine) (s : Store) : Decidable (m.Whole s) :=
  decidable_of_iff (m.globals.Within (Node.Before s.closures.size) ∧ s.Whole)
    ⟨fun ⟨hglobals, hstore⟩ => ⟨hglobals, hstore⟩, fun h => ⟨h.globals, h.store⟩⟩

end Lisplet
