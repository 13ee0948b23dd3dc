import Lisplet.Proofs.Presence

/-! Stores without a frame's binding of one name. Nothing that is done under other names makes a
difference between such a store and the whole one. -/
namespace Lisplet

namespace Bindings

def erase (name : String) : Bindings → Bindings
  | [] => []
  | (key, value) :: rest => if key = name then erase name rest else (key, value) :: erase name rest

theorem erase_insert_self (name : String) (value : Value) (b : Bindings) :
    (b.insert name value).erase name = b.erase name := by
  induction b with
  | nil => exact if_pos rfl
  | cons entry rest ih =>
    obtain ⟨key, old⟩ := entry
    by_cases hkey : key = name
    · simp [insert, erase, hkey]
    · simp only [insert, erase, hkey, ↓reduceIte]
      exact congrArg ((key, old) :: ·) ih

theorem erase_insert_of_ne {name other : String} (h : other ≠ name) (value : Value)
    (b : Bindings) : (b.insert other value).erase name = (b.erase name).insert other value := by
  induction b with
  | nil => exact if_neg h
  | cons entry rest ih =>
    obtain ⟨key, old⟩ := entry
    by_cases hkey : key = other
    · simp only [insert, erase, hkey, h, ↓reduceIte]
      rfl
    · by_cases hname : key = name
      · simp [insert, erase, hname, h.symm, ih]
      · simp only [insert, erase, hkey, hname, ↓reduceIte]
        exact congrArg ((key, old) :: ·) ih

theorem find?_erase_of_ne {name other : String} (h : other ≠ name) (b : Bindings) :
    (b.erase name).find? other = b.find? other := by
  induction b with
  | nil => rfl
  | cons entry rest ih =>
    obtain ⟨key, value⟩ := entry
    by_cases hname : key = name
    · simp [find?, erase, hname, h.symm, ih]
    · simp [find?, erase, hname, ih]

theorem find?_erase_self (name : String) (b : Bindings) : (b.erase name).find? name = none := by
  induction b with
  | nil => rfl
  | cons entry rest ih =>
    obtain ⟨key, value⟩ := entry
    by_cases hname : key = name
    · simp [erase, hname, ih]
    · simp [find?, erase, hname, ih]

theorem erase_insertAll {name : String} {entries : List (String × Value)}
    (h : ∀ entry ∈ entries, entry.1 ≠ name) (b : Bindings) :
    (b.insertAll entries).erase name = (b.erase name).insertAll entries := by
  induction entries generalizing b with
  | nil => rfl
  | cons entry entries ih =>
    rw [List.forall_mem_cons] at h
    refine (ih h.2 (b.insert entry.1 entry.2)).trans ?_
    rw [erase_insert_of_ne h.1]
    rfl

theorem erase_ofLists {name : String} {names : List String} (h : name ∉ names)
    (values : List Value) : (ofLists names values).erase name = ofLists names values := by
  rw [ofLists_eq_insertAll, erase_insertAll]
  · rfl
  · intro entry hentry hname
    exact h (hname ▸ (List.of_mem_zip hentry).1)

end Bindings

namespace Store

/-- The store without a frame's binding of a name. -/
def forget (s : Store) (F : FrameId) (x : String) : Store :=
  { s with
    frames := s.frames.modify F.index fun frame =>
      { frame with bindings := frame.bindings.erase x } }

variable (s : Store) (F : FrameId) (x : String)

theorem ext_of_alike {s t : Store} {frames : Array Frame} (hframes : s.frames = frames)
    (hclosures : s.closures = t.closures) (h : s.Alike t) : s = { t with frames } := by
  obtain ⟨frames', closures, vectors, input, output⟩ := s
  obtain ⟨⟨rfl, -⟩, rfl, rfl⟩ := h
  cases hframes
  cases hclosures
  rfl

theorem alike_forget : (s.forget F x).Alike s := ⟨⟨rfl, rfl⟩, rfl, rfl⟩

theorem closures_forget : (s.forget F x).closures = s.closures := rfl

@[simp] theorem size_frames_forget : (s.forget F x).frames.size = s.frames.size := by
  simp [forget]

@[simp] theorem chain_forget (f : FrameId) : (s.forget F x).chain f = s.chain f := by
  simp only [chain, forget, Array.getElem?_modify]
  by_cases h : F.index = f.index
  · cases s.frames[f.index]? <;> simp [h]
  · simp [h]

theorem bindings_forget (f : FrameId) :
    (s.forget F x).bindings f = if F = f then (s.bindings f).erase x else s.bindings f := by
  simp only [bindings, forget, Array.getElem?_modify]
  by_cases h : F = f
  · subst h
    rw [if_pos rfl, if_pos rfl]
    cases s.frames[F.index]? <;> rfl
  · have hindex : F.index ≠ f.index := fun e => h (congrArg FrameId.mk e)
    simp [h, hindex]

theorem find?_bindings_forget {name : String} (h : name ≠ x) (f : FrameId) :
    ((s.forget F x).bindings f).find? name = (s.bindings f).find? name := by
  rw [bindings_forget]
  split
  · exact Bindings.find?_erase_of_ne h _
  · rfl

theorem find?_forget {name : String} (h : name ≠ x) (fs : List FrameId) :
    (s.forget F x).find? name fs = s.find? name fs := by
  induction fs with
  | nil => rfl
  | cons f fs ih => rw [find?, find?, ih, find?_bindings_forget s F x h]

theorem frameOf?_forget {name : String} (h : name ≠ x) (fs : List FrameId) :
    (s.forget F x).frameOf? name fs = s.frameOf? name fs := by
  induction fs with
  | nil => rfl
  | cons f fs ih => rw [frameOf?, frameOf?, ih, find?_bindings_forget s F x h]

theorem nameValue_forget (name : String) (value : Value) :
    (s.forget F x).nameValue name value = (s.nameValue name value).forget F x := by
  cases value <;> rfl

theorem forget_bind_self (w : Value) : (s.bind F x w).forget F x = s.forget F x := by
  simp only [forget, bind, Store.mk.injEq, and_true]
  apply Array.ext_getElem?
  intro i
  simp only [Array.getElem?_modify]
  by_cases h : F.index = i
  · cases s.frames[i]? <;> simp [h, Bindings.erase_insert_self]
  · simp [h]

theorem bind_forget {name : String} (h : name ≠ x) (f : FrameId) (value : Value) :
    (s.forget F x).bind f name value = (s.bind f name value).forget F x := by
  simp only [forget, bind, Store.mk.injEq, and_true]
  apply Array.ext_getElem?
  intro i
  simp only [Array.getElem?_modify]
  by_cases hf : f.index = i
  · by_cases hF : F.index = i
    · cases s.frames[i]? <;> simp [hf, hF, Bindings.erase_insert_of_ne h]
    · cases s.frames[i]? <;> simp [hf, hF]
  · simp [hf]

theorem pushFrame_forget (f : FrameId) {b : Bindings} (hb : b.erase x = b) :
    (s.forget F x).pushFrame (some f) b =
      ((s.pushFrame (some f) b).1, (s.pushFrame (some f) b).2.forget F x) := by
  simp only [pushFrame, chain_forget, size_frames_forget, Prod.mk.injEq, true_and]
  simp only [forget, Store.mk.injEq, and_true]
  apply Array.ext_getElem?
  intro i
  simp only [Array.getElem?_push, Array.getElem?_modify, Array.size_modify]
  by_cases hi : i = s.frames.size
  · by_cases hF : F.index = i <;> simp [hi, hF, hb]
  · simp [hi]

variable {s} in
/-- Without the binding there is less that a frame refers to. -/
theorem Enclosed.forget {K : Node → Prop} {Q : Closure → Prop} (h : s.Enclosed K Q) :
    (s.forget F x).Enclosed K Q where
  outer hf hg := by
    rw [chain_forget] at hg
    exact h.outer hf hg
  bindings := by
    intro f name v hf hv
    by_cases hname : name = x
    · rw [bindings_forget] at hv
      split at hv
      · rw [hname, Bindings.find?_erase_self] at hv
        cases hv
      · exact h.bindings hf hv
    · rw [find?_bindings_forget s F x hname] at hv
      exact h.bindings hf hv
  closures := h.closures
  vectors := ⟨h.vectors.items, h.vectors.fresh⟩
  freshFrames index hindex := by
    rw [size_frames_forget] at hindex
    exact h.freshFrames index hindex
  freshClosures := h.freshClosures

end Store

end Lisplet
