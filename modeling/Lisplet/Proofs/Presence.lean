import Lisplet.Interpreter.Reach
import Lisplet.Proofs.Frames
import Lisplet.Proofs.Kinds

/-! Which parts of the store evaluation can come to. Parts that refer to nothing outside go on to do
so while frames, closures and vectors are added and bindings change. -/
namespace Lisplet

def Value.nodes : Value → List Node
  | closure id => [.closure id]
  | vector id => [.vector id]
  | pair head tail => head.nodes ++ tail.nodes
  | tailCall args => args.nodes
  | _ => []

def Value.Within (K : Node → Prop) (v : Value) : Prop := ∀ n ∈ v.nodes, K n

namespace Value

variable {K : Node → Prop}

theorem within_closure {id : ClosureId} : (closure id).Within K ↔ K (.closure id) := by
  simp [Within, nodes]

theorem within_vector {id : VectorId} : (vector id).Within K ↔ K (.vector id) := by
  simp [Within, nodes]

theorem within_kind (K : Node → Prop) : Kind (Within K) where
  integer _ := List.forall_mem_nil K
  float _ := List.forall_mem_nil K
  string _ := List.forall_mem_nil K
  boolean _ := List.forall_mem_nil K
  nil := List.forall_mem_nil K
  pair := List.forall_mem_append

end Value

namespace Store

/-- The parts that can be come to from some parts: from a frame the frames around it and what it
binds, from a closure its scope and its body, and from a vector what it holds. -/
inductive Reaches (s : Store) (start : Node → Prop) : Node → Prop
  | start {n : Node} (h : start n) : Reaches s start n
  | outer {f g : FrameId} (hf : Reaches s start (.frame f)) (hg : g ∈ s.chain f) :
    Reaches s start (.frame g)
  | binding {f : FrameId} {name : String} {v : Value} {n : Node} (hf : Reaches s start (.frame f))
    (hv : (s.bindings f).find? name = some v) (hn : n ∈ v.nodes) : Reaches s start n
  | scope {id : ClosureId} {c : Closure} (hid : Reaches s start (.closure id))
    (hc : s.closures[id.index]? = some c) : Reaches s start (.frame c.scope)
  | body {id : ClosureId} {c : Closure} {n : Node} (hid : Reaches s start (.closure id))
    (hc : s.closures[id.index]? = some c) (hn : n ∈ c.body.nodes) : Reaches s start n
  | item {id : VectorId} {v : Value} {n : Node} (hid : Reaches s start (.vector id))
    (hv : v ∈ s.items id) (hn : n ∈ v.nodes) : Reaches s start n

/-- Parts that refer to no others and that new parts will belong to; the closures among them
satisfy `Q`. -/
structure Enclosed (K : Node → Prop) (Q : Closure → Prop) (s : Store) : Prop where
  outer : ∀ {f g : FrameId}, K (.frame f) → g ∈ s.chain f → K (.frame g)
  bindings : ∀ {f : FrameId} {name : String} {v : Value}, K (.frame f) →
    (s.bindings f).find? name = some v → v.Within K
  closures : ∀ {id : ClosureId} {c : Closure}, K (.closure id) →
    s.closures[id.index]? = some c → Q c ∧ K (.frame c.scope) ∧ c.body.Within K
  vectors : s.Filled (Value.Within K)
  freshFrames : ∀ index, s.frames.size ≤ index → K (.frame ⟨index⟩)
  freshClosures : ∀ index, s.closures.size ≤ index → K (.closure ⟨index⟩)

namespace Enclosed

variable {K : Node → Prop} {Q : Closure → Prop} {s : Store} (h : s.Enclosed K Q)

include h

theorem of_reaches {start : Node → Prop} (hstart : ∀ n, start n → K n) {n : Node}
    (hn : s.Reaches start n) : K n := by
  induction hn with
  | start hn => exact hstart _ hn
  | outer _ hg ih => exact h.outer ih hg
  | binding _ hv hn ih => exact h.bindings ih hv _ hn
  | scope _ hc ih => exact (h.closures ih hc).2.1
  | body _ hc hn ih => exact (h.closures ih hc).2.2 _ hn
  | item _ hv hn ih => exact h.vectors.items _ (Value.within_vector.mpr ih) _ hv _ hn

theorem pushFrame {f : FrameId} (hf : K (.frame f)) {b : Bindings}
    (hb : ∀ name v, b.find? name = some v → v.Within K) :
    (s.pushFrame (some f) b).2.Enclosed K Q where
  outer := by
    intro g g' hg hg'
    by_cases hnew : g.index = s.frames.size
    · have hself : g = (s.pushFrame (some f) b).1 := congrArg FrameId.mk hnew
      rw [hself, chain_pushFrame, List.mem_cons] at hg'
      rcases hg' with rfl | hg'
      · exact hself ▸ hg
      · exact h.outer hf hg'
    · rw [chain_pushFrame_of_ne _ _ hnew] at hg'
      exact h.outer hg hg'
  bindings := by
    intro g name v hg hv
    by_cases hnew : g.index = s.frames.size
    · have hself : g = (s.pushFrame (some f) b).1 := congrArg FrameId.mk hnew
      rw [hself, bindings_pushFrame_self] at hv
      exact hb name v hv
    · rw [bindings_pushFrame_of_ne _ _ hnew] at hv
      exact h.bindings hg hv
  closures := h.closures
  vectors := ⟨h.vectors.items, h.vectors.fresh⟩
  freshFrames index hindex := by
    rw [size_frames_pushFrame] at hindex
    exact h.freshFrames index (Nat.le_of_succ_le hindex)
  freshClosures := h.freshClosures

theorem bind (f : FrameId) (name : String) {value : Value} (hvalue : value.Within K) :
    (s.bind f name value).Enclosed K Q where
  outer hg hg' := by
    rw [chain_bind] at hg'
    exact h.outer hg hg'
  bindings := by
    intro g name' v hg hv
    by_cases hfg : f = g
    · subst hfg
      have hlt : f.index < s.frames.size := by simpa using lt_of_find?_bindings hv
      rw [bindings_bind_self _ _ _ _ hlt] at hv
      by_cases hname : name = name'
      · subst hname
        rw [Bindings.find?_insert_self, Option.some.injEq] at hv
        exact hv ▸ hvalue
      · rw [Bindings.find?_insert_of_ne _ _ hname] at hv
        exact h.bindings hg hv
    · rw [bindings_bind_of_ne _ _ _ hfg] at hv
      exact h.bindings hg hv
  closures := h.closures
  vectors := ⟨h.vectors.items, h.vectors.fresh⟩
  freshFrames index hindex := by
    rw [size_frames_bind] at hindex
    exact h.freshFrames index hindex
  freshClosures := h.freshClosures

theorem pushClosure {c : Closure} (hc : Q c) (hscope : K (.frame c.scope))
    (hbody : c.body.Within K) : (s.pushClosure c).2.Enclosed K Q where
  outer := h.outer
  bindings := h.bindings
  closures := by
    intro id c' hid hc'
    simp only [Store.pushClosure, Array.getElem?_push] at hc'
    split at hc'
    · cases hc'
      exact ⟨hc, hscope, hbody⟩
    · exact h.closures hid hc'
  vectors := ⟨h.vectors.items, h.vectors.fresh⟩
  freshFrames := h.freshFrames
  freshClosures index hindex := by
    have hsize : s.closures.size + 1 ≤ index := by simpa [Store.pushClosure] using hindex
    exact h.freshClosures index (Nat.le_of_succ_le hsize)

theorem nameValue {name : String}
    (hname : ∀ c loops, Q c → Q { c with naming := some ⟨name, loops⟩ }) (value : Value) :
    (s.nameValue name value).Enclosed K Q where
  outer := by
    simp only [chain_congr (frames_nameValue s name value)]
    exact h.outer
  bindings := by
    simp only [bindings_congr (frames_nameValue s name value)]
    exact h.bindings
  closures := by
    intro id c hid hc
    obtain ⟨old, hold, hnamed⟩ := getElem?_closures_nameValue hc
    obtain ⟨hQ, hscope, hbody⟩ := h.closures hid hold
    rcases hnamed with rfl | rfl
    · exact ⟨hQ, hscope, hbody⟩
    · exact ⟨hname old _ hQ, hscope, hbody⟩
  vectors := by
    cases value <;> exact ⟨h.vectors.items, h.vectors.fresh⟩
  freshFrames index hindex := by
    rw [frames_nameValue] at hindex
    exact h.freshFrames index hindex
  freshClosures index hindex := by
    rw [size_closures_nameValue] at hindex
    exact h.freshClosures index hindex

/-- What primitives do to the store is nothing to frames and closures. -/
theorem of_frames_eq {t : Store} (hframes : t.frames = s.frames)
    (hclosures : t.closures = s.closures) (hvectors : t.Filled (Value.Within K)) :
    t.Enclosed K Q where
  outer hf hg := h.outer hf (chain_congr hframes _ ▸ hg)
  bindings hf := by
    rw [bindings_congr hframes]
    exact h.bindings hf
  closures hid hc := h.closures hid (hclosures ▸ hc)
  vectors := hvectors
  freshFrames index hindex := h.freshFrames index (hframes ▸ hindex)
  freshClosures index hindex := h.freshClosures index (hclosures ▸ hindex)

theorem find?_within {fs : List FrameId} (hfs : ∀ f ∈ fs, K (.frame f)) {name : String} {v : Value}
    (hv : s.find? name fs = some v) : v.Within K := by
  induction fs with
  | nil => cases hv
  | cons f fs ih =>
    rw [List.forall_mem_cons] at hfs
    rw [Store.find?] at hv
    split at hv
    · rename_i value hvalue
      cases hv
      exact h.bindings hfs.1 hvalue
    · exact ih hfs.2 hv

end Enclosed

/-- A part that has yet to be added. -/
def Lacks (s : Store) : Node → Prop
  | .frame f => s.frames.size ≤ f.index
  | .closure id => s.closures.size ≤ id.index
  | .vector id => s.vectors.size ≤ id.index

/-- What can be come to refers to nothing else. -/
theorem enclosed_of_reaches {s : Store} {start : Node → Prop} {Q : Closure → Prop}
    (hQ : ∀ id c, s.Reaches start (.closure id) → s.closures[id.index]? = some c → Q c) :
    s.Enclosed (fun n => s.Reaches start n ∨ s.Lacks n) Q where
  outer := by
    intro f g hf hg
    rcases hf with hf | hf
    · exact .inl (hf.outer hg)
    · have hchain : s.chain f = [f] := by simp [chain, show s.frames.size ≤ f.index from hf]
      rw [hchain, List.mem_singleton] at hg
      exact hg ▸ .inr hf
  bindings := by
    intro f name v hf hv n hn
    rcases hf with hf | hf
    · exact .inl (hf.binding hv hn)
    · exact absurd (lt_of_find?_bindings hv) (Nat.not_lt.mpr hf)
  closures := by
    intro id c hid hc
    rcases hid with hid | hid
    · exact ⟨hQ id c hid hc, .inl (hid.scope hc), fun n hn => .inl (hid.body hc hn)⟩
    · exact absurd (Array.getElem?_eq_some_iff.mp hc).1 (Nat.not_lt.mpr hid)
  vectors := by
    constructor
    · intro id hid v hv n hn
      rcases Value.within_vector.mp hid with hid | hid
      · exact .inl (hid.item hv hn)
      · have hitems : s.items id = #[] := by
          simp [items, show s.vectors.size ≤ id.index from hid]
        rw [hitems] at hv
        exact absurd hv (Array.not_mem_empty v)
    · exact fun index hindex => Value.within_vector.mpr (.inr hindex)
  freshFrames _ hindex := .inr hindex
  freshClosures _ hindex := .inr hindex

end Store

end Lisplet
