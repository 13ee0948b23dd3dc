import Lisplet.Proofs.Containment
import Lisplet.Proofs.Frames.Evaluation
import Mathlib.Data.List.Forall2

/-! Two stores that differ in the frames of running loops. The frames that both have in common are
matched; closures, vectors, the input and the output are the same. -/
namespace Lisplet

/-- Which frames of one store are matched with which frames of another. -/
abbrev Match := FrameId → FrameId → Prop

def Match.add (ρ : Match) (f g : FrameId) : Match := fun f' g' => ρ f' g' ∨ f' = f ∧ g' = g

def Match.modes (ρ : Match) : Modes := fun f μ => μ = .plain ∧ ∃ g, ρ f g

theorem Match.modes_add (ρ : Match) (f g : FrameId) :
    (ρ.add f g).modes = ρ.modes.add f .plain := by
  funext f' μ
  simp only [modes, Modes.add, add, eq_iff_iff]
  constructor
  · rintro ⟨rfl, g', h | ⟨rfl, -⟩⟩
    · exact .inl ⟨rfl, g', h⟩
    · exact .inr ⟨rfl, rfl⟩
  · rintro (⟨rfl, g', h⟩ | ⟨rfl, rfl⟩)
    · exact ⟨rfl, g', .inl h⟩
    · exact ⟨rfl, g, .inr ⟨rfl, rfl⟩⟩

/-- Two stores that no program can tell apart by its matched frames. -/
structure Matched (ρ : Match) (s t : Store) : Prop where
  contained : Contained ρ.modes s
  vectors : s.vectors = t.vectors
  input : s.input = t.input
  output : s.output = t.output
  size : s.closures.size = t.closures.size
  closure : ∀ {i : Nat} {c : Closure}, s.closures[i]? = some c →
    ∃ g, ρ c.scope g ∧ t.closures[i]? = some { c with scope := g }
  lt : ∀ {f g}, ρ f g → g.index < t.frames.size
  bindings : ∀ {f g}, ρ f g → t.bindings g = s.bindings f
  chain : ∀ {f g}, ρ f g → List.Forall₂ ρ (s.chain f) (t.chain g)
  unique : ∀ {f g f' g'}, ρ f g → ρ f' g' → (f = f' ↔ g = g')

namespace Matched

variable {ρ : Match} {s t : Store}

theorem left_lt (h : Matched ρ s t) {f g : FrameId} (hfg : ρ f g) : f.index < s.frames.size :=
  h.contained.lt ⟨rfl, g, hfg⟩

theorem closure_none (h : Matched ρ s t) {i : Nat} (hi : s.closures[i]? = none) :
    t.closures[i]? = none := by
  rw [Array.getElem?_eq_none_iff] at hi ⊢
  exact h.size ▸ hi

theorem alike (h : Matched ρ s t) : s.Alike t := by
  refine ⟨⟨h.vectors, funext fun id => ?_⟩, h.input, h.output⟩
  unfold Store.closureName?
  cases hc : s.closures[id.index]? with
  | none => rw [h.closure_none hc]
  | some c =>
    obtain ⟨g, -, hc'⟩ := h.closure hc
    rw [hc']
    rfl

theorem paramCount (h : Matched ρ s t) (id : ClosureId) : t.paramCount id = s.paramCount id := by
  unfold Store.paramCount
  cases hc : s.closures[id.index]? with
  | none => rw [h.closure_none hc]
  | some c =>
    obtain ⟨g, -, hc'⟩ := h.closure hc
    rw [hc']

theorem find? (h : Matched ρ s t) {f g : FrameId} (hfg : ρ f g) (name : String) :
    t.find? name (t.chain g) = s.find? name (s.chain f) := by
  have hchain := h.chain hfg
  generalize s.chain f = fs at hchain ⊢
  generalize t.chain g = gs at hchain ⊢
  induction hchain with
  | nil => rfl
  | cons hfg _ ih => rw [Store.find?, Store.find?, h.bindings hfg, ih]

theorem pushFrame (h : Matched ρ s t) {f g : FrameId} (hfg : ρ f g) {b : Bindings}
    (hb : ∀ name v, b.find? name = some v → Mode.plain.Allows name v) :
    Matched (ρ.add (s.pushFrame (some f) b).1 (t.pushFrame (some g) b).1)
      (s.pushFrame (some f) b).2 (t.pushFrame (some g) b).2 where
  contained := by
    rw [Match.modes_add]
    exact h.contained.pushFrame ⟨rfl, g, hfg⟩ (.inl rfl) hb
  vectors := h.vectors
  input := h.input
  output := h.output
  size := h.size
  closure hc := by
    obtain ⟨g', hg', hc'⟩ := h.closure hc
    exact ⟨g', .inl hg', hc'⟩
  lt := by
    rintro f' g' (hfg' | ⟨rfl, rfl⟩)
    · rw [Store.size_frames_pushFrame]
      exact Nat.lt_succ_of_lt (h.lt hfg')
    · simp
  bindings := by
    rintro f' g' (hfg' | ⟨rfl, rfl⟩)
    · rw [Store.bindings_pushFrame_of_lt _ _ (h.lt hfg'),
        Store.bindings_pushFrame_of_lt _ _ (h.left_lt hfg')]
      exact h.bindings hfg'
    · rw [Store.bindings_pushFrame_self, Store.bindings_pushFrame_self]
  chain := by
    rintro f' g' (hfg' | ⟨rfl, rfl⟩)
    · rw [Store.chain_pushFrame_of_lt _ _ (h.lt hfg'),
        Store.chain_pushFrame_of_lt _ _ (h.left_lt hfg')]
      exact (h.chain hfg').imp fun _ _ => .inl
    · rw [Store.chain_pushFrame, Store.chain_pushFrame]
      exact .cons (.inr ⟨rfl, rfl⟩) ((h.chain hfg).imp fun _ _ => .inl)
  unique := by
    have hnew {f' g' : FrameId} (hfg' : ρ f' g') :
        f' ≠ (s.pushFrame (some f) b).1 ∧ g' ≠ (t.pushFrame (some g) b).1 := by
      have hf' := h.left_lt hfg'
      have hg' := h.lt hfg'
      constructor
      · rintro rfl
        exact absurd hf' (by simp)
      · rintro rfl
        exact absurd hg' (by simp)
    rintro f₁ g₁ f₂ g₂ (h₁ | ⟨rfl, rfl⟩) (h₂ | ⟨rfl, rfl⟩)
    · exact h.unique h₁ h₂
    · exact iff_of_false (hnew h₁).1 (hnew h₁).2
    · exact iff_of_false (hnew h₂).1.symm (hnew h₂).2.symm
    · exact iff_of_true rfl rfl

theorem bind (h : Matched ρ s t) {f g : FrameId} (hfg : ρ f g) {name : String}
    (hname : reserved name = false) {value : Value} (hvalue : value.isOrdinary = true) :
    Matched ρ (s.bind f name value) (t.bind g name value) where
  contained := h.contained.bind fun _ _ => ⟨hname, .inl hvalue⟩
  vectors := h.vectors
  input := h.input
  output := h.output
  size := h.size
  closure := h.closure
  lt hfg' := by
    rw [Store.size_frames_bind]
    exact h.lt hfg'
  bindings := by
    intro f' g' hfg'
    by_cases hf : f = f'
    · have hg : g = g' := (h.unique hfg hfg').mp hf
      subst hf hg
      rw [Store.bindings_bind_self _ _ _ _ (h.lt hfg),
        Store.bindings_bind_self _ _ _ _ (h.left_lt hfg), h.bindings hfg]
    · have hg : g ≠ g' := fun hg => hf ((h.unique hfg hfg').mpr hg)
      rw [Store.bindings_bind_of_ne _ _ _ hf, Store.bindings_bind_of_ne _ _ _ hg]
      exact h.bindings hfg'
  chain hfg' := by
    rw [Store.chain_bind, Store.chain_bind]
    exact h.chain hfg'
  unique := h.unique

theorem pushClosure (h : Matched ρ s t) {f g : FrameId} (hfg : ρ f g) {params : List String}
    {body : Value} (hc : Closure.Hygienic ⟨params, body, f, none⟩) :
    Matched ρ (s.pushClosure ⟨params, body, f, none⟩).2
      (t.pushClosure ⟨params, body, g, none⟩).2 where
  contained := h.contained.pushClosure hc ⟨rfl, g, hfg⟩
  vectors := h.vectors
  input := h.input
  output := h.output
  size := by simp [Store.pushClosure, h.size]
  closure := by
    intro i c hi
    simp only [Store.pushClosure, Array.getElem?_push, h.size] at hi ⊢
    by_cases hlast : i = t.closures.size
    · rw [if_pos hlast] at hi ⊢
      cases hi
      exact ⟨g, hfg, rfl⟩
    · rw [if_neg hlast] at hi ⊢
      exact h.closure hi
  lt := h.lt
  bindings := h.bindings
  chain := h.chain
  unique := h.unique

theorem nameValue (h : Matched ρ s t) {name : String} (hname : reserved name = false)
    (value : Value) : Matched ρ (s.nameValue name value) (t.nameValue name value) := by
  have hcontained := h.contained.nameValue hname value
  cases value with
  | closure id =>
    refine ⟨hcontained, h.vectors, h.input, h.output, ?_, ?_, h.lt, h.bindings, h.chain, h.unique⟩
    · simp [Store.nameValue, Store.nameClosure, h.size]
    · intro i c hi
      simp only [Store.nameValue, Store.nameClosure, Array.getElem?_modify] at hi ⊢
      by_cases hid : id.index = i
      · rw [if_pos hid] at hi ⊢
        obtain ⟨old, hold, rfl⟩ := Option.map_eq_some_iff.mp hi
        obtain ⟨g, hg, hc'⟩ := h.closure hold
        rw [hc', Option.map_some]
        obtain ⟨params, body, scope, naming⟩ := old
        cases naming with
        | none => exact ⟨g, hg, rfl⟩
        | some naming => exact ⟨g, hg, rfl⟩
      · rw [if_neg hid] at hi ⊢
        exact h.closure hi
  | _ => exact h

/-- Actions that leave frames and closures alone end alike, in stores that match as before. -/
theorem of_local {α : Type} (h : Matched ρ s t) {a : Action α} (ha : a.Local) {post : α → Prop}
    (hpost : Action.Holds Store.OrdinaryItems a post) :
    (a s).1 = (a t).1 ∧ Matched ρ (a s).2 (a t).2 ∧ ∀ v, (a s).1 = .ok v → post v := by
  obtain ⟨hr, halike, hframes, hclosures⟩ := ha s t h.alike
  obtain ⟨-, -, hframes', hclosures'⟩ := ha t t (.refl t)
  obtain ⟨_, -, hitems, hv⟩ := hpost s h.contained.items
  refine ⟨hr, ?_, hv⟩
  exact {
    contained := h.contained.of_frames_eq hframes hclosures hitems
    vectors := halike.vectors
    input := halike.input
    output := halike.output
    size := by rw [hclosures, hclosures', h.size]
    closure := fun hc => by
      rw [hclosures'] at *
      rw [hclosures] at hc
      exact h.closure hc
    lt := fun hfg => by
      rw [hframes']
      exact h.lt hfg
    bindings := fun hfg => by
      rw [Store.bindings_congr hframes, Store.bindings_congr hframes']
      exact h.bindings hfg
    chain := fun hfg => by
      rw [Store.chain_congr hframes, Store.chain_congr hframes']
      exact h.chain hfg
    unique := h.unique }

end Matched

/-- Two stores that differ in their frames only. -/
structure Store.FramesOnly (s s' : Store) : Prop where
  closures : s'.closures = s.closures
  vectors : s'.vectors = s.vectors
  input : s'.input = s.input
  output : s'.output = s.output

namespace Matched

variable {ρ : Match} {s t : Store}

/-- What happens to frames of the first store that are not matched makes no difference. -/
theorem left_retains (h : Matched ρ s t) {s' : Store} {writable : FrameId → Prop}
    (hs : Store.Retains writable s s') (hrest : s.FramesOnly s')
    (hw : ∀ f g, ρ f g → ¬ writable f) : Matched ρ s' t where
  contained := {
    lt := fun hf => Nat.lt_of_lt_of_le (h.contained.lt hf) hs.size_le
    mode_eq := h.contained.mode_eq
    chain := fun {f μ} hf => by
      rw [hs.chain f (h.contained.lt hf)]
      exact h.contained.chain hf
    bindings := fun {f μ} hf => by
      obtain ⟨-, g, hfg⟩ := id hf
      rw [hs.bindings f (h.contained.lt hf) (hw f g hfg)]
      exact h.contained.bindings hf
    closures := fun hc => h.contained.closures (hrest.closures ▸ hc)
    items := fun id v hv => h.contained.items id v (by
      simpa only [Store.items, hrest.vectors] using hv) }
  vectors := hrest.vectors.trans h.vectors
  input := hrest.input.trans h.input
  output := hrest.output.trans h.output
  size := by rw [hrest.closures, h.size]
  closure hc := h.closure (hrest.closures ▸ hc)
  lt := h.lt
  bindings {f g} hfg := by
    rw [hs.bindings f (h.left_lt hfg) (hw f g hfg)]
    exact h.bindings hfg
  chain {f g} hfg := by
    rw [hs.chain f (h.left_lt hfg)]
    exact h.chain hfg
  unique := h.unique

/-- What happens to frames of the second store that are not matched makes no difference. -/
theorem right_retains (h : Matched ρ s t) {t' : Store} {writable : FrameId → Prop}
    (ht : Store.Retains writable t t') (hrest : t.FramesOnly t')
    (hw : ∀ f g, ρ f g → ¬ writable g) : Matched ρ s t' where
  contained := h.contained
  vectors := h.vectors.trans hrest.vectors.symm
  input := h.input.trans hrest.input.symm
  output := h.output.trans hrest.output.symm
  size := by rw [hrest.closures, h.size]
  closure hc := by
    rw [hrest.closures]
    exact h.closure hc
  lt hfg := Nat.lt_of_lt_of_le (h.lt hfg) ht.size_le
  bindings {f g} hfg := by
    rw [ht.bindings g (h.lt hfg) (hw f g hfg)]
    exact h.bindings hfg
  chain {f g} hfg := by
    rw [ht.chain g (h.lt hfg)]
    exact h.chain hfg
  unique := h.unique

end Matched

end Lisplet
