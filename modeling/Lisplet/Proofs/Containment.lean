import Lisplet.Proofs.Frames
import Lisplet.Proofs.Ordinary

/-! Where the values that keep a loop going may be. Special forms stand for their own names only,
and a loop keeps the request for another round in frames that nothing else can come to. -/
namespace Lisplet

/-- What the name of a running loop stands for: the request for another round. -/
abbrev marker : Value := .function "recur" .any .recur

def Mode.Allows (μ : Mode) (name : String) (v : Value) : Prop :=
  reserved name = false ∧ (v.isOrdinary = true ∨ μ = .loop name ∧ v = marker)

/-- Whether a closure has been made from, and named in, a hygienic program. -/
structure Closure.Hygienic (c : Closure) : Prop where
  params : ∀ p ∈ c.params, reserved p = false
  body : hygienic reserved c.body = true
  name : ∀ naming ∈ c.naming, reserved naming.name = false
  loops : ∀ naming ∈ c.naming, naming.loops = true → loopsOver naming.name c.params c.body = true

abbrev Modes := FrameId → Mode → Prop

def Modes.add (κ : Modes) (f : FrameId) (μ : Mode) : Modes := fun g ν => κ g ν ∨ g = f ∧ ν = μ

theorem Modes.le_add (κ : Modes) (f : FrameId) (μ : Mode) : κ ≤ κ.add f μ := fun _ _ => .inl

theorem Modes.add_self (κ : Modes) (f : FrameId) (μ : Mode) : κ.add f μ f μ := .inr ⟨rfl, rfl⟩

structure Contained (κ : Modes) (s : Store) : Prop where
  lt : ∀ {f μ}, κ f μ → f.index < s.frames.size
  mode_eq : ∀ {f μ ν}, κ f μ → κ f ν → μ = ν
  chain : ∀ {f μ}, κ f μ → ∀ g ∈ s.chain f, κ g .plain ∨ κ g μ
  bindings : ∀ {f μ}, κ f μ → ∀ {name v}, (s.bindings f).find? name = some v → μ.Allows name v
  closures : ∀ {i : Nat} {c : Closure}, s.closures[i]? = some c → c.Hygienic ∧ κ c.scope .plain
  items : s.OrdinaryItems

namespace Contained

variable {κ : Modes} {s : Store}

theorem pushFrame (h : Contained κ s) {scope : FrameId} {μ ν : Mode} (hscope : κ scope ν)
    (hν : ν = .plain ∨ ν = μ) {b : Bindings}
    (hb : ∀ name v, b.find? name = some v → μ.Allows name v) :
    Contained (κ.add (s.pushFrame (some scope) b).1 μ) (s.pushFrame (some scope) b).2 where
  lt := by
    rintro f μ' (hf | ⟨rfl, rfl⟩)
    · rw [Store.size_frames_pushFrame]
      exact Nat.lt_succ_of_lt (h.lt hf)
    · simp
  mode_eq := by
    rintro f μ₁ μ₂ (h₁ | ⟨rfl, rfl⟩) (h₂ | ⟨hf, rfl⟩)
    · exact h.mode_eq h₁ h₂
    · exact absurd (hf ▸ h.lt h₁) (by simp)
    · exact absurd (h.lt h₂) (by simp)
    · rfl
  chain := by
    rintro f μ' (hf | ⟨rfl, rfl⟩) g hg
    · rw [Store.chain_pushFrame_of_lt _ _ (h.lt hf)] at hg
      exact (h.chain hf g hg).imp .inl .inl
    · rw [Store.chain_pushFrame, List.mem_cons] at hg
      rcases hg with rfl | hg
      · exact .inr (κ.add_self _ _)
      · rcases hν with rfl | rfl
        · exact .inl (.inl ((h.chain hscope g hg).elim id id))
        · exact (h.chain hscope g hg).imp .inl .inl
  bindings := by
    rintro f μ' (hf | ⟨rfl, rfl⟩) name v hv
    · rw [Store.bindings_pushFrame_of_lt _ _ (h.lt hf)] at hv
      exact h.bindings hf hv
    · rw [Store.bindings_pushFrame_self] at hv
      exact hb name v hv
  closures hc := (h.closures hc).imp_right .inl
  items := h.items

theorem bind (h : Contained κ s) {f : FrameId} {name : String} {value : Value}
    (hvalue : ∀ μ, κ f μ → μ.Allows name value) : Contained κ (s.bind f name value) where
  lt hf := by
    rw [Store.size_frames_bind]
    exact h.lt hf
  mode_eq := h.mode_eq
  chain hf g hg := by
    rw [Store.chain_bind] at hg
    exact h.chain hf g hg
  bindings := by
    intro g μ hg x v hv
    by_cases hfg : f = g
    · subst hfg
      rw [Store.bindings_bind_self _ _ _ _ (h.lt hg)] at hv
      by_cases hx : name = x
      · subst hx
        rw [Bindings.find?_insert_self, Option.some.injEq] at hv
        exact hv ▸ hvalue μ hg
      · rw [Bindings.find?_insert_of_ne _ _ hx] at hv
        exact h.bindings hg hv
    · rw [Store.bindings_bind_of_ne _ _ _ hfg] at hv
      exact h.bindings hg hv
  closures := h.closures
  items := h.items

theorem pushClosure (h : Contained κ s) {c : Closure} (hc : c.Hygienic)
    (hscope : κ c.scope .plain) :
    Contained κ (s.pushClosure c).2 where
  lt := h.lt
  mode_eq := h.mode_eq
  chain := h.chain
  bindings := h.bindings
  closures := by
    intro i c' hc'
    simp only [Store.pushClosure, Array.getElem?_push] at hc'
    split at hc'
    · cases hc'
      exact ⟨hc, hscope⟩
    · exact h.closures hc'
  items := h.items

theorem nameValue (h : Contained κ s) {name : String} (hname : reserved name = false)
    (value : Value) : Contained κ (s.nameValue name value) := by
  have hclosures {i : Nat} {c : Closure} (hc : (s.nameValue name value).closures[i]? = some c) :
      c.Hygienic ∧ κ c.scope .plain := by
    obtain ⟨old, hold, hnamed⟩ := Store.getElem?_closures_nameValue hc
    obtain ⟨hyg, hscope⟩ := h.closures hold
    rcases hnamed with rfl | rfl
    · exact ⟨hyg, hscope⟩
    · refine ⟨⟨hyg.params, hyg.body, ?_, ?_⟩, hscope⟩
      · rintro _ ⟨⟩
        exact hname
      · rintro _ ⟨⟩ hloops
        exact hloops
  cases value <;> exact ⟨h.lt, h.mode_eq, h.chain, h.bindings, hclosures, h.items⟩

/-- What primitives do to the store is nothing to frames and closures. -/
theorem of_frames_eq (h : Contained κ s) {t : Store} (hframes : t.frames = s.frames)
    (hclosures : t.closures = s.closures) (hitems : t.OrdinaryItems) : Contained κ t where
  lt hf := hframes ▸ h.lt hf
  mode_eq := h.mode_eq
  chain hf g hg := h.chain hf g (Store.chain_congr hframes _ ▸ hg)
  bindings hf := by
    rw [Store.bindings_congr hframes]
    exact h.bindings hf
  closures hc := h.closures (hclosures ▸ hc)
  items := hitems

theorem find?_allows (h : Contained κ s) {scope : FrameId} {μ : Mode} (hscope : κ scope μ)
    {name : String} {v : Value} (hv : s.find? name (s.chain scope) = some v) : μ.Allows name v := by
  have hchain := h.chain hscope
  generalize s.chain scope = frames at hv hchain
  induction frames with
  | nil => cases hv
  | cons f rest ih =>
    rw [List.forall_mem_cons] at hchain
    rw [Store.find?] at hv
    split at hv
    · rename_i value hvalue
      cases hv
      rcases hchain.1 with hf | hf
      · refine (h.bindings hf hvalue).imp_right fun hplain => hplain.imp_right fun hloop => ?_
        cases hloop.1
      · exact h.bindings hf hvalue
    · exact ih hv hchain.2

end Contained

/-- A machine with the standard operations and no functions of the host. -/
structure Machine.Standard (m : Machine) : Prop where
  globals : m.globals = standardBindings
  hosts : m.hosts = #[]

namespace Contained

variable {κ : Modes} {s : Store} {m : Machine} {scope : FrameId} {μ : Mode}

theorem find?_name (h : Contained κ s) (hm : m.Standard) (hscope : κ scope μ) (form : SpecialForm) :
    m.find? s scope form.name = some (.special form) := by
  have hnone : s.find? form.name (s.chain scope) = none := by
    cases hv : s.find? form.name (s.chain scope) with
    | none => rfl
    | some v => simpa using (h.find?_allows hscope hv).1
  rw [Machine.find?, hnone, Option.none_or, hm.globals]
  exact standardBindings_find?_name form

theorem machine_find?_allows (h : Contained κ s) (hm : m.Standard) (hscope : κ scope μ)
    {name : String} (hname : reserved name = false) {v : Value}
    (hv : m.find? s scope name = some v) : μ.Allows name v := by
  rw [Machine.find?, Option.or_eq_some_iff] at hv
  rcases hv with hv | ⟨-, hv⟩
  · exact h.find?_allows hscope hv
  · rw [hm.globals] at hv
    rcases standardBindings_find? hv with ⟨form, rfl, -⟩ | ⟨-, hv⟩
    · simp at hname
    · exact ⟨hname, .inl hv⟩

end Contained

end Lisplet
