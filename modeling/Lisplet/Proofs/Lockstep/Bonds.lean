import Lisplet.Proofs.Lockstep

/-! How the frames of two evaluations in lockstep belong together. Outside of loops they are
matched. Inside of a loop they are frames of a round, which nothing else can come to: names have the
same values in both, except for the name of the loop. -/
namespace Lisplet

def Machine.recursive (m : Machine) : Machine := { m with looping := false }

theorem Machine.recursive_run (m : Machine) (body : Procedure) (args : List Value) :
    m.recursive.run body args = m.run body args := by
  cases body <;> rfl

namespace Store

theorem find?_bind_of_ne (s : Store) (f : FrameId) {name x : String} (value : Value)
    (h : name ≠ x) (frames : List FrameId) :
    (s.bind f name value).find? x frames = s.find? x frames := by
  induction frames with
  | nil => rfl
  | cons g rest ih =>
    have hg : ((s.bind f name value).bindings g).find? x = (s.bindings g).find? x := by
      by_cases hf : f = g
      · subst hf
        by_cases hlt : f.index < s.frames.size
        · rw [bindings_bind_self s f name value hlt, Bindings.find?_insert_of_ne _ _ h]
        · simp [bindings, bind, hlt]
      · rw [bindings_bind_of_ne s name value hf]
    rw [find?, find?, hg, ih]

theorem find?_bind_self (s : Store) {f : FrameId} (name : String) (value : Value)
    (h : f.index < s.frames.size) (rest : List FrameId) :
    (s.bind f name value).find? name (f :: rest) = some value := by
  rw [find?, find?_bindings_bind_self s f name value h]

end Store

namespace Matched

variable {ρ : Match} {s t : Store}

theorem left_chain_lt (h : Matched ρ s t) {f g : FrameId} (hfg : ρ f g) :
    ∀ f' ∈ s.chain f, f'.index < s.frames.size := by
  intro f' hf'
  rcases h.contained.chain ⟨rfl, g, hfg⟩ f' hf' with hplain | hplain
  · exact h.contained.lt hplain
  · exact h.contained.lt hplain

theorem right_chain_lt (h : Matched ρ s t) {f g : FrameId} (hfg : ρ f g) :
    ∀ g' ∈ t.chain g, g'.index < t.frames.size := by
  have hchain := h.chain hfg
  generalize s.chain f = fs at hchain
  generalize t.chain g = gs at hchain ⊢
  induction hchain with
  | nil => exact fun _ hg' => absurd hg' List.not_mem_nil
  | cons hfg' _ ih => exact List.forall_mem_cons.mpr ⟨h.lt hfg', ih⟩

end Matched

/-- A running loop: its name and its frame with what is bound there in this round, and the closure
that calls itself in the second evaluation. -/
structure Loop where
  name : String
  base : FrameId
  bindings : Bindings
  scope : FrameId
  id : ClosureId
  closure : Closure

/-- What stays true while a round of a loop is running. -/
structure Loop.Runs (ℓ : Loop) (m : Machine) (ρ : Match) (s t : Store) : Prop where
  name : reserved ℓ.name = false
  base_lt : ℓ.base.index < s.frames.size
  base_chain : s.chain ℓ.base = ℓ.base :: s.chain ℓ.scope
  base_bindings : s.bindings ℓ.base = ℓ.bindings
  scope : ρ ℓ.scope ℓ.closure.scope
  closure : ∃ naming, t.closures[ℓ.id.index]? = some { ℓ.closure with naming }
  itself : m.find? t ℓ.closure.scope ℓ.name = some (.closure ℓ.id)

/-- Two frames of a round: the loop's own frame, or that of a `let` inside of its body. -/
structure Loop.Links (ℓ : Loop) (m : Machine) (f g : FrameId) (ρ : Match) (s t : Store) : Prop where
  runs : ℓ.Runs m ρ s t
  left_lt : ∀ f' ∈ s.chain f, f'.index < s.frames.size
  right_lt : ∀ g' ∈ t.chain g, g'.index < t.frames.size
  same : ∀ x, x ≠ ℓ.name → t.find? x (t.chain g) = s.find? x (s.chain f)
  ordinary : ∀ x v, x ≠ ℓ.name → s.find? x (s.chain f) = some v →
    reserved x = false ∧ v.isOrdinary = true
  marked : s.find? ℓ.name (s.chain f) = some marker
  itself : m.find? t g ℓ.name = some (.closure ℓ.id)
  apart : ∀ f', ¬ ρ f' g

namespace Loop

variable {ℓ : Loop} {m : Machine} {f g : FrameId} {ρ ρ' : Match} {s s' t t' : Store}

theorem Runs.retained (h : ℓ.Runs m ρ s t) (hst : Matched ρ s t)
    (hs : Store.Retains (fun _ => False) s s') (ht : Store.Retains (fun _ => False) t t')
    (hgrows : Grows ρ t ρ' t') : ℓ.Runs m ρ' s' t' where
  name := h.name
  base_lt := Nat.lt_of_lt_of_le h.base_lt hs.size_le
  base_chain := by
    rw [hs.chain _ h.base_lt, hs.chain _ (hst.left_lt h.scope)]
    exact h.base_chain
  base_bindings := by
    rw [hs.bindings _ h.base_lt not_false]
    exact h.base_bindings
  scope := hgrows.keeps h.scope
  closure := by
    obtain ⟨naming, hc⟩ := h.closure
    obtain ⟨naming', hc'⟩ := hgrows.closures _ _ hc
    exact ⟨naming', hc'⟩
  itself := by
    rw [Machine.find?, ht.find?_chain (hst.right_chain_lt h.scope)]
    exact h.itself

namespace Links

theorem left_apart (h : ℓ.Links m f g ρ s t) (hst : Matched ρ s t) (g' : FrameId) : ¬ ρ f g' := by
  intro hfg
  have hallows := hst.contained.find?_allows ⟨rfl, g', hfg⟩ h.marked
  rcases hallows.2 with hordinary | ⟨hmode, -⟩
  · cases hordinary
  · cases hmode

theorem left_head_lt (h : ℓ.Links m f g ρ s t) : f.index < s.frames.size := by
  obtain ⟨outer, ho⟩ := s.chain_eq_cons f
  exact h.left_lt f (ho ▸ List.mem_cons_self)

theorem right_head_lt (h : ℓ.Links m f g ρ s t) : g.index < t.frames.size := by
  obtain ⟨outer, ho⟩ := t.chain_eq_cons g
  exact h.right_lt g (ho ▸ List.mem_cons_self)

/-- What is done in new frames only is of no concern to the frames of a round. -/
theorem retained (h : ℓ.Links m f g ρ s t) (hst : Matched ρ s t)
    (hs : Store.Retains (fun _ => False) s s') (ht : Store.Retains (fun _ => False) t t')
    (hgrows : Grows ρ t ρ' t') : ℓ.Links m f g ρ' s' t' := by
  have hleft := hs.find?_chain h.left_lt
  have hright := ht.find?_chain h.right_lt
  refine ⟨h.runs.retained hst hs ht hgrows, ?_, ?_, ?_, ?_, ?_, ?_, ?_⟩
  · rw [hs.chain f h.left_head_lt]
    exact fun f' hf' => Nat.lt_of_lt_of_le (h.left_lt f' hf') hs.size_le
  · rw [ht.chain g h.right_head_lt]
    exact fun g' hg' => Nat.lt_of_lt_of_le (h.right_lt g' hg') ht.size_le
  · intro x hx
    rw [hright, hleft]
    exact h.same x hx
  · intro x v hx hv
    rw [hleft] at hv
    exact h.ordinary x v hx hv
  · rw [hleft]
    exact h.marked
  · rw [Machine.find?, hright]
    exact h.itself
  · intro f' hfg
    rcases hgrows.fresh hfg with hold | hnew
    · exact h.apart f' hold
    · exact absurd h.right_head_lt (Nat.not_lt.mpr hnew)

theorem pushFrame (h : ℓ.Links m f g ρ s t) (hst : Matched ρ s t) {b : Bindings}
    (hb : ∀ x v, b.find? x = some v → x ≠ ℓ.name ∧ reserved x = false ∧ v.isOrdinary = true) :
    Matched ρ (s.pushFrame (some f) b).2 (t.pushFrame (some g) b).2 ∧
      ℓ.Links m (s.pushFrame (some f) b).1 (t.pushFrame (some g) b).1 ρ
        (s.pushFrame (some f) b).2 (t.pushFrame (some g) b).2 := by
  have hs : Store.Retains (fun _ => False) s (s.pushFrame (some f) b).2 :=
    (Store.Retains.refl _ s).pushFrame _ _
  have ht : Store.Retains (fun _ => False) t (t.pushFrame (some g) b).2 :=
    (Store.Retains.refl _ t).pushFrame _ _
  have hgrows : Grows ρ t ρ (t.pushFrame (some g) b).2 := .of_size_le ρ ht.size_le (.of_eq rfl)
  have hold := h.retained hst hs ht hgrows
  have hleft := s.find?_pushFrame b h.left_lt
  have hright := t.find?_pushFrame b h.right_lt
  have hname : b.find? ℓ.name = none := by
    cases hv : b.find? ℓ.name with
    | none => rfl
    | some v => exact absurd rfl (hb _ v hv).1
  constructor
  · have hst' := hst.left_retains hs ⟨rfl, rfl, rfl, rfl⟩ fun _ _ _ => not_false
    exact hst'.right_retains ht ⟨rfl, rfl, rfl, rfl⟩ fun _ _ _ => not_false
  · refine ⟨hold.runs, ?_, ?_, ?_, ?_, ?_, ?_, ?_⟩
    · rw [Store.chain_pushFrame, List.forall_mem_cons, ← hs.chain f h.left_head_lt]
      exact ⟨by simp, hold.left_lt⟩
    · rw [Store.chain_pushFrame, List.forall_mem_cons, ← ht.chain g h.right_head_lt]
      exact ⟨by simp, hold.right_lt⟩
    · intro x hx
      rw [hleft, hright, h.same x hx]
    · intro x v hx hv
      rw [hleft, Option.or_eq_some_iff] at hv
      rcases hv with hv | ⟨-, hv⟩
      · exact (hb x v hv).2
      · exact h.ordinary x v hx hv
    · rw [hleft, hname]
      exact h.marked
    · rw [Machine.find?, hright, hname]
      exact h.itself
    · exact fun f' hfg => absurd (hst.lt hfg) (by simp)

/-- A `letrec` inside of a round binds names in a frame of its own. -/
theorem bind (h : ℓ.Links m f g ρ s t) (hst : Matched ρ s t) (hbase : f ≠ ℓ.base) {x : String}
    (hx : x ≠ ℓ.name) (hreserved : reserved x = false) {value : Value}
    (hvalue : value.isOrdinary = true) :
    Matched ρ (s.bind f x value) (t.bind g x value) ∧
      ℓ.Links m f g ρ (s.bind f x value) (t.bind g x value) := by
  have hs : Store.Retains (· = f) s (s.bind f x value) :=
    (Store.Retains.refl (· = f) s).bind (.inl rfl) x value
  have ht : Store.Retains (· = g) t (t.bind g x value) :=
    (Store.Retains.refl (· = g) t).bind (.inl rfl) x value
  have hself {u : Store} {k : FrameId} (hk : k.index < u.frames.size) :
      (u.bind k x value).find? x (u.chain k) = some value := by
    obtain ⟨outer, ho⟩ := u.chain_eq_cons k
    rw [ho]
    exact u.find?_bind_self x value hk outer
  constructor
  · have hst' := hst.left_retains hs ⟨rfl, rfl, rfl, rfl⟩ fun f' g' hfg hf =>
      h.left_apart hst g' (hf ▸ hfg)
    exact hst'.right_retains ht ⟨rfl, rfl, rfl, rfl⟩ fun f' g' hfg hg => h.apart f' (hg ▸ hfg)
  · refine ⟨⟨h.runs.name, ?_, ?_, ?_, h.runs.scope, h.runs.closure, ?_⟩, ?_, ?_, ?_, ?_, ?_, ?_,
      h.apart⟩
    · rw [Store.size_frames_bind]
      exact h.runs.base_lt
    · rw [Store.chain_bind, Store.chain_bind]
      exact h.runs.base_chain
    · rw [Store.bindings_bind_of_ne s x value hbase]
      exact h.runs.base_bindings
    · rw [Machine.find?, Store.chain_bind, Store.find?_bind_of_ne t g value hx]
      exact h.runs.itself
    · rw [Store.chain_bind, Store.size_frames_bind]
      exact h.left_lt
    · rw [Store.chain_bind, Store.size_frames_bind]
      exact h.right_lt
    · intro y hy
      rw [Store.chain_bind, Store.chain_bind]
      by_cases hxy : x = y
      · subst hxy
        rw [hself h.left_head_lt, hself h.right_head_lt]
      · rw [Store.find?_bind_of_ne s f value hxy, Store.find?_bind_of_ne t g value hxy]
        exact h.same y hy
    · intro y v hy hv
      rw [Store.chain_bind] at hv
      by_cases hxy : x = y
      · subst hxy
        rw [hself h.left_head_lt, Option.some.injEq] at hv
        exact ⟨hreserved, hv ▸ hvalue⟩
      · rw [Store.find?_bind_of_ne s f value hxy] at hv
        exact h.ordinary y v hy hv
    · rw [Store.chain_bind, Store.find?_bind_of_ne s f value hx]
      exact h.marked
    · rw [Machine.find?, Store.chain_bind, Store.find?_bind_of_ne t g value hx]
      exact h.itself

end Links

end Loop

/-- How the frames of two evaluations belong together. -/
inductive Bond where
  | plain
  | loop (ℓ : Loop)

namespace Bond

def mode : Bond → Mode
  | plain => .plain
  | loop ℓ => .loop ℓ.name

theorem plain_mode_ne (name : String) : plain.mode ≠ .loop name := by
  intro h
  cases h

def Links : Bond → Machine → FrameId → FrameId → Assertion
  | plain, _, f, g => fun ρ _ _ => ρ f g
  | loop ℓ, m, f, g => ℓ.Links m f g

def Owns : Bond → FrameId → Prop
  | plain, _ => True
  | loop ℓ, f => f ≠ ℓ.base

namespace Links

variable {β : Bond} {m : Machine} {f g : FrameId} {ρ ρ' : Match} {s s' t t' : Store}

theorem find? (h : β.Links m f g ρ s t) (hst : Matched ρ s t) {x : String}
    (hx : β.mode ≠ .loop x) : m.find? t g x = m.find? s f x := by
  unfold Machine.find?
  cases β with
  | plain => rw [hst.find? h]
  | loop ℓ => rw [Loop.Links.same h x fun hname => hx (congrArg Mode.loop hname.symm)]

theorem isOrdinary (h : β.Links m f g ρ s t) (hst : Matched ρ s t) (hm : m.Standard) {x : String}
    (hx : β.mode ≠ .loop x) (hreserved : reserved x = false) {v : Value}
    (hv : m.find? s f x = some v) : v.isOrdinary = true := by
  cases β with
  | plain =>
    rcases (hst.contained.machine_find?_allows hm ⟨rfl, g, h⟩ hreserved hv).2 with hv | ⟨hmode, -⟩
    · exact hv
    · cases hmode
  | loop ℓ =>
    have hname : x ≠ ℓ.name := fun hname => hx (congrArg Mode.loop hname.symm)
    rw [Machine.find?, Option.or_eq_some_iff, hm.globals] at hv
    rcases hv with hv | ⟨-, hv⟩
    · exact (Loop.Links.ordinary h x v hname hv).2
    · rcases standardBindings_find? hv with ⟨form, rfl, -⟩ | ⟨-, hv⟩
      · simp at hreserved
      · exact hv

theorem mode_ne (h : β.Links m f g ρ s t) (form : SpecialForm) : β.mode ≠ .loop form.name := by
  cases β with
  | plain => exact plain_mode_ne _
  | loop ℓ =>
    intro hname
    have hreserved := (Loop.Links.runs h).name
    rw [Mode.loop.inj hname, reserved_name] at hreserved
    cases hreserved

theorem find?_name (h : β.Links m f g ρ s t) (hst : Matched ρ s t) (hm : m.Standard)
    (form : SpecialForm) : m.find? s f form.name = some (.special form) := by
  cases β with
  | plain => exact hst.contained.find?_name hm ⟨rfl, g, h⟩ form
  | loop ℓ =>
    have hname : form.name ≠ ℓ.name := fun hname =>
      mode_ne h form (congrArg Mode.loop hname.symm)
    have hnone : s.find? form.name (s.chain f) = none := by
      cases hv : s.find? form.name (s.chain f) with
      | none => rfl
      | some v => simpa using (Loop.Links.ordinary h _ v hname hv).1
    rw [Machine.find?, hnone, Option.none_or, hm.globals]
    exact standardBindings_find?_name form

theorem retained (h : β.Links m f g ρ s t) (hst : Matched ρ s t)
    (hs : Store.Retains (fun _ => False) s s') (ht : Store.Retains (fun _ => False) t t')
    (hgrows : Grows ρ t ρ' t') : β.Links m f g ρ' s' t' := by
  cases β with
  | plain => exact hgrows.keeps h
  | loop ℓ => exact Loop.Links.retained h hst hs ht hgrows

theorem of_frames (h : β.Links m f g ρ s t) (hst : Matched ρ s t) (hs : s'.frames = s.frames)
    (ht : t'.frames = t.frames) (hclosures : t.KeepsClosures t') : β.Links m f g ρ s' t' := by
  have hkept' := (Store.Retains.refl (fun _ => False) t).of_frames ht
  exact h.retained hst ((Store.Retains.refl _ s).of_frames hs) hkept'
    (.of_size_le ρ hkept'.size_le hclosures)

theorem pushFrame (h : β.Links m f g ρ s t) (hst : Matched ρ s t) {b : Bindings}
    (hb : ∀ x v, b.find? x = some v →
      β.mode ≠ .loop x ∧ reserved x = false ∧ v.isOrdinary = true) :
    ∃ ρ', Grows ρ t ρ' (t.pushFrame (some g) b).2 ∧
      Matched ρ' (s.pushFrame (some f) b).2 (t.pushFrame (some g) b).2 ∧
      β.Links m (s.pushFrame (some f) b).1 (t.pushFrame (some g) b).1 ρ'
        (s.pushFrame (some f) b).2 (t.pushFrame (some g) b).2 ∧
      β.Owns (s.pushFrame (some f) b).1 := by
  have hsize : t.frames.size ≤ (t.pushFrame (some g) b).2.frames.size := by simp
  cases β with
  | plain =>
    have hst' := hst.pushFrame h fun x v hv => ⟨(hb x v hv).2.1, .inl (hb x v hv).2.2⟩
    refine ⟨_, ⟨.inl, ?_, hsize, .of_eq rfl⟩, hst', .inr ⟨rfl, rfl⟩, trivial⟩
    rintro f' g' (hold | ⟨rfl, rfl⟩)
    · exact .inl hold
    · exact .inr (Nat.le_refl _)
  | loop ℓ =>
    have hnames (x : String) (v : Value) (hv : b.find? x = some v) :
        x ≠ ℓ.name ∧ reserved x = false ∧ v.isOrdinary = true :=
      ⟨fun hname => (hb x v hv).1 (congrArg Mode.loop hname.symm), (hb x v hv).2⟩
    obtain ⟨hst', hlinks⟩ := Loop.Links.pushFrame h hst hnames
    refine ⟨ρ, .of_size_le ρ hsize (.of_eq rfl), hst', hlinks, fun hbase => ?_⟩
    have hlt := (Loop.Links.runs h).base_lt
    rw [← hbase] at hlt
    simp at hlt

/-- A value that is bound may get its name with it. -/
theorem define (h : β.Links m f g ρ s t) (hst : Matched ρ s t) (howns : β.Owns f) {x : String}
    (hx : β.mode ≠ .loop x) (hreserved : reserved x = false) {value : Value}
    (hvalue : value.isOrdinary = true) :
    Matched ρ ((s.nameValue x value).bind f x value) ((t.nameValue x value).bind g x value) ∧
      β.Links m f g ρ ((s.nameValue x value).bind f x value)
        ((t.nameValue x value).bind g x value) := by
  have hnamed := hst.nameValue hreserved value
  cases β with
  | plain => exact ⟨hnamed.bind h hreserved hvalue, h⟩
  | loop ℓ =>
    have hlinks : (Bond.loop ℓ).Links m f g ρ (s.nameValue x value) (t.nameValue x value) :=
      h.of_frames hst (s.frames_nameValue x value) (t.frames_nameValue x value)
        (.nameValue t x value)
    exact Loop.Links.bind hlinks hnamed howns (fun hname => hx (congrArg Mode.loop hname.symm))
      hreserved hvalue

end Links

end Bond

end Lisplet
