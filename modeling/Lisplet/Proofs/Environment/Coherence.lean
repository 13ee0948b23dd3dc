import Lisplet.Proofs.Environment
import Lisplet.Proofs.Lookup
import Lisplet.Proofs.Storage

/-! Environments in which all that is known of how values are stored is so. Evaluation leads from
one such environment to another, and what it returns is stored as it says. -/
namespace Lisplet

/-- A value is stored as is told of it. -/
abbrev Heap.Locates (h : Heap) (v : Located) : Prop := h.Stores v.ref v.value

/-- The arguments that a tail call carries are stored as is told of them. -/
theorem Heap.Stores.arguments {h : Heap} {v : Located} (hv : h.Locates v) :
    ∀ a ∈ v.arguments, h.Locates a := by
  obtain ⟨value, ref⟩ := v
  have hlists {refs : List Ref} {vs : List Value} (hrefs : List.Forall₂ h.Stores refs vs) :
      ∀ a ∈ Located.ofLists vs refs, h.Locates a := by
    induction hrefs with
    | nil => exact List.forall_mem_nil _
    | cons hr _ ih => exact List.forall_mem_cons.mpr ⟨hr, ih⟩
  cases hv with
  | tailCall hlen hall => exact hlists (tailCall_iff.mp (.tailCall hlen hall))
  | _ => exact List.forall_mem_nil _

namespace Environment

/-- What is known of how values are stored is so: of the contents of vectors, and of what names are
bound to in frames and below them. -/
structure Coherent (σ : Environment) : Prop where
  mirrors : σ.heap.Mirrors σ.store
  size : σ.frameRefs.size = σ.store.frames.size
  frames (f : FrameId) :
    σ.heap.Describes (σ.frameRefs.getD f.index .empty) (σ.store.bindings f)
  globals : σ.heap.Describes σ.globalRefs σ.machine.globals

namespace Coherent

variable {σ : Environment} (hσ : σ.Coherent)

include hσ

theorem enter (scope : FrameId) : (σ.enter scope).Coherent :=
  ⟨hσ.mirrors, hσ.size, hσ.frames, hσ.globals⟩

theorem pop : σ.pop.Coherent := by
  rw [pop_eq]
  exact hσ.enter _

/-- What leaves the frames as they are, and the heap a mirror of the store. -/
theorem of_heap {h : Heap} {s : Store} (hle : σ.heap ≤ h) (hm : h.Mirrors s)
    (hframes : s.frames = σ.store.frames) :
    Coherent { σ with toInterpreter.store := s, heap := h } where
  mirrors := hm
  size := hσ.size.trans (congrArg Array.size hframes.symm)
  frames f := by
    change h.Describes (σ.frameRefs.getD f.index .empty) (s.bindings f)
    rw [Store.bindings_congr hframes]
    exact (hσ.frames f).mono hle
  globals := hσ.globals.mono hle

theorem of_store {s : Store} (hframes : s.frames = σ.store.frames)
    (hvectors : s.vectors = σ.store.vectors) : Coherent { σ with toInterpreter.store := s } :=
  hσ.of_heap le_rfl (hσ.mirrors.congr hvectors) hframes

theorem bindIn (frame : FrameId) (name : String) {v : Located} (hv : σ.heap.Locates v) :
    (σ.bindIn frame name v).Coherent where
  mirrors := hσ.mirrors.congr rfl
  size := by simp [Environment.bindIn, hσ.size]
  frames f := by
    change σ.heap.Describes ((σ.frameRefs.modify frame.index _).getD f.index .empty)
      ((σ.store.bind frame name v.value).bindings f)
    rw [Array.getD_eq_getD_getElem?, Array.getElem?_modify]
    by_cases hf : frame = f
    · subst hf
      by_cases hlt : frame.index < σ.frameRefs.size
      · rw [if_pos rfl, Array.getElem?_eq_getElem hlt,
          Store.bindings_bind_self _ _ _ _ (hσ.size ▸ hlt)]
        have hframe := hσ.frames frame
        rw [Array.getD_eq_getD_getElem?, Array.getElem?_eq_getElem hlt] at hframe
        exact hframe.insert name hv
      · rw [if_pos rfl, Array.getElem?_eq_none (Nat.le_of_not_lt hlt)]
        exact Heap.describes_empty _
    · rw [if_neg fun h => hf (congrArg FrameId.mk h), ← Array.getD_eq_getD_getElem?,
        Store.bindings_bind_of_ne _ _ _ hf]
      exact hσ.frames f
  globals := hσ.globals

theorem extend (names : List String) {vs : List Located} (hvs : ∀ v ∈ vs, σ.heap.Locates v) :
    (σ.extend names vs).Coherent where
  mirrors := hσ.mirrors.congr rfl
  size := by simp [Environment.extend, Interpreter.extend, Store.pushFrame, hσ.size]
  frames f := by
    change σ.heap.Describes
      ((σ.frameRefs.push (.ofLists names (Located.refs vs))).getD f.index .empty)
      ((σ.store.pushFrame (some σ.scope) (.ofLists names (Located.values vs))).2.bindings f)
    rw [Array.getD_eq_getD_getElem?, Array.getElem?_push, hσ.size]
    by_cases hf : f.index = σ.store.frames.size
    · obtain rfl : f = (σ.store.pushFrame (some σ.scope) .empty).1 := congrArg FrameId.mk hf
      rw [if_pos hf]
      refine (Store.bindings_pushFrame_self _ _ _).symm ▸ Heap.describes_ofLists names ?_
      exact List.forall₂_map_left_iff.mpr <| List.forall₂_map_right_iff.mpr <|
        List.forall₂_same.mpr hvs
    · rw [if_neg hf, ← Array.getD_eq_getD_getElem?, Store.bindings_pushFrame_of_ne _ _ hf]
      exact hσ.frames f
  globals := hσ.globals

/-- The value of a name is stored as the environment says. -/
theorem refOf? {name : String} {r : Ref} (hr : σ.refOf? name = some r) :
    ∃ v, σ.machine.find? σ.store σ.scope name = some v ∧ σ.heap.Stores r v := by
  have hfound : σ.store.frameOf? name (σ.store.chain σ.scope) = σ.frameOf? name := rfl
  unfold Environment.refOf? at hr
  rw [Machine.find?, Store.find?_eq_bind, hfound]
  cases hframe : σ.frameOf? name with
  | some frame =>
    rw [hframe] at hr
    obtain ⟨v, hv, hstores⟩ := hσ.frames frame name r hr
    exact ⟨v, by simp [hv], hstores⟩
  | none =>
    rw [hframe] at hr
    obtain ⟨v, hv, hstores⟩ := hσ.globals name r hr
    exact ⟨v, by simp [hv], hstores⟩

end Coherent

end Environment

/-- A closure is made without a change to frames or vectors. -/
theorem Action.makeClosure_spares (scope : FrameId) (params body : Value) (s : Store) :
    (makeClosure scope params body s).2.frames = s.frames ∧
      (makeClosure scope params body s).2.vectors = s.vectors := by
  have hread := ofExcept_store (Form.parameters s params) s
  rcases hparameters : ofExcept (Form.parameters s params) s with ⟨stop | names, t⟩
  all_goals
    rw [hparameters] at hread
    cases hread
    have hnames : (do ofExcept (Form.parameters (← get) params) : Action _) t = _ := hparameters
    rw [makeClosure_eq]
  · rw [bind_error hnames]
    exact ⟨rfl, rfl⟩
  · rw [bind_ok hnames]
    exact ⟨rfl, rfl⟩

namespace Evaluation

open Environment

variable {α β : Type} {h : Heap}

theorem act_apply {a : Action α} {σ : Environment} {r : Except Stop α} {s : Store}
    (ha : a σ.store = (r, s)) : act a σ = (r, { σ with toInterpreter.store := s }) := by
  simp only [act, ha]

theorem inFrame_apply (names : List String) (vs : List Located) (body : FrameId → Evaluation α)
    (σ : Environment) : inFrame names vs body σ =
      ((body (σ.extend names vs).scope (σ.extend names vs)).1,
        (body (σ.extend names vs).scope (σ.extend names vs)).2.pop) := rfl

theorem inScope_apply (scope : FrameId) (body : Evaluation α) (σ : Environment) :
    inScope scope body σ =
      ((body (σ.enter scope)).1, (body (σ.enter scope)).2.enter σ.scope) := rfl

/-- From a coherent environment with the heap `h`, a computation ends in another, whose heap goes on
from there; `post` holds of a result. -/
def Coheres (h : Heap) (post : Heap → α → Prop) (x : Evaluation α) : Prop :=
  ∀ σ, σ.Coherent → σ.heap = h →
    (x σ).2.Coherent ∧ h ≤ (x σ).2.heap ∧ ∀ a, (x σ).1 = .ok a → post (x σ).2.heap a

namespace Coheres

variable {post : Heap → α → Prop}

theorem pure {a : α} (ha : post h a) : Coheres h post (pure a) := by
  rintro σ hσ rfl
  refine ⟨hσ, le_rfl, fun b hb => ?_⟩
  cases hb
  exact ha

theorem bind {mid : Heap → α → Prop} {post : Heap → β → Prop} {x : Evaluation α}
    {f : α → Evaluation β} (hx : Coheres h mid x)
    (hf : ∀ h' a, h ≤ h' → mid h' a → Coheres h' post (f a)) : Coheres h post (x >>= f) := by
  intro σ hσ hheap
  obtain ⟨hτ, hle, hmid⟩ := hx σ hσ hheap
  rcases hrun : x σ with ⟨stop | a, τ⟩ <;> rw [hrun] at hτ hle hmid
  · rw [bind_of_error hrun]
    exact ⟨hτ, hle, nofun⟩
  · rw [bind_of_ok hrun]
    obtain ⟨hυ, hle', hpost⟩ := hf τ.heap a hle (hmid a rfl) τ hτ rfl
    exact ⟨hυ, hle.trans hle', hpost⟩

theorem get_bind {f : Environment → Evaluation α} (hf : ∀ σ, Coheres h post (f σ)) :
    Coheres h post (get >>= f) :=
  fun σ => hf σ σ

theorem modify {f : Environment → Environment}
    (hf : ∀ σ, σ.Coherent → σ.heap = h → (f σ).Coherent ∧ (f σ).heap = h) :
    Coheres h (fun _ _ => True) (modify f) :=
  fun σ hσ hheap => ⟨(hf σ hσ hheap).1, (hf σ hσ hheap).2.ge, fun _ _ => trivial⟩

/-- What leaves frames and vectors as they are. -/
theorem act {a : Action α}
    (ha : ∀ s : Store, (a s).2.frames = s.frames ∧ (a s).2.vectors = s.vectors) :
    Coheres h (fun _ _ => True) (act a) :=
  fun σ hσ hheap =>
    ⟨hσ.of_store (ha σ.store).1 (ha σ.store).2, hheap.ge, fun _ _ => trivial⟩

theorem locate (v : Value) : Coheres h Heap.Locates (locate v) := by
  rintro σ hσ rfl
  obtain ⟨hle, hm, hv⟩ := hσ.mirrors.store v
  refine ⟨hσ.of_heap hle hm rfl, hle, fun w hw => ?_⟩
  cases hw
  exact hv

theorem within (e : Value) {x : Evaluation α} (hx : Coheres h post x) :
    Coheres h post (within e x) := by
  intro σ hσ hheap
  rw [within_apply]
  obtain ⟨hτ, hle, hpost⟩ := hx σ hσ hheap
  refine ⟨hτ, hle, fun a ha => hpost a ?_⟩
  exact (Action.within_ok_iff e (fun s => ((x σ).1, s)) (x σ).2.store a).mp ha

theorem atom (e : Value) : Coheres h Heap.Locates (atom e) := by
  intro σ hσ hheap
  have hget : (get : Evaluation Environment) σ = (.ok σ, σ) := rfl
  have hstore := σ.machine.evalAtom_store σ.scope e σ.store
  rcases hatom : σ.machine.evalAtom σ.scope e σ.store with ⟨stop | v, t⟩
  all_goals
    rw [hatom] at hstore
    subst hstore
    have hact := act_apply hatom
    rw [Evaluation.atom, bind_of_ok hget]
  · rw [bind_of_error hact]
    exact ⟨hσ, hheap.ge, nofun⟩
  · rw [bind_of_ok hact]
    cases e with
    | symbol name =>
      cases href : σ.refOf? name with
      | none =>
        simp only [href]
        exact locate v σ hσ hheap
      | some r =>
        obtain ⟨w, hw, hr⟩ := hσ.refOf? href
        have hlookup := σ.machine.lookup_apply σ.scope name σ.store
        rw [hw] at hlookup
        cases hlookup.symm.trans hatom
        simp only [href]
        refine ⟨hσ, hheap.ge, fun a ha => ?_⟩
        cases ha
        exact hr
    | _ => exact locate v σ hσ hheap

theorem primitive (p : Primitive) {args : List Located} (hargs : ∀ a ∈ args, h.Locates a) :
    Coheres h Heap.Locates (run (.primitive p) args) := by
  rintro σ hσ rfl
  have hget : (get : Evaluation Environment) σ = (.ok σ, σ) := rfl
  have hframes := (p.run_local (Located.values args) σ.store σ.store (.refl _)).2.2.1
  rcases hrun : p.run (Located.values args) σ.store with ⟨stop | v, t⟩
  all_goals
    rw [hrun] at hframes
    have hact := act_apply hrun
    rw [Evaluation.run, bind_of_ok hget]
    dsimp only
  · rw [bind_of_error hact]
    exact ⟨hσ.of_store hframes (Primitive.vectors_of_run_error hrun), le_rfl, nofun⟩
  · rw [bind_of_ok hact]
    obtain ⟨hle, hm, hv⟩ := p.locate_adds hσ.mirrors hargs hrun
    refine ⟨hσ.of_heap hle hm hframes, hle, fun a ha => ?_⟩
    cases ha
    exact hv

theorem run (body : Procedure) {args : List Located} (hargs : ∀ a ∈ args, h.Locates a) :
    Coheres h Heap.Locates (run body args) := by
  cases body with
  | primitive p => exact primitive p hargs
  | recur =>
    refine get_bind fun σ => pure (Heap.Stores.tailCall_iff.mpr ?_)
    rw [Value.heads_ofList]
    exact List.forall₂_map_left_iff.mpr <| List.forall₂_map_right_iff.mpr <|
      List.forall₂_same.mpr hargs
  | host slot =>
    refine get_bind fun σ => ?_
    dsimp only
    split
    · refine .bind (.act fun s => ?_) fun _ v _ _ => locate v
      rw [Action.ofExcept_store]
      exact ⟨rfl, rfl⟩
    · refine .bind (.act fun s => ?_) fun _ v _ _ => locate v
      rw [Machine.run]
      cases σ.machine.hosts[slot]? with
      | none => exact ⟨rfl, rfl⟩
      | some f =>
        rw [Action.observe_store]
        exact ⟨rfl, rfl⟩

theorem makeClosure (scope : FrameId) (params body : Value) : Coheres h Heap.Locates
    (do Evaluation.locate (← Evaluation.act (Action.makeClosure scope params body))) :=
  .bind (.act (Action.makeClosure_spares scope params body)) fun _ v _ _ => locate v

theorem define (frame : FrameId) (name : String) {v : Located} (hv : h.Locates v) :
    Coheres h (fun _ _ => True) (define frame name v) := by
  refine .modify fun σ hσ hheap => ⟨?_, hheap⟩
  subst hheap
  have hnamed : (σ.store.nameValue name v.value).vectors = σ.store.vectors := by
    cases v.value <;> rfl
  exact (hσ.of_store (σ.store.frames_nameValue name v.value) hnamed).bindIn frame name hv

theorem mark (frame : FrameId) (name : String) :
    Coheres h (fun _ _ => True) (mark frame name) :=
  .modify fun _ hσ hheap => ⟨hσ.bindIn frame name (.function ..), hheap⟩

theorem rebind (frame : FrameId) (params : List String) {args : List Located}
    (hargs : ∀ a ∈ args, h.Locates a) :
    Coheres h (fun _ _ => True) (rebind frame params args) := by
  unfold Evaluation.rebind
  have hzip : ∀ entry ∈ params.zip args, h.Locates entry.2 := fun _ he =>
    hargs _ (List.of_mem_zip he).2
  generalize params.zip args = entries at hzip ⊢
  induction entries generalizing h with
  | nil => exact .pure trivial
  | cons entry entries ih =>
    obtain ⟨hentry, hentries⟩ := List.forall_mem_cons.mp hzip
    refine .bind (.modify fun σ hσ hheap => ⟨hσ.bindIn _ _ (hheap ▸ hentry), hheap⟩)
      fun h' _ hle _ => ?_
    exact ih (fun a ha => (hargs a ha).mono hle) fun e he => (hentries e he).mono hle

theorem cons {v tail : Located} (hv : h.Locates v) (htail : h.Locates tail) :
    Coheres h Heap.Locates (do
      return ⟨.pair v.value tail.value, ← allocate (Heap.cons v.ref tail.ref)⟩) := by
  rintro σ hσ rfl
  obtain ⟨hle, hm, hpair⟩ := hσ.mirrors.cons hv htail
  refine ⟨hσ.of_heap hle hm rfl, hle, fun a ha => ?_⟩
  cases ha
  exact hpair

theorem inFrame (names : List String) {vs : List Located} (hvs : ∀ v ∈ vs, h.Locates v)
    {body : FrameId → Evaluation α} (hbody : ∀ frame, Coheres h post (body frame)) :
    Coheres h post (inFrame names vs body) := by
  rintro σ hσ rfl
  obtain ⟨hτ, hle, hpost⟩ :=
    hbody (σ.extend names vs).scope (σ.extend names vs) (hσ.extend names hvs) rfl
  exact ⟨hτ.pop, hle, hpost⟩

theorem inScope (scope : FrameId) {body : Evaluation α} (hbody : Coheres h post body) :
    Coheres h post (inScope scope body) := by
  intro σ hσ hheap
  obtain ⟨hτ, hle, hpost⟩ := hbody (σ.enter scope) (hσ.enter scope) hheap
  exact ⟨hτ.enter σ.scope, hle, hpost⟩

end Coheres

open Setting (Bridge InStep)

/-- What leads from coherent environments to coherent ones, next to what does the same. -/
def storing : Bridge Heap Located Located Evaluation Evaluation where
  values h v v' := v = v' ∧ h.Locates v
  steps h post x y := ∀ σ, σ.Coherent → σ.heap = h →
    (x σ).2.Coherent ∧ h ≤ (x σ).2.heap ∧ (x σ).2 = (y σ).2 ∧
      Ends (post (x σ).2.heap) (x σ).1 (y σ).1

variable {w : Heap}

theorem storing_refl {P : Heap → α → Prop} {post : Heap → α → α → Prop} {x : Evaluation α}
    (hx : Coheres w P x) (hpost : ∀ w' a, P w' a → post w' a a) : storing.steps w post x x := by
  intro σ hσ hheap
  obtain ⟨hτ, hle, hP⟩ := hx σ hσ hheap
  refine ⟨hτ, hle, rfl, ?_⟩
  cases hr : (x σ).1 with
  | ok a => exact .ok (hpost _ a (hP a hr))
  | error stop => exact .error stop

theorem storing_values {x : Evaluation Located} (hx : Coheres w Heap.Locates x) :
    storing.steps w storing.values x x :=
  storing_refl hx fun _ _ hv => ⟨rfl, hv⟩

theorem storing_same {x : Evaluation α} (hx : Coheres w (fun _ _ => True) x) :
    storing.steps w Bridge.same x x :=
  storing_refl hx fun _ _ _ => rfl

/-- What is done in coherent environments only need not be the same in others. -/
theorem storing_congr {post : Heap → α → α → Prop} {x y : Evaluation α}
    (hx : storing.steps w post x x) (hxy : ∀ σ, σ.Coherent → σ.heap = w → y σ = x σ) :
    storing.steps w post x y := by
  intro σ hσ hheap
  rw [hxy σ hσ hheap]
  exact hx σ hσ hheap

theorem coheres_of_storing {x y : Evaluation Located}
    (hxy : storing.steps w storing.values x y) :
    Coheres w Heap.Locates x ∧ ∀ σ, σ.Coherent → σ.heap = w → y σ = x σ := by
  refine ⟨fun σ hσ hheap => ?_, fun σ hσ hheap => ?_⟩
  all_goals
    obtain ⟨hτ, hle, heq, hends⟩ := hxy σ hσ hheap
  · refine ⟨hτ, hle, fun v hv => ?_⟩
    generalize (y σ).1 = b at hends
    rw [hv] at hends
    cases hends with
    | ok h => exact h.2
  · refine Prod.ext ?_ heq.symm
    generalize (x σ).1 = a, (y σ).1 = b at hends
    cases hends with
    | ok h => exact congrArg Except.ok h.1.symm
    | error => rfl

theorem lists_storing {vs vs' : List Located} :
    storing.lists w vs vs' ↔ vs = vs' ∧ ∀ v ∈ vs, w.Locates v := by
  constructor
  · intro hvs
    induction hvs with
    | nil => exact ⟨rfl, List.forall_mem_nil _⟩
    | cons hv _ ih =>
      cases hv.1
      cases ih.1
      exact ⟨rfl, List.forall_mem_cons.mpr ⟨hv.2, ih.2⟩⟩
  · rintro ⟨rfl, hvs⟩
    exact List.forall₂_same.mpr fun v hv => ⟨rfl, hvs v hv⟩

theorem inStep_storing {call : Option Call} (hcalls : storing.Calls call call) :
    InStep storing (setting call) (setting call) where
  grows hle hv := ⟨hv.1, hv.2.mono hle⟩
  pure hv σ hσ hheap := ⟨hσ, hheap.ge, rfl, .ok (hheap ▸ hv)⟩
  bind {_ _ _ _ _ _ _ x y f g} hxy hfg σ hσ hheap := by
    have hx := hxy σ hσ hheap
    rcases hrun : x σ with ⟨_, τ⟩
    rcases hrun' : y σ with ⟨_, τ'⟩
    rw [hrun, hrun'] at hx
    obtain ⟨hτ, hle, rfl, hends⟩ := hx
    cases hends with
    | error stop =>
      rw [bind_of_error hrun, bind_of_error hrun']
      exact ⟨hτ, hle, rfl, .error stop⟩
    | ok hab =>
      rw [bind_of_ok hrun, bind_of_ok hrun']
      obtain ⟨hυ, hle', hends⟩ := hfg τ.heap hle _ _ hab τ hτ rfl
      exact ⟨hυ, hle.trans hle', hends⟩
  calls := hcalls
  lift {_ _ a} ha := by
    refine storing_same (.act fun s => ?_)
    rw [ha.store_eq]
    exact ⟨rfl, rfl⟩
  within operator operands hxy := by
    obtain ⟨hx, heq⟩ := coheres_of_storing hxy
    refine storing_congr (storing_values (.within _ hx)) fun σ hσ hheap => ?_
    change Evaluation.within _ _ σ = Evaluation.within _ _ σ
    rw [within_apply, within_apply, heq σ hσ hheap]
  value hv := congrArg _ hv.1
  arguments hv := by
    cases hv.1
    exact lists_storing.mpr ⟨rfl, hv.2.arguments⟩
  nil _ := ⟨rfl, .nil⟩
  cons hv ht := by
    cases hv.1
    cases ht.1
    exact storing_values (.cons hv.2 ht.2)
  atom _ := storing_values (.atom _)
  run body hargs := by
    obtain ⟨rfl, hall⟩ := lists_storing.mp hargs
    exact storing_values (.run body hall)
  scope _ := storing_same (.get_bind fun _ => .pure trivial)
  makeClosure _ scope params body := storing_values (.makeClosure scope params body)
  define frame name hv := by
    cases hv.1
    exact storing_same (.define frame name hv.2)
  inFrame names hvs hfg := by
    obtain ⟨rfl, hall⟩ := lists_storing.mp hvs
    have hbody := fun frame => coheres_of_storing (hfg _ le_rfl frame)
    refine storing_congr (storing_values (.inFrame names hall fun frame => (hbody frame).1))
      fun σ hσ hheap => ?_
    have hframe := hσ.extend names fun v hv => hheap ▸ hall v hv
    change Evaluation.inFrame _ _ _ σ = Evaluation.inFrame _ _ _ σ
    rw [inFrame_apply, inFrame_apply, (hbody _).2 _ hframe hheap]
  inScope scope hxy := by
    obtain ⟨hx, heq⟩ := coheres_of_storing hxy
    refine storing_congr (storing_values (.inScope scope hx)) fun σ hσ hheap => ?_
    change Evaluation.inScope _ _ σ = Evaluation.inScope _ _ σ
    rw [inScope_apply, inScope_apply, heq _ (hσ.enter scope) hheap]
  loopName? _ id closure := storing_same (.get_bind fun _ => .pure trivial)
  mark _ frame name := storing_same (.mark frame name)
  rebind frame params hvs := by
    obtain ⟨rfl, hall⟩ := lists_storing.mp hvs
    exact storing_same (.rebind frame params hall)

theorem runLoop_storing {w : Heap} {call : Option Call} (hcalls : storing.Calls call call)
    (closure : Closure) (frame : FrameId) (rounds : Nat) :
    storing.steps w storing.values (runLoop call closure frame rounds)
      (runLoop call closure frame rounds) := by
  induction rounds generalizing w with
  | zero => exact fun σ hσ hheap => ⟨hσ, hheap.ge, rfl, .error _⟩
  | succ rounds ih => exact (inStep_storing hcalls).round fun _ _ => ih

theorem callAt_storing (depth : Nat) : storing.Calls (callAt depth) (callAt depth) := by
  induction depth with
  | zero => exact .none
  | succ depth ih =>
    refine .some fun w id args args' hargs => (inStep_storing ih).apply ?_ id hargs
    intro w _ closure frame σ
    exact runLoop_storing (w := w) ih closure frame σ.machine.rounds σ

end Evaluation

namespace Environment

/-- Evaluation keeps an environment coherent, and stores its result as it says. -/
theorem evaluation_coherent {σ : Environment} (hσ : σ.Coherent) (depth : Nat) (task : Task) :
    let outcome := task.evaluation depth σ
    outcome.2.Coherent ∧ σ.heap ≤ outcome.2.heap ∧
      ∀ v, outcome.1 = .ok v → outcome.2.heap.Stores v.ref v.value := by
  have hcalls := Evaluation.callAt_storing depth
  have htask := (Evaluation.inStep_storing hcalls).evalTask (w := σ.heap) task
  exact (Evaluation.coheres_of_storing htask).1 σ hσ rfl

theorem Coherent.evalSource {σ : Environment} (hσ : σ.Coherent) (source : String) :
    (σ.evalSource source).2.Coherent := by
  unfold Environment.evalSource
  split
  · rename_i program _
    exact (evaluation_coherent hσ maxCallDepth (.program program)).1
  · exact hσ

theorem ofInterpreter_coherent {i : Interpreter} (hvectors : i.store.vectors = #[]) :
    (ofInterpreter i).Coherent where
  mirrors := by
    refine ⟨Heap.founded_iff.mpr nofun, congrArg Array.size hvectors.symm, fun id => ?_⟩
    have hitems : i.store.items id = #[] := by simp [Store.items, hvectors]
    exact hitems ▸ .nil
  size := Array.size_map ..
  frames f := by
    have hrefs : (ofInterpreter i).frameRefs.getD f.index .empty = Bindings.empty := by
      simp only [ofInterpreter, Array.getD_eq_getD_getElem?, Array.getElem?_map]
      cases i.store.frames[f.index]? <;> rfl
    rw [hrefs]
    exact Heap.describes_empty _
  globals := Heap.describes_empty _

theorem Coherent.register {σ : Environment} (hσ : σ.Coherent) (name : String) (f : Observer) :
    (σ.register name f).Coherent where
  mirrors := hσ.mirrors
  size := hσ.size
  frames := hσ.frames
  globals := hσ.globals.insert name (.function ..)

theorem Coherent.registerObserver {σ : Environment} (hσ : σ.Coherent) (name : String)
    (f : Heap.Observer) : (σ.registerObserver name f).Coherent where
  mirrors := hσ.mirrors
  size := hσ.size
  frames := hσ.frames
  globals := (hσ.register name _).globals

/-- Whatever programs an environment has run, and whatever functions of the host it knows, all that
is known of how values are stored is so. -/
theorem session_coherent (input : List UInt8) (hosts : List (String × Heap.Observer))
    (sources : List String) :
    let σ := hosts.foldl (fun σ host => σ.registerObserver host.1 host.2) (standard input)
    (sources.foldl (fun σ source => (σ.evalSource source).2) σ).Coherent := by
  have hhosts (σ : Environment) (hσ : σ.Coherent) :
      (hosts.foldl (fun σ host => σ.registerObserver host.1 host.2) σ).Coherent := by
    induction hosts generalizing σ with
    | nil => exact hσ
    | cons host hosts ih => exact ih _ (hσ.registerObserver host.1 host.2)
  have hsources (σ : Environment) (hσ : σ.Coherent) :
      (sources.foldl (fun σ source => (σ.evalSource source).2) σ).Coherent := by
    induction sources generalizing σ with
    | nil => exact hσ
    | cons source sources ih => exact ih _ (hσ.evalSource source)
  exact hsources _ (hhosts _ (ofInterpreter_coherent rfl))

end Environment

end Lisplet
