import Lisplet.Proofs.Forgetting
import Lisplet.Proofs.Frames.Evaluation
import Lisplet.Proofs.Realm

/-! Bindings of a name that is not mentioned. Evaluation takes the same course whether a frame binds
the name or not, and whatever to. -/
namespace Lisplet

/-- A closure that has a name neither in its body nor among its parameters, nor for its own. -/
structure Closure.Omits (x : String) (c : Closure) : Prop where
  body : SelfUse.mentions (· = x) c.body = false
  params : x ∉ c.params
  naming : ∀ given ∈ c.naming, given.name ≠ x

instance (x : String) (c : Closure) : Decidable (c.Omits x) :=
  decidable_of_iff (SelfUse.mentions (· = x) c.body = false ∧ x ∉ c.params ∧
    ∀ given ∈ c.naming, given.name ≠ x)
    ⟨fun ⟨hbody, hparams, hnaming⟩ => ⟨hbody, hparams, hnaming⟩,
      fun h => ⟨h.body, h.params, h.naming⟩⟩

/-- An observer that does not look into frames, and answers with what its arguments lead to. -/
structure Observer.Discreet (f : Observer) : Prop where
  blind : ∀ (s : Store) (frames : Array Frame) (args : List Value),
    f { s with frames } args = f s args
  answer : ∀ (s : Store) (args : List Value) (v : Value), f s args = .ok v →
    ∀ n ∈ v.nodes, s.Reaches (fun n => ∃ arg ∈ args, n ∈ arg.nodes) n

/-- What refers only to parts in `K`, and mentions a name nowhere it could be looked up. -/
def Realm.omitting (K : Node → Prop) (x : String) : Realm where
  expression e := SelfUse.mentions (· = x) e = false ∧ e.Within K
  value := Value.Within K
  frame f := K (.frame f)
  closure c := c.Omits x ∧ K (.frame c.scope) ∧ c.body.Within K

theorem Realm.omitting_symbol {K : Node → Prop} {x name : String} :
    (omitting K x).expression (.symbol name) ↔ name ≠ x := by
  simp [omitting, SelfUse.mentions, Value.Within, Value.nodes]

theorem Realm.omitting_closed (K : Node → Prop) (x : String) : (omitting K x).Closed where
  parts := by
    rintro a b ⟨hmentions, hwithin⟩
    rw [SelfUse.mentions, Bool.or_eq_false_iff] at hmentions
    obtain ⟨ha, hb⟩ := (Value.within_kind K).pair.mp hwithin
    exact ⟨⟨hmentions.1, ha⟩, hmentions.2, hb⟩
  literal he _ _ := he.2
  nil := (Value.within_kind K).nil
  pair := (Value.within_kind K).pair
  arguments h := h
  params hc p hp := omitting_symbol.mpr fun hx => hc.1.params (hx ▸ hp)
  body hc := ⟨hc.1.body, hc.2.2⟩
  scope hc := hc.2.1

namespace Action

/-- The second action does without a frame's binding of a name what the first does with it, and
keeps to the parts in `K`. -/
structure Oblivious (K : Node → Prop) (F : FrameId) (x : String) {α : Type} (P : α → Prop)
    (a b : Action α) : Prop where
  keeps : Holds (Store.Enclosed K (Closure.Omits x)) b P
  same : ∀ s : Store, (s.forget F x).Enclosed K (Closure.Omits x) →
    b (s.forget F x) = ((a s).1, (a s).2.forget F x)

namespace Oblivious

variable {K : Node → Prop} {F : FrameId} {x : String} {α β : Type} {P : α → Prop} {Q : β → Prop}

theorem pure {v : α} (h : P v) : Oblivious K F x P (pure v) (pure v) :=
  ⟨Keeps.pure h, fun _ _ => rfl⟩

theorem bind {a b : Action α} {f g : α → Action β} (hab : Oblivious K F x P a b)
    (hfg : ∀ v, P v → Oblivious K F x Q (f v) (g v)) :
    Oblivious K F x Q (a >>= f) (b >>= g) where
  keeps := hab.keeps.bind fun _ _ v hv => (hfg v hv).keeps
  same s hs := by
    obtain ⟨_, _, hs', hresult⟩ := hab.keeps _ hs
    have hb := hab.same s hs
    rw [hb] at hs' hresult
    rcases ha : a s with ⟨stop | v, s'⟩ <;> rw [ha] at hb hs' hresult
    · rw [bind_error ha, bind_error hb]
    · rw [bind_ok ha, bind_ok hb]
      exact (hfg v (hresult v rfl)).same s' hs'

theorem within {a b : Action α} (e : Value) (hab : Oblivious K F x P a b) :
    Oblivious K F x P (Action.within e a) (Action.within e b) where
  keeps := hab.keeps.within e
  same s hs := by
    have hb := hab.same s hs
    rcases ha : a s with ⟨stop | v, s'⟩ <;> rw [ha] at hb
    · rw [within_error ha, within_error hb, (s'.alike_forget F x).text]
    · rw [within_ok ha, within_ok hb]

/-- What only reads the store has to find the same. -/
theorem ask {a : Action α} (hstore : ∀ s, (a s).2 = s)
    (hsame : ∀ s : Store, (a (s.forget F x)).1 = (a s).1)
    (hP : ∀ s : Store, s.Enclosed K (Closure.Omits x) → ∀ v, (a s).1 = .ok v → P v) :
    Oblivious K F x P a a where
  keeps := Keeps.read hstore hP
  same s _ := Prod.ext (hsame s) (by rw [hstore, hstore])

theorem read {a : Action α} (h : a.Reads) (hP : ∀ s v, (a s).1 = .ok v → P v) :
    Oblivious K F x P a a :=
  ask h.store (fun s => h.akin _ _ (s.alike_forget F x).toAkin) fun s _ => hP s

theorem change {f : Store → α × Store}
    (hsame : ∀ s : Store, f (s.forget F x) = ((f s).1, (f s).2.forget F x))
    (hkeeps : ∀ s : Store, s.Enclosed K (Closure.Omits x) →
      (f s).2.Enclosed K (Closure.Omits x) ∧ P (f s).1) :
    Oblivious K F x P (Action.change f) (Action.change f) where
  keeps := Keeps.change fun s hs => ⟨⟨⟩, le_rfl, hkeeps s hs⟩
  same s _ := by simp only [Action.change, hsame]

theorem modify {f : Store → Store} (hsame : ∀ s : Store, f (s.forget F x) = (f s).forget F x)
    (hkeeps : ∀ s : Store, s.Enclosed K (Closure.Omits x) →
      (f s).Enclosed K (Closure.Omits x)) :
    Oblivious K F x (fun _ => True) (modify f) (modify f) :=
  change (f := fun s => ((), f s)) (fun s => by rw [hsame]) fun s hs => ⟨hkeeps s hs, trivial⟩

/-- What primitives do is nothing to frames. -/
theorem of_local {a : Action α} (ha : a.Local)
    (hkeeps : Holds (Store.Filled (Value.Within K)) a P) : Oblivious K F x P a a where
  keeps s hs := by
    obtain ⟨_, _, hs', hresult⟩ := hkeeps s hs.vectors
    obtain ⟨-, -, hframes, hclosures⟩ := ha s s (.refl s)
    exact ⟨⟨⟩, le_rfl, hs.of_frames_eq hframes hclosures hs', hresult⟩
  same s _ := by
    obtain ⟨hresult, halike, hframes', hclosures'⟩ := ha _ _ (s.alike_forget F x)
    obtain ⟨-, -, hframes, hclosures⟩ := ha s s (.refl s)
    have hstore : (a s).2.forget F x = { (a s).2 with frames := (s.forget F x).frames } := by
      simp only [Store.forget, hframes]
    refine Prod.ext hresult ?_
    rw [hstore]
    exact Store.ext_of_alike hframes' (hclosures'.trans hclosures.symm) halike

end Oblivious

end Action

namespace Machine

open Action

variable {K : Node → Prop} {F : FrameId} {x : String} {m : Machine}

theorem find?_forget (m : Machine) (s : Store) (F : FrameId) {x name : String} (h : name ≠ x)
    (scope : FrameId) : m.find? (s.forget F x) scope name = m.find? s scope name := by
  rw [find?, find?, s.chain_forget, s.find?_forget F x h]

theorem lookup_oblivious (hglobals : ∀ name v, m.globals.find? name = some v → v.Within K)
    {scope : FrameId} (hscope : K (.frame scope)) {name : String} (hname : name ≠ x) :
    Oblivious K F x (Value.Within K) (m.lookup scope name) (m.lookup scope name) := by
  refine .ask (m.evalAtom_store scope (.symbol name))
    (fun s => m.lookup_congr (m.find?_forget s F hname scope)) fun s hs v hv => ?_
  rw [m.lookup_apply] at hv
  split at hv
  · rename_i found hfound
    cases hv
    rw [find?, Option.or_eq_some_iff] at hfound
    rcases hfound with hfound | ⟨-, hfound⟩
    · exact hs.find?_within (fun f hf => hs.outer hscope hf) hfound
    · exact hglobals name v hfound
  · cases hv

theorem run_oblivious (hhosts : ∀ f ∈ m.hosts, f.Discreet) (body : Procedure) {args : List Value}
    (hargs : ∀ v ∈ args, v.Within K) :
    Oblivious K F x (Value.Within K) (m.run body args) (m.run body args) := by
  cases body with
  | primitive p => exact .of_local (p.run_local args) (p.run_filled (Value.within_kind K) hargs)
  | recur => exact .pure ((Value.within_kind K).ofList.mpr hargs)
  | host slot =>
    rw [run]
    cases hslot : m.hosts[slot]? with
    | none => exact .pure (Value.within_kind K).nil
    | some f =>
      have hf := hhosts f (Array.mem_of_getElem? hslot)
      refine .ask (fun s => ?_) (fun s => ?_) fun s hs v hv => ?_
      · change (ofExcept (f s args) s).2 = s
        cases f s args <;> rfl
      · change (ofExcept (f (s.forget F x) args) (s.forget F x)).1 = (ofExcept (f s args) s).1
        rw [show f (s.forget F x) args = f s args from hf.blind s _ args]
        cases f s args <;> rfl
      · intro n hn
        refine hs.of_reaches ?_ (hf.answer s args v (eq_ok_of_ofExcept hv) n hn)
        rintro n ⟨arg, harg, hn⟩
        exact hargs arg harg n hn

theorem makeClosure_oblivious {scope : FrameId} (hscope : K (.frame scope)) {params body : Value}
    (hparams : SelfUse.mentions (· = x) params = false)
    (hbody : SelfUse.mentions (· = x) body = false) (hwithin : body.Within K) :
    Oblivious K F x (Value.Within K) (Action.makeClosure scope params body)
      (Action.makeClosure scope params body) := by
  rw [Action.makeClosure_eq]
  refine .bind (P := (x ∉ ·)) (.read (.parameters params) fun s names hnames hx => ?_)
    fun names hx => ?_
  · have hother := Form.forall_mem_of_parameters (eq_ok_of_ofExcept hnames) hparams x hx
    simp at hother
  · refine .bind (P := fun id => K (.closure id)) (.change (fun _ => rfl) fun s hs => ?_)
      fun id hid => .pure (Value.within_closure.mpr hid)
    exact ⟨hs.pushClosure ⟨hbody, hx, nofun⟩ hscope hwithin,
      hs.freshClosures _ (Nat.le_refl _)⟩

theorem extend_oblivious {scope : FrameId} (hscope : K (.frame scope)) {names : List String}
    (hnames : x ∉ names) {values : List Value} (hvalues : ∀ v ∈ values, v.Within K) :
    Oblivious K F x (fun f => K (.frame f)) (Action.extend scope names values)
      (Action.extend scope names values) := by
  refine .change (fun s => s.pushFrame_forget F x scope (Bindings.erase_ofLists hnames values))
    fun s hs => ⟨hs.pushFrame hscope fun name v hv => ?_, hs.freshFrames _ (Nat.le_refl _)⟩
  exact hvalues v (Bindings.mem_of_find?_ofLists hv).2

theorem define_oblivious (frame : FrameId) {name : String} (hname : name ≠ x) {value : Value}
    (hvalue : value.Within K) :
    Oblivious K F x (fun _ => True) (Action.define frame name value)
      (Action.define frame name value) := by
  refine .modify (fun s => ?_) fun s hs => ?_
  · rw [s.nameValue_forget, Store.bind_forget _ F x hname]
  · refine (hs.nameValue (fun c loops hc => ⟨hc.body, hc.params, ?_⟩) value).bind frame name hvalue
    rintro given ⟨rfl⟩
    exact hname

/-- Steps of evaluation that do not mention a name take no notice of what a frame binds it to. -/
theorem oblivious (hhosts : ∀ f ∈ m.hosts, f.Discreet)
    (hglobals : ∀ name v, m.globals.find? name = some v → v.Within K) :
    m.Respects (Realm.omitting K x) (Oblivious K F x) where
  toClosed := Realm.omitting_closed K x
  pure := .pure
  bind := .bind
  within := .within
  read := .read
  unfinished := ⟨Keeps.throw _ _, fun _ _ => rfl⟩
  lookup hscope hname := lookup_oblivious hglobals hscope (Realm.omitting_symbol.mp hname)
  run _ hargs := run_oblivious hhosts _ hargs
  makeClosure hscope hparams hbody := makeClosure_oblivious hscope hparams.1 hbody.1 hbody.2
  extend hscope hnames hvalues :=
    extend_oblivious hscope (fun hx => Realm.omitting_symbol.mp (hnames x hx) rfl) hvalues
  define _ hname hvalue := define_oblivious _ (Realm.omitting_symbol.mp hname) hvalue
  closure? hid := .ask (fun _ => rfl) (fun _ => rfl) fun s hs found hfound c hc => by
    cases hfound
    exact hs.closures (Value.within_closure.mp hid) hc
  checkCount id got e := .ask (checkCount_store id got e)
    (fun s => checkCount_congr (s.closures_forget F x) (s.alike_forget F x).text id got e)
    fun _ _ _ _ => trivial
  loopName? hc := by
    refine .ask (fun _ => rfl) (fun s => ?_) fun s _ loop hloop name hname => ?_
    · exact congrArg Except.ok (loopName?_congr _ fun given hgiven =>
        m.find?_forget s F (hc.1.naming given hgiven) _)
    · cases hloop
      obtain ⟨-, ⟨given, hgiven, rfl, -⟩, -⟩ := loopName?_eq_some hname
      exact Realm.omitting_symbol.mpr (hc.1.naming given hgiven)
  bindLoop _ hname := by
    refine .modify (fun s => s.bind_forget F x (Realm.omitting_symbol.mp hname) _ _) fun s hs => ?_
    exact hs.bind _ _ (List.forall_mem_nil K)
  overwrite _ hname hvalue := by
    have hne := Realm.omitting_symbol.mp hname
    refine .modify (fun s => ?_) fun s hs => hs.bind _ _ hvalue
    rw [s.chain_forget, s.frameOf?_forget F x hne, s.bind_forget F x hne]

def Present (m : Machine) (s : Store) (scope : FrameId) (e : Value) : Node → Prop :=
  s.Reaches fun n => n = .frame scope ∨ n ∈ e.nodes ∨
    ∃ name v, m.globals.find? name = some v ∧ n ∈ v.nodes

/-- If a name occurs neither in an expression nor in a closure that is present, it makes no
difference to evaluation what a frame binds the name to: the outcome and the output are the same,
and so are the stores in the end, but for that binding. -/
theorem evalAt_ignores_unmentioned (m : Machine) (hhosts : ∀ f ∈ m.hosts, f.Discreet) (s : Store)
    (F : FrameId) (x : String) (w : Value) (depth : Nat) (scope : FrameId) (e : Value)
    (he : SelfUse.mentions (· = x) e = false)
    (hclosures : ∀ id c, m.Present s scope e (.closure id) → s.closures[id.index]? = some c →
      c.Omits x) :
    let without := m.evalAt depth scope e s
    let bound := m.evalAt depth scope e (s.bind F x w)
    bound.1 = without.1 ∧ bound.2.output = without.2.output ∧
      bound.2.forget F x = without.2.forget F x := by
  intro without bound
  -- What is present and what has yet to be added refers to nothing else.
  let K : Node → Prop := fun n => m.Present s scope e n ∨ s.Lacks n
  have hs : (s.forget F x).Enclosed K (Closure.Omits x) :=
    (Store.enclosed_of_reaches hclosures).forget F x
  have hglobals (name : String) (v : Value) (hv : m.globals.find? name = some v) : v.Within K :=
    fun n hn => .inl (.start (.inr (.inr ⟨name, v, hv, hn⟩)))
  have hscope : K (.frame scope) := .inl (.start (.inl rfl))
  have hexpression : (Realm.omitting K x).expression e :=
    ⟨he, fun n hn => .inl (.start (.inr (.inl hn)))⟩
  have hrun : Oblivious K F x (Value.Within K) (m.evalAt depth scope e) (m.evalAt depth scope e) :=
    (oblivious hhosts hglobals).evalAt depth hscope hexpression
  have hwithout := hrun.same s hs
  have hbound := hrun.same (s.bind F x w) (s.forget_bind_self F x w ▸ hs)
  rw [s.forget_bind_self F x w, hwithout] at hbound
  obtain ⟨hresult, hstore⟩ := Prod.mk.inj hbound
  have houtput : (bound.2.forget F x).output = (without.2.forget F x).output := by rw [hstore]
  exact ⟨hresult.symm, houtput, hstore.symm⟩

theorem evalAt_ignores_unmentioned_countdown :
    let i := (Interpreter.standard []).register "answer" fun _ _ => .ok (.integer 42)
    let s := (i.evalSource "(define (f n) (if (= n 0) (print (answer)) (f (- n 1))))").2.store
    let e := Value.ofList [.symbol "f", .integer 2]
    let without := i.machine.evalAt maxCallDepth i.scope e s
    let bound := i.machine.evalAt maxCallDepth i.scope e (s.bind i.scope "m" (.closure ⟨0⟩))
    without.2.output = "42\n" ∧ bound.1 = without.1 ∧ bound.2.output = without.2.output ∧
      bound.2.forget i.scope "m" = without.2.forget i.scope "m" := by
  intro i s e
  have hhosts : ∀ f ∈ i.machine.hosts, f.Discreet := by
    intro f hf
    obtain rfl := Array.mem_singleton.mp hf
    exact ⟨fun _ _ _ => rfl, fun s args v hv n hn => by cases hv; cases hn⟩
  have he : SelfUse.mentions (· = "m") e = false := by decide
  have hclosures : ∀ c ∈ s.closures.toList, c.Omits "m" := by decide +kernel
  have houtput : (i.machine.evalAt maxCallDepth i.scope e s).2.output = "42\n" := by decide +kernel
  exact ⟨houtput, i.machine.evalAt_ignores_unmentioned hhosts s i.scope "m" (.closure ⟨0⟩)
    maxCallDepth i.scope e he fun id c _ hc => hclosures c (Array.mem_of_getElem? hc).val⟩

end Machine

end Lisplet
