import Lisplet.Proofs.Lockstep.Bonds

/-! Evaluation with loops and evaluation without them run in lockstep: a lemma for each form,
outside of loops and in the operands of their bodies. -/
namespace Lisplet

/-- Two evaluations in frames that belong together have the same ordinary value, and the frames
belong together as before. -/
abbrev Bond.InStep (β : Bond) (side : Side) (m : Machine) (f g : FrameId) (a b : Action Value) :
    Prop :=
  Lockstep side (β.Links m f g) a b (Same (β.Links m f g) fun v => v.isOrdinary = true)

/-- Two ways of applying closures that run in lockstep. The excused one may be out of calls before
the other is. -/
structure CallsMatch (side : Side) (callL callR : Option Call) : Prop where
  discreet_left : ∀ apply ∈ callL, apply.Discreet
  discreet_right : ∀ apply ∈ callR, apply.Discreet
  left : side = .left → callR = none → callL = none
  right : side = .right → callL = none → callR = none
  apply : ∀ {applyL applyR}, callL = some applyL → callR = some applyR →
    ∀ id args, (∀ v ∈ args, v.isOrdinary = true) →
      Lockstep side (fun _ s _ => args.length = s.paramCount id) (applyL id args) (applyR id args)
        SameValue

namespace Lockstep

variable {side : Side} {m : Machine} {β : Bond} {f g : FrameId}

theorem extend {names : List String}
    (hnames : ∀ x ∈ names, β.mode ≠ .loop x ∧ reserved x = false) {values : List Value}
    (hvalues : ∀ v ∈ values, v.isOrdinary = true) :
    Lockstep side (β.Links m f g) (Action.extend f names values) (Action.extend g names values)
      fun ρ s t f' g' => β.Links m f' g' ρ s t ∧ β.Owns f' := by
  intro ρ s t hst hlinks
  have hb (x : String) (v : Value) (hv : (Bindings.ofLists names values).find? x = some v) :
      β.mode ≠ .loop x ∧ reserved x = false ∧ v.isOrdinary = true := by
    obtain ⟨hx, hv⟩ := Bindings.mem_of_find?_ofLists hv
    exact ⟨(hnames x hx).1, (hnames x hx).2, hvalues v hv⟩
  obtain ⟨ρ', hgrows, hst', hlinks', howns⟩ := hlinks.pushFrame hst hb
  exact .inr ⟨ρ', hgrows, hst', hlinks', howns⟩

theorem define (howns : β.Owns f) {x : String} (hx : β.mode ≠ .loop x)
    (hreserved : reserved x = false) {value : Value} (hvalue : value.isOrdinary = true) :
    Lockstep side (β.Links m f g) (Action.define f x value) (Action.define g x value)
      (Same (β.Links m f g) fun _ => True) := by
  intro ρ s t hst hlinks
  obtain ⟨hst', hlinks'⟩ := hlinks.define hst howns hx hreserved hvalue
  have hsize : ((t.nameValue x value).bind g x value).frames.size = t.frames.size := by
    rw [Store.size_frames_bind, Store.frames_nameValue]
  refine .inr ⟨ρ, .of_size_le ρ (Nat.le_of_eq hsize.symm) ?_, hst', hlinks', rfl, trivial⟩
  exact (Store.KeepsClosures.nameValue t x value).trans (.of_eq rfl)

theorem makeClosure {params body : Value} (hparams : SelfUse.mentions reserved params = false)
    (hbody : hygienic reserved body = true) :
    Bond.plain.InStep side m f g (Action.makeClosure f params body)
      (Action.makeClosure g params body) := by
  refine get_bind fun s t hst => ?_
  rw [Form.parameters_local hst.toAkin]
  refine ofExcept_bind fun names hnames => ?_
  intro ρ s t hst hlinks
  have hst' := hst.pushClosure hlinks
    ⟨Form.forall_mem_of_parameters hnames hparams, hbody, nofun, nofun⟩
  refine .inr ⟨ρ, .of_size_le ρ (Nat.le_refl _) (.pushClosure t _), hst', hlinks, ?_, rfl⟩
  exact congrArg (fun n => Value.closure ⟨n⟩) hst.size.symm

theorem checkCount {inv : Assertion} (id : ClosureId) (got : Nat) (e : Value) :
    Lockstep side inv (Action.checkCount id got e) (Action.checkCount id got e)
      fun ρ s t _ _ => inv ρ s t ∧ got = s.paramCount id := by
  intro ρ s t hst hinv
  rw [Action.checkCount_apply, Action.checkCount_apply, hst.paramCount, hst.alike.text]
  by_cases hgot : got = s.paramCount id
  · rw [if_pos hgot, if_pos hgot]
    exact .inr ⟨ρ, .refl ρ t, hst, hinv, hgot⟩
  · rw [if_neg hgot, if_neg hgot]
    exact .inr ⟨ρ, .refl ρ t, hst, rfl⟩

theorem checkList {inv : Assertion} (v : Value) :
    Lockstep side inv (Action.checkList v) (Action.checkList v) (Same inv fun _ => True) := by
  unfold Action.checkList
  cases v.isList with
  | true => exact pure fun _ _ _ h => ⟨h, rfl, trivial⟩
  | false => exact fail_text

/-- What is done inside of a new frame leaves the frames around it as they belong together. -/
theorem inFrame {names : List String}
    (hnames : ∀ x ∈ names, β.mode ≠ .loop x ∧ reserved x = false) {values : List Value}
    (hvalues : ∀ v ∈ values, v.isOrdinary = true) {a b : FrameId → Action Value}
    (ha : ∀ f' s, Store.Retains (· = f') s (a f' s).2)
    (hb : ∀ g' t, Store.Retains (· = g') t (b g' t).2) {P : Value → Prop}
    (h : ∀ f' g', β.Owns f' →
      Lockstep side (β.Links m f' g') (a f') (b g') (Same (β.Links m f' g') P)) :
    Lockstep side (β.Links m f g) (Action.extend f names values >>= a)
      (Action.extend g names values >>= b) (Same (β.Links m f g) P) := by
  intro ρ s t hst hlinks
  rcases extend hnames hvalues ρ s t hst hlinks with hexcused | ⟨ρ', hgrows, hst', hlinks', howns⟩
  · exact .inl (hexcused.bind a b)
  have hs : Action.extend f names values s =
      (.ok (s.pushFrame (some f) (.ofLists names values)).1,
        (s.pushFrame (some f) (.ofLists names values)).2) := rfl
  have ht : Action.extend g names values t =
      (.ok (t.pushFrame (some g) (.ofLists names values)).1,
        (t.pushFrame (some g) (.ofLists names values)).2) := rfl
  rw [hs, ht] at hst'
  rw [ht] at hgrows
  rw [Action.bind_ok hs, Action.bind_ok ht]
  rcases h _ _ howns ρ' _ _ hst' hlinks' with hexcused | ⟨ρ'', hgrows', hst'', hend⟩
  · exact .inl hexcused
  have hkept := ((Store.Retains.refl (fun _ => False) s).pushFrame (some f)
    (.ofLists names values)).trans (ha _ _) fun _ hf => .inr (hf ▸ Nat.le_refl _)
  have hkept' := ((Store.Retains.refl (fun _ => False) t).pushFrame (some g)
    (.ofLists names values)).trans (hb _ _) fun _ hg => .inr (hg ▸ Nat.le_refl _)
  have houter := hlinks.retained hst hkept hkept' (hgrows.trans hgrows')
  exact .inr ⟨ρ'', hgrows.trans hgrows', hst'', hend.same houter⟩

end Lockstep

theorem CallsMatch.apply_links {side : Side} {callL callR : Option Call}
    (calls : CallsMatch side callL callR) {applyL applyR : Call} (hL : callL = some applyL)
    (hR : callR = some applyR) {β : Bond} {m : Machine} {f g : FrameId} (id : ClosureId)
    {args : List Value} (hargs : ∀ v ∈ args, v.isOrdinary = true) :
    Lockstep side (fun ρ s t => β.Links m f g ρ s t ∧ args.length = s.paramCount id)
      (applyL id args) (applyR id args) (Same (β.Links m f g) fun v => v.isOrdinary = true) := by
  rintro ρ s t hst ⟨hlinks, hlen⟩
  rcases calls.apply hL hR id args hargs ρ s t hst hlen with hexcused | ⟨ρ', hgrows, hst', hend⟩
  · exact .inl hexcused
  have hkept := calls.discreet_left applyL hL id args s hlen
  have hkept' := calls.discreet_right applyR hR id args t (hst.paramCount id ▸ hlen)
  have houter := hlinks.retained hst hkept hkept' hgrows
  exact .inr ⟨ρ', hgrows, hst', hend.same houter⟩

namespace Machine

open Lockstep

section

set_option linter.unusedSectionVars false

variable {side : Side} {m : Machine} (hm : m.Standard) {callL callR : Option Call}
  (calls : CallsMatch side callL callR) {β : Bond} {f g : FrameId}

include hm

theorem evalAtom_lockstep {e : Value} (he : hygienicAtom reserved e = true)
    (ha : β.mode.Admits e) :
    β.InStep side m f g (m.evalAtom f e) (m.recursive.evalAtom g e) := by
  cases e with
  | symbol x =>
    have hreserved : reserved x = false := (Bool.not_eq_true' _).mp he
    have hx := Mode.ne_of_admits_symbol ha
    intro ρ s t hst hlinks
    have hsame : m.recursive.find? t g x = m.find? s f x := hlinks.find? hst hx
    change Outcome side ρ t _ (m.lookup f x s) (m.recursive.lookup g x t)
    rw [lookup_apply, lookup_apply, hsame]
    cases hv : m.find? s f x with
    | none => exact .inr ⟨ρ, .refl ρ t, hst, rfl⟩
    | some v =>
      have hordinary := hlinks.isOrdinary hst hm hx hreserved hv
      exact .inr ⟨ρ, .refl ρ t, hst, hlinks, rfl, hordinary⟩
  | function | special | closure | pair | vector | tailCall => cases he
  | _ => exact Lockstep.pure fun _ _ _ hlinks => ⟨hlinks, rfl, rfl⟩

/-- The name of a special form stands for the form in both evaluations. -/
theorem formName_lockstep {applyL applyR : Call} (hL : callL = some applyL)
    (hR : callR = some applyR) (form : SpecialForm) :
    Lockstep side (β.Links m f g) (m.evalWith callL f (.symbol form.name))
      (m.recursive.evalWith callR g (.symbol form.name))
      (Same (β.Links m f g) fun v => v = .special form) := by
  rw [m.evalWith_atom hL f (by simp), m.recursive.evalWith_atom hR g (by simp)]
  intro ρ s t hst hlinks
  have hfound := hlinks.find?_name hst hm form
  have hfound' : m.recursive.find? t g form.name = some (.special form) :=
    (hlinks.find? hst (hlinks.mode_ne form)).trans hfound
  change Outcome side ρ t _ (m.lookup f form.name s) (m.recursive.lookup g form.name t)
  rw [lookup_apply, lookup_apply, hfound, hfound']
  exact .inr ⟨ρ, .refl ρ t, hst, hlinks, rfl, rfl⟩

theorem run_lockstep {body : Procedure} (hbody : body ≠ .recur) {args : List Value}
    (hargs : ∀ v ∈ args, v.isOrdinary = true) :
    β.InStep side m f g (m.run body args) (m.recursive.run body args) := by
  rw [m.recursive_run]
  cases body with
  | primitive p =>
    refine Lockstep.of_local (p.run_local args) (p.run_ordinary hargs) ?_
    exact fun _ _ _ _ _ hst hlinks hs ht hclosures =>
      hlinks.of_frames hst hs ht (.of_eq hclosures)
  | recur => exact absurd rfl hbody
  | host slot =>
    simp only [run, hm.hosts]
    exact Lockstep.pure fun _ _ _ hlinks => ⟨hlinks, rfl, rfl⟩

include calls

/-- What is done with the operands of an operator that has an ordinary value. -/
theorem dispatch_lockstep {applyL applyR : Call} (hL : callL = some applyL)
    (hR : callR = some applyR) (operator : Value) {operands v : Value} (hv : v.isOrdinary = true)
    (hargs : Lockstep side (β.Links m f g) (m.evalArgs callL f operands)
      (m.recursive.evalArgs callR g operands)
      (Same (β.Links m f g) fun vs => ∀ v ∈ vs, v.isOrdinary = true))
    (helements : β.InStep side m f g (m.evalElements callL f operands)
      (m.recursive.evalElements callR g operands)) :
    β.InStep side m f g (m.dispatch callL applyL f operator operands v)
      (m.recursive.dispatch callR applyR g operator operands v) := by
  have hdata : β.InStep side m f g (do return Value.pair v (← m.evalElements callL f operands))
      (do return Value.pair v (← m.recursive.evalElements callR g operands)) :=
    bind_same helements fun w hw =>
      Lockstep.pure fun _ _ _ hlinks => ⟨hlinks, rfl, Bool.and_eq_true_iff.mpr ⟨hv, hw⟩⟩
  cases v with
  | function name arity body =>
    refine bind_same hargs fun args hargs => ?_
    refine ofExcept_bind fun _ _ => run_lockstep hm ?_ hargs
    simpa [Value.isOrdinary] using hv
  | closure id =>
    refine bind_same hargs fun args hargs => ?_
    refine bind (Lockstep.checkCount id args.length _) fun _ _ => ?_
    exact calls.apply_links hL hR id hargs
  | special form => cases hv
  | _ => exact hdata

def LockstepAt (side : Side) (m : Machine) (callL callR : Option Call) (e : Value) : Prop :=
  ∀ (β : Bond) f g, hygienic reserved e = true → β.mode.Admits e →
    β.InStep side m f g (m.evalWith callL f e) (m.recursive.evalWith callR g e)

omit hm calls in
/-- The right sides and the body of a `letrec` bind names in its own frame only. -/
theorem letRec_frames (m : Machine) {call : Option Call} (hcall : ∀ apply ∈ call, apply.Discreet)
    (bindings body : Value) (frame : FrameId) (s : Store) :
    Store.Retains (· = frame) s
      ((do m.bindInits call frame bindings; m.evalWith call frame body) s).2 := by
  have hopen : Store.Retains.Open (· = frame) s frame := .inl rfl
  have hkeeps := Action.Keeps.andThen (m.bindInits_retains hcall hopen bindings)
    fun _ _ _ => m.evalWith_retains hcall hopen body
  obtain ⟨_, -, h, -⟩ := hkeeps s (.refl _ s)
  exact h

omit hm calls in
/-- The bindings of a `let` can be bound in frames of its own. -/
theorem boundNames_free {s : Store} {form : SpecialForm} {bindings : Value} {names : List String}
    (h : Form.boundNames s form bindings = .ok names)
    (he : hygienicBindings reserved bindings = true) (ha : β.mode.AdmitsBindings bindings) :
    ∀ x ∈ names, β.mode ≠ .loop x ∧ reserved x = false := by
  intro x hx
  exact ⟨Form.forall_mem_of_boundNames h (Form.eachTarget_of_admitsBindings ha) x hx,
    Form.forall_mem_of_boundNames h (Form.eachTarget_of_hygienicBindings he) x hx⟩

section

variable {e : Value} (ih : ∀ x, sizeOf x < sizeOf e → LockstepAt side m callL callR x)

omit hm calls

include ih

theorem evalArgs_lockstep (he : hygienicElements reserved e = true) (ha : β.mode.Admits e) :
    Lockstep side (β.Links m f g) (m.evalArgs callL f e) (m.recursive.evalArgs callR g e)
      (Same (β.Links m f g) fun vs => ∀ v ∈ vs, v.isOrdinary = true) := by
  induction e with
  | nil =>
    exact Lockstep.pure fun _ _ _ hlinks => ⟨hlinks, rfl, fun _ hv => absurd hv List.not_mem_nil⟩
  | pair e rest _ ihrest =>
    rw [hygienicElements, Bool.and_eq_true] at he
    rw [Mode.admits_pair] at ha
    have hrest := ihrest (fun x hx => ih x (by grind)) he.2 ha.2
    refine bind_same (ih e (by grind) β f g he.1 ha.1) fun v hv => ?_
    refine bind_same hrest fun vs hvs => ?_
    exact Lockstep.pure fun _ _ _ hlinks => ⟨hlinks, rfl, List.forall_mem_cons.mpr ⟨hv, hvs⟩⟩
  | _ =>
    rw [m.evalArgs_eq, m.recursive.evalArgs_eq]
    exact fail_text

theorem evalElements_lockstep (hm : m.Standard) {applyL applyR : Call} (hL : callL = some applyL)
    (hR : callR = some applyR) (he : hygienicElements reserved e = true) (ha : β.mode.Admits e) :
    β.InStep side m f g (m.evalElements callL f e) (m.recursive.evalElements callR g e) := by
  induction e with
  | pair e rest _ ihrest =>
    rw [hygienicElements, Bool.and_eq_true] at he
    rw [Mode.admits_pair] at ha
    have hrest := ihrest (fun x hx => ih x (by grind)) he.2 ha.2
    refine bind_same (ih e (by grind) β f g he.1 ha.1) fun v hv => ?_
    refine bind_same hrest fun w hw => ?_
    exact Lockstep.pure fun _ _ _ hlinks => ⟨hlinks, rfl, Bool.and_eq_true_iff.mpr ⟨hv, hw⟩⟩
  | _ =>
    rw [m.evalElements_atom hL f (by simp), m.recursive.evalElements_atom hR g (by simp)]
    rw [hygienicElements_atom (by simp)] at he
    exact evalAtom_lockstep hm he ha

theorem evalInits_lockstep (he : hygienicBindings reserved e = true)
    (ha : β.mode.AdmitsBindings e) :
    Lockstep side (β.Links m f g) (m.evalInits callL f e) (m.recursive.evalInits callR g e)
      (Same (β.Links m f g) fun vs => ∀ v ∈ vs, v.isOrdinary = true) := by
  fun_induction Mode.AdmitsBindings β.mode e with
  | case1 target init rest ihrest =>
    simp only [hygienicBindings, Bool.and_eq_true] at he
    have hrest := ihrest (fun x hx => ih x (by grind)) he.2 ha.2.2
    rw [evalInits_eq m, evalInits_eq m.recursive]
    refine bind_same (ih init (by grind) β f g he.1.2 ha.2.1) fun v hv => ?_
    refine bind_same hrest fun vs hvs => ?_
    exact Lockstep.pure fun _ _ _ hlinks => ⟨hlinks, rfl, List.forall_mem_cons.mpr ⟨hv, hvs⟩⟩
  | case2 e h =>
    rw [evalInits_eq m, evalInits_eq m.recursive]
    split
    · exact (h _ _ _ rfl).elim
    exact Lockstep.pure fun _ _ _ hlinks => ⟨hlinks, rfl, fun _ hv => absurd hv List.not_mem_nil⟩

theorem bindInits_lockstep (howns : β.Owns f) (he : hygienicBindings reserved e = true)
    (ha : β.mode.AdmitsBindings e) :
    Lockstep side (β.Links m f g) (m.bindInits callL f e) (m.recursive.bindInits callR g e)
      (Same (β.Links m f g) fun _ => True) := by
  fun_induction Form.EachTarget (fun _ => True) e with
  | case1 x init rest ihrest =>
    simp only [hygienicBindings, Bool.and_eq_true, Bool.not_eq_true', SelfUse.mentions] at he
    have hrest := ihrest (fun x hx => ih x (by grind)) he.2 ha.2.2
    rw [bindInits_eq m, bindInits_eq m.recursive]
    refine bind_same (ih init (by grind) β f g he.1.2 ha.2.1) fun value hvalue => ?_
    exact bind_same (Lockstep.define howns (ha.1 x rfl) he.1.1 hvalue) fun _ _ => hrest
  | case2 e h =>
    rw [bindInits_eq m, bindInits_eq m.recursive]
    split
    · exact (h _ _ _ rfl).elim
    exact Lockstep.pure fun _ _ _ hlinks => ⟨hlinks, rfl, trivial⟩

theorem evalDefine_lockstep
    (he : hygienic reserved (.pair (.symbol SpecialForm.define.name) e) = true) :
    Bond.plain.InStep side m f g (m.evalDefine callL f e) (m.recursive.evalDefine callR g e) := by
  have hdefine {x : String} (hx : reserved x = false) {value : Value}
      (hvalue : value.isOrdinary = true) :
      Bond.plain.InStep side m f g (do Action.define f x value; return .nil)
        (do Action.define g x value; return .nil) :=
    bind_same (Lockstep.define (β := .plain) trivial (Bond.plain_mode_ne x) hx hvalue) fun _ _ =>
      Lockstep.pure fun _ _ _ hlinks => ⟨hlinks, rfl, rfl⟩
  rw [evalDefine_eq m, evalDefine_eq m.recursive]
  split
  · rw [hygienic_keeper (.inr rfl)] at he
    simp only [Bool.and_eq_true, Bool.not_eq_true', SelfUse.mentions, Bool.or_eq_false_iff] at he
    split
    · exact bind_same (Lockstep.makeClosure he.1.2 he.2) fun value hvalue => hdefine he.1.1 hvalue
    · exact fail_text
  · rw [hygienic_keeper (.inr rfl)] at he
    simp only [Bool.and_eq_true, Bool.not_eq_true', SelfUse.mentions] at he
    have hvalue := ih _ (by grind) .plain f g he.2 trivial
    exact bind_same hvalue fun value hvalue => hdefine he.1 hvalue
  · exact fail_text
  · exact Lockstep.fail rfl

theorem evalIfElse_lockstep (he : hygienicElements reserved e = true) (ha : β.mode.Admits e) :
    β.InStep side m f g (m.evalIfElse callL f e) (m.recursive.evalIfElse callR g e) := by
  rw [evalIfElse_eq m, evalIfElse_eq m.recursive]
  split
  · simp only [hygienicElements, Bool.and_eq_true, Mode.admits_pair] at he ha
    refine bind_same (ih _ (by grind) β f g he.1 ha.1) fun test _ => ?_
    split
    · exact ih _ (by grind) β f g he.2.1 ha.2.1
    · exact Lockstep.pure fun _ _ _ hlinks => ⟨hlinks, rfl, rfl⟩
  · simp only [hygienicElements, Bool.and_eq_true, Mode.admits_pair] at he ha
    refine bind_same (ih _ (by grind) β f g he.1 ha.1) fun test _ => ?_
    split
    · exact ih _ (by grind) β f g he.2.1 ha.2.1
    · exact ih _ (by grind) β f g he.2.2.1 ha.2.2.1
  · exact Lockstep.fail rfl

theorem evalCond_lockstep (he : hygienicClauses reserved e = true) (ha : β.mode.Admits e) :
    β.InStep side m f g (m.evalCond callL f e) (m.recursive.evalCond callR g e) := by
  induction e with
  | pair clause rest _ ihrest =>
    rw [evalCond_eq m, evalCond_eq m.recursive]
    dsimp only
    split
    · simp only [hygienicClauses, hygienicElements, Bool.and_eq_true, Mode.admits_pair] at he ha
      have hrest := ihrest (fun x hx => ih x (by grind)) he.2 ha.2
      refine bind_same (ih _ (by grind) β f g he.1.1 ha.1.1) fun test _ => ?_
      split
      · exact ih _ (by grind) β f g he.1.2.1 ha.1.2.1
      · exact hrest
    · exact fail_text
  | _ => exact Lockstep.pure fun _ _ _ hlinks => ⟨hlinks, rfl, rfl⟩

include calls

theorem evalLetIn_lockstep
    (he : hygienic reserved (.pair (.symbol SpecialForm.letIn.name) e) = true)
    (ha : β.mode.Admits e) :
    β.InStep side m f g (m.evalLetIn callL f e) (m.recursive.evalLetIn callR g e) := by
  rw [evalLetIn_eq m, evalLetIn_eq m.recursive]
  split
  · rename_i bindings body
    rw [hygienic_binding (.inl rfl), Bool.and_eq_true] at he
    simp only [Mode.admits_pair] at ha
    have hinits := evalInits_lockstep (f := f) (g := g) (fun x hx => ih x (by grind)) he.1
      ha.1.bindings
    refine get_bind fun s t hst => ?_
    rw [Form.boundNames_local hst.toAkin]
    refine ofExcept_bind fun names hnames => ?_
    refine bind_same hinits fun values hvalues => ?_
    refine inFrame (boundNames_free hnames he.1 ha.1.bindings) hvalues
      (fun f' s => m.evalWith_frames calls.discreet_left f' body s)
      (fun g' t => m.recursive.evalWith_frames calls.discreet_right g' body t) ?_
    exact fun f' g' _ => ih body (by grind) β f' g' he.2 ha.2.1
  · exact Lockstep.fail rfl

theorem evalLetRec_lockstep
    (he : hygienic reserved (.pair (.symbol SpecialForm.letRec.name) e) = true)
    (ha : β.mode.Admits e) :
    β.InStep side m f g (m.evalLetRec callL f e) (m.recursive.evalLetRec callR g e) := by
  rw [evalLetRec_eq m, evalLetRec_eq m.recursive]
  split
  · rename_i bindings body
    rw [hygienic_binding (.inr rfl), Bool.and_eq_true] at he
    simp only [Mode.admits_pair] at ha
    refine get_bind fun s t hst => ?_
    rw [Form.boundNames_local hst.toAkin]
    refine ofExcept_bind fun names hnames => ?_
    refine inFrame (boundNames_free hnames he.1 ha.1.bindings) ?_
      (m.letRec_frames calls.discreet_left bindings body)
      (m.recursive.letRec_frames calls.discreet_right bindings body) fun f' g' howns => ?_
    · intro v hv
      obtain ⟨_, -, rfl⟩ := List.mem_map.mp hv
      rfl
    · have hinits := bindInits_lockstep (g := g') (fun x hx => ih x (by grind)) howns he.1
        ha.1.bindings
      exact bind_same hinits fun _ _ => ih body (by grind) β f' g' he.2 ha.2.1
  · exact Lockstep.fail rfl

end

omit hm calls in
theorem evalLambda_lockstep {e : Value}
    (he : hygienic reserved (.pair (.symbol SpecialForm.lambda.name) e) = true) :
    Bond.plain.InStep side m f g (evalLambda f e) (evalLambda g e) := by
  unfold evalLambda
  split
  · rw [hygienic_keeper (.inl rfl)] at he
    simp only [Bool.and_eq_true, Bool.not_eq_true'] at he
    exact Lockstep.makeClosure he.1 he.2
  · exact Lockstep.fail rfl

omit hm in
/-- An evaluation that has no calls left is excused, or the other has none left either. -/
theorem excused_or_calls {α β : Type} (a : Action α) (b : Action β)
    (ha : callL = none → a = Action.evalFault .depthExceeded)
    (hb : callR = none → b = Action.evalFault .depthExceeded) :
    (∀ s t, side.Excuses (a s).1 (b t).1) ∨
      ∃ applyL applyR, callL = some applyL ∧ callR = some applyR := by
  have hlimited {γ : Type} (s : Store) :
      Limited ((Action.evalFault .depthExceeded : Action γ) s).1 := ⟨_, rfl, rfl⟩
  obtain hL | ⟨applyL, hL⟩ := callL.eq_none_or_eq_some
  · refine .inl fun s t => ?_
    cases side with
    | left => exact ha hL ▸ hlimited s
    | right => exact hb (calls.right rfl hL) ▸ hlimited t
  · obtain hR | ⟨applyR, hR⟩ := callR.eq_none_or_eq_some
    · refine .inl fun s t => ?_
      cases side with
      | left => exact ha (calls.left rfl hR) ▸ hlimited s
      | right => exact hb hR ▸ hlimited t
    · exact .inr ⟨applyL, applyR, hL, hR⟩

/-- Outside of tail position, evaluation with loops and without runs in lockstep. -/
theorem evalWith_lockstep (e : Value) : LockstepAt side m callL callR e := by
  intro β f g he ha
  rcases excused_or_calls calls (m.evalWith callL f e) (m.recursive.evalWith callR g e)
    (fun h => m.evalWith_none h f e) (fun h => m.recursive.evalWith_none h g e) with
    hexcused | ⟨applyL, applyR, hL, hR⟩
  · exact fun ρ s t _ _ => .inl (hexcused s t)
  -- By size, since the forms evaluate parts of their operands at any depth inside of these.
  induction hn : sizeOf e using Nat.strongRecOn generalizing e β f g with
  | ind n ihn =>
    have ih (x : Value) (hx : sizeOf x < sizeOf e) : LockstepAt side m callL callR x :=
      fun β f g he ha => ihn (sizeOf x) (hn ▸ hx) x β f g he ha rfl
    cases e with
    | pair operator operands =>
      have ih' (x : Value) (hx : sizeOf x < sizeOf operands) := ih x (by grind)
      rw [Mode.admits_pair] at ha
      cases hform : operator.symbol?.bind SpecialForm.named? with
      | none =>
        rw [hygienic_pair_of_named?_eq_none hform, Bool.and_eq_true] at he
        rw [m.evalWith_pair hL, m.recursive.evalWith_pair hR]
        refine Lockstep.within ?_ _
        refine bind_same (ih operator (by grind) β f g he.1 ha.1) fun v hv => ?_
        exact dispatch_lockstep hm calls hL hR operator hv (evalArgs_lockstep ih' he.2 ha.2)
          (evalElements_lockstep ih' hm hL hR he.2 ha.2)
      | some form =>
        rw [Value.eq_symbol_of_named? hform] at he ha ⊢
        rw [m.evalWith_pair hL, m.recursive.evalWith_pair hR]
        refine Lockstep.within (bind_same (formName_lockstep hm hL hR form) ?_) _
        rintro _ rfl
        refine bind_same (Lockstep.checkList operands) fun _ _ => ?_
        cases form with
        | lambda =>
          have hplain := Mode.eq_plain_of_admits_keeper (.inl rfl) ha.1
          cases β with
          | plain => exact evalLambda_lockstep he
          | loop ℓ => cases hplain
        | define =>
          have hplain := Mode.eq_plain_of_admits_keeper (.inr rfl) ha.1
          cases β with
          | plain => exact evalDefine_lockstep ih' he
          | loop ℓ => cases hplain
        | letIn => exact evalLetIn_lockstep calls ih' he ha.2
        | letRec => exact evalLetRec_lockstep calls ih' he ha.2
        | ifElse => exact evalIfElse_lockstep ih' (hygienic_ifElse ▸ he) ha.2
        | cond => exact evalCond_lockstep ih' (hygienic_cond ▸ he) ha.2
    | _ =>
      rw [m.evalWith_atom hL f (by simp), m.recursive.evalWith_atom hR g (by simp)]
      rw [hygienic_atom (by simp)] at he
      exact evalAtom_lockstep hm he ha

end

end Machine

end Lisplet
