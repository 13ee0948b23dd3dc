import Lisplet.Proofs.Containment
import Lisplet.Proofs.Frames.Evaluation

/-! Evaluation of hygienic programs keeps loops contained: first outside of loops and in their
operands, then in tail position of their bodies, then round after round. -/
namespace Lisplet

abbrev Yields (κ : Modes) (a : Action Value) : Prop :=
  Action.Keeps Contained κ a fun _ v => v.isOrdinary = true

def Call.Contains (apply : Call) : Prop :=
  ∀ κ id args, (∀ v ∈ args, v.isOrdinary = true) → Yields κ (apply id args)

namespace Action

variable {κ : Modes} {scope : FrameId} {μ ν : Mode}

theorem local_contained {α : Type} {a : Action α} (ha : a.Local) {post : α → Prop}
    (hpost : Holds Store.OrdinaryItems a post) : Keeps Contained κ a fun _ => post := by
  intro s hs
  obtain ⟨-, -, hframes, hclosures⟩ := ha s s (.refl s)
  obtain ⟨_, -, hitems, hv⟩ := hpost s hs.items
  exact ⟨κ, le_rfl, hs.of_frames_eq hframes hclosures hitems, hv⟩

theorem checkList_contained (v : Value) : Keeps Contained κ (checkList v) fun _ _ => True := by
  unfold checkList
  split
  · exact Keeps.pure trivial
  · exact Keeps.text_bind fun _ => Keeps.fail _ _

theorem extend_contained (hscope : κ scope ν) (hν : ν = .plain ∨ ν = μ) {names : List String}
    (hnames : ∀ n ∈ names, reserved n = false) {values : List Value}
    (hvalues : ∀ v ∈ values, v.isOrdinary = true) :
    Keeps Contained κ (extend scope names values) fun κ' f => κ' f μ := by
  refine Keeps.change fun s hs => ⟨_, κ.le_add _ μ, hs.pushFrame hscope hν ?_, κ.add_self _ _⟩
  intro name v hv
  obtain ⟨hname, hv⟩ := Bindings.mem_of_find?_ofLists hv
  exact ⟨hnames name hname, .inl (hvalues v hv)⟩

theorem define_contained {frame : FrameId} {name : String} (hname : reserved name = false)
    {value : Value} (hvalue : value.isOrdinary = true) :
    Keeps Contained κ (define frame name value) fun _ _ => True := by
  refine Keeps.modify fun s hs => ⟨κ, le_rfl, ?_, trivial⟩
  exact (hs.nameValue hname value).bind fun _ _ => ⟨hname, .inl hvalue⟩

theorem makeClosure_contained (hscope : κ scope .plain) {params body : Value}
    (hparams : SelfUse.mentions reserved params = false) (hbody : hygienic reserved body = true) :
    Yields κ (makeClosure scope params body) := by
  refine Keeps.get_bind fun s _ => Keeps.ofExcept_bind fun names hnames => ?_
  refine Keeps.andThen (Keeps.change fun s hs => ⟨κ, le_rfl, ?_, trivial⟩)
    fun _ _ _ => Keeps.pure rfl
  refine hs.pushClosure ⟨?_, hbody, nofun, nofun⟩ hscope
  exact Form.forall_mem_of_parameters hnames hparams

end Action

namespace Machine

open Action

section

set_option linter.unusedSectionVars false

variable {m : Machine} (hm : m.Standard) {call : Option Call}
  (hcall : ∀ apply ∈ call, apply.Contains)

include hm

theorem evalAtom_contained {κ : Modes} {scope : FrameId} {μ : Mode} (hscope : κ scope μ) {e : Value}
    (he : hygienicAtom reserved e = true) (ha : μ.Admits e) : Yields κ (m.evalAtom scope e) := by
  cases e with
  | symbol name =>
    have hname : reserved name = false := (Bool.not_eq_true' _).mp he
    refine Keeps.read (m.evalAtom_store scope _) fun s hs v hv => ?_
    change (m.lookup scope name s).1 = .ok v at hv
    rw [lookup_apply] at hv
    split at hv
    · rename_i value hvalue
      cases hv
      obtain ⟨-, hv | ⟨rfl, -⟩⟩ := hs.machine_find?_allows hm hscope hname hvalue
      · exact hv
      · exact absurd rfl (Mode.ne_of_admits_symbol ha)
    · cases hv
  | function | special | closure | pair | vector | tailCall => cases he
  | _ => exact Keeps.pure rfl

omit hm in
theorem evalLambda_contained {κ : Modes} {scope : FrameId} (hscope : κ scope .plain) {e : Value}
    (he : hygienic reserved (.pair (.symbol SpecialForm.lambda.name) e) = true) :
    Yields κ (evalLambda scope e) := by
  unfold evalLambda
  split
  · rw [hygienic_keeper (.inl rfl)] at he
    simp only [Bool.and_eq_true, Bool.not_eq_true'] at he
    exact makeClosure_contained hscope he.1 he.2
  · exact Keeps.fail _ _

/-- The name of a special form stands for the form. -/
theorem evalWith_form_contained {κ : Modes} {scope : FrameId} {μ : Mode} (hscope : κ scope μ)
    {apply : Call} (hc : call = some apply) {form : SpecialForm} {operands : Value}
    {post : Modes → Value → Prop}
    (h : ∀ κ', κ' scope μ → Keeps Contained κ' (m.evalForm call scope form operands) post) :
    Keeps Contained κ (m.evalWith call scope (.pair (.symbol form.name) operands)) post := by
  have hname : Keeps Contained κ (m.evalWith call scope (.symbol form.name))
      fun _ v => v = .special form := by
    rw [m.evalWith_atom hc scope (by simp)]
    refine Keeps.read (m.evalAtom_store scope _) fun s hs v hv => ?_
    change (m.lookup scope form.name s).1 = .ok v at hv
    rw [lookup_apply, hs.find?_name hm hscope form] at hv
    exact (Except.ok.inj hv).symm
  rw [m.evalWith_pair hc]
  refine Keeps.within _ (Keeps.bind hname ?_)
  rintro κ' hw _ rfl
  exact Keeps.bind (checkList_contained operands) fun κ'' hw' _ _ => h κ'' (hw' _ _ (hw _ _ hscope))

theorem run_contained {κ : Modes} {body : Procedure} (hbody : body ≠ .recur) {args : List Value}
    (hargs : ∀ v ∈ args, v.isOrdinary = true) : Yields κ (m.run body args) := by
  cases body with
  | primitive p => exact local_contained (p.run_local args) (p.run_ordinary hargs)
  | recur => exact absurd rfl hbody
  | host slot =>
    simp only [run, hm.hosts]
    exact Keeps.pure rfl

include hcall

/-- What is done with the operands of an operator that has an ordinary value. -/
theorem dispatch_contained {κ : Modes} {apply : Call} (hc : call = some apply) {scope : FrameId}
    (operator : Value) {operands v : Value} (hv : v.isOrdinary = true)
    (hargs : Keeps Contained κ (m.evalArgs call scope operands)
      fun _ vs => ∀ v ∈ vs, v.isOrdinary = true)
    (helements : Yields κ (m.evalElements call scope operands)) :
    Yields κ (m.dispatch call apply scope operator operands v) := by
  have hdata : Yields κ (do return Value.pair v (← m.evalElements call scope operands)) :=
    Keeps.bind helements fun _ _ w hw => Keeps.pure (Bool.and_eq_true_iff.mpr ⟨hv, hw⟩)
  cases v with
  | function name arity body =>
    refine Keeps.bind hargs fun κ' _ args hargs => ?_
    refine Keeps.ofExcept_bind fun _ _ => run_contained hm ?_ hargs
    simpa [Value.isOrdinary] using hv
  | closure id =>
    refine Keeps.bind hargs fun κ' _ args hargs => ?_
    refine Keeps.andThen (Keeps.read ?_ fun _ _ _ _ => trivial)
      fun κ'' _ _ => hcall apply hc κ'' id args hargs
    intro s
    rw [checkCount_apply]
    split <;> rfl
  | special form => cases hv
  | _ => exact hdata

omit hm hcall in
/-- The body of a `let` runs in a new frame of the mode of its scope. -/
theorem letIn_contained {κ : Modes} {scope : FrameId} {μ : Mode} (hscope : κ scope μ)
    {bindings body : Value} (hygiene : hygienicBindings reserved bindings = true)
    (hinits : Keeps Contained κ (m.evalInits call scope bindings)
      fun _ vs => ∀ v ∈ vs, v.isOrdinary = true) {post : Modes → Value → Prop}
    (hbody : ∀ κ' frame, κ' frame μ → Keeps Contained κ' (m.evalWith call frame body) post) :
    Keeps Contained κ (m.evalLetIn call scope (.pair bindings (.pair body .nil))) post := by
  rw [evalLetIn_eq]
  refine Keeps.get_bind fun s _ => Keeps.ofExcept_bind fun names hnames => ?_
  refine Keeps.bind hinits fun κ' hw values hvalues => ?_
  have hreserved :=
    Form.forall_mem_of_boundNames hnames (Form.eachTarget_of_hygienicBindings hygiene)
  refine Keeps.bind (extend_contained (hw _ _ hscope) (.inr rfl) hreserved hvalues) ?_
  exact fun κ'' _ frame hframe => hbody κ'' frame hframe

omit hm hcall in
/-- The right sides and the body of a `letrec` run in a new frame of the mode of its scope. -/
theorem letRec_contained {κ : Modes} {scope : FrameId} {μ : Mode} (hscope : κ scope μ)
    {bindings body : Value} (hygiene : hygienicBindings reserved bindings = true)
    (hinits : ∀ κ' frame, κ' frame μ →
      Keeps Contained κ' (m.bindInits call frame bindings) fun _ _ => True)
    {post : Modes → Value → Prop}
    (hbody : ∀ κ' frame, κ' frame μ → Keeps Contained κ' (m.evalWith call frame body) post) :
    Keeps Contained κ (m.evalLetRec call scope (.pair bindings (.pair body .nil))) post := by
  rw [evalLetRec_eq]
  refine Keeps.get_bind fun s _ => Keeps.ofExcept_bind fun names hnames => ?_
  have hreserved :=
    Form.forall_mem_of_boundNames hnames (Form.eachTarget_of_hygienicBindings hygiene)
  refine Keeps.bind (extend_contained hscope (.inr rfl) hreserved ?_) fun κ' _ frame hframe => ?_
  · intro v hv
    obtain ⟨_, -, rfl⟩ := List.mem_map.mp hv
    rfl
  · exact Keeps.bind (hinits κ' frame hframe) fun κ'' hw _ _ => hbody κ'' frame (hw _ _ hframe)

def ContainedAt (m : Machine) (call : Option Call) (e : Value) : Prop :=
  ∀ κ scope μ, κ scope μ → hygienic reserved e = true → μ.Admits e →
    Yields κ (m.evalWith call scope e)

section

variable {κ : Modes} {scope : FrameId} {μ : Mode} {e : Value}
  (ih : ∀ x, sizeOf x < sizeOf e → m.ContainedAt call x)

omit hcall hm

include ih

theorem evalArgs_contained (hscope : κ scope μ) (he : hygienicElements reserved e = true)
    (ha : μ.Admits e) :
    Keeps Contained κ (m.evalArgs call scope e) fun _ vs => ∀ v ∈ vs, v.isOrdinary = true := by
  induction e generalizing κ with
  | nil => exact Keeps.pure fun _ hv => absurd hv List.not_mem_nil
  | pair e rest _ ihrest =>
    rw [hygienicElements, Bool.and_eq_true] at he
    rw [Mode.admits_pair] at ha
    refine Keeps.bind (ih e (by grind) κ scope μ hscope he.1 ha.1) fun κ' hw v hv => ?_
    refine Keeps.bind (ihrest (fun x hx => ih x (by grind)) (hw _ _ hscope) he.2 ha.2)
      fun _ _ vs hvs => ?_
    exact Keeps.pure (List.forall_mem_cons.mpr ⟨hv, hvs⟩)
  | _ =>
    rw [m.evalArgs_eq]
    exact Keeps.text_bind fun _ => Keeps.fail _ _

theorem evalElements_contained (hm : m.Standard) (hscope : κ scope μ)
    (he : hygienicElements reserved e = true) (ha : μ.Admits e) :
    Yields κ (m.evalElements call scope e) := by
  induction e generalizing κ with
  | pair e rest _ ihrest =>
    rw [hygienicElements, Bool.and_eq_true] at he
    rw [Mode.admits_pair] at ha
    refine Keeps.bind (ih e (by grind) κ scope μ hscope he.1 ha.1) fun κ' hw v hv => ?_
    refine Keeps.bind (ihrest (fun x hx => ih x (by grind)) (hw _ _ hscope) he.2 ha.2)
      fun _ _ w hw' => ?_
    exact Keeps.pure (Bool.and_eq_true_iff.mpr ⟨hv, hw'⟩)
  | _ =>
    obtain hc | ⟨apply, hc⟩ := call.eq_none_or_eq_some
    · subst hc
      exact Keeps.fail _ _
    · rw [m.evalElements_atom hc scope (by simp)]
      rw [hygienicElements_atom (by simp)] at he
      exact evalAtom_contained hm hscope he ha

theorem evalDefine_contained (hscope : κ scope .plain)
    (he : hygienic reserved (.pair (.symbol SpecialForm.define.name) e) = true) :
    Yields κ (m.evalDefine call scope e) := by
  rw [evalDefine_eq]
  split
  · rw [hygienic_keeper (.inr rfl)] at he
    simp only [Bool.and_eq_true, Bool.not_eq_true', SelfUse.mentions, Bool.or_eq_false_iff] at he
    split
    · refine Keeps.bind (makeClosure_contained hscope he.1.2 he.2) fun _ _ value hvalue => ?_
      exact Keeps.bind (define_contained he.1.1 hvalue) fun _ _ _ _ => Keeps.pure rfl
    · exact Keeps.text_bind fun _ => Keeps.fail _ _
  · rw [hygienic_keeper (.inr rfl)] at he
    simp only [Bool.and_eq_true, Bool.not_eq_true', SelfUse.mentions] at he
    refine Keeps.bind (ih _ (by grind) κ scope .plain hscope he.2 trivial)
      fun _ _ value hvalue => ?_
    exact Keeps.bind (define_contained he.1 hvalue) fun _ _ _ _ => Keeps.pure rfl
  · exact Keeps.text_bind fun _ => Keeps.fail _ _
  · exact Keeps.fail _ _

theorem evalInits_contained (hscope : κ scope μ) (he : hygienicBindings reserved e = true)
    (ha : μ.AdmitsBindings e) :
    Keeps Contained κ (m.evalInits call scope e) fun _ vs => ∀ v ∈ vs, v.isOrdinary = true := by
  fun_induction Mode.AdmitsBindings μ e generalizing κ with
  | case1 target init rest ihrest =>
    simp only [hygienicBindings, Bool.and_eq_true] at he
    rw [evalInits_eq]
    refine Keeps.bind (ih init (by grind) κ scope μ hscope he.1.2 ha.2.1) fun κ' hw v hv => ?_
    refine Keeps.bind (ihrest (fun x hx => ih x (by grind)) (hw _ _ hscope) he.2 ha.2.2)
      fun _ _ vs hvs => ?_
    exact Keeps.pure (List.forall_mem_cons.mpr ⟨hv, hvs⟩)
  | case2 e h =>
    rw [evalInits_eq]
    split
    · exact (h _ _ _ rfl).elim
    · exact Keeps.pure fun _ hv => absurd hv List.not_mem_nil

theorem bindInits_contained (hscope : κ scope μ) (he : hygienicBindings reserved e = true)
    (ha : μ.AdmitsBindings e) : Keeps Contained κ (m.bindInits call scope e) fun _ _ => True := by
  fun_induction Form.EachTarget (fun _ => True) e generalizing κ with
  | case1 name init rest ihrest =>
    simp only [hygienicBindings, Bool.and_eq_true, Bool.not_eq_true', SelfUse.mentions] at he
    rw [bindInits_eq]
    refine Keeps.bind (ih init (by grind) κ scope μ hscope he.1.2 ha.2.1)
      fun κ' hw value hvalue => ?_
    refine Keeps.bind (define_contained he.1.1 hvalue) fun κ'' hw' _ _ => ?_
    exact ihrest (fun x hx => ih x (by grind)) (hw' _ _ (hw _ _ hscope)) he.2 ha.2.2
  | case2 e h =>
    rw [bindInits_eq]
    split
    · exact (h _ _ _ rfl).elim
    · exact Keeps.pure trivial

theorem evalLetIn_contained (hscope : κ scope μ)
    (he : hygienic reserved (.pair (.symbol SpecialForm.letIn.name) e) = true) (ha : μ.Admits e) :
    Yields κ (m.evalLetIn call scope e) := by
  rw [evalLetIn_eq]
  split
  · rename_i bindings body
    rw [hygienic_binding (.inl rfl), Bool.and_eq_true] at he
    simp only [Mode.admits_pair] at ha
    have hinits := evalInits_contained (fun x hx => ih x (by grind)) hscope he.1 ha.1.bindings
    exact letIn_contained hscope he.1 hinits fun κ' frame hframe =>
      ih body (by grind) κ' frame μ hframe he.2 ha.2.1
  · exact Keeps.fail _ _

theorem evalLetRec_contained (hscope : κ scope μ)
    (he : hygienic reserved (.pair (.symbol SpecialForm.letRec.name) e) = true) (ha : μ.Admits e) :
    Yields κ (m.evalLetRec call scope e) := by
  rw [evalLetRec_eq]
  split
  · rename_i bindings body
    rw [hygienic_binding (.inr rfl), Bool.and_eq_true] at he
    simp only [Mode.admits_pair] at ha
    refine letRec_contained hscope he.1 (fun κ' frame hframe => ?_) fun κ' frame hframe => ?_
    · exact bindInits_contained (fun x hx => ih x (by grind)) hframe he.1 ha.1.bindings
    · exact ih body (by grind) κ' frame μ hframe he.2 ha.2.1
  · exact Keeps.fail _ _

theorem evalIfElse_contained (hscope : κ scope μ) (he : hygienicElements reserved e = true)
    (ha : μ.Admits e) : Yields κ (m.evalIfElse call scope e) := by
  rw [evalIfElse_eq]
  split
  · simp only [hygienicElements, Bool.and_eq_true, Mode.admits_pair] at he ha
    refine Keeps.bind (ih _ (by grind) κ scope μ hscope he.1 ha.1) fun κ' hw _ _ => ?_
    split
    · exact ih _ (by grind) κ' scope μ (hw _ _ hscope) he.2.1 ha.2.1
    · exact Keeps.pure rfl
  · simp only [hygienicElements, Bool.and_eq_true, Mode.admits_pair] at he ha
    refine Keeps.bind (ih _ (by grind) κ scope μ hscope he.1 ha.1) fun κ' hw _ _ => ?_
    split
    · exact ih _ (by grind) κ' scope μ (hw _ _ hscope) he.2.1 ha.2.1
    · exact ih _ (by grind) κ' scope μ (hw _ _ hscope) he.2.2.1 ha.2.2.1
  · exact Keeps.fail _ _

theorem evalCond_contained (hscope : κ scope μ) (he : hygienicClauses reserved e = true)
    (ha : μ.Admits e) : Yields κ (m.evalCond call scope e) := by
  induction e generalizing κ with
  | pair clause rest _ ihrest =>
    rw [evalCond_eq]
    dsimp only
    split
    · simp only [hygienicClauses, hygienicElements, Bool.and_eq_true, Mode.admits_pair] at he ha
      refine Keeps.bind (ih _ (by grind) κ scope μ hscope he.1.1 ha.1.1) fun κ' hw _ _ => ?_
      split
      · exact ih _ (by grind) κ' scope μ (hw _ _ hscope) he.1.2.1 ha.1.2.1
      · exact ihrest (fun x hx => ih x (by grind)) (hw _ _ hscope) he.2 ha.2
    · exact Keeps.text_bind fun _ => Keeps.fail _ _
  | _ => exact Keeps.pure rfl

end

/-- Outside of tail position, hygienic expressions have ordinary values. -/
theorem evalWith_contained (e : Value) : m.ContainedAt call e := by
  intro κ scope μ hscope he ha
  obtain hc | ⟨apply, hc⟩ := call.eq_none_or_eq_some
  · rw [m.evalWith_none hc]
    exact Keeps.fail _ _
  induction hn : sizeOf e using Nat.strongRecOn generalizing e κ scope μ with
  | ind n ihn =>
    have ih (x : Value) (hx : sizeOf x < sizeOf e) : m.ContainedAt call x :=
      fun κ scope μ hscope he ha => ihn (sizeOf x) (hn ▸ hx) x κ scope μ hscope he ha rfl
    cases e with
    | pair operator operands =>
      have ih' (x : Value) (hx : sizeOf x < sizeOf operands) := ih x (by grind)
      rw [Mode.admits_pair] at ha
      cases hform : operator.symbol?.bind SpecialForm.named? with
      | none =>
        rw [hygienic_pair_of_named?_eq_none hform, Bool.and_eq_true] at he
        rw [m.evalWith_pair hc]
        refine Keeps.within _ ?_
        refine Keeps.bind (ih operator (by grind) κ scope μ hscope he.1 ha.1) fun κ' hw v hv => ?_
        exact dispatch_contained hm hcall hc operator hv
          (evalArgs_contained ih' (hw _ _ hscope) he.2 ha.2)
          (evalElements_contained ih' hm (hw _ _ hscope) he.2 ha.2)
      | some form =>
        rw [Value.eq_symbol_of_named? hform] at he ha ⊢
        refine evalWith_form_contained hm hscope hc fun κ' hscope' => ?_
        cases form with
        | lambda =>
          rw [Mode.eq_plain_of_admits_keeper (.inl rfl) ha.1] at hscope'
          exact evalLambda_contained hscope' he
        | define =>
          rw [Mode.eq_plain_of_admits_keeper (.inr rfl) ha.1] at hscope'
          exact evalDefine_contained ih' hscope' he
        | letIn => exact evalLetIn_contained ih' hscope' he ha.2
        | letRec => exact evalLetRec_contained ih' hscope' he ha.2
        | ifElse => exact evalIfElse_contained ih' hscope' (hygienic_ifElse ▸ he) ha.2
        | cond => exact evalCond_contained ih' hscope' (hygienic_cond ▸ he) ha.2
    | _ =>
      rw [m.evalWith_atom hc scope (by simp)]
      rw [hygienic_atom (by simp)] at he
      exact evalAtom_contained hm hscope he ha

/-- In tail position, the result may also be the request for another round. -/
abbrev Concludes (κ : Modes) (a : Action Value) : Prop :=
  Keeps Contained κ a fun _ v =>
    v.isOrdinary = true ∨ ∃ args, v = .tailCall args ∧ args.isOrdinary = true

/-- A loop that calls itself asks for another round. -/
theorem selfCall_contained {κ : Modes} {scope : FrameId} {name : String}
    (hname : reserved name = false) (hscope : κ scope (.loop name)) {args : Value}
    (hygiene : hygienicElements reserved args = true) (admits : (Mode.loop name).Admits args)
    {apply : Call} (hc : call = some apply) :
    Concludes κ (m.evalWith call scope (.pair (.symbol name) args)) := by
  have hall (x : Value) (_ : sizeOf x < sizeOf args) := evalWith_contained hm hcall x
  have hvalue : Keeps Contained κ (m.evalWith call scope (.symbol name))
      fun _ v => v.isOrdinary = true ∨ v = marker := by
    rw [m.evalWith_atom hc scope (by simp)]
    refine Keeps.read (m.evalAtom_store scope _) fun s hs v hv => ?_
    change (m.lookup scope name s).1 = .ok v at hv
    rw [lookup_apply] at hv
    split at hv
    · cases hv
      exact (hs.machine_find?_allows hm hscope hname ‹_›).2.imp_right And.right
    · cases hv
  rw [m.evalWith_pair hc]
  refine Keeps.within _ (Keeps.bind hvalue ?_)
  rintro κ' hw v (hv | rfl)
  · have hdispatch := dispatch_contained hm hcall hc (.symbol name) hv
      (evalArgs_contained hall (hw _ _ hscope) hygiene admits)
      (evalElements_contained hall hm (hw _ _ hscope) hygiene admits)
    exact hdispatch.weaken fun _ _ _ => .inl
  · refine Keeps.bind (evalArgs_contained hall (hw _ _ hscope) hygiene admits) fun _ _ vs hvs => ?_
    refine Keeps.ofExcept_bind fun _ _ => Keeps.pure ?_
    exact .inr ⟨_, rfl, Value.isOrdinary_ofList.mpr hvs⟩

mutual

/-- Evaluating the body of a loop ends in an ordinary value or asks for another round. -/
theorem tail_contained {κ : Modes} {scope : FrameId} {name : String}
    (hname : reserved name = false) (hscope : κ scope (.loop name)) {e : Value}
    (h : TailUse name e) {apply : Call} (hc : call = some apply) :
    Concludes κ (m.evalWith call scope e) := by
  have hall := evalWith_contained hm hcall
  match h with
  | .operand hygiene admits =>
    exact (hall _ κ scope _ hscope hygiene admits).weaken fun _ _ _ => .inl
  | .selfCall hygiene admits => exact selfCall_contained hm hcall hname hscope hygiene admits hc
  | .ifThen hygiene admits hyes =>
    refine evalWith_form_contained hm hscope hc fun κ' hscope' => ?_
    rw [evalForm, evalIfElse_eq]
    refine Keeps.bind (hall _ κ' scope _ hscope' hygiene admits) fun κ'' hw _ _ => ?_
    split
    · exact tail_contained hname (hw _ _ hscope') hyes hc
    · exact Keeps.pure (.inl rfl)
  | .ifElse hygiene admits hyes hno =>
    refine evalWith_form_contained hm hscope hc fun κ' hscope' => ?_
    rw [evalForm, evalIfElse_eq]
    refine Keeps.bind (hall _ κ' scope _ hscope' hygiene admits) fun κ'' hw _ _ => ?_
    split
    · exact tail_contained hname (hw _ _ hscope') hyes hc
    · exact tail_contained hname (hw _ _ hscope') hno hc
  | .cond hclauses =>
    exact evalWith_form_contained hm hscope hc fun κ' hscope' =>
      tailClauses_contained hname hscope' hclauses hc
  | .binding (.inl rfl) hygiene admits hbody =>
    refine evalWith_form_contained hm hscope hc fun κ' hscope' => ?_
    exact letIn_contained hscope' hygiene
      (evalInits_contained (fun x _ => hall x) hscope' hygiene admits)
      fun κ'' frame hframe => tail_contained hname hframe hbody hc
  | .binding (.inr rfl) hygiene admits hbody =>
    refine evalWith_form_contained hm hscope hc fun κ' hscope' => ?_
    exact letRec_contained hscope' hygiene
      (fun κ'' frame hframe => bindInits_contained (fun x _ => hall x) hframe hygiene admits)
      fun κ'' frame hframe => tail_contained hname hframe hbody hc

/-- The same for the clauses of a `cond`. -/
theorem tailClauses_contained {κ : Modes} {scope : FrameId} {name : String}
    (hname : reserved name = false) (hscope : κ scope (.loop name)) {e : Value}
    (h : TailClauses name e) {apply : Call} (hc : call = some apply) :
    Concludes κ (m.evalCond call scope e) := by
  match h with
  | .clause hygiene admits he hrest =>
    rw [evalCond_eq]
    refine Keeps.bind (evalWith_contained hm hcall _ κ scope _ hscope hygiene admits)
      fun κ' hw _ _ => ?_
    split
    · exact tail_contained hname (hw _ _ hscope) he hc
    · exact tailClauses_contained hname (hw _ _ hscope) hrest hc
  | .malformed hclause =>
    rw [evalCond_eq]
    dsimp only
    split
    · exact absurd rfl (hclause _ _)
    · exact Keeps.text_bind fun _ => Keeps.fail _ _
  | .done hatom =>
    rw [evalCond_eq]
    split
    · exact absurd rfl (hatom _ _)
    · exact Keeps.pure (.inl rfl)

end

omit hm hcall in
theorem rebind_contained {κ : Modes} {frame : FrameId} {params : List String}
    (hparams : ∀ p ∈ params, reserved p = false) {args : List Value}
    (hargs : ∀ v ∈ args, v.isOrdinary = true) :
    Keeps Contained κ (rebind frame params args) fun _ _ => True := by
  induction params generalizing args κ with
  | nil => exact Keeps.pure trivial
  | cons param params ih =>
    cases args with
    | nil => exact Keeps.pure trivial
    | cons arg args =>
      rw [List.forall_mem_cons] at hparams hargs
      refine Keeps.andThen (Keeps.modify fun s hs => ⟨κ, le_rfl, ?_, trivial⟩) ?_
      · exact hs.bind fun _ _ => ⟨hparams.1, .inl hargs.1⟩
      · exact fun κ' _ _ => ih hparams.2 hargs.2

theorem runLoop_contained {κ : Modes} {frame : FrameId} {name : String}
    (hname : reserved name = false) (hframe : κ frame (.loop name)) {closure : Closure}
    (hparams : ∀ p ∈ closure.params, reserved p = false) (hbody : TailUse name closure.body)
    (rounds : Nat) : Yields κ (m.runLoop call closure frame rounds) := by
  induction rounds generalizing κ with
  | zero => exact Keeps.throw _ _
  | succ rounds ih =>
    have hround : Concludes κ (m.evalWith call frame closure.body) := by
      obtain hc | ⟨apply, hc⟩ := call.eq_none_or_eq_some
      · rw [m.evalWith_none hc]
        exact Keeps.fail _ _
      · exact tail_contained hm hcall hname hframe hbody hc
    rw [runLoop_eq]
    refine Keeps.bind hround ?_
    rintro κ' hw v (hv | ⟨args, rfl, hargs⟩)
    · cases v with
      | tailCall args => cases hv
      | _ => exact Keeps.pure hv
    · dsimp only
      split
      · refine Keeps.bind (rebind_contained hparams (Value.isOrdinary_of_mem_heads hargs)) ?_
        exact fun κ'' hw' _ _ => ih (hw' _ _ (hw _ _ hframe))
      · exact Keeps.fail _ _

omit hm hcall in
theorem ofLists_allows {closure : Closure} (hyg : closure.Hygienic) {args : List Value}
    (hargs : ∀ v ∈ args, v.isOrdinary = true) (μ : Mode) (name : String) (v : Value)
    (hv : (Bindings.ofLists closure.params args).find? name = some v) : μ.Allows name v := by
  obtain ⟨hname, hv⟩ := Bindings.mem_of_find?_ofLists hv
  exact ⟨hyg.params name hname, .inl (hargs v hv)⟩

/-- The store in which a loop starts: its frame binds the parameters, and the name of the closure to
the request for another round. -/
abbrev loopEntry (closure : Closure) (args : List Value) (name : String) (s : Store) : Store :=
  (entry closure args s).2.bind (entry closure args s).1 name marker

omit hm hcall in
/-- A loop starts in a new frame of its own, with a body that is fit for it. -/
theorem loopEntry_contained {κ : Modes} {s : Store} (hs : Contained κ s) {id : ClosureId}
    {closure : Closure} (hc : s.closures[id.index]? = some closure) {name : String}
    (hloop : m.loopName? s id closure = some name) {args : List Value}
    (hargs : ∀ v ∈ args, v.isOrdinary = true) :
    Contained (κ.add (entry closure args s).1 (.loop name)) (loopEntry closure args name s) ∧
      reserved name = false ∧ closure.Hygienic ∧ TailUse name closure.body := by
  obtain ⟨hyg, hscope⟩ := hs.closures hc
  obtain ⟨-, ⟨naming, hnaming, rfl, hloops⟩, -⟩ := loopName?_eq_some hloop
  have hname := hyg.name naming hnaming
  have hover := hyg.loops naming hnaming hloops
  simp only [loopsOver, Bool.and_eq_true, beq_iff_eq] at hover
  have hentry :=
    hs.pushFrame (μ := .loop naming.name) hscope (.inl rfl) (ofLists_allows hyg hargs _)
  refine ⟨hentry.bind fun μ hμ => ?_, hname, hyg, ?_⟩
  · rw [hentry.mode_eq hμ (κ.add_self _ _)]
    exact ⟨hname, .inr ⟨rfl, rfl⟩⟩
  · exact tailUse_of_inTail hname closure.body hyg.body (by simp [hover.2])

theorem apply_contains : Call.Contains (m.apply call) := by
  intro κ id args hargs s hs
  cases hc : s.closures[id.index]? with
  | none =>
    rw [m.apply_of_none call hc]
    exact ⟨κ, le_rfl, hs, fun _ hv => Except.ok.inj hv ▸ rfl⟩
  | some closure =>
    cases hloop : m.loopName? s id closure with
    | none =>
      obtain ⟨hyg, hscope⟩ := hs.closures hc
      rw [m.apply_of_loopName?_eq_none call hc hloop]
      have hentry := hs.pushFrame (μ := .plain) hscope (.inl rfl) (ofLists_allows hyg hargs _)
      obtain ⟨κ', hw, hs', hv⟩ := evalWith_contained hm hcall closure.body _ _ _
        (κ.add_self _ .plain) hyg.body trivial _ hentry
      exact ⟨κ', (κ.le_add _ _).trans hw, hs', hv⟩
    | some name =>
      obtain ⟨hentry, hname, hyg, htail⟩ := loopEntry_contained hs hc hloop hargs
      rw [m.apply_of_loopName?_eq_some call hc hloop]
      obtain ⟨κ', hw, hs', hv⟩ := runLoop_contained hm hcall hname (κ.add_self _ _) hyg.params
        htail m.rounds _ hentry
      exact ⟨κ', (κ.le_add _ _).trans hw, hs', hv⟩

end

theorem callAt_contains {m : Machine} (hm : m.Standard) (depth : Nat) :
    ∀ apply ∈ m.callAt depth, apply.Contains := by
  induction depth with
  | zero => exact fun _ h => nomatch h
  | succ depth ih =>
    rintro apply h
    cases h
    exact apply_contains hm ih

/-- Hygienic programs keep loops contained, and their values are ordinary. -/
theorem program_contained {m : Machine} (hm : m.Standard) {call : Option Call}
    (hcall : ∀ apply ∈ call, apply.Contains) {κ : Modes} {scope : FrameId}
    (hscope : κ scope .plain) {es : List Value} (hes : ∀ e ∈ es, hygienic reserved e = true)
    {v : Value} (hv : v.isOrdinary = true) :
    Yields κ (es.foldlM (fun _ e => m.evalWith call scope e) v) := by
  induction es generalizing κ v with
  | nil => exact Keeps.pure hv
  | cons e es ih =>
    rw [List.forall_mem_cons] at hes
    rw [List.foldlM_cons]
    refine Keeps.bind (evalWith_contained hm hcall e κ scope .plain hscope hes.1 trivial)
      fun κ' hw w hw' => ?_
    exact ih (hw _ _ hscope) hes.2 hw'

end Machine

end Lisplet
