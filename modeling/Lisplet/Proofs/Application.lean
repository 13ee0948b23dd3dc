import Lisplet.Proofs.Settled
import Lisplet.Proofs.Wholeness.Evaluation

/-! A `let` is the application of a `lambda` to the right sides of its bindings. -/
namespace Lisplet

namespace Form

def parameterList (names : List String) : Value := .ofList (names.map .symbol)

def bindingList (bs : List (String × Value)) : Value :=
  .ofList (bs.map fun b => .ofList [.symbol b.1, b.2])

def letIn (bs : List (String × Value)) (body : Value) : Value :=
  .ofList [.symbol SpecialForm.letIn.name, bindingList bs, body]

def application (bs : List (String × Value)) (body : Value) : Value :=
  .pair (.ofList [.symbol SpecialForm.lambda.name, parameterList (bs.map Prod.fst), body])
    (.ofList (bs.map Prod.snd))

theorem parameterNames_parameterList (s : Store) {seen names : List String}
    (h : (seen.reverse ++ names).Nodup) :
    parameterNames s seen (parameterList names) = .ok (seen.reverse ++ names) := by
  induction names generalizing seen with
  | nil =>
    rw [List.append_nil]
    rfl
  | cons name names ih =>
    have hsplit : seen.reverse ++ name :: names = (name :: seen).reverse ++ names := by simp
    have hapart := (List.nodup_append.mp h).2.2
    have hnew : name ∉ seen := fun hseen =>
      hapart name (List.mem_reverse.mpr hseen) name List.mem_cons_self rfl
    change (if seen.contains name then _ else parameterNames s (name :: seen) _) = _
    rw [if_neg (by simpa using hnew), hsplit]
    exact ih (hsplit ▸ h)

theorem parameters_parameterList (s : Store) {names : List String} (h : names.Nodup) :
    parameters s (parameterList names) = .ok names := by
  have hparams : parameters s (parameterList names) =
      parameterNames s [] (parameterList names) := by
    cases names <;> rfl
  rw [hparams]
  exact parameterNames_parameterList s h

theorem bindingNames_bindingList (s : Store) (form : SpecialForm) (whole : Value)
    {seen : List String} {bs : List (String × Value)}
    (h : (seen.reverse ++ bs.map Prod.fst).Nodup) :
    bindingNames s form whole seen (bindingList bs) = .ok (seen.reverse ++ bs.map Prod.fst) := by
  induction bs generalizing seen with
  | nil =>
    rw [List.map_nil, List.append_nil]
    rfl
  | cons b bs ih =>
    obtain ⟨name, init⟩ := b
    have hsplit : seen.reverse ++ ((name, init) :: bs).map Prod.fst =
        (name :: seen).reverse ++ bs.map Prod.fst := by simp
    have hapart := (List.nodup_append.mp h).2.2
    have hnew : name ∉ seen := fun hseen =>
      hapart name (List.mem_reverse.mpr hseen) name List.mem_cons_self rfl
    change (if seen.contains name then _ else bindingNames s form whole (name :: seen) _) = _
    rw [if_neg (by simpa using hnew), hsplit]
    exact ih (hsplit ▸ h)

theorem boundNames_bindingList (s : Store) (form : SpecialForm) {bs : List (String × Value)}
    (h : (bs.map Prod.fst).Nodup) :
    boundNames s form (bindingList bs) = .ok (bs.map Prod.fst) :=
  bindingNames_bindingList s form _ h

/-- The parts that a `let` refers to are those of the right sides and of the body. -/
theorem within_letIn {K : Node → Prop} {bs : List (String × Value)} {body : Value} :
    (letIn bs body).Within K ↔ (Value.ofList (bs.map Prod.snd)).Within K ∧ body.Within K := by
  have hkind := Value.within_kind K
  have hsymbol (name : String) : (Value.symbol name).Within K := List.forall_mem_nil K
  have hbindings : (bindingList bs).Within K ↔ (Value.ofList (bs.map Prod.snd)).Within K := by
    unfold bindingList
    induction bs with
    | nil => rfl
    | cons b bs ih =>
      rw [List.map_cons, Value.ofList_cons, hkind.pair, ih, List.map_cons, Value.ofList_cons,
        hkind.pair, Value.ofList_cons, Value.ofList_cons, hkind.pair, hkind.pair]
      simp only [hsymbol, hkind.nil, Value.ofList_nil, true_and, and_true]
  simp only [letIn, Value.ofList_cons, Value.ofList_nil, hkind.pair, hkind.nil, hsymbol, hbindings,
    true_and, and_true]

end Form

/-- Two ends that are alike up to a renaming are one end and its renaming. -/
theorem EndAlike.eq_map {r : Realm} {ρ : ClosureId → ClosureId} {x y : Except Stop Value}
    (h : EndAlike (r.Copy ρ) x y) : y = x.map (Value.rename ρ) := by
  cases x with
  | error stop =>
    cases y with
    | error stop' => exact congrArg Except.error h
    | ok w => exact h.elim
  | ok v =>
    cases y with
    | error stop' => exact h.elim
    | ok w => exact congrArg Except.ok h.1

/-- Where the errors of the first action are settled, an expression may be added to those of the
second. -/
theorem Action.Parallel.within_right {inv : Store → Store → Prop} {α : Type} {P : α → α → Prop}
    {a b : Action α} (h : Parallel inv P a b) (ha : a.Settled) (e : Value) :
    Parallel inv P a (Action.within e b) := by
  intro s t hst
  rcases h.cases hst with ⟨stop, hstop, hdeep⟩ | ⟨stop, s', t', hs, ht, hst'⟩ |
    ⟨v, w, s', t', hs, ht, hvw, hst'⟩
  · have hb : b t = (.error stop, (b t).2) := Prod.ext hstop rfl
    exact .inl ⟨_, by rw [within_error hb], Stop.isTooDeep_within hdeep _⟩
  · have hsettled := ha s stop (by rw [hs])
    rw [within_error ht, Stop.within_of_isSettled hsettled, hs]
    exact .inr ⟨rfl, hst'⟩
  · rw [within_ok ht, hs]
    exact .inr ⟨hvw, hst'⟩

namespace Machine

theorem evalArgs_ofList (m : Machine) (call : Option Call) (scope : FrameId) (es : List Value) :
    m.evalArgs call scope (.ofList es) = es.mapM (m.evalWith call scope) := by
  induction es with
  | nil => rw [Value.ofList_nil, evalArgs_eq, List.mapM_nil]
  | cons e es ih => rw [Value.ofList_cons, evalArgs_eq, List.mapM_cons, ← ih]

theorem evalInits_bindingList (m : Machine) (call : Option Call) (scope : FrameId)
    (bs : List (String × Value)) :
    m.evalInits call scope (Form.bindingList bs) =
      (bs.map Prod.snd).mapM (m.evalWith call scope) := by
  unfold Form.bindingList
  induction bs with
  | nil =>
    rw [List.map_nil, Value.ofList_nil, List.map_nil, List.mapM_nil]
    rfl
  | cons b bs ih =>
    obtain ⟨name, init⟩ := b
    rw [List.map_cons, Value.ofList_cons, List.map_cons, List.mapM_cons, ← ih]
    change evalInits m call scope (.pair (.pair _ (.pair init .nil)) _) = _
    rw [evalInits_eq]

def evalBlock (m : Machine) (call : Option Call) (scope : FrameId) (names : List String)
    (inits : List Value) (body : Value) : Action Value := do
  let values ← inits.mapM (m.evalWith call scope)
  let frame ← Action.extend scope names values
  m.evalWith call frame body

section

variable (m : Machine) {call : Option Call} {apply : Call} (hcall : call = some apply)
  {scope : FrameId} {s : Store}

include hcall

theorem evalWith_symbol {name : String} {v : Value} (hfind : m.find? s scope name = some v) :
    m.evalWith call scope (.symbol name) s = (.ok v, s) := by
  rw [m.evalWith_atom hcall scope (by simp), evalAtom, lookup_apply, hfind]

/-- A form whose name is found is evaluated as that form. -/
theorem evalWith_special {form : SpecialForm}
    (hfind : m.find? s scope form.name = some (.special form)) (operands : List Value) :
    m.evalWith call scope (.ofList (.symbol form.name :: operands)) s =
      Action.within (.ofList (.symbol form.name :: operands))
        (m.evalForm call scope form (.ofList operands)) s := by
  have hlist : Action.checkList (.ofList operands) s = (.ok (), s) := by
    unfold Action.checkList
    rw [if_pos (Value.isList_ofList operands)]
    rfl
  have hoperands : (m.evalWith call scope (.symbol form.name) >>=
      m.dispatch call apply scope (.symbol form.name) (.ofList operands)) s =
      m.evalForm call scope form (.ofList operands) s := by
    rw [Action.bind_ok (m.evalWith_symbol hcall hfind), dispatch, Action.bind_ok hlist]
  rw [Value.ofList_cons, m.evalWith_pair hcall]
  unfold Action.within
  rw [hoperands]

theorem evalBlock_settled (scope : FrameId) (names : List String) (inits : List Value)
    (body : Value) : (m.evalBlock call scope names inits body).Settled :=
  (Action.Settled.mapM (m.evalWith_settled hcall scope) inits).bind fun _ =>
    (Action.Settled.change _).bind fun frame => m.evalWith_settled hcall frame body

theorem evalWith_letIn {bs : List (String × Value)} (hnames : (bs.map Prod.fst).Nodup)
    (hfind : m.find? s scope SpecialForm.letIn.name = some (.special .letIn)) (body : Value) :
    m.evalWith call scope (Form.letIn bs body) s =
      m.evalBlock call scope (bs.map Prod.fst) (bs.map Prod.snd) body s := by
  have hform : m.evalForm call scope .letIn (.ofList [Form.bindingList bs, body]) =
      m.evalBlock call scope (bs.map Prod.fst) (bs.map Prod.snd) body := by
    rw [Value.ofList_cons, Value.ofList_cons, Value.ofList_nil, evalForm, evalLetIn_eq]
    simp only [m.evalInits_bindingList, Form.boundNames_bindingList _ _ hnames]
    rfl
  have hsettled := m.evalBlock_settled hcall scope (bs.map Prod.fst) (bs.map Prod.snd) body
  rw [Form.letIn, m.evalWith_special hcall hfind, hform, hsettled.within_eq]

theorem evalWith_lambda {names : List String} (hnames : names.Nodup)
    (hfind : m.find? s scope SpecialForm.lambda.name = some (.special .lambda)) (body : Value) :
    m.evalWith call scope
        (.ofList [.symbol SpecialForm.lambda.name, Form.parameterList names, body]) s =
      (.ok (.closure ⟨s.closures.size⟩), (s.pushClosure ⟨names, body, scope, none⟩).2) := by
  have hform : m.evalForm call scope .lambda (.ofList [Form.parameterList names, body]) s =
      (.ok (.closure ⟨s.closures.size⟩), (s.pushClosure ⟨names, body, scope, none⟩).2) := by
    change (do
      let params ← Action.ofExcept (Form.parameters (← get) (Form.parameterList names))
      return .closure (← Action.change fun s => s.pushClosure ⟨params, body, scope, none⟩) :
        Action Value) s = _
    simp only [Form.parameters_parameterList _ hnames]
    rfl
  rw [m.evalWith_special hcall hfind, Action.within_ok hform]

theorem evalWith_application {bs : List (String × Value)} (hnames : (bs.map Prod.fst).Nodup)
    (hfind : m.find? s scope SpecialForm.lambda.name = some (.special .lambda)) (body : Value) :
    m.evalWith call scope (Form.application bs body) s =
      Action.within (Form.application bs body) (do
        let args ← (bs.map Prod.snd).mapM (m.evalWith call scope)
        Action.checkCount ⟨s.closures.size⟩ args.length (Form.application bs body)
        apply ⟨s.closures.size⟩ args)
        (s.pushClosure ⟨bs.map Prod.fst, body, scope, none⟩).2 := by
  have hlambda := m.evalWith_lambda hcall hnames hfind body
  unfold Form.application
  rw [m.evalWith_pair hcall]
  unfold Action.within
  rw [Action.bind_ok hlambda, dispatch, evalArgs_ofList]

end

end Machine

namespace Machine

open Action

variable {m : Machine} {k : Nat}

/-- A closure without a name runs its body once, if it gets as many arguments as it takes. -/
theorem checkCount_apply_unnamed (m : Machine) (call : Option Call) {id : ClosureId} {s : Store}
    {closure : Closure} (h : s.closures[id.index]? = some closure) (hnaming : closure.naming = none)
    {args : List Value} (hlen : args.length = closure.params.length) (e : Value) :
    (do checkCount id args.length e; m.apply call id args) s =
      (do
        let frame ← extend closure.scope closure.params args
        m.evalWith call frame closure.body) s := by
  have hcount : args.length = s.paramCount id := by simp [Store.paramCount, h, hlen]
  have hcheck : checkCount id args.length e s = (.ok (), s) := by
    rw [checkCount_apply, if_pos hcount]
  have hloop : m.loopName? s id closure = none := by
    unfold loopName?
    rw [hnaming]
  rw [bind_ok hcheck, m.apply_of_loopName?_eq_none call h hloop]
  rfl

theorem length_of_mapM {f : Value → Action Value} {es vs : List Value} {s : Store}
    (h : (es.mapM f s).1 = .ok vs) : vs.length = es.length := by
  induction es generalizing vs s with
  | nil =>
    cases h
    rfl
  | cons e es ih =>
    rw [List.mapM_cons] at h
    rcases hv : f e s with ⟨stop | v, s'⟩
    · rw [bind_error hv] at h
      cases h
    · rw [bind_ok hv] at h
      rcases hvs : es.mapM f s' with ⟨stop | vs', s''⟩
      · rw [bind_error hvs] at h
        cases h
      · rw [bind_ok hvs] at h
        cases h
        have htail := ih (s := s') (by rw [hvs])
        rw [List.length_cons, List.length_cons, htail]

theorem evalBlock_parallel (hhosts : ∀ f ∈ m.hosts, f.Natural)
    (hglobals : ∀ name v, m.globals.find? name = some v → v.rename (.skip k) = v)
    (scope : FrameId) {names : List String} {inits : List Value} {body : Value}
    (hlen : inits.length = names.length)
    (hinits : (Value.ofList inits).rename (.skip k) = .ofList inits)
    (hbody : body.rename (.skip k) = body) (depth : Nat) (e : Value) :
    Parallel (Store.Inserted k ⟨names, body, scope, none⟩) ((Realm.before k).Copy (.skip k))
      (m.evalBlock (m.callAt (depth + 1)) scope names inits body)
      (do
        let args ← inits.mapM (m.evalWith (m.callAt (depth + 1)) scope)
        checkCount ⟨k⟩ args.length e
        m.apply (m.callAt depth) ⟨k⟩ args) := by
  have hcorrelates := @inserted_correlates k ⟨names, body, scope, none⟩ m hhosts hglobals
  have hvalues : Parallel (Store.Inserted k ⟨names, body, scope, none⟩)
      ((Realm.before k).Copies (.skip k)) (inits.mapM (m.evalWith (m.callAt (depth + 1)) scope))
      (inits.mapM (m.evalWith (m.callAt (depth + 1)) scope)) := by
    rw [← evalArgs_ofList]
    exact hcorrelates.evalArgs (m.callAt_inserted hhosts hglobals (Nat.le_refl (depth + 1)))
      (w := ⟨⟩) trivial hinits
  refine (hvalues.and_left fun s vs h => length_of_mapM h).bind fun vs ws hvs => ?_
  obtain ⟨⟨rfl, -⟩, hvs⟩ := hvs
  have hextend : Parallel (Store.Inserted k ⟨names, body, scope, none⟩)
      (Shared (Realm.before k).frame) (extend scope names vs)
      (extend scope names (vs.map (Value.rename (.skip k)))) :=
    hcorrelates.extend (w := ⟨⟩) trivial (fun _ _ => rfl) fun _ _ => trivial
  have hbodies (frame : FrameId) : Parallel (Store.Inserted k ⟨names, body, scope, none⟩)
      ((Realm.before k).Copy (.skip k)) (m.evalWith (m.callAt (depth + 1)) frame body)
      (m.evalWith (m.callAt depth) frame body) :=
    hcorrelates.evalWith (m.callAt_inserted hhosts hglobals (Nat.le_succ depth)) (w := ⟨⟩) trivial
      hbody
  have hcount : (vs.map (Value.rename (.skip k))).length = names.length := by
    rw [List.length_map, hvs, hlen]
  intro s t hst
  rw [m.checkCount_apply_unnamed _ hst.spare rfl hcount]
  refine hextend.bind (fun frame frame' hframe => ?_) s t hst
  obtain ⟨rfl, -⟩ := hframe
  exact hbodies frame'

/-- In a whole store where `let` and `lambda` are themselves, a `let` ends as the application of the
`lambda` to the right sides does, unless that ends because of too many calls. It evaluates the right
sides from left to right in the enclosing scope, and then the body in a frame of their values. -/
theorem evalAt_letIn (m : Machine) (hhosts : ∀ f ∈ m.hosts, f.Natural) (depth : Nat)
    (scope : FrameId) (s : Store) (hwhole : m.Whole s) (bs : List (String × Value)) (body : Value)
    (hnames : (bs.map Prod.fst).Nodup)
    (hlet : m.find? s scope "let" = some (.special .letIn))
    (hlambda : m.find? s scope "lambda" = some (.special .lambda))
    (hexpression : (Form.letIn bs body).Within (Node.Before s.closures.size))
    (hdepth : ¬ TooDeep (m.evalAt depth scope (Form.application bs body) s).1) :
    let binding := m.evalAt depth scope (Form.letIn bs body) s
    let application := m.evalAt depth scope (Form.application bs body) s
    application.1 = binding.1.map (Value.rename (.skip s.closures.size)) ∧
      binding.2.Renamed (.skip s.closures.size) application.2 ∧
      binding = (do
        let values ← (bs.map Prod.snd).mapM (m.evalAt depth scope)
        let frame ← extend scope (bs.map Prod.fst) values
        m.evalAt depth frame body : Action Value) s := by
  cases depth with
  | zero => exact absurd ⟨_, rfl, rfl⟩ hdepth
  | succ depth =>
    have hcall : m.callAt (depth + 1) = some fun id args => m.apply (m.callAt depth) id args := rfl
    have hbinding := m.evalWith_letIn hcall hnames hlet body
    have happlication := m.evalWith_application hcall hnames hlambda body
    have hglobals (name : String) (v : Value) (hv : m.globals.find? name = some v) :
        v.rename (.skip s.closures.size) = v := Value.rename_skip_iff.mpr (hwhole.globals.find? hv)
    obtain ⟨hinits, hbody⟩ := Form.within_letIn.mp hexpression
    have hlen : (bs.map Prod.snd).length = (bs.map Prod.fst).length := by simp
    have hparallel := m.evalBlock_parallel hhosts hglobals scope hlen
      (Value.rename_skip_iff.mpr hinits) (Value.rename_skip_iff.mpr hbody) depth
      (Form.application bs body)
    have hsettled := m.evalBlock_settled hcall scope (bs.map Prod.fst) (bs.map Prod.snd) body
    have hends := hparallel.within_right hsettled (Form.application bs body) s _
      (hwhole.store.inserted ⟨bs.map Prod.fst, body, scope, none⟩)
    unfold evalAt at hdepth ⊢
    rw [happlication] at hdepth
    obtain ⟨hend, hstore⟩ := hends.resolve_left hdepth
    dsimp only
    rw [happlication, hbinding]
    exact ⟨hend.eq_map, hstore.renamed, rfl⟩

theorem evalAt_letIn_defines_in_scope :
    let i := Interpreter.standard []
    let s := (i.evalSource "(define n 2) (define (inc x) (+ x 1))").2.store
    let add := Value.ofList [.symbol "lambda", .ofList [.symbol "x"],
      .ofList [.symbol "+", .symbol "x", .symbol "n"]]
    let bs := [("add", add), ("u", .ofList [.symbol "define", .symbol "n", .integer 3])]
    let body := Value.ofList [.symbol "list", .symbol "add", .symbol "inc",
      .ofList [.symbol "add", .integer 1]]
    let binding := i.machine.evalAt maxCallDepth i.scope (Form.letIn bs body) s
    let application := i.machine.evalAt maxCallDepth i.scope (Form.application bs body) s
    binding.1.map Value.nodes = .ok [.closure ⟨1⟩, .closure ⟨0⟩] ∧
      application.1.map Value.nodes = .ok [.closure ⟨2⟩, .closure ⟨0⟩] ∧
      application.1 = binding.1.map (Value.rename (.skip 1)) ∧
      binding.2.Renamed (.skip 1) application.2 := by
  intro i s add bs body binding application
  have hhosts : ∀ f ∈ i.machine.hosts, f.Natural := fun f hf => absurd hf (Array.not_mem_empty f)
  have hwhole : i.machine.Whole s :=
    i.evalSource_whole hhosts (Interpreter.standard_whole []) _
  have hlet : i.machine.find? s i.scope "let" = some (.special .letIn) := by decide +kernel
  have hlambda : i.machine.find? s i.scope "lambda" = some (.special .lambda) := by
    decide +kernel
  have hexpression : (Form.letIn bs body).Within (Node.Before s.closures.size) := by
    decide +kernel
  have hdepth : ¬ TooDeep application.1 := by decide +kernel
  have hbinding : binding.1.map Value.nodes = .ok [.closure ⟨1⟩, .closure ⟨0⟩] := by decide +kernel
  have happlication : application.1.map Value.nodes = .ok [.closure ⟨2⟩, .closure ⟨0⟩] := by
    decide +kernel
  have hsize : s.closures.size = 1 := by decide +kernel
  obtain ⟨hend, hstore, -⟩ := i.machine.evalAt_letIn hhosts maxCallDepth i.scope s
    hwhole bs body (by decide) hlet hlambda hexpression hdepth
  rw [hsize] at hend hstore
  exact ⟨hbinding, happlication, hend, hstore⟩

end Machine

end Lisplet
