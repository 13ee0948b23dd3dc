import Lisplet.Proofs.Lockstep.Evaluation

/-! The body of a loop in tail position runs in lockstep with the body of the closure that calls
itself instead, up to the point where one asks for another round and the other makes a call. -/
namespace Lisplet

/-- The second end is the first one, with expressions added to an error that comes without. -/
def Wraps {α : Type} (x y : Except Stop α × Store) : Prop :=
  ∃ k : Stop → Stop, (∀ stop, stop.isSettled = true → k stop = stop) ∧
    (∀ stop, stop.isLimit = true → (k stop).isLimit = true) ∧ y = (x.1.mapError k, x.2)

namespace Wraps

variable {α : Type}

theorem refl (x : Except Stop α × Store) : Wraps x x := by
  refine ⟨id, fun _ _ => rfl, fun _ h => h, ?_⟩
  rcases x with ⟨_ | _, _⟩ <;> rfl

theorem within {x : Except Stop α × Store} {b : Action α} {t : Store} (h : Wraps x (b t))
    (e : Value) : Wraps x (Action.within e b t) := by
  obtain ⟨k, hsettled, hlimit, hb⟩ := h
  refine ⟨fun stop => (k stop).within (x.2.text e), ?_, ?_, ?_⟩
  · intro stop hstop
    change (k stop).within _ = stop
    rw [hsettled stop hstop]
    exact Stop.within_of_isSettled hstop _
  · exact fun stop hstop => Stop.isLimit_within (hlimit stop hstop) _
  · rcases x with ⟨stop | v, u⟩
    · exact Action.within_error hb e
    · exact Action.within_ok hb e

end Wraps

/-- Expressions added to errors that come without one make no difference to an outcome: the errors
of the second action come with one, unless a bound has stopped it. -/
theorem Outcome.wraps {side : Side} {ρ : Match} {t : Store} {P : Value → Prop}
    {x y z : Except Stop Value × Store} (h : Outcome side ρ t (Same (fun _ _ _ => True) P) x z)
    (hwraps : Wraps z y)
    (hz : ∀ stop, z.1 = .error stop → stop.isSettled = true ∨ stop.isLimit = true) :
    Outcome side ρ t (Same (fun _ _ _ => True) P) x y := by
  obtain ⟨k, hsettled, hlimit, rfl⟩ := hwraps
  rcases z with ⟨stop | w, u⟩
  · rcases hz stop rfl with hstop | hstop
    · rw [← hsettled stop hstop] at h
      exact h
    · -- A bound has stopped the second action, so the first one is excused or was stopped too.
      refine .inl ?_
      cases side with
      | right => exact ⟨k stop, rfl, hlimit stop hstop⟩
      | left =>
        rcases h with hexcused | ⟨ρ', -, -, hend⟩
        · exact hexcused
        · rcases x with ⟨stop' | v, s⟩
          · exact ⟨stop', rfl, (Stop.isLimit_of_bare hend).trans hstop⟩
          · exact hend.elim
  · exact h

namespace Loop

/-- A round asks for another one, where the closure calls itself. -/
def Requests (ℓ : Loop) (m : Machine) (next : Call) (ρ : Match) (t : Store)
    (x y : Except Stop Value × Store) : Prop :=
  ∃ args e ρ' t', x.1 = .ok (.tailCall (.ofList args)) ∧ (∀ v ∈ args, v.isOrdinary = true) ∧
    Grows ρ t ρ' t' ∧ Matched ρ' x.2 t' ∧ ℓ.Runs m ρ' x.2 t' ∧
    Wraps ((do Action.checkCount ℓ.id args.length e; next ℓ.id args) t') y

theorem Requests.grows {ℓ : Loop} {m : Machine} {next : Call} {ρ ρ' : Match} {t t' : Store}
    {x y : Except Stop Value × Store} (h : ℓ.Requests m next ρ' t' x y)
    (hgrows : Grows ρ t ρ' t') : ℓ.Requests m next ρ t x y := by
  obtain ⟨args, e, ρ'', t'', hx, hargs, hgrows', h⟩ := h
  exact ⟨args, e, ρ'', t'', hx, hargs, hgrows.trans hgrows', h⟩

/-- In tail position two evaluations have the same value, or the first asks for another round. -/
def Tail (ℓ : Loop) (side : Side) (m : Machine) (next : Call) (pre : Assertion)
    (a b : Action Value) : Prop :=
  ∀ ρ s t, Matched ρ s t → pre ρ s t →
    Outcome side ρ t SameValue (a s) (b t) ∨
      ℓ.Requests m next ρ t (a s) (b t)

namespace Tail

variable {ℓ : Loop} {side : Side} {m : Machine} {next : Call} {pre : Assertion}
  {a b : Action Value}

theorem of_lockstep {inv : Assertion}
    (h : Lockstep side pre a b (Same inv fun v => v.isOrdinary = true)) :
    ℓ.Tail side m next pre a b := by
  intro ρ s t hst hpre
  exact .inl (h.weaken (fun _ _ _ _ _ hsame => ⟨trivial, hsame.2⟩) ρ s t hst hpre)

theorem bind {α β : Type} {a : Action α} {b : Action β} {f : α → Action Value}
    {g : β → Action Value} {mid : Match → Store → Store → α → β → Prop}
    (hab : Lockstep side pre a b mid)
    (hfg : ∀ v w, ℓ.Tail side m next (fun ρ s t => mid ρ s t v w) (f v) (g w)) :
    ℓ.Tail side m next pre (a >>= f) (b >>= g) := by
  intro ρ s t hst hpre
  rcases (hab ρ s t hst hpre).cases with
    hexcused | ⟨ρ', stop, stop', s', t', ha, hb, hgrows, hst', hbare⟩ |
    ⟨ρ', v, w, s', t', ha, hb, hgrows, hst', hmid⟩
  · exact .inl (.inl (hexcused.bind f g))
  · rw [Action.bind_error ha, Action.bind_error hb]
    exact .inl (.inr ⟨ρ', hgrows, hst', hbare⟩)
  · rw [Action.bind_ok ha, Action.bind_ok hb]
    rcases hfg v w ρ' s' t' hst' hmid with hended | hrequests
    · exact .inl (hended.grows hgrows)
    · exact .inr (hrequests.grows hgrows)

theorem bind_same {α : Type} {a b : Action α} {f g : α → Action Value} {inv : Assertion}
    {P : α → Prop} (hab : Lockstep side pre a b (Same inv P))
    (hfg : ∀ v, P v → ℓ.Tail side m next inv (f v) (g v)) :
    ℓ.Tail side m next pre (a >>= f) (b >>= g) := by
  refine bind hab ?_
  rintro v w ρ s t hst ⟨hinv, rfl, hv⟩
  exact hfg w hv ρ s t hst hinv

theorem get_bind {f g : Store → Action Value}
    (h : ∀ s t, s.Alike t → ℓ.Tail side m next pre (f s) (g t)) :
    ℓ.Tail side m next pre (get >>= f) (get >>= g) := by
  intro ρ s t hst hpre
  have hs : (get : Action Store) s = (.ok s, s) := rfl
  have ht : (get : Action Store) t = (.ok t, t) := rfl
  rw [Action.bind_ok hs, Action.bind_ok ht]
  exact h s t hst.alike ρ s t hst hpre

theorem fail (e : Error) : ℓ.Tail side m next pre (Action.fail e) (Action.fail e) :=
  fun ρ s t hst hpre => .inl (Lockstep.fail rfl ρ s t hst hpre)

theorem ofExcept_bind {α : Type} {x : Except Error α} {f g : α → Action Value}
    (h : ∀ v, x = .ok v → ℓ.Tail side m next pre (f v) (g v)) :
    ℓ.Tail side m next pre (Action.ofExcept x >>= f) (Action.ofExcept x >>= g) := by
  cases x with
  | error e => exact fail e
  | ok v => exact h v rfl

theorem within (h : ℓ.Tail side m next pre a b) (e : Value) :
    ℓ.Tail side m next pre (Action.within e a) (Action.within e b) := by
  intro ρ s t hst hpre
  rcases h ρ s t hst hpre with hended | ⟨args, e', ρ', t', hx, hargs, hgrows, hst', hruns, hwraps⟩
  · exact .inl (hended.within e)
  · rcases ha : a s with ⟨r, s'⟩
    rw [ha] at hx hst' hruns
    subst hx
    rw [Action.within_ok ha]
    exact .inr ⟨args, e', ρ', t', rfl, hargs, hgrows, hst', hruns, hwraps.within e⟩

end Tail

end Loop

namespace Machine

open Loop

section

set_option linter.unusedSectionVars false

variable {side : Side} {m : Machine} (hm : m.Standard) {callL callR : Option Call}
  (calls : CallsMatch side callL callR) {ℓ : Loop} {applyL applyR : Call}
  (hL : callL = some applyL) (hR : callR = some applyR)

include hm calls hL hR

/-- The name of the loop stands for the request for another round in one evaluation, and for the
closure in the other. -/
theorem selfCall_tail {args : Value} (hygiene : hygienicElements reserved args = true)
    (admits : (Mode.loop ℓ.name).Admits args) {f g : FrameId} :
    ℓ.Tail side m applyR (ℓ.Links m f g) (m.evalWith callL f (.pair (.symbol ℓ.name) args))
      (m.recursive.evalWith callR g (.pair (.symbol ℓ.name) args)) := by
  rw [m.evalWith_pair hL, m.recursive.evalWith_pair hR]
  refine Tail.within ?_ _
  intro ρ s t hst hlinks
  have hs : m.evalWith callL f (.symbol ℓ.name) s = (.ok marker, s) := by
    have hfound : m.find? s f ℓ.name = some marker := by
      rw [Machine.find?, hlinks.marked, Option.some_or]
    rw [m.evalWith_atom hL f (by simp)]
    change m.lookup f ℓ.name s = _
    rw [lookup_apply, hfound]
  have ht : m.recursive.evalWith callR g (.symbol ℓ.name) t = (.ok (.closure ℓ.id), t) := by
    have hfound : m.recursive.find? t g ℓ.name = some (.closure ℓ.id) := hlinks.itself
    rw [m.recursive.evalWith_atom hR g (by simp)]
    change m.recursive.lookup g ℓ.name t = _
    rw [lookup_apply, hfound]
  have hargs := evalArgs_lockstep (β := .loop ℓ) (f := f) (g := g)
    (fun x _ => evalWith_lockstep hm calls x) hygiene admits
  rw [Action.bind_ok hs, Action.bind_ok ht]
  refine Tail.bind_same hargs (fun vs hvs => ?_) ρ s t hst hlinks
  intro ρ s t hst hlinks
  exact .inr ⟨vs, .pair (.symbol ℓ.name) args, ρ, t, rfl, hvs, .refl ρ t, hst, hlinks.runs, .refl _⟩

/-- A special form in tail position passes it on. -/
theorem form_tail {form : SpecialForm} {operands : Value} {f g : FrameId}
    (h : ℓ.Tail side m applyR (ℓ.Links m f g) (m.evalForm callL f form operands)
      (m.recursive.evalForm callR g form operands)) :
    ℓ.Tail side m applyR (ℓ.Links m f g) (m.evalWith callL f (.pair (.symbol form.name) operands))
      (m.recursive.evalWith callR g (.pair (.symbol form.name) operands)) := by
  rw [m.evalWith_pair hL, m.recursive.evalWith_pair hR]
  refine Tail.within (Tail.bind_same (formName_lockstep (β := .loop ℓ) hm hL hR form) ?_) _
  rintro _ rfl
  exact Tail.bind_same (Lockstep.checkList operands) fun _ _ => h

mutual

theorem evalWith_tail {e : Value} (h : TailUse ℓ.name e) (f g : FrameId) :
    ℓ.Tail side m applyR (ℓ.Links m f g) (m.evalWith callL f e)
      (m.recursive.evalWith callR g e) := by
  have hall := evalWith_lockstep hm calls
  match h with
  | .operand hygiene admits => exact .of_lockstep (hall _ (.loop ℓ) f g hygiene admits)
  | .selfCall hygiene admits => exact selfCall_tail hm calls hL hR hygiene admits
  | .ifThen hygiene admits hyes =>
    refine form_tail hm calls hL hR ?_
    rw [evalForm, evalForm, evalIfElse_eq m, evalIfElse_eq m.recursive]
    refine Tail.bind_same (hall _ (.loop ℓ) f g hygiene admits) fun test _ => ?_
    split
    · exact evalWith_tail hyes f g
    · exact .of_lockstep (Lockstep.pure fun _ _ _ hlinks => ⟨hlinks, rfl, rfl⟩)
  | .ifElse hygiene admits hyes hno =>
    refine form_tail hm calls hL hR ?_
    rw [evalForm, evalForm, evalIfElse_eq m, evalIfElse_eq m.recursive]
    refine Tail.bind_same (hall _ (.loop ℓ) f g hygiene admits) fun test _ => ?_
    split
    · exact evalWith_tail hyes f g
    · exact evalWith_tail hno f g
  | .cond hclauses => exact form_tail hm calls hL hR (evalCond_tail hclauses f g)
  | .binding (.inl rfl) hygiene admits hbody =>
    refine form_tail hm calls hL hR ?_
    rw [evalForm, evalForm, evalLetIn_eq m, evalLetIn_eq m.recursive]
    refine Tail.get_bind fun s t hst => ?_
    rw [Form.boundNames_local hst.toAkin]
    refine Tail.ofExcept_bind fun names hnames => ?_
    refine Tail.bind_same (evalInits_lockstep (β := .loop ℓ) (f := f) (g := g) (fun x _ => hall x)
      hygiene admits) fun values hvalues => ?_
    refine Tail.bind (Lockstep.extend (β := .loop ℓ)
      (boundNames_free (β := .loop ℓ) hnames hygiene admits) hvalues) fun f' g' => ?_
    exact fun ρ s t hst hpre => evalWith_tail hbody f' g' ρ s t hst hpre.1
  | .binding (.inr rfl) hygiene admits hbody =>
    refine form_tail hm calls hL hR ?_
    rw [evalForm, evalForm, evalLetRec_eq m, evalLetRec_eq m.recursive]
    refine Tail.get_bind fun s t hst => ?_
    rw [Form.boundNames_local hst.toAkin]
    refine Tail.ofExcept_bind fun names hnames => ?_
    refine Tail.bind (Lockstep.extend (β := .loop ℓ)
      (boundNames_free (β := .loop ℓ) hnames hygiene admits) ?_) fun f' g' => ?_
    · intro v hv
      obtain ⟨_, -, rfl⟩ := List.mem_map.mp hv
      rfl
    · rintro ρ s t hst ⟨hlinks, howns⟩
      have hinits := bindInits_lockstep (β := .loop ℓ) (g := g') (fun x _ => hall x) howns hygiene
        admits
      exact Tail.bind_same hinits (fun _ _ => evalWith_tail hbody f' g') ρ s t hst hlinks

/-- The same for the clauses of a `cond`. -/
theorem evalCond_tail {e : Value} (h : TailClauses ℓ.name e) (f g : FrameId) :
    ℓ.Tail side m applyR (ℓ.Links m f g) (m.evalCond callL f e)
      (m.recursive.evalCond callR g e) := by
  match h with
  | .clause hygiene admits he hrest =>
    rw [evalCond_eq m, evalCond_eq m.recursive]
    refine Tail.bind_same (evalWith_lockstep hm calls _ (.loop ℓ) f g hygiene admits)
      fun test _ => ?_
    split
    · exact evalWith_tail he f g
    · exact evalCond_tail hrest f g
  | .malformed hclause =>
    rw [evalCond_eq m, evalCond_eq m.recursive]
    dsimp only
    split
    · exact absurd rfl (hclause _ _)
    · exact fun ρ s t hst hlinks => .inl (Lockstep.fail_text ρ s t hst hlinks)
  | .done hatom =>
    rw [evalCond_eq m, evalCond_eq m.recursive]
    split
    · exact absurd rfl (hatom _ _)
    · exact .of_lockstep (Lockstep.pure fun _ _ _ hlinks => ⟨hlinks, rfl, rfl⟩)

end

end

end Machine

end Lisplet
