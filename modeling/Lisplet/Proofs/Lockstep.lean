import Lisplet.Proofs.Matching
import Lisplet.Proofs.Settled

/-! Two actions that run in lockstep on matching stores: they end alike, unless one of them is
stopped by a bound on calls or rounds and excused for it. -/
namespace Lisplet

/-- An error without the expression that a wrong number of arguments may show. -/
def Error.bare : Error → Error
  | arity expected got _ => arity expected got none
  | e => e

namespace Stop

def bare : Stop → Stop
  | failed e => failed e.bare
  | unfinished => unfinished

def isLimit : Stop → Bool
  | unfinished => true
  | failed (.eval .depthExceeded _) => true
  | failed _ => false

end Stop

theorem Error.bare_eq_bare {e e' : Error} (h : e.bare = e'.bare) :
    e = e' ∨ ∃ expected got x x', e = .arity expected got x ∧ e' = .arity expected got x' := by
  cases e <;> cases e' <;> simp_all [bare]

namespace Stop

theorem bare_within {stop stop' : Stop} (h : stop.bare = stop'.bare) (expression : String) :
    (stop.within expression).bare = (stop'.within expression).bare := by
  cases stop with
  | unfinished =>
    cases stop' with
    | unfinished => rfl
    | failed e => cases h
  | failed e =>
    cases stop' with
    | unfinished => cases h
    | failed e' =>
      rcases Error.bare_eq_bare (failed.inj h) with rfl | ⟨expected, got, x, x', rfl, rfl⟩
      · rfl
      · rfl

theorem isLimit_of_bare {stop stop' : Stop} (h : stop.bare = stop'.bare) :
    stop.isLimit = stop'.isLimit := by
  cases stop with
  | unfinished =>
    cases stop' with
    | unfinished => rfl
    | failed e => cases h
  | failed e =>
    cases stop' with
    | unfinished => cases h
    | failed e' =>
      rcases Error.bare_eq_bare (failed.inj h) with rfl | ⟨expected, got, x, x', rfl, rfl⟩
      · rfl
      · rfl

theorem isLimit_within {stop : Stop} (h : stop.isLimit = true) (expression : String) :
    (stop.within expression).isLimit = true := by
  unfold isLimit at h
  split at h
  · rfl
  · rename_i context
    simp only [within, Error.within]
    split <;> rfl
  · cases h

end Stop

/-- An end that a bound on calls or rounds has brought about. -/
def Limited {α : Type} (r : Except Stop α) : Prop := ∃ stop, r = .error stop ∧ stop.isLimit = true

instance {α : Type} (r : Except Stop α) : Decidable (Limited r) :=
  match r with
  | .ok _ => isFalse fun ⟨_, h, _⟩ => nomatch h
  | .error stop => decidable_of_iff (stop.isLimit = true)
    ⟨fun h => ⟨stop, rfl, h⟩, fun ⟨_, hstop, h⟩ => Except.error.inj hstop ▸ h⟩

/-- The one of two actions that may be stopped by a bound. -/
inductive Side where
  | left
  | right

/-- Whether two ends need not agree. -/
def Side.Excuses {α β : Type} (side : Side) (r : Except Stop α) (r' : Except Stop β) : Prop :=
  match side with
  | left => Limited r
  | right => Limited r'

def Agree {α β : Type} (post : α → β → Prop) : Except Stop α → Except Stop β → Prop
  | .ok v, .ok w => post v w
  | .error stop, .error stop' => stop.bare = stop'.bare
  | _, _ => False

/-- The closures that exist keep their code and their scope; they may get a name. -/
def Store.KeepsClosures (t t' : Store) : Prop :=
  ∀ (i : Nat) (c : Closure), t.closures[i]? = some c →
    ∃ naming, t'.closures[i]? = some { c with naming }

namespace Store.KeepsClosures

theorem of_eq {t t' : Store} (h : t'.closures = t.closures) : t.KeepsClosures t' :=
  fun _ c hc => ⟨c.naming, h ▸ hc⟩

theorem trans {t t' t'' : Store} (h : t.KeepsClosures t') (h' : t'.KeepsClosures t'') :
    t.KeepsClosures t'' := by
  intro i c hc
  obtain ⟨naming, hc'⟩ := h i c hc
  obtain ⟨naming', hc''⟩ := h' i _ hc'
  exact ⟨naming', hc''⟩

theorem pushClosure (t : Store) (closure : Closure) :
    t.KeepsClosures (t.pushClosure closure).2 := by
  intro i c hc
  refine ⟨c.naming, ?_⟩
  simp only [Store.pushClosure, Array.getElem?_push]
  rw [if_neg (Nat.ne_of_lt (Array.getElem?_eq_some_iff.mp hc).1)]
  exact hc

theorem nameValue (t : Store) (name : String) (value : Value) :
    t.KeepsClosures (t.nameValue name value) := by
  cases value with
  | closure id =>
    intro i c hc
    simp only [Store.nameValue, Store.nameClosure, Array.getElem?_modify, hc, Option.map_some]
    by_cases hid : id.index = i
    · rw [if_pos hid]
      obtain ⟨params, body, scope, naming⟩ := c
      cases naming with
      | none => exact ⟨_, rfl⟩
      | some naming => exact ⟨some naming, rfl⟩
    · rw [if_neg hid]
      exact ⟨c.naming, rfl⟩
  | _ => exact of_eq rfl

end Store.KeepsClosures

/-- Matches are added for new frames of the second store only, and closures last. -/
structure Grows (ρ : Match) (t : Store) (ρ' : Match) (t' : Store) : Prop where
  keeps : ∀ {f g}, ρ f g → ρ' f g
  fresh : ∀ {f g}, ρ' f g → ρ f g ∨ t.frames.size ≤ g.index
  size_le : t.frames.size ≤ t'.frames.size
  closures : t.KeepsClosures t'

namespace Grows

theorem of_size_le (ρ : Match) {t t' : Store} (hsize : t.frames.size ≤ t'.frames.size)
    (hclosures : t.KeepsClosures t') : Grows ρ t ρ t' :=
  ⟨id, .inl, hsize, hclosures⟩

theorem refl (ρ : Match) (t : Store) : Grows ρ t ρ t :=
  of_size_le ρ (Nat.le_refl _) (.of_eq rfl)

theorem trans {ρ ρ' ρ'' : Match} {t t' t'' : Store} (h : Grows ρ t ρ' t')
    (h' : Grows ρ' t' ρ'' t'') : Grows ρ t ρ'' t'' where
  keeps hfg := h'.keeps (h.keeps hfg)
  fresh hfg := by
    rcases h'.fresh hfg with hfg | hge
    · exact h.fresh hfg
    · exact .inr (Nat.le_trans h.size_le hge)
  size_le := Nat.le_trans h.size_le h'.size_le
  closures := h.closures.trans h'.closures

end Grows

abbrev Assertion := Match → Store → Store → Prop

/-- Two actions on matching stores have ended, excused or in agreement. -/
def Outcome {α β : Type} (side : Side) (ρ : Match) (t : Store)
    (post : Match → Store → Store → α → β → Prop) (x : Except Stop α × Store)
    (y : Except Stop β × Store) : Prop :=
  side.Excuses x.1 y.1 ∨
    ∃ ρ', Grows ρ t ρ' y.2 ∧ Matched ρ' x.2 y.2 ∧ Agree (post ρ' x.2 y.2) x.1 y.1

theorem Outcome.grows {α β : Type} {side : Side} {ρ ρ' : Match} {t t' : Store}
    {post : Match → Store → Store → α → β → Prop} {x : Except Stop α × Store}
    {y : Except Stop β × Store} (h : Outcome side ρ' t' post x y) (hgrows : Grows ρ t ρ' t') :
    Outcome side ρ t post x y := by
  rcases h with hexcused | ⟨ρ'', hgrows', hst, hend⟩
  · exact .inl hexcused
  · exact .inr ⟨ρ'', hgrows.trans hgrows', hst, hend⟩

/-- Two ends are excused, are errors that agree, or are results of which `post` holds. -/
theorem Outcome.cases {α β : Type} {side : Side} {ρ : Match} {t : Store}
    {post : Match → Store → Store → α → β → Prop} {x : Except Stop α × Store}
    {y : Except Stop β × Store} (h : Outcome side ρ t post x y) :
    side.Excuses x.1 y.1 ∨
    (∃ ρ' stop stop' s' t', x = (.error stop, s') ∧ y = (.error stop', t') ∧
      Grows ρ t ρ' t' ∧ Matched ρ' s' t' ∧ stop.bare = stop'.bare) ∨
    ∃ ρ' v w s' t', x = (.ok v, s') ∧ y = (.ok w, t') ∧
      Grows ρ t ρ' t' ∧ Matched ρ' s' t' ∧ post ρ' s' t' v w := by
  rcases h with hexcused | ⟨ρ', hgrows, hst, hend⟩
  · exact .inl hexcused
  · rcases x with ⟨stop | v, s'⟩ <;> rcases y with ⟨stop' | w, t'⟩
    · exact .inr (.inl ⟨ρ', stop, stop', s', t', rfl, rfl, hgrows, hst, hend⟩)
    · exact hend.elim
    · exact hend.elim
    · exact .inr (.inr ⟨ρ', v, w, s', t', rfl, rfl, hgrows, hst, hend⟩)

/-- From matching stores of which `pre` holds, two actions end excused or in agreement. -/
def Lockstep {α β : Type} (side : Side) (pre : Assertion) (a : Action α) (b : Action β)
    (post : Match → Store → Store → α → β → Prop) : Prop :=
  ∀ ρ s t, Matched ρ s t → pre ρ s t → Outcome side ρ t post (a s) (b t)

/-- The two results are the same, something is known of them, and of the stores too. -/
def Same {α : Type} (inv : Assertion) (P : α → Prop) : Match → Store → Store → α → α → Prop :=
  fun ρ s t v w => inv ρ s t ∧ w = v ∧ P v

abbrev SameValue : Match → Store → Store → Value → Value → Prop :=
  Same (fun _ _ _ => True) fun v => v.isOrdinary = true

theorem Agree.same {α : Type} {inv inv' : Assertion} {P : α → Prop} {ρ : Match} {s t : Store}
    {r r' : Except Stop α} (h : Agree (Same inv P ρ s t) r r') (hinv : inv' ρ s t) :
    Agree (Same inv' P ρ s t) r r' := by
  cases r with
  | error stop => cases r' <;> exact h
  | ok v =>
    cases r' with
    | error stop => exact h
    | ok w => exact ⟨hinv, h.2⟩

theorem Side.Excuses.bind {α β γ δ : Type} {side : Side} {a : Action α} {b : Action β}
    {s t : Store} (h : side.Excuses (a s).1 (b t).1) (f : α → Action γ) (g : β → Action δ) :
    side.Excuses ((a >>= f) s).1 ((b >>= g) t).1 := by
  cases side with
  | left =>
    obtain ⟨stop, hstop, hlimit⟩ := h
    rcases ha : a s with ⟨r, s'⟩
    rw [ha] at hstop
    subst hstop
    exact ⟨stop, by rw [Action.bind_error ha], hlimit⟩
  | right =>
    obtain ⟨stop, hstop, hlimit⟩ := h
    rcases hb : b t with ⟨r, t'⟩
    rw [hb] at hstop
    subst hstop
    exact ⟨stop, by rw [Action.bind_error hb], hlimit⟩

theorem Side.Excuses.within {α β : Type} {side : Side} {a : Action α} {b : Action β}
    {s t : Store} (h : side.Excuses (a s).1 (b t).1) (e : Value) :
    side.Excuses (Action.within e a s).1 (Action.within e b t).1 := by
  cases side with
  | left =>
    obtain ⟨stop, hstop, hlimit⟩ := h
    rcases ha : a s with ⟨r, s'⟩
    rw [ha] at hstop
    subst hstop
    exact ⟨_, by rw [Action.within_error ha], Stop.isLimit_within hlimit _⟩
  | right =>
    obtain ⟨stop, hstop, hlimit⟩ := h
    rcases hb : b t with ⟨r, t'⟩
    rw [hb] at hstop
    subst hstop
    exact ⟨_, by rw [Action.within_error hb], Stop.isLimit_within hlimit _⟩

/-- An expression is added to the errors of both actions or to none. -/
theorem Outcome.within {α β : Type} {side : Side} {ρ : Match} {a : Action α} {b : Action β}
    {s t : Store} {post : Match → Store → Store → α → β → Prop}
    (h : Outcome side ρ t post (a s) (b t)) (e : Value) :
    Outcome side ρ t post (Action.within e a s) (Action.within e b t) := by
  rcases h.cases with hexcused | ⟨ρ', stop, stop', s', t', ha, hb, hgrows, hst, hbare⟩ |
    ⟨ρ', v, w, s', t', ha, hb, hgrows, hst, hpost⟩
  · exact .inl (hexcused.within e)
  · rw [Action.within_error ha, Action.within_error hb, hst.alike.text]
    exact .inr ⟨ρ', hgrows, hst, Stop.bare_within hbare _⟩
  · rw [Action.within_ok ha, Action.within_ok hb]
    exact .inr ⟨ρ', hgrows, hst, hpost⟩

namespace Lockstep

variable {α β γ δ : Type} {side : Side} {pre : Assertion}
  {post : Match → Store → Store → α → β → Prop}

theorem pure {v : α} {w : β} (h : ∀ ρ s t, pre ρ s t → post ρ s t v w) :
    Lockstep side pre (pure v) (pure w) post :=
  fun ρ s t hst hpre => .inr ⟨ρ, .refl ρ t, hst, h ρ s t hpre⟩

theorem fail {e e' : Error} (h : e.bare = e'.bare) :
    Lockstep side pre (Action.fail e) (Action.fail e') post :=
  fun ρ _ t hst _ => .inr ⟨ρ, .refl ρ t, hst, congrArg Stop.failed h⟩

theorem weaken {a : Action α} {b : Action β} {post' : Match → Store → Store → α → β → Prop}
    (h : Lockstep side pre a b post)
    (hpost : ∀ ρ s t v w, post ρ s t v w → post' ρ s t v w) : Lockstep side pre a b post' := by
  intro ρ s t hst hpre
  rcases (h ρ s t hst hpre).cases with
    hexcused | ⟨ρ', stop, stop', s', t', ha, hb, hgrows, hst', hbare⟩ |
    ⟨ρ', v, w, s', t', ha, hb, hgrows, hst', hmid⟩
  · exact .inl hexcused
  · rw [ha, hb]
    exact .inr ⟨ρ', hgrows, hst', hbare⟩
  · rw [ha, hb]
    exact .inr ⟨ρ', hgrows, hst', hpost ρ' s' t' v w hmid⟩

theorem bind {a : Action γ} {b : Action δ} {f : γ → Action α} {g : δ → Action β}
    {mid : Match → Store → Store → γ → δ → Prop} (hab : Lockstep side pre a b mid)
    (hfg : ∀ v w, Lockstep side (fun ρ s t => mid ρ s t v w) (f v) (g w) post) :
    Lockstep side pre (a >>= f) (b >>= g) post := by
  intro ρ s t hst hpre
  rcases (hab ρ s t hst hpre).cases with
    hexcused | ⟨ρ', stop, stop', s', t', ha, hb, hgrows, hst', hbare⟩ |
    ⟨ρ', v, w, s', t', ha, hb, hgrows, hst', hmid⟩
  · exact .inl (hexcused.bind f g)
  · rw [Action.bind_error ha, Action.bind_error hb]
    exact .inr ⟨ρ', hgrows, hst', hbare⟩
  · rw [Action.bind_ok ha, Action.bind_ok hb]
    exact (hfg v w ρ' s' t' hst' hmid).grows hgrows

/-- What follows is known to start from the same result. -/
theorem bind_same {a b : Action γ} {f : γ → Action α} {g : γ → Action β} {inv : Assertion}
    {P : γ → Prop} (hab : Lockstep side pre a b (Same inv P))
    (hfg : ∀ v, P v → Lockstep side inv (f v) (g v) post) :
    Lockstep side pre (a >>= f) (b >>= g) post := by
  refine bind hab ?_
  rintro v w ρ s t hst ⟨hinv, rfl, hv⟩
  exact hfg w hv ρ s t hst hinv

theorem within {a : Action α} {b : Action β} (h : Lockstep side pre a b post) (e : Value) :
    Lockstep side pre (Action.within e a) (Action.within e b) post :=
  fun ρ s t hst hpre => (h ρ s t hst hpre).within e

theorem get_bind {f : Store → Action α} {g : Store → Action β}
    (h : ∀ s t, s.Alike t → Lockstep side pre (f s) (g t) post) :
    Lockstep side pre (get >>= f) (get >>= g) post := by
  intro ρ s t hst hpre
  have hs : (get : Action Store) s = (.ok s, s) := rfl
  have ht : (get : Action Store) t = (.ok t, t) := rfl
  rw [Action.bind_ok hs, Action.bind_ok ht]
  exact h s t hst.alike ρ s t hst hpre

theorem ofExcept_bind {x : Except Error γ} {f : γ → Action α} {g : γ → Action β}
    (h : ∀ v, x = .ok v → Lockstep side pre (f v) (g v) post) :
    Lockstep side pre (Action.ofExcept x >>= f) (Action.ofExcept x >>= g) post := by
  cases x with
  | error e => exact fail rfl
  | ok v => exact h v rfl

theorem fail_text {v : Value} {e : String → Error} :
    Lockstep side pre (Action.text v >>= fun text => Action.fail (e text))
      (Action.text v >>= fun text => Action.fail (e text)) post := by
  intro ρ s t hst hpre
  have hs : Action.text v s = (.ok (s.text v), s) := rfl
  have ht : Action.text v t = (.ok (t.text v), t) := rfl
  rw [Action.bind_ok hs, Action.bind_ok ht, hst.alike.text]
  exact fail rfl ρ s t hst hpre

/-- Actions that leave frames and closures alone keep what is known of these. -/
theorem of_local {a : Action α} (ha : a.Local) {P : α → Prop}
    (hP : Action.Holds Store.OrdinaryItems a P) {inv : Assertion}
    (hinv : ∀ ρ s t s' t', Matched ρ s t → inv ρ s t → s'.frames = s.frames →
      t'.frames = t.frames → t'.closures = t.closures → inv ρ s' t') :
    Lockstep side inv a a (Same inv P) := by
  intro ρ s t hst hpre
  obtain ⟨hr, hst', hv⟩ := hst.of_local ha hP
  obtain ⟨-, -, hframes, -⟩ := ha s s (.refl s)
  obtain ⟨-, -, hframes', hclosures'⟩ := ha t t (.refl t)
  have hinv' := hinv ρ s t _ _ hst hpre hframes hframes' hclosures'
  refine .inr ⟨ρ, .of_size_le ρ (Nat.le_of_eq (by rw [hframes'])) (.of_eq hclosures'), hst', ?_⟩
  rcases hs : a s with ⟨stop | v, s'⟩ <;> rcases ht : a t with ⟨stop' | w, t'⟩ <;>
    rw [hs, ht] at hr hinv' <;> rw [hs] at hv
  · cases hr
    rfl
  · cases hr
  · cases hr
  · cases hr
    exact ⟨hinv', rfl, hv _ rfl⟩

end Lockstep

end Lisplet
