import Lisplet.Proofs.Simulation

/-! Evaluation without a promise that it ends. It is carried out by computations that may have no
outcome, calls count upward by unbounded recursion, and loops go on for as long as they ask for it.
Nothing but a loop can keep it from coming to an end. -/
namespace Lisplet

abbrev Machine.allowing (m : Machine) (rounds : Nat) : Machine := { m with rounds }

/-- A computation on the store that may go on forever, and then has no outcome. -/
abbrev Process := ExceptT Stop (StateT Store Option)

namespace Process

def ofAction {α : Type} (a : Action α) : Process α := fun s => some (a s)

def within {α : Type} (e : Value) (p : Process α) : Process α := fun s =>
  (p s).map fun outcome => Action.within e (fun _ => outcome) s

def carrier : Machine.Carrier Process := ⟨ofAction, within⟩

/-- Outcomes whose results are related, or that stop alike, in the same store. -/
inductive Alike {α β : Type} (post : α → β → Prop) :
    Except Stop α × Store → Except Stop β × Store → Prop
  | ok {v : α} {v' : β} (h : post v v') (t : Store) : Alike post (.ok v, t) (.ok v', t)
  | error (stop : Stop) (t : Store) : Alike post (.error stop, t) (.error stop, t)

/-- A process ends as another does, unless it goes on forever. -/
def Below {α β : Type} (post : α → β → Prop) (p : Process α) (q : Process β) : Prop :=
  ∀ s, ∀ x ∈ p s, ∃ y ∈ q s, Alike post x y

/-- A process ends as an action does, except that it may go on where the action stops because of a
bound on rounds, if there is an excuse for it. -/
def Follows (excuse : Prop) {α β : Type} (post : α → β → Prop) (p : Process α) (a : Action β) :
    Prop :=
  ∀ s, (∃ x ∈ p s, Alike post x (a s)) ∨ excuse ∧ (a s).1 = .error .unfinished

section

variable {α β γ δ : Type} {p : Process α} {f : α → Process γ}

theorem alike_refl (x : Except Stop α × Store) : Alike Eq x x := by
  obtain ⟨stop | v, t⟩ := x
  · exact .error stop t
  · exact .ok rfl t

theorem eq_of_alike {x y : Except Stop α × Store} (h : Alike Eq x y) : x = y := by
  cases h with
  | ok h t => rw [h]
  | error stop t => rfl

theorem Alike.within {post : α → β → Prop} {x : Except Stop α × Store}
    {y : Except Stop β × Store} (h : Alike post x y) (e : Value) (s s' : Store) :
    Alike post (Action.within e (fun _ => x) s) (Action.within e (fun _ => y) s') := by
  cases h with
  | ok h t => exact .ok h t
  | error stop t =>
    have hwithin {γ : Type} (s : Store) :
        Action.within e (fun _ => (.error stop, t) : Action γ) s =
          (.error (stop.within (t.text e)), t) :=
      Action.within_error rfl e
    rw [hwithin, hwithin]
    exact .error _ t

theorem bind_ok {s s' : Store} {v : α} (h : p s = some (.ok v, s')) :
    (p >>= f) s = f v s' := by
  change ExceptT.bind p f s = _
  simp only [ExceptT.bind, ExceptT.mk, bind, StateT.bind, h]
  rfl

theorem bind_error {s s' : Store} {stop : Stop} (h : p s = some (.error stop, s')) :
    (p >>= f) s = some (.error stop, s') := by
  change ExceptT.bind p f s = _
  simp only [ExceptT.bind, ExceptT.mk, bind, StateT.bind, h]
  rfl

theorem bind_none {s : Store} (h : p s = none) : (p >>= f) s = none := by
  change ExceptT.bind p f s = _
  simp only [ExceptT.bind, ExceptT.mk, bind, StateT.bind, h]
  rfl

theorem Below.bind {mid : α → β → Prop} {post : γ → δ → Prop} {q : Process β} {g : β → Process δ}
    (hp : Below mid p q) (hf : ∀ v v', mid v v' → Below post (f v) (g v')) :
    Below post (p >>= f) (q >>= g) := by
  intro s x hx
  cases hps : p s with
  | none =>
    rw [bind_none hps] at hx
    cases hx
  | some outcome =>
    obtain ⟨y, hy, halike⟩ := hp s outcome hps
    cases halike with
    | ok h t =>
      rw [bind_ok hps] at hx
      rw [bind_ok hy]
      exact hf _ _ h t x hx
    | error stop t =>
      rw [bind_error hps] at hx
      cases hx
      exact ⟨_, bind_error hy, .error stop t⟩

theorem Below.within {post : α → β → Prop} {q : Process β} (hp : Below post p q) (e : Value) :
    Below post (within e p) (within e q) := by
  intro s x hx
  obtain ⟨outcome, hps, rfl⟩ := Option.map_eq_some_iff.mp hx
  obtain ⟨y, hy, halike⟩ := hp s outcome hps
  exact ⟨_, Option.map_eq_some_iff.mpr ⟨y, hy, rfl⟩, halike.within e s s⟩

theorem below_carries (m : Machine) : m.Carries Below carrier carrier where
  pure hpost s := by
    rintro _ ⟨⟩
    exact ⟨_, rfl, .ok hpost s⟩
  bind := .bind
  perform _ s x hx := ⟨x, hx, alike_refl x⟩
  within operator operands hp := hp.within (.pair operator operands)
  run body args s x hx := ⟨x, hx, alike_refl x⟩

theorem Follows.ofAction {excuse : Prop} (a : Action α) : Follows excuse Eq (ofAction a) a :=
  fun s => .inl ⟨a s, rfl, alike_refl _⟩

theorem Follows.bind {excuse : Prop} {mid : α → β → Prop} {post : γ → δ → Prop} {a : Action β}
    {g : β → Action δ} (hp : Follows excuse mid p a)
    (hf : ∀ v v', mid v v' → Follows excuse post (f v) (g v')) :
    Follows excuse post (p >>= f) (a >>= g) := by
  intro s
  rcases hp s with ⟨x, hx, halike⟩ | ⟨hexcuse, hs⟩
  · generalize has : a s = y at halike
    cases halike with
    | ok h t =>
      rw [bind_ok hx, Action.bind_ok has]
      exact hf _ _ h t
    | error stop t =>
      rw [Action.bind_error has]
      exact .inl ⟨_, bind_error hx, .error stop t⟩
  · rcases has : a s with ⟨stop | v, t⟩ <;> rw [has] at hs <;> cases hs
    rw [Action.bind_error has]
    exact .inr ⟨hexcuse, rfl⟩

theorem Follows.within {excuse : Prop} {post : α → β → Prop} {a : Action β}
    (hp : Follows excuse post p a) (e : Value) :
    Follows excuse post (within e p) (Action.within e a) := by
  intro s
  rcases hp s with ⟨x, hx, halike⟩ | ⟨hexcuse, hs⟩
  · exact .inl ⟨_, Option.map_eq_some_iff.mpr ⟨x, hx, rfl⟩, halike.within e s s⟩
  · rcases has : a s with ⟨stop | v, t⟩ <;> rw [has] at hs <;> cases hs
    rw [Action.within_error has]
    exact .inr ⟨hexcuse, rfl⟩

theorem follows_carries (excuse : Prop) (m : Machine) :
    m.Carries (Follows excuse) carrier .plain where
  pure hpost s := .inl ⟨_, rfl, .ok hpost s⟩
  bind := .bind
  perform _ := .ofAction _
  within operator operands hp := hp.within (.pair operator operands)
  run _ _ := .ofAction _

/-- Processes are in an order in which nothing is below an outcome but itself and none at all. -/
theorem rel_of_below {R : Option (Except Stop α × Store) → Option (Except Stop α × Store) → Prop}
    (hnone : ∀ y, R none y) (hrefl : ∀ x, R x x) {p q : Process α} (h : Below Eq p q) (s : Store) :
    R (p s) (q s) := by
  cases hp : p s with
  | none => exact hnone _
  | some x =>
    obtain ⟨y, hy, halike⟩ := h s x hp
    rw [hy, eq_of_alike halike]
    exact hrefl _

theorem below_of_rel {R : Option (Except Stop α × Store) → Option (Except Stop α × Store) → Prop}
    (hR : ∀ x y, R x y → x = none ∨ x = y) {p q : Process α} (h : ∀ s, R (p s) (q s)) :
    Below Eq p q := by
  intro s x hx
  rcases hR _ _ (h s) with hnone | heq
  · rw [hx] at hnone
    cases hnone
  · exact ⟨x, heq ▸ hx, alike_refl x⟩

end

end Process

/-- Runs a machine by recursion without a bound. A loop is cut short after as many rounds as `cut`
tells, if it does. -/
structure Runner where
  machine : Machine
  cut : Option Nat

namespace Runner

open Process

def callsAt (depth : Nat) (apply : ClosureId → List Value → Process Value) :
    Option (ClosureId → List Value → Process Value) :=
  if maxCallDepth ≤ depth then none else some apply

theorem callsAt_below {depth : Nat} {f g : ClosureId → List Value → Process Value}
    (hfg : ∀ id args, Below Eq (f id args) (g id args)) :
    Machine.Carries.Calls Below (callsAt depth f) (callsAt depth g) := by
  unfold callsAt
  split
  · exact .none
  · exact .some hfg

-- The recursive calls are piped, so that the term that is defined does not record where in the text
-- they stand.
mutual

def apply (r : Runner) (depth : Nat) (id : ClosureId) (args : List Value) : Process Value :=
  (r.machine.settingIn carrier (callsAt (depth + 1) (r |>.apply (depth + 1)))).apply
    (fun closure frame _ => r |>.runLoop (depth + 1) closure frame 0) id args Machine.outside
partial_fixpoint monotonicity by
  intro f g hle depth id args
  refine rel_of_below (fun _ => .bot) (fun _ => .refl) ?_
  have hcall (id : ClosureId) (args : List Value) :=
    below_of_rel (fun _ _ h => by cases h <;> simp) (hle.1 (depth + 1) id args)
  have hloop (closure : Closure) (frame : FrameId) :=
    below_of_rel (fun _ _ h => by cases h <;> simp) (hle.2 (depth + 1) closure frame 0)
  exact ((below_carries r.machine).inStep (callsAt_below hcall)).apply (w := ⟨⟩)
    (fun _ _ closure frame _ => hloop closure frame) id (List.forall₂_same.mpr fun _ _ => rfl)
    Machine.outside

def runLoop (r : Runner) (depth : Nat) (closure : Closure) (frame : FrameId) (rounds : Nat) :
    Process Value :=
  if r.cut = some rounds then ofAction (throw .unfinished)
  else
    (r.machine.settingIn carrier (callsAt depth (r |>.apply depth))).round closure frame
      (fun _ => r |>.runLoop depth closure frame (rounds + 1)) frame
partial_fixpoint monotonicity by
  intro f g hle depth closure frame rounds
  refine rel_of_below (fun _ => .bot) (fun _ => .refl) ?_
  have hcall (id : ClosureId) (args : List Value) :=
    below_of_rel (fun _ _ h => by cases h <;> simp) (hle.1 depth id args)
  have hnext :=
    below_of_rel (fun _ _ h => by cases h <;> simp) (hle.2 depth closure frame (rounds + 1))
  dsimp only
  split
  · exact fun s x hx => ⟨x, hx, alike_refl x⟩
  · exact ((below_carries r.machine).inStep (callsAt_below hcall)).round (w := ⟨⟩)
      (fun _ _ _ => hnext) frame

end

def eval (r : Runner) (depth : Nat) (scope : FrameId) (e : Value) : Process Value :=
  (r.machine.settingIn carrier (callsAt depth (r.apply depth))).eval e scope

abbrev FollowsCalls (excuse : Prop) (r : Runner) (depth : Nat) (call : Option Call) : Prop :=
  Machine.Carries.Calls (Follows excuse) (callsAt depth (r.apply depth)) call

/-- A loop of which `done` rounds are over follows the loop that may take `rounds` more, if it is
cut short after as many or has an excuse not to be. -/
theorem runLoop_follows {excuse : Prop} {r : Runner} {k : Nat} {depth : Nat}
    {call : Option Call} (calls : FollowsCalls excuse r depth call) (closure : Closure)
    (frame : FrameId) {rounds done : Nat}
    (hcut : r.cut = some (done + rounds) ∨ r.cut = none ∧ excuse) :
    Follows excuse Eq (r.runLoop depth closure frame done)
      ((r.machine.allowing k).runLoop call closure frame rounds) := by
  induction rounds generalizing done with
  | zero =>
    rw [runLoop.eq_def]
    rcases hcut with hcut | ⟨-, hexcuse⟩
    · rw [if_pos (by simpa using hcut)]
      exact .ofAction _
    · exact fun s => .inr ⟨hexcuse, rfl⟩
  | succ rounds ih =>
    have hgo : r.cut ≠ some done := by
      rcases hcut with hcut | ⟨hcut, -⟩
      · rw [hcut]
        simp
      · simp [hcut]
    have hcut' : r.cut = some (done + 1 + rounds) ∨ r.cut = none ∧ excuse := by
      rwa [Nat.add_right_comm, Nat.add_assoc]
    rw [runLoop.eq_def, if_neg hgo]
    exact ((follows_carries excuse r.machine).inStep calls).round (w := ⟨⟩)
      (fun _ _ _ => ih hcut') frame

/-- A runner that runs loops and cuts none of them short. -/
def Endless (r : Runner) : Prop := r.cut = none ∧ r.machine.looping = true

theorem apply_follows {r : Runner} {k : Nat} (hcut : r.cut = some k ∨ r.cut = none) {depth : Nat}
    {call : Option Call} (calls : FollowsCalls r.Endless r (depth + 1) call) (id : ClosureId)
    (args : List Value) :
    Follows r.Endless Eq (r.apply depth id args) ((r.machine.allowing k).apply call id args) := by
  rw [apply.eq_def, Machine.apply, Machine.applyIn, Machine.settingIn_apply,
    Machine.settingIn_apply]
  refine Follows.bind (.ofAction _) fun found _ hfound => ?_
  cases hfound
  cases found with
  | none => exact (follows_carries r.Endless r.machine).pure rfl
  | some closure =>
    have hbody (name? : Option String) (hlooping : ∀ name ∈ name?, r.machine.looping = true) :
        Follows r.Endless Eq
          ((r.machine.settingIn carrier (callsAt (depth + 1) (r.apply (depth + 1)))).runBody
            (fun closure frame _ => r.runLoop (depth + 1) closure frame 0) closure args name?
            closure.scope)
          (((r.machine.allowing k).setting call).runBody
            (fun closure frame _ => (r.machine.allowing k).runLoop call closure frame k) closure
            args name? closure.scope) := by
      refine ((follows_carries _ r.machine).inStep calls).runBody (w := ⟨⟩) closure
        (List.forall₂_same.mpr fun _ _ => rfl) (fun name hname _ _ frame _ => ?_) closure.scope
      refine runLoop_follows calls closure frame ?_
      rw [Nat.zero_add]
      exact hcut.imp_right fun h => ⟨h, h, hlooping name hname⟩
    -- Whether it is a loop is asked of the store, so what follows is judged store by store.
    exact fun s => hbody (r.machine.loopName? s id closure)
      (fun _ hname => (Machine.loopName?_eq_some hname).1) s

/-- The calls of every depth are followed. -/
theorem callAt_followsCalls {r : Runner} {k : Nat} (hcut : r.cut = some k ∨ r.cut = none)
    (depth : Nat) :
    FollowsCalls r.Endless r depth ((r.machine.allowing k).callAt (maxCallDepth - depth)) := by
  unfold FollowsCalls callsAt
  induction hrest : maxCallDepth - depth generalizing depth with
  | zero =>
    rw [if_pos (by omega)]
    exact .none
  | succ rest ih =>
    rw [if_neg (by omega)]
    exact .some fun id args => apply_follows hcut (ih (depth + 1) (by omega)) id args

/-- Only loops can keep evaluation from coming to an end. With every loop cut short after `k` rounds
it ends, in the same way as on the machine that allows as many rounds; on a machine that runs no
loops as such it always ends; and where it goes on forever, the rounds of a loop exceed every
bound. -/
theorem diverges_only_in_loops (m : Machine) (depth : Nat) (scope : FrameId) (e : Value)
    (s : Store) :
    (∀ k, eval ⟨m, some k⟩ depth scope e s =
      some ((m.allowing k).evalAt (maxCallDepth - depth) scope e s)) ∧
    (m.looping = false →
      eval ⟨m, none⟩ depth scope e s = some (m.evalAt (maxCallDepth - depth) scope e s)) ∧
    (eval ⟨m, none⟩ depth scope e s = none →
      ∀ k, ∃ t, eval ⟨m, some k⟩ depth scope e s = some (.error .unfinished, t)) := by
  have hfollows (k : Nat) (cut : Option Nat) (hcut : cut = some k ∨ cut = none) :
      eval ⟨m, cut⟩ depth scope e s =
        some ((m.allowing k).evalAt (maxCallDepth - depth) scope e s) ∨
      Endless ⟨m, cut⟩ ∧
        ((m.allowing k).evalAt (maxCallDepth - depth) scope e s).1 = .error .unfinished := by
    refine ((follows_carries _ m).eval (callAt_followsCalls (r := ⟨m, cut⟩) hcut depth) scope e
      s).imp_left ?_
    rintro ⟨x, hx, halike⟩
    exact hx.trans (congrArg some (eq_of_alike halike))
  have hcut (k : Nat) : eval ⟨m, some k⟩ depth scope e s =
      some ((m.allowing k).evalAt (maxCallDepth - depth) scope e s) := by
    rcases hfollows k (some k) (.inl rfl) with h | ⟨⟨h, -⟩, -⟩
    · exact h
    · cases h
  refine ⟨hcut, fun hlooping => ?_, fun hnone k => ?_⟩
  · rcases hfollows m.rounds none (.inr rfl) with h | ⟨⟨-, h⟩, -⟩
    · exact h
    · simp [hlooping] at h
  · rcases hfollows k none (.inr rfl) with h | ⟨-, h⟩
    · rw [hnone] at h
      cases h
    · exact ⟨_, (hcut k).trans (congrArg some (Prod.ext h rfl))⟩

end Runner

end Lisplet
