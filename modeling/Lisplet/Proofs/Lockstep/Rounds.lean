import Lisplet.Proofs.Containment.Evaluation
import Lisplet.Proofs.Lockstep.Tail

/-! A loop and the closure that calls itself instead run in lockstep, one round to a call. -/
namespace Lisplet

namespace Bindings

/-- Names bound later come before what was bound already. -/
theorem find?_insertAll_zip (b : Bindings) (names : List String) (values : List Value)
    (x : String) :
    (b.insertAll (names.zip values)).find? x = ((ofLists names values).find? x).or (b.find? x) := by
  rw [ofLists_eq_insertAll, find?_insertAll, find?_insertAll, empty, find?, Option.or_none]

end Bindings

namespace Store

@[simp] theorem chain_bindAll (s : Store) (f g : FrameId) (entries : List (String × Value)) :
    (s.bindAll f entries).chain g = s.chain g := by
  induction entries generalizing s with
  | nil => rfl
  | cons entry entries ih => exact (ih _).trans (s.chain_bind f g entry.1 entry.2)

theorem bindings_bindAll_self (s : Store) {f : FrameId} (h : f.index < s.frames.size)
    (entries : List (String × Value)) :
    (s.bindAll f entries).bindings f = (s.bindings f).insertAll entries := by
  induction entries generalizing s with
  | nil => rfl
  | cons entry entries ih =>
    obtain ⟨name, value⟩ := entry
    change ((s.bind f name value).bindAll f entries).bindings f =
      ((s.bindings f).insert name value).insertAll entries
    rw [← s.bindings_bind_self f name value h]
    exact ih _ ((s.size_frames_bind f name value).symm ▸ h)

theorem framesOnly_bindAll (s : Store) (f : FrameId) (entries : List (String × Value)) :
    s.FramesOnly (s.bindAll f entries) := by
  induction entries generalizing s with
  | nil => exact ⟨rfl, rfl, rfl, rfl⟩
  | cons entry entries ih =>
    obtain ⟨hclosures, hvectors, hinput, houtput⟩ := ih (s.bind f entry.1 entry.2)
    exact ⟨hclosures, hvectors, hinput, houtput⟩

end Store

namespace Loop

/-- The frame of a loop binds the parameters to the arguments of the round, and the name of the loop
to the request for another round. -/
def Holds (ℓ : Loop) (args : List Value) : Prop :=
  ℓ.bindings.find? ℓ.name = some marker ∧
    ∀ x, x ≠ ℓ.name → ℓ.bindings.find? x = (Bindings.ofLists ℓ.closure.params args).find? x

def next (ℓ : Loop) (args : List Value) : Loop :=
  { ℓ with bindings := ℓ.bindings.insertAll (ℓ.closure.params.zip args) }

variable {ℓ : Loop} {m : Machine} {ρ : Match} {s t : Store} {args : List Value}

theorem find?_name_eq_none (hname : ℓ.name ∉ ℓ.closure.params) (args : List Value) :
    (Bindings.ofLists ℓ.closure.params args).find? ℓ.name = none := by
  cases hv : (Bindings.ofLists ℓ.closure.params args).find? ℓ.name with
  | none => rfl
  | some v => exact absurd (Bindings.mem_of_find?_ofLists hv).1 hname

theorem Holds.next (h : ℓ.Holds args) (hname : ℓ.name ∉ ℓ.closure.params) {args' : List Value}
    (hlen : args'.length = ℓ.closure.params.length) : (ℓ.next args').Holds args' := by
  have hfind (x : String) : (ℓ.next args').bindings.find? x =
      ((Bindings.ofLists ℓ.closure.params args').find? x).or (ℓ.bindings.find? x) :=
    ℓ.bindings.find?_insertAll_zip _ _ x
  constructor
  · change (ℓ.next args').bindings.find? ℓ.name = some marker
    rw [hfind, find?_name_eq_none hname, h.1]
    rfl
  · intro x hx
    rw [hfind, h.2 x hx]
    change _ = (Bindings.ofLists ℓ.closure.params args').find? x
    by_cases hparam : x ∈ ℓ.closure.params
    · have hbound := Bindings.find?_ofLists_isSome (Nat.le_of_eq hlen.symm) hparam
      obtain ⟨v, hv⟩ := Option.isSome_iff_exists.mp hbound
      rw [hv, Option.some_or]
    · have hnone : (Bindings.ofLists ℓ.closure.params args).find? x = none := by
        cases hv : (Bindings.ofLists ℓ.closure.params args).find? x with
        | none => rfl
        | some v => exact absurd (Bindings.mem_of_find?_ofLists hv).1 hparam
      rw [hnone, Option.or_none]

theorem Runs.binds (h : ℓ.Runs m ρ s t) (hholds : ℓ.Holds args)
    (hname : ℓ.name ∉ ℓ.closure.params) (hlen : args.length = ℓ.closure.params.length) :
    ∀ p ∈ ℓ.closure.params, s.Binds ℓ.base p := by
  intro p hp
  have hne : p ≠ ℓ.name := fun hpname => hname (hpname ▸ hp)
  unfold Store.Binds
  rw [h.base_bindings, hholds.2 p hne]
  exact Bindings.find?_ofLists_isSome (Nat.le_of_eq hlen.symm) hp

/-- Nothing else can come to the frame of a loop. -/
theorem Runs.base_apart (h : ℓ.Runs m ρ s t) (hst : Matched ρ s t) (hholds : ℓ.Holds args)
    (g : FrameId) : ¬ ρ ℓ.base g := by
  intro hbase
  have hmarked : (s.bindings ℓ.base).find? ℓ.name = some marker := by
    rw [h.base_bindings]
    exact hholds.1
  rcases (hst.contained.bindings ⟨rfl, g, hbase⟩ hmarked).2 with hordinary | ⟨hmode, -⟩
  · cases hordinary
  · cases hmode

/-- Overwriting the parameters in the frame of the loop leads to its next round. -/
theorem Runs.next (h : ℓ.Runs m ρ s t) (hst : Matched ρ s t) (hholds : ℓ.Holds args)
    (args' : List Value) :
    Matched ρ (s.bindAll ℓ.base (ℓ.closure.params.zip args')) t ∧
      (ℓ.next args').Runs m ρ (s.bindAll ℓ.base (ℓ.closure.params.zip args')) t := by
  have hs : Store.Retains (· = ℓ.base) s (s.bindAll ℓ.base (ℓ.closure.params.zip args')) :=
    (Store.Retains.refl (· = ℓ.base) s).bindAll (.inl rfl) _
  constructor
  · exact hst.left_retains hs (s.framesOnly_bindAll _ _) fun f g hfg hf =>
      h.base_apart hst hholds g (hf ▸ hfg)
  · refine ⟨h.name, ?_, ?_, ?_, h.scope, h.closure, h.itself⟩
    · rw [Store.size_frames_bindAll]
      exact h.base_lt
    · rw [Store.chain_bindAll, Store.chain_bindAll]
      exact h.base_chain
    · change _ = ℓ.bindings.insertAll (ℓ.closure.params.zip args')
      rw [← h.base_bindings]
      exact s.bindings_bindAll_self h.base_lt _

/-- A closure that calls itself enters a new frame where the loop has overwritten its own. -/
theorem Runs.enter (h : ℓ.Runs m ρ s t) (hst : Matched ρ s t) (hholds : ℓ.Holds args)
    (hname : ℓ.name ∉ ℓ.closure.params) (hparams : ∀ p ∈ ℓ.closure.params, reserved p = false)
    (hargs : ∀ v ∈ args, v.isOrdinary = true) :
    Matched ρ s (Machine.entry ℓ.closure args t).2 ∧
      ℓ.Links m ℓ.base (Machine.entry ℓ.closure args t).1 ρ s
        (Machine.entry ℓ.closure args t).2 := by
  have ht : Store.Retains (fun _ => False) t (Machine.entry ℓ.closure args t).2 :=
    (Store.Retains.refl _ t).pushFrame _ _
  have hruns := h.retained hst (.refl _ s) ht (.of_size_le ρ ht.size_le (.of_eq rfl))
  have hleft (x : String) : s.find? x (s.chain ℓ.base) =
      (ℓ.bindings.find? x).or (s.find? x (s.chain ℓ.scope)) := by
    rw [h.base_chain, Store.find?, h.base_bindings]
    cases ℓ.bindings.find? x <;> rfl
  have hright := t.find?_pushFrame (.ofLists ℓ.closure.params args) (hst.right_chain_lt h.scope)
  constructor
  · exact hst.right_retains ht ⟨rfl, rfl, rfl, rfl⟩ fun _ _ _ => not_false
  · refine ⟨hruns, ?_, ?_, ?_, ?_, ?_, ?_, ?_⟩
    · rw [h.base_chain, List.forall_mem_cons]
      exact ⟨h.base_lt, hst.left_chain_lt h.scope⟩
    · rw [Store.chain_pushFrame, List.forall_mem_cons]
      refine ⟨by simp, fun g hg => ?_⟩
      exact Nat.lt_of_lt_of_le (hst.right_chain_lt h.scope g hg) ht.size_le
    · intro x hx
      rw [hleft, hright, hholds.2 x hx, hst.find? h.scope]
    · intro x v hx hv
      rw [hleft, hholds.2 x hx, Option.or_eq_some_iff] at hv
      rcases hv with hv | ⟨-, hv⟩
      · obtain ⟨hx, hv⟩ := Bindings.mem_of_find?_ofLists hv
        exact ⟨hparams x hx, hargs v hv⟩
      · obtain ⟨hreserved, hordinary | ⟨hmode, -⟩⟩ :=
          hst.contained.find?_allows ⟨rfl, _, h.scope⟩ hv
        · exact ⟨hreserved, hordinary⟩
        · cases hmode
    · rw [hleft, hholds.1, Option.some_or]
    · rw [Machine.find?, hright, find?_name_eq_none hname, Option.none_or]
      exact h.itself
    · exact fun f' hfg => absurd (hst.lt hfg) (by simp)

end Loop

namespace Machine

/-- Errors come with an expression, unless a bound on calls has stopped the evaluation. -/
theorem evalWith_pair_settled (m : Machine) (call : Option Call) (scope : FrameId)
    (operator operands : Value) (s : Store) {stop : Stop}
    (h : (m.evalWith call scope (.pair operator operands) s).1 = .error stop) :
    stop.isSettled = true ∨ stop.isLimit = true := by
  obtain hc | ⟨apply, hc⟩ := call.eq_none_or_eq_some
  · rw [m.evalWith_none hc] at h
    cases h
    exact .inr rfl
  · exact .inl (m.evalWith_settled hc scope _ s stop h)

/-- Without loops no closure runs as one. -/
theorem recursive_loopName? (m : Machine) (s : Store) (id : ClosureId) (closure : Closure) :
    m.recursive.loopName? s id closure = none := by
  unfold loopName?
  cases closure.naming <;> simp [recursive]

/-- A round that does not ask for another one ends the loop. -/
theorem runLoop_ended {m : Machine} {call : Option Call} {closure : Closure} {frame : FrameId}
    (rounds : Nat) {side : Side} {ρ : Match} {s t : Store} {y : Except Stop Value × Store}
    (h : Outcome side ρ t SameValue (m.evalWith call frame closure.body s) y) :
    Outcome side ρ t SameValue (m.runLoop call closure frame (rounds + 1) s) y := by
  rcases hbody : m.evalWith call frame closure.body s with ⟨r, s'⟩
  rw [hbody] at h
  have hrequest (args : Value) (hr : r = .ok (.tailCall args)) : Side.right.Excuses r y.1 ∧
      side = .right := by
    subst hr
    rcases h with hexcused | ⟨ρ', -, -, hend⟩
    · cases side with
      | left =>
        obtain ⟨_, hstop, -⟩ := hexcused
        cases hstop
      | right => exact ⟨hexcused, rfl⟩
    · rcases y with ⟨_ | w, t'⟩
      · exact hend.elim
      · cases hend.2.2
  rcases m.runLoop_succ call closure frame rounds hbody with
    ⟨stop, rfl, hloop⟩ | ⟨args, hr, -, -⟩ | ⟨args, hr, -, -⟩ | ⟨v, rfl, -, hloop⟩
  · rw [hloop]
    exact h
  · obtain ⟨hexcused, rfl⟩ := hrequest args hr
    exact .inl hexcused
  · obtain ⟨hexcused, rfl⟩ := hrequest args hr
    exact .inl hexcused
  · rw [hloop]
    exact h

end Machine

/-- Whether what reading a closure has found makes it fit to run as a loop. -/
structure Loop.Sound (ℓ : Loop) : Prop where
  name : ℓ.name ∉ ℓ.closure.params
  params : ∀ p ∈ ℓ.closure.params, reserved p = false
  body : TailUse ℓ.name ℓ.closure.body
  pair : ∃ operator operands, ℓ.closure.body = .pair operator operands

/-- How many calls evaluation without loops may have in progress for `depth` calls with loops of at
most `rounds` rounds: enough for all of them, or so few that it is the first to be stopped. -/
def Side.Fits (side : Side) (rounds depth depth' : Nat) : Prop :=
  match side with
  | left => depth * (rounds + 1) ≤ depth'
  | right => depth' ≤ depth ∧ depth' ≤ rounds

def Side.FitsLoop (side : Side) (rounds depth depth' remaining : Nat) : Prop :=
  side.Fits rounds depth depth' ∧
    match side with
    | left => depth * (rounds + 1) + remaining ≤ depth'
    | right => depth' ≤ remaining

theorem Side.FitsLoop.step {side : Side} {rounds depth depth' remaining : Nat}
    (h : side.FitsLoop rounds depth (depth' + 1) (remaining + 1)) :
    side.FitsLoop rounds depth depth' remaining := by
  obtain ⟨hfits, hloop⟩ := h
  cases side with
  | left =>
    simp only [FitsLoop, Fits] at hfits hloop ⊢
    omega
  | right =>
    simp only [FitsLoop, Fits] at hfits hloop ⊢
    omega

/-- One call with a loop in it takes the place of as many calls as the loop has rounds. -/
theorem Side.Fits.step {side : Side} {rounds depth depth' : Nat}
    (h : side.Fits rounds (depth + 1) (depth' + 1)) :
    side.FitsLoop rounds depth depth' rounds := by
  cases side with
  | left =>
    simp only [FitsLoop, Fits, Nat.add_mul, Nat.one_mul] at h ⊢
    omega
  | right =>
    simp only [FitsLoop, Fits] at h ⊢
    omega

namespace Machine

/-- What a closure that calls itself does where its loop asks for another round. -/
theorem selfCall_apply {m : Machine} {ℓ : Loop} {ρ : Match} {s t : Store} (h : ℓ.Runs m ρ s t)
    {depth : Nat} {apply : Call} (hcall : m.recursive.callAt (depth + 1) = some apply)
    (args : List Value) (e : Value) :
    (do Action.checkCount ℓ.id args.length e; apply ℓ.id args) t =
      if args.length = ℓ.closure.params.length then
        m.recursive.evalWith (m.recursive.callAt depth) (entry ℓ.closure args t).1
          ℓ.closure.body (entry ℓ.closure args t).2
      else (.error (.failed (.arity (.exact ℓ.closure.params.length) args.length
        (some (t.text e)))), t) := by
  obtain ⟨naming, hc⟩ := h.closure
  have hcount : t.paramCount ℓ.id = ℓ.closure.params.length := by
    simp only [Store.paramCount, hc]
  have hcheck := Action.checkCount_apply ℓ.id args.length e t
  rw [hcount] at hcheck
  cases hcall
  by_cases hlen : args.length = ℓ.closure.params.length
  · rw [if_pos hlen] at hcheck ⊢
    rw [Action.bind_ok hcheck]
    exact m.recursive.apply_of_loopName?_eq_none _ hc (m.recursive_loopName? _ _ _) args
  · rw [if_neg hlen] at hcheck ⊢
    exact Action.bind_error hcheck

/-- Round after round, a loop runs in lockstep with the closure that calls itself. -/
theorem runLoop_lockstep {side : Side} {m : Machine} (hm : m.Standard) {depth : Nat}
    (hcalls : ∀ depth', side.Fits m.rounds depth depth' →
      CallsMatch side (m.callAt depth) (m.recursive.callAt depth'))
    {ℓ : Loop} (hsound : ℓ.Sound) {closure : Closure} (hparams : closure.params = ℓ.closure.params)
    (hbody : closure.body = ℓ.closure.body) {remaining depth' : Nat}
    (hfits : side.FitsLoop m.rounds depth depth' remaining) {ρ : Match} {s t : Store}
    (hst : Matched ρ s t) (hruns : ℓ.Runs m ρ s t) {args : List Value} (hholds : ℓ.Holds args)
    (hlen : args.length = ℓ.closure.params.length) (hargs : ∀ v ∈ args, v.isOrdinary = true) :
    Outcome side ρ t SameValue
      (m.runLoop (m.callAt depth) closure ℓ.base remaining s)
      (m.recursive.evalWith (m.recursive.callAt depth') (entry ℓ.closure args t).1
        ℓ.closure.body (entry ℓ.closure args t).2) := by
  induction remaining generalizing ℓ depth' ρ s t args with
  | zero =>
    -- The loop is stopped for want of rounds, and the closure has no call left either.
    refine .inl ?_
    cases side with
    | left => exact ⟨.unfinished, rfl, rfl⟩
    | right =>
      obtain rfl : depth' = 0 := Nat.le_zero.mp hfits.2
      have hnone : m.recursive.callAt 0 = none := rfl
      rw [m.recursive.evalWith_none hnone]
      exact ⟨_, rfl, rfl⟩
  | succ remaining ih =>
    have calls := hcalls depth' hfits.1
    obtain ⟨hst₁, hlinks⟩ := hruns.enter hst hholds hsound.name hsound.params hargs
    have hgrows₁ : Grows ρ t ρ (entry ℓ.closure args t).2 :=
      .of_size_le ρ (by simp) (.of_eq rfl)
    rcases excused_or_calls calls (m.evalWith (m.callAt depth) ℓ.base closure.body)
      (m.recursive.evalWith (m.recursive.callAt depth') (entry ℓ.closure args t).1 ℓ.closure.body)
      (fun h => m.evalWith_none h _ _) (fun h => m.recursive.evalWith_none h _ _) with
      hexcused | ⟨applyL, applyR, hL, hR⟩
    · exact runLoop_ended remaining (.inl (hexcused _ _))
    have htail := evalWith_tail hm calls hL hR hsound.body ℓ.base (entry ℓ.closure args t).1 ρ s
      (entry ℓ.closure args t).2 hst₁ hlinks
    rw [← hbody] at htail
    rcases htail with hended | ⟨args', e, ρ', t', hrequest, hargs', hgrows, hst', hruns', hwraps⟩
    · rw [← hbody]
      exact (runLoop_ended remaining hended).grows hgrows₁
    rcases hround : m.evalWith (m.callAt depth) ℓ.base closure.body s with ⟨r, s'⟩
    rw [hround] at hrequest hst' hruns'
    obtain rfl : r = .ok (.tailCall (.ofList args')) := hrequest
    cases depth' with
    | zero => cases hR
    | succ depth' =>
    rw [selfCall_apply hruns' hR] at hwraps
    rw [runLoop_eq, Action.bind_ok hround, ← hbody]
    dsimp only
    rw [Value.heads_ofList, hparams]
    by_cases hlen' : args'.length = ℓ.closure.params.length
    · -- The loop has overwritten its frame, and the closure has entered a new one.
      rw [if_pos hlen'] at hwraps ⊢
      have hbinds := hruns'.binds hholds hsound.name hlen
      obtain ⟨hst₂, hruns₂⟩ := hruns'.next hst' hholds args'
      have hsound' : (ℓ.next args').Sound :=
        ⟨hsound.name, hsound.params, hsound.body, hsound.pair⟩
      have hnext := ih hsound' hparams hbody hfits.step hst₂ hruns₂
        (hholds.next hsound.name hlen') hlen' hargs'
      rw [Action.bind_ok (rebind_apply hbinds args')]
      refine (hnext.wraps hwraps fun stop hstop => ?_).grows (hgrows₁.trans hgrows)
      obtain ⟨operator, operands, hpair⟩ := hsound'.pair
      rw [hpair] at hstop
      exact m.recursive.evalWith_pair_settled _ _ operator operands _ hstop
    · -- Only the error of the closure shows the call.
      rw [if_neg hlen'] at hwraps ⊢
      have hended : Outcome side ρ' t' SameValue
          (Action.arityFault (.exact ℓ.closure.params.length) args'.length s')
          (.error (.failed (.arity (.exact ℓ.closure.params.length) args'.length
            (some (t'.text e)))), t') := .inr ⟨ρ', .refl ρ' t', hst', rfl⟩
      refine (hended.wraps hwraps ?_).grows (hgrows₁.trans hgrows)
      rintro _ ⟨⟩
      exact .inl rfl

/-- Only a pair can be a body that calls itself. -/
theorem eq_pair_of_inTail {name : String} {body : Value}
    (h : SelfUse.inTail name body = .tailCalls) :
    ∃ operator operands, body = .pair operator operands := by
  cases body with
  | pair operator operands => exact ⟨operator, operands, rfl⟩
  | symbol x =>
    rw [SelfUse.inTail] at h
    split at h <;> cases h
  | _ => cases h

abbrev loopStart (name : String) (id : ClosureId) (closure : Closure) (g : FrameId)
    (args : List Value) (s : Store) : Loop where
  name := name
  base := (entry closure args s).1
  bindings := (Bindings.ofLists closure.params args).insert name marker
  scope := closure.scope
  id := id
  closure := { closure with scope := g }

/-- A call that runs as a loop starts its first round. -/
theorem entry_runs {m : Machine} {id : ClosureId} {closure : Closure} {name : String} {g : FrameId}
    {ρ : Match} {s t : Store} (hst : Matched ρ s t) (hscope : ρ closure.scope g)
    (hc : t.closures[id.index]? = some { closure with scope := g })
    (hname : reserved name = false) (hitself : m.find? s closure.scope name = some (.closure id))
    (args : List Value) :
    let start := (entry closure args s).2.bind (entry closure args s).1 name marker
    Matched ρ start t ∧ (loopStart name id closure g args s).Runs m ρ start t := by
  intro start
  have hlt : (entry closure args s).1.index < (entry closure args s).2.frames.size := by simp
  have hs : Store.Retains (fun _ => False) s start :=
    ((Store.Retains.refl _ s).pushFrame _ _).bind (.inr (Nat.le_refl _)) name marker
  constructor
  · exact hst.left_retains hs ⟨rfl, rfl, rfl, rfl⟩ fun _ _ _ => not_false
  · refine ⟨hname, ?_, ?_, ?_, hscope, ⟨closure.naming, hc⟩, ?_⟩
    · rw [Store.size_frames_bind]
      exact hlt
    · rw [hs.chain _ (hst.left_lt hscope), Store.chain_bind]
      exact Store.chain_pushFrame s closure.scope _
    · rw [Store.bindings_bind_self _ _ _ _ hlt, Store.bindings_pushFrame_self]
    · change m.find? t g name = _
      rw [← hitself, Machine.find?, Machine.find?, hst.find? hscope]

theorem apply_lockstep {side : Side} {m : Machine} (hm : m.Standard) {depth depth' : Nat}
    (hcalls : ∀ depth', side.Fits m.rounds depth depth' →
      CallsMatch side (m.callAt depth) (m.recursive.callAt depth'))
    (hfits : side.FitsLoop m.rounds depth depth' m.rounds) (id : ClosureId) {args : List Value}
    (hargs : ∀ v ∈ args, v.isOrdinary = true) :
    Lockstep side (fun _ s _ => args.length = s.paramCount id) (m.apply (m.callAt depth) id args)
      (m.recursive.apply (m.recursive.callAt depth') id args) SameValue := by
  intro ρ s t hst hlen
  cases hc : s.closures[id.index]? with
  | none =>
    rw [m.apply_of_none _ hc, m.recursive.apply_of_none _ (hst.closure_none hc)]
    exact .inr ⟨ρ, .refl ρ t, hst, trivial, rfl, rfl⟩
  | some closure =>
    obtain ⟨g, hscope, hc'⟩ := hst.closure hc
    obtain ⟨hyg, -⟩ := hst.contained.closures hc
    simp only [Store.paramCount, hc] at hlen
    rw [m.recursive.apply_of_loopName?_eq_none _ hc' (m.recursive_loopName? _ _ _)]
    cases hloop : m.loopName? s id closure with
    | none =>
      rw [m.apply_of_loopName?_eq_none _ hc hloop]
      have hlinks : Bond.plain.Links m closure.scope g ρ s t := hscope
      have hb (x : String) (v : Value)
          (hv : (Bindings.ofLists closure.params args).find? x = some v) :
          Bond.plain.mode ≠ .loop x ∧ reserved x = false ∧ v.isOrdinary = true := by
        obtain ⟨hx, hv⟩ := Bindings.mem_of_find?_ofLists hv
        exact ⟨Bond.plain_mode_ne x, hyg.params x hx, hargs v hv⟩
      obtain ⟨ρ', hgrows, hst', hlinks', -⟩ := hlinks.pushFrame hst hb
      have hbody := evalWith_lockstep hm (hcalls depth' hfits.1) closure.body .plain
        (entry closure args s).1 (t.pushFrame (some g) (.ofLists closure.params args)).1 hyg.body
        trivial
      have hsame : Lockstep side _ _ _ SameValue := hbody.weaken fun _ _ _ _ _ h => ⟨trivial, h.2⟩
      exact (hsame ρ' _ _ hst' hlinks').grows hgrows
    | some name =>
      obtain ⟨-, ⟨naming, hnaming, rfl, hloops⟩, hitself⟩ := loopName?_eq_some hloop
      have hname := hyg.name naming hnaming
      have hover := hyg.loops naming hnaming hloops
      simp only [loopsOver, Bool.and_eq_true, Bool.not_eq_true', beq_iff_eq] at hover
      obtain ⟨hst', hruns⟩ := entry_runs hst hscope hc' hname hitself args
      rw [m.apply_of_loopName?_eq_some _ hc hloop]
      have hsound : (loopStart naming.name id closure g args s).Sound := by
        refine ⟨?_, hyg.params, ?_, eq_pair_of_inTail hover.2⟩
        · simpa using hover.1
        · exact tailUse_of_inTail hname closure.body hyg.body (by simp [hover.2])
      have hholds : (loopStart naming.name id closure g args s).Holds args :=
        ⟨Bindings.find?_insert_self _ _ _, fun x hx => Bindings.find?_insert_of_ne _ _ (Ne.symm hx)⟩
      have hparams : closure.params = (loopStart naming.name id closure g args s).closure.params :=
        rfl
      exact runLoop_lockstep hm hcalls hsound hparams rfl hfits hst' hruns hholds hlen hargs

/-- Calls with loops and calls without run in lockstep at every two depths that fit. -/
theorem callAt_callsMatch {side : Side} {m : Machine} (hm : m.Standard) (depth : Nat) :
    ∀ depth', side.Fits m.rounds depth depth' →
      CallsMatch side (m.callAt depth) (m.recursive.callAt depth') := by
  induction depth with
  | zero =>
    intro depth' hfits
    refine ⟨m.callAt_discreet 0, m.recursive.callAt_discreet depth', fun _ _ => rfl, ?_, nofun⟩
    rintro rfl -
    obtain rfl : depth' = 0 := Nat.le_zero.mp hfits.1
    rfl
  | succ depth ih =>
    intro depth' hfits
    have hdiscreet := m.callAt_discreet (depth + 1)
    cases depth' with
    | zero =>
      refine ⟨hdiscreet, m.recursive.callAt_discreet 0, ?_, nofun, nofun⟩
      rintro rfl -
      exact absurd hfits (by simp [Side.Fits])
    | succ depth' =>
      refine ⟨hdiscreet, m.recursive.callAt_discreet (depth' + 1), nofun, nofun, ?_⟩
      rintro _ _ ⟨⟩ ⟨⟩ id args hargs
      exact apply_lockstep hm ih hfits.step id hargs

end Machine

end Lisplet
