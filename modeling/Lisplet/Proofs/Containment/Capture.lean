import Lisplet.Proofs.Containment.Programs
import Lisplet.Proofs.Frames.Scope
import Lisplet.Value.Identity

/-! The applications that come up while a program runs, and what a loop among them does to closures:
none of them has the frame of the loop around it, so that none sees its parameters change. -/
namespace Lisplet

/-- A store is contained in no modes if one of its vectors holds a special form. -/
theorem Contained.exists_not : ∃ t, ∀ κ, ¬ Contained κ t := by
  refine ⟨(Store.empty.pushVector #[.special .lambda]).2, fun κ h => ?_⟩
  have hitem := h.items ⟨0⟩ (.special .lambda)
    (by simp [Store.items, Store.pushVector, Store.empty])
  cases hitem

namespace Call

open Classical in
/-- Applies closures as `apply` does, but stops in the store `t` where it is to apply `id` to `args`
in the store `s`. -/
noncomputable def stoppingAt (apply : Call) (id : ClosureId) (args : List Value) (s t : Store) :
    Call := fun id' args' s' =>
  if id' = id ∧ args' = args ∧ s' = s then (.error .unfinished, t) else apply id' args' s'

/-- A run comes to apply `id` to `args` in the store `s`: if it is stopped there, in whatever store,
then this is how it ends. -/
def ComesUp (apply : Call) (run : Call → Except Stop Value × Store) (id : ClosureId)
    (args : List Value) (s : Store) : Prop :=
  ∀ t, run (apply.stoppingAt id args s t) = (.error .unfinished, t)

variable {apply : Call} {id : ClosureId} {args : List Value} {s t : Store}

theorem stoppingAt_self : apply.stoppingAt id args s t id args s = (.error .unfinished, t) := by
  simp [stoppingAt]

theorem stoppingAt_cases (apply : Call) (id : ClosureId) (args : List Value) (s t : Store)
    (id' : ClosureId) (args' : List Value) (s' : Store) :
    (id' = id ∧ args' = args ∧ s' = s ∧
      apply.stoppingAt id args s t id' args' s' = (.error .unfinished, t)) ∨
    apply.stoppingAt id args s t id' args' s' = apply id' args' s' := by
  by_cases h : id' = id ∧ args' = args ∧ s' = s
  · exact .inl ⟨h.1, h.2.1, h.2.2, if_pos h⟩
  · exact .inr (if_neg h)

theorem stoppingAt_contains (happly : apply.Contains)
    (ht : ∀ κ, (∀ v ∈ args, v.isOrdinary = true) → Contained κ s → Contained κ t) :
    (apply.stoppingAt id args s t).Contains := by
  intro κ id' args' hargs s' hs'
  rcases stoppingAt_cases apply id args s t id' args' s' with ⟨rfl, rfl, rfl, hstop⟩ | hstop
  · rw [hstop]
    exact ⟨κ, le_rfl, ht κ hargs hs', nofun⟩
  · rw [hstop]
    exact happly κ id' args' hargs s' hs'

theorem stoppingAt_discreet (happly : apply.Discreet) (hargs : args.length ≠ s.paramCount id) :
    (apply.stoppingAt id args s t).Discreet := by
  intro id' args' s' hlen
  rcases stoppingAt_cases apply id args s t id' args' s' with ⟨rfl, rfl, rfl, -⟩ | hstop
  · exact absurd hlen hargs
  · rw [hstop]
    exact happly id' args' s' hlen

namespace ComesUp

variable {run : Call → Except Stop Value × Store}

/-- In a run that keeps loops contained, closures are applied to ordinary values in contained
stores. -/
theorem contained (h : apply.ComesUp run id args s) (happly : apply.Contains) {κ : Modes}
    (hrun : ∀ apply' : Call, apply'.Contains → ∃ κ' ≥ κ, Contained κ' (run apply').2) :
    (∃ κ' ≥ κ, Contained κ' s) ∧ ∀ v ∈ args, v.isOrdinary = true := by
  constructor
  · have hstop := hrun (apply.stoppingAt id args s s) (stoppingAt_contains happly fun _ _ hs => hs)
    rwa [h s] at hstop
  · by_contra hargs
    obtain ⟨t, ht⟩ := Contained.exists_not
    obtain ⟨κ', -, hκ'⟩ := hrun (apply.stoppingAt id args s t)
      (stoppingAt_contains happly fun _ hall _ => absurd hall hargs)
    rw [h t] at hκ'
    exact ht κ' hκ'

/-- In a run that leaves frames alone, closures are applied to as many arguments as they take. -/
theorem count (h : apply.ComesUp run id args s) (happly : apply.Discreet) {s₀ : Store}
    {writable : FrameId → Prop} (hpos : 0 < s₀.frames.size)
    (hrun : ∀ apply' : Call, apply'.Discreet → Store.Retains writable s₀ (run apply').2) :
    args.length = s.paramCount id := by
  by_contra hargs
  have hsize := (hrun _ (stoppingAt_discreet (t := Store.empty) happly hargs)).size_le
  rw [h Store.empty] at hsize
  exact absurd hsize (Nat.not_le_of_gt hpos)

end ComesUp

/-- A call of a closure applies it, once operator and operands have been evaluated. -/
theorem comesUp_of_pair (m : Machine) (apply : Call) {scope : FrameId} {operator operands : Value}
    (hoperator : ∀ call, m.evalWith (some call) scope operator s = (.ok (.closure id), s))
    (hoperands : ∀ call, m.evalArgs (some call) scope operands s = (.ok args, s))
    (hlen : args.length = s.paramCount id) :
    apply.ComesUp (fun call => m.evalWith (some call) scope (.pair operator operands) s) id args
      s := by
  intro t
  have hcount := Action.checkCount_apply id args.length (.pair operator operands) s
  rw [if_pos hlen] at hcount
  dsimp only
  rw [m.evalWith_pair rfl]
  unfold Action.within
  rw [Action.bind_ok (hoperator _), Machine.dispatch, Action.bind_ok (hoperands _),
    Action.bind_ok hcount, stoppingAt_self]

end Call

namespace Interpreter

abbrev programWith (i : Interpreter) (program : List Value) (call : Call) :
    Except Stop Value × Store :=
  (program.foldlM (fun _ e => i.machine.evalWith (some call) i.scope e) .nil : Action Value) i.store

/-- The applications of closures that come up while a program runs, each with the number of calls
that may be in progress inside of it. -/
inductive Applies (i : Interpreter) (program : List Value) :
    Nat → ClosureId → List Value → Store → Prop
  | outermost {depth : Nat} {id : ClosureId} {args : List Value} {s : Store}
    (hdepth : maxCallDepth = depth + 1)
    (h : Call.ComesUp (i.machine.apply (i.machine.callAt depth)) (i.programWith program) id args
      s) :
    Applies i program depth id args s
  | inside {depth : Nat} {id id' : ClosureId} {args args' : List Value} {s s' : Store}
    (houter : Applies i program (depth + 1) id args s)
    (h : Call.ComesUp (i.machine.apply (i.machine.callAt depth))
      (fun call => i.machine.apply (some call) id args s) id' args' s') :
    Applies i program depth id' args' s'

/-- Closures are applied in contained stores, to as many ordinary values as they take. -/
theorem Applies.contained {i : Interpreter} (hi : i.Clear) {program : List Value}
    (hprogram : ∀ e ∈ program, hygienic reserved e = true) {depth : Nat} {id : ClosureId}
    {args : List Value} {s : Store} (h : i.Applies program depth id args s) :
    (∃ κ : Modes, κ i.scope .plain ∧ Contained κ s) ∧ (∀ v ∈ args, v.isOrdinary = true) ∧
      args.length = s.paramCount id := by
  obtain ⟨hm, κ₀, hscope₀, hs₀⟩ := hi
  -- The calls inside of an application are as contained and as discreet as the application itself.
  have hcontains (d : Nat) : Call.Contains (i.machine.apply (i.machine.callAt d)) :=
    Machine.apply_contains hm (Machine.callAt_contains hm d)
  have hdiscreet (d : Nat) : Call.Discreet (i.machine.apply (i.machine.callAt d)) :=
    i.machine.apply_discreet (i.machine.callAt_discreet d)
  induction h with
  | outermost hdepth h =>
    have hcontained := h.contained (κ := κ₀) (hcontains _) fun apply' happly' => by
      have hcall : ∀ apply ∈ some apply', apply.Contains := fun _ ha => Option.some.inj ha ▸ happly'
      obtain ⟨κ, hκ, hs, -⟩ := Machine.program_contained hm hcall hscope₀ hprogram
        (v := .nil) rfl i.store hs₀
      exact ⟨κ, hκ, hs⟩
    have hscoped := Nat.zero_lt_of_lt (hs₀.lt hscope₀)
    have hcount := h.count (hdiscreet _) hscoped fun apply' happly' => by
      have hcall : ∀ apply ∈ some apply', apply.Discreet := fun _ ha => Option.some.inj ha ▸ happly'
      have hopen : Store.Retains.Open (· = i.scope) i.store i.scope := .inl rfl
      obtain ⟨-, -, hs, -⟩ := i.machine.program_retains hcall hopen program .nil i.store (.refl _ _)
      exact hs
    obtain ⟨⟨κ, hκ, hs⟩, hargs⟩ := hcontained
    exact ⟨⟨κ, hκ _ _ hscope₀, hs⟩, hargs, hcount⟩
  | inside houter h ih =>
    obtain ⟨⟨κ, hscope, hs⟩, hargs, hlen⟩ := ih
    have hcontained := h.contained (κ := κ) (hcontains _) fun apply' happly' => by
      have hcall : ∀ apply ∈ some apply', apply.Contains := fun _ ha => Option.some.inj ha ▸ happly'
      obtain ⟨κ', hκ', hs', -⟩ := Machine.apply_contains hm hcall κ _ _ hargs _ hs
      exact ⟨κ', hκ', hs'⟩
    have hcount := h.count (hdiscreet _) (Nat.zero_lt_of_lt (hs.lt hscope)) fun apply' happly' => by
      have hcall : ∀ apply ∈ some apply', apply.Discreet := fun _ ha => Option.some.inj ha ▸ happly'
      exact i.machine.apply_discreet hcall _ _ _ hlen
    obtain ⟨⟨κ', hκ', hs'⟩, hargs'⟩ := hcontained
    exact ⟨⟨κ', hκ' _ _ hscope, hs'⟩, hargs', hcount⟩

end Interpreter

/-- No closure has the frame of a loop around it. -/
theorem Contained.not_mem_chain {κ : Modes} {s : Store} (h : Contained κ s) {frame : FrameId}
    {name : String} (hframe : κ frame (.loop name)) {c : Closure} (hc : c ∈ s.closures) :
    frame ∉ s.chain c.scope := by
  intro hmem
  obtain ⟨i, hi⟩ := Array.mem_iff_getElem?.mp hc
  have hplain : κ frame .plain := (h.chain (h.closures hi).2 frame hmem).elim id id
  cases h.mode_eq hplain hframe

namespace Machine

open Action

section

set_option linter.unusedSectionVars false

variable {m : Machine} (hm : m.Standard) {call : Option Call}
  (hcall : ∀ apply ∈ call, apply.Contains) {closure : Closure} {frame : FrameId} {name : String}
  (hname : reserved name = false) (hyg : closure.Hygienic) (hbody : TailUse name closure.body)

include hm hcall hname hyg hbody

theorem body_contained {κ : Modes} (hframe : κ frame (.loop name)) {s t : Store} {args : Value}
    (hs : Contained κ s)
    (h : m.evalWith call frame closure.body s = (.ok (.tailCall args), t)) :
    ∃ κ', κ' frame (.loop name) ∧ Contained κ' t ∧ ∀ v ∈ args.heads, v.isOrdinary = true := by
  obtain hc | ⟨apply, hc⟩ := call.eq_none_or_eq_some
  · rw [m.evalWith_none hc] at h
    cases h
  obtain ⟨κ', hκ', ht, hv⟩ := tail_contained hm hcall hname hframe hbody hc s hs
  rw [h] at ht hv
  refine ⟨κ', hκ' _ _ hframe, ht, Value.isOrdinary_of_mem_heads ?_⟩
  rcases hv _ rfl with hv | ⟨args', hv, hargs⟩
  · cases hv
  · cases hv
    exact hargs

/-- Round after round, a loop keeps its frame to itself. -/
theorem Overwrites.contained {κ : Modes} (hframe : κ frame (.loop name)) {s t : Store}
    {next : List Value} (hs : Contained κ s) (h : Overwrites m call closure frame s t next) :
    ∃ κ', κ' frame (.loop name) ∧ Contained κ' t := by
  induction h generalizing κ with
  | now hround hlen =>
    obtain ⟨κ', hframe', ht, -⟩ := body_contained hm hcall hname hyg hbody hframe hs hround
    exact ⟨κ', hframe', ht⟩
  | later hround hlen hrebind hrest ih =>
    obtain ⟨κ', hframe', hs', hargs⟩ := body_contained hm hcall hname hyg hbody hframe hs hround
    have hkeeps : Keeps Contained κ' (rebind frame closure.params _) fun _ _ => True :=
      rebind_contained hyg.params hargs
    obtain ⟨κ'', hκ'', hs'', -⟩ := hkeeps _ hs'
    rw [hrebind] at hs''
    exact ih (hκ'' _ _ hframe') hs''

end

/-- What is seen from a scope does not change when names are bound in a frame that is not around
it. -/
theorem find?_bindAll {m : Machine} {κ : Modes} {s : Store} (hs : Contained κ s) {scope : FrameId}
    {μ : Mode} (hscope : κ scope μ) {frame : FrameId} (hframe : frame ∉ s.chain scope)
    (entries : List (String × Value)) (x : String) :
    m.find? (s.bindAll frame entries) scope x = m.find? s scope x := by
  have hkept : Store.Retains (· = frame) s (s.bindAll frame entries) :=
    (Store.Retains.refl (· = frame) s).bindAll (.inl rfl) entries
  have hlt : ∀ f ∈ s.chain scope, f.index < s.frames.size ∧ ¬ f = frame := by
    intro f hf
    refine ⟨(hs.chain hscope f hf).elim hs.lt hs.lt, ?_⟩
    rintro rfl
    exact hframe hf
  rw [find?, find?, hkept.chain scope (hs.lt hscope), hkept.find?_eq hlt]

end Machine

namespace Interpreter

open Machine in
/-- Whenever a program applies a closure as a loop, no closure has the frame of the loop around it,
neither at the end nor between two rounds; and when the loop overwrites its parameters, every
closure goes on seeing what it saw. -/
def LoopsApart (i : Interpreter) (program : List Value) : Prop :=
  ∀ depth id args s, i.Applies program depth id args s →
    ∀ closure name, s.closures[id.index]? = some closure →
      i.machine.loopName? s id closure = some name →
      let frame := (entry closure args s).1
      let final := (i.machine.apply (i.machine.callAt depth) id args s).2
      (∀ c ∈ final.closures, frame ∉ final.chain c.scope) ∧
        ∀ t next, Overwrites i.machine (i.machine.callAt depth) closure frame
            (loopEntry closure args name s) t next →
          ∀ c ∈ t.closures, frame ∉ t.chain c.scope ∧
            ∀ x, i.machine.find? (rebind frame closure.params next t).2 c.scope x =
              i.machine.find? t c.scope x

open Machine in
/-- Hygienic programs, after whatever hygienic programs, never let a closure capture the frame of a
loop. -/
theorem loop_frame_not_captured (input : List UInt8) (sources : List String)
    (hsources : ∀ text ∈ sources, hygienicSource reserved text = true) (program : List Value)
    (hprogram : ∀ e ∈ program, hygienic reserved e = true) :
    ((standard input).after sources).LoopsApart program := by
  intro depth id args s happlies closure name hc hloop frame final
  have hi := after_clear (standard_clear input) hsources
  have hm := hi.1
  have hcontains := callAt_contains hm depth
  obtain ⟨⟨κ, -, hs⟩, hargs, hlen⟩ := happlies.contained hi hprogram
  obtain ⟨hentry, hname, hyg, hbody⟩ := loopEntry_contained hs hc hloop hargs
  have hframe := κ.add_self frame (.loop name)
  constructor
  · have hrun := runLoop_contained hm hcontains hname hframe hyg.params hbody
      ((standard input).after sources).machine.rounds _ hentry
    rw [← apply_of_loopName?_eq_some _ _ hc hloop] at hrun
    obtain ⟨κ', hκ', hfinal, -⟩ := hrun
    exact fun c hc => hfinal.not_mem_chain (hκ' _ _ hframe) hc
  · intro t next hover c hct
    obtain ⟨κ', hframe', ht⟩ := hover.contained hm hcontains hname hyg hbody hframe hentry
    have hnot := ht.not_mem_chain hframe' hct
    refine ⟨hnot, fun x => ?_⟩
    -- The parameters are found in the frame of the loop, so that nothing else is overwritten.
    have hcount : args.length = closure.params.length := by
      simpa only [Store.paramCount, hc] using hlen
    have hstart : ∀ p ∈ closure.params, (loopEntry closure args name s).Binds frame p :=
      fun p hp => (entry_binds hcount hp).bind _ _ _
    have hbinds := hover.binds (callAt_discreet _ depth) (by simp [frame]) hstart
    rw [rebind_apply hbinds]
    obtain ⟨j, hj⟩ := Array.mem_iff_getElem?.mp hct
    exact find?_bindAll ht (ht.closures hj).2 hnot _ x

/-- A call of a loop at the top of a program. -/
theorem applies_of_loop {i : Interpreter} {id : ClosureId} {closure : Closure} {name : String}
    (hc : i.store.closures[id.index]? = some closure)
    (hloop : i.machine.loopName? i.store id closure = some name) (hscope : closure.scope = i.scope)
    {operands : Value} {args : List Value}
    (hoperands : ∀ call, i.machine.evalArgs (some call) i.scope operands i.store =
      (.ok args, i.store)) (hlen : args.length = closure.params.length) :
    i.Applies [.pair (.symbol name) operands] 9999 id args i.store := by
  have hfind := (Machine.loopName?_eq_some hloop).2.2
  rw [hscope] at hfind
  refine .outermost rfl fun t => ?_
  have hoperator (call : Call) : i.machine.evalWith (some call) i.scope (.symbol name) i.store =
      (.ok (.closure id), i.store) := by
    rw [i.machine.evalWith_atom rfl i.scope (by simp)]
    exact (i.machine.lookup_apply i.scope name i.store).trans (by rw [hfind])
  have hcount : args.length = i.store.paramCount id := by rw [hlen, Store.paramCount, hc]
  have hcall := Call.comesUp_of_pair i.machine (i.machine.apply (i.machine.callAt 9999)) hoperator
    hoperands hcount t
  exact Action.bind_error hcall

/-- Whether a closure of two parameters is a loop of the name `f` in the outermost frame and asks
for another round when it is applied to `args`. -/
def goesRound (i : Interpreter) (id : ClosureId) (args : List Value) (closure : Closure) : Bool :=
  i.machine.loopName? i.store id closure = some "f" && closure.scope = i.scope &&
    closure.params.length = 2 &&
    i.machine.asksAgain (i.machine.callAt 9999) closure (Machine.entry closure args i.store).1 0
      (Machine.loopEntry closure args "f" i.store)

open Machine in
/-- The check finds a loop that comes up, and a round after which it overwrites its parameters. -/
theorem exists_of_goesRound {i : Interpreter} (id : ClosureId) {a b : Int64}
    (h : i.store.closures[id.index]?.any (i.goesRound id [.integer a, .integer b]) = true) :
    ∃ closure, i.store.closures[id.index]? = some closure ∧
      i.machine.loopName? i.store id closure = some "f" ∧
      i.Applies [.ofList [.symbol "f", .integer a, .integer b]] 9999 id [.integer a, .integer b]
        i.store ∧
      ∃ t next, Overwrites i.machine (i.machine.callAt 9999) closure
        (entry closure [.integer a, .integer b] i.store).1
        (loopEntry closure [.integer a, .integer b] "f" i.store) t next := by
  cases hc : i.store.closures[id.index]? with
  | none => simp [hc] at h
  | some closure =>
    simp only [hc, Option.any_some, goesRound, Bool.and_eq_true, decide_eq_true_eq] at h
    obtain ⟨⟨⟨hloop, hscope⟩, hparams⟩, hround⟩ := h
    exact ⟨closure, rfl, hloop, applies_of_loop hc hloop hscope (fun _ => rfl) hparams.symm,
      exists_overwrites hround⟩

theorem loop_frame_not_captured_countdown :
    let i := (standard []).after
      ["(define (k n) (lambda () n)) (define (f n g) (if (= n 0) (g) (f (- n 1) (k n))))"]
    let program := [Value.ofList [.symbol "f", .integer 2, .integer 0]]
    i.LoopsApart program ∧ ∃ closure, i.store.closures[1]? = some closure ∧
      i.machine.loopName? i.store ⟨1⟩ closure = some "f" ∧
      i.Applies program 9999 ⟨1⟩ [.integer 2, .integer 0] i.store ∧
      ∃ t next, Machine.Overwrites i.machine (i.machine.callAt 9999) closure
        (Machine.entry closure [.integer 2, .integer 0] i.store).1
        (Machine.loopEntry closure [.integer 2, .integer 0] "f" i.store) t next := by
  refine ⟨loop_frame_not_captured [] _ (by decide +kernel) _ (by decide +kernel), ?_⟩
  exact exists_of_goesRound ⟨1⟩ (by decide +kernel)

/-- Whether a closure that has the frame of the loop around it is left when a loop is applied. -/
def captures (i : Interpreter) (id : ClosureId) (args : List Value) (closure : Closure) : Bool :=
  let final := (i.machine.apply (i.machine.callAt 9999) id args i.store).2
  final.closures.any fun c => (Machine.entry closure args i.store).1 ∈ final.chain c.scope

/-- Under another name, `lambda` makes a closure that has the frame of a loop around it. -/
theorem loop_frame_captured :
    let i := (standard []).after
      ["(define fn lambda) (define (f n g) (if (= n 0) (g) (f (- n 1) (fn () n))))"]
    ¬ i.LoopsApart [.ofList [.symbol "f", .integer 1, .integer 0]] := by
  intro i hapart
  obtain ⟨closure, hc, hloop, happlies, -⟩ :=
    exists_of_goesRound (i := i) (a := 1) (b := 0) ⟨0⟩ (by decide +kernel)
  have hcaptures : i.store.closures[0]?.any (i.captures ⟨0⟩ [.integer 1, .integer 0]) = true := by
    decide +kernel
  rw [hc, Option.any_some] at hcaptures
  obtain ⟨j, hj, hmem⟩ := Array.any_eq_true.mp hcaptures
  have hnot := (hapart _ _ _ _ happlies closure "f" hc hloop).1
  exact hnot _ (Array.getElem_mem hj) (of_decide_eq_true hmem)

end Interpreter

end Lisplet
