import Lisplet.Proofs.Frames.Evaluation

/-! What evaluation leaves as it was, whether it ends in a value or in an error: the frames around
every frame, and the bindings of frames not its own. -/
namespace Lisplet

namespace Machine

open Action

theorem evalForm_retains (m : Machine) {call : Option Call}
    (hcall : ∀ apply ∈ call, apply.Discreet) {writable : FrameId → Prop} {s₀ : Store}
    {scope : FrameId} (hscope : Store.Retains.Open writable s₀ scope) (form : SpecialForm)
    (operands : Value) :
    Holds (Store.Retains writable s₀) (m.evalForm call scope form operands) := by
  cases form with
  | lambda => exact evalLambda_retains scope operands
  | define => exact m.evalDefine_retains hcall hscope operands
  | letIn => exact m.evalLetIn_retains hcall hscope operands
  | letRec => exact m.evalLetRec_retains hcall scope operands
  | ifElse => exact m.evalIfElse_retains hcall hscope operands
  | cond => exact m.evalCond_retains hcall hscope operands

theorem program_retains (m : Machine) {call : Option Call} (hcall : ∀ apply ∈ call, apply.Discreet)
    {writable : FrameId → Prop} {s₀ : Store} {scope : FrameId}
    (hscope : Store.Retains.Open writable s₀ scope) (es : List Value) (v : Value) :
    Holds (Store.Retains writable s₀) (es.foldlM (fun _ e => m.evalWith call scope e) v) := by
  induction es generalizing v with
  | nil => exact Keeps.pure trivial
  | cons e es ih =>
    rw [List.foldlM_cons]
    exact Keeps.bind (m.evalWith_retains hcall hscope e) fun _ _ v _ => ih v

/-- Every task binds names only in the frame it runs in and in new frames. -/
theorem task_frames (m : Machine) (depth : Nat) (scope : FrameId) (task : Task) (s : Store) :
    Store.Retains (· = scope) s (task.action m depth scope s).2 := by
  have hcall := m.callAt_discreet depth
  have hopen : Store.Retains.Open (· = scope) s scope := .inl rfl
  have hkeeps : Holds (Store.Retains (· = scope) s) (task.action m depth scope) := by
    cases task with
    | expression e => exact m.evalWith_retains hcall hopen e
    | elements e => exact m.evalElements_retains hcall hopen e
    | special form operands => exact m.evalForm_retains hcall hopen form operands
    | program es => exact m.program_retains hcall hopen es .nil
  obtain ⟨-, -, h, -⟩ := hkeeps s (.refl _ s)
  exact h

/-- A loop that starts in the store `s` comes to ask in the store `t` for another round with the
arguments `args`, and they are as many as it takes. -/
inductive Overwrites (m : Machine) (call : Option Call) (closure : Closure) (frame : FrameId) :
    Store → Store → List Value → Prop
  | now {s t : Store} {args : Value}
    (hbody : m.evalWith call frame closure.body s = (.ok (.tailCall args), t))
    (hlen : args.heads.length = closure.params.length) :
    Overwrites m call closure frame s t args.heads
  | later {s s' s'' t : Store} {args : Value} {last : List Value}
    (hbody : m.evalWith call frame closure.body s = (.ok (.tailCall args), s'))
    (hlen : args.heads.length = closure.params.length)
    (hrebind : rebind frame closure.params args.heads s' = (.ok (), s''))
    (hrest : Overwrites m call closure frame s'' t last) :
    Overwrites m call closure frame s t last

theorem Overwrites.binds {m : Machine} {call : Option Call}
    (hcall : ∀ apply ∈ call, apply.Discreet) {closure : Closure} {frame : FrameId} {s t : Store}
    {args : List Value} (h : Overwrites m call closure frame s t args)
    (hlt : frame.index < s.frames.size) (hparams : ∀ p ∈ closure.params, s.Binds frame p) :
    ∀ p ∈ closure.params, t.Binds frame p := by
  induction h with
  | now hbody hlen =>
    have hkept := evalWith_frames_of_eq hcall hbody
    exact fun p hp => hkept.binds frame p hlt (hparams p hp)
  | later hbody hlen hrebind hrest ih =>
    have hkept := evalWith_frames_of_eq hcall hbody
    have hparams' := fun p hp => hkept.binds frame p hlt (hparams p hp)
    rw [rebind_apply hparams'] at hrebind
    cases hrebind
    refine ih ?_ fun p hp => (hparams' p hp).bindAll frame _
    rw [Store.size_frames_bindAll]
    exact Nat.lt_of_lt_of_le hlt hkept.size_le

/-- Evaluation changes only the frame it runs in, where it takes back no binding, and frames of its
own. Applying a closure to as many arguments as it takes changes no frame that there was: a loop
that looks for its parameters from the inside out finds them all in its own frame. -/
theorem evaluation_writes (m : Machine) (depth : Nat) (s : Store) :
    (∀ scope e, let t := (m.evalAt depth scope e s).2
      (∀ f, f.index < s.frames.size → f ≠ scope → t.bindings f = s.bindings f) ∧
        ∀ name, s.Binds scope name → t.Binds scope name) ∧
    (∀ id args, args.length = s.paramCount id →
      let t := (m.apply (m.callAt depth) id args s).2
      ∀ f, f.index < s.frames.size → t.bindings f = s.bindings f) ∧
    ∀ id closure name args, s.closures[id.index]? = some closure →
      m.loopName? s id closure = some name → args.length = closure.params.length →
      let frame := (entry closure args s).1
      let start := (entry closure args s).2.bind frame name (.function "recur" .any .recur)
      ∀ t next, Overwrites m (m.callAt depth) closure frame start t next →
        (∀ p ∈ closure.params, t.frameOf? p (t.chain frame) = some frame) ∧
          rebind frame closure.params next t =
            (.ok (), t.bindAll frame (closure.params.zip next)) := by
  have hcall := m.callAt_discreet depth
  refine ⟨fun scope e => ?_, fun id args hlen f hf => ?_, ?_⟩
  · have h := m.evalWith_frames hcall scope e s
    refine ⟨fun f hf hne => h.bindings f hf hne, fun name hb => h.binds scope name ?_ hb⟩
    exact hb.lt
  · exact (m.apply_discreet hcall id args s hlen).bindings f hf not_false
  · intro id closure name args hc hloop hlen frame start t next hover
    have hstart : ∀ p ∈ closure.params, start.Binds frame p := fun p hp =>
      (entry_binds hlen hp).bind _ _ _
    have hbinds := hover.binds hcall (by simp [frame, start]) hstart
    exact ⟨fun p hp => Store.frameOf?_chain_of_binds (hbinds p hp), rebind_apply hbinds next⟩

/-- Whether a loop that starts in a store asks for a round after `n` others. -/
def asksAgain (m : Machine) (call : Option Call) (closure : Closure) (frame : FrameId) :
    Nat → Store → Bool
  | 0, s =>
    match m.evalWith call frame closure.body s with
    | (.ok (.tailCall args), _) => args.heads.length = closure.params.length
    | _ => false
  | n + 1, s =>
    match m.evalWith call frame closure.body s with
    | (.ok (.tailCall args), s') => args.heads.length = closure.params.length &&
      match rebind frame closure.params args.heads s' with
      | (.ok (), s'') => asksAgain m call closure frame n s''
      | _ => false
    | _ => false

theorem exists_overwrites {m : Machine} {call : Option Call} {closure : Closure} {frame : FrameId}
    {n : Nat} {s : Store} (h : m.asksAgain call closure frame n s = true) :
    ∃ t next, Overwrites m call closure frame s t next := by
  induction n generalizing s with
  | zero =>
    rw [asksAgain] at h
    split at h
    · rename_i args t hbody
      exact ⟨t, args.heads, .now hbody (of_decide_eq_true h)⟩
    · cases h
  | succ n ih =>
    rw [asksAgain] at h
    split at h
    · rename_i args s' hbody
      rw [Bool.and_eq_true] at h
      obtain ⟨hlen, h⟩ := h
      split at h
      · rename_i s'' hrebind
        obtain ⟨t, next, hrest⟩ := ih h
        exact ⟨t, next, .later hbody (of_decide_eq_true hlen) hrebind hrest⟩
      · cases h
    · cases h

/-- A countdown from 2 that is about to start its last round. -/
theorem evaluation_writes_countdown :
    let i := ((Interpreter.standard []).evalSource "(define (f n) (if (= n 0) n (f (- n 1))))").2
    let frame (closure : Closure) := (entry closure [.integer 2] i.store).1
    ∃ closure t next, i.store.closures[0]? = some closure ∧
      i.machine.loopName? i.store ⟨0⟩ closure = some "f" ∧
      Overwrites i.machine (i.machine.callAt 9999) closure (frame closure)
        ((entry closure [.integer 2] i.store).2.bind (frame closure) "f"
          (.function "recur" .any .recur)) t next ∧
      (∀ p ∈ closure.params, t.frameOf? p (t.chain (frame closure)) = some (frame closure)) ∧
      rebind (frame closure) closure.params next t =
        (.ok (), t.bindAll (frame closure) (closure.params.zip next)) := by
  intro i frame
  have hcheck : i.store.closures[0]?.any (fun closure =>
      i.machine.loopName? i.store ⟨0⟩ closure = some "f" && closure.params.length = 1 &&
      i.machine.asksAgain (i.machine.callAt 9999) closure (frame closure) 1
        ((entry closure [.integer 2] i.store).2.bind (frame closure) "f"
          (.function "recur" .any .recur))) = true := by
    decide +kernel
  cases hc : i.store.closures[0]? with
  | none => simp [hc] at hcheck
  | some closure =>
    simp only [hc, Option.any_some, Bool.and_eq_true, decide_eq_true_eq] at hcheck
    obtain ⟨⟨hloop, hparams⟩, hasks⟩ := hcheck
    obtain ⟨t, next, hover⟩ := exists_overwrites hasks
    have hwrites := (evaluation_writes i.machine 9999 i.store).2.2 ⟨0⟩ closure "f" [.integer 2] hc
      hloop hparams.symm t next hover
    exact ⟨closure, t, next, rfl, hloop, hover, hwrites⟩

end Machine

end Lisplet
