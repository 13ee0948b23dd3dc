import Lisplet.Proofs.Frames.Evaluation
import Lisplet.Proofs.Renaming.Parallel

/-! Evaluation in a store with one more closure that nothing refers to. It takes the same course,
and the closures made after that one have identities one further on. -/
namespace Lisplet

/-- The identities that closures have when one more is put in at the place `k`. -/
def ClosureId.skip (k : Nat) (id : ClosureId) : ClosureId :=
  if id.index < k then id else ⟨id.index + 1⟩

namespace ClosureId

theorem skip_injective (k : Nat) : Function.Injective (skip k) := by
  intro ⟨a⟩ ⟨b⟩ h
  simp only [skip] at h
  split at h <;> split at h <;> simp only [ClosureId.mk.injEq] at h ⊢ <;> omega

theorem index_skip_inj {k : Nat} {id id' : ClosureId} :
    (id.skip k).index = (id'.skip k).index ↔ id.index = id'.index := by
  constructor
  · intro h
    exact congrArg index (skip_injective k (congrArg ClosureId.mk h))
  · intro h
    exact congrArg (fun i => (skip k ⟨i⟩).index) h

theorem index_skip_ne (k : Nat) (id : ClosureId) : (id.skip k).index ≠ k := by
  unfold skip
  split
  · omega
  · change id.index + 1 ≠ k
    omega

theorem skip_of_le {k index : Nat} (h : k ≤ index) : skip k ⟨index⟩ = ⟨index + 1⟩ :=
  if_neg (Nat.not_lt.mpr h)

end ClosureId

/-- The second store is the first with the closure `spare` put in at the place `k`, and no code in
the first refers to closures from there on. -/
structure Store.Inserted (k : Nat) (spare : Closure) (s t : Store) : Prop where
  frames : t.frames = s.frames.map (Frame.rename (.skip k))
  closures : ∀ id : ClosureId, t.closures[(id.skip k).index]? = s.closures[id.index]?
  vectors : t.vectors = s.vectors.map (Array.map (Value.rename (.skip k)))
  input : t.input = s.input
  output : t.output = s.output
  le : k ≤ s.closures.size
  size : t.closures.size = s.closures.size + 1
  spare : t.closures[k]? = some spare
  code : ∀ c ∈ s.closures, c.body.rename (.skip k) = c.body

namespace Store.Inserted

variable {k : Nat} {spare : Closure} {s t : Store} (h : s.Inserted k spare t)

include h

theorem renamed : s.Renamed (.skip k) t where
  frames := h.frames
  closures id := by
    rw [h.closures]
    cases hc : s.closures[id.index]? with
    | none => rfl
    | some c =>
      have hcode := h.code c (Array.mem_of_getElem? hc)
      simp [Closure.rename, hcode]
  vectors := h.vectors
  input := h.input
  output := h.output

/-- Code that keeps its closures has the same text. -/
theorem text {e : Value} (he : e.rename (.skip k) = e) : t.text e = s.text e := by
  rw [← h.renamed.text, he]

/-- What leaves closures alone need only change the rest alike. -/
theorem of_closures_eq {s' t' : Store} (h' : s'.Renamed (.skip k) t')
    (hs : s'.closures = s.closures) (ht : t'.closures = t.closures) :
    s'.Inserted k spare t' where
  frames := h'.frames
  closures := by
    rw [hs, ht]
    exact h.closures
  vectors := h'.vectors
  input := h'.input
  output := h'.output
  le := hs ▸ h.le
  size := by rw [hs, ht, h.size]
  spare := ht ▸ h.spare
  code := hs ▸ h.code

theorem pushFrame (f : FrameId) (b : Bindings) :
    (t.pushFrame (some f) (b.rename (.skip k))).1 = (s.pushFrame (some f) b).1 ∧
      (s.pushFrame (some f) b).2.Inserted k spare
        (t.pushFrame (some f) (b.rename (.skip k))).2 := by
  refine ⟨?_, h.of_closures_eq ⟨?_, h.renamed.closures, h.vectors, h.input, h.output⟩ rfl rfl⟩
  · simp [Store.pushFrame, h.frames]
  · simp [Store.pushFrame, h.frames, h.renamed.chain, Frame.rename]

theorem bind (f : FrameId) (name : String) (value : Value) :
    (s.bind f name value).Inserted k spare (t.bind f name (value.rename (.skip k))) := by
  refine h.of_closures_eq ⟨?_, h.renamed.closures, h.vectors, h.input, h.output⟩ rfl rfl
  refine Array.ext_getElem? fun i => ?_
  simp only [Store.bind, h.frames, Array.getElem?_map, Array.getElem?_modify]
  split
  · cases s.frames[i]? <;> simp [Frame.rename, Bindings.insert_rename]
  · rfl

theorem pushClosure {c : Closure} (hc : c.body.rename (.skip k) = c.body) :
    (t.pushClosure c).1 = (s.pushClosure c).1.skip k ∧
      (s.pushClosure c).2.Inserted k spare (t.pushClosure c).2 := by
  have hnew : ClosureId.skip k ⟨s.closures.size⟩ = ⟨t.closures.size⟩ := by
    rw [ClosureId.skip_of_le h.le, h.size]
  refine ⟨hnew.symm, h.frames, ?_, h.vectors, h.input, h.output, ?_, ?_, ?_, ?_⟩
  · intro id
    have hlast : (id.skip k).index = t.closures.size ↔ id.index = s.closures.size := by
      have hindex := @ClosureId.index_skip_inj k id ⟨s.closures.size⟩
      rwa [hnew] at hindex
    simp only [Store.pushClosure, Array.getElem?_push, hlast, h.closures]
  · simp only [Store.pushClosure, Array.size_push]
    exact Nat.le_succ_of_le h.le
  · simp only [Store.pushClosure, Array.size_push, h.size]
  · have hlt : k ≠ t.closures.size := by
      have hle := h.le
      have hsize := h.size
      omega
    simp only [Store.pushClosure, Array.getElem?_push, hlt, if_false, h.spare]
  · intro c' hc'
    rcases Array.mem_push.mp hc' with hc' | rfl
    · exact h.code c' hc'
    · exact hc

theorem nameValue (name : String) (value : Value) :
    (s.nameValue name value).Inserted k spare
      (t.nameValue name (value.rename (.skip k))) := by
  have hcode : ∀ c ∈ (s.nameValue name value).closures, c.body.rename (.skip k) = c.body := by
    intro c hc
    obtain ⟨i, hi⟩ := Array.mem_iff_getElem?.mp hc
    obtain ⟨old, hold, rfl | rfl⟩ := getElem?_closures_nameValue hi
    · exact h.code _ (Array.mem_of_getElem? hold)
    · exact h.code old (Array.mem_of_getElem? hold)
  cases value with
  | closure id =>
    refine ⟨h.frames, ?_, h.vectors, h.input, h.output, ?_, ?_, ?_, hcode⟩
    · intro id'
      simp only [Store.nameValue, Value.rename, Store.nameClosure, Array.getElem?_modify,
        ClosureId.index_skip_inj, h.closures]
    · rw [size_closures_nameValue]
      exact h.le
    · rw [size_closures_nameValue, size_closures_nameValue, h.size]
    · have hne := ClosureId.index_skip_ne k id
      simp [Store.nameValue, Value.rename, Store.nameClosure, Array.getElem?_modify, hne, h.spare]
  | _ => exact h

end Store.Inserted

/-- What refers to no closure from the place `k` on may be evaluated. -/
def Realm.before (k : Nat) : Realm where
  expression e := e.rename (.skip k) = e
  value _ := True
  frame _ := True
  closure c := c.body.rename (.skip k) = c.body

theorem Realm.before_closed (k : Nat) : (before k).Closed where
  parts h := Value.pair.inj h
  literal _ _ _ := trivial
  nil := trivial
  pair := by simp [before]
  arguments _ := trivial
  params _ _ _ := rfl
  body h := h
  scope _ := trivial

namespace Machine

open Action

variable {m : Machine} {k : Nat} {spare : Closure}

theorem find?_inserted
    (hglobals : ∀ name v, m.globals.find? name = some v → v.rename (.skip k) = v) {s t : Store}
    (h : s.Inserted k spare t) (scope : FrameId) (name : String) :
    m.find? t scope name = (m.find? s scope name).map (Value.rename (.skip k)) := by
  rw [Machine.find?, Machine.find?, h.renamed.chain, h.renamed.find?]
  cases s.find? name (s.chain scope) with
  | some v => rfl
  | none =>
    cases hglobal : m.globals.find? name with
    | none => simp
    | some v => simp [hglobals name v hglobal]

theorem lookup_parallel
    (hglobals : ∀ name v, m.globals.find? name = some v → v.rename (.skip k) = v)
    (scope : FrameId) (name : String) :
    Parallel (Store.Inserted k spare) ((Realm.before k).Copy (.skip k)) (m.lookup scope name)
      (m.lookup scope name) := by
  refine .get_bind fun s t hst => ?_
  rw [find?_inserted hglobals hst]
  cases m.find? s scope name with
  | none => exact .fail _
  | some v => exact .pure ⟨rfl, trivial⟩

theorem run_parallel (hhosts : ∀ f ∈ m.hosts, f.Natural) (body : Procedure) (args : List Value) :
    Parallel (Store.Inserted k spare) ((Realm.before k).Copy (.skip k)) (m.run body args)
      (m.run body (args.map (Value.rename (.skip k)))) := by
  have hcopy : (fun v w => w = Value.rename (.skip k) v) = (Realm.before k).Copy (.skip k) := by
    funext v w
    simp [Realm.Copy, Realm.before]
  have hinjective := ClosureId.skip_injective k
  rw [← hcopy]
  cases body with
  | primitive p =>
    intro s t hst
    have hlocal := p.run_local
    rcases p.run_parallel hinjective args s t hst.renamed with hdeep | ⟨hend, hst'⟩
    · exact .inl hdeep
    · obtain ⟨-, -, -, hs⟩ := hlocal args s s (.refl s)
      obtain ⟨-, -, -, ht⟩ := hlocal (args.map (Value.rename (.skip k))) t t (.refl t)
      exact .inr ⟨hend, hst.of_closures_eq hst' hs ht⟩
  | recur => exact .pure (congrArg Value.tailCall (Value.rename_ofList _ args)).symm
  | host slot =>
    unfold run
    dsimp only
    cases hf : m.hosts[slot]? with
    | none => exact .pure rfl
    | some f =>
      have hnatural := hhosts f (Array.mem_of_getElem? hf)
      exact hnatural.observe hinjective (fun _ _ => Store.Inserted.renamed) args

theorem makeClosure_parallel (scope : FrameId) {params body : Value}
    (hparams : params.rename (.skip k) = params) (hbody : body.rename (.skip k) = body) :
    Parallel (Store.Inserted k spare) ((Realm.before k).Copy (.skip k))
      (makeClosure scope params body) (makeClosure scope params body) := by
  have hmake (names : List String) :
      Parallel (Store.Inserted k spare) ((Realm.before k).Copy (.skip k))
        (do return .closure (← change fun s => s.pushClosure ⟨names, body, scope, none⟩))
        (do return .closure (← change fun s => s.pushClosure ⟨names, body, scope, none⟩)) := by
    refine .bind (P := fun id id' => id' = id.skip k)
      (.change fun s t hst => hst.pushClosure hbody) fun id id' hid => ?_
    subst hid
    exact .pure ⟨rfl, trivial⟩
  refine .get_bind fun s t hst => ?_
  rw [Form.parameters_congr Value.pair.inj (fun v hv => hst.text hv) hparams]
  cases Form.parameters s params with
  | error e => exact .fail e
  | ok names => exact hmake names

theorem checkCount_parallel (id : ClosureId) (got : Nat) {e : Value}
    (he : e.rename (.skip k) = e) :
    Parallel (Store.Inserted k spare) (fun _ _ => True) (checkCount id got e)
      (checkCount (id.skip k) got e) := by
  refine .bind (.read (P := fun c c' => c' = c) fun s t hst => hst.closures id) fun c c' hc => ?_
  subst hc
  have hcount (count : Nat) :
      Parallel (Store.Inserted k spare) (fun _ _ => True)
        (do if got = count then return () else fail (.arity (.exact count) got (some (← text e))))
        (do if got = count then return ()
            else fail (.arity (.exact count) got (some (← text e)))) := by
    split
    · exact .pure trivial
    · exact .fail_text _ fun s t hst => hst.text he
  exact hcount _

theorem loopName?_inserted
    (hglobals : ∀ name v, m.globals.find? name = some v → v.rename (.skip k) = v) {s t : Store}
    (h : s.Inserted k spare t) (id : ClosureId) (closure : Closure) :
    m.loopName? t (id.skip k) closure = m.loopName? s id closure := by
  have hitself (name : String) :
      m.namesItself t (id.skip k) closure name = m.namesItself s id closure name := by
    rw [namesItself, namesItself, find?_inserted hglobals h]
    cases m.find? s closure.scope name with
    | none => rfl
    | some v =>
      cases v with
      | closure found => simp [Value.rename, (ClosureId.skip_injective k).eq_iff]
      | _ => rfl
  simp only [loopName?, hitself]

/-- Evaluation runs in parallel with itself in a store with one more closure. -/
theorem inserted_correlates (m : Machine) (hhosts : ∀ f ∈ m.hosts, f.Natural)
    (hglobals : ∀ name v, m.globals.find? name = some v → v.rename (.skip k) = v) :
    m.Correlates (fun _ => Realm.before k) (.skip k)
      (InOneWorld (Parallel (Store.Inserted k spare))) where
  closed _ := Realm.before_closed k
  mono _ := .refl _
  fixed he := he
  unit := Parallel.pure trivial
  value _ := Parallel.pure ⟨rfl, trivial⟩
  values hvs := Parallel.pure ⟨rfl, hvs⟩
  bind hab hfg := Parallel.bind hab (hfg ⟨⟩ le_rfl)
  within he := Parallel.within fun s t hst => hst.text he
  fail := Parallel.fail
  failText e hv := Parallel.fail_text e fun s t hst => hst.text hv
  unfinished := Parallel.stop _
  boundNames hbindings := Parallel.get_bind fun s t hst => by
    rw [Form.boundNames_congr (hst.text hbindings)]
    refine .ofExcept ?_
    cases hnames : Form.boundNames s _ _ with
    | error e => exact .inl ⟨e, rfl, rfl⟩
    | ok names => exact .inr ⟨names, names, rfl, rfl, rfl, fun _ _ => rfl⟩
  lookup _ _ := lookup_parallel hglobals _ _
  run _ _ := run_parallel hhosts _ _
  makeClosure _ hparams hbody := makeClosure_parallel _ hparams hbody
  extend _ _ _ := Parallel.change fun s t hst => by
    rw [← Bindings.ofLists_rename]
    obtain ⟨hframe, hst'⟩ := hst.pushFrame _ _
    exact ⟨⟨hframe, trivial⟩, hst'⟩
  define _ _ _ := Parallel.modify fun s t hst => (hst.nameValue _ _).bind _ _ _
  closure? _ := Parallel.read fun s t hst =>
    ⟨hst.closures _, fun c hc => hst.code c (Array.mem_of_getElem? hc)⟩
  checkCount got _ _ he := checkCount_parallel _ got he
  loopName? _ _ := Parallel.read fun s t hst =>
    ⟨loopName?_inserted hglobals hst _ _, fun _ _ => rfl⟩
  bindLoop _ _ := Parallel.modify fun s t hst => hst.bind _ _ _
  overwrite _ _ _ := Parallel.modify fun s t hst => by
    rw [hst.renamed.chain, hst.renamed.frameOf?]
    exact hst.bind _ _ _

/-- Calls run in parallel even if the second evaluation allows fewer of them. -/
theorem callAt_inserted (m : Machine) (hhosts : ∀ f ∈ m.hosts, f.Natural)
    (hglobals : ∀ name v, m.globals.find? name = some v → v.rename (.skip k) = v)
    {depth depth' : Nat} (hle : depth' ≤ depth) :
    CallsCorrelated (fun _ => Realm.before k) (.skip k)
      (InOneWorld (Parallel (Store.Inserted k spare))) (m.callAt depth) (m.callAt depth') := by
  induction depth' generalizing depth with
  | zero =>
    cases depth with
    | zero => exact .none
    | succ depth => exact .spentRight fun w P a => Parallel.spent
  | succ depth' ih =>
    cases depth with
    | zero => exact absurd hle (Nat.not_succ_le_zero depth')
    | succ depth =>
      have hcalls := ih (Nat.le_of_succ_le_succ hle)
      exact .some fun w id args hid hargs =>
        (m.inserted_correlates hhosts hglobals).apply hcalls hid hargs

end Machine

end Lisplet
