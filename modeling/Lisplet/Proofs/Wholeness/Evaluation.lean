import Lisplet.Proofs.Reading.Brackets
import Lisplet.Proofs.Wholeness
import Mathlib.Data.Nat.Basic

/-! Evaluation keeps stores whole: it refers to closures only after it has made them. -/
namespace Lisplet

/-- What refers only to the first `k` closures may be met. -/
def Realm.existing (k : Nat) : Realm where
  expression e := e.Within (Node.Before k)
  value v := v.Within (Node.Before k)
  frame _ := True
  closure c := c.body.Within (Node.Before k)

theorem Realm.existing_closed (k : Nat) : (existing k).Closed where
  parts h := (Value.within_kind _).pair.mp h
  literal h _ _ := h
  nil := (Value.within_kind _).nil
  pair := (Value.within_kind _).pair
  arguments h := h
  params _ _ _ := List.forall_mem_nil _
  body h := h
  scope _ := trivial

theorem Realm.existing_mono {k k' : Nat} (hle : k ≤ k') : (existing k).Le (existing k') where
  expression _ h n hn := (h n hn).mono hle
  value _ h n hn := (h n hn).mono hle
  frame _ h := h
  closure _ h n hn := (h n hn).mono hle

namespace Machine

open Action

/-- A store of `k` closures to which nothing is missing. -/
structure WholeAt (m : Machine) (k : Nat) (s : Store) : Prop where
  size : s.closures.size = k
  globals : m.globals.Within (Node.Before k)
  store : s.Holds (Node.Before k)

/-- As `Keeps`, for two actions that are the same, and what is known of results together. -/
def KeepsWhole (m : Machine) (k : Nat) {α : Type} (P : Nat → α → α → Prop) (a _b : Action α) :
    Prop := Keeps m.WholeAt k a fun k v => P k v v

variable {m : Machine} {k : Nat} {s : Store}

namespace WholeAt

theorem whole (h : m.WholeAt k s) : m.Whole s := by
  obtain ⟨rfl, hglobals, hstore⟩ := h
  exact ⟨hglobals, hstore⟩

theorem find? (h : m.WholeAt k s) {scope : FrameId} {name : String} {v : Value}
    (hv : m.find? s scope name = some v) : v.Within (Node.Before k) := by
  rcases Option.or_eq_some_iff.mp hv with hv | ⟨-, hv⟩
  · exact h.store.find? name _ hv
  · exact h.globals.find? hv

theorem pushClosure (h : m.WholeAt k s) {c : Closure} (hc : c.body.Within (Node.Before k)) :
    m.WholeAt (k + 1) (s.pushClosure c).2 where
  size := by simp [Store.pushClosure, h.size]
  globals := h.globals.mono fun _ hn => hn.mono (Nat.le_succ k)
  store := (h.store.pushClosure hc).mono fun _ hn => hn.mono (Nat.le_succ k)

theorem bind (h : m.WholeAt k s) (f : FrameId) (name : String) {value : Value}
    (hvalue : value.Within (Node.Before k)) : m.WholeAt k (s.bind f name value) :=
  ⟨h.size, h.globals, h.store.bind f name hvalue⟩

theorem nameValue (h : m.WholeAt k s) (name : String) (value : Value) :
    m.WholeAt k (s.nameValue name value) where
  size := by rw [Store.size_closures_nameValue, h.size]
  globals := h.globals
  store := h.store.nameValue name value

end WholeAt

theorem lookup_whole (scope : FrameId) (name : String) :
    Keeps m.WholeAt k (m.lookup scope name) fun k v => v.Within (Node.Before k) := by
  refine Keeps.get_bind fun s hs => ?_
  cases hv : m.find? s scope name with
  | none => exact Keeps.fail _ _
  | some v => exact Keeps.pure (hs.find? hv)

theorem run_whole (hhosts : ∀ f ∈ m.hosts, f.Natural) (body : Procedure) {args : List Value}
    (hargs : ∀ v ∈ args, v.Within (Node.Before k)) :
    Keeps m.WholeAt k (m.run body args) fun k v => v.Within (Node.Before k) := by
  have hkind := Value.within_kind (Node.Before k)
  cases body with
  | primitive p =>
    intro s hs
    obtain ⟨-, -, hframes, hclosures⟩ := p.run_local args s s (.refl s)
    obtain ⟨_, -, hfilled, hv⟩ := p.run_filled hkind hargs s (hs.store.filled fun _ => trivial)
    refine ⟨k, le_rfl, ⟨?_, hs.globals, ?_⟩, hv⟩
    · rw [run, hclosures, hs.size]
    · exact hs.store.of_filled hframes hclosures (fun _ => trivial) hfilled
  | recur => exact Keeps.pure (hkind.ofList.mpr hargs)
  | host slot =>
    unfold run
    dsimp only
    cases hf : m.hosts[slot]? with
    | none => exact Keeps.pure hkind.nil
    | some f =>
      refine Keeps.observe fun s hs v hv => ?_
      obtain ⟨rfl, -, hstore⟩ := hs
      have hwhole : s.Whole := hstore
      exact hwhole.within_of_natural (hhosts f (Array.mem_of_getElem? hf)) hargs hv

theorem makeClosure_whole (scope : FrameId) (params : Value) {body : Value}
    (hbody : body.Within (Node.Before k)) :
    Keeps m.WholeAt k (makeClosure scope params body) fun k v => v.Within (Node.Before k) := by
  refine Keeps.get_bind fun s _ => Keeps.ofExcept_bind fun names _ => ?_
  have hpush : Keeps m.WholeAt k (change fun s => s.pushClosure ⟨names, body, scope, none⟩)
      fun k id => id.index < k := by
    refine Keeps.change fun s hs => ⟨k + 1, Nat.le_succ k, hs.pushClosure hbody, ?_⟩
    change s.closures.size < k + 1
    rw [hs.size]
    exact Nat.lt_succ_self k
  exact Keeps.bind hpush fun k' _ id hid => Keeps.pure (Value.within_closure.mpr hid)

theorem keepsWhole_iff {a b : Action Value} :
    m.KeepsWhole k (fun k => (Realm.existing k).Copy id) a b ↔
      Keeps m.WholeAt k a fun k v => v.Within (Node.Before k) := by
  have hsame : (fun k v => (Realm.existing k).Copy id v v) =
      fun k v => v.Within (Node.Before k) := by
    funext k v
    simp [Realm.Copy, Realm.existing]
  rw [KeepsWhole, hsame]

/-- The steps of evaluation keep stores whole. -/
theorem whole_correlates (m : Machine) (hhosts : ∀ f ∈ m.hosts, f.Natural) :
    m.Correlates Realm.existing id m.KeepsWhole where
  closed := Realm.existing_closed
  mono := Realm.existing_mono
  fixed _ := Value.rename_id _
  unit := Keeps.pure trivial
  value hv := Keeps.pure ⟨(Value.rename_id _).symm, hv⟩
  values hvs := Keeps.pure ⟨(Value.map_rename_id _).symm, hvs⟩
  bind ha hf := Keeps.bind ha fun k' hk v hv => hf k' hk v v hv
  within _ ha := Keeps.within _ ha
  fail e := Keeps.fail e _
  failText e _ := Keeps.text_bind fun _ => Keeps.fail _ _
  unfinished := Keeps.throw _ _
  boundNames _ := Keeps.get_bind fun s _ =>
    Keeps.ofExcept fun names _ => ⟨rfl, fun _ _ => List.forall_mem_nil _⟩
  lookup _ _ := keepsWhole_iff.mpr (lookup_whole _ _)
  run _ hargs := by
    rw [Value.map_rename_id]
    exact keepsWhole_iff.mpr (run_whole hhosts _ hargs)
  makeClosure _ _ hbody := keepsWhole_iff.mpr (makeClosure_whole _ _ hbody)
  extend _ _ hvalues := Keeps.change fun s hs =>
    ⟨_, le_rfl, ⟨hs.size, hs.globals, hs.store.pushFrame _ (Bindings.within_ofLists _ hvalues)⟩,
      rfl, trivial⟩
  define _ _ hvalue := Keeps.modify fun s hs =>
    ⟨_, le_rfl, (hs.nameValue _ _).bind _ _ hvalue, trivial⟩
  closure? _ := Keeps.get_bind fun s hs =>
    Keeps.pure ⟨rfl, fun c hc => hs.store.bodies c (Array.mem_of_getElem? hc)⟩
  checkCount got _ _ _ := Keeps.read (checkCount_store _ got _) fun _ _ _ _ => trivial
  loopName? _ _ := Keeps.get_bind fun s _ =>
    Keeps.pure ⟨rfl, fun _ _ => List.forall_mem_nil _⟩
  bindLoop _ _ := Keeps.modify fun s hs => ⟨_, le_rfl, hs.bind _ _ (List.forall_mem_nil _), trivial⟩
  overwrite _ _ hvalue := Keeps.modify fun s hs => ⟨_, le_rfl, hs.bind _ _ hvalue, trivial⟩

theorem callAt_whole (m : Machine) (hhosts : ∀ f ∈ m.hosts, f.Natural) (depth : Nat) :
    CallsCorrelated Realm.existing id m.KeepsWhole (m.callAt depth) (m.callAt depth) := by
  induction depth with
  | zero => exact .none
  | succ depth ih =>
    exact .some fun k id args hid hargs => (m.whole_correlates hhosts).apply ih hid hargs

theorem evalAt_keeps (m : Machine) (hhosts : ∀ f ∈ m.hosts, f.Natural) (depth : Nat)
    (scope : FrameId) {e : Value} (he : e.Within (Node.Before k)) :
    Keeps m.WholeAt k (m.evalAt depth scope e) fun k v => v.Within (Node.Before k) :=
  keepsWhole_iff.mp ((m.whole_correlates hhosts).evalWith (m.callAt_whole hhosts depth) trivial he)

/-- Evaluation in a whole store ends in one, with a value that refers only to closures that are
there, if the expression does. -/
theorem evalAt_whole (m : Machine) (hhosts : ∀ f ∈ m.hosts, f.Natural) (depth : Nat)
    (scope : FrameId) {e : Value} {s : Store} (hs : m.Whole s)
    (he : e.Within (Node.Before s.closures.size)) :
    let ⟨result, t⟩ := m.evalAt depth scope e s
    m.Whole t ∧ ∀ v, result = .ok v → v.Within (Node.Before t.closures.size) := by
  obtain ⟨k, -, hk, hv⟩ := m.evalAt_keeps hhosts depth scope he s ⟨rfl, hs.globals, hs.store⟩
  obtain rfl := hk.size
  exact ⟨hk.whole, hv⟩

end Machine

namespace Reader

/-- What is read refers to nothing. -/
theorem Forest.within (f : Forest) (K : Node → Prop) : ∀ v ∈ f.values, v.Within K := by
  have hkind := Value.within_kind K
  have hatom (text : List Char) : (atom text).Within K := by
    unfold atom
    repeat' split
    all_goals exact List.forall_mem_nil K
  induction f with
  | nil => exact List.forall_mem_nil _
  | block text rest ih => exact List.forall_mem_cons.mpr ⟨hatom text, ih⟩
  | list children rest ihc ihr =>
    exact List.forall_mem_cons.mpr ⟨hkind.ofList.mpr ihc, ihr⟩

theorem within_of_readProgram {comments : Bool} {source : String} {vs : List Value}
    (h : readProgram comments source = .ok vs) (K : Node → Prop) : ∀ v ∈ vs, v.Within K := by
  have hvalues := readProgram_eq_ok_iff.mp h
  unfold values at hvalues
  split at hvalues
  · obtain ⟨-, -, f, -, rfl⟩ := exists_forest_of_assemble hvalues
    exact f.within K
  · cases hvalues

end Reader

namespace Interpreter

open Action

/-- A program makes an interpreter refer to no closure that is not there. -/
theorem evalSource_whole (i : Interpreter) (hhosts : ∀ f ∈ i.machine.hosts, f.Natural)
    (hi : i.machine.Whole i.store) (source : String) :
    i.machine.Whole (i.evalSource source).2.store := by
  have hprogram (program : List Value) (hvs : ∀ e ∈ program, ∀ K, e.Within K) {k : Nat}
      (v : Value) :
      Keeps i.machine.WholeAt k (program.foldlM (fun _ e => i.evaluation e) v) fun _ _ => True := by
    induction program generalizing k v with
    | nil => exact Keeps.pure trivial
    | cons e program ih =>
      rw [List.forall_mem_cons] at hvs
      rw [List.foldlM_cons]
      exact Keeps.bind (i.machine.evalAt_keeps hhosts maxCallDepth i.scope (hvs.1 _))
        fun k' _ w _ => ih hvs.2 w
  unfold evalSource
  split
  · rename_i program hread
    have hvs : ∀ e ∈ program, ∀ K, e.Within K :=
      fun e he K => Reader.within_of_readProgram hread K e he
    obtain ⟨k, -, hk, -⟩ := hprogram program hvs .nil i.store ⟨rfl, hi.globals, hi.store⟩
    exact hk.whole
  · exact hi

theorem evalSource_machine (i : Interpreter) (source : String) :
    (i.evalSource source).2.machine = i.machine := by
  unfold evalSource
  split <;> rfl

theorem standard_whole (input : List UInt8) :
    (standard input).machine.Whole (standard input).store := by
  have hempty : Store.Holds (Node.Before 0) { Store.empty with input } := ⟨nofun, nofun, nofun⟩
  have hglobals : standardBindings.Within (Node.Before 0) := by decide
  exact ⟨hglobals, hempty.pushFrame none trivial⟩

/-- Whatever programs an interpreter has run, it is whole. -/
theorem session_whole (input : List UInt8) (sources : List String) :
    let i := sources.foldl (fun i source => (i.evalSource source).2) (standard input)
    i.machine.Whole i.store := by
  have hsession (i : Interpreter) (hhosts : ∀ f ∈ i.machine.hosts, f.Natural)
      (hi : i.machine.Whole i.store) :
      let j := sources.foldl (fun i source => (i.evalSource source).2) i
      j.machine.Whole j.store := by
    induction sources generalizing i with
    | nil => exact hi
    | cons source sources ih =>
      have hmachine := i.evalSource_machine source
      refine ih _ (hmachine ▸ hhosts) ?_
      rw [hmachine]
      exact i.evalSource_whole hhosts hi source
  exact hsession _ (fun f hf => absurd hf (Array.not_mem_empty f)) (standard_whole input)

end Interpreter

end Lisplet
