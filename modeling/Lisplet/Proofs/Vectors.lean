import Lisplet.Proofs.Frames.Scope
import Lisplet.Proofs.Naming

/-! What happens to vectors. A vector is as long as it was made, whatever is evaluated; only a call
that is given a value to put in a slot changes what a vector holds, and only in that slot. -/
namespace Lisplet

namespace Store

def HasVector (s : Store) (id : VectorId) : Prop := id.index < s.vectors.size

/-- The integers that are slots of a vector. -/
def HasSlot (s : Store) (id : VectorId) (n : Int64) : Prop :=
  0 ≤ n.toInt ∧ n.toInt < (s.items id).size

instance (s : Store) (id : VectorId) (n : Int64) : Decidable (s.HasSlot id n) :=
  inferInstanceAs (Decidable (_ ∧ _))

theorem items_congr {s t : Store} (h : t.vectors = s.vectors) (id : VectorId) :
    t.items id = s.items id := by
  simp only [items, h]

theorem items_pushVector {s : Store} {id : VectorId} (h : s.HasVector id) (xs : Array Value) :
    (s.pushVector xs).2.items id = s.items id := by
  simp [items, pushVector, Array.getElem?_push, Nat.ne_of_lt h]

theorem items_setItem_self {s : Store} {id : VectorId} (slot : Nat) (x : Value) :
    (s.setItem id slot x).items id = (s.items id).setIfInBounds slot x := by
  simp only [items, setItem, Array.getElem?_modify, if_pos]
  cases s.vectors[id.index]? <;> simp

theorem items_setItem_of_ne {s : Store} {id w : VectorId} (h : w ≠ id) (slot : Nat) (x : Value) :
    (s.setItem id slot x).items w = s.items w := by
  have hindex : id.index ≠ w.index := fun e => h (congrArg VectorId.mk e.symm)
  simp [items, setItem, Array.getElem?_modify, hindex]

/-- Every vector of `s` is still there in `t`, and what `view` shows of it is the same. -/
structure KeepsVectors {β : Type} (view : Array Value → β) (s t : Store) : Prop where
  size_le : s.vectors.size ≤ t.vectors.size
  view : ∀ id, s.HasVector id → view (t.items id) = view (s.items id)

namespace KeepsVectors

variable {β : Type} {view : Array Value → β} {s t u : Store}

theorem hasVector (h : KeepsVectors view s t) {id : VectorId} (hid : s.HasVector id) :
    t.HasVector id := Nat.lt_of_lt_of_le hid h.size_le

theorem of_vectors (h : t.vectors = s.vectors) : KeepsVectors view s t where
  size_le := Nat.le_of_eq (congrArg Array.size h.symm)
  view id _ := by rw [items_congr h]

theorem trans (h : KeepsVectors view s t) (h' : KeepsVectors view t u) :
    KeepsVectors view s u where
  size_le := Nat.le_trans h.size_le h'.size_le
  view id hid := (h'.view id (h.hasVector hid)).trans (h.view id hid)

theorem pushVector (s : Store) (xs : Array Value) : KeepsVectors view s (s.pushVector xs).2 where
  size_le := by simp [Store.pushVector]
  view id hid := by rw [items_pushVector hid]

/-- Replacing the value in a slot leaves a vector as long as it is. -/
theorem setItem (s : Store) (id : VectorId) (slot : Nat) (x : Value) :
    KeepsVectors Array.size s (s.setItem id slot x) where
  size_le := by simp [Store.setItem]
  view w _ := s.size_items_setItem id w slot x

end KeepsVectors

end Store

namespace Action

variable {α β : Type}

/-- An action that leaves all vectors alone and makes none. -/
def SparesVectors (a : Action α) : Prop := ∀ s : Store, (a s).2.vectors = s.vectors

theorem SparesVectors.of_store {a : Action α} (h : ∀ s, (a s).2 = s) : a.SparesVectors :=
  fun s => by rw [h]

theorem SparesVectors.bind {a : Action α} {f : α → Action β} (ha : a.SparesVectors)
    (hf : ∀ v, (f v).SparesVectors) : (a >>= f).SparesVectors := by
  intro s
  have hs := ha s
  rcases h : a s with ⟨stop | v, t⟩ <;> rw [h] at hs
  · rw [bind_error h]
    exact hs
  · rw [bind_ok h]
    exact (hf v t).trans hs

theorem ofExcept_store (x : Except Error α) (s : Store) : (ofExcept x s).2 = s :=
  (Reads.ofExcept x).store s

theorem observe_store (f : Observer) (args : List Value) (s : Store) :
    (observe f args s).2 = s := ofExcept_store (f s args) s

def Allocates (a : Action Value) : Prop := ∀ s : Store,
  (∃ stop, a s = (.error stop, s)) ∨
    ∃ xs, a s = (.ok (.vector (s.pushVector xs).1), (s.pushVector xs).2)

namespace Allocates

theorem fail (e : Error) : Allocates (Action.fail e) := fun _ => .inl ⟨_, rfl⟩

theorem pushVector (f : Store → Array Value) :
    Allocates (do return .vector (← change fun s => s.pushVector (f s))) :=
  fun s => .inr ⟨f s, rfl⟩

theorem get_bind {f : Store → Action Value} (hf : ∀ s, (f s).Allocates) :
    (get >>= f).Allocates := fun s => hf s s

theorem bind {a : Action α} {f : α → Action Value} (ha : ∀ s, (a s).2 = s)
    (hf : ∀ v, (f v).Allocates) : (a >>= f).Allocates := by
  intro s
  have hs := ha s
  rcases h : a s with ⟨stop | v, t⟩ <;> rw [h] at hs <;> subst hs
  · exact .inl ⟨stop, bind_error h⟩
  · rw [bind_ok h]
    exact hf v _

end Allocates

end Action

namespace Console

open Action

theorem takeLine_sparesVectors : takeLine.SparesVectors := fun s => by rw [takeLine_store]

theorem readLine_sparesVectors (args : List Value) : (readLine args).SparesVectors := by
  unfold readLine
  split
  · exact .of_store fun _ => rfl
  · refine takeLine_sparesVectors.bind fun line => ?_
    cases line <;> exact .of_store fun _ => rfl

theorem readIntegers_sparesVectors (args : List Value) : (readIntegers args).SparesVectors := by
  unfold readIntegers
  split
  · exact .of_store fun _ => rfl
  · refine takeLine_sparesVectors.bind fun line => ?_
    cases line with
    | none => exact .of_store fun _ => rfl
    | some line => exact .bind (.of_store (ofExcept_store _)) fun _ => .of_store fun _ => rfl

end Console

namespace Vector

open Action

theorem make_allocates (args : List Value) : (make args).Allocates := by
  unfold make
  split
  · refine .get_bind fun s => .bind (ofExcept_store _) fun n => ?_
    split
    · exact .pushVector _
    · exact .fail _
  · exact .fail _

theorem elements_store (v : Value) (s : Store) : (elements v s).2 = s := by
  unfold elements
  cases v.toList? <;> rfl

theorem copy_allocates (args : List Value) : (copy args).Allocates := by
  unfold copy
  split
  · exact .pushVector _
  · exact .bind (elements_store _) fun _ => .pushVector _
  · exact .fail _

theorem size?_of_nonneg {n : Int64} (h : 0 ≤ n.toInt) : size? n = some n.toInt.toNat := by
  obtain ⟨k, hk⟩ := Int.eq_ofNat_of_zero_le h
  simp only [size?, hk]
  rfl

theorem size?_of_neg {n : Int64} (h : n.toInt < 0) : size? n = none := by
  obtain ⟨k, hk⟩ := Int.eq_negSucc_of_lt_zero h
  simp only [size?, hk]

theorem locate_apply (id : VectorId) (n : Int64) (s : Store) :
    locate (.vector id) (.integer n) s =
      if s.HasSlot id n then (.ok (id, n.toInt.toNat), s)
      else (.error (.failed (.index n (s.items id).size)), s) := by
  have hget : (get : Action Store) s = (.ok s, s) := rfl
  have hinteger : ofExcept (Arithmetic.expectInteger .vectorSlot s (.integer n)) s = (.ok n, s) :=
    rfl
  unfold locate
  dsimp only
  rw [bind_ok hget, bind_ok hinteger, bind_ok hget]
  by_cases hn : 0 ≤ n.toInt
  · have hslot : s.HasSlot id n ↔ n.toInt.toNat < (s.items id).size := by
      unfold Store.HasSlot
      omega
    simp only [size?_of_nonneg hn, hslot]
    split <;> rfl
  · have hslot : ¬ s.HasSlot id n := fun h => hn h.1
    rw [size?_of_neg (Int.not_le.mp hn), if_neg hslot]
    rfl

/-- What is located is a slot that is there. -/
theorem locate_cases (v index : Value) (s : Store) :
    (∃ stop, locate v index s = (.error stop, s)) ∨
      ∃ id n, v = .vector id ∧ index = .integer n ∧ s.HasSlot id n ∧
        locate v index s = (.ok (id, n.toInt.toNat), s) := by
  cases v with
  | vector id =>
    cases index with
    | integer n =>
      rw [locate_apply]
      by_cases h : s.HasSlot id n
      · rw [if_pos h]
        exact .inr ⟨id, n, rfl, rfl, h, rfl⟩
      · rw [if_neg h]
        exact .inl ⟨_, rfl⟩
    | _ => exact .inl ⟨_, rfl⟩
  | _ => exact .inl ⟨_, rfl⟩

theorem slot_read (id : VectorId) (n : Int64) (s : Store) :
    slot [.vector id, .integer n] s =
      if s.HasSlot id n then (.ok ((s.items id).getD n.toInt.toNat .nil), s)
      else (.error (.failed (.index n (s.items id).size)), s) := by
  have hlocate := locate_apply id n s
  rw [slot]
  split at hlocate <;> rename_i h
  · rw [bind_ok hlocate, if_pos h]
    rfl
  · rw [bind_error hlocate, if_neg h]

theorem slot_write (id : VectorId) (n : Int64) (x : Value) (s : Store) :
    slot [.vector id, .integer n, x] s =
      if s.HasSlot id n then (.ok .nil, s.setItem id n.toInt.toNat x)
      else (.error (.failed (.index n (s.items id).size)), s) := by
  have hlocate := locate_apply id n s
  rw [slot]
  split at hlocate <;> rename_i h
  · rw [bind_ok hlocate, if_pos h]
    rfl
  · rw [bind_error hlocate, if_neg h]

/-- A slot is replaced only by a call with three arguments that names one that is there. -/
theorem slot_cases (args : List Value) (s : Store) :
    (slot args s).2 = s ∨ ∃ id n x, args = [.vector id, .integer n, x] ∧ s.HasSlot id n ∧
      slot args s = (.ok .nil, s.setItem id n.toInt.toNat x) := by
  unfold slot
  split
  · rename_i v index
    left
    rcases locate_cases v index s with ⟨stop, h⟩ | ⟨id, n, -, -, -, h⟩
    · rw [bind_error h]
    · rw [bind_ok h]
      rfl
  · rename_i v index x
    rcases locate_cases v index s with ⟨stop, h⟩ | ⟨id, n, rfl, rfl, hslot, h⟩
    · rw [bind_error h]
      exact .inl rfl
    · rw [bind_ok h]
      exact .inr ⟨id, n, x, rfl, hslot, rfl⟩
  · exact .inl rfl

end Vector

/-- What a call of a primitive does to the vectors of a store: it leaves them alone, makes a new one
and returns it, or replaces the value in a slot. -/
theorem Primitive.run_vectors (p : Primitive) (args : List Value) (s : Store) :
    (p.run args s).2.vectors = s.vectors ∨
    ((p = makeVector ∨ p = copyVector) ∧
      ∃ xs, p.run args s = (.ok (.vector (s.pushVector xs).1), (s.pushVector xs).2)) ∨
    (p = vectorSlot ∧ ∃ id n x, args = [.vector id, .integer n, x] ∧ s.HasSlot id n ∧
      p.run args s = (.ok .nil, s.setItem id n.toInt.toNat x)) := by
  cases p with
  | makeVector =>
    rcases Vector.make_allocates args s with ⟨stop, h⟩ | h
    · exact .inl (congrArg (·.2.vectors) h)
    · exact .inr (.inl ⟨.inl rfl, h⟩)
  | copyVector =>
    rcases Vector.copy_allocates args s with ⟨stop, h⟩ | h
    · exact .inl (congrArg (·.2.vectors) h)
    · exact .inr (.inl ⟨.inr rfl, h⟩)
  | vectorSlot =>
    rcases Vector.slot_cases args s with h | h
    · exact .inl (congrArg Store.vectors h)
    · exact .inr (.inr ⟨rfl, h⟩)
  | readLine => exact .inl (Console.readLine_sparesVectors args s)
  | readIntegers => exact .inl (Console.readIntegers_sparesVectors args s)
  | print => exact .inl rfl
  | _ => exact .inl (congrArg Store.vectors (Action.observe_store _ args s))

/-- As of a primitive, so of any procedure. -/
theorem Machine.run_vectors (m : Machine) (body : Procedure) (args : List Value) (s : Store) :
    (m.run body args s).2.vectors = s.vectors ∨
    ((body = .primitive .makeVector ∨ body = .primitive .copyVector) ∧
      ∃ xs, m.run body args s = (.ok (.vector (s.pushVector xs).1), (s.pushVector xs).2)) ∨
    (body = .primitive .vectorSlot ∧ ∃ id n x, args = [.vector id, .integer n, x] ∧
      s.HasSlot id n ∧ m.run body args s = (.ok .nil, s.setItem id n.toInt.toNat x)) := by
  cases body with
  | primitive p =>
    simp only [Procedure.primitive.injEq]
    exact p.run_vectors args s
  | recur => exact .inl rfl
  | host slot =>
    left
    rw [run]
    cases m.hosts[slot]? with
    | some f => exact congrArg Store.vectors (Action.observe_store f args s)
    | none => rfl

/-- Whatever an action does, `view` shows the same of every vector that was there. -/
def Action.KeepsVectors {α β : Type} (view : Array Value → β) (a : Action α) : Prop :=
  ∀ s : Store, s.KeepsVectors view (a s).2

namespace Action.KeepsVectors

variable {α β γ : Type} {view : Array Value → γ}

theorem of_vectors {a : Action α} (h : ∀ s, (a s).2.vectors = s.vectors) : a.KeepsVectors view :=
  fun s => .of_vectors (h s)

theorem of_store {a : Action α} (h : ∀ s, (a s).2 = s) : a.KeepsVectors view :=
  of_vectors fun s => by rw [h]

theorem bind {a : Action α} {f : α → Action β} (ha : a.KeepsVectors view)
    (hf : ∀ v, (∃ s, (a s).1 = .ok v) → (f v).KeepsVectors view) :
    (a >>= f).KeepsVectors view := by
  intro s
  have hs := ha s
  rcases h : a s with ⟨stop | v, t⟩ <;> rw [h] at hs
  · rw [bind_error h]
    exact hs
  · rw [bind_ok h]
    exact hs.trans (hf v ⟨s, by rw [h]⟩ t)

theorem within {a : Action α} (ha : a.KeepsVectors view) (e : Value) :
    (Action.within e a).KeepsVectors view := by
  intro s
  rw [within_store]
  exact ha s

/-- A step of evaluation keeps of vectors what the calls of procedures keep. -/
theorem of_step {m : Machine} (hrun : ∀ body args, (m.run body args).KeepsVectors view)
    {a : Action α} (h : m.Step a) : a.KeepsVectors view := by
  cases h with
  | read h => exact of_store h.store
  | unfinished => exact of_store fun _ => rfl
  | lookup scope name => exact of_store (m.evalAtom_store scope (.symbol name))
  | run body args => exact hrun body args
  | makeClosure scope params body =>
    rw [makeClosure_eq]
    refine bind (of_store (Reads.parameters params).store) fun names _ => ?_
    exact bind (of_vectors fun _ => rfl) fun _ _ => of_store fun _ => rfl
  | extend scope names values => exact of_vectors fun _ => rfl
  | define frame name value =>
    refine of_vectors fun s => ?_
    cases value <;> rfl
  | checkCount id got e => exact of_store (checkCount_store id got e)
  | closure? id => exact of_store fun _ => rfl
  | loopName? id closure => exact of_store fun _ => rfl
  | bind frame name value => exact of_vectors fun _ => rfl
  | rebind frame name value => exact of_vectors fun _ => rfl

end Action.KeepsVectors

namespace Machine

open Action (KeepsVectors)

theorem run_keepsLengths (m : Machine) (body : Procedure) (args : List Value) :
    (m.run body args).KeepsVectors Array.size := by
  intro s
  rcases m.run_vectors body args s with h | ⟨-, xs, h⟩ | ⟨-, id, n, x, -, -, h⟩
  · exact .of_vectors h
  · rw [h]
    exact .pushVector s xs
  · rw [h]
    exact .setItem s id _ x

theorem run_keepsItems (m : Machine) {body : Procedure} {args : List Value}
    (hcall : ¬ (body = .primitive .vectorSlot ∧ args.length = 3)) :
    (m.run body args).KeepsVectors id := by
  intro s
  rcases m.run_vectors body args s with h | ⟨-, xs, h⟩ | ⟨hbody, id, n, x, hargs, -⟩
  · exact .of_vectors h
  · rw [h]
    exact .pushVector s xs
  · exact absurd ⟨hbody, by rw [hargs]; rfl⟩ hcall

/-- Evaluation keeps vectors as long as they are. -/
theorem congruence_keepsLengths (m : Machine) :
    m.Congruence fun a _ => a.KeepsVectors Array.size :=
  ⟨.of_step m.run_keepsLengths, .bind, fun e ha => ha.within e⟩

/-- A relation that every step respects is respected by the evaluation of any task. -/
theorem Congruence.task {m : Machine} {R : {α : Type} → Action α → Action α → Prop}
    (h : m.Congruence R) (depth : Nat) (scope : FrameId) (task : Task) :
    R (task.action m depth scope) (task.action m depth scope) := by
  have hcalls := (h.respects.callAt depth).correlated
  have hvalues := h.respects.correlates
  cases task with
  | expression e => exact h.evalAt depth scope e
  | elements e =>
    exact (OnDiagonal.copy_iff.mp (hvalues.evalElements hcalls (w := ⟨⟩) trivial trivial)).1
  | special form operands =>
    cases form with
    | lambda => exact (OnDiagonal.copy_iff.mp (hvalues.evalLambda (w := ⟨⟩) trivial trivial)).1
    | define =>
      exact (OnDiagonal.copy_iff.mp (hvalues.evalDefine hcalls (w := ⟨⟩) trivial trivial)).1
    | letIn =>
      exact (OnDiagonal.copy_iff.mp (hvalues.evalLetIn hcalls (w := ⟨⟩) trivial trivial)).1
    | letRec =>
      exact (OnDiagonal.copy_iff.mp (hvalues.evalLetRec hcalls (w := ⟨⟩) trivial trivial)).1
    | ifElse =>
      exact (OnDiagonal.copy_iff.mp (hvalues.evalIfElse hcalls (w := ⟨⟩) trivial trivial)).1
    | cond =>
      exact (OnDiagonal.copy_iff.mp (hvalues.evalCond hcalls (w := ⟨⟩) trivial trivial)).1
  | program es =>
    have hprogram (v : Value) :
        R (es.foldlM (fun _ e => m.evalAt depth scope e) v)
          (es.foldlM (fun _ e => m.evalAt depth scope e) v) := by
      induction es generalizing v with
      | nil => exact h.pure v
      | cons e es ih =>
        rw [List.foldlM_cons]
        exact h.bind (h.evalAt depth scope e) fun w _ => ih w
    exact hprogram .nil

end Machine

/-- Wherever programs lead to, vectors are as long as they were. -/
theorem Interpreter.Leads.keepsLengths {i j : Interpreter} (h : i.Leads j) :
    i.store.KeepsVectors Array.size j.store := by
  have hprogram (i : Interpreter) (program : List Value) :
      i.store.KeepsVectors Array.size (i.evalProgram program).2.store :=
    i.machine.congruence_keepsLengths.task maxCallDepth i.scope (.program program) i.store
  induction h with
  | refl => exact .of_vectors rfl
  | program _ program ih => exact ih.trans (hprogram _ program)
  | @source j _ source ih =>
    refine ih.trans ?_
    unfold evalSource
    split
    · exact hprogram j _
    · exact .of_vectors rfl

namespace Store

/-- The answer to a call that reads a slot of a vector. -/
def readSlot (s : Store) (id : VectorId) (n : Int64) : Except Stop Value :=
  (Primitive.vectorSlot.run [.vector id, .integer n] s).1

/-- The answer to a call that puts a value in a slot of a vector, and the store it leaves. -/
def writeSlot (s : Store) (id : VectorId) (n : Int64) (x : Value) : Except Stop Value × Store :=
  Primitive.vectorSlot.run [.vector id, .integer n, x] s

variable {s : Store} {id : VectorId} {n : Int64}

theorem readSlot_eq (s : Store) (id : VectorId) (n : Int64) : s.readSlot id n =
    if s.HasSlot id n then .ok ((s.items id).getD n.toInt.toNat .nil)
    else .error (.failed (.index n (s.items id).size)) := by
  have hread := Vector.slot_read id n s
  rw [readSlot, Primitive.run, hread]
  split <;> rfl

theorem readSlot_congr {t : Store} {w : VectorId} (h : t.items w = s.items w) (n : Int64) :
    t.readSlot w n = s.readSlot w n := by
  have hslot : t.HasSlot w n ↔ s.HasSlot w n := by simp only [HasSlot, h]
  rw [readSlot_eq, readSlot_eq, h]
  simp only [hslot]

theorem writeSlot_of_hasSlot (h : s.HasSlot id n) (x : Value) :
    s.writeSlot id n x = (.ok .nil, s.setItem id n.toInt.toNat x) :=
  (Vector.slot_write id n x s).trans (if_pos h)

theorem writeSlot_of_not_hasSlot (h : ¬ s.HasSlot id n) (x : Value) :
    s.writeSlot id n x = (.error (.failed (.index n (s.items id).size)), s) :=
  (Vector.slot_write id n x s).trans (if_neg h)

theorem items_writeSlot_of_ne {w : VectorId} (h : w ≠ id) (n : Int64) (x : Value) :
    (s.writeSlot id n x).2.items w = s.items w := by
  by_cases hslot : s.HasSlot id n
  · rw [writeSlot_of_hasSlot hslot]
    exact items_setItem_of_ne h _ x
  · rw [writeSlot_of_not_hasSlot hslot]

/-- What the slots hold once a value has been put in one of them. -/
theorem getElem?_items_setItem (h : s.HasSlot id n) (x : Value) (w : VectorId) (k : Nat) :
    ((s.setItem id n.toInt.toNat x).items w)[k]? =
      if w = id ∧ k = n.toInt.toNat then some x else (s.items w)[k]? := by
  by_cases hw : w = id
  · subst hw
    have hlt : n.toInt.toNat < (s.items w).size := by
      unfold HasSlot at h
      omega
    rw [items_setItem_self, Array.getElem?_setIfInBounds]
    by_cases hk : k = n.toInt.toNat
    · simp only [hk, hlt, and_self, ↓reduceIte]
    · simp only [hk, Ne.symm hk, and_false, ↓reduceIte]
  · rw [items_setItem_of_ne hw, if_neg fun h => hw h.1]

/-- A value that was put in a slot is read from it under every name of the vector, and all else is
read as before. -/
theorem readSlot_setItem (h : s.HasSlot id n) (x : Value) (w : VectorId) (j : Int64) :
    (s.setItem id n.toInt.toNat x).readSlot w j =
      if w = id ∧ j = n then .ok x else s.readSlot w j := by
  have hslots : (s.setItem id n.toInt.toNat x).HasSlot w j ↔ s.HasSlot w j := by
    simp only [HasSlot, size_items_setItem]
  rw [readSlot_eq, readSlot_eq, size_items_setItem]
  by_cases hj : s.HasSlot w j
  · rw [if_pos (hslots.mpr hj), if_pos hj, Array.getD_eq_getD_getElem?,
      getElem?_items_setItem h]
    -- Two slots are the same if they are at the same place.
    have hplace : j.toInt.toNat = n.toInt.toNat ↔ j = n := by
      rw [← Int64.toInt_inj]
      have hj₀ := hj.1
      have hn₀ := h.1
      omega
    simp only [hplace]
    split
    · rfl
    · rw [Array.getD_eq_getD_getElem?]
  · have hne : ¬ (w = id ∧ j = n) := by
      rintro ⟨rfl, rfl⟩
      exact hj h
    rw [if_neg (mt hslots.mp hj), if_neg hj, if_neg hne]

end Store

namespace Vector

/-- A vector that is made or copied is none of those that were there, and they keep what they
hold. -/
theorem run_allocates {p : Primitive} (hp : p = .makeVector ∨ p = .copyVector) {args : List Value}
    {s t : Store} {v : Value} (h : p.run args s = (.ok v, t)) :
    ∃ new, v = .vector new ∧ ¬ s.HasVector new ∧ t.HasVector new ∧ s.KeepsVectors id t := by
  have halloc : (p.run args).Allocates := by
    rcases hp with rfl | rfl
    · exact make_allocates args
    · exact copy_allocates args
  rcases halloc s with ⟨stop, hfailed⟩ | ⟨xs, hmade⟩
  · cases hfailed.symm.trans h
  · cases hmade.symm.trans h
    refine ⟨_, rfl, Nat.lt_irrefl _, ?_, .pushVector s xs⟩
    simp [Store.HasVector, Store.pushVector]

/-- Vectors are shared and of fixed length. A value can be put in just the slots there are; it is
then read from that slot under every name of the vector, all else is read as before, and a call that
fails changes nothing. Whatever is evaluated, at any depth, vectors are as long as they were, and no
other call of a procedure changes what they hold. A vector that is made or copied is none of those
there were, so that nothing put in its slots is ever seen in them. -/
theorem slots_shared (s : Store) :
    (∀ id n x,
      ((s.writeSlot id n x).1 = .ok .nil ↔ s.HasSlot id n) ∧
      (s.HasSlot id n →
        (s.writeSlot id n x).2 = { s with vectors := (s.writeSlot id n x).2.vectors } ∧
        (∀ w k, ((s.writeSlot id n x).2.items w)[k]? =
          if w = id ∧ k = n.toInt.toNat then some x else (s.items w)[k]?) ∧
        ∀ w j, (s.writeSlot id n x).2.readSlot w j =
          if w = id ∧ j = n then .ok x else s.readSlot w j) ∧
      (¬ s.HasSlot id n →
        s.writeSlot id n x = (.error (.failed (.index n (s.items id).size)), s))) ∧
    (∀ (m : Machine) (depth : Nat) (scope : FrameId) (task : Task),
      s.KeepsVectors Array.size (task.action m depth scope s).2) ∧
    (∀ i j : Interpreter, i.Leads j → i.store.KeepsVectors Array.size j.store) ∧
    (∀ (m : Machine) (body : Procedure) (args : List Value),
      ¬ (body = .primitive .vectorSlot ∧ args.length = 3) →
        s.KeepsVectors id (m.run body args s).2) ∧
    (∀ (p : Primitive) (args : List Value) (v : Value) (t : Store),
      p = .makeVector ∨ p = .copyVector → p.run args s = (.ok v, t) →
        ∃ new, v = .vector new ∧ ¬ s.HasVector new ∧ t.HasVector new ∧ s.KeepsVectors id t ∧
          ∀ (u : Store) (n : Int64) (x : Value) (w : VectorId), s.HasVector w →
            (u.writeSlot new n x).2.items w = u.items w ∧
            ∀ j, (u.writeSlot new n x).2.readSlot w j = u.readSlot w j) := by
  refine ⟨fun id n x => ⟨⟨fun hok => ?_, fun hslot => ?_⟩, fun hslot => ?_, fun hslot => ?_⟩,
    fun m depth scope task => m.congruence_keepsLengths.task depth scope task s,
    fun i j hij => hij.keepsLengths, fun m body args hcall => m.run_keepsItems hcall s,
    fun p args v t hp hrun => ?_⟩
  · by_contra hslot
    rw [Store.writeSlot_of_not_hasSlot hslot] at hok
    cases hok
  · rw [Store.writeSlot_of_hasSlot hslot]
  · rw [Store.writeSlot_of_hasSlot hslot]
    exact ⟨rfl, Store.getElem?_items_setItem hslot x, Store.readSlot_setItem hslot x⟩
  · exact Store.writeSlot_of_not_hasSlot hslot x
  · obtain ⟨new, rfl, hnew, hthere, hkept⟩ := run_allocates hp hrun
    refine ⟨new, rfl, hnew, hthere, hkept, fun u n x w hw => ?_⟩
    have hne : w ≠ new := fun h => hnew (h ▸ hw)
    have hitems := Store.items_writeSlot_of_ne (s := u) hne n x
    exact ⟨hitems, Store.readSlot_congr hitems⟩

end Vector

end Lisplet
