import Mathlib.Data.List.Basic
import Lisplet.Interpreter
import Lisplet.Proofs.Comparison.Order
import Lisplet.Proofs.Frames

/-! Looking names up. The value of a name, the frame that binds it and the list of all bindings are
found in three ways that agree with each other, whatever the frames hide of each other. -/
namespace Lisplet

namespace Bindings

def entries (b : Bindings) : List (String × Value) := b

/-- The entries are in the order of the bytes of their names, and no name has two. -/
def Sorted (b : Bindings) : Prop :=
  b.entries.Pairwise fun x y => Text.encode x.1.toList < Text.encode y.1.toList

theorem find?_insertSorted_self (name : String) (value : Value) (b : Bindings) :
    (b.insertSorted name value).find? name = some value := by
  induction b with
  | nil => simp [insertSorted, find?]
  | cons entry rest ih =>
    obtain ⟨key, old⟩ := entry
    by_cases hlt : name < key
    · simp [insertSorted, find?, hlt]
    · by_cases hkey : key = name <;> simp [insertSorted, find?, hlt, hkey, ih]

theorem find?_insertSorted_of_ne {name other : String} (value : Value) (b : Bindings)
    (h : name ≠ other) : (b.insertSorted name value).find? other = b.find? other := by
  induction b with
  | nil => simp [insertSorted, find?, h]
  | cons entry rest ih =>
    obtain ⟨key, old⟩ := entry
    by_cases hlt : name < key
    · simp [insertSorted, find?, hlt, h]
    · by_cases hkey : key = name
      · simp [insertSorted, find?, hkey, h]
      · simp [insertSorted, find?, hlt, hkey, ih]

/-- A name that is laid over others hides them. -/
theorem find?_overlay (lower upper : Bindings) (name : String) :
    (lower.overlay upper).find? name = (upper.find? name).or (lower.find? name) := by
  induction upper with
  | nil => rfl
  | cons entry rest ih =>
    obtain ⟨key, value⟩ := entry
    change ((overlay lower rest).insertSorted key value).find? name = _
    by_cases hkey : key = name
    · subst hkey
      rw [find?_insertSorted_self, find?, if_pos rfl, Option.some_or]
    · rw [find?_insertSorted_of_ne value _ hkey, ih, find?, if_neg hkey]

theorem mem_insertSorted {name : String} {value : Value} {b : Bindings} {entry : String × Value}
    (h : entry ∈ (b.insertSorted name value).entries) :
    entry = (name, value) ∨ entry ∈ b.entries := by
  induction b with
  | nil => exact .inl (List.mem_singleton.mp h)
  | cons first rest ih =>
    obtain ⟨key, old⟩ := first
    by_cases hlt : name < key
    · simp only [insertSorted, hlt, ↓reduceIte] at h
      exact List.mem_cons.mp h
    · by_cases hkey : key = name
      · subst hkey
        simp only [insertSorted, hlt, ↓reduceIte] at h
        exact (List.mem_cons.mp h).imp_right (List.mem_cons_of_mem _)
      · simp only [insertSorted, hlt, hkey, ↓reduceIte] at h
        rcases List.mem_cons.mp h with rfl | h
        · exact .inr List.mem_cons_self
        · exact (ih h).imp_right (List.mem_cons_of_mem _)

/-- A binding is put where its name belongs. -/
theorem Sorted.insertSorted {b : Bindings} (h : b.Sorted) (name : String) (value : Value) :
    (b.insertSorted name value).Sorted := by
  induction b with
  | nil => exact List.pairwise_singleton _ _
  | cons first rest ih =>
    obtain ⟨key, old⟩ := first
    obtain ⟨hfirst, hrest⟩ := List.pairwise_cons.mp h
    by_cases hlt : name < key
    · have hname := Text.encode_lt hlt
      simp only [Bindings.insertSorted, hlt, ↓reduceIte]
      refine List.pairwise_cons.mpr ⟨List.forall_mem_cons.mpr ⟨hname, fun entry hentry => ?_⟩, h⟩
      exact List.lt_trans hname (hfirst entry hentry)
    · by_cases hkey : key = name
      · subst hkey
        simp only [Bindings.insertSorted, hlt, ↓reduceIte]
        exact List.pairwise_cons.mpr ⟨hfirst, hrest⟩
      · simp only [Bindings.insertSorted, hlt, hkey, ↓reduceIte]
        refine List.pairwise_cons.mpr ⟨fun entry hentry => ?_, ih hrest⟩
        rcases mem_insertSorted hentry with rfl | hentry
        · rcases Comparison.string_trichotomy name key with hless | rfl | hmore
          · exact absurd hless hlt
          · exact absurd rfl hkey
          · exact Text.encode_lt hmore
        · exact hfirst entry hentry

theorem Sorted.overlay {lower : Bindings} (h : lower.Sorted) (upper : Bindings) :
    (lower.overlay upper).Sorted := by
  induction upper with
  | nil => exact h
  | cons entry rest ih => exact ih.insertSorted entry.1 entry.2

/-- Sorted bindings hold just what is found in them. -/
theorem Sorted.mem_iff {b : Bindings} (h : b.Sorted) {name : String} {value : Value} :
    (name, value) ∈ b.entries ↔ b.find? name = some value := by
  induction b with
  | nil => exact ⟨nofun, nofun⟩
  | cons first rest ih =>
    obtain ⟨key, old⟩ := first
    obtain ⟨hfirst, hrest⟩ := List.pairwise_cons.mp h
    have hmem : (name, value) ∈ ((key, old) :: rest : List (String × Value)) ↔
        (name = key ∧ value = old) ∨ (name, value) ∈ entries rest := by
      rw [List.mem_cons, Prod.mk.injEq]
      rfl
    refine hmem.trans ?_
    rw [ih hrest, find?]
    by_cases hkey : key = name
    · subst hkey
      -- No later entry has the name of the first.
      have hnone : find? key rest ≠ some value := fun hfind =>
        List.lt_irrefl _ (hfirst (key, value) ((ih hrest).mpr hfind))
      simp [hnone, eq_comm]
    · simp [hkey, Ne.symm hkey]

end Bindings

namespace Store

variable {s t : Store}

/-- The frame of a name is the innermost that binds it. -/
theorem frameOf?_eq_some_iff {name : String} {fs : List FrameId} {f : FrameId} :
    s.frameOf? name fs = some f ↔ ∃ inner outer, fs = inner ++ f :: outer ∧ s.Binds f name ∧
      ∀ g ∈ inner, ¬ s.Binds g name := by
  induction fs with
  | nil => simp [frameOf?]
  | cons g fs ih =>
    by_cases hg : s.Binds g name
    · have hfound : s.frameOf? name (g :: fs) = some g := if_pos hg
      rw [hfound]
      constructor
      · intro h
        cases h
        exact ⟨[], fs, rfl, hg, List.forall_mem_nil _⟩
      · rintro ⟨inner, outer, heq, -, hinner⟩
        cases inner with
        | nil => rw [(List.cons.inj heq).1]
        | cons g' inner =>
          obtain ⟨rfl, -⟩ := List.cons.inj heq
          exact absurd hg (hinner g List.mem_cons_self)
    · have hskip : s.frameOf? name (g :: fs) = s.frameOf? name fs := if_neg hg
      rw [hskip, ih]
      constructor
      · rintro ⟨inner, outer, rfl, hf, hinner⟩
        exact ⟨g :: inner, outer, rfl, hf, List.forall_mem_cons.mpr ⟨hg, hinner⟩⟩
      · rintro ⟨inner, outer, heq, hf, hinner⟩
        cases inner with
        | nil =>
          obtain ⟨rfl, -⟩ := List.cons.inj heq
          exact absurd hf hg
        | cons g' inner =>
          obtain ⟨rfl, rfl⟩ := List.cons.inj heq
          exact ⟨inner, outer, rfl, hf, (List.forall_mem_cons.mp hinner).2⟩

/-- The value of a name is that of its frame. -/
theorem find?_eq_bind (s : Store) (name : String) (fs : List FrameId) :
    s.find? name fs = (s.frameOf? name fs).bind fun f => (s.bindings f).find? name := by
  induction fs with
  | nil => rfl
  | cons f fs ih =>
    rw [find?, frameOf?, ih]
    cases h : (s.bindings f).find? name with
    | none => simp
    | some value => simp [h]

theorem frameOf?_congr {fs : List FrameId} (h : ∀ f ∈ fs, t.bindings f = s.bindings f)
    (name : String) : t.frameOf? name fs = s.frameOf? name fs := by
  induction fs with
  | nil => rfl
  | cons f fs ih =>
    rw [List.forall_mem_cons] at h
    rw [frameOf?, frameOf?, h.1, ih h.2]

/-- Laid over each other from the outside in, the bindings of frames hold what is found in the
frames from the inside out. -/
theorem find?_overlay_frames (s : Store) (base : Bindings) (fs : List FrameId) (name : String) :
    (fs.foldr (fun f b => b.overlay (s.bindings f)) base).find? name =
      (s.find? name fs).or (base.find? name) := by
  induction fs with
  | nil => rfl
  | cons f fs ih =>
    rw [List.foldr_cons, Bindings.find?_overlay, ih, find?]
    cases (s.bindings f).find? name <;> rfl

end Store

namespace Interpreter

def withGlobals (i : Interpreter) (globals : Bindings) : Interpreter :=
  { i with machine := { i.machine with globals } }

variable (i : Interpreter)

theorem lookup_eq (name : String) : i.lookup name =
    (i.machine.find? i.store i.scope name).elim (.error (.unbound name)) .ok := by
  unfold lookup
  cases i.machine.find? i.store i.scope name <;> rfl

theorem lookup_eq_ok_iff {name : String} {v : Value} :
    i.lookup name = .ok v ↔ i.machine.find? i.store i.scope name = some v := by
  rw [lookup_eq]
  cases i.machine.find? i.store i.scope name <;> simp

theorem sorted_bindings : i.bindings.Sorted := by
  have hsorted (base : Bindings) (hbase : base.Sorted) (fs : List FrameId) :
      (fs.foldr (fun f b => b.overlay (i.store.bindings f)) base).Sorted := by
    induction fs with
    | nil => exact hbase
    | cons f fs ih => exact ih.overlay _
  have hempty : Bindings.empty.Sorted := List.Pairwise.nil
  exact hsorted _ (hempty.overlay _) _

/-- All bindings are those that are found one by one. -/
theorem mem_bindings_iff {name : String} {v : Value} :
    (name, v) ∈ i.bindings.entries ↔ i.lookup name = .ok v := by
  rw [i.sorted_bindings.mem_iff, lookup_eq_ok_iff, Machine.find?, bindings,
    Store.find?_overlay_frames, Bindings.find?_overlay, chain]
  simp [Bindings.empty, Bindings.find?]

theorem lookup_of_frameOf? {name : String} {f : FrameId} (h : i.frameOf? name = some f) :
    ∃ v, (i.store.bindings f).find? name = some v ∧ i.lookup name = .ok v := by
  obtain ⟨inner, outer, -, hbinds, -⟩ := Store.frameOf?_eq_some_iff.mp h
  obtain ⟨v, hv⟩ := Option.isSome_iff_exists.mp hbinds
  refine ⟨v, hv, i.lookup_eq_ok_iff.mpr ?_⟩
  have hfind : i.store.find? name i.chain = some v := by
    rw [Store.find?_eq_bind, ← frameOf?, h]
    exact hv
  rw [Machine.find?, ← chain, hfind, Option.some_or]

/-- A name that no frame binds is one whose value is left to the global bindings. -/
theorem frameOf?_eq_none_iff {name : String} :
    i.frameOf? name = none ↔ ∀ globals, (i.withGlobals globals).lookup name =
      (globals.find? name).elim (.error (.unbound name)) .ok := by
  constructor
  · intro h globals
    have hfind : i.store.find? name i.chain = none := by
      rw [Store.find?_eq_bind, ← frameOf?, h]
      rfl
    have hglobal : (i.withGlobals globals).machine.find? i.store i.scope name =
        globals.find? name := by
      rw [Machine.find?, ← chain, hfind, Option.none_or]
      rfl
    exact (lookup_eq _ _).trans (congrArg (Option.elim · _ _) hglobal)
  · intro h
    cases hframe : i.frameOf? name with
    | none => rfl
    | some f =>
      obtain ⟨v, -, hv⟩ := (i.withGlobals .empty).lookup_of_frameOf? hframe
      cases hv.symm.trans (h .empty)

section Extended

variable {i} (names : List String) (values : List Value)

theorem chain_extend :
    (i.extend names values).chain = (i.extend names values).scope :: i.chain :=
  i.store.chain_pushFrame i.scope _

variable (i) in
theorem extend_retains :
    Store.Retains (fun _ => False) i.store (i.extend names values).store :=
  (Store.Retains.refl _ i.store).pushFrame (some i.scope) (.ofLists names values)

variable (hchain : ∀ f ∈ i.chain, f.index < i.store.frames.size)

include hchain

/-- A name that was added has the value it was given last. -/
theorem lookup_extend (name : String) : (i.extend names values).lookup name =
    ((names.zip values).reverse.lookup name).elim (i.lookup name) .ok := by
  have hfind : (i.extend names values).machine.find? (i.extend names values).store
      (i.extend names values).scope name =
        ((names.zip values).reverse.lookup name).or (i.machine.find? i.store i.scope name) := by
    rw [Machine.find?, extend, Store.find?_pushFrame i.store _ hchain,
      Bindings.ofLists_eq_insertAll, Bindings.find?_insertAll, Bindings.empty, Bindings.find?,
      Option.or_none, Option.or_assoc]
    rfl
  rw [lookup_eq, hfind, lookup_eq]
  cases (names.zip values).reverse.lookup name <;> rfl

theorem scope_extend_notMem_chain : (i.extend names values).scope ∉ i.chain := fun h =>
  Nat.lt_irrefl _ (hchain _ h)

theorem frameOf?_extend (name : String) : (i.extend names values).frameOf? name =
    if name ∈ (names.zip values).map Prod.fst then some (i.extend names values).scope
    else i.frameOf? name := by
  have hbinds : (((i.extend names values).store.bindings (i.extend names values).scope).find?
      name).isSome ↔ name ∈ (names.zip values).map Prod.fst := by
    rw [extend, Store.bindings_pushFrame_self, Bindings.ofLists_eq_insertAll,
      Bindings.find?_insertAll_isSome_iff, Bindings.empty, Bindings.find?]
    simp only [Option.isSome_none, Bool.false_eq_true, or_false]
  have houter : (i.extend names values).store.frameOf? name i.chain = i.frameOf? name :=
    Store.frameOf?_congr (fun f hf => (extend_retains i names values).bindings f (hchain f hf)
      not_false) name
  rw [frameOf?, chain_extend, Store.frameOf?, houter]
  simp only [hbinds]

theorem exists_chain_extend :
    ∀ f ∈ (i.extend names values).chain, f.index < (i.extend names values).store.frames.size := by
  have hsize : (i.extend names values).store.frames.size = i.store.frames.size + 1 :=
    Store.size_frames_pushFrame i.store (some i.scope) (.ofLists names values)
  rw [chain_extend, hsize]
  refine List.forall_mem_cons.mpr ⟨Nat.lt_succ_self _, fun f hf => ?_⟩
  exact Nat.lt_succ_of_lt (hchain f hf)

theorem mem_bindings_extend {name : String} {v : Value} :
    (name, v) ∈ (i.extend names values).bindings.entries ↔
      (names.zip values).reverse.lookup name = some v ∨
        (names.zip values).reverse.lookup name = none ∧ (name, v) ∈ i.bindings.entries := by
  rw [mem_bindings_iff, mem_bindings_iff, lookup_extend names values hchain]
  cases (names.zip values).reverse.lookup name <;> simp

/-- To leave the frame that was added is to stand where one stood. -/
theorem pop_extend :
    (i.extend names values).pop = { i.extend names values with scope := i.scope } ∧
      (i.extend names values).pop.chain = i.chain := by
  obtain ⟨outer, ho⟩ := i.store.chain_eq_cons i.scope
  have hscope : i.scope.index < i.store.frames.size :=
    hchain _ (List.mem_of_mem_head? (congrArg List.head? ho))
  have hpop : (i.extend names values).pop = { i.extend names values with scope := i.scope } := by
    rw [pop, chain_extend, chain, ho]
  rw [hpop]
  exact ⟨rfl, (extend_retains i names values).chain i.scope hscope⟩

theorem lookup_pop_extend (name : String) :
    (i.extend names values).pop.lookup name = i.lookup name := by
  obtain ⟨hpop, -⟩ := pop_extend names values hchain
  rw [hpop, lookup_eq, lookup_eq]
  refine congrArg (Option.elim · _ _) ?_
  exact congrArg (Option.or · _) ((extend_retains i names values).find?_chain hchain name)

theorem frameOf?_pop_extend (name : String) :
    (i.extend names values).pop.frameOf? name = i.frameOf? name := by
  obtain ⟨hpop, hpopped⟩ := pop_extend names values hchain
  rw [frameOf?, hpopped, hpop]
  exact Store.frameOf?_congr (fun f hf => (extend_retains i names values).bindings f (hchain f hf)
    not_false) name

theorem bindings_pop_extend : (i.extend names values).pop.bindings = i.bindings := by
  obtain ⟨hpop, hpopped⟩ := pop_extend names values hchain
  rw [bindings, hpopped, hpop]
  refine List.foldr_ext _ _ _ fun f hf b => ?_
  exact congrArg _ ((extend_retains i names values).bindings f (hchain f hf) not_false)

end Extended

/-- The ways to search an interpreter agree. All its bindings, in the order of the bytes of their
names, are those that names are found to have; the frame of a name is the innermost that binds it,
and its value is the one bound there; a name without a frame is left to the global bindings. In a
new frame the last value given to a name comes before all the old answers, which are back when the
frame is left. -/
theorem searches_agree :
    (∀ name v, (name, v) ∈ i.bindings.entries ↔ i.lookup name = .ok v) ∧
    i.bindings.Sorted ∧
    (∀ name f, i.frameOf? name = some f ↔ ∃ inner outer, i.chain = inner ++ f :: outer ∧
      i.store.Binds f name ∧ ∀ g ∈ inner, ¬ i.store.Binds g name) ∧
    (∀ name f, i.frameOf? name = some f →
      ∃ v, (i.store.bindings f).find? name = some v ∧ i.lookup name = .ok v) ∧
    (∀ name, i.frameOf? name = none ↔ ∀ globals, (i.withGlobals globals).lookup name =
      (globals.find? name).elim (.error (.unbound name)) .ok) ∧
    ((∀ f ∈ i.chain, f.index < i.store.frames.size) → ∀ names values,
      let added := names.zip values
      let j := i.extend names values
      (∀ name, j.lookup name = (added.reverse.lookup name).elim (i.lookup name) .ok) ∧
      (∀ name v, (name, v) ∈ j.bindings.entries ↔ added.reverse.lookup name = some v ∨
        added.reverse.lookup name = none ∧ (name, v) ∈ i.bindings.entries) ∧
      (∀ name, j.frameOf? name =
        if name ∈ added.map Prod.fst then some j.scope else i.frameOf? name) ∧
      j.scope ∉ i.chain ∧ (∀ f ∈ j.chain, f.index < j.store.frames.size) ∧
      (∀ name, j.pop.lookup name = i.lookup name) ∧
      (∀ name, j.pop.frameOf? name = i.frameOf? name) ∧
      j.pop.bindings = i.bindings ∧ j.pop.chain = i.chain) := by
  refine ⟨fun _ _ => i.mem_bindings_iff, i.sorted_bindings,
    fun _ _ => Store.frameOf?_eq_some_iff, fun _ _ => i.lookup_of_frameOf?,
    fun _ => i.frameOf?_eq_none_iff, fun hchain names values => ?_⟩
  exact ⟨lookup_extend names values hchain, fun _ _ => mem_bindings_extend names values hchain,
    frameOf?_extend names values hchain, scope_extend_notMem_chain names values hchain,
    exists_chain_extend names values hchain, lookup_pop_extend names values hchain,
    frameOf?_pop_extend names values hchain, bindings_pop_extend names values hchain,
    (pop_extend names values hchain).2⟩

theorem searches_agree_shadowed :
    let i := (bare []).extend ["a", "b", "a"] [.integer 1, .integer 2, .integer 3, .integer 4]
    (∀ f ∈ (bare []).chain, f.index < (bare []).store.frames.size) ∧
      i.lookup "a" = .ok (.integer 3) ∧ i.frameOf? "b" = some ⟨1⟩ ∧
      i.pop.lookup "a" = .error (.unbound "a") := by
  intro i
  have hchain : ∀ f ∈ (bare []).chain, f.index < (bare []).store.frames.size := by decide
  obtain ⟨-, -, -, -, -, hextend⟩ := searches_agree (bare [])
  obtain ⟨hlookup, -, hframe, -, -, hpop, -⟩ :=
    hextend hchain ["a", "b", "a"] [.integer 1, .integer 2, .integer 3, .integer 4]
  exact ⟨hchain, hlookup "a", hframe "b", hpop "a"⟩

end Interpreter

end Lisplet
