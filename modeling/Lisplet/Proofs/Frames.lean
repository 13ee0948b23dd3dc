import Lisplet.Proofs.Locality

/-! Which frames evaluation changes. It binds names in the frame it runs in and in frames of its
own making; every other frame keeps its bindings, and all keep the frames around them. -/
namespace Lisplet

namespace Store

theorem bindings_congr {s t : Store} (h : t.frames = s.frames) (f : FrameId) :
    t.bindings f = s.bindings f := by
  simp only [bindings, h]

theorem chain_congr {s t : Store} (h : t.frames = s.frames) (f : FrameId) :
    t.chain f = s.chain f := by
  simp only [chain, h]

theorem bindings_pushFrame_of_ne {s : Store} {f : FrameId} (outer : Option FrameId) (b : Bindings)
    (h : f.index ≠ s.frames.size) : (s.pushFrame outer b).2.bindings f = s.bindings f := by
  simp [bindings, pushFrame, Array.getElem?_push, h]

theorem bindings_pushFrame_of_lt {s : Store} {f : FrameId} (outer : Option FrameId) (b : Bindings)
    (h : f.index < s.frames.size) : (s.pushFrame outer b).2.bindings f = s.bindings f :=
  bindings_pushFrame_of_ne outer b (Nat.ne_of_lt h)

theorem chain_pushFrame_of_ne {s : Store} {f : FrameId} (outer : Option FrameId) (b : Bindings)
    (h : f.index ≠ s.frames.size) : (s.pushFrame outer b).2.chain f = s.chain f := by
  simp [chain, pushFrame, Array.getElem?_push, h]

theorem chain_pushFrame_of_lt {s : Store} {f : FrameId} (outer : Option FrameId) (b : Bindings)
    (h : f.index < s.frames.size) : (s.pushFrame outer b).2.chain f = s.chain f :=
  chain_pushFrame_of_ne outer b (Nat.ne_of_lt h)

@[simp] theorem bindings_pushFrame_self (s : Store) (outer : Option FrameId) (b : Bindings) :
    (s.pushFrame outer b).2.bindings (s.pushFrame outer b).1 = b := by
  simp [bindings, pushFrame]

@[simp] theorem size_frames_pushFrame (s : Store) (outer : Option FrameId) (b : Bindings) :
    (s.pushFrame outer b).2.frames.size = s.frames.size + 1 := by
  simp [pushFrame]

@[simp] theorem index_pushFrame (s : Store) (outer : Option FrameId) (b : Bindings) :
    (s.pushFrame outer b).1.index = s.frames.size := rfl

@[simp] theorem chain_bind (s : Store) (f g : FrameId) (name : String) (value : Value) :
    (s.bind f name value).chain g = s.chain g := by
  simp only [chain, bind, Array.getElem?_modify]
  by_cases h : f.index = g.index
  · cases s.frames[g.index]? <;> simp [h]
  · simp [h]

theorem bindings_bind_self (s : Store) (f : FrameId) (name : String) (value : Value)
    (h : f.index < s.frames.size) :
    (s.bind f name value).bindings f = (s.bindings f).insert name value := by
  simp [bindings, bind, Array.getElem_modify, h]

@[simp] theorem frames_nameValue (s : Store) (name : String) (value : Value) :
    (s.nameValue name value).frames = s.frames := by
  cases value <;> rfl

@[simp] theorem size_closures_nameValue (s : Store) (name : String) (value : Value) :
    (s.nameValue name value).closures.size = s.closures.size := by
  cases value with
  | closure id => simp [nameValue, nameClosure]
  | _ => rfl

/-- To name a value changes no more than the naming of a closure that has none. -/
theorem getElem?_closures_nameValue {s : Store} {name : String} {value : Value} {i : Nat}
    {c : Closure} (h : (s.nameValue name value).closures[i]? = some c) :
    ∃ old, s.closures[i]? = some old ∧
      (c = old ∨ c = { old with naming := some ⟨name, loopsOver name old.params old.body⟩ }) := by
  cases value with
  | closure id =>
    simp only [nameValue, nameClosure, Array.getElem?_modify] at h
    split at h
    · obtain ⟨old, hold, rfl⟩ := Option.map_eq_some_iff.mp h
      refine ⟨old, hold, ?_⟩
      split
      · exact .inl rfl
      · exact .inr rfl
    · exact ⟨c, h, .inl rfl⟩
  | _ => exact ⟨c, h, .inl rfl⟩

def Binds (s : Store) (f : FrameId) (name : String) : Prop := ((s.bindings f).find? name).isSome

theorem Binds.lt {s : Store} {f : FrameId} {name : String} (h : s.Binds f name) :
    f.index < s.frames.size := by
  by_contra hge
  have hempty : s.bindings f = .empty := by simp [bindings, hge]
  simp [Binds, hempty, Bindings.empty, Bindings.find?] at h

theorem lt_of_find?_bindings {s : Store} {f : FrameId} {name : String} {v : Value}
    (h : (s.bindings f).find? name = some v) : f.index < s.frames.size :=
  Binds.lt (Option.isSome_of_mem h)

theorem Binds.bind {s : Store} {f : FrameId} {name : String} (h : s.Binds f name) (g : FrameId)
    (other : String) (value : Value) : (s.bind g other value).Binds f name := by
  unfold Binds
  by_cases hg : g = f
  · subst hg
    rw [bindings_bind_self s g other value h.lt]
    by_cases hn : other = name
    · simp [hn]
    · rw [Bindings.find?_insert_of_ne value _ hn]
      exact h
  · rw [bindings_bind_of_ne s other value hg]
    exact h

/-- What becomes of the frames of `s` on the way to `t`: they keep the frames around them and the
names they bind, and those that are not `writable` keep their bindings. -/
structure Retains (writable : FrameId → Prop) (s t : Store) : Prop where
  size_le : s.frames.size ≤ t.frames.size
  chain : ∀ f, f.index < s.frames.size → t.chain f = s.chain f
  bindings : ∀ f, f.index < s.frames.size → ¬ writable f → t.bindings f = s.bindings f
  binds : ∀ f name, f.index < s.frames.size → s.Binds f name → t.Binds f name

namespace Retains

variable {writable : FrameId → Prop} {s t : Store}

theorem refl (writable : FrameId → Prop) (s : Store) : Retains writable s s :=
  ⟨Nat.le_refl _, fun _ _ => rfl, fun _ _ _ => rfl, fun _ _ _ h => h⟩

theorem of_frames (h : Retains writable s t) {t' : Store} (ht : t'.frames = t.frames) :
    Retains writable s t' where
  size_le := ht ▸ h.size_le
  chain f hf := (chain_congr ht f).trans (h.chain f hf)
  bindings f hf hw := (bindings_congr ht f).trans (h.bindings f hf hw)
  binds f name hf hb := by
    unfold Binds
    rw [bindings_congr ht]
    exact h.binds f name hf hb

/-- A frame in which names may be bound: a writable one, or one that did not exist at the start. -/
def Open (writable : FrameId → Prop) (s : Store) (f : FrameId) : Prop :=
  writable f ∨ s.frames.size ≤ f.index

theorem trans (h : Retains writable s t) {writable' : FrameId → Prop} {u : Store}
    (h' : Retains writable' t u) (hopen : ∀ f, writable' f → Open writable s f) :
    Retains writable s u where
  size_le := Nat.le_trans h.size_le h'.size_le
  chain f hf := (h'.chain f (Nat.lt_of_lt_of_le hf h.size_le)).trans (h.chain f hf)
  bindings f hf hw := by
    have hw' : ¬ writable' f := fun hf' => (hopen f hf').elim hw (by omega)
    exact (h'.bindings f (Nat.lt_of_lt_of_le hf h.size_le) hw').trans (h.bindings f hf hw)
  binds f name hf hb := h'.binds f name (Nat.lt_of_lt_of_le hf h.size_le) (h.binds f name hf hb)

theorem pushFrame (h : Retains writable s t) (outer : Option FrameId) (b : Bindings) :
    Retains writable s (t.pushFrame outer b).2 where
  size_le := by
    rw [size_frames_pushFrame]
    exact Nat.le_succ_of_le h.size_le
  chain f hf := by
    rw [chain_pushFrame_of_lt outer b (Nat.lt_of_lt_of_le hf h.size_le)]
    exact h.chain f hf
  bindings f hf hw := by
    rw [bindings_pushFrame_of_lt outer b (Nat.lt_of_lt_of_le hf h.size_le)]
    exact h.bindings f hf hw
  binds f name hf hb := by
    unfold Binds
    rw [bindings_pushFrame_of_lt outer b (Nat.lt_of_lt_of_le hf h.size_le)]
    exact h.binds f name hf hb

theorem bind (h : Retains writable s t) {g : FrameId} (hg : Open writable s g) (name : String)
    (value : Value) : Retains writable s (t.bind g name value) where
  size_le := by
    rw [size_frames_bind]
    exact h.size_le
  chain f hf := by
    rw [chain_bind]
    exact h.chain f hf
  bindings f hf hw := by
    have hne : g ≠ f := by
      rintro rfl
      rcases hg with hg | hg
      · exact hw hg
      · omega
    rw [bindings_bind_of_ne t name value hne]
    exact h.bindings f hf hw
  binds f x hf hb := (h.binds f x hf hb).bind g name value

/-- Frames in which nothing may be bound answer as before. -/
theorem find?_eq (h : Retains writable s t) {frames : List FrameId}
    (hframes : ∀ f ∈ frames, f.index < s.frames.size ∧ ¬ writable f) (name : String) :
    t.find? name frames = s.find? name frames := by
  induction frames with
  | nil => rfl
  | cons f rest ih =>
    rw [List.forall_mem_cons] at hframes
    rw [find?, find?, h.bindings f hframes.1.1 hframes.1.2, ih hframes.2]

end Retains

end Store

namespace Store

def bindAll (s : Store) (f : FrameId) (entries : List (String × Value)) : Store :=
  entries.foldl (fun s (name, value) => s.bind f name value) s

theorem chain_eq_cons (s : Store) (f : FrameId) : ∃ outer, s.chain f = f :: outer := by
  unfold chain
  split <;> exact ⟨_, rfl⟩

theorem Retains.find?_chain {s t : Store} (h : Retains (fun _ => False) s t) {f : FrameId}
    (hlt : ∀ g ∈ s.chain f, g.index < s.frames.size) (name : String) :
    t.find? name (t.chain f) = s.find? name (s.chain f) := by
  obtain ⟨outer, ho⟩ := s.chain_eq_cons f
  have hf : f.index < s.frames.size := hlt f (ho ▸ List.mem_cons_self)
  rw [h.chain f hf]
  exact h.find?_eq (fun g hg => ⟨hlt g hg, not_false⟩) name

/-- A new frame comes before the frames around it. -/
theorem find?_pushFrame (s : Store) {f : FrameId} (b : Bindings)
    (hlt : ∀ g ∈ s.chain f, g.index < s.frames.size) (x : String) :
    (s.pushFrame (some f) b).2.find? x
      ((s.pushFrame (some f) b).2.chain (s.pushFrame (some f) b).1) =
        (b.find? x).or (s.find? x (s.chain f)) := by
  have hkept : Retains (fun _ => False) s (s.pushFrame (some f) b).2 :=
    (Retains.refl _ s).pushFrame _ _
  obtain ⟨outer, ho⟩ := s.chain_eq_cons f
  have hf : f.index < s.frames.size := hlt f (ho ▸ List.mem_cons_self)
  rw [← hkept.find?_chain hlt, chain_pushFrame, hkept.chain f hf, find?, bindings_pushFrame_self]
  cases b.find? x <;> rfl

theorem frameOf?_chain_of_binds {s : Store} {f : FrameId} {name : String} (h : s.Binds f name) :
    s.frameOf? name (s.chain f) = some f := by
  obtain ⟨outer, ho⟩ := s.chain_eq_cons f
  rw [ho, frameOf?]
  exact if_pos h

@[simp] theorem size_frames_bindAll (s : Store) (f : FrameId) (entries : List (String × Value)) :
    (s.bindAll f entries).frames.size = s.frames.size := by
  induction entries generalizing s with
  | nil => rfl
  | cons entry entries ih => exact (ih _).trans (size_frames_bind s f entry.1 entry.2)

theorem Binds.bindAll {s : Store} {f : FrameId} {name : String} (h : s.Binds f name) (g : FrameId)
    (entries : List (String × Value)) : (s.bindAll g entries).Binds f name := by
  induction entries generalizing s with
  | nil => exact h
  | cons entry entries ih => exact ih (h.bind g entry.1 entry.2)

theorem Retains.bindAll {writable : FrameId → Prop} {s t : Store} (h : Retains writable s t)
    {f : FrameId} (hf : Retains.Open writable s f) (entries : List (String × Value)) :
    Retains writable s (t.bindAll f entries) := by
  induction entries generalizing t with
  | nil => exact h
  | cons entry entries ih => exact ih (h.bind hf entry.1 entry.2)

end Store

namespace Bindings

def insertAll (b : Bindings) (entries : List (String × Value)) : Bindings :=
  entries.foldl (fun b (name, value) => b.insert name value) b

theorem ofLists_eq_insertAll (names : List String) (values : List Value) :
    ofLists names values = empty.insertAll (names.zip values) := rfl

/-- Of the values that a name is given, the last counts. -/
theorem find?_insertAll (b : Bindings) (entries : List (String × Value)) (name : String) :
    (b.insertAll entries).find? name = (entries.reverse.lookup name).or (b.find? name) := by
  induction entries generalizing b with
  | nil => rfl
  | cons entry entries ih =>
    obtain ⟨key, value⟩ := entry
    refine (ih (b.insert key value)).trans ?_
    rw [List.reverse_cons, List.lookup_append, Option.or_assoc]
    congr 1
    by_cases hkey : key = name
    · subst hkey
      simp
    · rw [find?_insert_of_ne value b hkey]
      simp [List.lookup_cons, beq_false_of_ne (Ne.symm hkey)]

theorem find?_insertAll_isSome_iff {name : String} {entries : List (String × Value)}
    {b : Bindings} : ((b.insertAll entries).find? name).isSome ↔
      name ∈ entries.map Prod.fst ∨ (b.find? name).isSome := by
  rw [find?_insertAll, Option.isSome_or, Bool.or_eq_true, List.lookup_isSome_iff]
  simp

/-- Names for which there are enough values are all bound. -/
theorem find?_ofLists_isSome {names : List String} {values : List Value}
    (h : names.length ≤ values.length) {name : String} (hn : name ∈ names) :
    ((ofLists names values).find? name).isSome := by
  apply find?_insertAll_isSome_iff.mpr
  rw [List.map_fst_zip h]
  exact .inl hn

theorem mem_of_find?_insertAll {name : String} {v : Value} {entries : List (String × Value)}
    {b : Bindings} (h : (b.insertAll entries).find? name = some v) :
    (name, v) ∈ entries ∨ b.find? name = some v := by
  rw [find?_insertAll, Option.or_eq_some_iff] at h
  refine h.imp (fun h => ?_) And.right
  obtain ⟨before, after, hentries, -⟩ := List.lookup_eq_some_iff.mp h
  rw [← List.mem_reverse, hentries]
  simp

theorem mem_of_find?_ofLists {names : List String} {values : List Value} {name : String}
    {v : Value} (h : (ofLists names values).find? name = some v) : name ∈ names ∧ v ∈ values := by
  rcases mem_of_find?_insertAll h with h | h
  · exact List.of_mem_zip h
  · cases h

end Bindings

end Lisplet
