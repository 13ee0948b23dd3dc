import Lisplet.Primitive.Run
import Lisplet.Proofs.Comparison.Order
import Mathlib.Data.List.Chain

/-! Chained comparison. A call tells whether all neighbours are related, and refuses operands that
are not of one ordered kind. It stops at the first neighbours that are not related, so that it does
not find out about operands of another kind behind them. -/
namespace Lisplet

namespace Relation

def Under {α : Type} (lt : α → α → Prop) : Relation → α → α → Prop
  | equal, a, b => a = b
  | less, a, b => lt a b
  | lessOrEqual, a, b => ¬ lt b a
  | greater, a, b => lt b a
  | greaterOrEqual, a, b => ¬ lt a b

def OnFloats : Relation → Float → Float → Prop
  | equal, x, y => (x == y) = true
  | less, x, y => x < y
  | lessOrEqual, x, y => x ≤ y
  | greater, x, y => y < x
  | greaterOrEqual, x, y => y ≤ x

def bytes (t : String) : List UInt8 := t.toUTF8.data.toList

/-- The relation on values: two integers by size, two floats, or two strings by their bytes. -/
inductive Relates (relation : Relation) : Value → Value → Prop
  | integers {a b : Int64} (h : relation.Under (· < ·) a.toInt b.toInt) :
    Relates relation (.integer a) (.integer b)
  | floats {x y : Float} (h : relation.OnFloats x y) : Relates relation (.float x) (.float y)
  | strings {a b : String} (h : relation.Under (· < ·) (bytes a) (bytes b)) :
    Relates relation (.string a) (.string b)

theorem holds_iff_under {α : Type} {lt : α → α → Prop} {a b : α} {o : Ordering}
    (hlt : o = .lt ↔ lt a b) (heq : o = .eq ↔ a = b) (hgt : o = .gt ↔ lt b a)
    (relation : Relation) : relation.holds (some o) = true ↔ relation.Under lt a b := by
  cases relation with
  | equal => simp [holds, Under, ← heq]
  | less => simp [holds, Under, ← hlt]
  | lessOrEqual => simp [holds, Under, ← hgt]
  | greater => simp [holds, Under, ← hgt]
  | greaterOrEqual => simp [holds, Under, ← hlt]

theorem holds_integers (relation : Relation) (a b : Int64) :
    relation.holds (some (Ord.compare a.toInt b.toInt)) = true ↔
      relation.Under (· < ·) a.toInt b.toInt :=
  holds_iff_under Int.compare_eq_lt Int.compare_eq_eq Int.compare_eq_gt relation

theorem holds_strings (relation : Relation) (a b : String) :
    relation.holds (some (Comparison.orderStrings a b)) = true ↔
      relation.Under (· < ·) (bytes a) (bytes b) := by
  have hbytes (t : String) : bytes t = Text.encode t.toList := Text.encode_toList t
  have hlt (a b : String) : bytes a < bytes b ↔ a < b := by
    rw [hbytes, hbytes, ← Text.lt_iff_encode_lt, String.lt_iff]
  have heq : bytes a = bytes b ↔ a = b := by
    rw [hbytes, hbytes, Text.encode_inj, String.toList_inj]
  refine holds_iff_under ?_ ?_ ?_ relation
  · rw [Comparison.orderStrings_eq_lt_iff, hlt]
  · rw [Comparison.orderStrings_eq_eq_iff, heq]
  · rw [Comparison.orderStrings_eq_gt_iff, hlt]

theorem holds_floats (relation : Relation) (x y : Float) :
    relation.holds (Comparison.orderFloats x y) = true ↔ relation.OnFloats x y := by
  rw [Comparison.orderFloats_eq]
  cases relation with
  | equal =>
    rw [OnFloats, Comparison.float_beq_iff]
    cases Comparison.compareFloats x y <;> simp [holds]
  | less =>
    rw [OnFloats, Comparison.float_lt_iff]
    cases Comparison.compareFloats x y <;> simp [holds]
  | lessOrEqual =>
    rw [OnFloats, Comparison.float_le_iff]
    rcases Comparison.compareFloats x y with _ | (_ | _ | _) <;> simp [holds]
  | greater =>
    rw [OnFloats, Comparison.float_gt_iff]
    cases Comparison.compareFloats x y <;> simp [holds]
  | greaterOrEqual =>
    rw [OnFloats, Comparison.float_ge_iff]
    rcases Comparison.compareFloats x y with _ | (_ | _ | _) <;> simp [holds]

/-- What is no number is related to nothing. -/
theorem not_relates_of_isNaN (relation : Relation) {x y : Float} (h : x.isNaN ∨ y.isNaN) :
    ¬ relation.Relates (.float x) (.float y) := by
  rintro (_ | hrel | _)
  have hholds := (relation.holds_floats x y).mpr hrel
  rw [Comparison.orderFloats_eq, Comparison.compareFloats_of_isNaN h] at hholds
  cases relation <;> cases hholds

end Relation

namespace Comparison

/-- Values that are all integers, all floats or all strings. -/
def Uniform (vs : List Value) : Prop :=
  (∀ v ∈ vs, ∃ n, v = .integer n) ∨ (∀ v ∈ vs, ∃ x, v = .float x) ∨ ∀ v ∈ vs, ∃ t, v = .string t

theorem Uniform.of_subset {vs ws : List Value} (h : Uniform ws) (hsub : ∀ v ∈ vs, v ∈ ws) :
    Uniform vs := by
  rcases h with h | h | h
  · exact .inl fun v hv => h v (hsub v hv)
  · exact .inr (.inl fun v hv => h v (hsub v hv))
  · exact .inr (.inr fun v hv => h v (hsub v hv))

/-- A value in front of values of one kind is of that kind if the first of them is. -/
theorem Uniform.cons {a b : Value} {vs : List Value} (hab : Uniform [a, b])
    (h : Uniform (b :: vs)) : Uniform (a :: b :: vs) := by
  have hb : b ∈ b :: vs := List.mem_cons_self
  have hb' : b ∈ [a, b] := List.mem_cons_of_mem a List.mem_cons_self
  rcases h with h | h | h <;> obtain ⟨_, rfl⟩ := h b hb <;> rcases hab with hab | hab | hab
  all_goals first | cases (hab _ hb').choose_spec | skip
  · exact .inl (List.forall_mem_cons.mpr ⟨hab a List.mem_cons_self, h⟩)
  · exact .inr (.inl (List.forall_mem_cons.mpr ⟨hab a List.mem_cons_self, h⟩))
  · exact .inr (.inr (List.forall_mem_cons.mpr ⟨hab a List.mem_cons_self, h⟩))

theorem uniform_of_relates {relation : Relation} {a b : Value} (h : relation.Relates a b) :
    Uniform [a, b] := by
  cases h with
  | integers => exact .inl (by simp)
  | floats => exact .inr (.inl (by simp))
  | strings => exact .inr (.inr (by simp))

def mismatch (relation : Relation) (s : Store) (a b : Value) : Error :=
  .type (.incomparable (.compare relation) (s.shown a) (s.shown b)) none

/-- Neighbours of one kind have an order that tells whether they are related, and others cannot be
compared. -/
theorem order_cases (relation : Relation) (s : Store) (a b : Value) :
    (Uniform [a, b] ∧ ∃ o, order relation s a b = .ok o ∧
      (relation.holds o = true ↔ relation.Relates a b)) ∨
    (¬ Uniform [a, b] ∧ order relation s a b = .error (mismatch relation s a b)) := by
  cases a with
  | integer m =>
    cases b with
    | integer n =>
      refine .inl ⟨.inl (by simp), _, rfl, (relation.holds_integers m n).trans ⟨.integers, ?_⟩⟩
      rintro (h | _ | _)
      exact h
    | _ => exact .inr ⟨by simp [Uniform], rfl⟩
  | float x =>
    cases b with
    | float y =>
      refine .inl ⟨.inr (.inl (by simp)), _, rfl, (relation.holds_floats x y).trans ⟨.floats, ?_⟩⟩
      rintro (_ | h | _)
      exact h
    | _ => exact .inr ⟨by simp [Uniform], rfl⟩
  | string t =>
    cases b with
    | string u =>
      refine .inl ⟨.inr (.inr (by simp)), _, rfl, (relation.holds_strings t u).trans
        ⟨.strings, ?_⟩⟩
      rintro (_ | _ | h)
      exact h
    | _ => exact .inr ⟨by simp [Uniform], rfl⟩
  | _ => exact .inr ⟨by simp [Uniform], by cases b <;> rfl⟩

theorem uniform_of_isChain {relation : Relation} {a b : Value} {rest : List Value}
    (h : (a :: b :: rest).IsChain relation.Relates) : Uniform (a :: b :: rest) := by
  induction rest generalizing a b with
  | nil => exact uniform_of_relates (List.isChain_pair.mp h)
  | cons c rest ih =>
    rw [List.isChain_cons_cons] at h
    exact .cons (uniform_of_relates h.1) (ih h.2)

/-- Some first values are of one kind, and neighbours among them are not related. -/
def Breaks (relation : Relation) (vs : List Value) : Prop :=
  ∃ before, before <+: vs ∧ Uniform before ∧ ¬ before.IsChain relation.Relates

/-- Where two neighbours are not related, the first values reach as far as both. -/
theorem exists_of_breaks {relation : Relation} {a b : Value} {rest : List Value}
    (h : Breaks relation (a :: b :: rest)) :
    ∃ before, before <+: rest ∧ Uniform (a :: b :: before) ∧
      ¬ (a :: b :: before).IsChain relation.Relates := by
  obtain ⟨_ | ⟨c, _ | ⟨d, before⟩⟩, hbefore, huniform, hchain⟩ := h
  · exact absurd .nil hchain
  · exact absurd (.singleton c) hchain
  · simp only [List.cons_prefix_cons] at hbefore
    obtain ⟨rfl, rfl, hbefore⟩ := hbefore
    exact ⟨before, hbefore, huniform, hchain⟩

theorem uniform_of_breaks {relation : Relation} {a b : Value} {rest : List Value}
    (h : Breaks relation (a :: b :: rest)) : Uniform [a, b] := by
  obtain ⟨before, -, huniform, -⟩ := exists_of_breaks h
  exact huniform.of_subset (by simp)

theorem breaks_cons {relation : Relation} {a b : Value} {rest : List Value}
    (h : relation.Relates a b) :
    Breaks relation (a :: b :: rest) ↔ Breaks relation (b :: rest) := by
  constructor
  · intro hbreaks
    obtain ⟨before, hbefore, huniform, hchain⟩ := exists_of_breaks hbreaks
    refine ⟨b :: before, List.cons_prefix_cons.mpr ⟨rfl, hbefore⟩, ?_, fun hrest => ?_⟩
    · exact huniform.of_subset fun v => List.mem_cons_of_mem a
    · exact hchain (List.isChain_cons_cons.mpr ⟨h, hrest⟩)
  · rintro ⟨_ | ⟨c, before⟩, hbefore, huniform, hchain⟩
    · exact absurd .nil hchain
    · have hfirst : c = b := (List.cons_prefix_cons.mp hbefore).1
      subst hfirst
      refine ⟨a :: c :: before, List.cons_prefix_cons.mpr ⟨rfl, hbefore⟩,
        .cons (uniform_of_relates h) huniform, fun hrest => ?_⟩
      exact hchain (List.isChain_cons_cons.mp hrest).2

/-- Either all neighbours are related, or the first that are not are of one kind, or they are not
and are told about. -/
theorem related_cases (relation : Relation) (s : Store) (a : Value) (rest : List Value) :
    (related relation s (a :: rest) = .ok true ∧ (a :: rest).IsChain relation.Relates) ∨
    (related relation s (a :: rest) = .ok false ∧ Breaks relation (a :: rest) ∧
      ¬ (a :: rest).IsChain relation.Relates) ∨
    (¬ Breaks relation (a :: rest) ∧ ∃ x y, [x, y] <:+: a :: rest ∧ ¬ Uniform [x, y] ∧
      related relation s (a :: rest) = .error (mismatch relation s x y)) := by
  induction rest generalizing a with
  | nil => exact .inl ⟨rfl, .singleton a⟩
  | cons b rest ih =>
    have hstep {r : Except Error (Option Ordering)} (h : order relation s a b = r) :
        related relation s (a :: b :: rest) = r >>= fun o =>
          if relation.holds o then related relation s (b :: rest) else .ok false := by
      rw [related, h]
    rcases order_cases relation s a b with ⟨hpair, o, horder, hholds⟩ | ⟨hpair, horder⟩
    · by_cases hrel : relation.Relates a b
      · have hrest : related relation s (a :: b :: rest) = related relation s (b :: rest) :=
          (hstep horder).trans (if_pos (hholds.mpr hrel))
        rw [hrest, breaks_cons hrel, List.isChain_cons_cons]
        refine (ih b).imp (And.imp_right fun h => ⟨hrel, h⟩) (Or.imp ?_ ?_)
        · exact And.imp_right (And.imp_right fun h hchain => h hchain.2)
        · rintro ⟨hbreaks, x, y, hxy, hmixed⟩
          exact ⟨hbreaks, x, y, List.infix_cons hxy, hmixed⟩
      · have hchain : ¬ [a, b].IsChain relation.Relates := fun h => hrel (List.isChain_pair.mp h)
        have hfirst : [a, b] <+: a :: b :: rest := ⟨rest, rfl⟩
        refine .inr (.inl ⟨(hstep horder).trans (if_neg fun h => hrel (hholds.mp h)),
          ⟨[a, b], hfirst, hpair, hchain⟩, fun h => hrel (List.isChain_cons_cons.mp h).1⟩)
    · exact .inr (.inr ⟨fun h => hpair (uniform_of_breaks h), a, b, ⟨[], rest, rfl⟩, hpair,
        hstep horder⟩)

/-- A comparison of two or more values leaves the store alone. It has a result just if the values
are all integers, all floats or all strings, or some first of them are and have neighbours that are
not related, and then it tells whether all neighbours are related. Otherwise it fails for a type and
shows neighbours of no common kind. What is no number is related to nothing. -/
theorem run_compare (relation : Relation) (s : Store) (a b : Value) (rest : List Value) :
    let args := a :: b :: rest
    let call := (Primitive.compare relation).run args s
    let compared := Uniform args ∨ Breaks relation args
    call.2 = s ∧
    (compared ↔ ∃ r, call.1 = .ok (.boolean r) ∧ (r = true ↔ args.IsChain relation.Relates)) ∧
    (¬ compared ↔ ∃ x y, [x, y] <:+: args ∧ ¬ Uniform [x, y] ∧
      call.1 = .error (.failed (mismatch relation s x y))) ∧
    ∀ x y : Float, x.isNaN ∨ y.isNaN → ¬ relation.Relates (.float x) (.float y) := by
  intro args call compared
  have hcall : call = (Action.ofExcept (Value.boolean <$> related relation s args)) s := rfl
  have hnan : ∀ x y : Float, x.isNaN ∨ y.isNaN → ¬ relation.Relates (.float x) (.float y) :=
    fun _ _ => relation.not_relates_of_isNaN
  rcases related_cases relation s a (b :: rest) with
    ⟨hrun, hchain⟩ | ⟨hrun, hbreaks, hchain⟩ | ⟨hbreaks, x, y, hxy, hmixed, hrun⟩
  · have hcall : call = (.ok (.boolean true), s) := by rw [hcall, hrun]; rfl
    have hcompared : compared := .inl (uniform_of_isChain hchain)
    rw [hcall]
    refine ⟨rfl, iff_of_true hcompared ⟨true, rfl, iff_of_true rfl hchain⟩,
      iff_of_false (fun h => h hcompared) ?_, hnan⟩
    rintro ⟨_, _, _, _, h⟩
    cases h
  · have hcall : call = (.ok (.boolean false), s) := by rw [hcall, hrun]; rfl
    have hcompared : compared := .inr hbreaks
    rw [hcall]
    refine ⟨rfl, iff_of_true hcompared ⟨false, rfl, iff_of_false Bool.false_ne_true hchain⟩,
      iff_of_false (fun h => h hcompared) ?_, hnan⟩
    rintro ⟨_, _, _, _, h⟩
    cases h
  · have hcall : call = (.error (.failed (mismatch relation s x y)), s) := by rw [hcall, hrun]; rfl
    have hcompared : ¬ compared := fun h => h.elim
      (fun huniform => hmixed (huniform.of_subset hxy.subset)) hbreaks
    rw [hcall]
    refine ⟨rfl, iff_of_false hcompared ?_, iff_of_true hcompared ⟨x, y, hxy, hmixed, rfl⟩, hnan⟩
    rintro ⟨_, h, _⟩
    cases h

/-- A string behind integers that are not related is not found out about. -/
theorem run_compare_stops_early :
    let args : List Value := [.integer 2, .integer 1, .string "a"]
    ¬ ((∃ fault, ((Primitive.compare .less).run args .empty).1 =
      .error (.failed (.type fault none))) ↔ ¬ Uniform args) := by
  intro args h
  obtain ⟨fault, hrun⟩ := h.mpr (by simp [args, Uniform])
  cases hrun

end Comparison

end Lisplet
