import Lisplet.Proofs.TailCalls.Parts

/-! One step of the search for the uses of a name: what it finds in an expression in tail position
is what stands there outside the parts in tail position, and what it finds in these. -/
namespace Lisplet.SelfUse

open Value (Path ItemAt EachSymbol mem_heads_iff)

def watches (name x : String) : Bool :=
  x = name || (x = SpecialForm.lambda.name || x = SpecialForm.define.name)

def Clean (name : String) (e : Value) : Prop := e.EachSymbol fun _ x => watches name x = false

/-- Where a symbol may stand in an expression in tail position, outside its parts in tail position:
as the operator of a call of the function, if `n` lets calls through, and under another name alone
or as a name that is bound. What is not watched may stand anywhere. -/
inductive Placed (name : String) (n : Nat) : Value → Path → String → Prop
  | unwatched {e : Value} {p : Path} {x : String} (hx : watches name x = false) : Placed name n e p x
  | call {args : Value} (hn : 1 ≤ n) (hlist : args.isList = true) :
    Placed name n (.pair (.symbol name) args) [.head] name
  | alone {x : String} (hx : x ≠ name) : Placed name n (.symbol x) [] x
  | binder {operator bindings body init : Value} {q : Path} {x : String}
    (hform : spelled? name operator = some .letIn ∨ spelled? name operator = some .letRec)
    (hbinding : ItemAt bindings q (.pair (.symbol x) (.pair init .nil))) (hx : x ≠ name) :
    Placed name n (.pair operator (.pair bindings (.pair body .nil)))
      (.tail :: .head :: (q ++ [.head])) x

/-- An occurrence of `x` at the end of `p` that is in place, or left to a part in tail position. -/
def Fits (name : String) (n : Nat) (e : Value) (p : Path) (x : String) : Prop :=
  Placed name n e p x ∨ ∃ q part r, TailPart name e q part ∧ p = q ++ r

/-- A search finds no use above `n` in an expression just if all symbols outside its parts in tail
position are in place, and it finds none in these parts. -/
def Splits (name : String) (n : Nat) (e : Value) : Prop :=
  (inTail name e).rank ≤ n ↔ e.EachSymbol (Fits name n e) ∧
    ∀ q part, TailPart name e q part → (inTail name part).rank ≤ n

variable {name : String} {e part operator : Value} {q p : Path} {n : Nat} {x : String}

@[simp] theorem watches_self : watches name name = true := by
  simp [watches]

theorem watches_iff_of_ne (hx : x ≠ name) : watches name x = true ↔
    ∃ form : SpecialForm, (form = .lambda ∨ form = .define) ∧ x = form.name := by
  simp [watches, hx, or_and_right, exists_or]

theorem watches_name {form : SpecialForm} (hne : form.name ≠ name) :
    watches name form.name = true ↔ form = .lambda ∨ form = .define := by
  simp [watches_iff_of_ne hne, SpecialForm.name_inj]

@[simp] theorem clean_pair {a b : Value} : Clean name (.pair a b) ↔ Clean name a ∧ Clean name b :=
  EachSymbol.pair_iff

@[simp] theorem clean_symbol : Clean name (.symbol x) ↔ watches name x = false :=
  EachSymbol.symbol_iff

@[simp] theorem clean_nil : Clean name .nil := EachSymbol.nil

theorem clean_operator {form : SpecialForm} (hform : spelled? name operator = some form)
    (hlambda : form ≠ .lambda) (hdefine : form ≠ .define) : Clean name operator := by
  obtain ⟨rfl, hne⟩ := eq_of_spelled? hform
  rw [clean_symbol, Bool.eq_false_iff, ne_eq, watches_name hne]
  exact not_or.mpr ⟨hlambda, hdefine⟩

theorem rank_inOperand_le_iff (hn : n < 2) : (inOperand name e).rank ≤ n ↔ Clean name e := by
  change (if mentions (watches name) e then other else absent).rank ≤ n ↔ _
  rw [Clean, ← Value.mentions_eq_false_iff]
  cases mentions (watches name) e with
  | true => simpa [rank] using hn
  | false => simp [rank]

theorem rank_inBinding_le_iff (hn : n < 2) {init : Value} :
    (inBinding name (.pair (.symbol x) (.pair init .nil))).rank ≤ n ↔
      x ≠ name ∧ Clean name init := by
  rw [inBinding]
  by_cases hx : x = name
  · simpa [Value.symbol?, hx, rank] using hn
  · simp [Value.symbol?, hx, rank_inOperand_le_iff hn]

/-- What is searched of a clause as an operand: its test if there is one, or else all of it. -/
def searched : Value → Value
  | .pair test (.pair _ .nil) => test
  | clause => clause

theorem searched_of_malformed {clause : Value}
    (h : ∀ test e, clause ≠ .pair test (.pair e .nil)) : searched clause = clause := by
  unfold searched
  split
  · exact absurd rfl (h _ _)
  · rfl

theorem rank_inClauses_le_iff (hn : n < 2) {clauses : Value} (hlist : clauses.isList = true) :
    (inClauses name clauses).rank ≤ n ↔ ∀ clause ∈ clauses.heads, Clean name (searched clause) ∧
      ∀ test e, clause = .pair test (.pair e .nil) → (inTail name e).rank ≤ n := by
  induction clauses with
  | pair clause rest ihclause ih =>
    clear ihclause
    rw [inClauses.eq_def, Value.heads_pair, List.forall_mem_cons]
    dsimp only
    split
    · rename_i test e
      rw [rank_combine, rank_combine, Nat.max_le, Nat.max_le, rank_inOperand_le_iff hn, ih hlist]
      refine and_congr_left fun _ => and_congr_right fun _ => ⟨?_, fun h => h test e rfl⟩
      rintro h _ _ ⟨⟩
      exact h
    · rename_i hmalformed
      rw [rank_combine, Nat.max_le, rank_inOperand_le_iff hn, ih hlist,
        searched_of_malformed hmalformed]
      refine and_congr_left fun _ => ⟨fun h => ⟨h, fun test e heq => ?_⟩, fun h => h.1⟩
      exact absurd heq (hmalformed test e)
  | nil => simp [inClauses, rank]
  | _ => cases hlist

/-! Which symbols are in place in each form. -/

theorem Placed.of_name (h : Placed name n e p name) :
    1 ≤ n ∧ p = [.head] ∧ ∃ args, args.isList = true ∧ e = .pair (.symbol name) args := by
  cases h with
  | unwatched hx => simp at hx
  | call hn hlist => exact ⟨hn, rfl, _, hlist, rfl⟩
  | alone hx => exact absurd rfl hx
  | binder _ _ hx => exact absurd rfl hx

/-- Nothing that is watched has its place inside of a part. -/
theorem Placed.unwatched_of_tailPart (h : Placed name n e (q ++ p) x)
    (hpart : TailPart name e q part) : watches name x = false := by
  generalize hr : q ++ p = r at h
  cases h with
  | unwatched hx => exact hx
  | call _ _ => cases hpart <;> simp at hr
  | alone _ => cases hpart
  | binder hform _ _ =>
    obtain ⟨bindings, -, rfl⟩ := hpart.of_binding hform
    simp at hr

theorem Placed.unwatched_of_operandPart (h : Placed name n e (q ++ p) x)
    (hpart : OperandPart name e q part) : watches name x = false := by
  generalize hr : q ++ p = r at h
  cases h with
  | unwatched hx => exact hx
  | call _ _ => cases hpart <;> simp at hr
  | alone _ => cases hpart
  | binder hlet hbinding _ =>
    cases hpart with
    | operator => simp at hr
    | operand hform _ => exact absurd (.binding hlet) hform
    | test hif => simp [hif] at hlet
    | clauseTest hcond _ => simp [hcond] at hlet
    | clause hcond _ _ => simp [hcond] at hlet
    | initializer _ hbinding' =>
      simp only [List.cons_append, List.append_assoc, List.cons.injEq, true_and] at hr
      simpa using (hbinding'.unique hbinding hr).2.2

theorem OperandPart.eachSymbol_fits_iff (h : OperandPart name e q part) :
    part.EachSymbol (fun p => Fits name n e (q ++ p)) ↔ Clean name part := by
  refine ⟨fun hfits => hfits.imp ?_, fun hclean => hclean.imp fun p x hx => .inl (.unwatched hx)⟩
  rintro p x (hplaced | ⟨q', part', r, hpart, heq⟩)
  · exact hplaced.unwatched_of_operandPart h
  · exact absurd heq (h.apart hpart)

theorem TailPart.eachSymbol_fits (h : TailPart name e q part) :
    part.EachSymbol fun p => Fits name n e (q ++ p) :=
  fun p _ _ => .inr ⟨q, part, p, h, rfl⟩

theorem Clean.eachSymbol_fits {f : Path → Path} (h : Clean name part) :
    part.EachSymbol fun p => Fits name n e (f p) :=
  h.imp fun _ _ hx => .inl (.unwatched hx)

theorem eachSymbol_fits_selfCall_iff {args : Value} (hlist : args.isList = true) :
    (Value.pair (.symbol name) args).EachSymbol (Fits name n (.pair (.symbol name) args)) ↔
      1 ≤ n ∧ ∀ a ∈ args.heads, Clean name a := by
  have hcall : Fits name n (.pair (.symbol name) args) [.head] name ↔ 1 ≤ n := by
    refine ⟨?_, fun hn => .inl (.call hn hlist)⟩
    rintro (hplaced | ⟨q, part, r, hpart, -⟩)
    · exact hplaced.of_name.1
    · exact absurd hpart.isForm not_isForm_selfCall
  have hitem (q : Path) (a : Value) (h : ItemAt args q a) :
      a.EachSymbol (fun p => Fits name n (.pair (.symbol name) args) (.tail :: (q ++ p))) ↔
        Clean name a :=
    (OperandPart.operand not_isForm_selfCall h).eachSymbol_fits_iff
  rw [EachSymbol.pair_iff, EachSymbol.symbol_iff, hcall, EachSymbol.list_iff hlist]
  refine and_congr_right fun _ => ⟨fun h a ha => ?_, fun h q a ha => ?_⟩
  · obtain ⟨q, ha⟩ := mem_heads_iff.mp ha
    exact (hitem q a ha).mp (h q a ha)
  · exact (hitem q a ha).mpr (h a (mem_heads_iff.mpr ⟨q, ha⟩))

theorem eachSymbol_fits_ifElse_iff {test yes rest : Value}
    (hform : spelled? name operator = some .ifElse)
    (hrest : rest = .nil ∨ ∃ no, rest = .pair no .nil) :
    (Value.pair operator (.pair test (.pair yes rest))).EachSymbol
      (Fits name n (.pair operator (.pair test (.pair yes rest)))) ↔ Clean name test := by
  have hoperator := clean_operator hform (by decide) (by decide)
  have htest : OperandPart name (.pair operator (.pair test (.pair yes rest))) [.tail, .head] test :=
    .test hform
  have hyes : TailPart name (.pair operator (.pair test (.pair yes rest))) [.tail, .tail, .head]
      yes := .thenBranch hform hrest
  have hno : rest.EachSymbol fun p => Fits name n (.pair operator (.pair test (.pair yes rest)))
      (.tail :: .tail :: .tail :: p) := by
    rcases hrest with rfl | ⟨no, rfl⟩
    · exact .nil
    · exact EachSymbol.pair_iff.mpr ⟨(TailPart.elseBranch hform).eachSymbol_fits, .nil⟩
  rw [EachSymbol.pair_iff, EachSymbol.pair_iff, EachSymbol.pair_iff]
  exact ⟨fun h => htest.eachSymbol_fits_iff.mp h.2.1, fun h => ⟨hoperator.eachSymbol_fits,
    htest.eachSymbol_fits_iff.mpr h, hyes.eachSymbol_fits, hno⟩⟩

theorem eachSymbol_fits_cond_iff {clauses : Value} (hform : spelled? name operator = some .cond)
    (hlist : clauses.isList = true) :
    (Value.pair operator clauses).EachSymbol (Fits name n (.pair operator clauses)) ↔
      ∀ clause ∈ clauses.heads, Clean name (searched clause) := by
  have hoperator := clean_operator hform (by decide) (by decide)
  have hitem (q : Path) (clause : Value) (h : ItemAt clauses q clause) :
      clause.EachSymbol (fun p => Fits name n (.pair operator clauses) (.tail :: (q ++ p))) ↔
        Clean name (searched clause) := by
    by_cases hclause : ∃ test e, clause = .pair test (.pair e .nil)
    · obtain ⟨test, e, rfl⟩ := hclause
      have htest := (OperandPart.clauseTest hform h).eachSymbol_fits_iff (n := n)
      have he := (TailPart.consequent hform hlist h).eachSymbol_fits (n := n)
      simp only [List.cons_append, List.append_assoc, List.nil_append] at htest he
      simp [searched, htest, he]
    · have hmalformed : ∀ test e, clause ≠ .pair test (.pair e .nil) :=
        fun test e heq => hclause ⟨test, e, heq⟩
      rw [searched_of_malformed hmalformed]
      exact (OperandPart.clause hform h hmalformed).eachSymbol_fits_iff
  rw [EachSymbol.pair_iff, EachSymbol.list_iff hlist]
  refine ⟨fun h clause hclause => ?_, fun h => ⟨hoperator.eachSymbol_fits, fun q clause hq => ?_⟩⟩
  · obtain ⟨q, hq⟩ := mem_heads_iff.mp hclause
    exact (hitem q clause hq).mp (h.2 q clause hq)
  · exact (hitem q clause hq).mpr (h clause (mem_heads_iff.mpr ⟨q, hq⟩))

theorem eachSymbol_fits_binding_iff {bindings body init : Value}
    (hform : spelled? name operator = some .letIn ∨ spelled? name operator = some .letRec)
    (hbinding : ItemAt bindings q (.pair (.symbol x) (.pair init .nil))) :
    (Value.pair (.symbol x) (.pair init .nil)).EachSymbol
      (fun p => Fits name n (.pair operator (.pair bindings (.pair body .nil)))
        (.tail :: .head :: (q ++ p))) ↔ x ≠ name ∧ Clean name init := by
  have hname : Fits name n (.pair operator (.pair bindings (.pair body .nil)))
      (.tail :: .head :: (q ++ [.head])) x ↔ x ≠ name := by
    refine ⟨?_, fun hx => .inl (.binder hform hbinding hx)⟩
    rintro (hplaced | ⟨q', part, r, hpart, heq⟩) rfl
    · exact absurd hplaced.of_name.2.1 (by simp)
    · obtain ⟨-, -, rfl⟩ := hpart.of_binding hform
      cases heq
  have hpart : OperandPart name (.pair operator (.pair bindings (.pair body .nil)))
      (.tail :: .head :: (q ++ [.tail, .head])) init := .initializer hform hbinding
  have hinit := hpart.eachSymbol_fits_iff (n := n)
  simp only [List.cons_append, List.append_assoc, List.nil_append] at hinit
  simp [hname, hinit]

/-! The step for each form. -/

theorem splits_selfCall (hn : n < 2) {args : Value} (hlist : args.isList = true) :
    Splits name n (.pair (.symbol name) args) := by
  rw [Splits, inTail_selfCall hlist, rank_inAll_le_iff, eachSymbol_fits_selfCall_iff hlist]
  simp only [rank_inOperand_le_iff hn]
  exact ⟨fun h => ⟨h, fun q part hpart => absurd hpart.isForm not_isForm_selfCall⟩, fun h => h.1⟩

theorem splits_ifThen (hn : n < 2) {test yes : Value}
    (hform : spelled? name operator = some .ifElse) :
    Splits name n (.pair operator (.pair test (.pair yes .nil))) := by
  rw [Splits, eachSymbol_fits_ifElse_iff hform (.inl rfl), inTail_ifThen hform, rank_combine,
    Nat.max_le, rank_inOperand_le_iff hn]
  refine and_congr_right fun _ => ⟨fun h q part hpart => ?_, fun h => ?_⟩
  · obtain ⟨r, rfl, hitem⟩ := hpart.of_ifElse hform
    cases hitem with | later hitem =>
    cases hitem with
    | first => exact h
    | later hitem => cases hitem
  · exact h _ _ (.thenBranch hform (.inl rfl))

theorem splits_ifElse (hn : n < 2) {test yes no : Value}
    (hform : spelled? name operator = some .ifElse) :
    Splits name n (.pair operator (.pair test (.pair yes (.pair no .nil)))) := by
  rw [Splits, eachSymbol_fits_ifElse_iff hform (.inr ⟨no, rfl⟩), inTail_ifElse hform, rank_combine,
    rank_combine, Nat.max_le, Nat.max_le, rank_inOperand_le_iff hn, and_assoc]
  refine and_congr_right fun _ => ⟨fun h q part hpart => ?_, fun h => ⟨?_, ?_⟩⟩
  · obtain ⟨r, rfl, hitem⟩ := hpart.of_ifElse hform
    cases hitem with | later hitem =>
    cases hitem with
    | first => exact h.1
    | later hitem =>
      cases hitem with
      | first => exact h.2
      | later hitem => cases hitem
  · exact h _ _ (.thenBranch hform (.inr ⟨no, rfl⟩))
  · exact h _ _ (.elseBranch hform)

theorem splits_cond (hn : n < 2) {clauses : Value} (hform : spelled? name operator = some .cond)
    (hlist : clauses.isList = true) : Splits name n (.pair operator clauses) := by
  rw [Splits, inTail_cond hform hlist, rank_inClauses_le_iff hn hlist,
    eachSymbol_fits_cond_iff hform hlist]
  simp only [forall_and]
  refine and_congr_right fun _ => ⟨fun h q part hpart => ?_, ?_⟩
  · obtain ⟨r, test, rfl, hclause⟩ := hpart.of_cond hform
    exact h _ (mem_heads_iff.mpr ⟨r, hclause⟩) test part rfl
  · rintro h _ hclause test e rfl
    obtain ⟨r, hclause⟩ := mem_heads_iff.mp hclause
    exact h _ e (.consequent hform hlist hclause)

theorem splits_binding (hn : n < 2) {bindings body : Value}
    (hform : spelled? name operator = some .letIn ∨ spelled? name operator = some .letRec)
    (hbindings : IsBindingList bindings) :
    Splits name n (.pair operator (.pair bindings (.pair body .nil))) := by
  obtain ⟨hlist, hpairs⟩ := hbindings
  have hoperator : Clean name operator := by
    rcases hform with hform | hform <;> exact clean_operator hform (by decide) (by decide)
  have hitem (q : Path) (b : Value) (h : ItemAt bindings q b) :
      b.EachSymbol (fun p => Fits name n (.pair operator (.pair bindings (.pair body .nil)))
        (.tail :: .head :: (q ++ p))) ↔ (inBinding name b).rank ≤ n := by
    obtain ⟨x, init, rfl⟩ := hpairs b (mem_heads_iff.mpr ⟨q, h⟩)
    rw [rank_inBinding_le_iff hn]
    exact eachSymbol_fits_binding_iff hform h
  -- A binding of the function's own name is found, so that past all bindings the body is a part.
  have hbody (h : ∀ b ∈ bindings.heads, (inBinding name b).rank ≤ n) :
      TailPart name (.pair operator (.pair bindings (.pair body .nil))) [.tail, .tail, .head]
        body := by
    refine .letBody hform fun rest hmem => ?_
    obtain ⟨x, init, heq⟩ := hpairs _ hmem
    obtain ⟨rfl, -⟩ : name = x ∧ _ := by simpa using heq
    exact (rank_inBinding_le_iff hn).mp (heq ▸ h _ hmem) |>.1 rfl
  rw [Splits, inTail_binding hform hlist, rank_combine, Nat.max_le, rank_inAll_le_iff,
    EachSymbol.pair_iff, EachSymbol.pair_iff, EachSymbol.pair_iff, EachSymbol.list_iff hlist]
  constructor
  · rintro ⟨⟨-, hfree⟩, htail⟩
    refine ⟨⟨hoperator.eachSymbol_fits, fun q b hb => ?_, (hbody hfree).eachSymbol_fits, .nil⟩,
      fun q part hpart => ?_⟩
    · exact (hitem q b hb).mpr (hfree b (mem_heads_iff.mpr ⟨q, hb⟩))
    · obtain ⟨_, heq, -⟩ := hpart.of_binding hform
      cases heq
      exact htail
  · rintro ⟨⟨-, hfree, -, -⟩, htail⟩
    have hfree (b : Value) (hb : b ∈ bindings.heads) : (inBinding name b).rank ≤ n := by
      obtain ⟨q, hb⟩ := mem_heads_iff.mp hb
      exact (hitem q b hb).mp (hfree q b hb)
    exact ⟨⟨Nat.zero_le n, hfree⟩, htail _ _ (hbody hfree)⟩

theorem splits_of_not_isForm (hn : n < 2) {a b : Value} (hform : ¬ IsForm name (.pair a b))
    (hself : ¬ (a = .symbol name ∧ b.isList = true)) : Splits name n (.pair a b) := by
  rw [Splits, inTail_eq_inOperand hself hform, rank_inOperand_le_iff hn]
  refine ⟨fun h => ⟨h.eachSymbol_fits, fun q part hpart => absurd hpart.isForm hform⟩,
    fun h => h.1.imp ?_⟩
  rintro p x (hplaced | ⟨q, part, r, hpart, -⟩)
  · cases hplaced with
    | unwatched hx => exact hx
    | call _ hlist => exact absurd ⟨rfl, hlist⟩ hself
    | binder hlet _ _ => exact absurd (.binding hlet) hform
  · exact absurd hpart.isForm hform

theorem splits_symbol (hn : n < 2) : Splits name n (.symbol x) := by
  have hplaced : Fits name n (.symbol x) [] x ↔ x ≠ name := by
    refine ⟨?_, fun hx => .inl (.alone hx)⟩
    rintro (hplaced | ⟨q, part, r, hpart, -⟩) rfl
    · exact absurd hplaced.of_name.2.1 (by simp)
    · cases hpart
  have hparts (q : Path) (part : Value) (hpart : TailPart name (.symbol x) q part) :
      (inTail name part).rank ≤ n := by
    cases hpart
  rw [Splits, inTail, EachSymbol.symbol_iff, hplaced]
  by_cases hx : x = name
  · simpa [hx, rank] using hn
  · simpa [hx, rank] using hparts

/-- What the search finds in an expression is what it finds outside the parts in tail position and
what it finds in these. -/
theorem splits (hn : n < 2) (hlets : LetsWellFormed name e) : Splits name n e := by
  cases e with
  | pair a b =>
    by_cases hself : a = .symbol name ∧ b.isList = true
    · obtain ⟨rfl, hlist⟩ := hself
      exact splits_selfCall hn hlist
    by_cases hform : IsForm name (.pair a b)
    · cases hform with
      | ifThen hform => exact splits_ifThen hn hform
      | ifElse hform => exact splits_ifElse hn hform
      | cond hform hlist => exact splits_cond hn hform hlist
      | binding hform => exact splits_binding hn hform (hlets hform .here)
    · exact splits_of_not_isForm hn hform hself
  | symbol x => exact splits_symbol hn
  | _ =>
    refine ⟨fun _ => ⟨fun p x hx => ?_, fun q part hpart => by cases hpart⟩, fun _ => Nat.zero_le n⟩
    match p, hx with
    | [], hx => cases hx

end Lisplet.SelfUse
