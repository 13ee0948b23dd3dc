import Lisplet.Proofs.TailCalls.Search

/-! What decides whether a function runs as a loop, said of the places where symbols stand in its
body: its own name is that of calls in tail position only, and nothing in the body makes a closure
or a definition. -/
namespace Lisplet.SelfUse

open Value (Path ItemAt EachSymbol)

/-- The places of the names that a `let` or `letrec` in tail position binds. -/
inductive BinderAt (name : String) (e : Value) : Path → String → Prop
  | intro {p q : Path} {operator bindings body init : Value} {x : String}
    (hform : spelled? name operator = some .letIn ∨ spelled? name operator = some .letRec)
    (htail : TailAt name e p (.pair operator (.pair bindings (.pair body .nil))))
    (hbinding : ItemAt bindings q (.pair (.symbol x) (.pair init .nil))) :
    BinderAt name e (p ++ .tail :: .head :: (q ++ [.head])) x

/-- An occurrence of `x` at the end of `p` that has its place in an expression in tail position. -/
def Allowed (name : String) (n : Nat) (e : Value) (p : Path) (x : String) : Prop :=
  ∃ q r inner, p = q ++ r ∧ TailAt name e q inner ∧ Placed name n inner r x

section Allowed

variable {name : String} {e part : Value} {q p : Path} {n : Nat} {x : String}

theorem allowed_iff : Allowed name n e p x ↔ Placed name n e p x ∨
    ∃ q part r, TailPart name e q part ∧ p = q ++ r ∧ Allowed name n part r x := by
  constructor
  · rintro ⟨q, r, inner, rfl, htail, hplaced⟩
    cases htail with
    | here => exact .inl hplaced
    | inside hpart htail =>
      exact .inr ⟨_, _, _, hpart, List.append_assoc .., _, _, _, rfl, htail, hplaced⟩
  · rintro (hplaced | ⟨q, part, _, hpart, rfl, q', r, inner, rfl, htail, hplaced⟩)
    · exact ⟨[], p, e, rfl, .here, hplaced⟩
    · exact ⟨q ++ q', r, inner, (List.append_assoc ..).symm, .inside hpart htail, hplaced⟩

/-- Inside a part in tail position, what is allowed is what the part allows. -/
theorem allowed_append_iff (hpart : TailPart name e q part) :
    Allowed name n e (q ++ p) x ↔ Allowed name n part p x := by
  rw [allowed_iff]
  constructor
  · rintro (hplaced | ⟨q', part', r, hpart', heq, hallowed⟩)
    · exact allowed_iff.mpr (.inl (.unwatched (hplaced.unwatched_of_tailPart hpart)))
    · obtain ⟨rfl, rfl, rfl⟩ := hpart.unique hpart' heq
      exact hallowed
  · exact fun h => .inr ⟨q, part, p, hpart, rfl, h⟩

theorem allowed_name_iff : Allowed name n e p name ↔ 1 ≤ n ∧ ∃ q args, p = q ++ [.head] ∧
    args.isList = true ∧ TailAt name e q (.pair (.symbol name) args) := by
  constructor
  · rintro ⟨q, r, inner, rfl, htail, hplaced⟩
    obtain ⟨hn, rfl, args, hlist, rfl⟩ := hplaced.of_name
    exact ⟨hn, q, args, rfl, hlist, htail⟩
  · rintro ⟨hn, q, args, rfl, hlist, htail⟩
    exact ⟨q, [.head], _, rfl, htail, .call hn hlist⟩

theorem allowed_iff_of_ne (hx : x ≠ name) : Allowed name n e p x ↔
    (watches name x = true → TailAt name e p (.symbol x) ∨ BinderAt name e p x) := by
  constructor
  · rintro ⟨q, r, inner, rfl, htail, hplaced⟩ hwatched
    cases hplaced with
    | unwatched hx => simp [hx] at hwatched
    | call _ _ => exact absurd rfl hx
    | alone _ => exact .inl (by simpa using htail)
    | binder hform hbinding _ => exact .inr (.intro hform htail hbinding)
  · intro h
    cases hwatched : watches name x with
    | false => exact ⟨[], p, e, rfl, .here, .unwatched hwatched⟩
    | true =>
      rcases h hwatched with htail | ⟨hform, htail, hbinding⟩
      · exact ⟨p, [], _, (List.append_nil p).symm, htail, .alone hx⟩
      · exact ⟨_, _, _, rfl, htail, .binder hform hbinding hx⟩

theorem eachSymbol_allowed_iff : e.EachSymbol (Allowed name n e) ↔
    (∀ p, e.at? p = some (.symbol name) → 1 ≤ n ∧ ∃ q args, p = q ++ [.head] ∧
      args.isList = true ∧ TailAt name e q (.pair (.symbol name) args)) ∧
    ∀ form : SpecialForm, form = .lambda ∨ form = .define → form.name ≠ name →
      ∀ p, e.at? p = some (.symbol form.name) →
        TailAt name e p (.symbol form.name) ∨ BinderAt name e p form.name := by
  constructor
  · refine fun h => ⟨fun p hp => allowed_name_iff.mp (h p name hp), fun form hform hne p hp => ?_⟩
    exact (allowed_iff_of_ne hne).mp (h p form.name hp) ((watches_name hne).mpr hform)
  · rintro ⟨hcalls, hforms⟩ p x hp
    by_cases hx : x = name
    · subst hx
      exact allowed_name_iff.mpr (hcalls p hp)
    · refine (allowed_iff_of_ne hx).mpr fun hwatched => ?_
      obtain ⟨form, hform, rfl⟩ := (watches_iff_of_ne hx).mp hwatched
      exact hforms form hform hx p hp

end Allowed

/-- A search finds no use above `n` just if each symbol has its place in an expression in tail
position. -/
theorem rank_inTail_le_iff {name : String} {n : Nat} (hn : n < 2) {e : Value}
    (hlets : LetsWellFormed name e) :
    (inTail name e).rank ≤ n ↔ e.EachSymbol (Allowed name n e) := by
  have ih (q : Path) (part : Value) (hpart : TailPart name e q part) :
      (inTail name part).rank ≤ n ↔ part.EachSymbol (Allowed name n part) :=
    rank_inTail_le_iff hn ((letsWellFormed_iff.mp hlets).2 q part hpart)
  refine Iff.trans (splits hn hlets) ⟨?_, fun h => ⟨h.imp fun p x hallowed => ?_, ?_⟩⟩
  · rintro ⟨hfits, hparts⟩ p x hx
    rcases hfits p x hx with hplaced | ⟨q, part, r, hpart, rfl⟩
    · exact allowed_iff.mpr (.inl hplaced)
    · rw [Value.at?_append, hpart.at?] at hx
      exact (allowed_append_iff hpart).mpr ((ih q part hpart).mp (hparts q part hpart) r x hx)
  · rcases allowed_iff.mp hallowed with hplaced | ⟨q, part, r, hpart, rfl, -⟩
    · exact .inl hplaced
    · exact .inr ⟨q, part, r, hpart, rfl⟩
  · intro q part hpart
    have hinside := (h.part hpart.at?).imp fun r x => (allowed_append_iff hpart).mp
    exact (ih q part hpart).mpr hinside
termination_by sizeOf e
decreasing_by exact hpart.sizeOf_lt

/-- An expression that a search lets pass, in tail position or elsewhere. -/
def Passes (name : String) (e : Value) : Prop :=
  LetsWellFormed name e ∧ (inTail name e).rank ≤ 1 ∨ Clean name e

namespace Passes

variable {name : String} {e : Value}

theorem part (h : Passes name e) {q : Path} {v : Value}
    (hpart : TailPart name e q v ∨ OperandPart name e q v) : Passes name v := by
  rcases h with ⟨hlets, hrank⟩ | hclean
  · obtain ⟨hfits, hparts⟩ := (splits (by decide) hlets).mp hrank
    rcases hpart with htail | hoperand
    · exact .inl ⟨(letsWellFormed_iff.mp hlets).2 q v htail, hparts q v htail⟩
    · exact .inr (hoperand.eachSymbol_fits_iff.mp (hfits.part hoperand.at?))
  · have hat : e.at? q = some v := hpart.elim TailPart.at? OperandPart.at?
    exact .inr (hclean.part hat)

theorem expression (h : Passes name e) {p : Path} {v : Value} (hv : ExpressionAt name e p v) :
    Passes name v := by
  induction hv with
  | here => exact h
  | inside hpart _ ih => exact ih (h.part hpart)

/-- What passes neither makes a closure nor defines a name. -/
theorem ne_pair {form : SpecialForm} (h : Passes name e) (hform : form = .lambda ∨ form = .define)
    (hne : form.name ≠ name) (rest : Value) : e ≠ .pair (.symbol form.name) rest := by
  rintro rfl
  have hwatched : watches name form.name = true := (watches_name hne).mpr hform
  rcases h with ⟨hlets, hrank⟩ | hclean
  · have hfits := ((splits (by decide) hlets).mp hrank).1 [.head] form.name rfl
    rcases hfits with hplaced | ⟨q, part, r, hpart, heq⟩
    · cases hplaced with
      | unwatched hx => simp [hx] at hwatched
      | call _ _ => exact hne rfl
    · cases hpart <;> simp at heq
  · simp [hwatched] at hclean

end Passes

theorem loopsOver_eq_true_iff {name : String} {params : List String} {body : Value} :
    loopsOver name params body = true ↔
      name ∉ params ∧ (inTail name body).rank ≤ 1 ∧ ¬ (inTail name body).rank ≤ 0 := by
  unfold loopsOver
  cases inTail name body <;> simp [rank]

/-- A function runs as a loop just if its name is no parameter, occurs in its body, and occurs there
only as the operator of calls in tail position, while the names of the other forms that keep a frame
occur at most as values in tail position and as names that are bound there. Then no such form is
among the expressions of the body. -/
theorem loopsOver_iff_tailCalls {name : String} {params : List String} {body : Value}
    (hlets : LetsWellFormed name body) :
    (loopsOver name params body = true ↔
      name ∉ params ∧ (∃ p, body.at? p = some (.symbol name)) ∧
      (∀ p, body.at? p = some (.symbol name) → ∃ q args, p = q ++ [.head] ∧
        args.isList = true ∧ TailAt name body q (.pair (.symbol name) args)) ∧
      ∀ form : SpecialForm, form = .lambda ∨ form = .define → form.name ≠ name →
        ∀ p, body.at? p = some (.symbol form.name) →
          TailAt name body p (.symbol form.name) ∨ BinderAt name body p form.name) ∧
    (loopsOver name params body = true →
      ∀ form : SpecialForm, form = .lambda ∨ form = .define → form.name ≠ name →
        ∀ p rest, ¬ ExpressionAt name body p (.pair (.symbol form.name) rest)) := by
  rw [loopsOver_eq_true_iff]
  refine ⟨and_congr_right fun _ => ?_, ?_⟩
  · rw [rank_inTail_le_iff (by decide) hlets, rank_inTail_le_iff (by decide) hlets,
      eachSymbol_allowed_iff, eachSymbol_allowed_iff]
    constructor
    · rintro ⟨⟨hcalls, hforms⟩, hnot⟩
      refine ⟨?_, fun p hp => (hcalls p hp).2, hforms⟩
      by_contra hnone
      exact hnot ⟨fun p hp => absurd ⟨p, hp⟩ hnone, hforms⟩
    · rintro ⟨⟨p, hp⟩, hcalls, hforms⟩
      refine ⟨⟨fun p hp => ⟨Nat.le_refl 1, hcalls p hp⟩, hforms⟩, fun h => ?_⟩
      exact absurd (h.1 p hp).1 (by decide)
  · rintro ⟨-, hrank, -⟩ form hform hne p rest hexpression
    have hpasses : Passes name body := .inl ⟨hlets, hrank⟩
    exact (hpasses.expression hexpression).ne_pair hform hne rest rfl

/-- A function named `let` calls itself in the body of a `letrec`. -/
theorem loopsOver_iff_tailCalls_named_let :
    let call := Value.ofList [.symbol "let", .symbol "m", .ofList [.symbol "+", .symbol "acc",
      .symbol "n"]]
    let step := Value.ofList [.symbol "letrec", .ofList [.ofList [.symbol "m",
      .ofList [.symbol "-", .symbol "n", .integer 1]]], call]
    let body := Value.ofList [.symbol "if", .ofList [.symbol "=", .symbol "n", .integer 0],
      .symbol "acc", step]
    LetsWellFormed "let" body ∧ loopsOver "let" ["n", "acc"] body = true ∧
      (∀ p, body.at? p = some (.symbol "let") → ∃ q args, p = q ++ [.head] ∧
        args.isList = true ∧ TailAt "let" body q (.pair (.symbol "let") args)) ∧
      ∀ p rest, ¬ ExpressionAt "let" body p (.pair (.symbol "lambda") rest) := by
  intro call step body
  have hcall : LetsWellFormed "let" call := by
    refine letsWellFormed_iff.mpr ⟨?_, fun q part hpart => absurd hpart.isForm not_isForm_selfCall⟩
    intro operator bindings inner hform heq
    obtain ⟨rfl, -⟩ : .symbol "let" = operator ∧ _ := by simpa [call] using heq
    exact absurd hform (by decide)
  have hstep : LetsWellFormed "let" step := by
    refine letsWellFormed_iff.mpr ⟨fun operator bindings inner _ heq => ?_, fun q part hpart => ?_⟩
    · obtain ⟨-, rfl, -⟩ : _ ∧ _ ∧ _ := by simpa [step] using heq
      exact ⟨rfl, fun b hb => ⟨_, _, List.mem_singleton.mp hb⟩⟩
    · obtain ⟨_, ⟨⟩, -⟩ := hpart.of_binding (by decide)
      exact hcall
  have hbody : LetsWellFormed "let" body := by
    refine letsWellFormed_iff.mpr ⟨fun operator bindings inner _ heq => ?_, fun q part hpart => ?_⟩
    · simp [body] at heq
    · obtain ⟨r, -, hitem⟩ := hpart.of_ifElse (by decide)
      cases hitem with | later hitem =>
      cases hitem with
      | first => exact letsWellFormed_iff.mpr ⟨nofun, nofun⟩
      | later hitem =>
        cases hitem with
        | first => exact hstep
        | later hitem => cases hitem
  have hloops : loopsOver "let" ["n", "acc"] body = true := by decide
  obtain ⟨hiff, hforms⟩ := @loopsOver_iff_tailCalls "let" ["n", "acc"] body hbody
  exact ⟨hbody, hloops, (hiff.mp hloops).2.2.1, hforms hloops .lambda (.inl rfl) (by decide)⟩

end Lisplet.SelfUse
