import Lisplet.Proofs.Reading
import Mathlib.Algebra.Ring.Int.Defs
import Mathlib.Data.List.Induction

/-! Brackets. Tokens are read if and only if their brackets are balanced and not too deep, and then
they spell one forest of blocks and lists. Otherwise the first bracket that cannot stand where it
does is at fault, or the innermost one that is never closed. -/
namespace Lisplet.Reader

/-- A lexeme, whichever kind of brackets it uses. -/
inductive Mark where
  | opening
  | closing
  | block (text : List Char)
deriving DecidableEq, Repr

def Lexeme.mark : Lexeme → Mark
  | opening _ => .opening
  | closing _ => .closing
  | block text => .block text

def Mark.rise : Mark → Int
  | opening => 1
  | closing => -1
  | block _ => 0

def marks (ts : List Token) : List Mark := ts.map fun t => t.lexeme.mark

def surplus (ts : List Token) : Int := ((marks ts).map Mark.rise).sum

/-- At no point more brackets are closed than opened, nor too many open. -/
def Nested (ts : List Token) : Prop := ∀ p, p <+: ts → 0 ≤ surplus p ∧ surplus p < maxReadDepth

/-- Whether a token is an opening bracket that no later token closes. -/
def LeftOpen (t : Token) (later : List Token) : Prop :=
  t.lexeme.mark = .opening ∧ ∀ p, p <+: later → 0 ≤ surplus p

/-- Whether it is the innermost of these, none being left open after it. -/
def InnermostLeftOpen (t : Token) (later : List Token) : Prop :=
  LeftOpen t later ∧
    ∀ between u after, later = between ++ u :: after → ¬ LeftOpen u after

/-- What is wrong with the brackets of tokens: the first that closes more than has been opened or
leaves too many open, or else the innermost that is left open. -/
inductive Fault : List Token → Issue → Prop where
  | extraClose {before after : List Token} {bracket : Char} {offset : Nat} (hbefore : Nested before)
    (hnone : surplus before = 0) :
    Fault (before ++ ⟨.closing bracket, offset⟩ :: after) (.extraClose offset bracket)
  | tooDeep {before after : List Token} {bracket : Char} {offset : Nat} (hbefore : Nested before)
    (hmost : surplus before + 1 = maxReadDepth) :
    Fault (before ++ ⟨.opening bracket, offset⟩ :: after) (.tooDeep offset)
  | unclosed {before after : List Token} {t : Token} {count : Nat}
    (hnested : Nested (before ++ t :: after)) (hsome : 0 < count)
    (hcount : surplus (before ++ t :: after) = count) (ht : InnermostLeftOpen t after) :
    Fault (before ++ t :: after) (.unclosed t.offset count)

/-- Blocks and lists in a row. -/
inductive Forest where
  | nil
  | block (text : List Char) (rest : Forest)
  | list (children rest : Forest)

namespace Forest

def marks : Forest → List Mark
  | nil => []
  | block text rest => .block text :: rest.marks
  | list children rest => .opening :: children.marks ++ .closing :: rest.marks

def values : Forest → List Value
  | nil => []
  | block text rest => atom text :: rest.values
  | list children rest => .ofList children.values :: rest.values

def append : Forest → Forest → Forest
  | nil, g => g
  | block text rest, g => block text (rest.append g)
  | list children rest, g => list children (rest.append g)

theorem marks_append (f g : Forest) : (f.append g).marks = f.marks ++ g.marks := by
  induction f with
  | nil => rfl
  | block text rest ih => simp [append, marks, ih]
  | list children rest _ ih => simp [append, marks, ih]

theorem values_append (f g : Forest) : (f.append g).values = f.values ++ g.values := by
  induction f with
  | nil => rfl
  | block text rest ih => simp [append, values, ih]
  | list children rest _ ih => simp [append, values, ih]

/-- Where the marks of a forest end in a longer row, up to a bracket that closes it, is no matter of
choice. -/
theorem eq_of_marks_append {f g : Forest} {ms ns : List Mark}
    (hms : ∀ m ∈ ms.head?, m = .closing) (hns : ∀ n ∈ ns.head?, n = .closing)
    (h : f.marks ++ ms = g.marks ++ ns) : f = g ∧ ms = ns := by
  induction f generalizing g ms ns with
  | nil =>
    cases g with
    | nil => exact ⟨rfl, h⟩
    | block text rest =>
      have hhead : ms.head? = some (.block text) := congrArg List.head? h
      cases hms _ hhead
    | list children rest =>
      have hhead : ms.head? = some .opening := congrArg List.head? h
      cases hms _ hhead
  | block text rest ih =>
    cases g with
    | nil =>
      have hhead : ns.head? = some (.block text) := (congrArg List.head? h).symm
      cases hns _ hhead
    | block text' rest' =>
      simp only [marks, List.cons_append, List.cons.injEq, Mark.block.injEq] at h
      obtain ⟨htext, hrest⟩ := h
      obtain ⟨rfl, hms'⟩ := ih hms hns hrest
      exact ⟨by rw [htext], hms'⟩
    | list children rest' => simp [marks] at h
  | list children rest ihc ihr =>
    cases g with
    | nil =>
      have hhead : ns.head? = some .opening := (congrArg List.head? h).symm
      cases hns _ hhead
    | block text rest' => simp [marks] at h
    | list children' rest' =>
      simp only [marks, List.cons_append, List.append_assoc, List.cons.injEq, true_and] at h
      obtain ⟨rfl, htail⟩ := ihc (by simp) (by simp) h
      obtain ⟨rfl, hms'⟩ := ihr hms hns (List.cons.inj htail).2
      exact ⟨rfl, hms'⟩

/-- A forest can be told from its marks. -/
theorem marks_injective {f g : Forest} (h : f.marks = g.marks) : f = g := by
  have happend : f.marks ++ [] = g.marks ++ [] := by rw [h]
  exact (eq_of_marks_append (by simp) (by simp) happend).1

theorem sum_rise (f : Forest) : (f.marks.map Mark.rise).sum = 0 := by
  induction f with
  | nil => rfl
  | block text rest ih => simp [marks, Mark.rise, ih]
  | list children rest ihc ihr => simp [marks, Mark.rise, ihc, ihr]

end Forest

@[simp] theorem marks_cons (t : Token) (ts : List Token) :
    marks (t :: ts) = t.lexeme.mark :: marks ts := rfl

@[simp] theorem marks_append (ts us : List Token) : marks (ts ++ us) = marks ts ++ marks us := by
  simp [marks]

@[simp] theorem surplus_nil : surplus [] = 0 := rfl

@[simp] theorem surplus_cons (t : Token) (ts : List Token) :
    surplus (t :: ts) = t.lexeme.mark.rise + surplus ts := by
  simp [surplus]

@[simp] theorem surplus_append (ts us : List Token) :
    surplus (ts ++ us) = surplus ts + surplus us := by
  simp [surplus]

/-- The brackets of a forest are all closed. -/
theorem surplus_eq_zero {f : Forest} {ts : List Token} (h : f.marks = marks ts) :
    surplus ts = 0 := by
  rw [surplus, ← h, Forest.sum_rise]

/-- No prefix of a forest closes more brackets than it opens. -/
theorem surplus_nonneg {f : Forest} {ts p : List Token} (h : f.marks = marks ts) (hp : p <+: ts) :
    0 ≤ surplus p := by
  have hmarks : marks p <+: f.marks := h ▸ hp.map _
  rw [surplus]
  generalize marks p = ms at hmarks
  clear h hp
  induction f generalizing ms with
  | nil => simp [List.prefix_nil.mp hmarks]
  | block text rest ih =>
    rcases List.prefix_cons_iff.mp hmarks with rfl | ⟨ms, rfl, hrest⟩
    · simp
    · simpa [Mark.rise] using ih ms hrest
  | list children rest ihc ihr =>
    rcases List.prefix_cons_iff.mp hmarks with rfl | ⟨ms, rfl, hrest⟩
    · simp
    have hclosed : (children.marks.map Mark.rise).sum = 0 := Forest.sum_rise children
    rw [List.map_cons, List.sum_cons, Mark.rise]
    rcases List.prefix_or_prefix_of_prefix hrest (List.prefix_append _ _) with
      hchildren | ⟨ns, rfl⟩
    · have hnonneg := ihc ms hchildren
      omega
    · have hns : ns <+: .closing :: rest.marks := (List.prefix_append_right_inj _).mp hrest
      rcases List.prefix_cons_iff.mp hns with rfl | ⟨ns, rfl, htail⟩
      · simp [hclosed]
      · have hnonneg := ihr ns htail
        simp only [List.map_append, List.sum_append, hclosed, List.map_cons, List.sum_cons,
          Mark.rise]
        omega

/-- If all brackets after one that is opened are closed again, it is the innermost left open. -/
theorem innermostLeftOpen_of_forest {t : Token} {after : List Token}
    (ht : t.lexeme.mark = .opening) {f : Forest} (h : f.marks = marks after) :
    InnermostLeftOpen t after := by
  refine ⟨⟨ht, fun p hp => surplus_nonneg h hp⟩, ?_⟩
  rintro between u later rfl ⟨hu, hlater⟩
  have hbetween : 0 ≤ surplus between := surplus_nonneg h (List.prefix_append _ _)
  have hrest : 0 ≤ surplus later := hlater later List.prefix_rfl
  have hzero := surplus_eq_zero h
  rw [surplus_append, surplus_cons, hu, Mark.rise] at hzero
  omega

/-- There is at most one innermost bracket left open. -/
theorem InnermostLeftOpen.unique {before before' after after' : List Token} {t t' : Token}
    (h : InnermostLeftOpen t after) (h' : InnermostLeftOpen t' after')
    (heq : before ++ t :: after = before' ++ t' :: after') : t = t' := by
  rcases List.append_eq_append_iff.mp heq with ⟨between, rfl, hrest⟩ | ⟨between, rfl, hrest⟩
  · cases between with
    | nil => exact (List.cons.inj hrest).1
    | cons u between => exact absurd h'.1 (h.2 between t' after' (List.cons.inj hrest).2)
  · cases between with
    | nil => exact (List.cons.inj hrest).1.symm
    | cons u between => exact absurd h.1 (h'.2 between t after (List.cons.inj hrest).2)

theorem nested_append_singleton {ts : List Token} {t : Token} :
    Nested (ts ++ [t]) ↔
      Nested ts ∧ 0 ≤ surplus ts + t.lexeme.mark.rise ∧
        surplus ts + t.lexeme.mark.rise < maxReadDepth := by
  have hwhole : surplus (ts ++ [t]) = surplus ts + t.lexeme.mark.rise := by simp
  constructor
  · intro h
    refine ⟨fun p hp => h p (hp.trans (List.prefix_append ts [t])), ?_⟩
    rw [← hwhole]
    exact h _ List.prefix_rfl
  · rintro ⟨h, ht⟩ p hp
    rcases List.prefix_concat_iff.mp hp with rfl | hp
    · rw [hwhole]
      exact ht
    · exact h p hp

namespace Assembly

/-- An assembly holds what some tokens spell: a forest in each list that is open, and between them
the brackets that have opened these lists. -/
inductive Reads : List Token → Assembly → Prop where
  | outermost {ts : List Token} {f : Forest} (hf : f.marks = marks ts) :
    Reads ts ⟨f.values.reverse, []⟩
  | inside {ts us : List Token} {items : List Value} {enclosing : List (List Value × Nat)}
    {t : Token} {f : Forest} (houter : Reads ts ⟨items, enclosing⟩)
    (ht : t.lexeme.mark = .opening) (hf : f.marks = marks us) :
    Reads (ts ++ t :: us) ⟨f.values.reverse, (items, t.offset) :: enclosing⟩

namespace Reads

/-- What follows is added to the innermost list. -/
theorem append {ts us : List Token} {a : Assembly} (h : Reads ts a) {g : Forest}
    (hg : g.marks = marks us) :
    Reads (ts ++ us) { a with items := g.values.reverse ++ a.items } := by
  cases h with
  | @outermost _ f hf =>
    have hfg : (f.append g).marks = marks (ts ++ us) := by
      rw [Forest.marks_append, marks_append, hf, hg]
    simpa [Forest.values_append] using outermost hfg
  | @inside ts vs items enclosing t f houter ht hf =>
    have hfg : (f.append g).marks = marks (vs ++ us) := by
      rw [Forest.marks_append, marks_append, hf, hg]
    simpa [Forest.values_append] using inside houter ht hfg

theorem feed {ts : List Token} {a b : Assembly} {t : Token} (h : Reads ts a)
    (hb : a.feed t = .ok b) : Reads (ts ++ [t]) b := by
  obtain ⟨lexeme, offset⟩ := t
  cases lexeme with
  | opening bracket =>
    simp only [Assembly.feed] at hb
    split at hb
    · cases hb
    · cases hb
      exact inside (f := .nil) h rfl rfl
  | closing bracket =>
    cases h with
    | outermost hf => cases hb
    | @inside ts us items enclosing t f houter ht hf =>
      cases hb
      have hlist : (Forest.list f .nil).marks =
          marks (t :: us ++ [⟨.closing bracket, offset⟩]) := by
        rw [List.cons_append, marks_cons, marks_append, ht, ← hf]
        rfl
      simpa [Forest.values] using houter.append hlist
  | block text =>
    cases hb
    have hblock : (Forest.block text .nil).marks = marks [⟨.block text, offset⟩] := rfl
    simpa [Forest.values] using h.append hblock

/-- As many brackets are open as lists. -/
theorem surplus_eq {ts : List Token} {a : Assembly} (h : Reads ts a) :
    surplus ts = a.enclosing.length := by
  induction h with
  | outermost hf => simpa using surplus_eq_zero hf
  | @inside ts us items enclosing t f _ ht hf ih =>
    have hrise : t.lexeme.mark.rise = 1 := by rw [ht, Mark.rise]
    have hus := surplus_eq_zero hf
    dsimp only at ih
    simp only [surplus_append, surplus_cons, List.length_cons]
    omega

/-- The bracket that the innermost open list comes from. -/
theorem innermostLeftOpen {ts : List Token} {items inner : List Value} {offset : Nat}
    {enclosing : List (List Value × Nat)} (h : Reads ts ⟨inner, (items, offset) :: enclosing⟩) :
    ∃ before t after, ts = before ++ t :: after ∧ t.offset = offset ∧
      InnermostLeftOpen t after := by
  cases h with
  | @inside before after items enclosing t f houter ht hf =>
    exact ⟨before, t, after, rfl, rfl, innermostLeftOpen_of_forest ht hf⟩

end Reads

/-- One more token is refused in two places only. -/
theorem feed_eq_error_iff {a : Assembly} {t : Token} {issue : Issue} :
    a.feed t = .error issue ↔
      (∃ bracket, t.lexeme = .closing bracket ∧ a.enclosing = [] ∧
        issue = .extraClose t.offset bracket) ∨
      (∃ bracket, t.lexeme = .opening bracket ∧ maxReadDepth ≤ a.enclosing.length + 1 ∧
        issue = .tooDeep t.offset) := by
  obtain ⟨items, enclosing⟩ := a
  obtain ⟨lexeme, offset⟩ := t
  cases lexeme with
  | opening bracket =>
    by_cases hdeep : maxReadDepth ≤ enclosing.length + 1 <;> simp [feed, hdeep, eq_comm]
  | closing bracket => cases enclosing <;> simp [feed, eq_comm]
  | block text => simp [feed]

/-- A token is taken if it neither closes more lists than are open nor opens too many. -/
theorem exists_feed_iff {ts : List Token} {a : Assembly} (h : Reads ts a)
    (hdepth : surplus ts < maxReadDepth) (t : Token) :
    (∃ b, a.feed t = .ok b) ↔
      0 ≤ surplus ts + t.lexeme.mark.rise ∧ surplus ts + t.lexeme.mark.rise < maxReadDepth := by
  have hsurplus := h.surplus_eq
  obtain ⟨items, enclosing⟩ := a
  obtain ⟨lexeme, offset⟩ := t
  cases lexeme with
  | opening bracket =>
    by_cases hdeep : maxReadDepth ≤ enclosing.length + 1 <;>
      simp [feed, hdeep, Lexeme.mark, Mark.rise] <;> simp at hsurplus <;> omega
  | closing bracket =>
    cases enclosing <;> simp [feed, Lexeme.mark, Mark.rise] <;> simp at hsurplus <;> omega
  | block text => simp [feed, Lexeme.mark, Mark.rise]; omega

theorem foldlM_concat_eq_ok_iff {ts : List Token} {t : Token} {a b : Assembly} :
    (ts ++ [t]).foldlM feed a = .ok b ↔ ∃ c, ts.foldlM feed a = .ok c ∧ c.feed t = .ok b := by
  rw [List.foldlM_append]
  cases ts.foldlM feed a with
  | error issue => simp [bind, Except.bind]
  | ok c => cases hc : c.feed t <;> simp [bind, Except.bind, hc, pure, Except.pure]

theorem reads_of_foldlM {ts : List Token} {a : Assembly} (h : ts.foldlM feed start = .ok a) :
    Reads ts a := by
  induction ts using List.reverseRecOn generalizing a with
  | nil =>
    cases h
    exact Reads.outermost (f := .nil) rfl
  | append_singleton ts t ih =>
    obtain ⟨b, hb, ha⟩ := foldlM_concat_eq_ok_iff.mp h
    exact (ih hb).feed ha

/-- Tokens are taken to the last one just if their brackets are nested. -/
theorem exists_foldlM_iff (ts : List Token) :
    (∃ a, ts.foldlM feed start = .ok a) ↔ Nested ts := by
  induction ts using List.reverseRecOn with
  | nil =>
    refine ⟨fun _ p hp => ?_, fun _ => ⟨start, rfl⟩⟩
    rw [List.prefix_nil.mp hp]
    decide
  | append_singleton ts t ih =>
    simp only [foldlM_concat_eq_ok_iff, nested_append_singleton, ← ih]
    constructor
    · rintro ⟨b, a, ha, hb⟩
      have hdepth := (ih.mp ⟨a, ha⟩ ts List.prefix_rfl).2
      exact ⟨⟨a, ha⟩, (exists_feed_iff (reads_of_foldlM ha) hdepth t).mp ⟨b, hb⟩⟩
    · rintro ⟨⟨a, ha⟩, ht⟩
      have hdepth := (ih.mp ⟨a, ha⟩ ts List.prefix_rfl).2
      obtain ⟨b, hb⟩ := (exists_feed_iff (reads_of_foldlM ha) hdepth t).mpr ht
      exact ⟨b, a, ha, hb⟩

/-- The first token that is refused tells what is wrong. -/
theorem foldlM_eq_error_iff {ts : List Token} {a : Assembly} {issue : Issue} :
    ts.foldlM feed a = .error issue ↔ ∃ before t after b, ts = before ++ t :: after ∧
      before.foldlM feed a = .ok b ∧ b.feed t = .error issue := by
  constructor
  · intro h
    induction ts generalizing a with
    | nil => cases h
    | cons t ts ih =>
      rw [List.foldlM_cons] at h
      cases ht : a.feed t with
      | error issue' =>
        rw [ht] at h
        cases h
        exact ⟨[], t, ts, a, rfl, rfl, ht⟩
      | ok a' =>
        rw [ht] at h
        obtain ⟨before, u, after, b, rfl, hbefore, hu⟩ := ih h
        refine ⟨t :: before, u, after, b, rfl, ?_, hu⟩
        rw [List.foldlM_cons, ht]
        exact hbefore
  · rintro ⟨before, t, after, b, rfl, hbefore, ht⟩
    rw [List.foldlM_append, hbefore]
    change List.foldlM feed b (t :: after) = _
    rw [List.foldlM_cons, ht]
    rfl

end Assembly

theorem Nested.exists_reads {ts : List Token} (h : Nested ts) :
    ∃ a, ts.foldlM Assembly.feed .start = .ok a ∧ Assembly.Reads ts a := by
  obtain ⟨a, ha⟩ := (Assembly.exists_foldlM_iff ts).mpr h
  exact ⟨a, ha, Assembly.reads_of_foldlM ha⟩

/-- Tokens that are read spell a forest, and stand for its values. -/
theorem exists_forest_of_assemble {ts : List Token} {vs : List Value}
    (h : assemble ts = .ok vs) :
    Nested ts ∧ surplus ts = 0 ∧ ∃ f : Forest, f.marks = marks ts ∧ f.values = vs := by
  have hfold := assemble_eq_ok_iff.mp h
  have hreads := Assembly.reads_of_foldlM hfold
  refine ⟨(Assembly.exists_foldlM_iff ts).mp ⟨_, hfold⟩, hreads.surplus_eq, ?_⟩
  generalize hvs : vs.reverse = items at hreads
  cases hreads with
  | @outermost _ f hf => exact ⟨f, hf, (List.reverse_inj.mp hvs).symm⟩

/-- Balanced tokens are read, as the values of a forest that they spell. -/
theorem assemble_of_nested {ts : List Token} (hnested : Nested ts) (hclosed : surplus ts = 0) :
    ∃ f : Forest, f.marks = marks ts ∧ assemble ts = .ok f.values := by
  obtain ⟨a, ha, hreads⟩ := hnested.exists_reads
  have hsurplus := hreads.surplus_eq
  cases hreads with
  | @outermost _ f hf => exact ⟨f, hf, assemble_eq_ok_iff.mpr ha⟩
  | inside houter ht hf => simp [hclosed] at hsurplus; omega

/-- A bracket that is refused is at fault. -/
theorem fault_of_foldlM {ts : List Token} {issue : Issue}
    (h : ts.foldlM Assembly.feed .start = .error issue) : Fault ts issue := by
  obtain ⟨before, ⟨lexeme, offset⟩, after, a, rfl, ha, ht⟩ := Assembly.foldlM_eq_error_iff.mp h
  have hnested := (Assembly.exists_foldlM_iff before).mp ⟨a, ha⟩
  have hsurplus := (Assembly.reads_of_foldlM ha).surplus_eq
  have hdepth := (hnested before List.prefix_rfl).2
  rcases Assembly.feed_eq_error_iff.mp ht with ⟨bracket, rfl, hnone, rfl⟩ |
    ⟨bracket, rfl, hdeep, rfl⟩
  · exact .extraClose hnested (by simp [hsurplus, hnone])
  · exact .tooDeep hnested (by omega)

/-- Where no bracket is refused, lists may still be open at the end. -/
theorem fault_of_finish {ts : List Token} {a : Assembly} {issue : Issue}
    (ha : ts.foldlM Assembly.feed .start = .ok a) (h : a.finish = .error issue) :
    Fault ts issue := by
  have hreads := Assembly.reads_of_foldlM ha
  have hnested := (Assembly.exists_foldlM_iff ts).mp ⟨a, ha⟩
  have hsurplus := hreads.surplus_eq
  obtain ⟨inner, enclosing⟩ := a
  cases enclosing with
  | nil => cases h
  | cons outer enclosing =>
    cases h
    obtain ⟨before, t, after, rfl, hoffset, hinnermost⟩ := hreads.innermostLeftOpen
    rw [← hoffset]
    exact .unclosed hnested (Nat.succ_pos _) hsurplus hinnermost

theorem assemble_of_refused {before after : List Token} {t : Token} {a : Assembly} {issue : Issue}
    (ha : before.foldlM Assembly.feed .start = .ok a) (ht : a.feed t = .error issue) :
    assemble (before ++ t :: after) = .error issue := by
  have hfold := Assembly.foldlM_eq_error_iff.mpr ⟨before, t, after, a, rfl, ha, ht⟩
  rw [assemble, hfold]
  rfl

/-- Tokens at fault are not read. -/
theorem assemble_of_fault {ts : List Token} {issue : Issue} (h : Fault ts issue) :
    assemble ts = .error issue := by
  cases h with
  | extraClose hbefore hnone =>
    obtain ⟨a, ha, hreads⟩ := hbefore.exists_reads
    have hsurplus := hreads.surplus_eq
    have houtermost : a.enclosing = [] := List.length_eq_zero_iff.mp (by omega)
    exact assemble_of_refused ha
      (Assembly.feed_eq_error_iff.mpr (.inl ⟨_, rfl, houtermost, rfl⟩))
  | tooDeep hbefore hmost =>
    obtain ⟨a, ha, hreads⟩ := hbefore.exists_reads
    have hsurplus := hreads.surplus_eq
    exact assemble_of_refused ha
      (Assembly.feed_eq_error_iff.mpr (.inr ⟨_, rfl, by omega, rfl⟩))
  | unclosed hnested hsome hcount ht =>
    obtain ⟨⟨inner, enclosing⟩, ha, hreads⟩ := hnested.exists_reads
    have hlength : enclosing.length = _ := Int.ofNat.inj (hreads.surplus_eq.symm.trans hcount)
    cases enclosing with
    | nil => exact absurd hlength (Nat.ne_of_lt hsome)
    | cons outer enclosing =>
      -- The bracket of the innermost open list is the innermost one left open.
      obtain ⟨before', t', after', hts, hoffset, ht'⟩ := hreads.innermostLeftOpen
      rw [assemble, ha, ht.unique ht' hts, hoffset, ← hlength]
      rfl

theorem assemble_eq_error_iff {ts : List Token} {issue : Issue} :
    assemble ts = .error issue ↔ Fault ts issue := by
  refine ⟨fun h => ?_, assemble_of_fault⟩
  rw [assemble] at h
  cases ha : ts.foldlM Assembly.feed .start with
  | error issue' =>
    rw [ha] at h
    cases h
    exact fault_of_foldlM ha
  | ok a =>
    rw [ha] at h
    exact fault_of_finish ha h

/-- Tokens are read just if their brackets are balanced and not too deep, as the values of the one
forest that they spell. Otherwise the first bracket that closes no list or opens too many is at
fault; if there is none, the innermost bracket that is left open is. -/
theorem assemble_iff_balanced (ts : List Token) :
    ((∃ vs, assemble ts = .ok vs) ↔ Nested ts ∧ surplus ts = 0) ∧
    (∀ vs, assemble ts = .ok vs →
      ∃ f : Forest, f.marks = marks ts ∧ f.values = vs ∧ ∀ g : Forest, g.marks = marks ts → g = f) ∧
    ∀ issue, assemble ts = .error issue ↔ Fault ts issue := by
  refine ⟨⟨?_, ?_⟩, ?_, fun issue => assemble_eq_error_iff⟩
  · rintro ⟨vs, hvs⟩
    obtain ⟨hnested, hclosed, -⟩ := exists_forest_of_assemble hvs
    exact ⟨hnested, hclosed⟩
  · rintro ⟨hnested, hclosed⟩
    obtain ⟨f, -, hf⟩ := assemble_of_nested hnested hclosed
    exact ⟨f.values, hf⟩
  · intro vs hvs
    obtain ⟨-, -, f, hf, hvalues⟩ := exists_forest_of_assemble hvs
    exact ⟨f, hf, hvalues, fun g hg => Forest.marks_injective (hg.trans hf.symm)⟩

end Lisplet.Reader
