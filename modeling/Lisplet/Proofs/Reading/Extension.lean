import Lisplet.Proofs.Reading.Brackets
import Lisplet.Proofs.Reading.Layout

/-! Texts that go on. A bracket that closes no list, or opens too many, is not mended by anything
that follows it. Lists that are left open are closed by as many brackets on a line of their own. -/
namespace Lisplet.Reader

variable {comments : Bool}

namespace Scanner

theorem suffix_begin (tokens : List Token) (offset : Nat) (c : Char) :
    tokens <:+ (begin comments tokens offset c).1 := by
  unfold begin
  repeat' split
  all_goals first | exact List.suffix_rfl | exact List.suffix_cons _ _

/-- A token that is found stays found. -/
theorem suffix_feed (s : Scanner) (c : Char) : s.tokens <:+ (feed comments s c).tokens := by
  obtain ⟨tokens, mode, offset⟩ := s
  cases mode with
  | between => exact suffix_begin tokens offset c
  | comment => exact List.suffix_rfl
  | plain start text =>
    have hblock : tokens <:+ ⟨.block text.reverse, start⟩ :: tokens := List.suffix_cons _ _
    simp only [feed]
    split
    · exact List.suffix_rfl
    · split
      · exact hblock.trans (suffix_begin _ offset c)
      · exact List.suffix_rfl
  | quoted start text => exact List.suffix_rfl
  | stuck start => exact List.suffix_rfl

theorem suffix_foldl (s : Scanner) (text : List Char) :
    s.tokens <:+ (text.foldl (feed comments) s).tokens := by
  induction text generalizing s with
  | nil => exact List.suffix_rfl
  | cons c text ih => exact (suffix_feed s c).trans (ih (feed comments s c))

/-- At its end a text may have one more block than has been found. -/
theorem tokens_of_finish {s : Scanner} {ts : List Token} (h : s.finish = .ok ts) :
    ∃ last, ts = s.tokens.reverse ++ last ∧ ∀ t ∈ last, ∃ text, t.lexeme = .block text := by
  unfold finish at h
  split at h
  · cases h
    exact ⟨[], by simp, nofun⟩
  · cases h
    exact ⟨[], by simp, nofun⟩
  · rename_i start text _
    cases h
    refine ⟨[⟨.block text.reverse, start⟩], by simp, fun t ht => ?_⟩
    rw [List.mem_singleton.mp ht]
    exact ⟨_, rfl⟩
  · cases h
  · cases h

end Scanner

/-- What follows a text leaves its tokens as they are, but for a block at its end. -/
theorem tokens_of_append {front rest : List Char} {ts us : List Token}
    (hts : tokens comments front = .ok ts) (hus : tokens comments (front ++ rest) = .ok us) :
    ∃ found last later, ts = found ++ last ∧ us = found ++ later ∧
      ∀ t ∈ last, ∃ text, t.lexeme = .block text := by
  obtain ⟨last, rfl, hlast⟩ := Scanner.tokens_of_finish hts
  rw [tokens, List.foldl_append] at hus
  obtain ⟨later, rfl, -⟩ := Scanner.tokens_of_finish hus
  obtain ⟨new, hnew⟩ := @Scanner.suffix_foldl comments
    (front.foldl (Scanner.feed comments) .start) rest
  refine ⟨_, last, new.reverse ++ later, rfl, ?_, hlast⟩
  rw [← hnew, List.reverse_append, List.append_assoc]

/-- A text with an issue has tokens that have it, unless none can be formed. -/
theorem fault_of_values {text : List Char} {issue : Issue} (h : values comments text = .error issue)
    (hformed : ∀ offset, issue ≠ .unformedToken offset) :
    ∃ ts, tokens comments text = .ok ts ∧ Fault ts issue := by
  rw [values] at h
  cases htokens : tokens comments text with
  | error offset =>
    rw [htokens] at h
    cases h
    exact absurd rfl (hformed offset)
  | ok ts =>
    rw [htokens] at h
    exact ⟨ts, rfl, assemble_eq_error_iff.mp h⟩

/-- What no further text can mend is the fault of one bracket, whatever follows it. -/
theorem Fault.exists_bracket {ts : List Token} {issue : Issue} (h : Fault ts issue)
    (hissue : issue.isIncomplete = false) :
    ∃ before t after, ts = before ++ t :: after ∧ (∀ text, t.lexeme ≠ .block text) ∧
      ∀ later, Fault (before ++ t :: later) issue := by
  cases h with
  | extraClose hbefore hnone =>
    exact ⟨_, _, _, rfl, by simp, fun later => .extraClose hbefore hnone⟩
  | tooDeep hbefore hmost =>
    exact ⟨_, _, _, rfl, by simp, fun later => .tooDeep hbefore hmost⟩
  | unclosed hnested hsome hcount ht => cases hissue

/-- A bracket that is refused is refused whatever follows, as long as tokens can be formed. -/
theorem values_append_of_refused {front : List Char} {issue : Issue}
    (h : values comments front = .error issue) (hissue : issue.isIncomplete = false)
    (rest : List Char) :
    values comments (front ++ rest) = .error issue ∨
      ∃ offset, values comments (front ++ rest) = .error (.unformedToken offset) := by
  have hformed (offset : Nat) : issue ≠ .unformedToken offset := by
    rintro rfl
    cases hissue
  obtain ⟨ts, hts, hfault⟩ := fault_of_values h hformed
  rw [values]
  cases hus : tokens comments (front ++ rest) with
  | error offset => exact .inr ⟨offset, rfl⟩
  | ok us =>
    left
    obtain ⟨found, last, later, rfl, rfl, hlast⟩ := tokens_of_append hts hus
    obtain ⟨before, t, after, heq, ht, hlater⟩ := hfault.exists_bracket hissue
    have hnot : t ∉ last := by
      intro hmem
      obtain ⟨text, htext⟩ := hlast t hmem
      exact ht text htext
    -- The bracket is no block, so it is among the tokens that what follows leaves as they are.
    have hfound : ∃ more, found = before ++ t :: more := by
      rcases List.append_eq_append_iff.mp heq with ⟨tail, rfl, htail⟩ | ⟨tail, rfl, htail⟩
      · exact absurd (htail ▸ List.mem_append_right tail List.mem_cons_self) hnot
      · cases tail with
        | nil =>
          rw [List.nil_append] at htail
          exact absurd (htail ▸ List.mem_cons_self) hnot
        | cons u tail =>
          obtain ⟨rfl, -⟩ := List.cons.inj htail
          exact ⟨tail, rfl⟩
    obtain ⟨more, rfl⟩ := hfound
    have hagain := hlater (more ++ later)
    rw [← List.cons_append, ← List.append_assoc] at hagain
    exact assemble_of_fault hagain

/-- As many closing brackets as lists are open leave none open. -/
theorem Assembly.foldlM_closing {us : List Token} (h : ∀ u ∈ us, u.lexeme.mark = .closing)
    (a : Assembly) (hlength : us.length = a.enclosing.length) :
    ∃ items, us.foldlM feed a = .ok ⟨items, []⟩ := by
  induction us generalizing a with
  | nil =>
    obtain ⟨items, enclosing⟩ := a
    obtain rfl := List.length_eq_zero_iff.mp hlength.symm
    exact ⟨items, rfl⟩
  | cons u us ih =>
    obtain ⟨items, enclosing⟩ := a
    obtain ⟨hu, hus⟩ := List.forall_mem_cons.mp h
    cases enclosing with
    | nil => cases hlength
    | cons frame enclosing =>
      obtain ⟨outer, offset⟩ := frame
      obtain ⟨bracket, hbracket⟩ : ∃ bracket, u.lexeme = .closing bracket := by
        cases hlexeme : u.lexeme with
        | closing bracket => exact ⟨bracket, rfl⟩
        | opening bracket => simp [hlexeme, Lexeme.mark] at hu
        | block text => simp [hlexeme, Lexeme.mark] at hu
      have hfeed : feed ⟨items, (outer, offset) :: enclosing⟩ u =
          .ok ⟨Value.ofList items.reverse :: outer, enclosing⟩ := by simp [feed, hbracket]
      rw [List.foldlM_cons, hfeed]
      exact ih hus _ (Nat.succ.inj hlength)

/-- Closing brackets are read as that. -/
theorem exists_layout_closing {closers : List Char} (h : ∀ c ∈ closers, isClosing c = true)
    (offset : Nat) :
    ∃ us, Layout comments [] offset closers us ∧ us.length = closers.length ∧
      ∀ u ∈ us, u.lexeme.mark = .closing := by
  induction closers generalizing offset with
  | nil => exact ⟨[], .nil, rfl, nofun⟩
  | cons c closers ih =>
    obtain ⟨hc, hclosers⟩ := List.forall_mem_cons.mp h
    obtain ⟨us, hlayout, hlength, hus⟩ := ih hclosers (offset + Text.byteLength [c])
    have htoken := @Layout.token comments [] offset (.closing c) closers us hc hlayout
    refine ⟨_, htoken, ?_, ?_⟩
    · rw [List.length_cons, List.length_cons, hlength]
    · exact List.forall_mem_cons.mpr ⟨rfl, hus⟩

/-- Where lists are left open, the end of the line and as many closing brackets complete a text. -/
theorem values_close {front : List Char} {ts : List Token} {offset count : Nat}
    (hts : tokens comments front = .ok ts) (hfault : Fault ts (.unclosed offset count))
    {closers : List Char} (hlength : closers.length = count)
    (hclosers : ∀ c ∈ closers, isClosing c = true) :
    ∃ vs, values comments (front ++ '\n' :: closers) = .ok vs := by
  have hline : tokens comments (front ++ ['\n']) = .ok ts := by
    rw [tokens, List.foldl_append]
    exact Scanner.finish_feed_newline comments hts
  obtain ⟨us, hlayout, huslength, hus⟩ := @exists_layout_closing comments closers hclosers 0
  have hall : ∃ k,
      tokens comments (front ++ '\n' :: closers) = .ok (ts ++ us.map (Token.shift k)) := by
    rcases tokens_line comments front with ⟨offset', hunformed⟩ | ⟨ts', k, hts', hrest⟩
    · rw [hline] at hunformed
      cases hunformed
    · rw [hline] at hts'
      cases hts'
      exact ⟨k, by rw [hrest, hlayout.tokens_eq]⟩
  obtain ⟨k, hall⟩ := hall
  cases hfault with
  | unclosed hnested hsome hcount ht =>
    obtain ⟨a, ha, hreads⟩ := hnested.exists_reads
    have hopen : a.enclosing.length = count := Int.ofNat.inj (hreads.surplus_eq.symm.trans hcount)
    have hshifted : ∀ u ∈ us.map (Token.shift k), u.lexeme.mark = .closing := by
      intro u hu
      obtain ⟨u', hu', rfl⟩ := List.mem_map.mp hu
      exact hus u' hu'
    have hlengths : (us.map (Token.shift k)).length = a.enclosing.length := by
      rw [List.length_map, huslength, hlength, hopen]
    obtain ⟨items, hclose⟩ := Assembly.foldlM_closing hshifted a hlengths
    refine ⟨items.reverse, ?_⟩
    rw [values, hall]
    apply assemble_eq_ok_iff.mpr
    rw [List.foldlM_append, ha, List.reverse_reverse]
    exact hclose

/-- If a text is not read for good, neither is any that starts with it: a bracket stays at fault
unless no token can be formed before brackets are looked at. If some lists are left open in a text,
it is read with just as many closing brackets of either kind on the next line. -/
theorem readProgram_extended (comments : Bool) (source : String) (e : ReadError)
    (h : readProgram comments source = .error e) :
    (e.kind.isIncomplete = false → ∀ rest : String, ∃ e',
      readProgram comments (source ++ rest) = .error e' ∧
        (e'.kind = e.kind ∨ e'.kind = .unterminatedString)) ∧
    (e.kind = .unclosed → ∃ ts count, tokens comments source.toList = .ok ts ∧
      surplus ts = (count : Nat) ∧
      e.message = "Unclosed parenthesis (" ++ count.repr ++ " still open at end of input)" ∧
      ∀ closers : String, closers.toList.length = count →
        (∀ c ∈ closers.toList, isClosing c = true) →
        ∃ vs, readProgram comments (source ++ "\n" ++ closers) = .ok vs) := by
  rw [readProgram] at h
  cases hvalues : values comments source.toList with
  | ok vs =>
    rw [hvalues] at h
    cases h
  | error issue =>
    rw [hvalues] at h
    cases h
    constructor
    · intro hincomplete rest
      rw [Issue.isIncomplete_toError] at hincomplete
      have hrest := values_append_of_refused hvalues hincomplete rest.toList
      simp only [readProgram, String.toList_append]
      rcases hrest with hsame | ⟨offset, hunformed⟩
      · refine ⟨issue.toError (source.toList ++ rest.toList), by rw [hsame], .inl ?_⟩
        cases issue <;> rfl
      · exact ⟨Issue.toError (source.toList ++ rest.toList) (.unformedToken offset),
          by rw [hunformed], .inr rfl⟩
    · intro hkind
      cases issue with
      | unclosed offset count =>
        obtain ⟨ts, hts, hfault⟩ := fault_of_values hvalues (by simp)
        have hsurplus : surplus ts = count := by
          cases hfault with
          | unclosed hnested hsome hcount ht => exact hcount
        refine ⟨ts, count, hts, hsurplus, rfl, fun closers hlength hclosers => ?_⟩
        obtain ⟨vs, hvs⟩ := values_close hts hfault hlength hclosers
        refine ⟨vs, readProgram_eq_ok_iff.mpr ?_⟩
        simpa using hvs
      | unformedToken offset => cases hkind
      | extraClose offset bracket => cases hkind
      | tooDeep offset => cases hkind

theorem readProgram_extended_refused_and_open :
    (∃ e e', readProgram true "a)" = .error e ∧ e.kind.isIncomplete = false ∧
      readProgram true ("a)" ++ " (b") = .error e' ∧
        (e'.kind = e.kind ∨ e'.kind = .unterminatedString)) ∧
    ∃ e vs, readProgram true "(a [b" = .error e ∧ e.kind = .unclosed ∧
      readProgram true ("(a [b" ++ "\n" ++ "])") = .ok vs := by
  have hrefused : readProgram true "a)" =
      .error (Issue.toError "a)".toList (.extraClose 1 ')')) := by rfl
  have hopen : readProgram true "(a [b" =
      .error (Issue.toError "(a [b".toList (.unclosed 0 2)) := by rfl
  constructor
  · obtain ⟨hfinal, -⟩ := readProgram_extended true _ _ hrefused
    obtain ⟨e', he', hkind⟩ := hfinal rfl " (b"
    exact ⟨_, e', hrefused, rfl, he', hkind⟩
  · obtain ⟨-, hclose⟩ := readProgram_extended true _ _ hopen
    obtain ⟨ts, count, hts, hcount, -, hclosers⟩ := hclose rfl
    have htwo : count = 2 := by
      have htokens : tokens true "(a [b".toList =
          .ok [⟨.opening '(', 0⟩, ⟨.block ['a'], 1⟩, ⟨.opening '[', 3⟩, ⟨.block ['b'], 4⟩] := by
        decide +kernel
      rw [htokens] at hts
      cases hts
      exact (Int.ofNat.inj hcount).symm
    subst htwo
    obtain ⟨vs, hvs⟩ := hclosers "])" (by decide) (by simp [isClosing])
    exact ⟨_, vs, hopen, rfl, hvs⟩

end Lisplet.Reader
