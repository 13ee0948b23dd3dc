import Lisplet.Proofs.Reading

/-! Comments. A text with comments is read like the text that has spaces in their place. -/
namespace Lisplet.Reader

/-- Where a text may have come to: outside of quotes and comments, inside quotes, or in a comment. -/
inductive Place where
  | code
  | quotes
  | comment
deriving DecidableEq

/-- Where a text comes to with one more character. In a comment quotes do not count, and the line
feed that ends it is no part of it. -/
def Place.next : Place → Char → Place
  | code, c => if c = '"' then quotes else if c = ';' then comment else code
  | quotes, c => if c = '"' then code else quotes
  | comment, c => if c = '\n' then code else comment

def blankedFrom : Place → List Char → List Char
  | _, [] => []
  | place, c :: rest =>
    (if place.next c = .comment then ' ' else c) :: blankedFrom (place.next c) rest

/-- A text with a space for every character of its comments. -/
def blanked (text : List Char) : List Char := blankedFrom .code text

/-- A comment is blanked up to the end of the line, whatever is in it. -/
theorem blankedFrom_comment {text rest : List Char} (htext : '\n' ∉ text)
    (hrest : ∀ c ∈ rest.head?, c = '\n') :
    blankedFrom .code (';' :: text ++ rest) =
      List.replicate (text.length + 1) ' ' ++ blankedFrom .code rest := by
  have hinside : blankedFrom .comment (text ++ rest) =
      List.replicate text.length ' ' ++ blankedFrom .code rest := by
    induction text with
    | nil =>
      cases rest with
      | nil => rfl
      | cons c rest =>
        obtain rfl := hrest c rfl
        rfl
    | cons c text ih =>
      obtain ⟨hc, htext⟩ := not_or.mp (mt List.mem_cons.mpr htext)
      have hnext : Place.next .comment c = .comment := if_neg (Ne.symm hc)
      rw [List.cons_append, blankedFrom, hnext, ih htext]
      rfl
  rw [List.cons_append, blankedFrom]
  exact congrArg (' ' :: ·) hinside

def Issue.kind : Issue → ReadError.Kind
  | unformedToken _ => .unterminatedString
  | extraClose _ _ => .unexpectedClose
  | tooDeep _ => .tooDeep
  | unclosed _ _ => .unclosed

theorem Issue.kind_toError (input : List Char) (issue : Issue) :
    (issue.toError input).kind = issue.kind := by
  cases issue <;> rfl

/-- Two steps of reading that have related results, or issues of one kind. -/
inductive Agree {α β : Type} (R : α → β → Prop) : Except Issue α → Except Issue β → Prop
  | ok {a : α} {b : β} (h : R a b) : Agree R (.ok a) (.ok b)
  | error {i j : Issue} (h : i.kind = j.kind) : Agree R (.error i) (.error j)

theorem Agree.bind {α β α' β' : Type} {R : α → β → Prop} {S : α' → β' → Prop}
    {x : Except Issue α} {y : Except Issue β} {f : α → Except Issue α'} {g : β → Except Issue β'}
    (h : Agree R x y) (hfg : ∀ a b, R a b → Agree S (f a) (g b)) : Agree S (x >>= f) (y >>= g) := by
  cases h with
  | ok h => exact hfg _ _ h
  | error h => exact .error h

namespace Assembly

/-- Two assemblies that differ at most in the offsets of brackets. -/
structure Alike (a b : Assembly) : Prop where
  items : a.items = b.items
  enclosing : a.enclosing.map Prod.fst = b.enclosing.map Prod.fst

theorem feed_alike {a b : Assembly} (h : a.Alike b) {t u : Token} (ht : t.lexeme = u.lexeme) :
    Agree Alike (a.feed t) (b.feed u) := by
  obtain ⟨items, enclosing⟩ := a
  obtain ⟨items', enclosing'⟩ := b
  obtain ⟨lexeme, offset⟩ := t
  obtain ⟨lexeme', offset'⟩ := u
  obtain ⟨rfl, henclosing⟩ := h
  obtain rfl : lexeme = lexeme' := ht
  have hlength : enclosing.length = enclosing'.length := by
    simpa using congrArg List.length henclosing
  cases lexeme with
  | opening bracket =>
    simp only [feed, hlength]
    split
    · exact .error rfl
    · exact .ok ⟨rfl, congrArg (items :: ·) henclosing⟩
  | closing bracket =>
    cases enclosing with
    | nil =>
      obtain rfl := List.length_eq_zero_iff.mp hlength.symm
      exact .error rfl
    | cons frame enclosing =>
      cases enclosing' with
      | nil => cases henclosing
      | cons frame' enclosing' =>
        obtain ⟨hframe, henclosing⟩ := List.cons.inj henclosing
        exact .ok ⟨congrArg (_ :: ·) hframe, henclosing⟩
  | block text => exact .ok ⟨rfl, henclosing⟩

theorem foldlM_feed_alike {ts us : List Token} (hts : ts.map Token.lexeme = us.map Token.lexeme)
    {a b : Assembly} (h : a.Alike b) : Agree Alike (ts.foldlM feed a) (us.foldlM feed b) := by
  induction ts generalizing us a b with
  | nil =>
    obtain rfl := List.map_eq_nil_iff.mp hts.symm
    exact .ok h
  | cons t ts ih =>
    cases us with
    | nil => cases hts
    | cons u us =>
      obtain ⟨ht, hts⟩ := List.cons.inj hts
      rw [List.foldlM_cons, List.foldlM_cons]
      exact (feed_alike h ht).bind fun a b => ih hts

theorem finish_alike {a b : Assembly} (h : a.Alike b) : Agree (· = ·) a.finish b.finish := by
  obtain ⟨items, enclosing⟩ := a
  obtain ⟨items', enclosing'⟩ := b
  obtain ⟨rfl, henclosing⟩ := h
  cases enclosing with
  | nil =>
    obtain rfl := List.map_eq_nil_iff.mp henclosing.symm
    exact .ok rfl
  | cons frame enclosing =>
    cases enclosing' with
    | nil => cases henclosing
    | cons frame' enclosing' => exact .error rfl

end Assembly

/-- Where tokens stand makes no difference to what they spell. -/
theorem assemble_alike {ts us : List Token} (h : ts.map Token.lexeme = us.map Token.lexeme) :
    Agree (· = ·) (assemble ts) (assemble us) :=
  (Assembly.foldlM_feed_alike h ⟨rfl, rfl⟩).bind fun _ _ => Assembly.finish_alike

/-- Where a scanner that reads comments stands, and one that has spaces for them. Once no token can
be formed, it makes no difference what the characters are. -/
inductive Mode.Alike : Place → Mode → Mode → Prop
  | between : Alike .code .between .between
  | comment : Alike .comment .comment .between
  | plain (start start' : Nat) (text : List Char) :
    Alike .code (.plain start text) (.plain start' text)
  | quoted (start start' : Nat) (text : List Char) :
    Alike .quotes (.quoted start text) (.quoted start' text)
  | stuck (place : Place) (start start' : Nat) : Alike place (.stuck start) (.stuck start')

namespace Scanner

/-- Two scanners that have found the same lexemes, and stand alike. -/
structure Alike (place : Place) (s t : Scanner) : Prop where
  lexemes : s.tokens.map Token.lexeme = t.tokens.map Token.lexeme
  mode : Mode.Alike place s.mode t.mode

/-- Between tokens a comment starts like a space, and all else is taken alike. -/
theorem begin_alike {ts us : List Token} (h : ts.map Token.lexeme = us.map Token.lexeme)
    (offset offset' next next' : Nat) (c : Char) :
    let shown := if Place.next .code c = .comment then ' ' else c
    Alike (Place.next .code c)
      ⟨(begin true ts offset c).1, (begin true ts offset c).2, next⟩
      ⟨(begin false us offset' shown).1, (begin false us offset' shown).2, next'⟩ := by
  intro shown
  by_cases hcomment : c = ';'
  · subst hcomment
    exact ⟨h, .comment⟩
  have hquote : Place.next .code c = if c = '"' then .quotes else .code := by
    simp [Place.next, hcomment]
  have hshown : shown = c := by
    simp only [shown, hquote]
    split <;> simp
  by_cases hc : c = '"'
  · subst hc
    exact ⟨h, .quoted offset offset' ['"']⟩
  rw [hshown, hquote, if_neg hc]
  have hmore (lexeme : Lexeme) : (⟨lexeme, offset⟩ :: ts).map Token.lexeme =
      (⟨lexeme, offset'⟩ :: us).map Token.lexeme := congrArg (lexeme :: ·) h
  simp only [begin, hcomment, hc, decide_false, Bool.and_false, Bool.false_eq_true, if_false]
  split
  · exact ⟨h, .between⟩
  split
  · exact ⟨hmore _, .between⟩
  split
  · exact ⟨hmore _, .between⟩
  split
  · exact ⟨h, .stuck _ offset offset'⟩
  · exact ⟨h, .plain offset offset' [c]⟩

/-- What ends a block where comments are read, ends it without them if it is shown as a space. -/
theorem isDelimiter_shown {c : Char} (h : isDelimiter true c = true) :
    isDelimiter false (if Place.next .code c = .comment then ' ' else c) = true := by
  by_cases hcomment : c = ';'
  · subst hcomment
    rfl
  · have hplain : isDelimiter false c = true := by simpa [isDelimiter, hcomment] using h
    split
    · rfl
    · exact hplain

/-- A comment is scanned as the spaces that stand for it. -/
theorem feed_alike {place : Place} {s t : Scanner} (h : Alike place s t) (c : Char) :
    Alike (place.next c) (feed true s c)
      (feed false t (if place.next c = .comment then ' ' else c)) := by
  obtain ⟨tokens, mode, offset⟩ := s
  obtain ⟨tokens', mode', offset'⟩ := t
  obtain ⟨hlexemes, hmode⟩ := h
  dsimp only at hlexemes hmode
  cases hmode with
  | between => exact begin_alike hlexemes offset offset' _ _ c
  | comment =>
    by_cases hc : c = '\n'
    · subst hc
      exact ⟨hlexemes, .between⟩
    · have hnext : Place.next .comment c = .comment := if_neg hc
      have hfeed : feed true ⟨tokens, .comment, offset⟩ c =
          ⟨tokens, .comment, offset + c.utf8Size⟩ := by simp [feed, hc]
      rw [hnext, if_pos rfl, hfeed]
      exact ⟨hlexemes, .comment⟩
  | plain start start' text =>
    by_cases hquote : c = '"'
    · subst hquote
      exact ⟨hlexemes, .quoted start start' _⟩
    by_cases hdelimiter : isDelimiter true c = true
    · -- What ends the block is met as if it stood between tokens.
      have hshown := isDelimiter_shown hdelimiter
      have hblock : (⟨.block text.reverse, start⟩ :: tokens).map Token.lexeme =
          (⟨.block text.reverse, start'⟩ :: tokens').map Token.lexeme :=
        congrArg (Lexeme.block text.reverse :: ·) hlexemes
      rw [← feed_settle _ hdelimiter, ← feed_settle _ hshown]
      exact begin_alike hblock offset offset' _ _ c
    · have hcomment : c ≠ ';' := by
        rintro rfl
        exact hdelimiter rfl
      have hnext : Place.next .code c = .code := by simp [Place.next, hquote, hcomment]
      have hplain : isDelimiter false c = false := by
        simp_all [isDelimiter]
      have hfeed : feed true ⟨tokens, .plain start text, offset⟩ c =
          ⟨tokens, .plain start (c :: text), offset + c.utf8Size⟩ := by
        simp [feed, hquote, hdelimiter]
      have hfeed' : feed false ⟨tokens', .plain start' text, offset'⟩ c =
          ⟨tokens', .plain start' (c :: text), offset' + c.utf8Size⟩ := by
        simp [feed, hquote, hplain]
      rw [hnext, if_neg (by simp), hfeed, hfeed']
      exact ⟨hlexemes, .plain start start' _⟩
  | quoted start start' text =>
    by_cases hquote : c = '"'
    · subst hquote
      exact ⟨hlexemes, .plain start start' _⟩
    · have hnext : Place.next .quotes c = .quotes := if_neg hquote
      have hfeed (comments : Bool) (tokens : List Token) (start offset : Nat) :
          feed comments ⟨tokens, .quoted start text, offset⟩ c =
            ⟨tokens, .quoted start (c :: text), offset + c.utf8Size⟩ := by simp [feed, hquote]
      rw [hnext, if_neg (by simp), hfeed, hfeed]
      exact ⟨hlexemes, .quoted start start' _⟩
  | stuck place start start' => exact ⟨hlexemes, .stuck _ start start'⟩

theorem foldl_feed_alike {place : Place} {s t : Scanner} (h : Alike place s t) (text : List Char) :
    ∃ place', Alike place' (text.foldl (feed true) s)
      ((blankedFrom place text).foldl (feed false) t) := by
  induction text generalizing place s t with
  | nil => exact ⟨place, h⟩
  | cons c text ih => exact ih (feed_alike h c)

theorem finish_alike {place : Place} {s t : Scanner} (h : Alike place s t) :
    (∃ ts us, s.finish = .ok ts ∧ t.finish = .ok us ∧
      ts.map Token.lexeme = us.map Token.lexeme) ∨
    ∃ offset offset', s.finish = .error offset ∧ t.finish = .error offset' := by
  obtain ⟨tokens, mode, offset⟩ := s
  obtain ⟨tokens', mode', offset'⟩ := t
  obtain ⟨hlexemes, hmode⟩ := h
  dsimp only at hlexemes hmode
  have hreverse : tokens.reverse.map Token.lexeme = tokens'.reverse.map Token.lexeme := by
    rw [List.map_reverse, List.map_reverse, hlexemes]
  cases hmode with
  | between => exact .inl ⟨_, _, rfl, rfl, hreverse⟩
  | comment => exact .inl ⟨_, _, rfl, rfl, hreverse⟩
  | plain start start' text =>
    refine .inl ⟨_, _, rfl, rfl, ?_⟩
    rw [List.reverse_cons, List.reverse_cons, List.map_append, List.map_append, hreverse]
    rfl
  | quoted start start' text => exact .inr ⟨_, _, rfl, rfl⟩
  | stuck place start start' => exact .inr ⟨_, _, rfl, rfl⟩

end Scanner

/-- A text with comments spells what the text with spaces in their place does. -/
theorem values_blanked (text : List Char) :
    Agree (· = ·) (values true text) (values false (blanked text)) := by
  have hstart : Scanner.Alike .code .start .start := ⟨rfl, .between⟩
  obtain ⟨place, h⟩ := Scanner.foldl_feed_alike hstart text
  rw [values, values, tokens, tokens, blanked]
  rcases Scanner.finish_alike h with ⟨ts, us, hts, hus, hlexemes⟩ | ⟨offset, offset', hs, ht⟩
  · rw [hts, hus]
    exact assemble_alike hlexemes
  · rw [hs, ht]
    exact .error rfl

/-- Comments are as good as spaces. A text is read with comments just as the text with a space for
every character of a comment is read without: both give the same values, or both an error of the
same kind. -/
theorem readProgram_blanked (source : String) :
    (∃ vs, readProgram true source = .ok vs ∧
      readProgram false (String.ofList (blanked source.toList)) = .ok vs) ∨
    ∃ e e', readProgram true source = .error e ∧
      readProgram false (String.ofList (blanked source.toList)) = .error e' ∧
      e.kind = e'.kind := by
  have h := values_blanked source.toList
  simp only [readProgram, String.toList_ofList]
  generalize values true source.toList = x at h
  generalize values false (blanked source.toList) = y at h
  cases h with
  | ok h => exact .inl ⟨_, rfl, h ▸ rfl⟩
  | error h => exact .inr ⟨_, _, rfl, rfl, by rw [Issue.kind_toError, Issue.kind_toError, h]⟩

/-- A semicolon in a string starts no comment, and a quote in a comment no string. -/
example : String.ofList (blanked "(f \"a;b\" ;c\"\n d)".toList) = "(f \"a;b\"    \n d)" := by decide

end Lisplet.Reader
