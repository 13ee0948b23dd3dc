import Lisplet.Proofs.Reading

/-! Reading in pieces. Where a line ends and every list is closed, what follows is read as if it
stood alone; and a text that can be read has no beginning that is wrong for good. -/
namespace Lisplet.Reader

def Token.shift (k : Nat) (t : Token) : Token := ⟨t.lexeme, t.offset + k⟩

def Mode.shift (k : Nat) : Mode → Mode
  | between => between
  | comment => comment
  | plain start text => plain (start + k) text
  | quoted start text => quoted (start + k) text
  | stuck start => stuck (start + k)

def Issue.shift (k : Nat) : Issue → Issue
  | unformedToken offset => unformedToken (offset + k)
  | extraClose offset bracket => extraClose (offset + k) bracket
  | tooDeep offset => tooDeep (offset + k)
  | unclosed offset count => unclosed (offset + k) count

/-- Whether more text can resolve an issue. -/
def Issue.isIncomplete : Issue → Bool
  | unformedToken _ => true
  | unclosed _ _ => true
  | _ => false

theorem Issue.isIncomplete_toError (input : List Char) (issue : Issue) :
    (issue.toError input).kind.isIncomplete = issue.isIncomplete := by
  cases issue <;> rfl

namespace Scanner

/-- A scanner that has found tokens in `k` bytes before. -/
def after (earlier : List Token) (k : Nat) (s : Scanner) : Scanner :=
  ⟨s.tokens.map (Token.shift k) ++ earlier, s.mode.shift k, s.offset + k⟩

variable (comments : Bool) (earlier : List Token) (k : Nat)

theorem begin_after (tokens : List Token) (offset : Nat) (c : Char) :
    begin comments (tokens.map (Token.shift k) ++ earlier) (offset + k) c =
      ((begin comments tokens offset c).1.map (Token.shift k) ++ earlier,
        (begin comments tokens offset c).2.shift k) := by
  unfold begin
  repeat' split
  all_goals rfl

theorem feed_after (s : Scanner) (c : Char) :
    feed comments (s.after earlier k) c = (feed comments s c).after earlier k := by
  obtain ⟨tokens, mode, offset⟩ := s
  have hoffset : offset + k + c.utf8Size = offset + c.utf8Size + k := by omega
  cases mode with
  | between => simp [feed, after, Mode.shift, begin_after, hoffset]
  | comment =>
    simp only [feed, after, Mode.shift, hoffset]
    split <;> rfl
  | plain start text =>
    have hblock := begin_after comments earlier k (⟨.block text.reverse, start⟩ :: tokens) offset c
    simp only [feed, after, Mode.shift, hoffset]
    split
    · rfl
    · split
      · exact congrArg (fun p => Scanner.mk p.1 p.2 (offset + c.utf8Size + k)) hblock
      · rfl
  | quoted start text =>
    simp only [feed, after, Mode.shift, hoffset]
    split <;> rfl
  | stuck start => simp [feed, after, Mode.shift, hoffset]

theorem foldl_feed_after (s : Scanner) (text : List Char) :
    text.foldl (feed comments) (s.after earlier k) =
      (text.foldl (feed comments) s).after earlier k := by
  induction text generalizing s with
  | nil => rfl
  | cons c text ih => rw [List.foldl_cons, feed_after, ih, List.foldl_cons]

theorem finish_after (s : Scanner) :
    (s.after earlier k).finish =
      match s.finish with
      | .ok ts => .ok (earlier.reverse ++ ts.map (Token.shift k))
      | .error offset => .error (offset + k) := by
  obtain ⟨tokens, mode, offset⟩ := s
  cases mode <;> simp [finish, after, Mode.shift, Token.shift]

/-- After the end of a line a scanner starts anew, unless no token can be formed there yet. -/
theorem feed_newline (s : Scanner) :
    (∃ ts k, feed comments s '\n' = after ts k .start) ∨
      ∃ offset, (feed comments s '\n').finish = .error offset := by
  obtain ⟨found, mode, offset⟩ := s
  have hsettled (ts : List Token) : ∃ ts' k,
      (⟨ts, .between, offset + '\n'.utf8Size⟩ : Scanner) = after ts' k .start :=
    ⟨ts, offset + '\n'.utf8Size, by simp [after, start, Mode.shift]⟩
  cases mode with
  | quoted start text => exact .inr ⟨start, rfl⟩
  | stuck start => exact .inr ⟨start, rfl⟩
  | _ => exact .inl (hsettled _)

/-- A line feed ends the last token and is none. -/
theorem finish_feed_newline {s : Scanner} {ts : List Token} (h : s.finish = .ok ts) :
    (feed comments s '\n').finish = .ok ts := by
  obtain ⟨tokens, mode, offset⟩ := s
  cases mode with
  | quoted start text => cases h
  | stuck start => cases h
  | _ => rw [← h]; cases comments <;> rfl

theorem foldl_feed_stuck (text : List Char) {s : Scanner} {start : Nat}
    (h : s.mode = .stuck start) : (text.foldl (feed comments) s).mode = .stuck start := by
  induction text generalizing s with
  | nil => exact h
  | cons c text ih =>
    refine ih ?_
    simp [feed, h]

/-- No token starts with a blank that is no space. -/
theorem feed_stray {c : Char} (hblank : Text.isBlank c = true) (hspace : isSpace c = false)
    (tokens : List Token) (offset : Nat) :
    (feed comments ⟨tokens, .between, offset⟩ c).mode = .stuck offset := by
  have hne (d : Char) (hd : Text.isBlank d = false) : c ≠ d := by
    rintro rfl
    rw [hblank] at hd
    cases hd
  simp [feed, begin, hspace, isOpening, isClosing, hblank, hne ';' rfl, hne '(' rfl, hne '[' rfl,
    hne ')' rfl, hne ']' rfl, hne '"' rfl]

/-- A blank is passed over, or it is one that starts no token. -/
theorem feed_blank {c : Char} (h : Text.isBlank c = true) (tokens : List Token) (offset : Nat) :
    (∃ offset', feed comments ⟨tokens, .between, offset⟩ c = ⟨tokens, .between, offset'⟩) ∨
      (feed comments ⟨tokens, .between, offset⟩ c).mode = .stuck offset := by
  by_cases hspace : isSpace c = true
  · exact .inl ⟨offset + c.utf8Size, by simp [feed, begin, hspace]⟩
  · exact .inr (feed_stray comments h ((Bool.not_eq_true _).mp hspace) tokens offset)

/-- Blanks are passed over, or the scanner gets stuck at one of them. -/
theorem foldl_feed_blanks {line : List Char} (h : ∀ c ∈ line, Text.isBlank c = true)
    (tokens : List Token) (offset : Nat) :
    (∃ offset', line.foldl (feed comments) ⟨tokens, .between, offset⟩ =
        ⟨tokens, .between, offset'⟩) ∨
      ∃ start, (line.foldl (feed comments) ⟨tokens, .between, offset⟩).mode = .stuck start := by
  induction line generalizing offset with
  | nil => exact .inl ⟨offset, rfl⟩
  | cons c line ih =>
    obtain ⟨hc, hline⟩ := List.forall_mem_cons.mp h
    rw [List.foldl_cons]
    rcases feed_blank comments hc tokens offset with ⟨offset', hfeed⟩ | hstuck
    · rw [hfeed]
      exact ih hline offset'
    · exact .inr ⟨offset, foldl_feed_stuck comments line hstuck⟩

end Scanner

namespace Assembly

def onto (base : List Value) (k : Nat) (items : List Value) :
    List (List Value × Nat) → Assembly
  | [] => ⟨items ++ base, []⟩
  | (outer, offset) :: enclosing =>
    ⟨items, ((onto base k outer enclosing).items, offset + k) ::
      (onto base k outer enclosing).enclosing⟩

variable (base : List Value) (k : Nat)

@[simp] theorem length_onto (items : List Value) (enclosing : List (List Value × Nat)) :
    (onto base k items enclosing).enclosing.length = enclosing.length := by
  induction enclosing generalizing items with
  | nil => rfl
  | cons frame enclosing ih => simp [onto, ih]

theorem onto_cons (v : Value) (items : List Value) (enclosing : List (List Value × Nat)) :
    onto base k (v :: items) enclosing =
      ⟨v :: (onto base k items enclosing).items, (onto base k items enclosing).enclosing⟩ := by
  cases enclosing <;> rfl

theorem feed_onto (a : Assembly) (t : Token) :
    (onto base k a.items a.enclosing).feed (t.shift k) =
      match a.feed t with
      | .ok b => .ok (onto base k b.items b.enclosing)
      | .error issue => .error (issue.shift k) := by
  obtain ⟨items, enclosing⟩ := a
  obtain ⟨lexeme, offset⟩ := t
  cases lexeme with
  | opening bracket =>
    simp only [feed, Token.shift, length_onto]
    split <;> rfl
  | closing bracket =>
    cases enclosing with
    | nil => rfl
    | cons frame enclosing => simp [feed, Token.shift, onto, onto_cons]
  | block text => simp [feed, Token.shift, onto_cons]

theorem foldlM_feed_onto (ts : List Token) (a : Assembly) :
    (ts.map (Token.shift k)).foldlM feed (onto base k a.items a.enclosing) =
      match ts.foldlM feed a with
      | .ok b => .ok (onto base k b.items b.enclosing)
      | .error issue => .error (issue.shift k) := by
  induction ts generalizing a with
  | nil => rfl
  | cons t ts ih =>
    rw [List.map_cons, List.foldlM_cons, List.foldlM_cons, feed_onto]
    cases a.feed t with
    | error issue => rfl
    | ok b => exact ih b

theorem finish_onto (a : Assembly) :
    (onto base k a.items a.enclosing).finish =
      match a.finish with
      | .ok vs => .ok (base.reverse ++ vs)
      | .error issue => .error (issue.shift k) := by
  obtain ⟨items, enclosing⟩ := a
  cases enclosing with
  | nil => simp [finish, onto]
  | cons frame enclosing => simp [finish, onto, Issue.shift]

end Assembly

/-- Tokens that come after a complete program are assembled as if they stood alone. -/
theorem assemble_append {ts us : List Token} {xs : List Value} (h : assemble ts = .ok xs)
    (k : Nat) : assemble (ts ++ us.map (Token.shift k)) =
      match assemble us with
      | .ok ys => .ok (xs ++ ys)
      | .error issue => .error (issue.shift k) := by
  have honto : (⟨xs.reverse, []⟩ : Assembly) =
      Assembly.onto xs.reverse k Assembly.start.items Assembly.start.enclosing := rfl
  have hrest := Assembly.foldlM_feed_onto xs.reverse k us .start
  have hfold : (ts ++ us.map (Token.shift k)).foldlM Assembly.feed .start =
      (us.map (Token.shift k)).foldlM Assembly.feed
        (Assembly.onto xs.reverse k Assembly.start.items Assembly.start.enclosing) := by
    rw [List.foldlM_append, assemble_eq_ok_iff.mp h, honto]
    rfl
  rw [assemble, assemble, hfold, hrest]
  cases us.foldlM Assembly.feed .start with
  | error issue => rfl
  | ok b =>
    have hfinish := Assembly.finish_onto xs.reverse k b
    rw [List.reverse_reverse] at hfinish
    exact hfinish

/-- Either no token can be formed at the end of a line, or the tokens of the text up to there come
before those of the text behind, which are found as if it stood alone. -/
theorem tokens_line (comments : Bool) (front : List Char) :
    (∃ offset, tokens comments (front ++ ['\n']) = .error offset) ∨
      ∃ ts k, tokens comments (front ++ ['\n']) = .ok ts ∧
        ∀ rest, tokens comments (front ++ '\n' :: rest) =
          match tokens comments rest with
          | .ok us => .ok (ts ++ us.map (Token.shift k))
          | .error offset => .error (offset + k) := by
  have hline (rest : List Char) : tokens comments (front ++ '\n' :: rest) =
      (rest.foldl (Scanner.feed comments)
        (Scanner.feed comments (front.foldl (Scanner.feed comments) .start) '\n')).finish := by
    rw [tokens, List.foldl_append, List.foldl_cons]
  rcases Scanner.feed_newline comments (front.foldl (Scanner.feed comments) .start) with
    ⟨ts, k, hscan⟩ | ⟨offset, hfinish⟩
  · rw [hscan] at hline
    refine .inr ⟨ts.reverse, k, hline [], fun rest => ?_⟩
    rw [hline, Scanner.foldl_feed_after, Scanner.finish_after]
    rfl
  · exact .inl ⟨offset, (hline []).trans hfinish⟩

/-- What follows a complete program and the end of its last line is read as if it stood alone. -/
theorem values_append {comments : Bool} {front : List Char} {xs : List Value}
    (h : values comments (front ++ ['\n']) = .ok xs) :
    ∃ k, ∀ rest, values comments (front ++ '\n' :: rest) =
      match values comments rest with
      | .ok ys => .ok (xs ++ ys)
      | .error issue => .error (issue.shift k) := by
  rcases tokens_line comments front with ⟨offset, htokens⟩ | ⟨ts, k, htokens, hrest⟩
  · rw [values, htokens] at h
    cases h
  · rw [values, htokens] at h
    refine ⟨k, fun rest => ?_⟩
    rw [values, values, hrest]
    cases tokens comments rest with
    | error offset => rfl
    | ok us => exact assemble_append h k

/-- A text that can be read has no beginning that is wrong for good. -/
theorem values_of_append {comments : Bool} {front rest : List Char} {vs : List Value}
    (h : values comments (front ++ '\n' :: rest) = .ok vs) :
    (∃ xs, values comments (front ++ ['\n']) = .ok xs) ∨
      ∃ issue, values comments (front ++ ['\n']) = .error issue ∧ issue.isIncomplete = true := by
  rcases tokens_line comments front with ⟨offset, htokens⟩ | ⟨ts, k, htokens, hrest⟩
  · exact .inr ⟨.unformedToken offset, by rw [values, htokens], rfl⟩
  · rw [values, hrest] at h
    rw [values, htokens]
    cases htokens' : tokens comments rest with
    | error offset =>
      rw [htokens'] at h
      cases h
    | ok us =>
      rw [htokens'] at h
      have hfold := assemble_eq_ok_iff.mp h
      rw [List.foldlM_append] at hfold
      -- The tokens before are assembled without an error, so at most brackets are missing.
      change (∃ xs, assemble ts = .ok xs) ∨ ∃ issue, assemble ts = .error issue ∧ _
      rw [assemble]
      cases hts : ts.foldlM Assembly.feed .start with
      | error issue =>
        rw [hts] at hfold
        cases hfold
      | ok a =>
        change (∃ xs, a.finish = .ok xs) ∨ ∃ issue, a.finish = .error issue ∧ _
        obtain ⟨items, enclosing⟩ := a
        cases enclosing with
        | nil => exact .inl ⟨_, rfl⟩
        | cons frame enclosing => exact .inr ⟨_, rfl, rfl⟩

/-- The end of the last line adds nothing. -/
theorem values_newline {comments : Bool} {text : List Char} {vs : List Value}
    (h : values comments text = .ok vs) : values comments (text ++ ['\n']) = .ok vs := by
  cases htokens : tokens comments text with
  | error offset =>
    rw [values, htokens] at h
    cases h
  | ok ts =>
    have hnewline : tokens comments (text ++ ['\n']) = .ok ts := by
      rw [tokens, List.foldl_append]
      exact Scanner.finish_feed_newline comments htokens
    rw [values, htokens] at h
    rw [values, hnewline]
    exact h

/-- A blank line of a text that can be read holds nothing. -/
theorem values_blank {comments : Bool} {line rest : List Char} {vs : List Value}
    (hblank : ∀ c ∈ line, Text.isBlank c = true)
    (h : values comments (line ++ rest) = .ok vs) : values comments line = .ok [] := by
  rcases Scanner.foldl_feed_blanks comments hblank [] 0 with ⟨offset, hscan⟩ | ⟨start, hstuck⟩
  · have htokens : tokens comments line = .ok [] := by
      rw [tokens, Scanner.start, hscan]
      rfl
    rw [values, htokens]
    rfl
  · have hmode := Scanner.foldl_feed_stuck comments rest hstuck
    have htokens : tokens comments (line ++ rest) = .error start := by
      rw [tokens, List.foldl_append, Scanner.start, Scanner.finish, hmode]
    rw [values, htokens] at h
    cases h

end Lisplet.Reader
