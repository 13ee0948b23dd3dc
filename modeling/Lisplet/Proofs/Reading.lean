import Lisplet.Reader.Program

/-! Reading piece by piece: what makes a block of text, which lexemes a text spells wherever it
stands, and which values lexemes build. -/
namespace Lisplet.Reader

/-- Whether a block of text is inside quotes after one more character. Outside of them a delimiter
cannot be part of it. -/
def quotedAfter (comments quoted : Bool) (c : Char) : Option Bool :=
  if c = '"' then some !quoted
  else if quoted || !isDelimiter comments c then some quoted
  else none

/-- Whether a text is inside quotes at its end, if it has no delimiter outside of them. -/
def quoted? (comments : Bool) (text : List Char) : Option Bool :=
  text.foldlM (quotedAfter comments) false

/-- What can stand as one block: at least one character, all quotes paired, and every delimiter
inside quotes. -/
def IsBlock (comments : Bool) (text : List Char) : Prop :=
  text ≠ [] ∧ quoted? comments text = some false

theorem quotedAfter_without_comments {comments quoted q : Bool} {c : Char}
    (h : quotedAfter comments quoted c = some q) : quotedAfter false quoted c = some q := by
  have hdelimiter : isDelimiter comments c = false → isDelimiter false c = false := by
    simp [isDelimiter]
    grind
  unfold quotedAfter at *
  grind

theorem foldlM_quotedAfter_without_comments {comments : Bool} (text : List Char) {quoted q : Bool}
    (h : text.foldlM (quotedAfter comments) quoted = some q) :
    text.foldlM (quotedAfter false) quoted = some q := by
  induction text generalizing quoted with
  | nil => exact h
  | cons c text ih =>
    rw [List.foldlM_cons, Option.bind_eq_bind, Option.bind_eq_some_iff] at h ⊢
    obtain ⟨next, hc, htext⟩ := h
    exact ⟨next, quotedAfter_without_comments hc, ih htext⟩

/-- Fewer delimiters end fewer blocks. -/
theorem IsBlock.without_comments {comments : Bool} {text : List Char} (h : IsBlock comments text) :
    IsBlock false text :=
  ⟨h.1, foldlM_quotedAfter_without_comments text h.2⟩

/-- Only a delimiter outside quotes cannot be part of a block. -/
theorem isDelimiter_of_quotedAfter {comments quoted : Bool} {c : Char}
    (h : quotedAfter comments quoted c = none) :
    quoted = false ∧ c ≠ '"' ∧ isDelimiter comments c = true := by
  unfold quotedAfter at h
  grind

theorem foldlM_quotedAfter_of_not_mem {comments quoted : Bool} {text : List Char}
    (hquote : '"' ∉ text) (h : quoted = false → ∀ c ∈ text, isDelimiter comments c = false) :
    text.foldlM (quotedAfter comments) quoted = some quoted := by
  induction text with
  | nil => rfl
  | cons c text ih =>
    obtain ⟨hc, htext⟩ := not_or.mp (mt List.mem_cons.mpr hquote)
    have hfirst : quotedAfter comments quoted c = some quoted := by
      unfold quotedAfter
      grind
    rw [List.foldlM_cons, hfirst]
    exact ih htext fun hq d hd => h hq d (List.mem_cons_of_mem c hd)

theorem isDelimiter_of_isSpace {c : Char} (comments : Bool) (h : isSpace c = true) :
    isDelimiter comments c = true := by
  have hblank : Text.isBlank c = true := by
    simp only [isSpace, Bool.or_eq_true, decide_eq_true_eq] at h
    rcases h with ((rfl | rfl) | rfl) | rfl <;> decide
  simp [isDelimiter, hblank]

namespace Scanner

def inside (quoted : Bool) (start : Nat) (text : List Char) : Mode :=
  if quoted then .quoted start text else .plain start text

/-- A character that can be the first of a block begins one. -/
theorem begin_of_quotedAfter {comments q : Bool} {c : Char} (tokens : List Token) (offset : Nat)
    (h : quotedAfter comments false c = some q) :
    begin comments tokens offset c = (tokens, inside q offset [c]) := by
  unfold quotedAfter at h
  split at h
  · rename_i hc
    subst hc
    cases h
    cases comments <;> rfl
  · rename_i hc
    split at h
    · rename_i hdelimiter
      cases h
      rw [Bool.false_or, Bool.not_eq_true'] at hdelimiter
      have hspace : isSpace c = false := by
        rw [← Bool.not_eq_true]
        intro hspace
        rw [isDelimiter_of_isSpace comments hspace] at hdelimiter
        cases hdelimiter
      simp only [isDelimiter, Bool.or_eq_false_iff] at hdelimiter
      obtain ⟨⟨⟨hblank, hopening⟩, hclosing⟩, hcomment⟩ := hdelimiter
      simp [begin, inside, hspace, hcomment, hopening, hclosing, hc, hblank]
    · cases h

/-- A character that can be part of a block is taken into it. -/
theorem feed_inside {comments quoted q : Bool} {c : Char} (tokens : List Token) (start : Nat)
    (text : List Char) (offset : Nat) (h : quotedAfter comments quoted c = some q) :
    feed comments ⟨tokens, inside quoted start text, offset⟩ c =
      ⟨tokens, inside q start (c :: text), offset + c.utf8Size⟩ := by
  unfold quotedAfter at h
  cases quoted <;> by_cases hc : c = '"' <;> simp_all [feed, inside]

theorem foldl_feed_inside {comments : Bool} (text : List Char) {quoted q : Bool}
    (tokens : List Token) (start : Nat) (before : List Char) (offset : Nat)
    (h : text.foldlM (quotedAfter comments) quoted = some q) :
    text.foldl (feed comments) ⟨tokens, inside quoted start before, offset⟩ =
      ⟨tokens, inside q start (text.reverse ++ before), offset + Text.byteLength text⟩ := by
  induction text generalizing quoted before offset with
  | nil =>
    cases h
    rfl
  | cons c text ih =>
    rw [List.foldlM_cons, Option.bind_eq_bind, Option.bind_eq_some_iff] at h
    obtain ⟨next, hc, htext⟩ := h
    rw [List.foldl_cons, feed_inside tokens start before offset hc, ih _ _ htext]
    simp [Text.byteLength, Nat.add_assoc]

/-- A block is scanned as one. -/
theorem foldl_feed_block {comments : Bool} {text : List Char} (h : IsBlock comments text)
    (tokens : List Token) (offset : Nat) :
    text.foldl (feed comments) ⟨tokens, .between, offset⟩ =
      ⟨tokens, .plain offset text.reverse, offset + Text.byteLength text⟩ := by
  obtain ⟨hne, hquoted⟩ := h
  cases text with
  | nil => exact absurd rfl hne
  | cons c text =>
    rw [quoted?, List.foldlM_cons, Option.bind_eq_bind, Option.bind_eq_some_iff] at hquoted
    obtain ⟨q, hc, htext⟩ := hquoted
    have hfirst : feed comments ⟨tokens, .between, offset⟩ c =
        ⟨tokens, inside q offset [c], offset + c.utf8Size⟩ := by
      simp [feed, begin_of_quotedAfter tokens offset hc]
    rw [List.foldl_cons, hfirst, foldl_feed_inside text _ _ _ _ htext]
    simp [inside, Text.byteLength, Nat.add_assoc]

/-- Ends the block that the scanner is in, if it may end there. -/
def settle (s : Scanner) : Scanner :=
  match s.mode with
  | .plain start text => ⟨⟨.block text.reverse, start⟩ :: s.tokens, .between, s.offset⟩
  | _ => s

theorem finish_settle (s : Scanner) : s.settle.finish = s.finish := by
  obtain ⟨tokens, mode, offset⟩ := s
  cases mode <;> rfl

/-- A delimiter ends a block itself. -/
theorem feed_settle {comments : Bool} {c : Char} (s : Scanner)
    (h : isDelimiter comments c = true) : feed comments s.settle c = feed comments s c := by
  obtain ⟨tokens, mode, offset⟩ := s
  have hc : c ≠ '"' := by
    rintro rfl
    cases comments <;> cases h
  cases mode <;> simp [settle, feed, h, hc]

/-- Whether the scanner is inside quotes, and the text so far, if it is in a block. -/
def block? (s : Scanner) : Option (Bool × List Char) :=
  match s.mode with
  | .plain _ text => some (false, text)
  | .quoted _ text => some (true, text)
  | _ => none

@[simp] theorem block?_inside (tokens : List Token) (quoted : Bool) (start : Nat)
    (text : List Char) (offset : Nat) :
    block? ⟨tokens, inside quoted start text, offset⟩ = some (quoted, text) := by
  cases quoted <;> rfl

/-- What is known of a scanner at any time: the blocks it has found are blocks, and so is the one
it is in, up to a quote that is still open. -/
structure Sound (comments : Bool) (s : Scanner) : Prop where
  tokens : ∀ t ∈ s.tokens, ∀ text, t.lexeme = .block text → IsBlock comments text
  block : ∀ quoted text, s.block? = some (quoted, text) →
    text ≠ [] ∧ quoted? comments text.reverse = some quoted

/-- Between tokens, every character leaves a scanner sound. -/
theorem Sound.begin {comments : Bool} {tokens : List Token} (offset next : Nat) (c : Char)
    (h : ∀ t ∈ tokens, ∀ text, t.lexeme = .block text → IsBlock comments text) :
    Sound comments ⟨(begin comments tokens offset c).1, (begin comments tokens offset c).2,
      next⟩ := by
  cases hq : quotedAfter comments false c with
  | some q =>
    rw [begin_of_quotedAfter tokens offset hq]
    refine ⟨h, fun quoted text hblock => ?_⟩
    rw [block?_inside] at hblock
    cases hblock
    simp [quoted?, hq]
  | none =>
    -- A delimiter may be a token, but it starts no block.
    obtain ⟨-, hquote, hdelimiter⟩ := isDelimiter_of_quotedAfter hq
    refine ⟨fun t ht text htext => ?_, fun quoted text hblock => ?_⟩
    · grind [Scanner.begin]
    · grind [Scanner.begin, block?, isDelimiter]

/-- One more character keeps a scanner sound. -/
theorem Sound.feed {comments : Bool} {s : Scanner} (h : s.Sound comments) (c : Char) :
    (feed comments s c).Sound comments := by
  obtain ⟨tokens, mode, offset⟩ := s
  have hinside (quoted : Bool) (start : Nat) (text : List Char)
      (hmode : mode = inside quoted start text) :
      (Scanner.feed comments ⟨tokens, mode, offset⟩ c).Sound comments := by
    subst hmode
    obtain ⟨hne, hquoted⟩ := h.block quoted text (block?_inside ..)
    cases hq : quotedAfter comments quoted c with
    | some q =>
      rw [feed_inside tokens start text offset hq]
      refine ⟨h.tokens, fun quoted' text' hblock => ?_⟩
      rw [block?_inside] at hblock
      cases hblock
      refine ⟨by simp, ?_⟩
      rw [List.reverse_cons, quoted?, List.foldlM_append, ← quoted?, hquoted]
      simpa using hq
    | none =>
      -- Only a delimiter outside quotes ends the block, which is a token then.
      obtain ⟨rfl, hquote, hdelimiter⟩ := isDelimiter_of_quotedAfter hq
      rw [← feed_settle _ hdelimiter]
      refine Sound.begin offset _ c fun t ht text' htext => ?_
      rcases List.mem_cons.mp ht with rfl | ht
      · cases htext
        exact ⟨by simpa using hne, hquoted⟩
      · exact h.tokens t ht text' htext
  cases mode with
  | between => exact Sound.begin offset _ c h.tokens
  | comment =>
    refine ⟨h.tokens, ?_⟩
    by_cases hc : c = '\n' <;> simp [Scanner.feed, hc, block?]
  | plain start text => exact hinside false start text rfl
  | quoted start text => exact hinside true start text rfl
  | stuck start => exact ⟨h.tokens, nofun⟩

theorem Sound.foldl {comments : Bool} {s : Scanner} (h : s.Sound comments) (text : List Char) :
    (text.foldl (Scanner.feed comments) s).Sound comments := by
  induction text generalizing s with
  | nil => exact h
  | cons c text ih => exact ih (h.feed c)

end Scanner

/-- Every block among the tokens of a text is one. -/
theorem isBlock_of_tokens {comments : Bool} {input : List Char} {ts : List Token}
    (h : tokens comments input = .ok ts) {t : Token} (ht : t ∈ ts) {text : List Char}
    (htext : t.lexeme = .block text) : IsBlock comments text := by
  have hstart : Scanner.start.Sound comments := ⟨nofun, nofun⟩
  obtain ⟨htokens, hblock⟩ := hstart.foldl input
  unfold tokens Scanner.finish at h
  split at h
  · cases h
    exact htokens t (List.mem_reverse.mp ht) text htext
  · cases h
    exact htokens t (List.mem_reverse.mp ht) text htext
  · rename_i start rest hmode
    cases h
    rcases List.mem_cons.mp (List.mem_reverse.mp ht) with rfl | ht
    · cases htext
      have hrest := hblock false rest (by rw [Scanner.block?, hmode])
      exact ⟨by simpa using hrest.1, hrest.2⟩
    · exact htokens t ht text htext
  · cases h
  · cases h

/-- A text spells lexemes if a scanner between tokens finds just these in it. The last of them may
be a block that ends with the text. -/
def Spells (comments : Bool) (text : List Char) (lexemes : List Lexeme) : Prop :=
  ∀ s : Scanner, s.mode = .between → ∃ (ts : List Token) (offset : Nat),
    ts.map Token.lexeme = lexemes ∧
      (text.foldl (Scanner.feed comments) s).settle = ⟨ts.reverse ++ s.tokens, .between, offset⟩

namespace Spells

theorem nil (comments : Bool) : Spells comments [] [] := by
  rintro ⟨tokens, mode, offset⟩ rfl
  exact ⟨[], offset, rfl, rfl⟩

theorem block {comments : Bool} {text : List Char} (h : IsBlock comments text) :
    Spells comments text [.block text] := by
  rintro ⟨tokens, mode, offset⟩ rfl
  refine ⟨[⟨.block text, offset⟩], offset + Text.byteLength text, rfl, ?_⟩
  rw [Scanner.foldl_feed_block h]
  simp [Scanner.settle]

/-- Text that starts with a delimiter is read on its own. -/
theorem append {comments : Bool} {a b : List Char} {ls ms : List Lexeme}
    (ha : Spells comments a ls) (hb : Spells comments b ms)
    (hhead : ∀ c ∈ b.head?, isDelimiter comments c = true) :
    Spells comments (a ++ b) (ls ++ ms) := by
  intro s hs
  obtain ⟨ts, offset, rfl, hsettle⟩ := ha s hs
  rw [List.foldl_append]
  cases b with
  | nil =>
    obtain ⟨us, offset', rfl, hempty⟩ := hb ⟨[], .between, 0⟩ rfl
    have hus : us = [] := by simpa [Scanner.settle] using congrArg Scanner.tokens hempty
    subst hus
    exact ⟨ts, offset, by simp, hsettle⟩
  | cons c b =>
    obtain ⟨us, offset', rfl, hsettle'⟩ := hb ⟨ts.reverse ++ s.tokens, .between, offset⟩ rfl
    refine ⟨ts ++ us, offset', by simp, ?_⟩
    rw [List.foldl_cons, ← Scanner.feed_settle _ (hhead c rfl), hsettle, ← List.foldl_cons,
      hsettle']
    simp

theorem space {comments : Bool} {text : List Char} {ls : List Lexeme}
    (h : Spells comments text ls) : Spells comments (' ' :: text) ls := by
  rintro ⟨tokens, mode, offset⟩ rfl
  exact h ⟨tokens, .between, _⟩ rfl

theorem opening {comments : Bool} {text : List Char} {ls : List Lexeme}
    (h : Spells comments text ls) : Spells comments ('(' :: text) (.opening '(' :: ls) := by
  rintro ⟨tokens, mode, offset⟩ rfl
  have hfeed : Scanner.feed comments ⟨tokens, .between, offset⟩ '(' =
      ⟨⟨.opening '(', offset⟩ :: tokens, .between, offset + '('.utf8Size⟩ := by
    cases comments <;> rfl
  obtain ⟨ts, offset', rfl, hsettle⟩ := h ⟨⟨.opening '(', offset⟩ :: tokens, .between, _⟩ rfl
  refine ⟨⟨.opening '(', offset⟩ :: ts, offset', rfl, ?_⟩
  rw [List.foldl_cons, hfeed, hsettle]
  simp

theorem closing (comments : Bool) : Spells comments [')'] [.closing ')'] := by
  rintro ⟨tokens, mode, offset⟩ rfl
  refine ⟨[⟨.closing ')', offset⟩], offset + ')'.utf8Size, rfl, ?_⟩
  cases comments <;> rfl

theorem tokens_eq {comments : Bool} {text : List Char} {ls : List Lexeme}
    (h : Spells comments text ls) :
    ∃ ts, tokens comments text = .ok ts ∧ ts.map Token.lexeme = ls := by
  obtain ⟨ts, offset, hls, hsettle⟩ := h .start rfl
  refine ⟨ts, ?_, hls⟩
  rw [tokens, ← Scanner.finish_settle, hsettle]
  simp [Scanner.finish, Scanner.start]

end Spells

/-- Lexemes build values if, taken in any list that leaves room for `n` brackets inside each other,
they add just these to it. -/
def Builds (n : Nat) (lexemes : List Lexeme) (vs : List Value) : Prop :=
  ∀ ts : List Token, ts.map Token.lexeme = lexemes → ∀ a : Assembly,
    a.enclosing.length + n < maxReadDepth →
    ts.foldlM Assembly.feed a = .ok { a with items := vs.reverse ++ a.items }

namespace Builds

theorem nil (n : Nat) : Builds n [] [] := by
  rintro ts hts a -
  rw [List.map_eq_nil_iff.mp hts]
  rfl

theorem mono {n k : Nat} (hle : n ≤ k) {ls : List Lexeme} {vs : List Value} (h : Builds n ls vs) :
    Builds k ls vs :=
  fun ts hts a hroom => h ts hts a (by omega)

theorem block (text : List Char) : Builds 0 [.block text] [atom text] := by
  rintro ts hts a -
  obtain ⟨t, rfl, ht⟩ := List.map_eq_singleton_iff.mp hts
  simp [Assembly.feed, ht]

theorem append {n : Nat} {ls ms : List Lexeme} {vs ws : List Value} (hv : Builds n ls vs)
    (hw : Builds n ms ws) : Builds n (ls ++ ms) (vs ++ ws) := by
  intro ts hts a hroom
  obtain ⟨us, us', rfl, hus, hus'⟩ := List.map_eq_append_iff.mp hts
  rw [List.foldlM_append, hv us hus a hroom]
  have hrest := hw us' hus' { a with items := vs.reverse ++ a.items } hroom
  exact hrest.trans (by simp)

/-- Brackets around lexemes build the list of their values. -/
theorem list {n : Nat} {ls : List Lexeme} {vs : List Value} (h : Builds n ls vs)
    (opening closing : Char) :
    Builds (n + 1) (.opening opening :: ls ++ [.closing closing]) [.ofList vs] := by
  intro ts hts a hroom
  obtain ⟨us, us', rfl, hus, hus'⟩ := List.map_eq_append_iff.mp hts
  obtain ⟨t, us, rfl, ht, hus⟩ := List.map_eq_cons_iff.mp hus
  obtain ⟨t', rfl, ht'⟩ := List.map_eq_singleton_iff.mp hus'
  have hopen : Assembly.feed a t = .ok ⟨[], (a.items, t.offset) :: a.enclosing⟩ := by
    have hfits : ¬ maxReadDepth ≤ a.enclosing.length + 1 := by omega
    simp [Assembly.feed, ht, hfits]
  have hinner := h us hus ⟨[], (a.items, t.offset) :: a.enclosing⟩ (by simp; omega)
  rw [List.cons_append, List.foldlM_cons, hopen]
  change List.foldlM Assembly.feed _ (us ++ [t']) = _
  rw [List.foldlM_append, hinner]
  change List.foldlM Assembly.feed _ [t'] = _
  simp [Assembly.feed, ht']

end Builds

theorem readProgram_eq_ok_iff {comments : Bool} {input : String} {vs : List Value} :
    readProgram comments input = .ok vs ↔ values comments input.toList = .ok vs := by
  rw [readProgram]
  cases values comments input.toList with
  | ok program => simp
  | error issue => exact ⟨nofun, nofun⟩

/-- Tokens spell values if they leave no list open that holds anything else. -/
theorem assemble_eq_ok_iff {ts : List Token} {vs : List Value} :
    assemble ts = .ok vs ↔ ts.foldlM Assembly.feed .start = .ok ⟨vs.reverse, []⟩ := by
  rw [assemble]
  cases ts.foldlM Assembly.feed .start with
  | error issue => exact ⟨nofun, nofun⟩
  | ok a =>
    obtain ⟨items, enclosing⟩ := a
    cases enclosing with
    | nil =>
      change Except.ok items.reverse = Except.ok vs ↔ _
      rw [Except.ok.injEq, Except.ok.injEq, Assembly.mk.injEq, ← List.reverse_eq_iff]
      simp
    | cons frame enclosing => exact ⟨nofun, nofun⟩

/-- A text that spells lexemes which build values is read as these values. -/
theorem values_of_spells {comments : Bool} {text : List Char} {ls : List Lexeme} {vs : List Value}
    {n : Nat} (hspells : Spells comments text ls) (hbuilds : Builds n ls vs)
    (hroom : n < maxReadDepth) : values comments text = .ok vs := by
  obtain ⟨ts, htokens, hts⟩ := hspells.tokens_eq
  have hfold := hbuilds ts hts .start (by simpa [Assembly.start] using hroom)
  rw [values, htokens]
  exact assemble_eq_ok_iff.mpr (by simpa [Assembly.start] using hfold)

end Lisplet.Reader
