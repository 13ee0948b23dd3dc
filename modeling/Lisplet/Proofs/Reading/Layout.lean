import Lisplet.Proofs.Reading.Pieces

/-! Layout. A text is read as tokens just if it is laid out as these, with nothing but spaces and
comments before, between and after them. Otherwise the layout ends at a place where a token has to
start and none can be formed. -/
namespace Lisplet.Reader

def Lexeme.text : Lexeme → List Char
  | opening bracket => [bracket]
  | closing bracket => [bracket]
  | block text => text

/-- A text whose quotes are paired, without delimiters outside of the sections between them. -/
inductive Paired (comments : Bool) : List Char → Prop where
  | nil : Paired comments []
  | plain {c : Char} {rest : List Char} (hquote : c ≠ '"') (hc : isDelimiter comments c = false)
    (h : Paired comments rest) : Paired comments (c :: rest)
  | quoted {inside rest : List Char} (hinside : '"' ∉ inside) (h : Paired comments rest) :
    Paired comments ('"' :: inside ++ '"' :: rest)

/-- Whether a lexeme can be a token where a text follows it. -/
def Lexeme.Formed (comments : Bool) (after : List Char) : Lexeme → Prop
  | opening bracket => isOpening bracket = true
  | closing bracket => isClosing bracket = true
  | block text =>
    text ≠ [] ∧ Paired comments text ∧ ∀ c ∈ after.head?, isDelimiter comments c = true

/-- Whether a text starts with what is neither a space nor a comment. -/
def StartsToken (comments : Bool) (text : List Char) : Prop :=
  ∃ c rest, text = c :: rest ∧ isSpace c = false ∧ ¬ (comments = true ∧ c = ';')

def FormsToken (comments : Bool) (text : List Char) : Prop :=
  ∃ lexeme after, text = Lexeme.text lexeme ++ after ∧ lexeme.Formed comments after

def Unpaired (comments : Bool) (text : List Char) : Prop :=
  ∃ block inside, text = block ++ '"' :: inside ∧ Paired comments block ∧ '"' ∉ inside

def StrayBlank (text : List Char) : Prop :=
  ∃ c rest, text = c :: rest ∧ Text.isBlank c = true ∧ isSpace c = false

/-- A text that starts at a byte offset and goes on with `rest` is laid out as tokens, with spaces
and comments around them. A comment goes up to a line feed or the end. -/
inductive Layout (comments : Bool) (rest : List Char) : Nat → List Char → List Token → Prop where
  | nil {offset : Nat} : Layout comments rest offset [] []
  | space {offset : Nat} {c : Char} {front : List Char} {ts : List Token} (hc : isSpace c = true)
    (h : Layout comments rest (offset + c.utf8Size) front ts) :
    Layout comments rest offset (c :: front) ts
  | comment {offset : Nat} {text front : List Char} {ts : List Token} (hcomments : comments = true)
    (htext : '\n' ∉ text) (hend : ∀ c ∈ (front ++ rest).head?, c = '\n')
    (h : Layout comments rest (offset + Text.byteLength (';' :: text)) front ts) :
    Layout comments rest offset (';' :: text ++ front) ts
  | token {offset : Nat} {lexeme : Lexeme} {front : List Char} {ts : List Token}
    (hlexeme : lexeme.Formed comments (front ++ rest))
    (h : Layout comments rest (offset + Text.byteLength lexeme.text) front ts) :
    Layout comments rest offset (lexeme.text ++ front) (⟨lexeme, offset⟩ :: ts)

variable {comments : Bool}

theorem isDelimiter_of_isBracket {c : Char} (h : isOpening c = true ∨ isClosing c = true) :
    isDelimiter comments c = true := by
  unfold isDelimiter
  rcases h with h | h <;> simp [h]

theorem ne_quote_of_isDelimiter {c : Char} (h : isDelimiter comments c = true) : c ≠ '"' := by
  intro hc
  subst hc
  cases comments <;> cases h

theorem quotedAfter_of_isDelimiter {c : Char} (h : isDelimiter comments c = true) :
    quotedAfter comments false c = none := by
  have hquote := ne_quote_of_isDelimiter h
  simp [quotedAfter, hquote, h]

theorem byteLength_bracket {c : Char} (h : isOpening c = true ∨ isClosing c = true) :
    Text.byteLength [c] = 1 := by
  simp only [isOpening, isClosing, Bool.or_eq_true, decide_eq_true_eq] at h
  rcases h with (rfl | rfl) | (rfl | rfl) <;> rfl

/-- A text with paired quotes ends outside of quotes. -/
theorem Paired.quoted?_eq {text : List Char} (h : Paired comments text) :
    quoted? comments text = some false := by
  unfold quoted?
  induction h with
  | nil => rfl
  | @plain c rest hquote hc h ih =>
    have hfirst : quotedAfter comments false c = some false := by simp [quotedAfter, hquote, hc]
    rw [List.foldlM_cons, hfirst]
    exact ih
  | @quoted inside rest hinside h ih =>
    have hopen : quotedAfter comments false '"' = some true := rfl
    have hstay : inside.foldlM (quotedAfter comments) true = some true :=
      foldlM_quotedAfter_of_not_mem hinside nofun
    rw [List.cons_append, List.foldlM_cons, hopen]
    change (inside ++ '"' :: rest).foldlM (quotedAfter comments) true = _
    rw [List.foldlM_append, hstay]
    exact ih

/-- A text with an unpaired quote ends inside of quotes. -/
theorem Unpaired.quoted?_eq {text : List Char} (h : Unpaired comments text) :
    quoted? comments text = some true := by
  obtain ⟨block, inside, rfl, hblock, hinside⟩ := h
  have hfirst : block.foldlM (quotedAfter comments) false = some false := hblock.quoted?_eq
  have hstay : inside.foldlM (quotedAfter comments) true = some true :=
    foldlM_quotedAfter_of_not_mem hinside nofun
  unfold quoted?
  rw [List.foldlM_append, hfirst]
  exact hstay

/-- A token that is formed, with all that follows it, does not end inside of quotes. -/
theorem Lexeme.Formed.quoted?_ne {lexeme : Lexeme} {after : List Char}
    (h : lexeme.Formed comments after) : quoted? comments (lexeme.text ++ after) ≠ some true := by
  have hdelimiter {c : Char} (rest : List Char) (hc : isDelimiter comments c = true) :
      quoted? comments (c :: rest) ≠ some true := by
    unfold quoted?
    rw [List.foldlM_cons, quotedAfter_of_isDelimiter hc]
    exact nofun
  cases lexeme with
  | opening bracket => exact hdelimiter after (isDelimiter_of_isBracket (.inl h))
  | closing bracket => exact hdelimiter after (isDelimiter_of_isBracket (.inr h))
  | block text =>
    obtain ⟨hne, hpaired, hafter⟩ := h
    have hwhole : quoted? comments (text ++ after) = quoted? comments after := by
      have htext : text.foldlM (quotedAfter comments) false = some false := hpaired.quoted?_eq
      unfold quoted?
      rw [List.foldlM_append, htext]
      rfl
    rw [Lexeme.text, hwhole]
    cases after with
    | nil => exact nofun
    | cons c after => exact hdelimiter after (hafter c rfl)

/-- A token that is formed starts with no blank. -/
theorem Lexeme.Formed.not_strayBlank {lexeme : Lexeme} {after : List Char}
    (h : lexeme.Formed comments after) : ¬ StrayBlank (lexeme.text ++ after) := by
  intro hstray
  obtain ⟨c, rest, hcons, hblank, hspace⟩ := hstray
  have hdelimiter : isDelimiter comments c = true := by simp [isDelimiter, hblank]
  have hne (d : Char) (hd : Text.isBlank d = false) : c ≠ d := by
    intro hcd
    rw [hcd, hd] at hblank
    cases hblank
  cases lexeme with
  | opening bracket =>
    obtain ⟨rfl, -⟩ := List.cons.inj hcons
    simp [Lexeme.Formed, isOpening, hne '(' rfl, hne '[' rfl] at h
  | closing bracket =>
    obtain ⟨rfl, -⟩ := List.cons.inj hcons
    simp [Lexeme.Formed, isClosing, hne ')' rfl, hne ']' rfl] at h
  | block text =>
    obtain ⟨hnil, hpaired, -⟩ := h
    cases hpaired with
    | nil => exact hnil rfl
    | plain hquote hc h =>
      obtain ⟨rfl, -⟩ := List.cons.inj hcons
      rw [hdelimiter] at hc
      cases hc
    | quoted hinside h =>
      obtain ⟨rfl, -⟩ := List.cons.inj hcons
      exact hne '"' rfl rfl

/-- Every text starts with a block that is as long as can be, unless one of its quotes is never
paired. -/
theorem exists_block (text : List Char) :
    (∃ block after, text = block ++ after ∧ Paired comments block ∧
      ∀ c ∈ after.head?, isDelimiter comments c = true) ∨ Unpaired comments text := by
  induction hlength : text.length using Nat.strongRecOn generalizing text with | ind n ih
  subst hlength
  cases text with
  | nil => exact .inl ⟨[], [], rfl, .nil, nofun⟩
  | cons c text =>
    by_cases hquote : c = '"'
    · subst hquote
      by_cases hmem : '"' ∈ text
      · obtain ⟨inside, rest, rfl, hinside⟩ := List.eq_append_cons_of_mem hmem
        have hshorter : rest.length < ('"' :: (inside ++ '"' :: rest)).length := by
          simp
          omega
        rcases ih _ hshorter rest rfl with ⟨block, after, rfl, hblock, hafter⟩ |
          ⟨block, unclosed, rfl, hblock, hunclosed⟩
        · exact .inl ⟨'"' :: inside ++ '"' :: block, after, by simp, .quoted hinside hblock, hafter⟩
        · exact .inr ⟨'"' :: inside ++ '"' :: block, unclosed, by simp, .quoted hinside hblock,
            hunclosed⟩
      · exact .inr ⟨[], text, rfl, .nil, hmem⟩
    · cases hc : isDelimiter comments c with
      | true =>
        refine .inl ⟨[], c :: text, rfl, .nil, fun d hd => ?_⟩
        obtain rfl := Option.some.inj hd
        exact hc
      | false =>
        have hshorter : text.length < (c :: text).length := Nat.lt_succ_self _
        rcases ih _ hshorter text rfl with ⟨block, after, rfl, hblock, hafter⟩ |
          ⟨block, inside, rfl, hblock, hinside⟩
        · exact .inl ⟨c :: block, after, rfl, .plain hquote hc hblock, hafter⟩
        · exact .inr ⟨c :: block, inside, rfl, .plain hquote hc hblock, hinside⟩

/-- Where a token has to start, none can be formed just if a quote is never paired or the text
starts with a blank. -/
theorem not_formsToken_iff {text : List Char} (h : StartsToken comments text) :
    ¬ FormsToken comments text ↔ Unpaired comments text ∨ StrayBlank text := by
  constructor
  · intro hnone
    obtain ⟨c, rest, rfl, hspace, hcomment⟩ := h
    by_cases hblank : Text.isBlank c = true
    · exact .inr ⟨c, rest, rfl, hblank, hspace⟩
    by_cases hopening : isOpening c = true
    · exact absurd ⟨.opening c, rest, rfl, hopening⟩ hnone
    by_cases hclosing : isClosing c = true
    · exact absurd ⟨.closing c, rest, rfl, hclosing⟩ hnone
    rcases @exists_block comments (c :: rest) with
      ⟨block, after, heq, hblock, hafter⟩ | hunpaired
    · cases block with
      | nil =>
        have hc := hafter c (by rw [← List.nil_append after, ← heq]; rfl)
        simp only [isDelimiter, Bool.or_eq_true, Bool.and_eq_true, decide_eq_true_eq] at hc
        rcases hc with ((hc | hc) | hc) | hc
        · exact absurd hc hblank
        · exact absurd hc hopening
        · exact absurd hc hclosing
        · exact absurd hc hcomment
      | cons d block =>
        exact absurd ⟨.block (d :: block), after, heq, by simp, hblock, hafter⟩ hnone
    · exact .inl hunpaired
  · intro hcause hforms
    obtain ⟨lexeme, after, rfl, hlexeme⟩ := hforms
    rcases hcause with hunpaired | hstray
    · exact hlexeme.quoted?_ne hunpaired.quoted?_eq
    · exact hlexeme.not_strayBlank hstray

namespace Scanner

/-- The scanner takes a bracket for a token. -/
theorem feed_bracket {c : Char} (tokens : List Token) (offset : Nat) {lexeme : Lexeme}
    (h : lexeme = .opening c ∧ isOpening c = true ∨ lexeme = .closing c ∧ isClosing c = true) :
    feed comments ⟨tokens, .between, offset⟩ c =
      ⟨⟨lexeme, offset⟩ :: tokens, .between, offset + Text.byteLength [c]⟩ := by
  simp only [isOpening, isClosing, Bool.or_eq_true, decide_eq_true_eq] at h
  rcases h with ⟨rfl, rfl | rfl⟩ | ⟨rfl, rfl | rfl⟩ <;> cases comments <;> rfl

/-- Where a delimiter follows, it makes no difference whether the block before has been ended. -/
theorem finish_foldl_settle (s : Scanner) {text : List Char}
    (h : ∀ c ∈ text.head?, isDelimiter comments c = true) :
    (text.foldl (feed comments) s).finish = (text.foldl (feed comments) s.settle).finish := by
  cases text with
  | nil => exact (finish_settle s).symm
  | cons c text => rw [List.foldl_cons, List.foldl_cons, feed_settle s (h c rfl)]

/-- Where a line feed follows, it makes no difference whether the comment before has been ended. -/
theorem finish_foldl_comment (tokens : List Token) (offset : Nat) {text : List Char}
    (h : ∀ c ∈ text.head?, c = '\n') :
    (text.foldl (feed comments) ⟨tokens, .comment, offset⟩).finish =
      (text.foldl (feed comments) ⟨tokens, .between, offset⟩).finish := by
  cases text with
  | nil => rfl
  | cons c text =>
    obtain rfl := h c rfl
    rfl

theorem foldl_feed_comment (tokens : List Token) (offset : Nat) {text : List Char}
    (h : '\n' ∉ text) :
    text.foldl (feed comments) ⟨tokens, .comment, offset⟩ =
      ⟨tokens, .comment, offset + Text.byteLength text⟩ := by
  induction text generalizing offset with
  | nil => rfl
  | cons c text ih =>
    obtain ⟨hc, htext⟩ := not_or.mp (mt List.mem_cons.mpr h)
    have hfeed : feed comments ⟨tokens, .comment, offset⟩ c =
        ⟨tokens, .comment, offset + c.utf8Size⟩ := by simp [feed, Ne.symm hc]
    rw [List.foldl_cons, hfeed, ih _ htext, Text.byteLength, Nat.add_assoc]

end Scanner

namespace Layout

variable {rest front : List Char} {offset : Nat} {ts : List Token}

/-- What is laid out is scanned as the tokens of the layout. -/
theorem finish_foldl (h : Layout comments rest offset front ts) (tokens : List Token) :
    ((front ++ rest).foldl (Scanner.feed comments) ⟨tokens, .between, offset⟩).finish =
      (rest.foldl (Scanner.feed comments)
        ⟨ts.reverse ++ tokens, .between, offset + Text.byteLength front⟩).finish := by
  induction h generalizing tokens with
  | nil => rfl
  | @space offset c front ts hc h ih =>
    have hfeed : Scanner.feed comments ⟨tokens, .between, offset⟩ c =
        ⟨tokens, .between, offset + c.utf8Size⟩ := by simp [Scanner.feed, Scanner.begin, hc]
    rw [List.cons_append, List.foldl_cons, hfeed, ih, Text.byteLength, Nat.add_assoc]
  | @comment offset text front ts hcomments htext hend h ih =>
    subst hcomments
    have hfeed : Scanner.feed true ⟨tokens, .between, offset⟩ ';' =
        ⟨tokens, .comment, offset + Text.byteLength [';']⟩ := rfl
    have hlength : offset + Text.byteLength [';'] + Text.byteLength text =
        offset + Text.byteLength (';' :: text) := by simp [Text.byteLength, Nat.add_assoc]
    rw [List.append_assoc, List.cons_append, List.foldl_cons, hfeed, List.foldl_append,
      Scanner.foldl_feed_comment tokens _ htext, Scanner.finish_foldl_comment _ _ hend, hlength, ih,
      Text.byteLength_append, Nat.add_assoc]
  | @token offset lexeme front ts hlexeme h ih =>
    have hlexemeRead : ((front ++ rest).foldl (Scanner.feed comments)
          (lexeme.text.foldl (Scanner.feed comments) ⟨tokens, .between, offset⟩)).finish =
        ((front ++ rest).foldl (Scanner.feed comments)
          ⟨⟨lexeme, offset⟩ :: tokens, .between, offset + Text.byteLength lexeme.text⟩).finish := by
      cases lexeme with
      | opening bracket =>
        rw [Lexeme.text, List.foldl_cons, List.foldl_nil,
          Scanner.feed_bracket tokens offset (.inl ⟨rfl, hlexeme⟩)]
      | closing bracket =>
        rw [Lexeme.text, List.foldl_cons, List.foldl_nil,
          Scanner.feed_bracket tokens offset (.inr ⟨rfl, hlexeme⟩)]
      | block text =>
        obtain ⟨hne, hpaired, hafter⟩ := hlexeme
        rw [Lexeme.text, Scanner.foldl_feed_block ⟨hne, hpaired.quoted?_eq⟩,
          Scanner.finish_foldl_settle _ hafter]
        simp [Scanner.settle]
    rw [List.append_assoc, List.foldl_append, hlexemeRead, ih, Text.byteLength_append,
      ← Nat.add_assoc]
    simp

/-- What follows a text matters for its layout by its first character only. -/
theorem congr_head {rest' : List Char} (h : Layout comments rest offset front ts)
    (hhead : rest'.head? = rest.head?) : Layout comments rest' offset front ts := by
  have happend (front : List Char) : (front ++ rest').head? = (front ++ rest).head? := by
    rw [List.head?_append, List.head?_append, hhead]
  induction h with
  | nil => exact .nil
  | space hc h ih => exact .space hc ih
  | @comment offset text front ts hcomments htext hend h ih =>
    exact .comment hcomments htext (by rwa [happend]) ih
  | @token offset lexeme front ts hlexeme h ih =>
    refine .token ?_ ih
    cases lexeme with
    | opening bracket => exact hlexeme
    | closing bracket => exact hlexeme
    | block text => exact ⟨hlexeme.1, hlexeme.2.1, by rw [happend]; exact hlexeme.2.2⟩

/-- Tokens of a layout follow each other, none starting before the one before it has ended. -/
theorem ordered (h : Layout comments rest offset front ts) :
    (∀ t ∈ ts, offset ≤ t.offset) ∧
      ts.Pairwise fun t u => t.offset + Text.byteLength t.lexeme.text ≤ u.offset := by
  induction h with
  | nil => exact ⟨nofun, .nil⟩
  | space hc h ih =>
    obtain ⟨hstart, hpairs⟩ := ih
    refine ⟨fun t ht => ?_, hpairs⟩
    have hlater := hstart t ht
    omega
  | comment hcomments htext hend h ih =>
    obtain ⟨hstart, hpairs⟩ := ih
    refine ⟨fun t ht => ?_, hpairs⟩
    have hlater := hstart t ht
    omega
  | @token offset lexeme front ts hlexeme h ih =>
    obtain ⟨hstart, hpairs⟩ := ih
    refine ⟨fun t ht => ?_, .cons hstart hpairs⟩
    rcases List.mem_cons.mp ht with rfl | ht
    · exact Nat.le_refl offset
    · have hlater := hstart t ht
      omega

/-- Every token of a layout stands in the text at its offset. -/
theorem exists_text (h : Layout comments rest offset front ts) {t : Token} (ht : t ∈ ts) :
    ∃ before after, front = before ++ t.lexeme.text ++ after ∧
      t.offset = offset + Text.byteLength before ∧ t.lexeme.Formed comments (after ++ rest) := by
  induction h with
  | nil => exact absurd ht List.not_mem_nil
  | @space offset c front ts hc h ih =>
    obtain ⟨before, after, rfl, hoffset, hformed⟩ := ih ht
    refine ⟨c :: before, after, by simp, ?_, hformed⟩
    rw [hoffset, Text.byteLength]
    omega
  | @comment offset text front ts hcomments htext hend h ih =>
    obtain ⟨before, after, rfl, hoffset, hformed⟩ := ih ht
    refine ⟨';' :: text ++ before, after, by simp, ?_, hformed⟩
    rw [hoffset, Text.byteLength_append]
    omega
  | @token offset lexeme front ts hlexeme h ih =>
    rcases List.mem_cons.mp ht with rfl | ht
    · exact ⟨[], front, rfl, rfl, hlexeme⟩
    · obtain ⟨before, after, rfl, hoffset, hformed⟩ := ih ht
      refine ⟨lexeme.text ++ before, after, by simp, ?_, hformed⟩
      rw [hoffset, Text.byteLength_append]
      omega

end Layout

/-- A token has at least one byte, and a bracket just one. -/
theorem Lexeme.Formed.byteLength_pos {lexeme : Lexeme} {after : List Char}
    (h : lexeme.Formed comments after) :
    0 < Text.byteLength lexeme.text ∧
      ((∀ text, lexeme ≠ .block text) → Text.byteLength lexeme.text = 1) := by
  cases lexeme with
  | opening bracket =>
    have hone := byteLength_bracket (.inl h)
    exact ⟨hone ▸ Nat.one_pos, fun _ => hone⟩
  | closing bracket =>
    have hone := byteLength_bracket (.inr h)
    exact ⟨hone ▸ Nat.one_pos, fun _ => hone⟩
  | block text =>
    obtain ⟨hne, -, -⟩ := h
    refine ⟨?_, fun hnot => absurd rfl (hnot text)⟩
    cases text with
    | nil => exact absurd rfl hne
    | cons c text => exact Nat.lt_of_lt_of_le c.utf8Size_pos (Nat.le_add_right _ _)

/-- Where no token can be formed, the scanner finds none. -/
theorem finish_foldl_of_unformed {text : List Char} (h : Unpaired comments text ∨ StrayBlank text)
    (tokens : List Token) (offset : Nat) :
    (text.foldl (Scanner.feed comments) ⟨tokens, .between, offset⟩).finish = .error offset := by
  rcases h with ⟨block, inside, rfl, hblock, hinside⟩ | ⟨c, rest, rfl, hblank, hspace⟩
  · have hquote : ∃ text offset', ('"' :: inside).foldl (Scanner.feed comments)
        (block.foldl (Scanner.feed comments) ⟨tokens, .between, offset⟩) =
          ⟨tokens, .quoted offset text, offset'⟩ := by
      have hstay : inside.foldlM (quotedAfter comments) true = some true :=
        foldlM_quotedAfter_of_not_mem hinside nofun
      cases block with
      | nil =>
        have hfirst : Scanner.feed comments ⟨tokens, .between, offset⟩ '"' =
            ⟨tokens, Scanner.inside true offset ['"'], offset + '"'.utf8Size⟩ := by
          cases comments <;> rfl
        rw [List.foldl_nil, List.foldl_cons, hfirst, Scanner.foldl_feed_inside _ _ _ _ _ hstay]
        exact ⟨_, _, rfl⟩
      | cons d block =>
        rw [Scanner.foldl_feed_block ⟨by simp, hblock.quoted?_eq⟩, List.foldl_cons]
        have hfirst (text : List Char) (offset' : Nat) :
            Scanner.feed comments ⟨tokens, .plain offset text, offset'⟩ '"' =
              ⟨tokens, Scanner.inside true offset ('"' :: text), offset' + '"'.utf8Size⟩ := rfl
        rw [hfirst, Scanner.foldl_feed_inside _ _ _ _ _ hstay]
        exact ⟨_, _, rfl⟩
    obtain ⟨text, offset', hscan⟩ := hquote
    rw [List.foldl_append, hscan, Scanner.finish]
  · have hstuck := Scanner.feed_stray comments hblank hspace tokens offset
    have hmode := Scanner.foldl_feed_stuck comments rest hstuck
    rw [List.foldl_cons, Scanner.finish, hmode]

/-- Every text is laid out as tokens to its end, or up to a place where no token can be formed. -/
theorem exists_layout (comments : Bool) (text : List Char) (offset : Nat) :
    ∃ front rest ts, text = front ++ rest ∧ Layout comments rest offset front ts ∧
      (rest = [] ∨ StartsToken comments rest ∧ ¬ FormsToken comments rest) := by
  induction hlength : text.length using Nat.strongRecOn generalizing text offset with | ind n ih
  subst hlength
  cases text with
  | nil => exact ⟨[], [], [], rfl, .nil, .inl rfl⟩
  | cons c text =>
    by_cases hspace : isSpace c = true
    · obtain ⟨front, rest, ts, rfl, h, hrest⟩ :=
        ih _ (Nat.lt_succ_self _) text (offset + c.utf8Size) rfl
      exact ⟨c :: front, rest, ts, rfl, .space hspace h, hrest⟩
    by_cases hcomment : comments = true ∧ c = ';'
    · obtain ⟨hcomments, rfl⟩ := hcomment
      obtain ⟨line, more, rfl, hline, hmore⟩ : ∃ line more, text = line ++ more ∧ '\n' ∉ line ∧
          ∀ d ∈ more.head?, d = '\n' := by
        by_cases hmem : '\n' ∈ text
        · obtain ⟨line, more, rfl, hline⟩ := List.eq_append_cons_of_mem hmem
          exact ⟨line, '\n' :: more, rfl, hline, fun d hd => (Option.some.inj hd).symm⟩
        · exact ⟨text, [], by simp, hmem, nofun⟩
      have hshorter : more.length < (';' :: (line ++ more)).length := by
        simp only [List.length_cons, List.length_append]
        omega
      obtain ⟨front, rest, ts, rfl, h, hrest⟩ :=
        ih _ hshorter more (offset + Text.byteLength (';' :: line)) rfl
      exact ⟨';' :: line ++ front, rest, ts, by simp, .comment hcomments hline hmore h, hrest⟩
    · have hstarts : StartsToken comments (c :: text) :=
        ⟨c, text, rfl, (Bool.not_eq_true _).mp hspace, hcomment⟩
      by_cases hforms : FormsToken comments (c :: text)
      · obtain ⟨lexeme, after, htext, hlexeme⟩ := hforms
        have hshorter : after.length < (c :: text).length := by
          have hpos := hlexeme.byteLength_pos.1
          rw [htext, List.length_append]
          cases htext : lexeme.text with
          | nil => simp [htext, Text.byteLength] at hpos
          | cons d more => simp
        obtain ⟨front, rest, ts, rfl, h, hrest⟩ :=
          ih _ hshorter after (offset + Text.byteLength lexeme.text) rfl
        rw [htext]
        exact ⟨lexeme.text ++ front, rest, ⟨lexeme, offset⟩ :: ts, by simp, .token hlexeme h, hrest⟩
      · exact ⟨[], c :: text, [], rfl, .nil, .inr ⟨hstarts, hforms⟩⟩

/-- A text that is laid out to its end is read as the tokens of the layout. -/
theorem Layout.tokens_eq {text : List Char} {ts : List Token} (h : Layout comments [] 0 text ts) :
    tokens comments text = .ok ts := by
  have hscan := h.finish_foldl []
  rw [List.append_nil, List.append_nil, List.foldl_nil] at hscan
  rw [tokens, Scanner.start, hscan, Scanner.finish, List.reverse_reverse]

/-- A text that is laid out up to a place where no token can be formed is not read. -/
theorem Layout.tokens_eq_error {front rest : List Char} {ts : List Token}
    (h : Layout comments rest 0 front ts) (hrest : Unpaired comments rest ∨ StrayBlank rest) :
    tokens comments (front ++ rest) = .error (Text.byteLength front) := by
  rw [tokens, Scanner.start, h.finish_foldl [], finish_foldl_of_unformed hrest, Nat.zero_add]

theorem tokens_eq_ok_iff {text : List Char} {ts : List Token} :
    tokens comments text = .ok ts ↔ Layout comments [] 0 text ts := by
  constructor
  · intro h
    obtain ⟨front, rest, us, rfl, hlayout, rfl | ⟨hstarts, hforms⟩⟩ := exists_layout comments text 0
    · rw [List.append_nil] at h ⊢
      rw [hlayout.tokens_eq] at h
      cases h
      exact hlayout
    · rw [hlayout.tokens_eq_error ((not_formsToken_iff hstarts).mp hforms)] at h
      cases h
  · exact Layout.tokens_eq

theorem tokens_eq_error_iff {text : List Char} {offset : Nat} :
    tokens comments text = .error offset ↔
      ∃ front rest ts, text = front ++ rest ∧ offset = Text.byteLength front ∧
        Layout comments rest 0 front ts ∧ StartsToken comments rest ∧
        ¬ FormsToken comments rest := by
  constructor
  · intro h
    obtain ⟨front, rest, us, rfl, hlayout, rfl | ⟨hstarts, hforms⟩⟩ := exists_layout comments text 0
    · rw [List.append_nil, hlayout.tokens_eq] at h
      cases h
    · rw [hlayout.tokens_eq_error ((not_formsToken_iff hstarts).mp hforms)] at h
      cases h
      exact ⟨front, rest, us, rfl, rfl, hlayout, hstarts, hforms⟩
  · intro h
    obtain ⟨front, rest, us, rfl, rfl, hlayout, hstarts, hforms⟩ := h
    exact hlayout.tokens_eq_error ((not_formsToken_iff hstarts).mp hforms)

/-- A text is read as tokens just if it is laid out as these to its end. They stand in it at their
offsets, one after the other. It is not read just if it is laid out up to a place where a token has
to start and none can be formed, because a quote is never paired or a blank stands there that is
neither a space nor the end of a line. -/
theorem tokens_cover_text (comments : Bool) (text : List Char) :
    (∀ ts, tokens comments text = .ok ts ↔ Layout comments [] 0 text ts) ∧
    (∀ ts, tokens comments text = .ok ts →
      ts.Pairwise (fun t u => t.offset < u.offset ∧
        t.offset + Text.byteLength t.lexeme.text ≤ u.offset) ∧
      ∀ t ∈ ts, (∃ before after, text = before ++ t.lexeme.text ++ after ∧
          t.offset = Text.byteLength before ∧ t.lexeme.Formed comments after) ∧
        ((∀ block, t.lexeme ≠ .block block) → Text.byteLength t.lexeme.text = 1)) ∧
    (∀ offset, tokens comments text = .error offset ↔
      ∃ front rest ts, text = front ++ rest ∧ offset = Text.byteLength front ∧
        Layout comments rest 0 front ts ∧ StartsToken comments rest ∧
        ¬ FormsToken comments rest) ∧
    ∀ rest, StartsToken comments rest →
      (¬ FormsToken comments rest ↔ Unpaired comments rest ∨ StrayBlank rest) := by
  refine ⟨fun ts => tokens_eq_ok_iff, ?_, fun offset => tokens_eq_error_iff,
    fun rest => not_formsToken_iff⟩
  intro ts hts
  have hlayout := tokens_eq_ok_iff.mp hts
  have htext (t : Token) (ht : t ∈ ts) : ∃ before after, text = before ++ t.lexeme.text ++ after ∧
      t.offset = Text.byteLength before ∧ t.lexeme.Formed comments after := by
    simpa using hlayout.exists_text ht
  refine ⟨hlayout.ordered.2.imp_of_mem fun {t u} ht _ hle => ⟨?_, hle⟩, fun t ht => ?_⟩
  · obtain ⟨-, after, -, -, hformed⟩ := htext t ht
    have hpos := hformed.byteLength_pos.1
    omega
  · obtain ⟨before, after, heq, hoffset, hformed⟩ := htext t ht
    exact ⟨⟨before, after, heq, hoffset, hformed⟩, hformed.byteLength_pos.2⟩

end Lisplet.Reader
