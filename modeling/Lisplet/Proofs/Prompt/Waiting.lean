import Lisplet.Proofs.Prompt
import Lisplet.Proofs.Reading.Extension

/-! Waiting in vain. A text that a prompt waits for is completed by a quote, by the end of the line
and closing brackets, or by both. Only where a blank that is no space stands in the place of a token
does the prompt wait for a completion that does not exist. -/
namespace Lisplet

namespace Reader

variable {comments : Bool}

theorem Paired.append {text more : List Char} (h : Paired comments text)
    (hmore : Paired comments more) : Paired comments (text ++ more) := by
  induction h with
  | nil => exact hmore
  | plain hquote hc h ih => exact .plain hquote hc ih
  | @quoted inside rest hinside h ih =>
    have heq : '"' :: inside ++ '"' :: rest ++ more = '"' :: inside ++ '"' :: (rest ++ more) := by
      simp
    rw [heq]
    exact .quoted hinside ih

/-- One more quote pairs the quote that is not. -/
theorem Unpaired.paired {text : List Char} (h : Unpaired comments text) :
    Paired comments (text ++ ['"']) := by
  obtain ⟨block, inside, rfl, hblock, hinside⟩ := h
  rw [List.append_assoc]
  exact hblock.append (.quoted hinside .nil)

theorem Layout.append {front back rest : List Char} {offset : Nat} {ts us : List Token}
    (h : Layout comments (back ++ rest) offset front ts)
    (hback : Layout comments rest (offset + Text.byteLength front) back us) :
    Layout comments rest offset (front ++ back) (ts ++ us) := by
  induction h with
  | nil => exact hback
  | space hc h ih => exact .space hc (ih (by rwa [Nat.add_assoc]))
  | @comment offset text front ts hcomments htext hend h ih =>
    rw [List.append_assoc]
    refine .comment hcomments htext (by rwa [List.append_assoc]) (ih ?_)
    rwa [Nat.add_assoc, ← Text.byteLength_append]
  | @token offset lexeme front ts hlexeme h ih =>
    rw [List.append_assoc]
    refine .token (by rwa [List.append_assoc]) (ih ?_)
    rwa [Nat.add_assoc, ← Text.byteLength_append]

/-- A text that ends inside of quotes is read as tokens with one more quote. -/
theorem Layout.exists_tokens_quote {front rest : List Char} {ts : List Token}
    (h : Layout comments rest 0 front ts) (hrest : Unpaired comments rest) :
    ∃ us, tokens comments (front ++ rest ++ ['"']) = .ok us := by
  have hhead : (rest ++ ['"'] ++ [] ++ []).head? = rest.head? := by
    obtain ⟨block, inside, rfl, -, -⟩ := hrest
    cases block <;> rfl
  have hblock (offset : Nat) : Layout comments [] offset (rest ++ ['"'] ++ [])
      [⟨.block (rest ++ ['"']), offset⟩] := by
    have htoken : (Lexeme.block (rest ++ ['"'])).Formed comments ([] ++ []) :=
      ⟨by simp, hrest.paired, nofun⟩
    exact .token htoken .nil
  have hlayout : Layout comments (rest ++ ['"'] ++ [] ++ []) 0 front ts := h.congr_head hhead
  have hwhole := (hlayout.append (hblock _)).tokens_eq
  rw [List.append_nil, ← List.append_assoc] at hwhole
  exact ⟨_, hwhole⟩

end Reader

namespace CommandLine

open Reader

/-- Where tokens can be formed, a prompt waits for closing brackets at most. -/
theorem exists_not_waits_of_tokens {text : List Char} {ts : List Token}
    (h : tokens true text = .ok ts) : ∃ more, waits (text ++ more) = false := by
  have hnow (hwaits : waits text = false) : ∃ more, waits (text ++ more) = false :=
    ⟨[], by rwa [List.append_nil]⟩
  cases hvalues : values true text with
  | ok vs => exact hnow (waits_of_ok hvalues)
  | error issue =>
    cases issue with
    | extraClose offset bracket => exact hnow (waits_of_error hvalues)
    | tooDeep offset => exact hnow (waits_of_error hvalues)
    | unformedToken offset =>
      rw [values, h] at hvalues
      have hfault := assemble_eq_error_iff.mp hvalues
      cases hfault
    | unclosed offset count =>
      rw [values, h] at hvalues
      have hclosers : ∀ c ∈ List.replicate count ')', isClosing c = true := by
        intro c hc
        rw [List.eq_of_mem_replicate hc]
        rfl
      obtain ⟨vs, hvs⟩ := values_close h (assemble_eq_error_iff.mp hvalues)
        List.length_replicate hclosers
      exact ⟨_, waits_of_ok hvs⟩

/-- Nothing completes a text in which a blank that is no space stands in the place of a token. -/
theorem waits_append_of_strayBlank {front rest : List Char} {ts : List Token}
    (h : Layout true rest 0 front ts) (hrest : StrayBlank rest) (more : List Char) :
    waits (front ++ rest ++ more) = true := by
  obtain ⟨c, text, rfl, hblank, hspace⟩ := hrest
  have hlayout : Layout true (c :: text ++ more) 0 front ts := h.congr_head rfl
  have htokens := hlayout.tokens_eq_error (.inr ⟨c, text ++ more, rfl, hblank, hspace⟩)
  have hvalues : values true (front ++ c :: text ++ more) =
      .error (.unformedToken (Text.byteLength front)) := by
    rw [values, List.append_assoc, htokens]
  exact waits_of_error hvalues

/-- A prompt that waits for a text does not wait in vain just if no blank that is neither a space
nor the end of a line stands in the text where a token has to start. -/
theorem exists_not_waits_iff (text : List Char) :
    (∃ more, waits (text ++ more) = false) ↔
      ∀ front rest ts, text = front ++ rest → Layout true rest 0 front ts → ¬ StrayBlank rest := by
  constructor
  · intro h front rest ts heq hlayout hblank
    obtain ⟨more, hmore⟩ := h
    rw [heq, waits_append_of_strayBlank hlayout hblank more] at hmore
    cases hmore
  · intro h
    cases htokens : tokens true text with
    | ok ts => exact exists_not_waits_of_tokens htokens
    | error offset =>
      obtain ⟨front, rest, ts, rfl, -, hlayout, hstarts, hforms⟩ := tokens_eq_error_iff.mp htokens
      rcases (not_formsToken_iff hstarts).mp hforms with hquote | hblank
      · obtain ⟨us, hus⟩ := hlayout.exists_tokens_quote hquote
        obtain ⟨more, hmore⟩ := exists_not_waits_of_tokens hus
        exact ⟨'"' :: more, by simpa using hmore⟩
      · exact absurd hblank (h front rest ts rfl hlayout)

/-- Nothing completes two numbers with a no-break space between them. -/
theorem not_exists_not_waits_space :
    ¬ ∀ line : List Char, waits (line ++ ['\n']) = true →
      ∃ more, waits (line ++ ['\n'] ++ more) = false := by
  intro h
  have hone : Layout true "\u00a02\n".toList 0 ['1'] [⟨.block ['1'], 0⟩] := by
    have hformed : (Lexeme.block ['1']).Formed true ([] ++ "\u00a02\n".toList) :=
      ⟨by simp, .plain (by decide) (by decide) .nil, by rintro c ⟨⟩; rfl⟩
    exact .token hformed .nil
  have hblank : StrayBlank "\u00a02\n".toList := ⟨_, _, rfl, by decide, by decide⟩
  have hwaits (more : List Char) : waits ("1\u00a02\n".toList ++ more) = true :=
    waits_append_of_strayBlank hone hblank more
  obtain ⟨more, hmore⟩ := h "1\u00a02".toList (hwaits [])
  have hnever : waits ("1\u00a02".toList ++ ['\n'] ++ more) = true := hwaits more
  rw [hnever] at hmore
  cases hmore

end CommandLine

end Lisplet
