import Lisplet.Proofs.Reading.Extension

/-! What is shown of a text around the place of an error. The place is where a token starts, or
where none can be formed, and a piece of the text that it stands in is shown, unless the piece would
start inside a character. Then nothing of the text is. -/
namespace Lisplet

namespace Text

variable {style : WindowStyle} {before after : List Char} {c : Char}

theorem length_le_byteLength (cs : List Char) : cs.length ≤ byteLength cs := by
  induction cs with
  | nil => exact Nat.le_refl 0
  | cons c cs ih =>
    have hc := c.utf8Size_pos
    rw [List.length_cons, byteLength]
    omega

theorem byteLength_eq_zero_iff {cs : List Char} : byteLength cs = 0 ↔ cs = [] := by
  constructor
  · intro h
    have hle := length_le_byteLength cs
    exact List.length_eq_zero_iff.mp (by omega)
  · rintro rfl
    rfl

theorem eq_append_of_dropBytes? {n : Nat} {cs rest : List Char} (h : dropBytes? n cs = some rest) :
    ∃ skipped, cs = skipped ++ rest ∧ byteLength skipped = n := by
  induction cs generalizing n with
  | nil =>
    cases n with
    | zero =>
      cases h
      exact ⟨[], rfl, rfl⟩
    | succ n => cases h
  | cons c cs ih =>
    cases n with
    | zero =>
      rw [dropBytes?] at h
      cases h
      exact ⟨[], rfl, rfl⟩
    | succ n =>
      rw [dropBytes?] at h
      split at h
      · rename_i hc
        obtain ⟨skipped, rfl, hskipped⟩ := ih h
        exact ⟨c :: skipped, rfl, by rw [byteLength]; omega⟩
      · cases h

theorem mem_onOneLine {piece : List Char} (h : c ∈ piece) (hfeed : c ≠ '\n') (hreturn : c ≠ '\r') :
    c ∈ onOneLine piece := by
  induction piece with
  | nil => cases h
  | cons d piece ih => grind [onOneLine]

/-- Whether `shown` is a piece of the text `before ++ c :: after` that `c` stands in, on one line
and with marks for what is left out: in front if more than `lead` bytes come before `c`, and behind
if the text goes on there. -/
def ShowsPlace (style : WindowStyle) (before : List Char) (c : Char) (after : List Char)
    (shown : String) : Prop :=
  ∃ skipped piece rest, before ++ c :: after = skipped ++ piece ++ rest ∧
    piece.length ≤ style.width ∧
    skipped.length ≤ before.length ∧ before.length < skipped.length + piece.length ∧
    shown = (if style.lead < byteLength before then style.mark else "") ++
      String.ofList (onOneLine piece) ++ (if rest = [] then "" else style.mark)

/-- Whether the window on the place behind a text opens in front of a character. -/
def OpensAtCharacter (style : WindowStyle) (before : List Char) : Prop :=
  ∃ skipped, skipped <+: before ∧ byteLength skipped = byteLength before - style.lead

/-- A character that is no line break can be seen where its place is shown. -/
theorem ShowsPlace.mem {shown : String} (h : ShowsPlace style before c after shown)
    (hfeed : c ≠ '\n') (hreturn : c ≠ '\r') : c ∈ shown.toList := by
  obtain ⟨skipped, piece, rest, htext, -, hstart, hend, rfl⟩ := h
  have hplace : (skipped ++ piece ++ rest)[before.length]? = some c := by
    rw [← htext]
    simp
  have hpiece : c ∈ piece := by
    rw [List.append_assoc, List.getElem?_append_right hstart,
      List.getElem?_append_left (by omega)] at hplace
    exact List.mem_of_getElem? hplace
  have hline := mem_onOneLine hpiece hfeed hreturn
  simp [hline]

/-- A window that opens in front of a character shows the place, if it is wide enough. -/
theorem window_shows (hroom : style.lead < style.width) (h : OpensAtCharacter style before) :
    ShowsPlace style before c after (window style (before ++ c :: after) (byteLength before)) := by
  obtain ⟨skipped, ⟨front, rfl⟩, hskipped⟩ := h
  rw [byteLength_append] at hskipped
  have hfront := length_le_byteLength front
  have hdrop : dropBytes? (byteLength (skipped ++ front) - style.lead)
      (skipped ++ front ++ c :: after) = some (front ++ c :: after) := by
    rw [byteLength_append, ← hskipped, List.append_assoc]
    exact dropBytes?_append _ _
  let piece := (front ++ c :: after).take style.width
  let rest := (front ++ c :: after).drop style.width
  have hpiece : front ++ c :: after = piece ++ rest := (List.take_append_drop _ _).symm
  have hbytes : byteLength (skipped ++ front ++ c :: after) =
      byteLength skipped + byteLength piece + byteLength rest := by
    rw [List.append_assoc, hpiece, ← List.append_assoc, byteLength_append, byteLength_append]
  have hlength : piece.length = min style.width (front.length + (after.length + 1)) := by
    simp [piece]
  refine ⟨skipped, piece, rest, by rw [List.append_assoc, List.append_assoc, hpiece],
    List.length_take_le _ _, by simp, by rw [List.length_append]; omega, ?_⟩
  have hbefore : 0 < byteLength (skipped ++ front) - style.lead ↔
      style.lead < byteLength (skipped ++ front) := Nat.sub_pos_iff_lt
  have hafter : byteLength (skipped ++ front) - style.lead + byteLength piece <
      byteLength (skipped ++ front ++ c :: after) ↔ ¬ rest = [] := by
    rw [hbytes, byteLength_append, ← hskipped, ← byteLength_eq_zero_iff]
    omega
  simp only [window, hdrop, Option.getD_some, hbefore]
  change _ ++ (if byteLength (skipped ++ front) - style.lead + byteLength piece <
    byteLength (skipped ++ front ++ c :: after) then _ else _) = _
  simp only [hafter, ite_not]
  rfl

/-- A window that would open inside a character shows nothing but the marks. -/
theorem window_of_not_opens (h : ¬ OpensAtCharacter style before) :
    window style (before ++ c :: after) (byteLength before) = style.mark ++ style.mark := by
  have hstart : 0 < byteLength before - style.lead := by
    refine Nat.pos_of_ne_zero fun hzero => h ⟨[], List.nil_prefix, ?_⟩
    rw [hzero]
    rfl
  have hdrop : dropBytes? (byteLength before - style.lead) (before ++ c :: after) = none := by
    refine Option.eq_none_iff_forall_ne_some.mpr fun rest hrest => h ?_
    obtain ⟨skipped, htext, hskipped⟩ := eq_append_of_dropBytes? hrest
    refine ⟨skipped, ?_, hskipped⟩
    have hprefix : skipped <+: before ++ c :: after := ⟨rest, htext.symm⟩
    rcases List.prefix_or_prefix_of_prefix hprefix (List.prefix_append before _) with
      hshort | ⟨more, rfl⟩
    · exact hshort
    · rw [byteLength_append] at hskipped
      have hmore : more = [] := byteLength_eq_zero_iff.mp (by omega)
      simp [hmore]
  have hend : byteLength before - style.lead < byteLength (before ++ c :: after) := by
    have hc := c.utf8Size_pos
    rw [byteLength_append, byteLength]
    omega
  simp only [window, hdrop, Option.getD_none, List.take_nil, onOneLine, String.ofList_nil,
    String.append_empty, if_pos hstart, byteLength, Nat.add_zero, if_pos hend]

end Text

namespace Reader

def Issue.offset : Issue → Nat
  | unformedToken offset => offset
  | extraClose offset _ => offset
  | tooDeep offset => offset
  | unclosed offset _ => offset

theorem Issue.context_toError (input : List Char) (issue : Issue) :
    (issue.toError input).context = some (Text.window Text.windowStyle input issue.offset) := by
  cases issue <;> rfl

/-- The place of an issue in a text: it stands in front of the character `c`, and there a token
starts or none can be formed. -/
structure Issue.At (comments : Bool) (text : List Char) (issue : Issue) (before : List Char)
    (c : Char) (after : List Char) : Prop where
  text_eq : text = before ++ c :: after
  offset_eq : issue.offset = Text.byteLength before
  token : tokens comments text = .error issue.offset ∨
    ∃ ts, tokens comments text = .ok ts ∧ ∃ t ∈ ts, t.offset = issue.offset

variable {comments : Bool}

/-- What is wrong with tokens is wrong with one of them. -/
theorem Fault.exists_token {ts : List Token} {issue : Issue} (h : Fault ts issue) :
    ∃ t ∈ ts, t.offset = issue.offset := by
  cases h with
  | extraClose => exact ⟨_, List.mem_append_right _ List.mem_cons_self, rfl⟩
  | tooDeep => exact ⟨_, List.mem_append_right _ List.mem_cons_self, rfl⟩
  | unclosed => exact ⟨_, List.mem_append_right _ List.mem_cons_self, rfl⟩

/-- Every issue has a place. -/
theorem exists_at_of_values {text : List Char} {issue : Issue}
    (h : values comments text = .error issue) :
    ∃ before c after, issue.At comments text before c after := by
  by_cases hformed : ∀ offset, issue ≠ .unformedToken offset
  · obtain ⟨ts, hts, hfault⟩ := fault_of_values h hformed
    obtain ⟨t, ht, hoffset⟩ := hfault.exists_token
    obtain ⟨before, after, htext, hbefore, hlexeme⟩ := (tokens_eq_ok_iff.mp hts).exists_text ht
    have hpos := hlexeme.byteLength_pos.1
    cases hchars : t.lexeme.text with
    | nil =>
      rw [hchars] at hpos
      exact absurd hpos (Nat.lt_irrefl 0)
    | cons c more =>
      refine ⟨before, c, more ++ after, ?_, ?_, .inr ⟨ts, hts, t, ht, hoffset⟩⟩
      · rw [htext, hchars]
        simp
      · rw [← hoffset, hbefore, Nat.zero_add]
  · obtain ⟨offset, rfl⟩ : ∃ offset, issue = .unformedToken offset := by simpa using hformed
    have htokens : tokens comments text = .error offset := by
      rw [values] at h
      cases htokens : tokens comments text with
      | error found =>
        rw [htokens] at h
        cases h
        rfl
      | ok ts =>
        rw [htokens] at h
        cases assemble_eq_error_iff.mp h
    obtain ⟨front, rest, ts, rfl, rfl, -, ⟨c, after, rfl, -, -⟩, -⟩ :=
      tokens_eq_error_iff.mp htokens
    exact ⟨front, c, after, rfl, rfl, .inl htokens⟩

/-- A text that is not read has an issue, whose place the error shows: a piece of the text of at
most 100 characters that the character at the place stands in, behind a mark if more than 20 bytes
come before the place, and in front of a mark if the text goes on behind the piece. But if the place
20 bytes before is inside a character, the error shows two marks and nothing of the text. -/
theorem readProgram_context (source : String) (e : ReadError)
    (h : readProgram comments source = .error e) :
    ∃ issue before c after context, values comments source.toList = .error issue ∧
      e = issue.toError source.toList ∧ issue.At comments source.toList before c after ∧
      e.context = some context ∧
      (Text.OpensAtCharacter Text.windowStyle before →
        Text.ShowsPlace Text.windowStyle before c after context) ∧
      (¬ Text.OpensAtCharacter Text.windowStyle before →
        context = Text.windowStyle.mark ++ Text.windowStyle.mark) := by
  rw [readProgram] at h
  cases hvalues : values comments source.toList with
  | ok vs =>
    rw [hvalues] at h
    cases h
  | error issue =>
    rw [hvalues] at h
    cases h
    obtain ⟨before, c, after, hat⟩ := exists_at_of_values hvalues
    refine ⟨issue, before, c, after, _, rfl, rfl, hat, issue.context_toError _, ?_, ?_⟩
    · intro hopens
      rw [hat.text_eq, hat.offset_eq]
      exact Text.window_shows (by decide) hopens
    · intro hopens
      rw [hat.text_eq, hat.offset_eq]
      exact Text.window_of_not_opens hopens

theorem readProgram_context_accents :
    let source := "ééééééééééé\n\r("
    let issue := Issue.unclosed 24 1
    let shown := "[...]ééééééééé\\n("
    readProgram false source = .error (issue.toError source.toList) ∧
      (issue.toError source.toList).context = some shown ∧
      ∃ before c after, issue.At false source.toList before c after ∧
        Text.ShowsPlace Text.windowStyle before c after shown := by
  intro source issue shown
  have hissue : values false source.toList = .error issue := by
    unfold source issue
    rfl
  have hread : readProgram false source = .error (issue.toError source.toList) := by
    rw [readProgram, hissue]
  have hshown : (issue.toError source.toList).context = some shown := by decide +kernel
  obtain ⟨found, before, c, after, context, hfound, -, hat, hcontext, hshows, hblank⟩ :=
    readProgram_context source _ hread
  cases hissue.symm.trans hfound
  cases hshown.symm.trans hcontext
  have hopens : Text.OpensAtCharacter Text.windowStyle before := by
    by_contra hnot
    exact absurd (hblank hnot) (by decide)
  exact ⟨hread, hshown, before, c, after, hat, hshows hopens⟩

/-- Where a character of two bytes stands 21 bytes before a bracket that is never closed, the
bracket is not shown. -/
theorem readProgram_context_blank :
    let before := "éxxxxxxxxxxxxxxxxxxx".toList
    let issue := Issue.unclosed 21 1
    let e := issue.toError (before ++ ['('])
    readProgram false "éxxxxxxxxxxxxxxxxxxx(" = .error e ∧
      issue.At false (before ++ ['(']) before '(' [] ∧ e.context = some "[...][...]" ∧
      ¬ Text.ShowsPlace Text.windowStyle before '(' [] "[...][...]" := by
  intro before issue e
  have hread : readProgram false "éxxxxxxxxxxxxxxxxxxx(" = .error e := by
    unfold e issue before
    rfl
  refine ⟨hread, ⟨rfl, by decide +kernel, .inr ?_⟩, by decide +kernel, fun h => ?_⟩
  · exact ⟨[⟨.block before, 0⟩, ⟨.opening '(', 21⟩], by decide +kernel, ⟨.opening '(', 21⟩,
      by simp, rfl⟩
  · exact absurd (h.mem (by decide) (by decide)) (by decide)

end Reader

end Lisplet
