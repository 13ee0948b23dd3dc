import Lisplet.Proofs.Prompt.Unread
import Mathlib.Data.List.TakeWhile

/-! Lines of text and the bytes that encode them. -/
namespace Lisplet

namespace Text

def lines : List Char → List (List Char)
  | [] => []
  | c :: rest =>
    if c = '\n' then [] :: lines rest
    else
      match lines rest with
      | [] => [[c]]
      | line :: more => (c :: line) :: more

/-- A text made of lines. Only the last may lack a line feed, and then it is not empty. -/
inductive Lined : List Char → List (List Char) → Prop where
  | nil : Lined [] []
  | last {line : List Char} (hne : line ≠ []) (h : '\n' ∉ line) : Lined line [line]
  | cons {line rest : List Char} {ls : List (List Char)} (h : '\n' ∉ line) (hrest : Lined rest ls) :
    Lined (line ++ '\n' :: rest) (line :: ls)

theorem lined_lines (text : List Char) : Lined text (lines text) := by
  induction text with
  | nil => exact .nil
  | cons c text ih =>
    rw [lines]
    split
    · rename_i hc
      rw [hc]
      exact @Lined.cons [] text _ (by simp) ih
    · rename_i hc
      have hnot {line : List Char} (h : '\n' ∉ line) : '\n' ∉ c :: line := by
        rintro (_ | ⟨_, hmem⟩)
        · exact hc rfl
        · exact h hmem
      revert ih
      generalize lines text = ls
      intro ih
      cases ih with
      | nil => exact .last (by simp) (hnot (by simp))
      | last hne h => exact .last (by simp) (hnot h)
      | cons h hrest => exact .cons (hnot h) hrest

theorem Lined.length_le {text : List Char} {ls : List (List Char)} (h : Lined text ls) :
    ls.length ≤ text.length := by
  induction h with
  | nil => simp
  | last hne h =>
    exact List.length_pos_iff.mpr hne
  | cons h hrest ih =>
    simp
    omega

/-- Nothing but blanks is left of a text that is trimmed to nothing. -/
theorem isBlank_of_trim_eq_nil {cs : List Char} (h : trim cs = []) :
    ∀ c ∈ cs, isBlank c = true := by
  have hrest : ∀ c ∈ cs.dropWhile isBlank, isBlank c = true := by
    intro c hc
    have hnil := List.reverse_eq_nil_iff.mp h
    exact List.dropWhile_eq_nil_iff.mp hnil c (List.mem_reverse.mpr hc)
  intro c hc
  rw [← List.takeWhile_append_dropWhile (p := isBlank) (l := cs)] at hc
  rcases List.mem_append.mp hc with hc | hc
  · exact List.mem_takeWhile_imp hc
  · exact hrest c hc

def encode (cs : List Char) : List UInt8 := cs.flatMap String.utf8EncodeChar

theorem encode_append (a b : List Char) : encode (a ++ b) = encode a ++ encode b :=
  List.flatMap_append

theorem encode_toList (s : String) : s.toUTF8.data.toList = encode s.toList := by
  have hbytes : s.toByteArray = s.toList.utf8Encode := by
    rw [← String.toByteArray_ofList, String.ofList_toList]
  simp [hbytes, List.utf8Encode, encode]

theorem length_le_encode (cs : List Char) : cs.length ≤ (encode cs).length := by
  induction cs with
  | nil => simp
  | cons c cs ih =>
    have hc := c.utf8Size_pos
    simp only [encode, List.flatMap_cons, List.length_append, String.length_utf8EncodeChar,
      List.length_cons] at ih ⊢
    omega

/-- A line feed is encoded as the byte that no other character holds. -/
theorem newline_of_mem_utf8EncodeChar {c : Char} (h : (10 : UInt8) ∈ String.utf8EncodeChar c) :
    c = '\n' := by
  have hbyte (n : Nat) (hn : n < 256) (hten : (10 : UInt8) = UInt8.ofNat n) : n = 10 := by
    have htoNat := congrArg UInt8.toNat hten
    rw [UInt8.toNat_ofNat_of_lt' hn] at htoNat
    exact htoNat.symm
  -- Every byte of a longer encoding is at least 128.
  have hlarge (n k : Nat) (hn : n + k < 256) (hk : 128 ≤ k) : (10 : UInt8) ≠ UInt8.ofNat (n + k) :=
    fun hten => by
      have hten' := hbyte (n + k) hn hten
      omega
  unfold String.utf8EncodeChar at h
  dsimp only at h
  split at h
  · have hval : c.val.toNat = 10 := hbyte _ (by omega) (List.mem_singleton.mp h)
    exact Char.toNat_inj.mp hval
  · exfalso
    split at h
    · simp only [List.mem_cons, List.not_mem_nil, or_false] at h
      rcases h with h | h <;> exact hlarge _ _ (by omega) (by omega) h
    · split at h <;> simp only [List.mem_cons, List.not_mem_nil, or_false] at h
      · rcases h with h | h | h <;> exact hlarge _ _ (by omega) (by omega) h
      · rcases h with h | h | h | h <;> exact hlarge _ _ (by omega) (by omega) h

theorem not_mem_encode {line : List Char} (h : '\n' ∉ line) : (10 : UInt8) ∉ encode line := by
  intro hmem
  obtain ⟨c, hc, hbyte⟩ := List.mem_flatMap.mp hmem
  rw [newline_of_mem_utf8EncodeChar hbyte] at hc
  exact h hc

end Text

namespace Console

theorem decode?_encode (cs : List Char) : decode? (Text.encode cs) = some (String.ofList cs) := by
  have hbytes : (⟨(Text.encode cs).toArray⟩ : ByteArray) = (String.ofList cs).toByteArray := by
    rw [String.toByteArray_ofList, List.utf8Encode, ByteArray.ext_iff, List.data_toByteArray]
    rfl
  have hvalid : (String.ofList cs).toByteArray.IsValidUTF8 := (String.ofList cs).isValidUTF8
  rw [decode?, hbytes, String.fromUTF8?, dif_pos hvalid]
  rfl

theorem splitLine_of_not_mem {bytes : List UInt8} (h : (10 : UInt8) ∉ bytes) :
    splitLine bytes = (bytes, []) := by
  induction bytes with
  | nil => rfl
  | cons b bytes ih =>
    obtain ⟨hb, hbytes⟩ := not_or.mp (mt List.mem_cons.mpr h)
    rw [splitLine, if_neg (Ne.symm hb), ih hbytes]

theorem splitLine_append_cons {bytes : List UInt8} (h : (10 : UInt8) ∉ bytes)
    (rest : List UInt8) : splitLine (bytes ++ 10 :: rest) = (bytes ++ [10], rest) := by
  induction bytes with
  | nil => rfl
  | cons b bytes ih =>
    obtain ⟨hb, hbytes⟩ := not_or.mp (mt List.mem_cons.mpr h)
    rw [List.cons_append, splitLine, if_neg (Ne.symm hb), ih hbytes]
    rfl

end Console

namespace CommandLine

theorem typedLine_of_not_mem {line : List Char} (hfeed : '\n' ∉ line) (hback : '\x08' ∉ line) :
    typedLine line = line := by
  have hdrop : dropLineFeed line = line := by
    unfold dropLineFeed
    split
    · rename_i rest h
      exact absurd (List.mem_reverse.mp (h ▸ List.mem_cons_self)) hfeed
    · rename_i rest _ h
      exact absurd (List.mem_reverse.mp (h ▸ List.mem_cons_self)) hfeed
    · rfl
  rw [typedLine, hdrop, Text.applyBackspaces_of_not_mem hback]

theorem typedLine_append_newline {line : List Char} (hreturn : '\r' ∉ line)
    (hback : '\x08' ∉ line) : typedLine (line ++ ['\n']) = line := by
  have hdrop : dropLineFeed (line ++ ['\n']) = line := by
    unfold dropLineFeed
    rw [List.reverse_concat]
    split
    · rename_i rest h
      have hrest : line.reverse = '\r' :: rest := (List.cons.inj h).2
      exact absurd (List.mem_reverse.mp (hrest ▸ List.mem_cons_self)) hreturn
    · rename_i rest _ h
      rw [← (List.cons.inj h).2, List.reverse_reverse]
    · rename_i h
      exact absurd rfl (h _)
  rw [typedLine, hdrop, Text.applyBackspaces_of_not_mem hback]

end CommandLine

/-- The first line of a text is the first that is taken from its bytes, and typed as it stands. -/
theorem Text.Lined.splitLine {text line : List Char} {ls : List (List Char)}
    (h : Lined text (line :: ls)) (hreturn : '\r' ∉ text) (hback : '\x08' ∉ text) :
    ∃ whole rest, text = whole ++ rest ∧ Lined rest ls ∧ whole ≠ [] ∧
      Console.splitLine (encode text) = (encode whole, encode rest) ∧
      CommandLine.typedLine whole = line := by
  cases h with
  | last hne h =>
    refine ⟨text, [], by simp, .nil, hne, ?_, CommandLine.typedLine_of_not_mem h hback⟩
    rw [Console.splitLine_of_not_mem (not_mem_encode h)]
    rfl
  | @cons _ rest _ h hrest =>
    simp only [List.mem_append, not_or] at hreturn hback
    refine ⟨line ++ ['\n'], rest, by simp, hrest, by simp, ?_,
      CommandLine.typedLine_append_newline hreturn.1 hback.1⟩
    have hencode : encode (line ++ '\n' :: rest) = encode line ++ 10 :: encode rest :=
      encode_append line ('\n' :: rest)
    rw [hencode, Console.splitLine_append_cons (not_mem_encode h), encode_append]
    rfl

end Lisplet
