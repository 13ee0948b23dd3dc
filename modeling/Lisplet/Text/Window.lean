/-! The piece of a text that is shown around a byte offset. -/
namespace Lisplet.Text

def byteLength : List Char → Nat
  | [] => 0
  | c :: rest => c.utf8Size + byteLength rest

/-- What follows the first `n` bytes, if byte `n` starts a character or ends the text. -/
def dropBytes? : Nat → List Char → Option (List Char)
  | 0, cs => some cs
  | _ + 1, [] => none
  | n + 1, c :: rest => if c.utf8Size ≤ n + 1 then dropBytes? (n + 1 - c.utf8Size) rest else none

/-- How many bytes before the offset a window opens, how many characters it holds at most, and
the mark for text left out on either side. -/
structure WindowStyle where
  lead : Nat
  width : Nat
  mark : String

/-- Windows open 20 bytes before the offset and hold 100 characters. -/
def windowStyle : WindowStyle := ⟨20, 100, "[...]"⟩

/-- Shows a line break as a backslash and the letter n, and drops carriage returns. -/
def onOneLine : List Char → List Char
  | [] => []
  | c :: rest =>
    if c = '\n' then '\\' :: 'n' :: onOneLine rest
    else if c = '\r' then onOneLine rest
    else c :: onOneLine rest

/-- The text around a byte offset. It is empty when the window would open inside a character. -/
def window (style : WindowStyle) (input : List Char) (offset : Nat) : String :=
  let start := offset - style.lead
  let piece := ((dropBytes? start input).getD []).take style.width
  let before := if 0 < start then style.mark else ""
  let after := if start + byteLength piece < byteLength input then style.mark else ""
  before ++ String.ofList (onOneLine piece) ++ after

@[simp] theorem byteLength_append (a b : List Char) :
    byteLength (a ++ b) = byteLength a + byteLength b := by
  induction a with
  | nil => simp [byteLength]
  | cons c a ih => simp [byteLength, ih, Nat.add_assoc]

/-- Dropping the bytes of a text that stands in front leaves what follows it. -/
theorem dropBytes?_append (a b : List Char) : dropBytes? (byteLength a) (a ++ b) = some b := by
  induction a with
  | nil => rw [byteLength, List.nil_append, dropBytes?]
  | cons c a ih =>
    have hc : 0 < c.utf8Size := c.utf8Size_pos
    obtain ⟨n, hn⟩ : ∃ n, c.utf8Size + byteLength a = n + 1 :=
      ⟨c.utf8Size + byteLength a - 1, by omega⟩
    have hle : c.utf8Size ≤ n + 1 := by omega
    have hsub : n + 1 - c.utf8Size = byteLength a := by omega
    rw [byteLength, List.cons_append, hn, dropBytes?, if_pos hle, hsub, ih]

end Lisplet.Text
