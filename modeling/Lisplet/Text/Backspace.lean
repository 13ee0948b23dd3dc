import Lisplet.Text.Cluster
import Lisplet.Text.Window

/-! Typed lines, in which a backspace takes back what was typed before it. -/
namespace Lisplet.Text

/-- What stands on a line: its text, the last character first, and the number of bytes of each
cluster in it, the last cluster first. One byte holds such a number, so it counts modulo 256. -/
structure Typed where
  text : List Char
  widths : List Nat

namespace Typed

def empty : Typed := ⟨[], []⟩

/-- The line after one more cluster. A backspace removes the bytes of the last cluster, if they
end on a character. -/
def add (t : Typed) (cluster : List Char) : Typed :=
  if cluster = ['\x08'] then
    match t.widths with
    | [] => t
    | width :: widths => ⟨(dropBytes? width t.text).getD t.text, widths⟩
  else ⟨cluster.reverse ++ t.text, byteLength cluster % 256 :: t.widths⟩

end Typed

def applyBackspaces (line : List Char) : List Char :=
  ((clusters line).foldl Typed.add .empty).text.reverse

private theorem text_foldl_add (pieces : List (List Char)) (t : Typed)
    (h : ['\x08'] ∉ pieces) :
    (pieces.foldl Typed.add t).text.reverse = t.text.reverse ++ pieces.flatten := by
  induction pieces generalizing t with
  | nil => simp
  | cons p pieces ih =>
    obtain ⟨hp, hrest⟩ := not_or.1 (mt List.mem_cons.2 h)
    rw [List.foldl_cons, ih _ hrest, Typed.add, if_neg fun e => hp e.symm]
    simp

/-- A line without backspaces stays as it is. -/
theorem applyBackspaces_of_not_mem {line : List Char} (h : '\x08' ∉ line) :
    applyBackspaces line = line := by
  have hp : ['\x08'] ∉ clusters line := fun hm =>
    h (by rw [← flatten_clusters line]; exact List.mem_flatten.2 ⟨_, hm, by simp⟩)
  simpa [applyBackspaces, Typed.empty] using text_foldl_add (clusters line) .empty hp

end Lisplet.Text
